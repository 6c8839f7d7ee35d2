import WebV8.Lib.Words

/-!
# `ArgumentEncoder`

An encoder appends to a buffer. Before each datum it skips to the next multiple of the datum's
alignment, counted from the start of the buffer. The bytes that are skipped are never written, so
they hold whatever the allocator left there.
-/

namespace WebV8.IPC

open Lib

/-! ## Arithmetic types -/

inductive Arithmetic where
  | bool
  | uint8
  | uint16
  | uint32
  | uint64
  | int32
  | int64
  deriving DecidableEq, Repr

variable (a : Arithmetic)

namespace Arithmetic

def Value : Arithmetic → Type
  | bool => Bool
  | uint8 => UInt8
  | uint16 => UInt16
  | uint32 => UInt32
  | uint64 => UInt64
  | int32 => Int32
  | int64 => Int64

instance instDecidableEqValue : (a : Arithmetic) → DecidableEq a.Value
  | bool => inferInstanceAs (DecidableEq Bool)
  | uint8 => inferInstanceAs (DecidableEq UInt8)
  | uint16 => inferInstanceAs (DecidableEq UInt16)
  | uint32 => inferInstanceAs (DecidableEq UInt32)
  | uint64 => inferInstanceAs (DecidableEq UInt64)
  | int32 => inferInstanceAs (DecidableEq Int32)
  | int64 => inferInstanceAs (DecidableEq Int64)

/-- `sizeof` and `alignof`, which agree for these types. -/
def size : Arithmetic → Nat
  | bool | uint8 => 1
  | uint16 => 2
  | uint32 | int32 => 4
  | uint64 | int64 => 8

/-- The bytes `memcpy` takes out of a value. -/
def bytes : (a : Arithmetic) → a.Value → List UInt8
  | bool, b => leBytes 1 (Bool.toNat b)
  | uint8, n => leBytes 1 (UInt8.toNat n)
  | uint16, n => leBytes 2 (UInt16.toNat n)
  | uint32, n => leBytes 4 (UInt32.toNat n)
  | uint64, n => leBytes 8 (UInt64.toNat n)
  | int32, n => leBytes 4 (Int32.toBitVec n).toNat
  | int64, n => leBytes 8 (Int64.toBitVec n).toNat

/-- The value `memcpy` makes of some bytes. Any byte other than zero tests as true. -/
def ofBytes : (a : Arithmetic) → List UInt8 → a.Value
  | bool, bs => ofLeBytes bs != 0
  | uint8, bs => UInt8.ofNat (ofLeBytes bs)
  | uint16, bs => UInt16.ofNat (ofLeBytes bs)
  | uint32, bs => UInt32.ofNat (ofLeBytes bs)
  | uint64, bs => UInt64.ofNat (ofLeBytes bs)
  | int32, bs => Int32.ofBitVec (BitVec.ofNat 32 (ofLeBytes bs))
  | int64, bs => Int64.ofBitVec (BitVec.ofNat 64 (ofLeBytes bs))

@[simp] theorem length_bytes (v : a.Value) : (a.bytes v).length = a.size := by
  cases a <;> exact length_leBytes ..

theorem ofBytes_bytes (v : a.Value) : a.ofBytes (a.bytes v) = v := by
  cases a with
  | bool => cases v <;> rfl
  | uint8 =>
    have hv := UInt8.toNat_lt v
    simp only [ofBytes, bytes, ofLeBytes_leBytes]
    rw [Nat.mod_eq_of_lt (by omega)]
    exact UInt8.ofNat_toNat
  | uint16 =>
    have hv := UInt16.toNat_lt v
    simp only [ofBytes, bytes, ofLeBytes_leBytes]
    rw [Nat.mod_eq_of_lt (by omega)]
    exact UInt16.ofNat_toNat
  | uint32 =>
    have hv := UInt32.toNat_lt v
    simp only [ofBytes, bytes, ofLeBytes_leBytes]
    rw [Nat.mod_eq_of_lt (by omega)]
    exact UInt32.ofNat_toNat
  | uint64 =>
    have hv := UInt64.toNat_lt v
    simp only [ofBytes, bytes, ofLeBytes_leBytes]
    rw [Nat.mod_eq_of_lt (by omega)]
    exact UInt64.ofNat_toNat
  | int32 =>
    have hv := (Int32.toBitVec v).isLt
    simp only [ofBytes, bytes, ofLeBytes_leBytes]
    rw [Nat.mod_eq_of_lt (by omega), BitVec.ofNat_toNat, BitVec.setWidth_eq]
    rfl
  | int64 =>
    simp only [ofBytes, bytes, ofLeBytes_leBytes]
    rw [Nat.mod_eq_of_lt (by omega), BitVec.ofNat_toNat, BitVec.setWidth_eq]
    rfl

theorem size_pos : 0 < a.size := by cases a <;> decide

theorem size_dvd : a.size ∣ 8 := by cases a <;> decide

variable (values : List a.Value)

def arrayBytes : List UInt8 := values.flatMap a.bytes

def ofArrayBytes (n : Nat) (bs : List UInt8) : List a.Value :=
  (records a.size n bs).map a.ofBytes

theorem length_arrayBytes :
    (a.arrayBytes values).length = values.length * a.size := length_flatMap_const a.length_bytes values

theorem ofArrayBytes_arrayBytes :
    a.ofArrayBytes values.length (a.arrayBytes values) = values := by
  rw [ofArrayBytes, arrayBytes, records_flatMap a.length_bytes, List.map_map]
  have hid : a.ofBytes ∘ a.bytes = id := funext a.ofBytes_bytes
  rw [hid, List.map_id]

end Arithmetic

/-! ## The encoder -/

structure ArgumentEncoder where
  /-- The first `m_bufferSize` bytes at `m_buffer`. -/
  buffer : List UInt8
  /-- What the memory behind `m_buffer` holds before anything is written to it, by offset. -/
  uninitialized : Nat → UInt8

variable (e : ArgumentEncoder) {alignment : Nat}

namespace ArgumentEncoder

def new (uninitialized : Nat → UInt8) : ArgumentEncoder := { buffer := [], uninitialized := uninitialized }

def bufferSize : Nat := e.buffer.length

def roundUpToAlignment (value alignment : Nat) : Nat := roundUp value alignment

/-- The memory from offset `start` on, before it is written. -/
def fresh (start size : Nat) : List UInt8 :=
  (List.range' start size).map e.uninitialized

/-- Make room for `size` bytes, and say where they go. -/
def grow (alignment size : Nat) : ArgumentEncoder × Nat :=
  let alignedSize := roundUpToAlignment e.bufferSize alignment
  ({ e with buffer := e.buffer ++ e.fresh e.bufferSize (alignedSize + size - e.bufferSize) }, alignedSize)

/-- `memcpy` into the buffer. -/
def memcpy (buffer : Nat) (data : List UInt8) : ArgumentEncoder :=
  { e with buffer := e.buffer.take buffer ++ data ++ e.buffer.drop (buffer + data.length) }

def encodeFixedLengthData (data : List UInt8) (alignment : Nat) (e : ArgumentEncoder) : ArgumentEncoder :=
  let (e, buffer) := e.grow alignment data.length
  e.memcpy buffer data

/-- The overloads of `encode` for arithmetic types. -/
def encode (n : a.Value) (e : ArgumentEncoder) : ArgumentEncoder :=
  let (e, buffer) := e.grow a.size a.size
  e.memcpy buffer (a.bytes n)

def encodeVariableLengthByteArray (dataReference : List UInt8) (e : ArgumentEncoder) : ArgumentEncoder :=
  encodeFixedLengthData dataReference 1 (encode .uint64 (UInt64.ofNat dataReference.length) e)

/-! ## What is appended -/

theorem encode_eq (n : a.Value) (e : ArgumentEncoder) :
    encode a n e = encodeFixedLengthData (a.bytes n) a.size e := by
  simp only [encode, encodeFixedLengthData, Arithmetic.length_bytes]

theorem buffer_encodeFixedLengthData (data : List UInt8) (ha : 0 < alignment)
    (e : ArgumentEncoder) : (encodeFixedLengthData data alignment e).buffer =
      e.buffer ++ e.fresh e.bufferSize (roundUp e.bufferSize alignment - e.bufferSize) ++ data := by
  have hle : e.bufferSize ≤ roundUp e.bufferSize alignment := le_roundUp ha _
  obtain ⟨p, hp⟩ : ∃ p, roundUp e.bufferSize alignment = e.bufferSize + p := ⟨_, (Nat.add_sub_of_le hle).symm⟩
  have hroom : e.bufferSize + p + data.length - e.bufferSize = p + data.length := by omega
  have hfre : e.fresh e.bufferSize (p + data.length) =
      e.fresh e.bufferSize p ++ e.fresh (e.bufferSize + p) data.length := by
    rw [fresh, fresh, fresh, ← List.map_append, List.range'_append_1]
  have hlen : (e.buffer ++ e.fresh e.bufferSize p).length = e.bufferSize + p := by
    simp [fresh, bufferSize]
  simp only [encodeFixedLengthData, grow, memcpy, roundUpToAlignment, hp, hroom, hfre, Nat.add_sub_cancel_left]
  rw [← List.append_assoc, List.take_left' hlen, List.drop_eq_nil_of_le (by simp [fresh, bufferSize]; omega),
    List.append_nil]

theorem length_fresh (ha : 0 < alignment) :
    (e.buffer ++ e.fresh e.bufferSize (roundUp e.bufferSize alignment - e.bufferSize)).length =
      roundUp e.bufferSize alignment := by
  have hle : e.bufferSize ≤ roundUp e.bufferSize alignment := le_roundUp ha _
  simp [fresh, bufferSize] at hle ⊢
  omega

end ArgumentEncoder

end WebV8.IPC
