import WebV8.IPC.ArgumentEncoder

/-!
# `ArgumentDecoder`

A decoder owns a block of memory with a copy of the message and walks through it with a pointer.
Pointers are numbers below `2 ^ 64` and wrap there. A decoder that has failed is marked by a pointer
past the end of the block.

Next to what the source keeps, a decoder here carries a record of what it did: which memory was read,
for which stretch of the message memory was allocated, and how many elements of containers were asked
for.
-/

namespace WebV8.IPC

open Lib

/-! ## Memory -/

/-- A block that `malloc` returned: it is aligned for every type in use and lies in the program's half
    of the address space. -/
structure Block where
  address : Nat
  bytes : List UInt8
  aligned : 8 ∣ address
  inUserSpace : address + bytes.length ≤ 2 ^ 63

/-- What is found at an address. Outside the block this could be anything. -/
def Block.load (b : Block) (address : Nat) : UInt8 := b.bytes.getD (address - b.address) 0

def Block.loads (b : Block) (address size : Nat) : List UInt8 := (List.range' address size).map b.load

def wrap (n : Nat) : Nat := n % 2 ^ 64

/-- `size` bytes starting at `address`. -/
structure Stretch where
  address : Nat
  size : Nat
  deriving DecidableEq, Repr

def Block.Covers (b : Block) (r : Stretch) : Prop :=
  b.address ≤ r.address ∧ r.address + r.size ≤ b.address + b.bytes.length

instance (b : Block) (r : Stretch) : Decidable (b.Covers r) := inferInstanceAs (Decidable (_ ∧ _))

/-! ## The decoder -/

structure ArgumentDecoder where
  /-- `m_buffer` and what it points to. -/
  block : Block
  bufferPos : Nat
  /-- The memory read so far. -/
  reads : List Stretch
  /-- For every string or vector that was allocated, the bytes it is made from. -/
  allocations : List Stretch
  /-- How many elements of containers were asked for. -/
  elementDecodes : Nat

namespace ArgumentDecoder

def new (block : Block) : ArgumentDecoder :=
  { block := block, bufferPos := block.address, reads := [], allocations := [], elementDecodes := 0 }

variable (d : ArgumentDecoder)

def bufferEnd : Nat := wrap (d.block.address + d.block.bytes.length)

def isInvalid : Bool := d.bufferEnd < d.bufferPos

def markInvalid : ArgumentDecoder := { d with bufferPos := wrap (d.bufferEnd + 1) }

/-- `(ptr + alignmentMask) & ~alignmentMask` -/
def roundUpToAlignment (ptr alignment : Nat) : Nat :=
  wrap (ptr + (alignment - 1)) &&& (2 ^ 64 - 1 - (alignment - 1))

def alignedBufferIsLargeEnoughToContain (alignedPosition bufferEnd size : Nat) : Bool :=
  alignedPosition ≤ bufferEnd && size ≤ bufferEnd - alignedPosition

def bufferIsLargeEnoughToContain (alignment size : Nat) : Bool :=
  alignedBufferIsLargeEnoughToContain (roundUpToAlignment d.bufferPos alignment) d.bufferEnd size

/-- The overload for `numElements` values of an arithmetic type. -/
def bufferIsLargeEnoughToContainElements (a : Arithmetic) (numElements : Nat) : Bool :=
  if (2 ^ 64 - 1) / a.size < numElements then false
  else d.bufferIsLargeEnoughToContain a.size (wrap (numElements * a.size))

end ArgumentDecoder

/-! ## Decoding -/

inductive Stop where
  /-- The call returns false. -/
  | failed
  /-- The call dereferences a null pointer. -/
  | crashed
  deriving DecidableEq, Repr

abbrev Decode := ExceptT Stop (StateM ArgumentDecoder)

def Decode.on {α : Type} (x : Decode α) (d : ArgumentDecoder) : Except Stop α × ArgumentDecoder :=
  StateT.run (ExceptT.run x) d

namespace Decode

variable {α β : Type}

/-- `markInvalid(); return false;` -/
def invalidate : Decode α := do
  modify ArgumentDecoder.markInvalid
  throw .failed

def alignBufferPosition (alignment size : Nat) : Decode Unit := do
  let d ← get
  let alignedPosition := ArgumentDecoder.roundUpToAlignment d.bufferPos alignment
  if ArgumentDecoder.alignedBufferIsLargeEnoughToContain alignedPosition d.bufferEnd size then
    set { d with bufferPos := alignedPosition }
  else
    -- We've walked off the end of this buffer.
    invalidate

/-- Copy `size` bytes from the current position, and step over them. -/
def take (size : Nat) : Decode (List UInt8) := do
  let d ← get
  set { d with bufferPos := wrap (d.bufferPos + size), reads := d.reads ++ [Stretch.mk d.bufferPos size] }
  return d.block.loads d.bufferPos size

def decodeFixedLengthData (size alignment : Nat) : Decode (List UInt8) := do
  alignBufferPosition alignment size
  take size

/-- The overloads of `decode` for arithmetic types. -/
def decode (a : Arithmetic) : Decode a.Value := do
  alignBufferPosition a.size a.size
  return a.ofBytes (← take a.size)

/-- The reference points into the block, so the bytes it refers to count as read. -/
def decodeVariableLengthByteArray : Decode (List UInt8) := do
  let size ← decode .uint64
  alignBufferPosition 1 (UInt64.toNat size)
  take (UInt64.toNat size)

/-- Go on only if the buffer holds this many values; allocate memory for them. -/
def allocate (a : Arithmetic) (numElements : Nat) : Decode Unit := do
  let d ← get
  if d.bufferIsLargeEnoughToContainElements a numElements then
    set { d with allocations := d.allocations ++
      [Stretch.mk (ArgumentDecoder.roundUpToAlignment d.bufferPos a.size) (numElements * a.size)] }
  else
    invalidate

def element (x : Decode α) : Decode α := do
  modify fun d => { d with elementDecodes := d.elementDecodes + 1 }
  x

def appended (x : Decode α) : Decode α := do
  let start := (← get).bufferPos
  let value ← element x
  modify fun d => { d with allocations := d.allocations ++ [⟨start, d.bufferPos - start⟩] }
  return value

/-- A call whose result is ignored: the memory that was to be filled stays as it was allocated. -/
def orElse (x : Decode α) (unchanged : α) : Decode α := tryCatch x fun _ => return unchanged

/-! ## Calls one after the other -/

variable (d : ArgumentDecoder) {f : α → Decode β} {x : Decode α}

@[simp] theorem on_pure (a : α) : Decode.on (pure a) d = (.ok a, d) := rfl

@[simp] theorem on_throw (e : Stop) : Decode.on (throw e : Decode α) d = (.error e, d) := rfl

@[simp] theorem on_get : Decode.on get d = (.ok d, d) := rfl

@[simp] theorem on_set (d' : ArgumentDecoder) : Decode.on (set d') d = (.ok (), d') := rfl

@[simp] theorem on_modify (f : ArgumentDecoder → ArgumentDecoder) : Decode.on (modify f) d = (.ok (), f d) := rfl

@[simp] theorem on_invalidate : Decode.on (invalidate : Decode α) d = (.error .failed, d.markInvalid) := rfl

theorem on_bind (x : Decode α) (f : α → Decode β) :
    Decode.on (x >>= f) d =
      match x.on d with
      | (.ok a, d') => (f a).on d'
      | (.error e, d') => (.error e, d') := by
  simp only [Decode.on, ExceptT.run_bind, StateT.run_bind]
  rcases StateT.run (ExceptT.run x) d with ⟨r, d'⟩
  cases r <;> rfl

theorem on_bind_ok {d d' : ArgumentDecoder} {a : α}
    (h : x.on d = (.ok a, d')) : Decode.on (x >>= f) d = (f a).on d' := by
  rw [on_bind, h]

theorem on_bind_error {d d' : ArgumentDecoder} {e : Stop}
    (h : x.on d = (.error e, d')) : Decode.on (x >>= f) d = (.error e, d') := by
  rw [on_bind, h]

theorem on_orElse (x : Decode α) (unchanged : α) :
    (orElse x unchanged).on d =
      match x.on d with
      | (.ok a, d') => (.ok a, d')
      | (.error _, d') => (.ok unchanged, d') := by
  simp only [Decode.on, orElse, ExceptT.run_tryCatch, StateT.run_bind]
  rcases StateT.run (ExceptT.run x) d with ⟨r, d'⟩
  cases r <;> rfl

end Decode

/-! ## No pointer wraps -/

namespace ArgumentDecoder

variable (d : ArgumentDecoder)

theorem bufferEnd_eq : d.bufferEnd = d.block.address + d.block.bytes.length := by
  have h := d.block.inUserSpace
  exact Nat.mod_eq_of_lt (by omega)

theorem bufferEnd_le : d.bufferEnd ≤ 2 ^ 63 := by
  rw [bufferEnd_eq]
  exact d.block.inUserSpace

theorem isInvalid_iff : d.isInvalid = true ↔ d.bufferEnd < d.bufferPos := by
  rw [isInvalid, decide_eq_true_eq]

@[simp] theorem block_markInvalid : d.markInvalid.block = d.block := rfl

@[simp] theorem bufferEnd_markInvalid : d.markInvalid.bufferEnd = d.bufferEnd := rfl

theorem bufferPos_markInvalid : d.markInvalid.bufferPos = d.bufferEnd + 1 := by
  have h := d.bufferEnd_le
  exact Nat.mod_eq_of_lt (by omega)

theorem isInvalid_markInvalid : d.markInvalid.isInvalid = true := by
  rw [isInvalid_iff, bufferPos_markInvalid, bufferEnd_markInvalid]
  omega

theorem roundUpToAlignment_eq {ptr alignment : Nat} (hp : ptr ≤ 2 ^ 63 + 1) (ha : alignment ∣ 8) :
    roundUpToAlignment ptr alignment = roundUp ptr alignment := by
  obtain ⟨k, hk, rfl⟩ := (Nat.dvd_prime_pow Nat.prime_two).mp (show alignment ∣ 2 ^ 3 from ha)
  have hpow : 2 ^ k ≤ 2 ^ 3 := Nat.pow_le_pow_right (by decide) hk
  exact roundUp_mask (by omega) (by omega)

theorem alignedBufferIsLargeEnoughToContain_iff {alignedPosition bufferEnd size : Nat} :
    alignedBufferIsLargeEnoughToContain alignedPosition bufferEnd size = true ↔
      alignedPosition + size ≤ bufferEnd := by
  simp [alignedBufferIsLargeEnoughToContain]
  omega

theorem bufferIsLargeEnoughToContainElements_iff {d : ArgumentDecoder} (hp : d.bufferPos ≤ 2 ^ 63 + 1)
    (a : Arithmetic) (numElements : Nat) : d.bufferIsLargeEnoughToContainElements a numElements = true ↔
      roundUp d.bufferPos a.size + numElements * a.size ≤ d.bufferEnd := by
  have hend := d.bufferEnd_le
  rw [bufferIsLargeEnoughToContainElements, bufferIsLargeEnoughToContain, roundUpToAlignment_eq hp a.size_dvd]
  by_cases hlar : (2 ^ 64 - 1) / a.size < numElements
  · have hsize := (Nat.div_lt_iff_lt_mul a.size_pos).mp hlar
    rw [if_pos hlar]
    constructor
    · intro h
      cases h
    · intro h
      omega
  · have hsize := mt (Nat.div_lt_iff_lt_mul a.size_pos).mpr hlar
    have hwrap : wrap (numElements * a.size) = numElements * a.size := Nat.mod_eq_of_lt (by omega)
    rw [if_neg hlar, hwrap, alignedBufferIsLargeEnoughToContain_iff]

end ArgumentDecoder

namespace Decode

open ArgumentDecoder

variable {d : ArgumentDecoder} {size alignment : Nat}

section

variable (hp : d.bufferPos ≤ 2 ^ 63 + 1)
include hp

theorem on_alignBufferPosition (ha : alignment ∣ 8) :
    (alignBufferPosition alignment size).on d = if roundUp d.bufferPos alignment + size ≤ d.bufferEnd then
        (.ok (), { d with bufferPos := roundUp d.bufferPos alignment })
      else (.error .failed, d.markInvalid) := by
  rw [alignBufferPosition, on_bind_ok (on_get d), roundUpToAlignment_eq hp ha]
  simp only [alignedBufferIsLargeEnoughToContain_iff]
  split <;> rfl

theorem on_decodeFixedLengthData (ha : alignment ∣ 8) :
    (decodeFixedLengthData size alignment).on d = if roundUp d.bufferPos alignment + size ≤ d.bufferEnd then
        (.ok (d.block.loads (roundUp d.bufferPos alignment) size),
          { d with
            bufferPos := roundUp d.bufferPos alignment + size
            reads := d.reads ++ [⟨roundUp d.bufferPos alignment, size⟩] })
      else (.error .failed, d.markInvalid) := by
  have hend := d.bufferEnd_le
  have hali : (alignBufferPosition alignment size).on d = _ := on_alignBufferPosition hp ha
  by_cases hfit : roundUp d.bufferPos alignment + size ≤ d.bufferEnd
  · have hwrap : wrap (roundUp d.bufferPos alignment + size) = roundUp d.bufferPos alignment + size :=
      Nat.mod_eq_of_lt (by omega)
    rw [if_pos hfit] at hali ⊢
    rw [decodeFixedLengthData, on_bind_ok hali]
    change (Except.ok _, _) = _
    rw [hwrap]
  · rw [if_neg hfit] at hali ⊢
    rw [decodeFixedLengthData, on_bind_error hali]

theorem on_allocate (a : Arithmetic) (numElements : Nat) :
    (allocate a numElements).on d = if roundUp d.bufferPos a.size + numElements * a.size ≤ d.bufferEnd then
        (.ok (), { d with
          allocations := d.allocations ++ [⟨roundUp d.bufferPos a.size, numElements * a.size⟩] })
      else (.error .failed, d.markInvalid) := by
  rw [allocate, on_bind_ok (on_get d), roundUpToAlignment_eq hp a.size_dvd]
  simp only [bufferIsLargeEnoughToContainElements_iff hp]
  split <;> rfl

end

theorem decode_eq (a : Arithmetic) : decode a = (do return a.ofBytes (← decodeFixedLengthData a.size a.size)) := by
  simp only [decode, decodeFixedLengthData, bind_assoc]

end Decode

end WebV8.IPC
