import Mathlib

/-!
# WebSocket frames

`parseFrame` of `WebCore/Modules/websockets/WebSocketFrame.cpp`, which reads one frame off the
front of the receive buffer. `const char*` pointers into the buffer are offsets from its start, and
the source's in-place unmasking is done on the payload that goes into the frame.

The facts the channel needs are that a verdict on the front of a stream is not changed by what
comes after it (`parseFrame_append`) and that a complete frame is not empty and lies inside the
buffer (`frameEnd_bounds`).
-/

namespace WebV8

/-- `WebSocketFrame::OpCode`. The cast from the four bits of the header gives every number a
    value; those that name no constant of the enumeration are `reserved`. -/
inductive OpCode where
  | continuation
  | text
  | binary
  | close
  | ping
  | pong
  | reserved (code : Nat)
deriving DecidableEq, Repr

namespace OpCode

def ofNat : Nat → OpCode
  | 0x0 => .continuation
  | 0x1 => .text
  | 0x2 => .binary
  | 0x8 => .close
  | 0x9 => .ping
  | 0xA => .pong
  | code => .reserved code

def toNat : OpCode → Nat
  | continuation => 0x0
  | text => 0x1
  | binary => 0x2
  | close => 0x8
  | ping => 0x9
  | pong => 0xA
  | reserved code => code

def isControlOpCode : OpCode → Bool
  | close | ping | pong => true
  | _ => false

def isReservedOpCode : OpCode → Bool
  | reserved _ => true
  | _ => false

end OpCode

structure WebSocketFrame where
  opCode : OpCode
  final : Bool
  compress : Bool
  reserved2 : Bool
  reserved3 : Bool
  masked : Bool
  payload : List UInt8
deriving DecidableEq, Repr

def WebSocketFrame.payloadLength (frame : WebSocketFrame) : Nat := frame.payload.length

inductive ParseFrameResult where
  | frameOK (frame : WebSocketFrame) (frameEnd : Nat)
  | frameIncomplete
  | frameError (errorString : String)
deriving DecidableEq, Repr

/-! ## The header fields -/

def finalBit : UInt8 := 0x80
def compressBit : UInt8 := 0x40
def reserved2Bit : UInt8 := 0x20
def reserved3Bit : UInt8 := 0x10
def opCodeMask : UInt8 := 0xF
def maskBit : UInt8 := 0x80
def payloadLengthMask : UInt8 := 0x7F
def maxPayloadLengthWithoutExtendedLengthField : Nat := 125
def payloadLengthWithTwoByteExtendedLengthField : Nat := 126
def maskingKeyWidthInBytes : Nat := 4
def maxPayloadLength : Nat := 0x7FFFFFFFFFFFFFFF

def needsExtendedLengthField (payloadLength : Nat) : Bool :=
  payloadLength > maxPayloadLengthWithoutExtendedLengthField

/-- The loop over an extended length field, most significant byte first. -/
def extendedPayloadLength (bytes : List UInt8) : UInt64 :=
  bytes.foldl (fun length byte => length <<< 8 ||| byte.toUInt64) 0

/-- `payload[i] ^= maskingKey[i % maskingKeyWidthInBytes]` for the whole payload. -/
def unmask (maskingKey payload : List UInt8) : List UInt8 :=
  payload.mapIdx fun i byte => byte ^^^ maskingKey.getD (i % maskingKeyWidthInBytes) 0

/-- The second half of `parseFrame`, from the known payload length on: `p` is what follows the
    `headerLength` bytes read so far. -/
def parsePayload (firstByte secondByte : UInt8) (payloadLength64 headerLength : Nat)
    (p : List UInt8) : ParseFrameResult :=
  let masked : Bool := secondByte &&& maskBit ≠ 0
  let maskingKeyLength := if masked then maskingKeyWidthInBytes else 0
  if payloadLength64 > maxPayloadLength ∨ payloadLength64 + maskingKeyLength > 2 ^ 64 - 1 then
    .frameError s!"WebSocket frame length too large: {payloadLength64} bytes"
  else if p.length < maskingKeyLength + payloadLength64 then
    .frameIncomplete
  else
    let payload := (p.drop maskingKeyLength).take payloadLength64
    .frameOK
      { opCode := OpCode.ofNat (firstByte &&& opCodeMask).toNat
        final := firstByte &&& finalBit ≠ 0
        compress := firstByte &&& compressBit ≠ 0
        reserved2 := firstByte &&& reserved2Bit ≠ 0
        reserved3 := firstByte &&& reserved3Bit ≠ 0
        masked := masked
        payload := if masked then unmask (p.take maskingKeyLength) payload else payload }
      (headerLength + maskingKeyLength + payloadLength64)

/-- `WebSocketFrame::parseFrame`. -/
def parseFrame : List UInt8 → ParseFrameResult
  | firstByte :: secondByte :: p =>
    let payloadLength64 := (secondByte &&& payloadLengthMask).toNat
    if payloadLength64 > maxPayloadLengthWithoutExtendedLengthField then
      let extendedPayloadLengthSize :=
        if payloadLength64 = payloadLengthWithTwoByteExtendedLengthField then 2 else 8
      if p.length < extendedPayloadLengthSize then
        .frameIncomplete
      else
        let payloadLength64 := (extendedPayloadLength (p.take extendedPayloadLengthSize)).toNat
        if extendedPayloadLengthSize = 2 ∧
            payloadLength64 ≤ maxPayloadLengthWithoutExtendedLengthField then
          .frameError "The minimal number of bytes MUST be used to encode the length"
        else if extendedPayloadLengthSize = 8 ∧ payloadLength64 ≤ 0xFFFF then
          .frameError "The minimal number of bytes MUST be used to encode the length"
        else
          parsePayload firstByte secondByte payloadLength64 (2 + extendedPayloadLengthSize)
            (p.drop extendedPayloadLengthSize)
    else
      parsePayload firstByte secondByte payloadLength64 2 p
  | _ => .frameIncomplete

/-! ## Verdicts are final -/

variable {firstByte secondByte : UInt8} {length headerLength frameEnd : Nat} {p data : List UInt8}
    {frame : WebSocketFrame}

theorem parsePayload_append (more : List UInt8)
    (h : parsePayload firstByte secondByte length headerLength p ≠ .frameIncomplete) :
    parsePayload firstByte secondByte length headerLength (p ++ more) =
      parsePayload firstByte secondByte length headerLength p := by
  unfold parsePayload at h ⊢
  obtain ⟨key, hkey⟩ : ∃ key : Nat,
      key = if decide (secondByte &&& maskBit ≠ 0) = true then maskingKeyWidthInBytes else 0 :=
    ⟨_, rfl⟩
  simp only [← hkey] at h ⊢
  by_cases hlar : length > maxPayloadLength ∨ length + key > 2 ^ 64 - 1
  · simp only [if_pos hlar]
  · simp only [if_neg hlar] at h ⊢
    by_cases hsho : p.length < key + length
    · simp only [if_pos hsho, ne_eq, not_true_eq_false] at h
    · have hlong : ¬ (p ++ more).length < key + length := by
        rw [List.length_append]
        omega
      have hdrop : ((p ++ more).drop key).take length = (p.drop key).take length := by
        rw [List.drop_append_of_le_length (by omega), List.take_append_of_le_length (by rw [List.length_drop]; omega)]
      simp only [if_neg hsho, if_neg hlong, hdrop, List.take_append_of_le_length (show key ≤ p.length by omega)]

/-- **A verdict on the front of a stream stands whatever follows.** -/
theorem parseFrame_append (more : List UInt8)
    (h : parseFrame data ≠ .frameIncomplete) : parseFrame (data ++ more) = parseFrame data := by
  match data with
  | [] | [_] => exact absurd rfl h
  | firstByte :: secondByte :: p =>
    simp only [List.cons_append, parseFrame] at h ⊢
    split
    · rename_i hlong
      rw [if_pos hlong] at h
      obtain ⟨size, hsize⟩ : ∃ size : Nat, size = if (secondByte &&& payloadLengthMask).toNat =
            payloadLengthWithTwoByteExtendedLengthField then 2 else 8 := ⟨_, rfl⟩
      simp only [← hsize] at h ⊢
      by_cases hsho : p.length < size
      · simp only [if_pos hsho, ne_eq, not_true_eq_false] at h
      · have hle : size ≤ p.length := by omega
        have hsho' : ¬ (p ++ more).length < size := by
          rw [List.length_append]
          omega
        simp only [if_neg hsho, if_neg hsho', List.take_append_of_le_length hle,
          List.drop_append_of_le_length hle] at h ⊢
        split
        · rfl
        · rename_i htwo
          rw [if_neg htwo] at h
          split
          · rfl
          · rename_i height
            rw [if_neg height] at h
            exact parsePayload_append more h
    · rename_i hsho
      rw [if_neg hsho] at h
      exact parsePayload_append more h

theorem parsePayload_bounds
    (h : parsePayload firstByte secondByte length headerLength p = .frameOK frame frameEnd) :
    headerLength ≤ frameEnd ∧ frameEnd ≤ headerLength + p.length := by
  unfold parsePayload at h
  obtain ⟨key, hkey⟩ : ∃ key : Nat,
      key = if decide (secondByte &&& maskBit ≠ 0) = true then maskingKeyWidthInBytes else 0 :=
    ⟨_, rfl⟩
  simp only [← hkey] at h
  split at h
  · cases h
  · split at h
    · cases h
    · rename_i hlong
      simp only [ParseFrameResult.frameOK.injEq] at h
      omega

theorem frameEnd_bounds
    (h : parseFrame data = .frameOK frame frameEnd) : 2 ≤ frameEnd ∧ frameEnd ≤ data.length := by
  match data with
  | [] | [_] => cases h
  | firstByte :: secondByte :: p =>
    simp only [parseFrame] at h
    split at h
    · obtain ⟨size, hsize⟩ : ∃ size : Nat, size = if (secondByte &&& payloadLengthMask).toNat =
            payloadLengthWithTwoByteExtendedLengthField then 2 else 8 := ⟨_, rfl⟩
      simp only [← hsize] at h
      split at h
      · cases h
      · rename_i hlen
        split at h
        · cases h
        · split at h
          · cases h
          · have := parsePayload_bounds h
            simp at this ⊢
            omega
    · have := parsePayload_bounds h
      simp
      omega

end WebV8
