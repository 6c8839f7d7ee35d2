import WebV8.Lib.Words
import WebV8.Websockets.WebSocketFrame

/-!
# Making frames

`makeFrameData` of `WebSocketFrame.cpp`, and `parseFrame` with the buffer in which it unmasks the payload. What
`makeFrameData` writes is parsed back as the frame it was made from. That no strict part of it is taken for a
frame follows from `parseFrame_append` and `frameEnd_bounds`: a verdict on the part would stand for the whole.
-/

namespace WebV8

open Lib List Nat

/-! ## The source -/

def payloadLengthWithEightByteExtendedLengthField : Nat := 127

/-- The loop over `extendedPayloadLength`, from its last byte to its first. -/
def fillExtendedPayloadLength : Nat → Nat → List UInt8 → List UInt8
  | 0, _, filled => filled
  | n + 1, remaining, filled =>
    fillExtendedPayloadLength n (remaining >>> 8) ((remaining &&& 0xFF).toUInt8 :: filled)

section

variable (frame : WebSocketFrame)

/-- `maskingKey` is what `cryptographicallyRandomValues` gives. -/
def appendFramePayload (maskingKey frameData : List UInt8) : List UInt8 :=
  if frame.masked then frameData ++ maskingKey ++ unmask maskingKey frame.payload
  else frameData ++ frame.payload

/-- `frameData.at(0)` -/
def flagsByte : UInt8 :=
  (if frame.final then finalBit else 0) ||| (if frame.compress then compressBit else 0) ||| frame.opCode.toNat.toUInt8

/-- `frameData.at(1)`, with the length or the constant that announces an extended one. -/
def lengthByte (n : Nat) : UInt8 := (if frame.masked then maskBit else 0) ||| n.toUInt8

def makeFrameData (maskingKey : List UInt8) : List UInt8 :=
  let payloadLength := frame.payloadLength
  appendFramePayload frame maskingKey <| flagsByte frame ::
    if payloadLength ≤ maxPayloadLengthWithoutExtendedLengthField then [lengthByte frame payloadLength]
    else if payloadLength ≤ 0xFFFF then
      lengthByte frame payloadLengthWithTwoByteExtendedLengthField ::
        [((payloadLength &&& 0xFF00) >>> 8).toUInt8, (payloadLength &&& 0xFF).toUInt8]
    else
      lengthByte frame payloadLengthWithEightByteExtendedLengthField :: fillExtendedPayloadLength 8 payloadLength []

end

/-- The first half of `parseFrame`: the payload length and the offset it has come to, or its verdict. -/
def parseHeader : List UInt8 → Except ParseFrameResult (Nat × Nat)
  | _ :: secondByte :: p =>
    let payloadLength64 := (secondByte &&& payloadLengthMask).toNat
    if payloadLength64 > maxPayloadLengthWithoutExtendedLengthField then
      let extendedPayloadLengthSize := if payloadLength64 = payloadLengthWithTwoByteExtendedLengthField then 2 else 8
      if p.length < extendedPayloadLengthSize then .error .frameIncomplete
      else
        let payloadLength64 := (extendedPayloadLength (p.take extendedPayloadLengthSize)).toNat
        if extendedPayloadLengthSize = 2 ∧ payloadLength64 ≤ maxPayloadLengthWithoutExtendedLengthField then
          .error (.frameError "The minimal number of bytes MUST be used to encode the length")
        else if extendedPayloadLengthSize = 8 ∧ payloadLength64 ≤ 0xFFFF then
          .error (.frameError "The minimal number of bytes MUST be used to encode the length")
        else .ok (payloadLength64, 2 + extendedPayloadLengthSize)
    else .ok (payloadLength64, 2)
  | _ => .error .frameIncomplete

/-- `parseFrame` and the buffer it leaves. -/
def parseFrameInPlace (data : List UInt8) : ParseFrameResult × List UInt8 :=
  match parseHeader data with
  | .error verdict => (verdict, data)
  | .ok (payloadLength64, p) =>
    let firstByte := data.getD 0 0
    let masked : Bool := data.getD 1 0 &&& maskBit ≠ 0
    let maskingKeyLength := if masked then maskingKeyWidthInBytes else 0
    if payloadLength64 > maxPayloadLength ∨ payloadLength64 + maskingKeyLength > 2 ^ 64 - 1 then
      (.frameError s!"WebSocket frame length too large: {payloadLength64} bytes", data)
    else if data.length - p < maskingKeyLength + payloadLength64 then (.frameIncomplete, data)
    else
      let payloadStart := p + maskingKeyLength
      let frameEnd := payloadStart + payloadLength64
      let payload := (data.drop payloadStart).take payloadLength64
      let data :=
        if masked then
          data.take payloadStart ++ unmask ((data.drop p).take maskingKeyWidthInBytes) payload ++ data.drop frameEnd
        else data
      (.frameOK
        { opCode := OpCode.ofNat (firstByte &&& opCodeMask).toNat
          final := firstByte &&& finalBit ≠ 0
          compress := firstByte &&& compressBit ≠ 0
          reserved2 := firstByte &&& reserved2Bit ≠ 0
          reserved3 := firstByte &&& reserved3Bit ≠ 0
          masked := masked
          payload := (data.drop payloadStart).take payloadLength64 }
        frameEnd, data)

/-! ## The buffer -/

variable {firstByte secondByte : UInt8} {data p key : List UInt8} {n payloadStart : Nat}

theorem parseFrame_eq_parseHeader (firstByte secondByte : UInt8) (p : List UInt8) :
    parseFrame (firstByte :: secondByte :: p) = match parseHeader (firstByte :: secondByte :: p) with
      | .error verdict => verdict
      | .ok (n, k) => parsePayload firstByte secondByte n k ((firstByte :: secondByte :: p).drop k) := by
  simp only [parseFrame, parseHeader]
  split_ifs <;> rfl

theorem take_drop_unmasked (hlen : payloadStart + n ≤ data.length) (hp : p.length = n) (rest : List UInt8) :
    ((data.take payloadStart ++ p ++ rest).drop payloadStart).take n = p := by
  rw [append_assoc, drop_left' (by rw [length_take]; omega), take_left' hp]

theorem length_unmask (key payload : List UInt8) : (unmask key payload).length = payload.length := by
  rw [unmask, length_mapIdx]

theorem parseFrameInPlace_fst (data : List UInt8) : (parseFrameInPlace data).1 = parseFrame data := by
  rcases data with _ | ⟨firstByte, _ | ⟨secondByte, p⟩⟩
  iterate 2 rfl
  rw [parseFrame_eq_parseHeader, parseFrameInPlace]
  generalize hdata : firstByte :: secondByte :: p = data
  cases parseHeader data with
  | error verdict => rfl
  | ok found =>
    obtain ⟨n, k⟩ := found
    have h0 : data.getD 0 0 = firstByte := by rw [← hdata]; rfl
    have h1 : data.getD 1 0 = secondByte := by rw [← hdata]; rfl
    cases hm : decide (secondByte &&& maskBit ≠ 0) with
    | false =>
      simp only [parsePayload, h0, h1, hm, Bool.false_eq_true, if_false, length_drop, drop_drop]
      split_ifs <;> rfl
    | true =>
      simp only [parsePayload, h0, h1, hm, if_true, length_drop, drop_drop]
      split_ifs with hlar hsho
      iterate 2 rfl
      have hwid : maskingKeyWidthInBytes = 4 := rfl
      rw [take_drop_unmasked]
      · omega
      · rw [length_unmask, length_take, length_drop]
        omega

theorem parseFrameInPlace_incomplete (h : parseFrame data = .frameIncomplete) :
    parseFrameInPlace data = (.frameIncomplete, data) := by
  rw [← parseFrameInPlace_fst] at h
  refine Prod.ext h ?_
  rw [parseFrameInPlace] at h ⊢
  cases hh : parseHeader data with
  | error verdict => rfl
  | ok found =>
    simp only [hh] at h ⊢
    by_cases hlar : found.1 > maxPayloadLength ∨ found.1 + (if decide (data.getD 1 0 &&& maskBit ≠ 0) = true then
        maskingKeyWidthInBytes else 0) > 2 ^ 64 - 1
    · rw [if_pos hlar]
    · rw [if_neg hlar] at h ⊢
      split_ifs at h ⊢ <;> rfl

/-! ## The header bytes -/

/-- A frame as the constructor makes it, with one of the sixteen opcodes. -/
structure Sendable (frame : WebSocketFrame) : Prop where
  opCode : ∃ c < 16, frame.opCode = .ofNat c
  reserved : frame.reserved2 = false ∧ frame.reserved3 = false
  length : frame.payloadLength < 2 ^ 63

variable {frame : WebSocketFrame}

theorem flagsByte_spec (h : Sendable frame) : OpCode.ofNat (flagsByte frame &&& opCodeMask).toNat = frame.opCode ∧
    decide (flagsByte frame &&& finalBit ≠ 0) = frame.final ∧
    decide (flagsByte frame &&& compressBit ≠ 0) = frame.compress ∧
    decide (flagsByte frame &&& reserved2Bit ≠ 0) = frame.reserved2 ∧
    decide (flagsByte frame &&& reserved3Bit ≠ 0) = frame.reserved3 := by
  obtain ⟨⟨c, hc, hop⟩, ⟨h2, h3⟩, -⟩ := h
  rw [flagsByte, hop, h2, h3]
  cases frame.final <;> cases frame.compress <;> interval_cases c <;> decide

theorem lengthByte_spec (frame : WebSocketFrame) (hn : n < 128) :
    (lengthByte frame n &&& payloadLengthMask).toNat = n ∧ decide (lengthByte frame n &&& maskBit ≠ 0) = frame.masked := by
  have h : ∀ (masked : Bool) (n : Fin 128),
      (((if masked then maskBit else 0) ||| n.val.toUInt8) &&& payloadLengthMask).toNat = n.val ∧
      decide (((if masked then maskBit else 0) ||| n.val.toUInt8) &&& maskBit ≠ 0) = masked := by decide +kernel
  exact h frame.masked ⟨n, hn⟩

theorem fillExtendedPayloadLength_eq (n remaining : Nat) (filled : List UInt8) :
    fillExtendedPayloadLength n remaining filled = (leBytes n remaining).reverse ++ filled := by
  induction n generalizing remaining filled with
  | zero => rfl
  | succ n ih =>
    have hbyte : (remaining &&& 0xFF).toUInt8 = UInt8.ofNat remaining := by
      rw [and_two_pow_sub_one_eq_mod remaining 8]
      exact UInt8.ofNat_mod_size
    rw [fillExtendedPayloadLength, ih, hbyte, shiftRight_eq_div_pow, leBytes, reverse_cons, append_assoc]
    rfl

/-- One step of the loop over an extended length field, as long as no bit is shifted out. -/
theorem toNat_shift_or (length : UInt64) (byte : UInt8) (h : length.toNat < 2 ^ 56) :
    (length <<< 8 ||| byte.toUInt64).toNat = byte.toNat + 256 * length.toNat := by
  rw [UInt64.toNat_or, UInt64.toNat_shiftLeft, UInt8.toNat_toUInt64]
  have hb := byte.toNat_lt
  have hshi : length.toNat <<< ((8 : UInt64).toNat % 64) % 2 ^ 64 = 2 ^ 8 * length.toNat := by
    rw [shiftLeft_eq, mod_eq_of_lt (by simp; omega)]
    simp
    omega
  rw [hshi, ← two_pow_add_eq_or_of_lt hb]
  omega

theorem toNat_extendedPayloadLength (bytes : List UInt8) (h : bytes.length ≤ 8) :
    (extendedPayloadLength bytes).toNat = ofLeBytes bytes.reverse ∧ ofLeBytes bytes.reverse < 256 ^ bytes.length := by
  induction bytes using List.reverseRecOn with
  | nil => exact ⟨rfl, by simp [ofLeBytes]⟩
  | append_singleton bytes b ih =>
    rw [length_append, length_singleton] at h ⊢
    obtain ⟨heq, hlt⟩ := ih (by omega)
    have hb := b.toNat_lt
    have hpow : 256 ^ bytes.length ≤ 256 ^ 7 := Nat.pow_le_pow_right (by omega) (by omega)
    rw [reverse_append, reverse_singleton, singleton_append, ofLeBytes, ← heq, pow_succ]
    rw [← heq] at hlt
    refine ⟨?_, by omega⟩
    rw [extendedPayloadLength, foldl_append]
    exact toNat_shift_or (extendedPayloadLength bytes) b (by omega)

theorem two_bytes (n : Nat) : [((n &&& 0xFF00) >>> 8).toUInt8, (n &&& 0xFF).toUInt8] = (leBytes 2 n).reverse := by
  have hhigh : (n &&& 0xFF00) >>> 8 = n / 256 % 256 := by
    rw [shiftRight_and_distrib, shiftRight_eq_div_pow]
    exact and_two_pow_sub_one_eq_mod _ 8
  rw [hhigh, and_two_pow_sub_one_eq_mod n 8]
  exact congrArg₂ (fun a b => [a, b]) UInt8.ofNat_mod_size UInt8.ofNat_mod_size

/-- A second byte that announces an extended length, and the bytes of that length. -/
def ExtendedHeader (secondByte : UInt8) (extended : List UInt8) : Prop :=
  (secondByte &&& payloadLengthMask).toNat = payloadLengthWithTwoByteExtendedLengthField ∧ extended.length = 2 ∨
    (secondByte &&& payloadLengthMask).toNat = payloadLengthWithEightByteExtendedLengthField ∧ extended.length = 8

theorem parseFrame_extended {extended : List UInt8} (h : ExtendedHeader secondByte extended) (rest : List UInt8) :
    parseFrame (firstByte :: secondByte :: (extended ++ rest)) =
      if extended.length = 2 ∧ ofLeBytes extended.reverse ≤ maxPayloadLengthWithoutExtendedLengthField ∨
        extended.length = 8 ∧ ofLeBytes extended.reverse ≤ 0xFFFF then
        .frameError "The minimal number of bytes MUST be used to encode the length"
      else parsePayload firstByte secondByte (ofLeBytes extended.reverse) (2 + extended.length) rest := by
  have hval : extended.length ≤ 8 → (extendedPayloadLength extended).toNat = ofLeBytes extended.reverse :=
    fun hle => (toNat_extendedPayloadLength extended hle).1
  have hlong : ¬ (extended ++ rest).length < extended.length := by
    rw [length_append]
    omega
  rcases h with ⟨hn, hlen⟩ | ⟨hn, hlen⟩ <;> rw [hlen] at hlong <;>
    simp [parseFrame, hn, maxPayloadLengthWithoutExtendedLengthField, payloadLengthWithTwoByteExtendedLengthField,
      payloadLengthWithEightByteExtendedLengthField, -length_append, hlong, hlen, take_left' hlen,
      drop_left' hlen, hval]

/-! ## The codec -/

theorem unmask_unmask (key payload : List UInt8) : unmask key (unmask key payload) = payload := by
  apply ext_getElem
  · rw [length_unmask, length_unmask]
  · intro i _ _
    simp [unmask]

/-- What follows the header: the masking key, if there is one, and the payload. -/
def frameBody (frame : WebSocketFrame) (key : List UInt8) : List UInt8 :=
  if frame.masked then key ++ unmask key frame.payload else frame.payload

theorem appendFramePayload_eq (frame : WebSocketFrame) (key header : List UInt8) :
    appendFramePayload frame key header = header ++ frameBody frame key := by
  rw [appendFramePayload, frameBody]
  split
  · rw [append_assoc]
  · rfl

theorem parsePayload_made (h : Sendable frame) (hkey : key.length = maskingKeyWidthInBytes) (hn : n < 128) (k : Nat) :
    parsePayload (flagsByte frame) (lengthByte frame n) frame.payloadLength k (frameBody frame key) =
      .frameOK frame (k + (frameBody frame key).length) := by
  obtain ⟨hop, hfin, hcom, h2, h3⟩ := flagsByte_spec h
  have hlen := h.length
  have hsma : ¬ (frame.payloadLength > maxPayloadLength ∨
      frame.payloadLength + (if frame.masked then maskingKeyWidthInBytes else 0) > 2 ^ 64 - 1) := by
    rw [maxPayloadLength, maskingKeyWidthInBytes]
    split <;> omega
  rw [parsePayload, (lengthByte_spec frame hn).2, hop, hfin, hcom, h2, h3]
  simp only [if_neg hsma, frameBody]
  obtain ⟨_, _, _, _, _, masked, payload⟩ := frame
  cases masked with
  | false => simp [WebSocketFrame.payloadLength]
  | true =>
    have htake : (unmask key payload).take payload.length = unmask key payload :=
      take_of_length_le (length_unmask key payload).le
    simp [WebSocketFrame.payloadLength, length_unmask, ← hkey, htake, unmask_unmask, add_assoc]

theorem parseFrame_makeFrameData (h : Sendable frame) (hkey : key.length = maskingKeyWidthInBytes) :
    parseFrame (makeFrameData frame key) = .frameOK frame (makeFrameData frame key).length := by
  have hlen := h.length
  have hmade {n : Nat} (hn : n < 128) (k : Nat) := parsePayload_made h hkey hn k
  have hext {k n : Nat} (hn : n < 128) (hh : ExtendedHeader (lengthByte frame n) (leBytes k frame.payloadLength).reverse)
      (hk : frame.payloadLength < 256 ^ k) (hmin : ¬ (k = 2 ∧
        frame.payloadLength ≤ maxPayloadLengthWithoutExtendedLengthField ∨ k = 8 ∧ frame.payloadLength ≤ 0xFFFF)) :
      parseFrame (flagsByte frame :: lengthByte frame n ::
          ((leBytes k frame.payloadLength).reverse ++ frameBody frame key)) =
        .frameOK frame (2 + k + (frameBody frame key).length) := by
    rw [parseFrame_extended hh, reverse_reverse, ofLeBytes_leBytes, mod_eq_of_lt hk, length_reverse,
      length_leBytes, if_neg hmin]
    exact hmade hn _
  have hspec {n : Nat} (hn : n < 128) := (lengthByte_spec frame hn).1
  rw [makeFrameData, appendFramePayload_eq]
  split_ifs with hsho hmid
  · have hbd : frame.payloadLength < 128 := hsho.trans_lt (by decide)
    simp only [cons_append, nil_append, parseFrame, hspec hbd, not_lt.mpr hsho, if_false]
    rw [hmade hbd, length_cons, length_cons, add_comm 2]
  · rw [two_bytes, cons_append, cons_append, hext (by decide) (.inl ⟨hspec (by decide), by simp⟩) (by omega)
      (by omega), length_cons, length_cons, length_append, length_reverse, length_leBytes]
    congr 1
    omega
  · rw [fillExtendedPayloadLength_eq, append_nil, cons_append, cons_append,
      hext (by decide) (.inr ⟨hspec (by decide), by simp⟩) (by omega) (by omega), length_cons, length_cons,
      length_append, length_reverse, length_leBytes]
    congr 1
    omega

/-- **The frame codec.** A frame is parsed back from what it was made into, whatever follows; on every strict part of
    that `parseFrame` asks for more and changes nothing; and a header whose extended length is not the shortest
    encoding, or too large, is refused. -/
theorem frame_codec :
    (∀ (frame : WebSocketFrame) (key : List UInt8), Sendable frame → key.length = maskingKeyWidthInBytes →
      (∀ more, (parseFrameInPlace (makeFrameData frame key ++ more)).1 =
        .frameOK frame (makeFrameData frame key).length) ∧
      ∀ part, part <+: makeFrameData frame key → part ≠ makeFrameData frame key →
        parseFrameInPlace part = (.frameIncomplete, part)) ∧
    ∀ (firstByte secondByte : UInt8) (extended more : List UInt8), ExtendedHeader secondByte extended →
      extended.length = 2 ∧ ofLeBytes extended.reverse ≤ 125 ∨
        extended.length = 8 ∧ ofLeBytes extended.reverse ≤ 0xFFFF ∨ 2 ^ 63 - 1 < ofLeBytes extended.reverse →
      ∃ errorString, (parseFrameInPlace (firstByte :: secondByte :: (extended ++ more))).1 = .frameError errorString := by
  refine ⟨fun frame key h hkey => ⟨fun more => ?_, fun part hpart hne => ?_⟩, ?_⟩
  · have hmade := parseFrame_makeFrameData h hkey
    rw [parseFrameInPlace_fst, parseFrame_append more (by rw [hmade]; simp), hmade]
  · apply parseFrameInPlace_incomplete
    by_contra hv
    obtain ⟨rest, hrest⟩ := hpart
    have hwhole := parseFrame_append rest hv
    rw [hrest, parseFrame_makeFrameData h hkey] at hwhole
    have hle := (frameEnd_bounds hwhole.symm).2
    rw [← hrest, length_append] at hle
    have hnil : rest = [] := length_eq_zero_iff.mp (by omega)
    exact hne (by rw [← hrest, hnil, append_nil])
  · intro firstByte secondByte extended more hh hbad
    rw [parseFrameInPlace_fst, parseFrame_extended hh]
    split
    next => exact ⟨_, rfl⟩
    next hmin =>
      have hlarge : maxPayloadLength < ofLeBytes extended.reverse := by
        rw [maxPayloadLengthWithoutExtendedLengthField] at hmin
        rw [maxPayloadLength]
        omega
      rw [parsePayload, if_pos (.inl hlarge)]
      exact ⟨_, rfl⟩

end WebV8
