import Mathlib

/-!
# `TextCodecUTF8`

The streaming decoder of `TextCodecUTF8.cpp`. A call of `decode` works on a chunk of bytes at some
address, first into an 8-bit buffer and, from the first character on that does not fit there, into
a 16-bit one. The bytes of a sequence that the chunk cuts off wait in `m_partialSequence` for the
next call.

A `char*` into the chunk is modelled by its address and the bytes from there to `end`, a
destination pointer by the list of the characters written before it. `m_partialSequence` keeps its
bytes when `m_partialSequenceSize` shrinks, and the code does not always move the remaining ones to
the front, so the model has all four of them.
-/

namespace WebV8

open List

/-! ## Machine words -/

/-- The two widths `NonASCIIMask` is specialised for. -/
inductive MachineWord where
  | bits32
  | bits64
  deriving DecidableEq, Repr

namespace MachineWord

/-- `sizeof(MachineWord)`. -/
def size : MachineWord → Nat
  | bits32 => 4
  | bits64 => 8

/-- `NonASCIIMask<size, LChar>::value()`. -/
def nonASCIIMask : MachineWord → Nat
  | bits32 => 0x80808080
  | bits64 => 0x8080808080808080

/-- The alignment mask has the low bits set, so masking with it takes the remainder. -/
def isAlignedToMachineWord (w : MachineWord) (pointer : Nat) : Bool := pointer % w.size = 0

def alignToMachineWord (w : MachineWord) (pointer : Nat) : Nat := pointer - pointer % w.size

def loadWord : List UInt8 → Nat
  | [] => 0
  | b :: bs => b.toNat + 0x100 * loadWord bs

def isAllASCII (w : MachineWord) (word : Nat) : Bool := word &&& w.nonASCIIMask = 0

end MachineWord

def isASCII (b : UInt8) : Bool := b.toNat < 0x80

/-! ## Sequences -/

def nonCharacter : Int := -1

/-- The table of `nonASCIISequenceLength`. -/
def sequenceLengths : List Nat :=
  List.replicate 128 0 ++ List.replicate 96 2 ++ List.replicate 16 3 ++
    [4, 4, 4, 4, 4, 0, 0, 0, 0, 0, 0, 0, 0, 0, 0, 0]

def nonASCIISequenceLength (firstByte : UInt8) : Nat := sequenceLengths.getD firstByte.toNat 0

def decodeNonASCIISequence (sequence : List UInt8) (length : Nat) : Int :=
  let s0 := (sequence.getD 0 0).toNat
  let s1 := (sequence.getD 1 0).toNat
  let s2 := (sequence.getD 2 0).toNat
  let s3 := (sequence.getD 3 0).toNat
  if length = 2 then
    if s0 < 0xC2 then nonCharacter
    else if s1 < 0x80 || s1 > 0xBF then nonCharacter
    else (((s0 <<< 6) + s1 : Nat) : Int) - 0x00003080
  else if length = 3 then
    if (if s0 = 0xE0 then s1 < 0xA0 || s1 > 0xBF
        else if s0 = 0xED then s1 < 0x80 || s1 > 0x9F
        else s1 < 0x80 || s1 > 0xBF) then nonCharacter
    else if s2 < 0x80 || s2 > 0xBF then nonCharacter
    else (((s0 <<< 12) + (s1 <<< 6) + s2 : Nat) : Int) - 0x000E2080
  else
    if (if s0 = 0xF0 then s1 < 0x90 || s1 > 0xBF
        else if s0 = 0xF4 then s1 < 0x80 || s1 > 0x8F
        else s1 < 0x80 || s1 > 0xBF) then nonCharacter
    else if s2 < 0x80 || s2 > 0xBF then nonCharacter
    else if s3 < 0x80 || s3 > 0xBF then nonCharacter
    else (((s0 <<< 18) + (s1 <<< 12) + (s2 <<< 6) + s3 : Nat) : Int) - 0x03C82080

/-- `U16_LEAD`. -/
def u16Lead (character : Int) : UInt16 := ((character.toNat >>> 10) + 0xD7C0).toUInt16

/-- `U16_TRAIL`. -/
def u16Trail (character : Int) : UInt16 := ((character.toNat &&& 0x3FF) ||| 0xDC00).toUInt16

def replacementCharacter : UInt16 := 0xFFFD

def appendCharacter (destination : List UInt16) (character : Int) : List UInt16 :=
  if character ≤ 0xFFFF then destination ++ [character.toNat.toUInt16]
  else destination ++ [u16Lead character, u16Trail character]

/-! ## The codec -/

structure TextCodecUTF8 where
  partialSequenceSize : Nat
  /-- All `U8_MAX_LENGTH` bytes of the array, also those at and after `partialSequenceSize`. -/
  partialSequence : List UInt8
  deriving DecidableEq, Repr

variable (codec : TextCodecUTF8)

namespace TextCodecUTF8

/-- `m_partialSequence[0]`. -/
def firstByte : UInt8 := codec.partialSequence.getD 0 0

/-- The last byte is dropped from the count and the array is moved down by one. -/
def consumePartialSequenceByte : TextCodecUTF8 where
  partialSequenceSize := codec.partialSequenceSize - 1
  partialSequence :=
    (codec.partialSequence.drop 1).take (codec.partialSequenceSize - 1) ++
      codec.partialSequence.drop (codec.partialSequenceSize - 1)

/-- `memcpy(m_partialSequence + m_partialSequenceSize, ...)` and the new size. -/
def appendBytes (bytes : List UInt8) : TextCodecUTF8 where
  partialSequenceSize := codec.partialSequenceSize + bytes.length
  partialSequence := codec.partialSequence.take codec.partialSequenceSize ++ bytes ++
    codec.partialSequence.drop (codec.partialSequenceSize + bytes.length)

/-- `m_partialSequenceSize -= count`; the array is left as it is. -/
def dropCount (count : Nat) : TextCodecUTF8 :=
  { codec with partialSequenceSize := codec.partialSequenceSize - count }

end TextCodecUTF8

/-- A pointer into the chunk: its address and the bytes from there to `end`. -/
structure Source where
  address : Nat
  bytes : List UInt8
  deriving DecidableEq, Repr

/-- `source += n`. -/
def Source.advance (source : Source) (n : Nat) : Source :=
  ⟨source.address + n, source.bytes.drop n⟩

@[simp] theorem Source.advance_bytes (source : Source) (n : Nat) :
    (source.advance n).bytes = source.bytes.drop n := rfl

@[simp] theorem Source.advance_address (source : Source) (n : Nat) :
    (source.advance n).address = source.address + n := rfl

/-- The variables of `decode` that its loops change. -/
structure DecodeState (α : Type) where
  codec : TextCodecUTF8
  source : Source
  destination : List α
  sawError : Bool
  deriving DecidableEq, Repr

namespace DecodeState

variable {α : Type} (st : DecodeState α)

def size : Nat := st.codec.partialSequenceSize

/-- Decreases with everything the decoder does: bytes move from the chunk to the partial sequence
    and leave that. -/
def work : Nat := st.size + 2 * st.source.bytes.length

/-- Complete the partial sequence to `count` bytes. -/
def fill (count : Nat) : DecodeState α :=
  { st with
    codec := st.codec.appendBytes (st.source.bytes.take (count - st.size))
    source := st.source.advance (count - st.size) }

/-- Write one character for the first byte of the partial sequence and consume it. -/
def consume (c : α) : DecodeState α :=
  { st with
    destination := st.destination ++ [c]
    codec := st.codec.consumePartialSequenceByte }

/-- The chunk does not complete the sequence of `count` bytes: keep all of it. -/
def keep : DecodeState α :=
  { st with codec := st.codec.appendBytes st.source.bytes }

end DecodeState

open DecodeState

/-- Each error generates a replacement character and consumes one byte. -/
def handleError (st : DecodeState UInt16) (stopOnError : Bool) : DecodeState UInt16 :=
  if stopOnError then { st with sawError := true }
  else { st.consume replacementCharacter with sawError := true }

variable {α : Type} {count : Nat} {st st₁ : DecodeState α}

theorem work_consume (st : DecodeState α) (c : α) (h : st.size ≠ 0) : (st.consume c).work < st.work := by
  simp only [work, size, consume, TextCodecUTF8.consumePartialSequenceByte] at *
  omega

theorem work_handleError {stopOnError : Bool} (stop : ¬ stopOnError = true)
    (st : DecodeState UInt16) (h : st.size ≠ 0) : (handleError st stopOnError).work < st.work := by
  rw [handleError, if_neg stop]
  exact work_consume st replacementCharacter h

theorem work_fill (st : DecodeState α) (count : Nat) : (st.fill count).work ≤ st.work := by
  simp [work, size, fill, TextCodecUTF8.appendBytes, Source.advance_bytes]
  omega

/-- The state with at least `count` bytes in the partial sequence, if the chunk has them. -/
def DecodeState.complete {α : Type} (st : DecodeState α) (count : Nat) : DecodeState α :=
  if count > st.size then st.fill count else st

/-- A character of `count` bytes is taken off the partial sequence. -/
def DecodeState.take {α : Type} (st : DecodeState α) (count : Nat) (written : List α) :
    DecodeState α :=
  { st with destination := written, codec := st.codec.dropCount count }

theorem size_complete (st : DecodeState α) (count : Nat) : st.size ≤ (st.complete count).size := by
  unfold complete
  split_ifs
  · simp only [size, fill, TextCodecUTF8.appendBytes]
    omega
  · exact le_rfl

theorem work_complete (st : DecodeState α) (count : Nat) : (st.complete count).work ≤ st.work := by
  unfold complete
  split_ifs
  · exact work_fill st count
  · exact le_rfl

theorem work_take (st : DecodeState α) (written : List α)
    (hs : st.size ≠ 0) (hc : count ≠ 0) : (st.take count written).work < st.work := by
  simp only [work, size, DecodeState.take, TextCodecUTF8.dropCount] at *
  omega

/-! ## The partial sequence -/

/-- `handlePartialSequence<LChar>`; the answer `true` asks for the 16-bit path. -/
def handlePartialSequence8 (flush : Bool) (st : DecodeState UInt8) : Bool × DecodeState UInt8 :=
  if st.size = 0 then (false, st)
  else if isASCII st.codec.firstByte then
    handlePartialSequence8 flush (st.consume st.codec.firstByte)
  else
    let count := nonASCIISequenceLength st.codec.firstByte
    if count = 0 then (true, st)
    else if count > st.size ∧ count - st.size > st.source.bytes.length then
      -- An incomplete partial sequence at the end is an error, left to the 16-bit path.
      if flush then (true, st) else (false, st.keep)
    else
      let character := decodeNonASCIISequence (st.complete count).codec.partialSequence count
      if character = nonCharacter ∨ character > 0xFF then (true, st.complete count)
      else handlePartialSequence8 flush ((st.complete count).take count
        ((st.complete count).destination ++ [character.toNat.toUInt8]))
termination_by st.work
decreasing_by
  · exact work_consume _ _ (by assumption)
  · have h := size_complete st count
    exact (work_take (st.complete count) _ (by omega) (by assumption)).trans_le
      (work_complete st count)

/-- `handlePartialSequence<UChar>`. -/
def handlePartialSequence16 (flush stopOnError : Bool) (st : DecodeState UInt16) :
    DecodeState UInt16 :=
  if st.size = 0 then st
  else if isASCII st.codec.firstByte then
    handlePartialSequence16 flush stopOnError (st.consume st.codec.firstByte.toUInt16)
  else
    let count := nonASCIISequenceLength st.codec.firstByte
    if count = 0 then
      if stopOnError then handleError st stopOnError
      else handlePartialSequence16 flush stopOnError (handleError st stopOnError)
    else if count > st.size ∧ count - st.size > st.source.bytes.length then
      if flush then
        -- An incomplete partial sequence at the end is an error.
        if stopOnError then handleError st stopOnError
        else handlePartialSequence16 flush stopOnError (handleError st stopOnError)
      else st.keep
    else
      let character := decodeNonASCIISequence (st.complete count).codec.partialSequence count
      if character = nonCharacter then
        if stopOnError then handleError (st.complete count) stopOnError
        else handlePartialSequence16 flush stopOnError
          (handleError (st.complete count) stopOnError)
      else handlePartialSequence16 flush stopOnError ((st.complete count).take count
        (appendCharacter (st.complete count).destination character))
termination_by st.work
decreasing_by
  · exact work_consume _ _ (by assumption)
  · exact work_handleError (by assumption) st (by assumption)
  · exact work_handleError (by assumption) st (by assumption)
  · have h := size_complete st count
    exact (work_handleError (by assumption) (st.complete count) (by omega)).trans_le
      (work_complete st count)
  · have h := size_complete st count
    exact (work_take (st.complete count) _ (by omega) (by assumption)).trans_le
      (work_complete st count)

/-! ## The chunk -/

/-- The loop over whole words of ASCII characters; `lift` is the conversion to the destination's
    character type. -/
def copyASCIIMachineWords {α : Type} (w : MachineWord) (lift : UInt8 → α) (alignedEnd : Nat)
    (source : Source) (destination : List α) : Source × List α :=
  if source.address < alignedEnd then
    let word := source.bytes.take w.size
    if w.isAllASCII (MachineWord.loadWord word) then
      copyASCIIMachineWords w lift alignedEnd (source.advance w.size)
        (destination ++ word.map lift)
    else (source, destination)
  else (source, destination)
termination_by alignedEnd - source.address
decreasing_by
  have hw : 0 < w.size := by cases w <;> decide
  simp only [Source.advance_address]
  omega

theorem copyASCIIMachineWords_progress (w : MachineWord) (lift : UInt8 → α)
    (alignedEnd : Nat) (source : Source) (destination : List α) :
    let r := copyASCIIMachineWords w lift alignedEnd source destination
    r.1.bytes.length ≤ source.bytes.length ∧
      (r.1 = source ∨ r.1.bytes.length < source.bytes.length ∨ source.bytes = []) := by
  have hw : 0 < w.size := by cases w <;> decide
  fun_induction copyASCIIMachineWords w lift alignedEnd source destination with
  | case1 source destination hlt word hword ih =>
    simp only [Source.advance_bytes, length_drop] at ih ⊢
    refine ⟨by omega, Or.inr ?_⟩
    rcases Nat.eq_zero_or_pos source.bytes.length with h0 | h0
    · exact Or.inr (eq_nil_of_length_eq_zero h0)
    · exact Or.inl (by omega)
  | case2 | case3 => exact ⟨le_rfl, Or.inl rfl⟩

/-- What the two decoding loops do with an ASCII character at `source`: the fast path where the
    pointer is aligned, and one character if there is still one. -/
def decodeASCII {α : Type} (w : MachineWord) (lift : UInt8 → α) (alignedEnd : Nat)
    (st : DecodeState α) (b : UInt8) : DecodeState α :=
  if w.isAlignedToMachineWord st.source.address then
    let r := copyASCIIMachineWords w lift alignedEnd st.source st.destination
    match r.1.bytes with
    | [] => { st with source := r.1, destination := r.2 }
    | b' :: _ =>
      if isASCII b' then
        { st with source := r.1.advance 1, destination := r.2 ++ [lift b'] }
      else { st with source := r.1, destination := r.2 }
  else { st with source := st.source.advance 1, destination := st.destination ++ [lift b] }

theorem decodeASCII_lt (w : MachineWord) (lift : UInt8 → α) (alignedEnd : Nat)
    (st : DecodeState α) {b : UInt8} {bs : List UInt8} (hb : st.source.bytes = b :: bs) (hasc : isASCII b = true) :
    (decodeASCII w lift alignedEnd st b).source.bytes.length < st.source.bytes.length := by
  obtain ⟨hle, hprog⟩ := copyASCIIMachineWords_progress w lift alignedEnd st.source st.destination
  unfold decodeASCII
  split_ifs with ha
  · generalize hr : copyASCIIMachineWords w lift alignedEnd st.source st.destination = r at *
    dsimp only at hle hprog ⊢
    split
    case _ hn => simp only [hn, hb, length_nil, length_cons]; omega
    case _ b' bs' hb' =>
      split_ifs with hasc'
      · simp [Source.advance_bytes, hb'] at hle ⊢
        omega
      · -- The word loop has stopped at a byte that is not ASCII, so it has made progress.
        rcases hprog with he | hlt | hn
        · rw [he, hb] at hb'
          obtain rfl : b = b' := (List.cons.inj hb').1
          exact absurd hasc hasc'
        · exact hlt
        · rw [hb] at hn
          exact absurd hn (by simp)
  · simp [hb]

/-- The sequence at the end of the chunk is kept as the new partial sequence. -/
def DecodeState.keepRest {α : Type} (st : DecodeState α) : DecodeState α :=
  { st with
    codec := { st.codec with partialSequenceSize := 0 }.appendBytes st.source.bytes
    source := st.source.advance st.source.bytes.length }

/-- `character` of the two decoding loops for a sequence that is not cut off. -/
def sequenceCharacter (bytes : List UInt8) (count : Nat) : Int :=
  if count = 0 then nonCharacter else decodeNonASCIISequence bytes count

theorem count_pos_of_character {bytes : List UInt8}
    (h : ¬ sequenceCharacter bytes count = nonCharacter) : 0 < count := by
  by_contra h0
  exact h (if_pos (by omega))

/-- The loop over the chunk on the 8-bit path; the answer `true` asks for the 16-bit path. -/
def decodeLoop8 (w : MachineWord) (stopOnError : Bool) (alignedEnd : Nat)
    (st : DecodeState UInt8) : Bool × DecodeState UInt8 :=
  match _hb : st.source.bytes with
  | [] => (false, st)
  | b :: _ =>
    if isASCII b then
      decodeLoop8 w stopOnError alignedEnd (decodeASCII w id alignedEnd st b)
    else
      let count := nonASCIISequenceLength b
      if count > st.source.bytes.length then (false, st.keepRest)
      else
        let character := sequenceCharacter st.source.bytes count
        if character = nonCharacter then (!stopOnError, { st with sawError := true })
        else if character > 0xFF then (true, st)
        else decodeLoop8 w stopOnError alignedEnd
          { st with
            source := st.source.advance count
            destination := st.destination ++ [character.toNat.toUInt8] }
termination_by st.source.bytes.length
decreasing_by
  · exact decodeASCII_lt w id alignedEnd st _hb (by assumption)
  · have hc : 0 < count := count_pos_of_character (by assumption)
    simp only [Source.advance_bytes, length_drop, _hb, length_cons]
    omega

def decodeLoop16 (w : MachineWord) (stopOnError : Bool) (alignedEnd : Nat)
    (st : DecodeState UInt16) : DecodeState UInt16 :=
  match _hb : st.source.bytes with
  | [] => st
  | b :: _ =>
    if isASCII b then
      decodeLoop16 w stopOnError alignedEnd (decodeASCII w UInt8.toUInt16 alignedEnd st b)
    else
      let count := nonASCIISequenceLength b
      if count > st.source.bytes.length then st.keepRest
      else
        let character := sequenceCharacter st.source.bytes count
        if character = nonCharacter then
          if stopOnError then { st with sawError := true }
          -- Each error generates a replacement character and consumes one byte.
          else decodeLoop16 w stopOnError alignedEnd
            { st with
              sawError := true
              source := st.source.advance 1
              destination := st.destination ++ [replacementCharacter] }
        else decodeLoop16 w stopOnError alignedEnd
          { st with
            source := st.source.advance count
            destination := appendCharacter st.destination character }
termination_by st.source.bytes.length
decreasing_by
  · exact decodeASCII_lt w UInt8.toUInt16 alignedEnd st _hb (by assumption)
  · simp [_hb]
  · have hc : 0 < count := count_pos_of_character (by assumption)
    simp only [Source.advance_bytes, length_drop, _hb, length_cons]
    omega

/-- What a loop over the chunk leaves: the codec untouched, or the rest of the chunk kept. -/
def LoopEnd {α : Type} (st st' : DecodeState α) : Prop :=
  st'.codec = st.codec ∨ st'.source.bytes = [] ∧ 0 < st.source.bytes.length ∧
    st'.size ≤ st.source.bytes.length

theorem LoopEnd.of_lt {st' : DecodeState α} (h : LoopEnd st₁ st')
    (hc : st₁.codec = st.codec) (hlt : st₁.source.bytes.length < st.source.bytes.length) : LoopEnd st st' := by
  rcases h with he | ⟨hn, h0, hs⟩
  · exact Or.inl (he.trans hc)
  · exact Or.inr ⟨hn, by omega, by omega⟩

theorem LoopEnd.keepRest {α : Type} {st : DecodeState α} (h : 0 < st.source.bytes.length) :
    LoopEnd st st.keepRest := by
  refine Or.inr ⟨?_, h, ?_⟩
  · simp [DecodeState.keepRest]
  · simp [DecodeState.keepRest, size, TextCodecUTF8.appendBytes]

theorem decodeASCII_codec (w : MachineWord) (lift : UInt8 → α) (alignedEnd : Nat)
    (st : DecodeState α) (b : UInt8) : (decodeASCII w lift alignedEnd st b).codec = st.codec := by
  unfold decodeASCII
  split
  · dsimp only
    split
    · rfl
    · split_ifs <;> rfl
  · rfl

theorem decodeLoop8_end (w : MachineWord) (stopOnError : Bool) (alignedEnd : Nat)
    (st : DecodeState UInt8) : LoopEnd st (decodeLoop8 w stopOnError alignedEnd st).2 := by
  fun_induction decodeLoop8 w stopOnError alignedEnd st with
  | case1 st hb => exact Or.inl rfl
  | case2 st b bs hb hasc ih =>
    exact ih.of_lt (decodeASCII_codec _ _ _ _ _) (decodeASCII_lt _ _ _ _ hb hasc)
  | case3 st b bs hb hasc count hcut => exact LoopEnd.keepRest (by simp [hb])
  | case4 st b bs hb hasc count hcut character hn
  | case5 st b bs hb hasc count hcut character hn hbig => exact Or.inl rfl
  | case6 st b bs hb hasc count hcut character hn hbig ih =>
    have hc : 0 < count := count_pos_of_character hn
    exact ih.of_lt rfl (by simp only [Source.advance_bytes, length_drop]; omega)

theorem decodeLoop16_end (w : MachineWord) (stopOnError : Bool) (alignedEnd : Nat)
    (st : DecodeState UInt16) : LoopEnd st (decodeLoop16 w stopOnError alignedEnd st) := by
  fun_induction decodeLoop16 w stopOnError alignedEnd st with
  | case1 st hb => exact Or.inl rfl
  | case2 st b bs hb hasc ih =>
    exact ih.of_lt (decodeASCII_codec _ _ _ _ _) (decodeASCII_lt _ _ _ _ hb hasc)
  | case3 st b bs hb hasc count hcut => exact LoopEnd.keepRest (by simp [hb])
  | case4 st b bs hb hasc count hcut character hn hstop => exact Or.inl rfl
  | case5 st b bs hb hasc count hcut character hn hstop ih =>
    exact ih.of_lt rfl (by simp [hb])
  | case6 st b bs hb hasc count hcut character hn ih =>
    have hc : 0 < count := count_pos_of_character hn
    exact ih.of_lt rfl (by simp only [Source.advance_bytes, length_drop]; omega)

theorem complete_source_le (st : DecodeState α) (count : Nat) :
    (st.complete count).source.bytes.length ≤ st.source.bytes.length := by
  unfold complete
  split_ifs
  · simp [fill]
  · exact le_rfl

theorem handleError_source (st : DecodeState UInt16) (stopOnError : Bool) :
    (handleError st stopOnError).source = st.source := by
  unfold handleError
  split <;> rfl

theorem handlePartialSequence8_source_le (flush : Bool) (st : DecodeState UInt8) :
    (handlePartialSequence8 flush st).2.source.bytes.length ≤ st.source.bytes.length := by
  fun_induction handlePartialSequence8 flush st with
  | case1 => exact le_rfl
  | case2 st hs hasc ih => exact ih
  | case3 => exact le_rfl
  | case4 => exact le_rfl
  | case5 => exact le_rfl
  | case6 st hs hasc count hc heno character hn => exact complete_source_le st count
  | case7 st hs hasc count hc heno character hn ih =>
    exact ih.trans (complete_source_le st count)

theorem handlePartialSequence16_source_le (flush stopOnError : Bool) (st : DecodeState UInt16) :
    (handlePartialSequence16 flush stopOnError st).source.bytes.length ≤ st.source.bytes.length := by
  fun_induction handlePartialSequence16 flush stopOnError st with
  | case1 => exact le_rfl
  | case2 st hs hasc ih => exact ih
  | case3 st hs hasc count hc hstop => rw [handleError_source]
  | case4 st hs hasc count hc hstop ih => rwa [handleError_source] at ih
  | case5 st hs hasc count hc hcut hflu hstop => rw [handleError_source]
  | case6 st hs hasc count hc hcut hflu hstop ih => rwa [handleError_source] at ih
  | case7 => exact le_rfl
  | case8 st hs hasc count hc heno character hn hstop =>
    rw [handleError_source]
    exact complete_source_le st count
  | case9 st hs hasc count hc heno character hn hstop ih =>
    rw [handleError_source] at ih
    exact ih.trans (complete_source_le st count)
  | case10 st hs hasc count hc heno character hn ih =>
    exact ih.trans (complete_source_le st count)

theorem work_lt_of_loopEnd {st₂ : DecodeState α} (h₁ : st₁.size = 0)
    (hle : st₁.source.bytes.length ≤ st.source.bytes.length) (h : LoopEnd st₁ st₂)
    (h₂ : st₂.size ≠ 0) : st₂.work < st.work := by
  rcases h with he | ⟨hn, h0, hs⟩
  · rw [size, he] at h₂
    exact absurd h₁ h₂
  · simp [work, hn]
    omega

/-! ## `decode` -/

/-- The outer loop of the 8-bit path. With the answer `true` the 16-bit path has to go on from
    the state; the list is what was written to the buffer, of which the code keeps only the
    part before the state's destination. -/
def decode8 (w : MachineWord) (flush stopOnError : Bool) (alignedEnd : Nat)
    (st : DecodeState UInt8) : Bool × DecodeState UInt8 × List UInt8 :=
  let r := handlePartialSequence8 flush st
  if r.1 then (true, { r.2 with destination := st.destination }, r.2.destination)
  else if r.2.size ≠ 0 then (false, r.2, r.2.destination)
  else
    let r' := decodeLoop8 w stopOnError alignedEnd r.2
    if r'.1 then (true, r'.2, r'.2.destination)
    else if flush ∧ r'.2.size ≠ 0 then decode8 w flush stopOnError alignedEnd r'.2
    else (false, r'.2, r'.2.destination)
termination_by st.work
decreasing_by
  rename_i h₁ _ h₃
  exact work_lt_of_loopEnd (not_not.mp h₁) (handlePartialSequence8_source_le flush st)
    (decodeLoop8_end w stopOnError alignedEnd _) h₃.2

def decode16 (w : MachineWord) (flush stopOnError : Bool) (alignedEnd : Nat)
    (st : DecodeState UInt16) : DecodeState UInt16 :=
  let st₁ := handlePartialSequence16 flush stopOnError st
  if st₁.size ≠ 0 then st₁
  else
    let st₂ := decodeLoop16 w stopOnError alignedEnd st₁
    if flush ∧ st₂.size ≠ 0 then decode16 w flush stopOnError alignedEnd st₂ else st₂
termination_by st.work
decreasing_by
  rename_i h₁ h₂
  exact work_lt_of_loopEnd (not_not.mp h₁) (handlePartialSequence16_source_le flush stopOnError st)
    (decodeLoop16_end w stopOnError alignedEnd _) h₂.2

/-- A `StringBuffer` and what was written to it, counted from its start. A destination pointer
    only moves forward, so a write outside shows in the length. -/
structure StringBuffer (α : Type) where
  capacity : Nat
  characters : List α
  deriving DecidableEq, Repr

def StringBuffer.InBounds {α : Type} (b : StringBuffer α) : Prop :=
  b.characters.length ≤ b.capacity

/-- What a call of `decode` leaves behind. -/
structure Decoded where
  codec : TextCodecUTF8
  buffer : StringBuffer UInt8
  buffer16 : Option (StringBuffer UInt16)
  sawError : Bool
  deriving DecidableEq, Repr

def Decoded.string (d : Decoded) : List UInt16 :=
  match d.buffer16 with
  | none => d.buffer.characters.map UInt8.toUInt16
  | some buffer16 => buffer16.characters

def Decoded.InBounds (d : Decoded) : Prop :=
  d.buffer.InBounds ∧ ∀ b ∈ d.buffer16, b.InBounds

/-- `TextCodecUTF8::decode` of a chunk at `address`. -/
def TextCodecUTF8.decode (w : MachineWord) (codec : TextCodecUTF8) (address : Nat)
    (bytes : List UInt8) (flush stopOnError sawError : Bool) : Decoded :=
  let capacity := codec.partialSequenceSize + bytes.length
  let alignedEnd := w.alignToMachineWord (address + bytes.length)
  let r := decode8 w flush stopOnError alignedEnd ⟨codec, ⟨address, bytes⟩, [], sawError⟩
  if r.1 then
    -- `upConvertTo16Bit`
    let st := r.2.1
    let st16 := decode16 w flush stopOnError alignedEnd
      ⟨st.codec, st.source, st.destination.map UInt8.toUInt16, st.sawError⟩
    ⟨st16.codec, ⟨capacity, r.2.2⟩, some ⟨st.size + bytes.length, st16.destination⟩,
      st16.sawError⟩
  else ⟨r.2.1.codec, ⟨capacity, r.2.1.destination⟩, none, r.2.1.sawError⟩

end WebV8
