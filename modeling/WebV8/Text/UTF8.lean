import WebV8.Text.TextCodecUTF8

/-!
# `WTF::Unicode`

The strict converter of `wtf/unicode/UTF8.cpp`, the one behind `String::fromUTF8`. A source pointer
is modelled by the bytes from there to `sourceEnd`, the target pointer by the code units written
before it, and `targetEnd` by how many of them there is room for.
-/

namespace WebV8

def inlineUTF8SequenceLengthNonASCII (b0 : UInt8) : Nat :=
  if b0.toNat &&& 0xC0 ≠ 0xC0 then 0
  else if b0.toNat &&& 0xE0 = 0xC0 then 2
  else if b0.toNat &&& 0xF0 = 0xE0 then 3
  else if b0.toNat &&& 0xF8 = 0xF0 then 4
  else 0

def inlineUTF8SequenceLength (b0 : UInt8) : Nat :=
  if isASCII b0 then 1 else inlineUTF8SequenceLengthNonASCII b0

/-- The cases of the outer switch fall through to the ones below them. -/
def isLegalUTF8 (source : List UInt8) (length : Nat) : Bool :=
  let s0 := (source.getD 0 0).toNat
  let s1 := (source.getD 1 0).toNat
  let s2 := (source.getD 2 0).toNat
  let s3 := (source.getD 3 0).toNat
  let case1 := if s0 ≥ 0x80 && s0 < 0xC2 then false else !(s0 > 0xF4)
  let case2 :=
    if s1 > 0xBF then false
    else if s0 = 0xE0 then if s1 < 0xA0 then false else case1
    else if s0 = 0xED then if s1 > 0x9F then false else case1
    else if s0 = 0xF0 then if s1 < 0x90 then false else case1
    else if s0 = 0xF4 then if s1 > 0x8F then false else case1
    else if s1 < 0x80 then false
    else case1
  let case3 := if s2 < 0x80 || s2 > 0xBF then false else case2
  let case4 := if s3 < 0x80 || s3 > 0xBF then false else case3
  match length with
  | 4 => case4
  | 3 => case3
  | 2 => case2
  | 1 => case1
  | _ => false

def offsetsFromUTF8 : List Int :=
  [0x00000000, 0x00003080, 0x000E2080, 0x03C82080, 0xFA082080 - 0x100000000,
    0x82082080 - 0x100000000]

def readUTF8Sequence (sequence : List UInt8) (length : Nat) : Int :=
  ((sequence.take length).foldl (fun character b => (character <<< 6) + b.toNat) 0 : Nat) -
    offsetsFromUTF8.getD (length - 1) 0

inductive ConversionResult where
  | conversionOK
  | sourceExhausted
  | targetExhausted
  | sourceIllegal
  deriving DecidableEq, Repr

/-- The variables of `convertUTF8ToUTF16` when it returns. -/
structure Conversion where
  result : ConversionResult
  source : List UInt8
  target : List UInt16
  orAllData : UInt16
  deriving DecidableEq, Repr

/-- `*sourceAllASCII`. -/
def Conversion.sourceAllASCII (c : Conversion) : Bool := c.orAllData.toNat < 0x80

theorem length_pos_of_isLegalUTF8 {source : List UInt8} {length : Nat}
    (h : isLegalUTF8 source length = true) : 0 < length := by
  rcases Nat.eq_zero_or_pos length with rfl | hpos
  · exact absurd h (by simp [isLegalUTF8])
  · exact hpos

/-- The body of the loop once the character is read: the new target and `orAllData`, or why the
    conversion stops. It then backs up to the start of the sequence. -/
def writeCharacter (targetEnd : Nat) (strict : Bool) (character : Int) (target : List UInt16)
    (orAllData : UInt16) : Except ConversionResult (List UInt16 × UInt16) :=
  if target.length ≥ targetEnd then .error .targetExhausted
  else if 0 ≤ character ∧ character ≤ 0xFFFF then
    -- UTF-16 surrogate values are illegal in UTF-32
    if 0xD800 ≤ character ∧ character ≤ 0xDFFF then
      if strict then .error .sourceIllegal
      else .ok (target ++ [replacementCharacter], orAllData ||| replacementCharacter)
    else .ok (target ++ [character.toNat.toUInt16], orAllData ||| character.toNat.toUInt16)
  else if 0x10000 ≤ character ∧ character ≤ 0x10FFFF then
    if target.length + 1 ≥ targetEnd then .error .targetExhausted
    else .ok (target ++ [u16Lead character, u16Trail character], 0xFFFF)
  else if strict then .error .sourceIllegal
  else .ok (target ++ [replacementCharacter], orAllData ||| replacementCharacter)

/-- The loop of `convertUTF8ToUTF16`. -/
def convertLoop (targetEnd : Nat) (strict : Bool) :
    List UInt8 → List UInt16 → UInt16 → Conversion
  | [], target, orAllData => ⟨.conversionOK, [], target, orAllData⟩
  | b0 :: bs, target, orAllData =>
    let source := b0 :: bs
    let utf8SequenceLength := inlineUTF8SequenceLength b0
    if source.length < utf8SequenceLength then ⟨.sourceExhausted, source, target, orAllData⟩
    else if isLegalUTF8 source utf8SequenceLength then
      match writeCharacter targetEnd strict (readUTF8Sequence source utf8SequenceLength) target
          orAllData with
      | .error result => ⟨result, source, target, orAllData⟩
      | .ok written =>
        convertLoop targetEnd strict (source.drop utf8SequenceLength) written.1 written.2
    else ⟨.sourceIllegal, source, target, orAllData⟩
termination_by source => source.length
decreasing_by
  have hpos : 0 < utf8SequenceLength := length_pos_of_isLegalUTF8 (by assumption)
  simp only [List.length_drop, List.length_cons]
  omega

def convertUTF8ToUTF16 (source : List UInt8) (targetEnd : Nat) (strict : Bool) : Conversion :=
  convertLoop targetEnd strict source [] 0

def charactersAreAllASCII (characters : List UInt8) : Bool :=
  characters.all fun character => character.toNat < 0x80

/-- `String::fromUTF8` of `wtf/text/WTFString.cpp`; `none` is the null string. -/
def fromUTF8 (string : List UInt8) : Option (List UInt16) :=
  if string.isEmpty then some []
  else if charactersAreAllASCII string then some (string.map UInt8.toUInt16)
  else
    let c := convertUTF8ToUTF16 string string.length true
    if c.result = .conversionOK then some c.target else none

end WebV8
