import Mathlib

/-! # parseRange

The `Range` header of a request, with `String::toInt64Strict`. What ICU says of characters beyond ASCII is a
parameter.
-/

namespace WebV8

variable (icu : ICU)

namespace HTTPParsers

/-- The part of ICU that is used, for characters beyond ASCII. -/
structure ICU where
  foldCase : UInt16 → UInt16
  /-- `u_charDirection(c) == U_WHITE_SPACE_NEUTRAL` -/
  isWhiteSpaceNeutral : UInt16 → Bool

def ICU.ascii : ICU := ⟨id, fun _ => false⟩

abbrev Characters := List UInt16

def characters (text : String) : Characters := text.toList.map fun c => c.toNat.toUInt16

/-! ## Numbers -/

def isASCIISpace (c : UInt16) : Bool := c == 0x20 || (c ≤ 0xD && c ≥ 0x9)

def isSpaceOrNewline (c : UInt16) : Bool :=
  if c ≤ 0x7F then isASCIISpace c else icu.isWhiteSpaceNeutral c

def stripWhiteSpace (s : Characters) : Characters :=
  (s.dropWhile (isSpaceOrNewline icu)).rdropWhile (isSpaceOrNewline icu)

def isASCIIDigit (c : UInt16) : Bool := c ≥ 0x30 && c ≤ 0x39

def integralMax : Nat := 2 ^ 63 - 1

def readDigits (isNegative : Bool) : Nat → Characters → Option (Nat × Characters)
  | value, [] => some (value, [])
  | value, c :: rest =>
    if isASCIIDigit c then
      let digitValue := c.toNat - 0x30
      if value > integralMax / 10 ∨
          (value = integralMax / 10 ∧ digitValue > integralMax % 10 + isNegative.toNat) then none
      else readDigits isNegative (10 * value + digitValue) rest
    else some (value, c :: rest)

/-- `toIntegralType<int64_t>` in base 10. The least value is negated without a change. -/
def toInt64Strict (data : Characters) : Option Int := do
  let data := data.dropWhile (isSpaceOrNewline icu)
  let (isNegative, data) :=
    if data.head? = some 0x2D then (true, data.tail)
    else if data.head? = some 0x2B then (false, data.tail)
    else (false, data)
  if (data.head?.any isASCIIDigit) then
    let (value, data) ← readDigits isNegative 0 data
    if data.dropWhile (isSpaceOrNewline icu) = [] then
      some (if isNegative then -(value : Int) else value)
    else none
  else none

/-! ## Ranges -/

/-- The positions of a range; those that are not given are -1. -/
structure ByteRange where
  rangeOffset : Int := -1
  rangeEnd : Int := -1
  rangeSuffixLength : Int := -1

def foldCase (icu : ICU) (c : UInt16) : UInt16 :=
  if c ≤ 0x7F then (if c ≥ 0x41 ∧ c ≤ 0x5A then c + 0x20 else c) else icu.foldCase c

/-- `startsWith` without regard to case. -/
def startsWith (s start : Characters) : Bool := (s.take start.length).map (foldCase icu) = start

def parseLast (lastBytePosStr : Characters) : Option Int :=
  if lastBytePosStr = [] then some (-1) else toInt64Strict icu lastBytePosStr

def parseRange (range : Characters) : Option ByteRange :=
  let bytesStart := characters "bytes="
  if startsWith icu range bytesStart then
    let byteRange := range.drop bytesStart.length
    if byteRange.contains 0x2D then
      let first := byteRange.takeWhile (· ≠ 0x2D)
      let after := (byteRange.dropWhile (· ≠ 0x2D)).tail
      if first = [] then
        match toInt64Strict icu (stripWhiteSpace icu after) with
        | some value => some { rangeSuffixLength := value }
        | none => some {}
      else do
        let firstBytePos ← toInt64Strict icu (stripWhiteSpace icu first)
        let lastBytePos ← parseLast icu (stripWhiteSpace icu after)
        if firstBytePos < 0 ∨ ¬(lastBytePos = -1 ∨ lastBytePos ≥ firstBytePos) then none
        else some { rangeOffset := firstBytePos, rangeEnd := lastBytePos }
    else none
  else none

/-- **Accepted ranges**: a suffix length at most, or a first position with an optional last one that is not
    before it. -/
theorem parseRange_spec {icu : ICU} {header : Characters} {range : ByteRange} (h : parseRange icu header = some range) :
    (range.rangeOffset = -1 ∧ range.rangeEnd = -1) ∨ (range.rangeSuffixLength = -1 ∧ 0 ≤ range.rangeOffset ∧
        (range.rangeEnd = -1 ∨ range.rangeOffset ≤ range.rangeEnd)) := by
  rw [parseRange] at h
  obtain ⟨hst, h⟩ := Option.ite_none_right_eq_some.mp h
  obtain ⟨hdash, h⟩ := Option.ite_none_right_eq_some.mp h
  by_cases hfst : (header.drop (characters "bytes=").length).takeWhile (· ≠ 0x2D) = []
  · left
    rw [if_pos hfst] at h
    split at h
    · obtain rfl := Option.some.inj h
      exact ⟨rfl, rfl⟩
    · obtain rfl := Option.some.inj h
      exact ⟨rfl, rfl⟩
  · right
    rw [if_neg hfst] at h
    obtain ⟨firstBytePos, -, h⟩ := Option.bind_eq_some_iff.mp h
    obtain ⟨lastBytePos, -, h⟩ := Option.bind_eq_some_iff.mp h
    split_ifs at h with hbad
    obtain rfl := Option.some.inj h
    obtain ⟨hpos, hlast⟩ := not_or.mp hbad
    exact ⟨rfl, not_lt.mp hpos, not_not.mp hlast⟩

end HTTPParsers

end WebV8
