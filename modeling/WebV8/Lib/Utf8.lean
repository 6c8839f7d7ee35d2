import Mathlib

/-!
# UTF-8 and UTF-16

The two encoding forms, as the Unicode Standard defines them: which byte sequences encode a scalar
value (the rows of Table 3-7), the UTF-16 code units of a scalar value, and the walk over a byte
string that decodes every well-formed sequence and gives up one byte at a time on everything else.

A walk yields *events*: `some v` for a decoded scalar value `v`, `none` for a byte given up. Texts
and error flags are read off the events.
-/

namespace WebV8.Lib.Utf8

open List Option

/-! ## Sequences -/

/-- `80..BF`, the bytes after the second one. -/
def isTail (b : UInt8) : Bool := 0x80 ≤ b.toNat && b.toNat ≤ 0xBF

/-- The second bytes allowed after the lead byte `a` of a longer sequence. -/
def isSecond (a b : UInt8) : Bool :=
  if a.toNat = 0xE0 then 0xA0 ≤ b.toNat && b.toNat ≤ 0xBF
  else if a.toNat = 0xED then 0x80 ≤ b.toNat && b.toNat ≤ 0x9F
  else if a.toNat = 0xF0 then 0x90 ≤ b.toNat && b.toNat ≤ 0xBF
  else if a.toNat = 0xF4 then 0x80 ≤ b.toNat && b.toNat ≤ 0x8F
  else isTail b

/-- The scalar value a byte sequence encodes; `none` if it is not well-formed. -/
def scalar : List UInt8 → Option Nat
  | [a] => if a.toNat ≤ 0x7F then some a.toNat else none
  | [a, b] =>
    if (0xC2 ≤ a.toNat ∧ a.toNat ≤ 0xDF) ∧ isSecond a b then
      some ((a.toNat - 0xC0) * 0x40 + (b.toNat - 0x80))
    else none
  | [a, b, c] =>
    if (0xE0 ≤ a.toNat ∧ a.toNat ≤ 0xEF) ∧ isSecond a b ∧ isTail c then
      some ((a.toNat - 0xE0) * 0x1000 + (b.toNat - 0x80) * 0x40 + (c.toNat - 0x80))
    else none
  | [a, b, c, d] =>
    if (0xF0 ≤ a.toNat ∧ a.toNat ≤ 0xF4) ∧ isSecond a b ∧ isTail c ∧ isTail d then
      some ((a.toNat - 0xF0) * 0x40000 + (b.toNat - 0x80) * 0x1000 + (c.toNat - 0x80) * 0x40 +
        (d.toNat - 0x80))
    else none
  | _ => none

/-- How many bytes a sequence with this lead byte has, if there is one. -/
def leadLength (a : UInt8) : Nat :=
  if a.toNat < 0x80 then 1 else if a.toNat < 0xE0 then 2 else if a.toNat < 0xF0 then 3 else 4

theorem isTail_iff {b : UInt8} : isTail b = true ↔ 0x80 ≤ b.toNat ∧ b.toNat ≤ 0xBF := by
  simp [isTail]

theorem isSecond_iff {a b : UInt8} : isSecond a b = true ↔ (0x80 ≤ b.toNat ∧ b.toNat ≤ 0xBF) ∧
    (a.toNat = 0xE0 → 0xA0 ≤ b.toNat) ∧ (a.toNat = 0xED → b.toNat ≤ 0x9F) ∧
    (a.toNat = 0xF0 → 0x90 ≤ b.toNat) ∧ (a.toNat = 0xF4 → b.toNat ≤ 0x8F) := by
  unfold isSecond isTail
  split_ifs <;> simp only [Bool.and_eq_true, decide_eq_true_eq] <;> omega

theorem isSecond_of_lt {a b : UInt8} (h : a.toNat < 0xE0) : isSecond a b = isTail b := by
  rw [Bool.eq_iff_iff, isSecond_iff, isTail_iff]
  omega

theorem leadLength_pos (a : UInt8) : 0 < leadLength a := by
  unfold leadLength
  split_ifs <;> omega

variable {a : UInt8} {bs : List UInt8} {v : Nat}

theorem length_of_scalar (h : scalar (a :: bs) = some v) : (a :: bs).length = leadLength a := by
  unfold leadLength
  match bs, h with
  | [], h =>
    simp only [scalar, ite_none_right_eq_some] at h
    rw [if_pos (by omega)]; rfl
  | [b], h =>
    simp only [scalar, ite_none_right_eq_some] at h
    rw [if_neg (by omega), if_pos (by omega)]; rfl
  | [b, c], h =>
    simp only [scalar, ite_none_right_eq_some] at h
    rw [if_neg (by omega), if_neg (by omega), if_pos (by omega)]; rfl
  | [b, c, d], h =>
    simp only [scalar, ite_none_right_eq_some] at h
    rw [if_neg (by omega), if_neg (by omega), if_neg (by omega)]; rfl
  | _ :: _ :: _ :: _ :: _, h => exact absurd h (by simp [scalar])

theorem scalar_nil : scalar [] = none := rfl

theorem scalar_ascii (h : a.toNat < 0x80) : scalar [a] = some a.toNat := by
  rw [scalar, if_pos (by omega)]

/-! ## UTF-16 -/

def utf16 (v : Nat) : List UInt16 :=
  if v < 0x10000 then [v.toUInt16]
  else [(0xD800 + (v - 0x10000) / 0x400).toUInt16, (0xDC00 + (v - 0x10000) % 0x400).toUInt16]

def replacement : UInt16 := 0xFFFD

def eventUnits : Option Nat → List UInt16
  | some v => utf16 v
  | none => [replacement]

theorem eventUnits_length_pos (e : Option Nat) : 0 < (eventUnits e).length := by
  cases e with
  | none => exact Nat.one_pos
  | some v =>
    simp only [eventUnits, utf16]
    split_ifs <;> simp

def units (es : List (Option Nat)) : List UInt16 := es.flatMap eventUnits

@[simp] theorem units_nil : units [] = [] := rfl

@[simp] theorem units_cons (e : Option Nat) (es : List (Option Nat)) :
    units (e :: es) = eventUnits e ++ units es := rfl

@[simp] theorem units_append (es es' : List (Option Nat)) :
    units (es ++ es') = units es ++ units es' := by simp [units]

/-! ## The walk -/

/-- Decode the sequence at the front if there is one, and give up one byte otherwise. -/
def decode : List UInt8 → List (Option Nat)
  | [] => []
  | a :: bs =>
    match scalar ((a :: bs).take (leadLength a)) with
    | some v => some v :: decode ((a :: bs).drop (leadLength a))
    | none => none :: decode bs
termination_by bs => bs.length
decreasing_by
  · have := leadLength_pos a
    simp only [length_drop, length_cons]
    omega
  · simp

@[simp] theorem decode_nil : decode [] = [] := by rw [decode]

theorem decode_cons_some (h : scalar ((a :: bs).take (leadLength a)) = some v) :
    decode (a :: bs) = some v :: decode ((a :: bs).drop (leadLength a)) := by
  rw [decode, h]

theorem decode_cons_none (h : scalar ((a :: bs).take (leadLength a)) = none) :
    decode (a :: bs) = none :: decode bs := by
  rw [decode, h]

theorem decode_append {seq : List UInt8} (h : scalar seq = some v) : decode (seq ++ bs) = some v :: decode bs := by
  cases seq with
  | nil => exact absurd h (by simp [scalar])
  | cons a seq =>
    have hlen := length_of_scalar h
    rw [cons_append, decode_cons_some, ← cons_append, ← hlen, drop_left]
    rw [← cons_append, ← hlen, take_left, h]

/-! ## Well-formed strings -/

def WellFormed (bs : List UInt8) : Prop :=
  ∃ seqs : List (List UInt8), bs = seqs.flatten ∧ ∀ seq ∈ seqs, scalar seq ≠ none

theorem WellFormed.nil : WellFormed [] := ⟨[], rfl, by simp⟩

theorem WellFormed.append (seq : List UInt8) (hs : scalar seq ≠ none)
    (h : WellFormed bs) : WellFormed (seq ++ bs) := by
  obtain ⟨seqs, rfl, hall⟩ := h
  exact ⟨seq :: seqs, rfl, by simpa using ⟨hs, hall⟩⟩

/-- **The walk gives nothing up exactly on well-formed strings.** -/
theorem wellFormed_iff : WellFormed bs ↔ none ∉ decode bs := by
  constructor
  · rintro ⟨seqs, rfl, hall⟩
    induction seqs with
    | nil => simp
    | cons seq seqs ih =>
      obtain ⟨v, hv⟩ := ne_none_iff_exists'.mp (hall seq (by simp))
      rw [flatten_cons, decode_append hv]
      simpa using ih fun s hs => hall s (by simp [hs])
  · fun_induction decode bs with
    | case1 => exact fun _ => WellFormed.nil
    | case2 a bs v hv ih =>
      intro h
      have hrest := ih fun hm => h (by simp [hm])
      have := WellFormed.append ((a :: bs).take (leadLength a)) (by rw [hv]; simp) hrest
      rwa [take_append_drop] at this
    | case3 a bs hv ih => exact fun h => absurd (by simp) h

end WebV8.Lib.Utf8
