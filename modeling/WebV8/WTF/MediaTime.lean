import Mathlib

/-!
# Comparing `MediaTime` values

A media time is a 64-bit number of ticks over a 32-bit number of ticks per second, or one of four
special values. `compare` does not form the cross products, which would need more than 64 bits. It
compares truncated quotients first, and multiplies only the remainders, which keep the sign of the
dividend. `compare_eq` says that this is the order of the exact rationals.
-/

namespace WebV8

/-! ## The type -/

structure MediaTime where
  timeValue : Int64
  timeScale : Int32
  timeFlags : UInt32
  deriving DecidableEq, Repr

namespace MediaTime

section

variable (t : MediaTime)

def isValid : Bool := t.timeFlags &&& 1 != 0

def isInvalid : Bool := !t.isValid

def isPositiveInfinite : Bool := t.timeFlags &&& 4 != 0

def isNegativeInfinite : Bool := t.timeFlags &&& 8 != 0

def isIndefinite : Bool := t.timeFlags &&& 16 != 0

end

inductive ComparisonFlags where
  | lessThan
  | equalTo
  | greaterThan
  deriving DecidableEq, Repr

def ComparisonFlags.ofOrdering : Ordering → ComparisonFlags
  | .lt => lessThan
  | .eq => equalTo
  | .gt => greaterThan

/-- The values of the enumerators, for the operators that compare them. -/
def ComparisonFlags.toInt : ComparisonFlags → Int
  | lessThan => -1
  | equalTo => 0
  | greaterThan => 1

section

variable (lhs rhs : MediaTime)

/-- The last part of `compare`, for two times that are not special. -/
def compareFinite : ComparisonFlags :=
  let rhsWhole := rhs.timeValue / rhs.timeScale.toInt64
  let lhsWhole := lhs.timeValue / lhs.timeScale.toInt64
  if rhsWhole < lhsWhole then .greaterThan
  else if lhsWhole < rhsWhole then .lessThan
  else
    let rhsRemain := rhs.timeValue % rhs.timeScale.toInt64
    let lhsRemain := lhs.timeValue % lhs.timeScale.toInt64
    let lhsFactor := lhsRemain * rhs.timeScale.toInt64
    let rhsFactor := rhsRemain * lhs.timeScale.toInt64
    if lhsFactor = rhsFactor then .equalTo
    else if rhsFactor < lhsFactor then .greaterThan else .lessThan

def compare : ComparisonFlags :=
  if lhs.isPositiveInfinite && rhs.isPositiveInfinite
      || lhs.isNegativeInfinite && rhs.isNegativeInfinite
      || lhs.isInvalid && rhs.isInvalid
      || lhs.isIndefinite && rhs.isIndefinite then .equalTo
  else if lhs.isInvalid then .greaterThan
  else if rhs.isInvalid then .lessThan
  else if rhs.isNegativeInfinite || lhs.isPositiveInfinite then .greaterThan
  else if rhs.isPositiveInfinite || lhs.isNegativeInfinite then .lessThan
  else if lhs.isIndefinite then .greaterThan
  else if rhs.isIndefinite then .lessThan
  else compareFinite lhs rhs

/-- `operator<` -/
def lt : Bool := lhs.compare rhs = .lessThan

/-- `operator>` -/
def gt : Bool := lhs.compare rhs = .greaterThan

/-- `operator!=` -/
def ne : Bool := lhs.compare rhs ≠ .equalTo

/-- `operator==` -/
def eq : Bool := lhs.compare rhs = .equalTo

/-- `operator>=` -/
def ge : Bool := ComparisonFlags.equalTo.toInt ≤ (lhs.compare rhs).toInt

/-- `operator<=` -/
def le : Bool := (lhs.compare rhs).toInt ≤ ComparisonFlags.equalTo.toInt

end

/-! ## The times that the class makes -/

inductive Kind where
  | negativeInfinite
  | finite
  | indefinite
  | positiveInfinite
  | invalid
  deriving DecidableEq, Repr

/-- `isValid`, `isPositiveInfinite`, `isNegativeInfinite` and `isIndefinite`. -/
def Kind.flags : Kind → Bool × Bool × Bool × Bool
  | negativeInfinite => (true, false, true, false)
  | finite => (true, false, false, false)
  | indefinite => (true, false, false, true)
  | positiveInfinite => (true, true, false, false)
  | invalid => (false, false, false, false)

def Kind.rank : Kind → Nat
  | negativeInfinite => 0
  | finite => 1
  | indefinite => 2
  | positiveInfinite => 3
  | invalid => 4

end MediaTime

/-- A time of one of the five kinds. Of the other flags only `HasBeenRounded` is left free. -/
structure ProperMediaTime where
  time : MediaTime
  kind : MediaTime.Kind
  flags_eq : (time.isValid, time.isPositiveInfinite, time.isNegativeInfinite, time.isIndefinite) = kind.flags
  scale_pos : kind = .finite → 0 < time.timeScale

namespace ProperMediaTime

def seconds (t : ProperMediaTime) : ℚ := (t.time.timeValue.toInt : ℚ) / (t.time.timeScale.toInt : ℚ)

/-- What a time stands for: its kind, and for a finite time the number of seconds. -/
def exact (t : ProperMediaTime) : ℕ ×ₗ ℚ :=
  toLex (t.kind.rank, if t.kind = .finite then t.seconds else 0)

end ProperMediaTime

/-! ## Truncated quotients -/

theorem mul_lt_mul_of_tdiv_lt {v w s t : Int} (hs : 0 < s) (ht : 0 < t) (h : w.tdiv t < v.tdiv s) :
    w * s < v * t := by
  have hv := Int.mul_tdiv_add_tmod v s
  have hw := Int.mul_tdiv_add_tmod w t
  by_cases hq : 1 ≤ v.tdiv s
  · -- the larger quotient is positive, so its remainder is not negative
    have hv0 : 0 ≤ v := by
      by_contra hneg
      have hle : v.tdiv s ≤ 0 := by
        rw [← Int.neg_neg v, Int.neg_tdiv]
        have := Int.tdiv_nonneg (a := -v) (b := s) (by omega) hs.le
        omega
      omega
    have hr := Int.tmod_nonneg s hv0
    have hr' := Int.tmod_lt_of_pos w ht
    have h₂ : w < t * (v.tdiv s) := by nlinarith
    nlinarith
  · have hw0 : w ≤ 0 := by
      by_contra hpos
      have := Int.tdiv_nonneg (a := w) (b := t) (by omega) ht.le
      omega
    have hr : w.tmod t ≤ 0 := by
      have := Int.tmod_nonneg t (a := -w) (by omega)
      rw [Int.neg_tmod] at this
      omega
    have hr' := Int.lt_tmod_of_pos v hs
    have h₂ : s * (w.tdiv t) < v := by nlinarith
    nlinarith

theorem mul_sub_mul_of_tdiv_eq {v w s t : Int} (h : v.tdiv s = w.tdiv t) :
    v * t - w * s = v.tmod s * t - w.tmod t * s := by
  have hv := Int.mul_tdiv_add_tmod v s
  have hw := Int.mul_tdiv_add_tmod w t
  rw [h] at hv
  linear_combination (-t) * hv + s * hw

/-! ## Finite times -/

namespace MediaTime

variable {lhs rhs : MediaTime} {scale : Int32}

theorem toInt_toInt64_pos (h : 0 < scale) : 0 < scale.toInt64.toInt := by
  rw [Int32.toInt_toInt64]
  exact Int32.lt_iff_toInt_lt.mp h

theorem toInt_div_scale (v : Int64) (h : 0 < scale) :
    (v / scale.toInt64).toInt = v.toInt.tdiv scale.toInt := by
  have hpos := toInt_toInt64_pos h
  have hne : scale.toInt64 ≠ -1 := by
    intro heq
    rw [heq] at hpos
    exact absurd hpos (by decide)
  rw [Int64.toInt_div_of_ne_right _ _ hne, Int32.toInt_toInt64]

theorem toInt_remain_mul (v : Int64) {scale' : Int32} (h : 0 < scale) (h' : 0 < scale') :
    (v % scale.toInt64 * scale'.toInt64).toInt = v.toInt.tmod scale.toInt * scale'.toInt := by
  have hpos := toInt_toInt64_pos h
  have hpos' := toInt_toInt64_pos h'
  rw [Int32.toInt_toInt64] at hpos hpos'
  have hlo := Int.lt_tmod_of_pos v.toInt hpos
  have hhi := Int.tmod_lt_of_pos v.toInt hpos
  have hsca := scale.toInt_lt
  have hsca' := scale'.toInt_lt
  rw [Int64.toInt_mul, Int64.toInt_mod, Int32.toInt_toInt64, Int32.toInt_toInt64]
  have hlow : -2 ^ 31 * scale'.toInt ≤ v.toInt.tmod scale.toInt * scale'.toInt :=
    mul_le_mul_of_nonneg_right (by omega) hpos'.le
  have hhigh : v.toInt.tmod scale.toInt * scale'.toInt ≤ 2 ^ 31 * scale'.toInt :=
    mul_le_mul_of_nonneg_right (by omega) hpos'.le
  apply Int.bmod_eq_of_le
  · omega
  · omega

theorem compareFinite_eq (hs : 0 < lhs.timeScale) (ht : 0 < rhs.timeScale) : compareFinite lhs rhs = .ofOrdering
      (cmp (lhs.timeValue.toInt * rhs.timeScale.toInt) (rhs.timeValue.toInt * lhs.timeScale.toInt)) := by
  have hs' := toInt_toInt64_pos hs
  have ht' := toInt_toInt64_pos ht
  rw [Int32.toInt_toInt64] at hs' ht'
  simp only [compareFinite, Int64.lt_iff_toInt_lt, ← Int64.toInt_inj, toInt_div_scale _ hs,
    toInt_div_scale _ ht, toInt_remain_mul _ hs ht, toInt_remain_mul _ ht hs]
  rcases lt_trichotomy (lhs.timeValue.toInt.tdiv lhs.timeScale.toInt)
    (rhs.timeValue.toInt.tdiv rhs.timeScale.toInt) with hq | hq | hq
  · have hlt := mul_lt_mul_of_tdiv_lt ht' hs' hq
    rw [if_neg hq.not_gt, if_pos hq, cmp_eq_lt_iff _ _ |>.mpr hlt]
    rfl
  · have hsub := mul_sub_mul_of_tdiv_eq hq
    rw [if_neg hq.not_gt, if_neg hq.not_lt]
    rcases lt_trichotomy (lhs.timeValue.toInt * rhs.timeScale.toInt)
      (rhs.timeValue.toInt * lhs.timeScale.toInt) with h | h | h
    · rw [if_neg (by omega), if_neg (by omega), cmp_eq_lt_iff _ _ |>.mpr h]
      rfl
    · rw [if_pos (by omega), cmp_eq_eq_iff _ _ |>.mpr h]
      rfl
    · rw [if_neg (by omega), if_pos (by omega), cmp_eq_gt_iff _ _ |>.mpr h]
      rfl
  · have hlt := mul_lt_mul_of_tdiv_lt hs' ht' hq
    rw [if_pos hq, cmp_eq_gt_iff _ _ |>.mpr hlt]
    rfl

theorem Kind.rank_injective : Function.Injective Kind.rank := by
  intro k l h
  cases k <;> cases l <;> first | rfl | cases h

namespace ComparisonFlags

variable (o : Ordering)

theorem ofOrdering_eq_lessThan : ofOrdering o = lessThan ↔ o = .lt := by cases o <;> simp [ofOrdering]

theorem ofOrdering_eq_equalTo : ofOrdering o = equalTo ↔ o = .eq := by cases o <;> simp [ofOrdering]

theorem ofOrdering_eq_greaterThan : ofOrdering o = greaterThan ↔ o = .gt := by
  cases o <;> simp [ofOrdering]

theorem ofOrdering_le_equalTo : (ofOrdering o).toInt ≤ equalTo.toInt ↔ o ≠ .gt := by
  cases o <;> simp [ofOrdering, toInt]

theorem equalTo_le_ofOrdering : equalTo.toInt ≤ (ofOrdering o).toInt ↔ o ≠ .lt := by
  cases o <;> simp [ofOrdering, toInt]

end ComparisonFlags

end MediaTime

/-! ## All times -/

namespace ProperMediaTime

open MediaTime

variable {a b c : ProperMediaTime}

theorem cmp_seconds (ha : a.kind = .finite) (hb : b.kind = .finite) :
    cmp (a.time.timeValue.toInt * b.time.timeScale.toInt) (b.time.timeValue.toInt * a.time.timeScale.toInt) =
      cmp a.seconds b.seconds := by
  have hs : (0 : ℚ) < a.time.timeScale.toInt := by
    exact_mod_cast Int32.lt_iff_toInt_lt.mp (a.scale_pos ha)
  have ht : (0 : ℚ) < b.time.timeScale.toInt := by
    exact_mod_cast Int32.lt_iff_toInt_lt.mp (b.scale_pos hb)
  have hlt : a.seconds < b.seconds ↔
      a.time.timeValue.toInt * b.time.timeScale.toInt < b.time.timeValue.toInt * a.time.timeScale.toInt := by
    rw [seconds, seconds, div_lt_div_iff₀ hs ht]
    exact_mod_cast Iff.rfl
  have hgt : b.seconds < a.seconds ↔
      b.time.timeValue.toInt * a.time.timeScale.toInt < a.time.timeValue.toInt * b.time.timeScale.toInt := by
    rw [seconds, seconds, div_lt_div_iff₀ ht hs]
    exact_mod_cast Iff.rfl
  simp only [cmp, cmpUsing, hlt, hgt]

theorem cmp_exact_of_rank_lt (h : a.kind.rank < b.kind.rank) : cmp a.exact b.exact = .lt := by
  rw [cmp_eq_lt_iff, exact, exact, Prod.Lex.toLex_lt_toLex]
  exact .inl h

theorem cmp_exact_of_rank_gt (h : b.kind.rank < a.kind.rank) : cmp a.exact b.exact = .gt := by
  rw [cmp_eq_gt_iff, exact, exact, Prod.Lex.toLex_lt_toLex]
  exact .inl h

theorem cmp_exact_finite (ha : a.kind = .finite) (hb : b.kind = .finite) :
    cmp a.exact b.exact = cmp a.seconds b.seconds := by
  have hlt : ∀ {x y : ProperMediaTime}, x.kind = .finite → y.kind = .finite →
      (x.exact < y.exact ↔ x.seconds < y.seconds) := by
    intro x y hx hy
    simp [exact, hx, hy, Prod.Lex.toLex_lt_toLex]
  simp only [cmp, cmpUsing, hlt ha hb, hlt hb ha]

theorem compare_kinds (a b : ProperMediaTime) : a.time.compare b.time =
      if a.kind = .finite ∧ b.kind = .finite then compareFinite a.time b.time
      else .ofOrdering (cmp a.kind.rank b.kind.rank) := by
  have ha := a.flags_eq
  have hb := b.flags_eq
  cases hka : a.kind <;> cases hkb : b.kind <;>
    simp only [hka, hkb, Kind.flags, Prod.mk.injEq] at ha hb <;>
    simp [MediaTime.compare, isInvalid, ha, hb, Kind.rank] <;> rfl

theorem compare_eq (a b : ProperMediaTime) : a.time.compare b.time = .ofOrdering (cmp a.exact b.exact) := by
  rw [compare_kinds]
  split
  next h =>
    rw [compareFinite_eq (a.scale_pos h.1) (b.scale_pos h.2), cmp_seconds h.1 h.2, cmp_exact_finite h.1 h.2]
  next h =>
    rcases lt_trichotomy a.kind.rank b.kind.rank with hr | hr | hr
    · rw [(cmp_eq_lt_iff _ _).mpr hr, cmp_exact_of_rank_lt hr]
    · have hkind : a.kind = b.kind := Kind.rank_injective hr
      have hne : a.kind ≠ .finite := fun hf => h ⟨hf, hkind ▸ hf⟩
      have hexa : a.exact = b.exact := by
        rw [exact, exact, if_neg hne, if_neg (hkind ▸ hne), hr]
      rw [(cmp_eq_eq_iff _ _).mpr hr, (cmp_eq_eq_iff _ _).mpr hexa]
    · rw [(cmp_eq_gt_iff _ _).mpr hr, cmp_exact_of_rank_gt hr]

/-- **Comparison is exact.** For any times, `compare` and each of the operators decide the order of what
    the times stand for, and hence a total preorder. -/
theorem compare_exact (a b c : ProperMediaTime) : a.time.compare b.time = .ofOrdering (cmp a.exact b.exact) ∧
    (a.time.lt b.time = true ↔ a.exact < b.exact) ∧ (a.time.le b.time = true ↔ a.exact ≤ b.exact) ∧
    (a.time.eq b.time = true ↔ a.exact = b.exact) ∧ (a.time.ne b.time = true ↔ a.exact ≠ b.exact) ∧
    (a.time.ge b.time = true ↔ b.exact ≤ a.exact) ∧ (a.time.gt b.time = true ↔ b.exact < a.exact) ∧
    (a.kind = .finite → b.kind = .finite → a.time.compare b.time = .ofOrdering (cmp a.seconds b.seconds)) ∧
    (a.time.le b.time = true ∨ b.time.le a.time = true) ∧
    (a.time.le b.time = true → b.time.le c.time = true → a.time.le c.time = true) ∧
    (a.time.le b.time = true → b.time.le a.time = true → a.time.eq b.time = true) := by
  have hle : ∀ x y : ProperMediaTime, x.time.le y.time = true ↔ x.exact ≤ y.exact := by
    intro x y
    rw [MediaTime.le, compare_eq, decide_eq_true_eq, ComparisonFlags.ofOrdering_le_equalTo, ne_eq,
      cmp_eq_gt_iff, not_lt]
  have heq : ∀ x y : ProperMediaTime, x.time.eq y.time = true ↔ x.exact = y.exact := by
    intro x y
    rw [MediaTime.eq, compare_eq, decide_eq_true_eq, ComparisonFlags.ofOrdering_eq_equalTo, cmp_eq_eq_iff]
  refine ⟨compare_eq a b, ?_, hle a b, heq a b, ?_, ?_, ?_, ?_, ?_, ?_, ?_⟩
  · rw [MediaTime.lt, compare_eq, decide_eq_true_eq, ComparisonFlags.ofOrdering_eq_lessThan, cmp_eq_lt_iff]
  · rw [MediaTime.ne, compare_eq, decide_eq_true_eq, ne_eq, ComparisonFlags.ofOrdering_eq_equalTo, cmp_eq_eq_iff]
  · rw [MediaTime.ge, compare_eq, decide_eq_true_eq, ComparisonFlags.equalTo_le_ofOrdering, ne_eq,
      cmp_eq_lt_iff, not_lt]
  · rw [MediaTime.gt, compare_eq, decide_eq_true_eq, ComparisonFlags.ofOrdering_eq_greaterThan, cmp_eq_gt_iff]
  · intro ha hb
    rw [compare_eq, cmp_exact_finite ha hb]
  · rw [hle, hle]
    exact le_total _ _
  · rw [hle, hle, hle]
    exact le_trans
  · rw [hle, hle, heq]
    exact le_antisymm

end ProperMediaTime

end WebV8
