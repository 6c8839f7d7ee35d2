import WebV8.Platform.Decimal

/-!
# The order of decimals

`compareTo` subtracts, and subtraction rounds: when the exponents are far apart, digits of the smaller
number are dropped. That happens only when the other number has been scaled up to all 18 digits, and
then it is larger by far. So the difference of the aligned coefficients has the right sign
(`alignOperands_spec`), and rounding or overflowing the difference does not change its sign.
-/

namespace WebV8

open Decimal Int Nat

variable {x : Nat}

namespace DecimalPrivate

theorem maxCoefficient_eq : maxCoefficient = 10 ^ 17 - 1 := by decide

/-! ## Digits -/

theorem countDigitsFrom_spec {x n : Nat} (hx : x < 10 ^ 18) (hn : n = 0 ∨ 10 ^ (n - 1) ≤ x) :
    x < 10 ^ countDigitsFrom x n ∧ (countDigitsFrom x n = 0 ∨ 10 ^ (countDigitsFrom x n - 1) ≤ x) := by
  fun_induction countDigitsFrom x n with
  | case1 n h => exact ⟨h, hn⟩
  | case2 n h hlar => omega
  | case3 n h hlar ih => exact ih (.inr (by simpa using h))

section

variable (hx : x ≤ maxCoefficient)
include hx

theorem lt_of_le_maxCoefficient : x < 10 ^ 17 := by
  rw [maxCoefficient_eq] at hx
  omega

theorem countDigits_spec :
    x < 10 ^ countDigits x ∧ (countDigits x = 0 ∨ 10 ^ (countDigits x - 1) ≤ x) := by
  have hlt := lt_of_le_maxCoefficient hx
  exact countDigitsFrom_spec (by omega) (.inl rfl)

theorem lt_pow_countDigits : x < 10 ^ countDigits x :=
  (countDigits_spec hx).1

theorem countDigits_eq_zero_iff : countDigits x = 0 ↔ x = 0 := by
  have hlt := lt_pow_countDigits hx
  constructor
  · intro h
    rw [h] at hlt
    omega
  · rintro rfl
    rw [countDigits, countDigitsFrom]
    rfl

theorem pow_countDigits_le (hpos : 0 < x) : 10 ^ (countDigits x - 1) ≤ x := by
  rcases (countDigits_spec hx).2 with h | h
  · have := (countDigits_eq_zero_iff hx).mp h
    omega
  · exact h

theorem countDigits_le : countDigits x ≤ 17 := by
  rcases Nat.eq_zero_or_pos x with rfl | hpos
  · rw [(countDigits_eq_zero_iff hx).mpr rfl]
    omega
  · have hle := pow_countDigits_le hx hpos
    have hlt : 10 ^ (countDigits x - 1) < 10 ^ 17 := hle.trans_lt (lt_of_le_maxCoefficient hx)
    have := (Nat.pow_lt_pow_iff_right (by decide : 1 < 10)).mp hlt
    omega

end

theorem scaleDown_eq (x n : Nat) : scaleDown x n = x / 10 ^ n := by
  induction n generalizing x with
  | zero => simp [scaleDown]
  | succ n ih =>
    rw [scaleDown, ih, Nat.div_div_eq_div_mul, pow_succ, mul_comm]
    split
    next h => simp [h]
    next => rfl

theorem scaleUpFrom_eq (x n y z : Nat) : scaleUpFrom x n y z = x * (y * z ^ n) % 2 ^ 64 := by
  fun_induction scaleUpFrom x n y z with
  | case1 n y z y' h =>
    have hn : n = 0 ∨ n = 1 := by omega
    rcases hn with rfl | rfl
    · simp [y']
    · simp [y', mul_mod]
  | case2 n y z y' h ih =>
    rw [ih]
    have hspl := mod_add_div n 2
    have hz : (z * z % 2 ^ 64) ^ (n / 2) ≡ z ^ (2 * (n / 2)) [MOD 2 ^ 64] := by
      rw [pow_mul, pow_two]
      exact (Nat.mod_modEq _ _).pow _
    have hy : y' * z ^ (2 * (n / 2)) ≡ y * z ^ n [MOD 2 ^ 64] := by
      conv_rhs => rw [← hspl, pow_add]
      rcases mod_two_eq_zero_or_one n with h0 | h1
      · simp [y', h0]
        rfl
      · simp only [y', h1, pow_one, ← mul_assoc]
        exact (Nat.mod_modEq _ _).mul_right _
    exact ((hz.mul_left y').trans hy).mul_left x

theorem scaleUp_eq (x n : Nat) : scaleUp x n = x * 10 ^ n % 2 ^ 64 := by
  rw [scaleUp, scaleUpFrom_eq, one_mul]

theorem normalizeCoefficient_snd_eq_zero_iff (exponent : Int) (coefficient : Nat) :
    (normalizeCoefficient exponent coefficient).2 = 0 ↔ coefficient = 0 := by
  fun_induction normalizeCoefficient exponent coefficient with
  | case1 _ _ _ => rfl
  | case2 _ coefficient h ih =>
    rw [ih]
    rw [maxCoefficient_eq] at h
    omega

end DecimalPrivate

open DecimalPrivate

variable (d : Finite) {e : Int}

namespace Decimal

/-! ## Construction -/

variable {s : Sign} {e : Int} {c : Nat}

variable (he : exponentMin ≤ e ∧ e ≤ exponentMax)
include he

theorem ofParts_of_le (hc : c ≤ maxCoefficient) :
    ofParts s e c = finite ⟨s, e, c, he.1, he.2, hc⟩ := by
  have hn : normalizeCoefficient e c = (e, c) := by
    rw [normalizeCoefficient, if_pos hc]
  simp only [ofParts, dif_pos he, hn, dif_pos he.2]

theorem ofParts_zero :
    ofParts s e 0 = finite ⟨s, e, 0, he.1, he.2, zero_le _⟩ :=
  ofParts_of_le he (zero_le _)

/-- A coefficient that is not zero is kept from becoming zero, and its sign is kept also when the
    exponent overflows. -/
theorem ofParts_pos (hc : c ≠ 0) :
    ofParts s e c = infinity s ∨ ∃ d, ofParts s e c = finite d ∧ d.sign = s ∧ d.coefficient ≠ 0 := by
  rw [ofParts, dif_pos he]
  by_cases h : (normalizeCoefficient e c).1 ≤ exponentMax
  · right
    refine ⟨_, dif_pos h, rfl, ?_⟩
    exact mt (normalizeCoefficient_snd_eq_zero_iff e c).mp hc
  · left
    exact dif_neg h

omit he

/-! ## Aligned operands -/

/-- What `alignTo` makes of a number with a larger exponent, by `n`, and another number. Digits are dropped
    only if the first has at least 18 digits. -/
theorem alignTo_spec (e : Int) (n small : Nat) {large : Nat} (hl : large ≤ maxCoefficient) :
    ∃ l k : Nat, alignTo (e + n) e large small = (l, small / 10 ^ k, e + k) ∧ k ≤ n ∧
      l * 10 ^ k = large * 10 ^ n ∧ l < 10 ^ 18 ∧ (k = 0 ∨ 10 ^ 17 ≤ l) := by
  have hdig := countDigits_le hl
  have hlt := lt_pow_countDigits hl
  have hshi : e + n - e = n := by omega
  by_cases hzero : countDigits large = 0
  · have hlar := (countDigits_eq_zero_iff hl).mp hzero
    refine ⟨0, 0, ?_, zero_le _, by rw [hlar]; omega, by decide, .inl rfl⟩
    rw [alignTo, if_pos hzero, hlar, Nat.pow_zero, Nat.div_one, Int.natCast_zero, Int.add_zero]
  · have hpos : 0 < large := pos_of_ne_zero (mt (countDigits_eq_zero_iff hl).mpr hzero)
    have hle := pow_countDigits_le hl hpos
    by_cases hover : (countDigits large : Int) + n - precision ≤ 0
    · have hn18 : countDigits large + n ≤ 18 := by
        rw [precision] at hover
        omega
      have hfit : large * 10 ^ n < 10 ^ 18 :=
        calc large * 10 ^ n < 10 ^ countDigits large * 10 ^ n := by
              exact mul_lt_mul_of_pos_right hlt (by positivity)
          _ = 10 ^ (countDigits large + n) := (pow_add ..).symm
          _ ≤ 10 ^ 18 := Nat.pow_le_pow_right (by decide) hn18
      refine ⟨large * 10 ^ n, 0, ?_, zero_le _, by simp, hfit, .inl rfl⟩
      simp only [alignTo, if_neg hzero, hshi, if_pos hover, toNat_natCast, scaleUp_eq]
      rw [Nat.mod_eq_of_lt (by omega), Nat.pow_zero, Nat.div_one, Int.natCast_zero, Int.add_zero]
    · obtain ⟨k, hk⟩ : ∃ k : Nat, (countDigits large : Int) + n - precision = k := eq_ofNat_of_zero_le (by omega)
      obtain ⟨u, hu⟩ : ∃ u, countDigits large + u = 18 := ⟨18 - countDigits large, by omega⟩
      have hn' : n = u + k := by
        rw [precision] at hk
        omega
      have hfit : large * 10 ^ u < 10 ^ 18 :=
        calc large * 10 ^ u < 10 ^ countDigits large * 10 ^ u := by
              exact mul_lt_mul_of_pos_right hlt (by positivity)
          _ = 10 ^ 18 := by rw [← pow_add, hu]
      have hfull : 10 ^ 17 ≤ large * 10 ^ u :=
        calc 10 ^ 17 = 10 ^ (countDigits large - 1) * 10 ^ u := by rw [← pow_add]; congr 1; omega
          _ ≤ large * 10 ^ u := mul_le_mul_right _ hle
      refine ⟨large * 10 ^ u, k, ?_, by omega, ?_, hfit, .inr hfull⟩
      · have hsub : ((n : Int) - k).toNat = u := by omega
        simp only [alignTo, if_neg hzero, hshi, hk, if_neg (hk ▸ hover), hsub, scaleUp_eq, scaleDown_eq,
          toNat_natCast]
        rw [mod_eq_of_lt (by omega)]
      · rw [hn', pow_add, mul_assoc]

/-- Coefficients that compare like `A` and `B` do, and are small enough for a word to hold their sum. -/
structure Comparable (a : AlignedOperands) (A B : Nat) : Prop where
  lt : a.lhsCoefficient < a.rhsCoefficient ↔ A < B
  gt : a.rhsCoefficient < a.lhsCoefficient ↔ B < A
  zero : a.lhsCoefficient + a.rhsCoefficient = 0 ↔ A = 0 ∧ B = 0
  lhs_lt : a.lhsCoefficient < 10 ^ 18
  rhs_lt : a.rhsCoefficient < 10 ^ 18
  exponent : exponentMin ≤ a.exponent ∧ a.exponent ≤ exponentMax

theorem Comparable.swap {l r A B : Nat} (h : Comparable ⟨l, r, e⟩ A B) : Comparable ⟨r, l, e⟩ B A where
  lt := h.gt
  gt := h.lt
  zero := by
    have hz := h.zero
    simp only at hz ⊢
    omega
  lhs_lt := h.rhs_lt
  rhs_lt := h.lhs_lt
  exponent := h.exponent

/-- The coefficient counted in units of `10 ^ e`. -/
def Finite.scaled (e : Int) : Nat := d.coefficient * 10 ^ (d.exponent - e).toNat

theorem Finite.toRat_eq (he : e ≤ d.exponent) :
    d.toRat = ((d.sign.toInt * d.scaled e : Int) : ℚ) * (10 : ℚ) ^ e := by
  obtain ⟨n, hn⟩ := Int.le.dest he
  have hsub : (d.exponent - e).toNat = n := by omega
  rw [Finite.toRat, Finite.scaled, hsub, ← hn, zpow_add₀ (by norm_num), zpow_natCast]
  push_cast
  ring

theorem Finite.scaled_self : d.scaled d.exponent = d.coefficient := by
  rw [scaled, sub_self, toNat_zero, pow_zero, mul_one]

/-- Two coefficients in units of `10 ^ e` are aligned: `k` digits of the small one are dropped, but only if
    the large one still has 18. -/
def Aligns (large small : Nat) (e : Int) (l r : Nat) (e' : Int) : Prop :=
  ∃ k : Nat, l * 10 ^ k = large ∧ small / 10 ^ k = r ∧ e + k = e' ∧ l < 10 ^ 18 ∧ small < 10 ^ 17 ∧
    (k = 0 ∨ 10 ^ 17 ≤ l) ∧ e + k ≤ exponentMax

theorem aligns_alignTo {large small : Finite} (h : small.exponent ≤ large.exponent) :
    let (l, r, e) := alignTo large.exponent small.exponent large.coefficient small.coefficient
    Aligns (large.scaled small.exponent) (small.scaled small.exponent) small.exponent l r e := by
  obtain ⟨n, hn⟩ := Int.le.dest h
  obtain ⟨l, k, hali, hk, hlar, hlt, hfull⟩ :=
    alignTo_spec small.exponent n small.coefficient large.coefficient_le
  have hsub : (large.exponent - small.exponent).toNat = n := by omega
  have hmax := large.le_exponentMax
  rw [small.scaled_self, Finite.scaled, hsub, ← hn, hali]
  exact ⟨k, hlar, rfl, rfl, hlt, lt_of_le_maxCoefficient small.coefficient_le, hfull, by omega⟩

theorem alignOperands_aligns (lhs rhs : Finite) (he : e = min lhs.exponent rhs.exponent) :
    let a := alignOperands lhs rhs
    Aligns (lhs.scaled e) (rhs.scaled e) e a.lhsCoefficient a.rhsCoefficient a.exponent ∨
      Aligns (rhs.scaled e) (lhs.scaled e) e a.rhsCoefficient a.lhsCoefficient a.exponent := by
  dsimp only
  rw [he, alignOperands]
  split_ifs with h h'
  · rw [min_eq_right h.le]
    exact .inl (aligns_alignTo h.le)
  · rw [min_eq_left h'.le]
    exact .inr (aligns_alignTo h'.le)
  · have heq : rhs.exponent = lhs.exponent := by omega
    have hlt := lt_of_le_maxCoefficient lhs.coefficient_le
    rw [heq, min_self, lhs.scaled_self, ← heq, rhs.scaled_self]
    refine .inl ⟨0, by simp, by simp, by simp, ?_, lt_of_le_maxCoefficient rhs.coefficient_le, .inl rfl, ?_⟩
    · exact hlt.trans (by decide)
    · simpa using rhs.le_exponentMax

/-- If digits of the smaller exponent were dropped, the other number is larger before and after. -/
theorem Aligns.comparable {large small l r : Nat} {e' : Int} (h : Aligns large small e l r e')
    (he : exponentMin ≤ e) : Comparable ⟨l, r, e'⟩ large small := by
  obtain ⟨k, rfl, rfl, rfl, hlt, hsma, hfull, hmax⟩ := h
  have hdown : small / 10 ^ k ≤ small := div_le_self _ _
  have hup : l ≤ l * 10 ^ k := Nat.le_mul_of_pos_right _ (by positivity)
  rcases hfull with rfl | hfull
  · constructor <;> simp <;> omega
  · generalize small / 10 ^ k = r at hdown
    constructor <;> simp only <;> omega

theorem alignOperands_spec (lhs rhs : Finite) :
    Comparable (alignOperands lhs rhs) (lhs.scaled (min lhs.exponent rhs.exponent))
      (rhs.scaled (min lhs.exponent rhs.exponent)) := by
  have hmin := le_min lhs.exponentMin_le rhs.exponentMin_le
  rcases alignOperands_aligns lhs rhs rfl with h | h
  · exact h.comparable hmin
  · exact (h.comparable hmin).swap

/-! ## The sign of a difference -/

/-- The decimal stands for the outcome `o` of a comparison. -/
def Shows (d : Decimal) (o : Ordering) : Prop :=
  d.isNaN = false ∧ (d.isZero = true ↔ o = .eq) ∧ (o ≠ .eq → d.sign = if o = .lt then .negative else .positive)

/-- What `compareTo` makes of a difference. -/
def outcome : Decimal → Decimal
  | infinity s => one s
  | nan => nan
  | finite d => if d.coefficient = 0 then zero .positive else finite d

theorem compareTo_eq (lhs rhs : Decimal) : compareTo lhs rhs = outcome (sub lhs rhs) := by
  rw [compareTo]
  cases sub lhs rhs <;> rfl

theorem one_eq (s : Sign) : one s = finite ⟨s, 0, 1, by decide, by decide, by decide⟩ :=
  ofParts_of_le (by decide) (by decide)

theorem shows_one (s : Sign) : Shows (one s) (if s = .negative then .lt else .gt) := by
  rw [one_eq]
  cases s <;> exact ⟨rfl, by decide, fun _ => rfl⟩

theorem shows_outcome_zero (he : exponentMin ≤ e ∧ e ≤ exponentMax) : Shows (outcome (ofParts s e 0)) .eq := by
  rw [ofParts_zero he, outcome, if_pos rfl]
  exact ⟨rfl, by decide, fun h => absurd rfl h⟩

theorem shows_outcome_pos (he : exponentMin ≤ e ∧ e ≤ exponentMax) (hc : c ≠ 0) :
    Shows (outcome (ofParts s e c)) (if s = .negative then .lt else .gt) := by
  rcases ofParts_pos he hc with h | ⟨d, h, hsign, hd⟩
  · rw [h]
    exact shows_one s
  · rw [h, outcome, if_neg hd]
    refine ⟨rfl, ?_, fun _ => ?_⟩
    · rw [isZero, decide_eq_true_eq]
      cases s <;> simp [hd]
    · rw [sign, hsign]
      cases s <;> rfl

theorem subAligned_eq (s t : Sign) {l r : Nat} (e : Int) (hl : l < 10 ^ 18) (hr : r < 10 ^ 18) :
    ∃ (u : Sign) (n : Nat), subAligned s t ⟨l, r, e⟩ = ofParts u e n ∧ u.toInt * n = s.toInt * l - t.toInt * r := by
  by_cases hst : s = t
  · subst hst
    rcases lt_or_ge l r with hlr | hlr
    · have hres : (l + (2 ^ 64 - r)) % 2 ^ 64 = 2 ^ 64 - (r - l) := by omega
      have hback : 2 ^ 64 - (2 ^ 64 - (r - l)) = r - l := by omega
      refine ⟨invertSign s, r - l, ?_, ?_⟩
      · simp only [subAligned, if_true, hres, hback]
        rw [if_neg (by omega), if_neg (by omega)]
      · cases s <;> simp only [invertSign, Sign.toInt] <;> omega
    · have hres : (l + (2 ^ 64 - r)) % 2 ^ 64 = l - r := by omega
      simp only [subAligned, if_true, hres]
      split
      next h => exact ⟨.positive, 0, rfl, by rw [h.1]; simp only [Sign.toInt]; omega⟩
      next h =>
        refine ⟨s, l - r, by rw [if_pos (by omega)], ?_⟩
        cases s <;> simp only [Sign.toInt] <;> omega
  · have hres : (l + r) % 2 ^ 64 = l + r := by omega
    refine ⟨s, l + r, ?_, ?_⟩
    · simp only [subAligned, if_neg hst, hres]
      rw [if_neg (fun h => hst (h.1.trans h.2.1.symm)), if_pos (by omega)]
    · cases s <;> cases t <;> simp only [Sign.toInt] <;> first | omega | exact absurd rfl hst

/-- The difference of coefficients that compare like `A` and `B` has the sign of the signed difference. -/
theorem shows_subAligned {a : AlignedOperands} {A B : Nat} (h : Comparable a A B) (s t : Sign) :
    Shows (outcome (subAligned s t a)) (cmp (s.toInt * A) (t.toInt * B)) := by
  obtain ⟨hlt, hgt, hzero, hl, hr, he⟩ := h
  obtain ⟨l, r, e⟩ := a
  obtain ⟨u, n, hsub, hval⟩ := subAligned_eq s t e hl hr
  simp only at hlt hgt hzero
  rw [hsub]
  by_cases hn : n = 0
  · rw [hn, Nat.cast_zero, mul_zero] at hval
    have heq : s.toInt * A = t.toInt * B := by
      cases s <;> cases t <;> simp only [Sign.toInt] at hval ⊢ <;> omega
    rw [hn, (cmp_eq_eq_iff _ _).mpr heq]
    exact shows_outcome_zero he
  · have hshow := shows_outcome_pos (s := u) he hn
    cases u with
    | positive =>
      have hcmp : s.toInt * A > t.toInt * B := by
        cases s <;> cases t <;> simp only [Sign.toInt] at hval ⊢ <;> omega
      rwa [(cmp_eq_gt_iff _ _).mpr hcmp]
    | negative =>
      have hcmp : s.toInt * A < t.toInt * B := by
        cases s <;> cases t <;> simp only [Sign.toInt] at hval ⊢ <;> omega
      rwa [(cmp_eq_lt_iff _ _).mpr hcmp]

/-! ## The order -/

/-- The exact value among the rationals and the infinities. -/
def extended : Decimal → WithBot (WithTop ℚ)
  | finite d => ((d.toRat : WithTop ℚ) : WithBot (WithTop ℚ))
  | infinity .positive => ⊤
  | infinity .negative => ⊥
  | nan => ((0 : WithTop ℚ) : WithBot (WithTop ℚ))

theorem extended_lt_infinity : extended (finite d) < extended (infinity .positive) :=
  WithBot.coe_lt_coe.mpr (WithTop.coe_lt_top _)

theorem infinity_lt_extended : extended (infinity .negative) < extended (finite d) :=
  WithBot.bot_lt_coe _

theorem infinity_lt_infinity : extended (infinity .negative) < extended (infinity .positive) := bot_lt_top

theorem cmp_toRat (lhs rhs : Finite) : cmp (lhs.sign.toInt * (lhs.scaled (min lhs.exponent rhs.exponent) : Int))
      (rhs.sign.toInt * (rhs.scaled (min lhs.exponent rhs.exponent) : Int)) =
      cmp (extended (finite lhs)) (extended (finite rhs)) := by
  have hpos : (0 : ℚ) < (10 : ℚ) ^ min lhs.exponent rhs.exponent := by positivity
  have hcoe : ∀ x y : ℚ, ((x : WithTop ℚ) : WithBot (WithTop ℚ)) < ((y : WithTop ℚ) : WithBot (WithTop ℚ)) ↔ x < y :=
    fun x y => by rw [WithBot.coe_lt_coe, WithTop.coe_lt_coe]
  simp only [cmp, cmpUsing, extended, hcoe, lhs.toRat_eq (min_le_left _ rhs.exponent),
    rhs.toRat_eq (min_le_right lhs.exponent _), mul_lt_mul_iff_left₀ hpos, Int.cast_lt]

theorem shows_compareTo {a b : Decimal} (ha : a ≠ nan) (hb : b ≠ nan) :
    Shows (compareTo a b) (cmp a.extended b.extended) ∨ a = b ∧ compareTo a b = nan := by
  rw [compareTo_eq]
  cases a with
  | nan => exact absurd rfl ha
  | finite lhs =>
    cases b with
    | nan => exact absurd rfl hb
    | finite rhs =>
      left
      rw [← cmp_toRat]
      exact shows_subAligned (alignOperands_spec lhs rhs) lhs.sign rhs.sign
    | infinity t =>
      left
      cases t with
      | positive =>
        rw [(cmp_eq_lt_iff _ _).mpr (extended_lt_infinity lhs)]
        exact shows_one .negative
      | negative =>
        rw [(cmp_eq_gt_iff _ _).mpr (infinity_lt_extended lhs)]
        exact shows_one .positive
  | infinity s =>
    cases b with
    | nan => exact absurd rfl hb
    | finite rhs =>
      left
      cases s with
      | positive =>
        rw [(cmp_eq_gt_iff _ _).mpr (extended_lt_infinity rhs)]
        exact shows_one .positive
      | negative =>
        rw [(cmp_eq_lt_iff _ _).mpr (infinity_lt_extended rhs)]
        exact shows_one .negative
    | infinity t =>
      cases s <;> cases t
      · exact .inr ⟨rfl, rfl⟩
      · left
        rw [(cmp_eq_gt_iff _ _).mpr infinity_lt_infinity]
        exact shows_one .positive
      · left
        rw [(cmp_eq_lt_iff _ _).mpr infinity_lt_infinity]
        exact shows_one .negative
      · exact .inr ⟨rfl, rfl⟩

section Operators

variable {a b : Decimal} (ha : a ≠ nan) (hb : b ≠ nan)

include ha hb

theorem lt_iff : lt a b = true ↔ a.extended < b.extended := by
  rcases shows_compareTo ha hb with ⟨hnan, hzero, hsign⟩ | ⟨rfl, hnan⟩
  · rw [← cmp_eq_lt_iff]
    simp only [lt, hnan, isNegative]
    generalize cmp a.extended b.extended = o at hzero hsign
    cases o <;> simp_all
  · simp [lt, hnan, isNaN]

theorem gt_iff : gt a b = true ↔ b.extended < a.extended := by
  rcases shows_compareTo ha hb with ⟨hnan, hzero, hsign⟩ | ⟨rfl, hnan⟩
  · rw [← cmp_eq_gt_iff]
    simp only [gt, hnan, isPositive]
    generalize cmp a.extended b.extended = o at hzero hsign
    cases o <;> simp_all
  · simp [gt, hnan, isNaN]

theorem eq_iff : eq a b = true ↔ a.extended = b.extended := by
  by_cases hab : a = b
  · simp [eq, hab]
  · rcases shows_compareTo ha hb with ⟨-, hzero, -⟩ | ⟨h, -⟩
    · rw [cmp_eq_eq_iff] at hzero
      simp [eq, hab, hzero]
    · exact absurd h hab

theorem ne_iff : ne a b = true ↔ a.extended ≠ b.extended := by
  by_cases hab : a = b
  · simp [ne, hab]
  · rcases shows_compareTo ha hb with ⟨hnan, hzero, -⟩ | ⟨h, -⟩
    · rw [cmp_eq_eq_iff] at hzero
      simp [ne, hab, hnan, ← hzero]
    · exact absurd h hab

theorem le_iff : le a b = true ↔ a.extended ≤ b.extended := by
  by_cases hab : a = b
  · simp [le, hab]
  · rcases shows_compareTo ha hb with ⟨hnan, hzero, hsign⟩ | ⟨h, -⟩
    · rw [← not_lt, ← cmp_eq_gt_iff]
      simp only [le, hab, hnan, isNegative]
      generalize cmp a.extended b.extended = o at hzero hsign
      cases o <;> simp_all
    · exact absurd h hab

theorem ge_iff : ge a b = true ↔ b.extended ≤ a.extended := by
  by_cases hab : a = b
  · simp [ge, hab]
  · rcases shows_compareTo ha hb with ⟨hnan, hzero, hsign⟩ | ⟨h, -⟩
    · rw [← not_lt, ← cmp_eq_lt_iff]
      simp only [ge, hab, hnan, isNegative]
      generalize cmp a.extended b.extended = o at hzero hsign
      cases o <;> simp_all
    · exact absurd h hab

end Operators

/-- **The operators decide the order of the exact values**, so that `<` is a strict weak order. -/
theorem comparisons_exact {a b c : Decimal} (ha : a ≠ nan) (hb : b ≠ nan) (hc : c ≠ nan) :
    (lt a b = true ↔ a.extended < b.extended) ∧ (le a b = true ↔ a.extended ≤ b.extended) ∧
    (eq a b = true ↔ a.extended = b.extended) ∧ (ne a b = true ↔ a.extended ≠ b.extended) ∧
    (ge a b = true ↔ b.extended ≤ a.extended) ∧ (gt a b = true ↔ b.extended < a.extended) ∧
    lt a a = false ∧ (lt a b = true → lt b c = true → lt a c = true) ∧
    (lt a c = true → lt a b = true ∨ lt b c = true) := by
  refine ⟨lt_iff ha hb, le_iff ha hb, eq_iff ha hb, ne_iff ha hb, ge_iff ha hb, gt_iff ha hb, ?_, ?_, ?_⟩
  · rw [← Bool.not_eq_true, lt_iff ha ha]
    exact lt_irrefl _
  · rw [lt_iff ha hb, lt_iff hb hc, lt_iff ha hc]
    exact lt_trans
  · rw [lt_iff ha hb, lt_iff hb hc, lt_iff ha hc]
    intro h
    exact (lt_or_ge a.extended b.extended).imp_right fun hle => lt_of_le_of_lt hle h

theorem comparisons_exact_infinity : lt (infinity .negative) (zero .positive) = true ∧
      (lt (infinity .negative) (zero .positive) = true ↔ extended (infinity .negative) < extended (zero .positive)) :=
  ⟨by decide +kernel,
    (comparisons_exact (a := infinity .negative) (b := zero .positive) (c := zero .positive) (by decide)
      (by decide) (by decide)).1⟩

end Decimal

end WebV8
