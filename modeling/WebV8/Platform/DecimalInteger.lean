import WebV8.Platform.DecimalMultiply

/-! # Rounding Decimals to integers

`floor` and `ceiling` keep one digit to the right of the point and look only at that digit to decide
whether to round away from zero. Digits further right are lost, and a zero with a negative exponent has
no digits at all. Toward zero the rounding is right for every number, and `remainder` only rounds toward
zero.
-/

namespace WebV8

open DecimalPrivate Int Nat

variable (s : Sign)

namespace Decimal

/-! ## Magnitudes -/

/-- The exact rounding of `n / m` up. -/
def divUp (n m : Nat) : Nat := n / m + if n % m = 0 then 0 else 1

theorem floor_neg_div (n : Nat) {m : Nat} (hm : 0 < m) : ⌊-((n : ℚ) / m)⌋ = -(divUp n m : ℤ) := by
  have hmq : (0 : ℚ) < m := by exact_mod_cast hm
  have hdiv := div_add_mod n m
  have hlt := mod_lt n hm
  rw [Int.floor_eq_iff, divUp]
  generalize n / m = q at *
  generalize n % m = r at *
  subst hdiv
  have hq : ((m * q + r : Nat) : ℚ) / m = q + r / m := by
    push_cast
    field_simp
  have h1 : (r : ℚ) / m < 1 := (div_lt_one hmq).mpr (by exact_mod_cast hlt)
  rw [hq]
  split
  next h =>
    rw [h]
    push_cast
    constructor <;> simp
  next h =>
    have h0 : (0 : ℚ) < (r : ℚ) / m := by positivity
    push_cast
    constructor <;> linarith

theorem floor_signed (n : Nat) {m : Nat} (hm : 0 < m) :
    ⌊(s.toInt : ℚ) * ((n : ℚ) / m)⌋ = s.toInt * (if s = .negative then divUp n m else n / m : Nat) := by
  cases s with
  | positive =>
    have := Rat.floor_intCast_div_natCast n m
    simpa [Sign.toInt] using this
  | negative => simpa [Sign.toInt] using floor_neg_div n hm

theorem ceil_signed (n : Nat) {m : Nat} (hm : 0 < m) :
    ⌈(s.toInt : ℚ) * ((n : ℚ) / m)⌉ = s.toInt * (if s = .positive then divUp n m else n / m : Nat) := by
  have hneg : (s.toInt : ℚ) * ((n : ℚ) / m) = -((invertSign s).toInt * ((n : ℚ) / m)) := by
    cases s <;> simp [invertSign, Sign.toInt]
  rw [hneg, ceil_neg, floor_signed _ _ hm]
  cases s <;> simp [invertSign, Sign.toInt]

def truncate (x : ℚ) : ℤ := if x < 0 then ⌈x⌉ else ⌊x⌋

theorem truncate_signed (n : Nat) {m : Nat} (hm : 0 < m) :
    truncate ((s.toInt : ℚ) * ((n : ℚ) / m)) = s.toInt * (n / m : Nat) := by
  have hnn : (0 : ℚ) ≤ (n : ℚ) / m := by positivity
  cases s with
  | positive =>
    rw [truncate, if_neg (by simp [Sign.toInt]; exact hnn), floor_signed _ _ hm]
    rfl
  | negative =>
    rw [truncate]
    split
    next => exact ceil_signed _ _ hm
    next h =>
      have hzero : (n : ℚ) / m = 0 := by
        simp only [Sign.toInt, Int.cast_neg, Int.cast_one, neg_mul, one_mul, not_lt] at h
        linarith
      have hn : n = 0 := by
        rcases div_eq_zero_iff.mp hzero with h | h
        · exact_mod_cast h
        · have : m = 0 := by exact_mod_cast h
          omega
      rw [hzero, hn]
      simp

theorem abs_sub_truncate_lt (x : ℚ) : |x - truncate x| < 1 := by
  rw [truncate, abs_lt]
  split
  · have := ceil_lt_add_one x
    have := Int.le_ceil x
    constructor <;> linarith
  · have := floor_le x
    have := Int.lt_floor_add_one x
    constructor <;> linarith

/-! ## One number -/

variable (d : Finite) {k : Nat}

theorem Finite.toRat_of_neg (hk : d.exponent = -(k : ℤ)) :
    d.toRat = (d.sign.toInt : ℚ) * ((d.coefficient : ℚ) / ((10 ^ k : Nat) : ℚ)) := by
  rw [Finite.toRat, hk, zpow_neg, zpow_natCast]
  push_cast
  ring

theorem Finite.toRat_of_nonneg (hk : d.exponent = k) :
    d.toRat = ((d.sign.toInt * (d.coefficient * 10 ^ k : Nat) : Int) : ℚ) := by
  rw [Finite.toRat, hk, zpow_natCast]
  push_cast
  ring

theorem ofParts_integer {n : Nat} (hn : n ≤ maxCoefficient) :
    ∃ r, ofParts s 0 n = finite r ∧ r.exponent = 0 ∧ r.toRat = s.toInt * n := by
  refine ⟨_, ofParts_of_le (by decide) hn, rfl, ?_⟩
  simp [Finite.toRat]

/-- The magnitude that comes out when a number of the sign `away` is rounded away from zero. -/
def awayMagnitude (c k : Nat) : Nat :=
  if countDigits c < k + 1 then 1 else c / 10 ^ (k + 1) + if 0 < c / 10 ^ k % 10 then 1 else 0

theorem roundToInteger_spec (away : Sign) (d : Finite) (hk : d.exponent = -((k + 1 : Nat) : ℤ)) :
    ∃ r, roundToInteger away d (if d.sign = away then one away else zero .positive) = finite r ∧ r.exponent = 0 ∧
      r.toRat = d.sign.toInt *
        (if d.sign = away then awayMagnitude d.coefficient k else d.coefficient / 10 ^ (k + 1) : Nat) := by
  have hdrop : (-d.exponent).toNat = k + 1 := by omega
  have hsma : d.coefficient / 10 ^ (k + 1) + 1 ≤ maxCoefficient := by
    have hlt := lt_of_le_maxCoefficient d.coefficient_le
    have hle : d.coefficient / 10 ^ (k + 1) ≤ d.coefficient / 10 :=
      div_le_div_left (le_self_pow (by omega) 10) (by decide)
    rw [maxCoefficient_eq]
    omega
  rw [roundToInteger, hdrop]
  by_cases hdigi : countDigits d.coefficient < k + 1
  · rw [if_pos hdigi, awayMagnitude, if_pos hdigi]
    by_cases haway : d.sign = away
    · rw [if_pos haway, if_pos haway, haway]
      exact ofParts_integer away (by decide)
    · rw [if_neg haway, if_neg haway]
      have hlt : d.coefficient < 10 ^ (k + 1) := (lt_pow_countDigits d.coefficient_le).trans_le
        (Nat.pow_le_pow_right (by decide) hdigi.le)
      refine ⟨_, rfl, rfl, ?_⟩
      rw [div_eq_of_lt hlt]
      simp [Finite.toRat]
  · have hten : d.coefficient / 10 ^ k / 10 = d.coefficient / 10 ^ (k + 1) := by
      rw [Nat.div_div_eq_div_mul, pow_succ]
    rw [if_neg hdigi, Nat.add_sub_cancel, scaleDown_eq]
    by_cases haway : d.sign = away
    · rw [if_pos haway, awayMagnitude, if_neg hdigi]
      by_cases hdig : 0 < d.coefficient / 10 ^ k % 10
      · rw [if_pos hdig]
        simp only [if_pos (And.intro haway hdig)]
        rw [add_div_right _ (by decide), hten]
        exact ofParts_integer d.sign hsma
      · rw [if_neg hdig]
        simp only [if_neg (fun h : d.sign = away ∧ _ => hdig h.2)]
        rw [hten]
        exact ofParts_integer d.sign (by omega)
    · rw [if_neg haway]
      simp only [if_neg (fun h : d.sign = away ∧ _ => haway h.1)]
      rw [hten]
      exact ofParts_integer d.sign (by omega)

/-- The number is a zero with digits right of the point, or the digit right of the point is zero and one
    further right is not. -/
def LosesFraction : Prop :=
  d.exponent < 0 ∧ (d.coefficient = 0 ∨
    (-d.exponent).toNat ≤ countDigits d.coefficient ∧
      d.coefficient / 10 ^ ((-d.exponent).toNat - 1) % 10 = 0 ∧
      d.coefficient % 10 ^ ((-d.exponent).toNat - 1) ≠ 0)

theorem awayMagnitude_eq_divUp_iff (hk : d.exponent = -((k + 1 : Nat) : ℤ)) :
    awayMagnitude d.coefficient k = divUp d.coefficient (10 ^ (k + 1)) ↔ ¬LosesFraction d := by
  have hdrop : (-d.exponent).toNat = k + 1 := by omega
  rw [LosesFraction, hdrop, Nat.add_sub_cancel, awayMagnitude, divUp]
  by_cases hdigi : countDigits d.coefficient < k + 1
  · have hlt : d.coefficient < 10 ^ (k + 1) := (lt_pow_countDigits d.coefficient_le).trans_le
      (Nat.pow_le_pow_right (by decide) hdigi.le)
    rw [if_pos hdigi, div_eq_of_lt hlt, mod_eq_of_lt hlt]
    split <;> omega
  · have hspl : d.coefficient % 10 ^ (k + 1) =
        d.coefficient % 10 ^ k + 10 ^ k * (d.coefficient / 10 ^ k % 10) := by
      rw [pow_succ, mod_mul]
    have hzero : d.coefficient % 10 ^ (k + 1) = 0 ↔
        d.coefficient % 10 ^ k = 0 ∧ d.coefficient / 10 ^ k % 10 = 0 := by
      rw [hspl, Nat.add_eq_zero_iff, mul_eq_zero]
      have hpow : 10 ^ k ≠ 0 := by positivity
      tauto
    have hne : d.coefficient ≠ 0 := by
      intro h
      rw [(countDigits_eq_zero_iff d.coefficient_le).mpr h] at hdigi
      omega
    rw [if_neg hdigi]
    by_cases hdig : d.coefficient / 10 ^ k % 10 = 0
    · by_cases hlow : d.coefficient % 10 ^ k = 0
      · rw [if_neg (by omega), if_pos (hzero.mpr ⟨hlow, hdig⟩)]
        simp [hne, hlow]
      · rw [if_neg (by omega), if_neg (fun h => hlow (hzero.mp h).1)]
        simp [hdig, hlow]
        omega
    · rw [if_pos (by omega), if_neg (fun h => hdig (hzero.mp h).2)]
      simp [hne, hdig]

theorem sign_mul_inj {x y : Nat} : (s.toInt : ℚ) * x = ((s.toInt * y : ℤ) : ℚ) ↔ x = y := by
  cases s <;> simp [Sign.toInt]

theorem floor_eq (hd : d.exponent < 0) : floor (finite d) =
      roundToInteger .negative d (if d.sign = .negative then one .negative else zero .positive) := by
  rw [floor, if_neg (by omega)]
  cases d.sign <;> rfl

theorem ceiling_eq (hd : d.exponent < 0) : ceiling (finite d) =
      roundToInteger .positive d (if d.sign = .positive then one .positive else zero .positive) := by
  rw [ceiling, if_neg (by omega)]

/-- One statement for both: a function `f` that rounds numbers with the sign `away` away from zero, and what
    it should be, `g`. -/
theorem rounds_iff {away : Sign} {f : Decimal → Decimal} {g : ℚ → ℤ}
    (hnon : ∀ d : Finite, 0 ≤ d.exponent → f (finite d) = finite d) (hneg : ∀ d : Finite, d.exponent < 0 →
      f (finite d) = roundToInteger away d (if d.sign = away then one away else zero .positive))
    (hint : ∀ n : ℤ, g n = n) (hg : ∀ (s : Sign) (n : Nat) {m : Nat}, 0 < m →
      g ((s.toInt : ℚ) * ((n : ℚ) / m)) = s.toInt * (if s = away then divUp n m else n / m : Nat)) (d : Finite) :
    (∃ r, f (finite d) = finite r ∧ r.toRat = g d.toRat) ↔ ¬(d.sign = away ∧ LosesFraction d) := by
  rcases le_or_gt 0 d.exponent with hexp | hexp
  · obtain ⟨k, hk⟩ := eq_ofNat_of_zero_le hexp
    refine iff_of_true ⟨d, hnon d hexp, ?_⟩ fun h => absurd h.2.1 (by omega)
    rw [d.toRat_of_nonneg hk, hint]
  · obtain ⟨k, hk⟩ : ∃ k : Nat, d.exponent = -((k + 1 : Nat) : ℤ) := ⟨(-d.exponent).toNat - 1, by omega⟩
    obtain ⟨r, hr, -, hval⟩ := roundToInteger_spec away d hk
    have hiff : (∃ r, f (finite d) = finite r ∧ r.toRat = g d.toRat) ↔ r.toRat = g d.toRat := by
      rw [hneg d hexp, hr]
      constructor
      · rintro ⟨r', hr', h⟩
        cases hr'
        exact h
      · exact fun h => ⟨r, rfl, h⟩
    rw [hiff, hval, d.toRat_of_neg hk, hg _ _ (by positivity), sign_mul_inj]
    by_cases haway : d.sign = away
    · rw [if_pos haway, if_pos haway, awayMagnitude_eq_divUp_iff d hk]
      simp [haway]
    · rw [if_neg haway, if_neg haway]
      simp [haway]

theorem integerPart_spec (q : Finite) :
    ∃ t, (if (finite q).isNegative then ceiling (finite q) else floor (finite q)) = finite t ∧
      t.toRat = truncate q.toRat := by
  rcases le_or_gt 0 q.exponent with hexp | hexp
  · obtain ⟨k, hk⟩ := eq_ofNat_of_zero_le hexp
    refine ⟨q, ?_, ?_⟩
    · rw [ceiling, floor, if_pos hexp, if_pos hexp]
      exact ite_self _
    · rw [q.toRat_of_nonneg hk, truncate, Int.ceil_intCast, Int.floor_intCast, ite_self]
  · obtain ⟨k, hk⟩ : ∃ k : Nat, q.exponent = -((k + 1 : Nat) : ℤ) := ⟨(-q.exponent).toNat - 1, by omega⟩
    rw [ceiling_eq q hexp, floor_eq q hexp, q.toRat_of_neg hk, truncate_signed _ _ (by positivity)]
    cases hs : q.sign with
    | positive =>
      obtain ⟨r, hr, -, hval⟩ := roundToInteger_spec .negative q hk
      refine ⟨r, ?_, ?_⟩
      · rw [if_neg (by simp [isNegative, sign, hs]), ← hr, hs]
      · rw [hval, hs, if_neg (by decide)]
        push_cast
        rfl
    | negative =>
      obtain ⟨r, hr, -, hval⟩ := roundToInteger_spec .positive q hk
      refine ⟨r, ?_, ?_⟩
      · rw [if_pos (by simp [isNegative, sign, hs]), ← hr, hs]
      · rw [hval, hs, if_neg (by decide)]
        push_cast
        rfl

/-! ## Differences that are not rounded -/

theorem Aligns.of_fits {e e' : Int} {large small l r : Nat} (h : Aligns large small e l r e') (hfit : large < 10 ^ 18) :
    l = large ∧ r = small ∧ e' = e := by
  obtain ⟨k, rfl, rfl, rfl, -, -, hfull, -⟩ := h
  rcases hfull with rfl | hfull
  · simp
  · have hk : k = 0 := by
      by_contra hk
      have hten : 10 ≤ 10 ^ k := le_self_pow hk 10
      have := mul_le_mul hfull hten
      omega
    simp [hk]

theorem alignOperands_of_fits {a p : Finite} {e : Int} (he : e = min a.exponent p.exponent)
    (ha : a.scaled e < 10 ^ 18) (hp : p.scaled e < 10 ^ 18) : alignOperands a p = ⟨a.scaled e, p.scaled e, e⟩ := by
  rcases alignOperands_aligns a p he with h | h
  · obtain ⟨hl, hr, hexp⟩ := h.of_fits ha
    rw [← hl, ← hr, ← hexp]
  · obtain ⟨hr, hl, hexp⟩ := h.of_fits hp
    rw [← hl, ← hr, ← hexp]

theorem abs_signed (n : Nat) (e : Int) : |(s.toInt : ℚ) * n * (10 : ℚ) ^ e| = n * (10 : ℚ) ^ e := by
  have hs : |((s.toInt : ℤ) : ℚ)| = 1 := by cases s <;> simp [Sign.toInt]
  rw [abs_mul, abs_mul, hs, one_mul, abs_cast, abs_of_pos (by positivity)]

theorem ofParts_of_lt {e : Int} {n : Nat} (he : exponentMin ≤ e ∧ e ≤ exponentMax)
    (hn : (n : ℚ) * (10 : ℚ) ^ e < (10 : ℚ) ^ (1040 : ℤ)) :
    ∃ r, ofParts s e n = finite r ∧ |r.toRat| ≤ (n : ℚ) * (10 : ℚ) ^ e := by
  obtain ⟨t, hnorm, hlar⟩ := normalizeCoefficient_eq e n
  have hle : n / 10 ^ t * 10 ^ t ≤ n := div_mul_le_self _ _
  have hleq : ((n / 10 ^ t : Nat) : ℚ) * (10 : ℚ) ^ (e + t) ≤ (n : ℚ) * (10 : ℚ) ^ e := by
    rw [add_comm e, zpow_add₀ (by norm_num), zpow_natCast, ← mul_assoc]
    exact mul_le_mul_of_nonneg_right (by exact_mod_cast hle) (by positivity)
  have hmax : e + t ≤ exponentMax := by
    by_contra hgt
    rw [exponentMax] at hgt he
    have hbig : 10 ^ 16 ≤ n / 10 ^ t := hlar.resolve_left (by omega)
    have h16 : (10 : ℚ) ^ (16 : ℤ) ≤ ((n / 10 ^ t : Nat) : ℚ) := by exact_mod_cast hbig
    have h1024 : (10 : ℚ) ^ (1024 : ℤ) ≤ (10 : ℚ) ^ (e + t) := zpow_le_zpow_right₀ (by norm_num) (by omega)
    have hprod : (10 : ℚ) ^ (16 : ℤ) * (10 : ℚ) ^ (1024 : ℤ) ≤ ((n / 10 ^ t : Nat) : ℚ) * (10 : ℚ) ^ (e + t) :=
      mul_le_mul h16 h1024 (by positivity) (by positivity)
    rw [← zpow_add₀ (by norm_num)] at hprod
    exact absurd (hprod.trans hleq) (not_le.mpr hn)
  rw [ofParts, dif_pos he]
  simp only [hnorm, dif_pos hmax]
  refine ⟨_, rfl, ?_⟩
  rw [Finite.toRat, abs_signed]
  exact hleq

theorem Finite.abs_toRat_lt : |d.toRat| < (10 : ℚ) ^ (1040 : ℤ) := by
  have hc : (d.coefficient : ℚ) < (10 : ℚ) ^ (17 : ℤ) := by
    exact_mod_cast lt_of_le_maxCoefficient d.coefficient_le
  have he : (10 : ℚ) ^ d.exponent ≤ (10 : ℚ) ^ (1023 : ℤ) := zpow_le_zpow_right₀ (by norm_num) d.le_exponentMax
  rw [Finite.toRat, abs_signed]
  calc (d.coefficient : ℚ) * (10 : ℚ) ^ d.exponent
      < (10 : ℚ) ^ (17 : ℤ) * (10 : ℚ) ^ d.exponent := mul_lt_mul_of_pos_right hc (by positivity)
    _ ≤ (10 : ℚ) ^ (17 : ℤ) * (10 : ℚ) ^ (1023 : ℤ) := mul_le_mul_of_nonneg_left he (by positivity)
    _ = (10 : ℚ) ^ (1040 : ℤ) := by rw [← zpow_add₀ (by norm_num)]; norm_num

/-! ## The remainder -/

theorem div_fuel {fuel fuel' : Nat} {a b : Finite} {q : Decimal} (hle : fuel ≤ fuel')
    (h : div fuel (finite a) (finite b) = some q) : div fuel' (finite a) (finite b) = some q := by
  rw [div] at h ⊢
  split at h
  next hb => rw [if_pos hb, h]
  next hb =>
    rw [if_neg hb]
    split at h
    next ha => rw [if_pos ha, h]
    next ha =>
      rw [if_neg ha]
      rw [divFinite] at h ⊢
      cases hloop : divideLoop (· % 2 ^ 64) b.coefficient fuel ⟨a.coefficient, 0, a.exponent - b.exponent⟩ with
      | none =>
        rw [hloop] at h
        cases h
      | some s =>
        rw [hloop] at h
        rw [divideLoop_fuel hle hloop]
        exact h

/-- The product of `t` and `b` is not rounded, and neither number loses digits when the product is
    subtracted from `a`. -/
structure SubtractsExactly (a t b : Finite) : Prop where
  coefficient : t.coefficient * b.coefficient ≤ maxCoefficient
  exponent_ge : exponentMin ≤ t.exponent + b.exponent
  exponent_le : t.exponent + b.exponent ≤ exponentMax
  lhs : a.scaled (min a.exponent (t.exponent + b.exponent)) < 10 ^ 18
  rhs : t.coefficient * b.coefficient *
    10 ^ (t.exponent + b.exponent - min a.exponent (t.exponent + b.exponent)).toNat < 10 ^ 18

theorem sub_mul_of_exact {a t b : Finite} (h : SubtractsExactly a t b) :
    ∃ (s : Sign) (e : Int) (n : Nat), exponentMin ≤ e ∧ e ≤ exponentMax ∧
      sub (finite a) (mul (finite t) (finite b)) = ofParts s e n ∧
      (s.toInt : ℚ) * n * (10 : ℚ) ^ e = a.toRat - t.toRat * b.toRat := by
  obtain ⟨hc, hmin, hmax, hl, hr⟩ := h
  obtain ⟨p, hmul, hsign, hexp, hcoe⟩ := mul_eq_of_fits t b hc ⟨hmin, hmax⟩
  rw [← hexp] at hl hr
  rw [← hcoe] at hr
  have hpr : p.toRat = t.toRat * b.toRat := by
    rw [Finite.toRat, Finite.toRat, Finite.toRat, hsign, hexp, hcoe, productSign_toInt, zpow_add₀ (by norm_num)]
    push_cast
    ring
  obtain ⟨u, n, hsub, hval⟩ := subAligned_eq a.sign p.sign (min a.exponent p.exponent) hl hr
  refine ⟨u, min a.exponent p.exponent, n, le_min a.exponentMin_le p.exponentMin_le,
    (min_le_left _ _).trans a.le_exponentMax, ?_, ?_⟩
  · rw [hmul, sub, alignOperands_of_fits rfl hl hr]
    exact hsub
  · rw [← hpr, a.toRat_eq (min_le_left a.exponent p.exponent), p.toRat_eq (min_le_right a.exponent p.exponent),
      ← sub_mul, ← Int.cast_sub]
    congr 1
    rw [Finite.scaled, Finite.scaled] at *
    exact_mod_cast hval

end Decimal

end WebV8
