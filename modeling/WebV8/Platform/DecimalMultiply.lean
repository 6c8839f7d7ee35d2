import WebV8.Platform.DecimalDivide

/-! # Products of Decimals

`operator*` multiplies the coefficients in 128 bits, drops digits until the product fits into a word, and
leaves the rest to the constructor. All the truncations together are one division by a power of ten. The
bound is `MaxCoefficient`, which has 17 digits; products of 18 digits, which the comment on the constant
allows, lose one.
-/

namespace WebV8

namespace DecimalPrivate

theorem eq_digits {x : Nat} (hx : x < 2 ^ 64) :
    x = UInt128.lowUInt32 x + 2 ^ 32 * UInt128.highUInt32 x ∧ UInt128.lowUInt32 x < 2 ^ 32 ∧
      UInt128.highUInt32 x < 2 ^ 32 := by
  unfold UInt128.lowUInt32 UInt128.highUInt32
  omega

theorem multiplyHigh_eq {u v : Nat} (hu : u < 2 ^ 64) (hv : v < 2 ^ 64) :
    UInt128.multiplyHigh u v = u * v / 2 ^ 64 := by
  have hlt := Nat.mul_lt_mul'' hu hv
  obtain ⟨heu, ha, hb⟩ := eq_digits hu
  obtain ⟨hev, hc, hd⟩ := eq_digits hv
  rw [UInt128.multiplyHigh]
  generalize UInt128.lowUInt32 u = a at *
  generalize UInt128.highUInt32 u = b at *
  generalize UInt128.lowUInt32 v = c at *
  generalize UInt128.highUInt32 v = d at *
  have hbd {x y : Nat} (hx : x < 2 ^ 32) (hy : y < 2 ^ 32) : x * y ≤ (2 ^ 32 - 1) * (2 ^ 32 - 1) :=
    Nat.mul_le_mul (by omega) (by omega)
  have hac := hbd ha hc
  have had := hbd ha hd
  have hbc := hbd hb hc
  have hprod : u * v = a * c + 2 ^ 32 * (b * c) + 2 ^ 32 * (a * d) + 2 ^ 64 * (b * d) := by
    rw [heu, hev]
    ring
  rw [hprod] at hlt ⊢
  simp only [UInt128.highUInt32, UInt128.lowUInt32]
  generalize a * c = ac at *
  generalize a * d = ad at *
  generalize b * c = bc at *
  generalize b * d = bd at *
  -- none of the four sums wraps
  have hx : ac / 2 ^ 32 % 2 ^ 32 = ac / 2 ^ 32 := Nat.mod_eq_of_lt (by omega)
  have hy : (bc + ac / 2 ^ 32) % 2 ^ 64 = bc + ac / 2 ^ 32 := Nat.mod_eq_of_lt (by omega)
  have hy' : (bc + ac / 2 ^ 32) / 2 ^ 32 % 2 ^ 32 = (bc + ac / 2 ^ 32) / 2 ^ 32 := Nat.mod_eq_of_lt (by omega)
  have hz : (ad + (bc + ac / 2 ^ 32) % 2 ^ 32) % 2 ^ 64 = ad + (bc + ac / 2 ^ 32) % 2 ^ 32 :=
    Nat.mod_eq_of_lt (by omega)
  have hz' : (ad + (bc + ac / 2 ^ 32) % 2 ^ 32) / 2 ^ 32 % 2 ^ 32 =
      (ad + (bc + ac / 2 ^ 32) % 2 ^ 32) / 2 ^ 32 := Nat.mod_eq_of_lt (by omega)
  have hsum : bd + (bc + ac / 2 ^ 32) / 2 ^ 32 + (ad + (bc + ac / 2 ^ 32) % 2 ^ 32) / 2 ^ 32 =
      (ac + 2 ^ 32 * bc + 2 ^ 32 * ad + 2 ^ 64 * bd) / 2 ^ 64 := by omega
  rw [hx, hy, hy', hz, hz', hsum]
  exact Nat.mod_eq_of_lt (Nat.div_lt_of_lt_mul hlt)

def UInt128.value (x : UInt128) : Nat := x.high * 2 ^ 64 + x.low

theorem multiply_spec {u v : Nat} (hu : u < 2 ^ 64) (hv : v < 2 ^ 64) :
    (UInt128.multiply u v).high < 2 ^ 64 ∧ (UInt128.multiply u v).low < 2 ^ 64 ∧
      (UInt128.multiply u v).value = u * v := by
  rw [UInt128.value, UInt128.multiply, multiplyHigh_eq hu hv]
  exact ⟨Nat.div_lt_of_lt_mul (Nat.mul_lt_mul'' hu hv), Nat.mod_lt _ (by decide), Nat.div_add_mod' _ _⟩

/-- Long division of the four 32-bit digits. -/
theorem divide_ten {x : UInt128} (hhigh : x.high < 2 ^ 64) (hlow : x.low < 2 ^ 64) :
    (x.divide 10).high < 2 ^ 64 ∧ (x.divide 10).low < 2 ^ 64 ∧ (x.divide 10).value = x.value / 10 := by
  by_cases hzero : x.high = 0
  · rw [UInt128.divide, if_pos hzero, UInt128.value, UInt128.value]
    dsimp only
    omega
  rw [UInt128.divide, if_neg hzero]
  obtain ⟨hh, -⟩ := eq_digits hhigh
  obtain ⟨hl, -⟩ := eq_digits hlow
  simp only [UInt128.makeUInt64, UInt128.value]
  generalize UInt128.lowUInt32 x.low = d0 at *
  generalize UInt128.highUInt32 x.low = d1 at *
  generalize UInt128.lowUInt32 x.high = d2 at *
  generalize UInt128.highUInt32 x.high = d3 at *
  omega

/-- The loop leaves at least 19 digits if it drops any. -/
theorem dropHigh_eq (fuel : Nat) (e : Int) {x : UInt128} (hhigh : x.high < 2 ^ 64)
    (hlow : x.low < 2 ^ 64) (hfuel : x.value < 2 ^ 64 * 10 ^ fuel) :
    ∃ k : Nat, dropHigh fuel e x = (e + k, x.value / 10 ^ k) ∧
      (k = 0 ∨ 10 ^ 18 ≤ x.value / 10 ^ k) := by
  induction fuel generalizing e x with
  | zero =>
    refine ⟨0, ?_, .inl rfl⟩
    rw [UInt128.value] at hfuel
    have hzero : x.high = 0 := by omega
    simp [dropHigh, UInt128.value, hzero]
  | succ fuel ih =>
    rw [dropHigh]
    split_ifs with hzero
    · exact ⟨0, by simp [UInt128.value, hzero], .inl rfl⟩
    · obtain ⟨hhigh', hlow', hval⟩ := divide_ten hhigh hlow
      obtain ⟨k, hdrop, hbig⟩ := ih (e + 1) hhigh' hlow' (by rw [hval]; omega)
      have hdiv : x.value / 10 ^ (k + 1) = x.value / 10 / 10 ^ k := by
        rw [Nat.div_div_eq_div_mul, ← Nat.pow_succ']
      refine ⟨k + 1, ?_, .inr ?_⟩
      · rw [hdrop, hval, hdiv, Nat.cast_succ, add_assoc, add_comm (1 : ℤ)]
      · rw [hdiv, ← hval]
        refine hbig.elim ?_ id
        rintro rfl
        rw [pow_zero, Nat.div_one, hval, UInt128.value]
        omega

end DecimalPrivate

open DecimalPrivate

namespace Decimal

theorem productSign_toInt (s t : Sign) : (productSign s t).toInt = s.toInt * t.toInt := by
  cases s <;> cases t <;> rfl

/-- The least number of digits to drop from `n`, for coefficients up to `bound`. -/
def IsDropped (bound n k : Nat) : Prop := IsLeast {k | n / 10 ^ k ≤ bound} k

theorem isDropped_of_large {n k : Nat} (hle : n / 10 ^ k ≤ maxCoefficient)
    (hbig : k = 0 ∨ 10 ^ 16 ≤ n / 10 ^ k) : IsDropped maxCoefficient n k := by
  refine ⟨hle, fun j hj => ?_⟩
  by_contra hlt
  have hmono : n / 10 ^ k ≤ n / 10 ^ (j + 1) :=
    Nat.div_le_div_left (Nat.pow_le_pow_right (by decide) (by omega)) (by positivity)
  rw [pow_succ, ← Nat.div_div_eq_div_mul] at hmono
  have hj' := lt_of_le_maxCoefficient hj
  omega

variable {a b : Finite} {n : Nat}

/-- **All truncations of a product are one.** -/
theorem mul_eq (hn : IsDropped maxCoefficient (a.coefficient * b.coefficient) n)
    (hmin : exponentMin ≤ a.exponent + b.exponent) (hmax : a.exponent + b.exponent + n ≤ exponentMax) :
    ∃ p, mul (finite a) (finite b) = finite p ∧ p.sign = productSign a.sign b.sign ∧
      p.exponent = a.exponent + b.exponent + n ∧
      p.coefficient = a.coefficient * b.coefficient / 10 ^ n := by
  have ha := lt_of_le_maxCoefficient a.coefficient_le
  have hb := lt_of_le_maxCoefficient b.coefficient_le
  obtain ⟨hhigh, hlow, hval⟩ :=
    multiply_spec (u := a.coefficient) (v := b.coefficient) (by omega) (by omega)
  have hlt := Nat.mul_lt_mul'' ha hb
  obtain ⟨k, hdrop, hk⟩ := dropHigh_eq 40 (a.exponent + b.exponent) hhigh hlow (by rw [hval]; omega)
  rw [mul, mulFinite, hdrop]
  rw [hval] at hk ⊢
  generalize a.coefficient * b.coefficient = c at *
  generalize a.exponent + b.exponent = e at *
  obtain ⟨t, hnorm, ht⟩ := normalizeCoefficient_eq (e + k) (c / 10 ^ k)
  have hle := normalizeCoefficient_snd_le (e + k) (c / 10 ^ k)
  have hdiv : c / 10 ^ k / 10 ^ t = c / 10 ^ (k + t) := by rw [Nat.div_div_eq_div_mul, ← pow_add]
  rw [hdiv] at hnorm ht
  rw [hnorm] at hle
  obtain rfl : n = k + t := by
    refine hn.unique (isDropped_of_large hle (ht.imp_left ?_))
    rintro rfl
    have hlt := lt_of_le_maxCoefficient hle
    rw [Nat.add_zero] at hlt ⊢
    exact hk.resolve_right (by omega)
  push_cast at hmax
  have he : exponentMin ≤ e + k ∧ e + k ≤ exponentMax := by omega
  have hmax' : e + k + t ≤ exponentMax := by omega
  simp only [ofParts, dif_pos he, hnorm, dif_pos hmax']
  exact ⟨_, rfl, rfl, by push_cast; omega, rfl⟩

theorem mul_eq_of_fits (a b : Finite) (hc : a.coefficient * b.coefficient ≤ maxCoefficient)
    (he : exponentMin ≤ a.exponent + b.exponent ∧ a.exponent + b.exponent ≤ exponentMax) :
    ∃ p, mul (finite a) (finite b) = finite p ∧ p.sign = productSign a.sign b.sign ∧
      p.exponent = a.exponent + b.exponent ∧ p.coefficient = a.coefficient * b.coefficient := by
  have hn : IsDropped maxCoefficient (a.coefficient * b.coefficient) 0 :=
    ⟨by simpa using hc, fun _ _ => Nat.zero_le _⟩
  simpa using mul_eq hn he.1 (by simpa using he.2)

/-- The product of `a` and `b` is truncated to coefficients up to `bound`, and is exact if it can be
    written with such a coefficient. -/
def TruncatesProduct (bound : Nat) (a b : Finite) : Prop :=
  ∀ n, IsDropped bound (a.coefficient * b.coefficient) n → exponentMin ≤ a.exponent + b.exponent →
    a.exponent + b.exponent + n ≤ exponentMax →
    ∃ p, mul (finite a) (finite b) = finite p ∧ p.sign = productSign a.sign b.sign ∧
      p.exponent = a.exponent + b.exponent + n ∧
      p.coefficient = a.coefficient * b.coefficient / 10 ^ n ∧
      ((∃ m ≤ bound, ∃ j, a.coefficient * b.coefficient = m * 10 ^ j) → p.toRat = a.toRat * b.toRat)

theorem truncatesProduct (a b : Finite) : TruncatesProduct maxCoefficient a b := by
  intro n hn hmin hmax
  obtain ⟨p, hmul, hsign, hexp, hcoe⟩ := mul_eq hn hmin hmax
  refine ⟨p, hmul, hsign, hexp, hcoe, ?_⟩
  rintro ⟨m, hm, j, hj⟩
  have hle : n ≤ j := by
    refine hn.2 (show _ / 10 ^ j ≤ _ from ?_)
    rwa [hj, Nat.mul_div_cancel _ (by positivity)]
  have hdvd : 10 ^ n ∣ a.coefficient * b.coefficient := hj ▸ (pow_dvd_pow 10 hle).mul_left m
  rw [Finite.toRat, Finite.toRat, Finite.toRat, hsign, hexp, hcoe, productSign_toInt,
    Nat.cast_div hdvd (by positivity), zpow_add₀ (by norm_num), zpow_add₀ (by norm_num), zpow_natCast]
  push_cast
  field_simp

/-- **Products of Decimals are truncated**, but to 17 digits: they are what the comment on
    `MaxCoefficient` promises exactly when the product of the coefficients has no more than these. -/
theorem mul_truncates_iff (a b : Finite) : TruncatesProduct maxCoefficient a b ∧
    (TruncatesProduct (10 ^ 18 - 1) a b ↔
      ∀ n, IsDropped (10 ^ 18 - 1) (a.coefficient * b.coefficient) n →
        exponentMin ≤ a.exponent + b.exponent → a.exponent + b.exponent + n ≤ exponentMax →
        a.coefficient * b.coefficient ≤ maxCoefficient) := by
  refine ⟨truncatesProduct a b, fun h n hn hmin hmax => ?_, fun h n hn hmin hmax => ?_⟩
  · obtain ⟨p, -, -, -, hcoe, -⟩ := h n hn hmin hmax
    have hle := p.coefficient_le
    rw [hcoe] at hle
    cases n with
    | zero => simpa using hle
    | succ n =>
      have hnot : ¬a.coefficient * b.coefficient / 10 ^ n ≤ 10 ^ 18 - 1 := fun hin => by
        have := hn.2 hin
        omega
      have hlt := lt_of_le_maxCoefficient hle
      rw [pow_succ, ← Nat.div_div_eq_div_mul] at hlt
      omega
  · have hc := h n hn hmin hmax
    obtain rfl : n = 0 := Nat.le_zero.mp (hn.2 (by simpa using hc.trans (by decide)))
    obtain ⟨p, hmul, hsign, hexp, hcoe, hexact⟩ :=
      truncatesProduct a b 0 ⟨by simpa using hc, fun _ _ => Nat.zero_le _⟩ hmin hmax
    exact ⟨p, hmul, hsign, hexp, hcoe, fun _ => hexact ⟨_, hc, 0, by simp⟩⟩

theorem exponentMin_le_zero : exponentMin ≤ 0 := by decide

theorem zero_le_exponentMax : 0 ≤ exponentMax := by decide

theorem threes_le_maxCoefficient : 333333333 ≤ maxCoefficient := by decide

/-- The number 333333333. -/
def threes : Finite := ⟨.positive, 0, 333333333, exponentMin_le_zero, zero_le_exponentMax, threes_le_maxCoefficient⟩

/-- Its square 111111110888888889 has 18 digits, and loses the last. -/
theorem square_loses_digit :
    (∃ p, mul (finite threes) (finite threes) = finite p ∧ p.coefficient = 11111111088888888 ∧
      p.exponent = 1) ∧ ¬TruncatesProduct (10 ^ 18 - 1) threes threes := by
  have hone : IsDropped maxCoefficient (threes.coefficient * threes.coefficient) 1 :=
    isDropped_of_large (by norm_num [threes, maxCoefficient]) (.inr (by norm_num [threes]))
  have hzero : IsDropped (10 ^ 18 - 1) (threes.coefficient * threes.coefficient) 0 :=
    ⟨by simp [threes], fun _ _ => Nat.zero_le _⟩
  refine ⟨?_, fun h => ?_⟩
  · obtain ⟨p, hmul, -, hexp, hcoe⟩ := mul_eq hone (by decide) (by decide)
    exact ⟨p, hmul, hcoe.trans (by norm_num [threes]), hexp⟩
  · obtain ⟨p, -, -, -, hcoe, -⟩ := h 0 hzero (by decide) (by decide)
    have hle := p.coefficient_le
    rw [hcoe] at hle
    norm_num [threes, maxCoefficient] at hle

end Decimal

end WebV8
