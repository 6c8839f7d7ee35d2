import WebV8.Platform.DecimalCompare

/-!
# Dividing decimals

The loop of `operator/` is a long division. Without the bound of 64 bits it computes the quotient and
the remainder of the dividend followed by some zeros (`exactDivision_spec`), and the result is as accurate
as one can expect. With that bound it computes the same as long as the exact result fits. But the inner
loop multiplies the result by ten until the divisor goes into the remainder, and how often that happens is
not bounded by the test of the outer loop.
-/

namespace WebV8

open Decimal Option

namespace DecimalPrivate

variable {divisor : Nat}

/-! ## The exact loop -/

/-- `k` zeros have been appended to the dividend on the way from `t` to `s`. -/
structure Continues (divisor : Nat) (t s : Division) (k : Nat) : Prop where
  value : s.result * divisor + s.remainder = (t.result * divisor + t.remainder) * 10 ^ k
  exponent : s.resultExponent = t.resultExponent - k

variable {s t : Division} {fuel : Nat}

theorem Continues.trans {r : Division} {j k : Nat} (h : Continues divisor r s j)
    (h' : Continues divisor s t k) : Continues divisor r t (j + k) where
  value := by rw [h'.value, h.value, pow_add, Nat.mul_assoc]
  exponent := by rw [h'.exponent, h.exponent]; omega

/-- The inner loop ends when the divisor goes into the remainder, which takes at most `m` steps. -/
theorem shiftDigits_exact {m : Nat} (hm : divisor ≤ t.remainder * 10 ^ m) (hfuel : m < fuel) :
    ∃ k ≤ m, shiftDigits id divisor fuel t = some ⟨t.remainder * 10 ^ k, t.result * 10 ^ k, t.resultExponent - k⟩ ∧
      divisor ≤ t.remainder * 10 ^ k ∧ (t.remainder < divisor → 0 < k) := by
  induction m generalizing fuel t with
  | zero =>
    obtain ⟨fuel, rfl⟩ := Nat.exists_eq_succ_of_ne_zero hfuel.ne'
    rw [Nat.pow_zero, Nat.mul_one] at hm
    refine ⟨0, le_rfl, ?_, by simpa using hm, fun h => absurd hm h.not_ge⟩
    rw [shiftDigits, if_neg hm.not_gt]
    simp
  | succ m ih =>
    obtain ⟨fuel, rfl⟩ := Nat.exists_eq_succ_of_ne_zero (Nat.zero_lt_of_lt hfuel).ne'
    rw [shiftDigits]
    by_cases hlt : t.remainder < divisor
    · have hm' : divisor ≤ t.remainder * 10 * 10 ^ m := by
        rw [Nat.mul_assoc, ← Nat.pow_succ']
        exact hm
      obtain ⟨k, hk, hshi, hle, -⟩ :=
        ih (t := ⟨t.remainder * 10, t.result * 10, t.resultExponent - 1⟩) hm' (show m < fuel by omega)
      refine ⟨k + 1, by omega, ?_, ?_, fun _ => Nat.succ_pos _⟩
      · rw [if_pos hlt]
        refine hshi.trans ?_
        simp only [Option.some.injEq, Division.mk.injEq]
        refine ⟨by ring, by ring, by push_cast; ring⟩
      · rw [Nat.pow_succ', ← Nat.mul_assoc]
        exact hle
    · refine ⟨0, Nat.zero_le _, ?_, by simpa using hlt, fun h => absurd h hlt⟩
      rw [if_neg hlt]
      simp

theorem divideLoop_succ (hpos : 0 < t.remainder) (hd : 0 < divisor)
    (hd' : divisor ≤ 10 ^ 17) (hfuel : 17 < fuel) (hres : t.result < maxCoefficient / 100) :
    ∃ s k, Continues divisor t s k ∧ s.remainder < divisor ∧ (t.remainder < divisor → 0 < k) ∧
      t.result * 10 ^ k < s.result ∧ divideLoop id divisor (fuel + 1) t =
        if s.remainder = 0 then some s else divideLoop id divisor fuel s := by
  have hm : divisor ≤ t.remainder * 10 ^ 17 := hd'.trans (Nat.le_mul_of_pos_left _ hpos)
  obtain ⟨k, -, hshi, hle, hk⟩ := shiftDigits_exact hm hfuel
  have hquot : 0 < t.remainder * 10 ^ k / divisor := Nat.div_pos hle hd
  refine ⟨⟨t.remainder * 10 ^ k % divisor, t.result * 10 ^ k + t.remainder * 10 ^ k / divisor,
    t.resultExponent - k⟩, k, ⟨?_, rfl⟩, Nat.mod_lt _ hd, hk, by simp only; omega, ?_⟩
  · have hdiv := Nat.div_add_mod (t.remainder * 10 ^ k) divisor
    simp only
    rw [Nat.add_mul, Nat.add_assoc, Nat.mul_comm (_ / divisor) divisor, hdiv]
    ring
  · rw [divideLoop, if_pos hres, hshi]
    rfl

/-- What the loop leaves: nothing is left over, or the result is large enough. -/
def Finished (divisor : Nat) (s : Division) : Prop :=
  s.remainder < divisor ∧ (s.remainder = 0 ∨ maxCoefficient / 100 ≤ s.result)

theorem divideLoop_exact_pos {n : Nat} (hpos : 0 < t.remainder)
    (hlt : t.remainder < divisor) (hd' : divisor ≤ 10 ^ 17) (hres : 10 ^ 15 ≤ t.result * 10 ^ n)
    (hfuel : n + 18 < fuel) :
    ∃ s k, divideLoop id divisor fuel t = some s ∧ Continues divisor t s k ∧ Finished divisor s := by
  induction n generalizing fuel t with
  | zero =>
    obtain ⟨fuel, rfl⟩ := Nat.exists_eq_succ_of_ne_zero (Nat.zero_lt_of_lt hfuel).ne'
    rw [Nat.pow_zero, Nat.mul_one] at hres
    have hend : ¬t.result < maxCoefficient / 100 := by
      rw [maxCoefficient_eq]
      omega
    refine ⟨t, 0, ?_, ⟨by simp, by simp⟩, hlt, .inr (by omega)⟩
    rw [divideLoop, if_neg hend]
  | succ n ih =>
    obtain ⟨fuel, rfl⟩ := Nat.exists_eq_succ_of_ne_zero (Nat.zero_lt_of_lt hfuel).ne'
    by_cases hend : t.result < maxCoefficient / 100
    · obtain ⟨s, k, hcont, hs, hk, hgrow, hstep⟩ :=
        divideLoop_succ hpos (Nat.zero_lt_of_lt hlt) hd' (show 17 < fuel by omega) hend
      rw [hstep]
      by_cases hzero : s.remainder = 0
      · exact ⟨s, k, by rw [if_pos hzero], hcont, hs, .inl hzero⟩
      · have hten : t.result * 10 ≤ t.result * 10 ^ k := Nat.mul_le_mul_left _ (Nat.le_self_pow (hk hlt).ne' 10)
        have hres' : 10 ^ 15 ≤ s.result * 10 ^ n := by
          calc 10 ^ 15 ≤ t.result * 10 ^ (n + 1) := hres
            _ = t.result * 10 * 10 ^ n := by ring
            _ ≤ s.result * 10 ^ n := Nat.mul_le_mul_right _ (by omega)
        obtain ⟨s', k', hloop, hcont', hfin⟩ := ih (Nat.pos_of_ne_zero hzero) hs hres' (show n + 18 < fuel by omega)
        exact ⟨s', k + k', by rw [if_neg hzero, hloop], hcont.trans hcont', hfin⟩
    · refine ⟨t, 0, ?_, ⟨by simp, by simp⟩, hlt, .inr (by omega)⟩
      rw [divideLoop, if_neg hend]

theorem divideLoop_exact (hpos : 0 < t.remainder) (hd : 0 < divisor)
    (hd' : divisor ≤ 10 ^ 17) (hres : t.result = 0) (hfuel : 40 ≤ fuel) :
    ∃ s k, divideLoop id divisor fuel t = some s ∧ Continues divisor t s k ∧ Finished divisor s := by
  obtain ⟨fuel, rfl⟩ := Nat.exists_eq_succ_of_ne_zero (by omega : fuel ≠ 0)
  obtain ⟨s, k, hcont, hs, -, hgrow, hstep⟩ :=
    divideLoop_succ (t := t) hpos hd hd' (by omega : 17 < fuel) (by rw [hres]; decide)
  rw [hstep]
  by_cases hzero : s.remainder = 0
  · exact ⟨s, k, by rw [if_pos hzero], hcont, hs, .inl hzero⟩
  · have hone : 10 ^ 15 ≤ s.result * 10 ^ 15 := Nat.le_mul_of_pos_left _ (by omega)
    obtain ⟨s', k', hloop, hcont', hfin⟩ :=
      divideLoop_exact_pos (Nat.pos_of_ne_zero hzero) hs hd' hone (by omega : 15 + 18 < fuel)
    exact ⟨s', k + k', by rw [if_neg hzero, hloop], hcont.trans hcont', hfin⟩

/-! ## Fuel -/

section Fuel

variable {wrap : Nat → Nat}

variable {fuel fuel' : Nat} {t s : Division}

theorem shiftDigits_fuel (hle : fuel ≤ fuel')
    (h : shiftDigits wrap divisor fuel t = some s) : shiftDigits wrap divisor fuel' t = some s := by
  induction fuel generalizing fuel' t with
  | zero => cases h
  | succ fuel ih =>
    obtain ⟨fuel', rfl⟩ := Nat.exists_eq_succ_of_ne_zero (by omega : fuel' ≠ 0)
    rw [shiftDigits] at h ⊢
    split at h
    next hlt =>
      rw [if_pos hlt]
      exact ih (by omega) h
    next hlt => rw [if_neg hlt, h]

theorem divideLoop_fuel (hle : fuel ≤ fuel')
    (h : divideLoop wrap divisor fuel t = some s) : divideLoop wrap divisor fuel' t = some s := by
  induction fuel generalizing fuel' t with
  | zero => cases h
  | succ fuel ih =>
    obtain ⟨fuel', rfl⟩ := Nat.exists_eq_succ_of_ne_zero (by omega : fuel' ≠ 0)
    rw [divideLoop] at h ⊢
    split at h
    next hlt =>
      rw [if_pos hlt]
      cases hshi : shiftDigits wrap divisor fuel t with
      | none =>
        rw [hshi] at h
        cases h
      | some u =>
        rw [hshi] at h
        rw [shiftDigits_fuel (by omega : fuel ≤ fuel') hshi]
        simp only [bind_eq_bind, bind_some] at h ⊢
        split at h
        next hzero => rw [if_pos hzero, h]
        next hzero =>
          rw [if_neg hzero]
          exact ih (by omega) h
    next hlt => rw [if_neg hlt, h]

end Fuel

/-! ## The loop on words -/

theorem shiftDigits_mono (h : shiftDigits id divisor fuel t = some s) : t.result ≤ s.result := by
  induction fuel generalizing t with
  | zero => cases h
  | succ fuel ih =>
    rw [shiftDigits] at h
    split at h
    · have := ih h
      simp only [id] at this
      omega
    · cases h
      exact le_rfl

theorem shiftDigits_words (hd : divisor ≤ 10 ^ 17)
    (h : shiftDigits id divisor fuel t = some s) (hs : s.result < 2 ^ 64) :
    shiftDigits (· % 2 ^ 64) divisor fuel t = some s := by
  induction fuel generalizing t with
  | zero => cases h
  | succ fuel ih =>
    rw [shiftDigits] at h ⊢
    split at h
    next hlt =>
      have hmono := shiftDigits_mono h
      simp only [id] at h hmono
      rw [if_pos hlt, Nat.mod_eq_of_lt (by omega), Nat.mod_eq_of_lt (by omega)]
      exact ih h
    next hlt => rw [if_neg hlt, h]

theorem divideLoop_mono (h : divideLoop id divisor fuel t = some s) : t.result ≤ s.result := by
  induction fuel generalizing t with
  | zero => cases h
  | succ fuel ih =>
    rw [divideLoop] at h
    split at h
    · cases hshi : shiftDigits id divisor fuel t with
      | none =>
        rw [hshi] at h
        cases h
      | some u =>
        have hmono := shiftDigits_mono hshi
        rw [hshi] at h
        simp only [bind_eq_bind, bind_some, id] at h
        split at h
        · cases h
          exact hmono.trans (Nat.le_add_right _ _)
        · exact (hmono.trans (Nat.le_add_right _ _)).trans (ih h)
    · cases h
      exact le_rfl

theorem divideLoop_words (hd : divisor ≤ 10 ^ 17)
    (h : divideLoop id divisor fuel t = some s) (hs : s.result < 2 ^ 64) :
    divideLoop (· % 2 ^ 64) divisor fuel t = some s := by
  induction fuel generalizing t with
  | zero => cases h
  | succ fuel ih =>
    rw [divideLoop] at h ⊢
    split at h
    next hlt =>
      rw [if_pos hlt]
      cases hshi : shiftDigits id divisor fuel t with
      | none =>
        rw [hshi] at h
        cases h
      | some u =>
        rw [hshi] at h
        simp only [bind_eq_bind, bind_some, id] at h
        -- the result after this round is at most the final one
        have hrnd : u.result + u.remainder / divisor ≤ s.result := by
          split at h
          · cases h
            exact le_rfl
          · exact divideLoop_mono h
        have hshif : u.result < 2 ^ 64 := ((Nat.le_add_right _ _).trans hrnd).trans_lt hs
        rw [shiftDigits_words hd hshi hshif]
        simp only [bind_eq_bind, bind_some]
        rw [Nat.mod_eq_of_lt (hrnd.trans_lt hs)]
        split at h
        next hzero => rw [if_pos hzero, h]
        next hzero =>
          rw [if_neg hzero]
          exact ih h
    next hlt => rw [if_neg hlt, h]

theorem divideLoop_words_lt (ht : t.result < 2 ^ 64)
    (h : divideLoop (· % 2 ^ 64) divisor fuel t = some s) : s.result < 2 ^ 64 := by
  induction fuel generalizing t with
  | zero => cases h
  | succ fuel ih =>
    rw [divideLoop] at h
    split at h
    · cases hshi : shiftDigits (· % 2 ^ 64) divisor fuel t with
      | none =>
        rw [hshi] at h
        cases h
      | some u =>
        rw [hshi] at h
        simp only [bind_eq_bind, bind_some] at h
        split at h
        · cases h
          exact Nat.mod_lt _ (by decide)
        · exact ih (Nat.mod_lt _ (by decide)) h
    · cases h
      exact ht

/-! ## Normalisation -/

theorem normalizeCoefficient_eq (e : Int) (c : Nat) :
    ∃ t : Nat, normalizeCoefficient e c = (e + t, c / 10 ^ t) ∧ (t = 0 ∨ 10 ^ 16 ≤ c / 10 ^ t) := by
  fun_induction normalizeCoefficient e c with
  | case1 e c h => exact ⟨0, by simp, .inl rfl⟩
  | case2 e c h ih =>
    obtain ⟨t, hn, hlar⟩ := ih
    rw [maxCoefficient_eq] at h
    refine ⟨t + 1, ?_, .inr ?_⟩
    · rw [hn, Nat.div_div_eq_div_mul, ← Nat.pow_succ']
      congr 1
      push_cast
      ring
    · have hdiv : c / 10 ^ (t + 1) = c / 10 / 10 ^ t := by rw [Nat.div_div_eq_div_mul, ← Nat.pow_succ']
      rw [hdiv]
      rcases hlar with rfl | hlar
      · rw [Nat.pow_zero, Nat.div_one]
        omega
      · exact hlar

end DecimalPrivate

open DecimalPrivate

variable (a b : Finite)

namespace Decimal

/-! ## The exact division -/

def startDivision : Division := ⟨a.coefficient, 0, a.exponent - b.exponent⟩

def exactDivision : Division :=
  (divideLoop id b.coefficient 40 (startDivision a b)).getD (startDivision a b)

/-- The result of the exact division, rounded to the nearest integer. -/
def exactRounded : Nat :=
  if b.coefficient / 2 < (exactDivision a b).remainder then (exactDivision a b).result + 1
  else (exactDivision a b).result

section

variable {a b : Finite} (ha : a.coefficient ≠ 0) (hb : b.coefficient ≠ 0)

include ha hb

theorem exactDivision_spec : ∃ k, divideLoop id b.coefficient 40 (startDivision a b) = some (exactDivision a b) ∧
      Continues b.coefficient (startDivision a b) (exactDivision a b) k ∧
      Finished b.coefficient (exactDivision a b) := by
  have hlt := lt_of_le_maxCoefficient b.coefficient_le
  obtain ⟨s, k, hloop, hcont, hfin⟩ := divideLoop_exact (t := startDivision a b) (Nat.pos_of_ne_zero ha)
    (Nat.pos_of_ne_zero hb) hlt.le rfl le_rfl
  have hs : exactDivision a b = s := by rw [exactDivision, hloop, getD_some]
  exact ⟨k, by rw [hloop, hs], hs ▸ hcont, hs ▸ hfin⟩

theorem quotient_eq {k : Nat} (hk : Continues b.coefficient (startDivision a b) (exactDivision a b) k) :
    a.toRat / b.toRat = (productSign a.sign b.sign).toInt *
      ((exactDivision a b).result + (exactDivision a b).remainder / b.coefficient : ℚ) *
      (10 : ℚ) ^ (exactDivision a b).resultExponent := by
  have hval : ((exactDivision a b).result * b.coefficient + (exactDivision a b).remainder : ℚ) =
      a.coefficient * 10 ^ k := by
    have := hk.value
    simp only [startDivision, Nat.zero_mul, Nat.zero_add] at this
    exact_mod_cast this
  have hfrac : ((exactDivision a b).result + (exactDivision a b).remainder / b.coefficient : ℚ) =
      a.coefficient * 10 ^ k / b.coefficient := by
    rw [← hval]
    field_simp
  have hpow : (10 : ℚ) ^ a.exponent =
      (10 : ℚ) ^ (exactDivision a b).resultExponent * (10 : ℚ) ^ k * (10 : ℚ) ^ b.exponent := by
    rw [hk.exponent, ← zpow_natCast (10 : ℚ) k, ← zpow_add₀ (by norm_num), ← zpow_add₀ (by norm_num)]
    congr 1
    simp only [startDivision]
    ring
  rw [hfrac, Finite.toRat, Finite.toRat, hpow]
  cases a.sign <;> cases b.sign <;> simp [productSign, Sign.toInt] <;> field_simp

theorem exactRounded_close : |(exactRounded a b : ℚ) -
      ((exactDivision a b).result + (exactDivision a b).remainder / b.coefficient : ℚ)| < 1 := by
  obtain ⟨k, -, -, hlt, -⟩ := exactDivision_spec ha hb
  have hbq : (0 : ℚ) < b.coefficient := by exact_mod_cast Nat.pos_of_ne_zero hb
  have hfrac : ((exactDivision a b).remainder / b.coefficient : ℚ) < 1 := by
    rw [div_lt_one hbq]
    exact_mod_cast hlt
  have hfrac0 : (0 : ℚ) ≤ (exactDivision a b).remainder / b.coefficient := by positivity
  rw [exactRounded, abs_lt]
  split
  next h =>
    have hpos : (0 : ℚ) < (exactDivision a b).remainder / b.coefficient := by
      have : (0 : ℚ) < (exactDivision a b).remainder := by exact_mod_cast Nat.zero_lt_of_lt h
      positivity
    push_cast
    constructor <;> linarith
  next h => constructor <;> linarith

/-! ## Accuracy -/

omit ha hb in
theorem abs_drop_sub_le {c t : Nat} {x : ℚ} (h : |(c : ℚ) - x| < 1) :
    |((c / 10 ^ t : Nat) : ℚ) * 10 ^ t - x| ≤ 10 ^ t := by
  have hlow : c / 10 ^ t * 10 ^ t ≤ c := Nat.div_mul_le_self _ _
  have hhigh : c + 1 ≤ c / 10 ^ t * 10 ^ t + 10 ^ t := by
    have hdiv := Nat.div_add_mod c (10 ^ t)
    rw [Nat.mul_comm] at hdiv
    omega
  have hlow' : ((c / 10 ^ t : Nat) : ℚ) * 10 ^ t ≤ c := by exact_mod_cast hlow
  have hhigh' : (c : ℚ) + 1 ≤ ((c / 10 ^ t : Nat) : ℚ) * 10 ^ t + 10 ^ t := by exact_mod_cast hhigh
  rw [abs_lt] at h
  rw [abs_le]
  constructor <;> linarith

end

/-- The quotient `d` of `a` and `b` has the right sign, is at most one unit in the last place away from
    the exact quotient, and is exact or has at least 16 digits. -/
structure Accurate (a b d : Finite) : Prop where
  sign : d.sign = productSign a.sign b.sign
  close : |d.toRat - a.toRat / b.toRat| ≤ (10 : ℚ) ^ d.exponent
  digits : d.toRat = a.toRat / b.toRat ∨ 10 ^ 15 ≤ d.coefficient

/-- The division does what it should: the words hold what the exact loop computes, and the number that is
    returned is accurate. -/
structure DividesWell (fuel : Nat) (a b : Finite) : Prop where
  loop : divideLoop (· % 2 ^ 64) b.coefficient fuel (startDivision a b) = some (exactDivision a b)
  round : roundUpHalf b.coefficient (exactDivision a b) = exactRounded a b
  accurate : ∃ d, div fuel (finite a) (finite b) = some (finite d) ∧ Accurate a b d

/-- The exponent of the quotient stays in the range of exponents. -/
def QuotientInRange : Prop :=
  exponentMin ≤ (exactDivision a b).resultExponent ∧
    (normalizeCoefficient (exactDivision a b).resultExponent (exactRounded a b)).1 ≤ exponentMax

theorem ofParts_eq_finite (s : Sign) {e : Int} {c : Nat} (hmin : exponentMin ≤ e)
    (hmax : (normalizeCoefficient e c).1 ≤ exponentMax) : ∃ (d : Finite) (t : Nat), ofParts s e c = finite d ∧
      d.sign = s ∧ d.coefficient = c / 10 ^ t ∧ d.exponent = e + t ∧ (t = 0 ∨ 10 ^ 16 ≤ d.coefficient) := by
  obtain ⟨t, hn, hlar⟩ := normalizeCoefficient_eq e c
  rw [ofParts, dif_pos ⟨hmin, (le_normalizeCoefficient_fst e c).trans hmax⟩]
  refine ⟨_, t, dif_pos hmax, rfl, ?_, ?_, ?_⟩
  · simp only [hn]
  · simp only [hn]
  · simpa only [hn] using hlar

end Decimal

end WebV8
