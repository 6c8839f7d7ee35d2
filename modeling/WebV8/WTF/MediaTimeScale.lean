import WebV8.WTF.CheckedOperations
import WebV8.WTF.MediaTime

/-!
# Rescaling a `MediaTime`

`setTimeScale` multiplies the whole seconds with the new scale, which it halves until the product fits, and
then adds the fraction of a second. The sum is not checked: it is the exact one, less than a tick from the
old time, precisely when it is in the range of 64 bits.
-/

namespace WebV8.MediaTime

open Checked IntType

/-! ## The function -/

def maximumTimeScale : Int32 := 0x7fffffff

theorem fits_toInt64 (x : Int64) : int64.Fits x.toInt := ⟨x.le_toInt, Int.le_sub_one_of_lt x.toInt_lt⟩

theorem fits_toInt32 (x : Int32) : int.Fits x.toInt := ⟨x.le_toInt, Int.le_sub_one_of_lt x.toInt_lt⟩

/-- `safeMultiply` of an `int64_t` and an `int32_t`. -/
def safeMultiply (lhs : Int64) (rhs : Int32) : Option Int64 :=
  (arithmetic .multiply int64 ⟨lhs.toInt, fits_toInt64 lhs⟩ ⟨rhs.toInt, fits_toInt32 rhs⟩).map fun v =>
    Int64.ofInt v.1

/-- The loop of `setTimeScale`: the time scale it ends with and `newWholePart`. -/
def halveTimeScale (wholePart : Int64) : Nat → Int32 → Option (Int32 × Int64)
  | 0, _ => none
  | fuel + 1, timeScale =>
    match safeMultiply wholePart timeScale with
    | some newWholePart => some (timeScale, newWholePart)
    | none => halveTimeScale wholePart fuel (timeScale / 2)

def setTimeScale (fuel : Nat) (t : MediaTime) (timeScale : Int32) : Option MediaTime :=
  if timeScale = t.timeScale then some t
  else
    let timeScale := if timeScale < maximumTimeScale then timeScale else maximumTimeScale
    let wholePart := t.timeValue / t.timeScale.toInt64
    (halveTimeScale wholePart fuel timeScale).map fun found =>
      let remainder := t.timeValue % t.timeScale.toInt64
      { t with
        timeValue := found.2 + remainder * found.1.toInt64 / t.timeScale.toInt64
        timeScale := found.1 }

/-! ## The loop -/

theorem safeMultiply_spec (lhs : Int64) {rhs : Int32} (h : 0 < rhs.toInt) :
    safeMultiply lhs rhs = (int64.ofInt? (lhs.toInt * rhs.toInt)).map fun v => Int64.ofInt v.1 := by
  rw [safeMultiply]
  congr 1
  exact multiplySigned_eq (.resultType rfl rfl) fun _ hneg => absurd h (not_lt.mpr hneg.le)

/-- The loop ends with a positive time scale: the whole seconds themselves fit. -/
theorem halveTimeScale_spec (wholePart : Int64) {fuel : Nat} {timeScale : Int32} (hpos : 0 < timeScale.toInt)
    (hfuel : timeScale.toInt < 2 ^ fuel) : ∃ scale newWholePart,
      halveTimeScale wholePart fuel timeScale = some (scale, newWholePart) ∧ 0 < scale.toInt ∧
      scale.toInt ≤ timeScale.toInt ∧ newWholePart.toInt = wholePart.toInt * scale.toInt := by
  induction fuel generalizing timeScale with
  | zero => exact absurd hfuel (by omega)
  | succ fuel ih =>
    rw [halveTimeScale, safeMultiply_spec wholePart hpos]
    cases hv : int64.ofInt? (wholePart.toInt * timeScale.toInt) with
    | some v =>
      refine ⟨timeScale, Int64.ofInt v.1, rfl, hpos, le_rfl, ?_⟩
      have hfits : int64.Fits v.1 := v.2
      rw [Int64.toInt_ofInt, ← ofInt?_eq_some.mp hv]
      exact wrap_of_fits hfits
    | none =>
      have hone : timeScale.toInt ≠ 1 := by
        intro hone
        rw [hone, mul_one] at hv
        exact ofInt?_eq_none.mp hv (fits_toInt64 wholePart)
      have hhalf : (timeScale / 2).toInt = timeScale.toInt.tdiv 2 := Int32.toInt_div_of_ne_right _ _ (by decide)
      have hdiv := Int.tdiv_eq_ediv_of_nonneg (b := 2) hpos.le
      have hpos' : 0 < (timeScale / 2).toInt := by omega
      obtain ⟨scale, newWholePart, hloop, h0, hle, hnew⟩ := ih hpos' (by omega)
      exact ⟨scale, newWholePart, hloop, h0, by omega, hnew⟩

/-! ## The new value -/

/-- The new value over the integers, as the source computes it for the time scale the loop ends with. -/
def rescaled (t : MediaTime) (scale : Int) : Int :=
  t.timeValue.toInt.tdiv t.timeScale.toInt * scale +
    (t.timeValue.toInt.tmod t.timeScale.toInt * scale).tdiv t.timeScale.toInt

def seconds (t : MediaTime) : ℚ := (t.timeValue.toInt : ℚ) / (t.timeScale.toInt : ℚ)

variable {t : MediaTime}

theorem rescaled_near (h : 0 < t.timeScale.toInt) {scale : Int} (hsca : 0 < scale) :
    |(t.rescaled scale : ℚ) / scale - t.seconds| < 1 / scale := by
  have hs : (0 : ℚ) < t.timeScale.toInt := by exact_mod_cast h
  have hs' : (0 : ℚ) < scale := by exact_mod_cast hsca
  have hval := Int.mul_tdiv_add_tmod t.timeValue.toInt t.timeScale.toInt
  have hpart := Int.mul_tdiv_add_tmod (t.timeValue.toInt.tmod t.timeScale.toInt * scale) t.timeScale.toInt
  have hlow := Int.lt_tmod_of_pos (t.timeValue.toInt.tmod t.timeScale.toInt * scale) h
  have hhigh := Int.tmod_lt_of_pos (t.timeValue.toInt.tmod t.timeScale.toInt * scale) h
  have hdiff : t.rescaled scale * t.timeScale.toInt - t.timeValue.toInt * scale =
      -(t.timeValue.toInt.tmod t.timeScale.toInt * scale).tmod t.timeScale.toInt := by
    rw [rescaled]
    linear_combination hpart + scale * hval
  have habs : |t.rescaled scale * t.timeScale.toInt - t.timeValue.toInt * scale| < t.timeScale.toInt := by
    rw [hdiff, abs_lt]
    omega
  have heq : (t.rescaled scale : ℚ) / scale - t.seconds =
      ((t.rescaled scale * t.timeScale.toInt - t.timeValue.toInt * scale : ℤ) : ℚ) / (scale * t.timeScale.toInt) := by
    rw [seconds]
    push_cast
    field_simp
  rw [heq, abs_div, abs_of_pos (mul_pos hs' hs), div_lt_div_iff₀ (mul_pos hs' hs) hs', one_mul, mul_comm (scale : ℚ),
    ← Int.cast_abs]
  exact mul_lt_mul_of_pos_right (by exact_mod_cast habs) hs'

theorem rescaled_self (t : MediaTime) (h : 0 < t.timeScale.toInt) : t.rescaled t.timeScale.toInt = t.timeValue.toInt := by
  rw [rescaled, Int.mul_tdiv_cancel _ h.ne', mul_comm]
  exact Int.mul_tdiv_add_tmod _ _

theorem toInt_newValue (ht : 0 < t.timeScale) {scale : Int32} (hsca : 0 < scale) {newWholePart : Int64}
    (hnew : newWholePart.toInt = (t.timeValue / t.timeScale.toInt64).toInt * scale.toInt) :
    (newWholePart + t.timeValue % t.timeScale.toInt64 * scale.toInt64 / t.timeScale.toInt64).toInt =
      int64.wrap (t.rescaled scale.toInt) := by
  rw [Int64.toInt_add, toInt_div_scale _ ht, toInt_remain_mul _ ht hsca, hnew, toInt_div_scale _ ht]
  rfl

end WebV8.MediaTime
