import WebV8.WTF.CheckedOperations

/-! # Conversions between checked integers

A `Checked` value made from another integral type has the same value or has overflowed, but for one elided
check: a negative number is taken into a wider unsigned type as it is.
-/

namespace WebV8.Checked

open IntType

variable {s t : IntType}

/-! ## Constructors and assignments -/

/-- `Checked(const Checked<U, OverflowHandler>&)`, and the copy of a value of the same type. -/
def ofChecked (t : IntType) (rhs : Checked s) : Checked t :=
  ⟨t.cast rhs.value.1, rhs.hasOverflowed || !isInBounds t rhs.value⟩

/-- `operator=(Checked rhs)` -/
def assignSelf (lhs rhs : Checked t) : Checked t :=
  let cleared := { lhs with overflowed := false }
  let flagged := if rhs.hasOverflowed then { cleared with overflowed := true } else cleared
  { flagged with value := t.cast rhs.value.1 }

/-- `operator=(U value)` -/
def assignFrom (lhs : Checked t) (value : s.Value) : Checked t := lhs.assignSelf (ofValue t value)

/-- `operator=(const Checked<U, V>& rhs)` -/
def assignChecked (lhs : Checked t) (rhs : Checked s) : Checked t := lhs.assignSelf (ofChecked t rhs)

/-- A value, the types it is converted to one after the other, and the last of them. -/
inductive Conversions (s : IntType) : IntType → Type where
  | nil : Conversions s s
  | convert {t : IntType} (u : IntType) (before : Conversions s t) : Conversions s u

def Conversions.run (c : Checked s) : {t : IntType} → Conversions s t → Checked t
  | _, nil => c
  | _, convert u before => ofChecked u (before.run c)

/-! ## Bounds -/

/-- The conversion that is not checked although the type does not have the value. -/
def LosesSign (t : IntType) (value : s.Value) : Prop :=
  s.isSigned = true ∧ t.isSigned = false ∧ s.bits < t.bits ∧ value.1 < 0

instance (value : s.Value) : Decidable (LosesSign t value) := inferInstanceAs (Decidable (_ ∧ _))

theorem isInBounds_iff (value : s.Value) : isInBounds t value = true ↔ t.Fits value.1 ∨ LosesSign t value := by
  obtain ⟨x, hx⟩ := value
  obtain ⟨u, s⟩ := s
  obtain ⟨w, s'⟩ := t
  cases u <;> cases s <;> cases w <;> cases s' <;>
    simp [isInBounds, boundsChecker, LosesSign, Fits, IntType.min, IntType.max, IntType.cast, wrap, bits,
      Width.bits] at hx ⊢ <;> omega

/-- What a conversion is to do: report a value outside the range, and hold any other. -/
structure Converts (value : s.Value) (c : Checked t) : Prop where
  overflowed_iff : c.hasOverflowed = true ↔ ¬ t.Fits value.1
  value_eq : c.hasOverflowed = false → c.value.1 = value.1

theorem not_fits_of_losesSign {value : s.Value} (h : LosesSign t value) : ¬ t.Fits value.1 := by
  rintro ⟨hmin, -⟩
  rw [(min_eq_of_unsigned h.2.1).1] at hmin
  exact absurd hmin (not_le.mpr h.2.2.2)

theorem converts_ofValue_iff (value : s.Value) : Converts value (ofValue t value) ↔ ¬ LosesSign t value := by
  have hbds := isInBounds_iff (t := t) value
  constructor
  · intro h hlose
    have hover := h.overflowed_iff.mpr (not_fits_of_losesSign hlose)
    rw [hasOverflowed, ofValue, hbds.mpr (.inr hlose)] at hover
    cases hover
  · intro hkeep
    rw [or_iff_left hkeep] at hbds
    refine ⟨?_, fun h => ?_⟩
    · rw [← hbds, hasOverflowed, ofValue, Bool.not_eq_true', Bool.not_eq_true]
    · rw [hasOverflowed, ofValue, Bool.not_eq_false'] at h
      exact cast_of_fits (hbds.mp h)

theorem ofChecked_eq {rhs : Checked s} (h : rhs.hasOverflowed = false) : ofChecked t rhs = ofValue t rhs.value := by
  rw [ofChecked, h, Bool.false_or, ofValue]

theorem assignSelf_eq (lhs rhs : Checked t) : lhs.assignSelf rhs = rhs := by
  obtain ⟨value, overflowed⟩ := rhs
  have hcast : t.cast value.1 = value := Subtype.ext (cast_of_fits value.2)
  cases overflowed <;> simp [assignSelf, hasOverflowed, hcast]

/-! ## Chains -/

namespace Conversions

def KeepsSign (c : Checked s) : {t : IntType} → Conversions s t → Prop
  | _, nil => True
  | _, convert u before => before.KeepsSign c ∧ ¬ LosesSign u (before.run c).value

variable {c : Checked s} {cs : Conversions s t} {u : IntType}

/-- What a chain that does not overflow has done in its last step. -/
theorem run_convert (h : ((convert u cs).run c).hasOverflowed = false) : (cs.run c).hasOverflowed = false ∧
    ((convert u cs).run c).value.1 = u.wrap (cs.run c).value.1 ∧
    (LosesSign u (cs.run c).value ∨ u.Fits (cs.run c).value.1) := by
  rw [run, hasOverflowed, ofChecked, Bool.or_eq_false_iff, Bool.not_eq_false', isInBounds_iff] at h
  exact ⟨h.1, rfl, h.2.symm⟩

theorem run_nonneg (h : (cs.run c).hasOverflowed = false) (hc : 0 ≤ c.value.1) : 0 ≤ (cs.run c).value.1 := by
  induction cs with
  | nil => exact hc
  | convert u before ih =>
    obtain ⟨hbef, hval, hlose | hfits⟩ := run_convert h
    · exact absurd (ih hbef) (not_le.mpr hlose.2.2.2)
    · rw [hval, wrap_of_fits hfits]
      exact ih hbef

theorem run_value_iff (h : (cs.run c).hasOverflowed = false) : (cs.run c).value.1 = c.value.1 ↔ cs.KeepsSign c := by
  induction cs with
  | nil => exact iff_of_true rfl trivial
  | convert u before ih =>
    obtain ⟨hbef, hval, hlose | hfits⟩ := run_convert h
    · -- the value was negative and is not negative now, whatever the chain started from
      have hneg : c.value.1 < 0 := by
        by_contra hc
        exact absurd (run_nonneg hbef (not_lt.mp hc)) (not_le.mpr hlose.2.2.2)
      have hpos := ((convert u before).run c).value.2.1
      rw [(min_eq_of_unsigned hlose.2.1).1] at hpos
      exact iff_of_false (by omega) fun hkeep => hkeep.2 hlose
    · rw [hval, wrap_of_fits hfits, ih hbef, KeepsSign, and_iff_left]
      exact fun hlose => not_fits_of_losesSign hlose hfits

end Conversions

/-- **Conversions detect range errors**, but for a negative value that goes into a wider unsigned type; and a
    chain of conversions that ends without an overflow has kept the value exactly when it has no such step. -/
theorem conversions_iff (value : s.Value) (lhs : Checked t) (rhs : Checked s) (h : rhs.hasOverflowed = false) :
    (Converts value (ofValue t value) ↔ ¬ LosesSign t value) ∧
    (Converts value (lhs.assignFrom value) ↔ ¬ LosesSign t value) ∧
    (Converts rhs.value (ofChecked t rhs) ↔ ¬ LosesSign t rhs.value) ∧
    (Converts rhs.value (lhs.assignChecked rhs) ↔ ¬ LosesSign t rhs.value) ∧
    ∀ cs : Conversions s t, (cs.run rhs).hasOverflowed = false →
      ((cs.run rhs).value.1 = rhs.value.1 ↔ cs.KeepsSign rhs) := by
  rw [assignFrom, assignChecked, assignSelf_eq, assignSelf_eq, ofChecked_eq h]
  exact ⟨converts_ofValue_iff value, converts_ofValue_iff value, converts_ofValue_iff rhs.value,
    converts_ofValue_iff rhs.value, fun cs hcs => Conversions.run_value_iff hcs⟩

theorem conversions_iff_int : Converts (int.cast 7) (ofValue unsigned (int.cast 7)) ∧
    ∀ cs : Conversions int unsigned, (cs.run ⟨int.cast 5, false⟩).hasOverflowed = false →
      ((cs.run ⟨int.cast 5, false⟩).value.1 = (int.cast 5).1 ↔ cs.KeepsSign ⟨int.cast 5, false⟩) :=
  have h := conversions_iff (int.cast 7) (resultOverflowed unsigned) ⟨int.cast 5, false⟩ rfl
  ⟨h.1.mpr (by decide), h.2.2.2.2⟩

theorem negative_taken_as_unsigned : ofValue ⟨.w64, false⟩ (int.cast (-1)) = ⟨⟨2 ^ 64 - 1, by decide⟩, false⟩ ∧
    ¬ IntType.Fits ⟨.w64, false⟩ (-1) := by decide

end WebV8.Checked
