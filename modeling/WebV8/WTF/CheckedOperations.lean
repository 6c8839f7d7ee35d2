import WebV8.WTF.CheckedArithmetic

/-! # Checked operations

What `add`, `sub` and `multiply` of `ArithmeticOperations` answer. On operands of one type an operation is the
exact one, with one check against the range of the type (`arithmetic_self`), except that `sub` also refuses
the smallest value of a signed type. With operands of different widths `multiply` negates each of two
negative factors in the factor's own type, where the smallest 32-bit value is its own negation.
-/

namespace WebV8.Checked

open IntType

namespace IntType

variable {t : IntType} {x : Int}

instance : Decidable (t.Fits x) := inferInstanceAs (Decidable (_ ∧ _))

theorem wrap_of_fits (h : t.Fits x) : t.wrap x = x := by
  obtain ⟨w, s⟩ := t
  obtain ⟨hlow, hhigh⟩ := h
  cases s with
  | false =>
    simp only [min, max, Bool.false_eq_true, if_false] at hlow hhigh
    rw [wrap, if_neg Bool.false_ne_true]
    exact Int.emod_eq_of_lt hlow (by omega)
  | true =>
    simp only [min, max, if_true] at hlow hhigh
    rw [wrap, if_pos rfl]
    apply Int.bmod_eq_of_le <;> cases w <;> simp [bits, Width.bits] at hlow hhigh ⊢ <;> omega

theorem cast_of_fits (h : t.Fits x) : (t.cast x).1 = x := wrap_of_fits h

theorem Fits.promote (h : t.Fits x) : t.promote.Fits x := by
  obtain ⟨w, s⟩ := t
  rw [IntType.promote]
  split
  next hlt =>
    obtain ⟨hlow, hhigh⟩ := h
    cases w <;> cases s <;> simp [bits, Width.bits] at hlt <;>
      simp [min, max, bits, Width.bits, Fits, int] at hlow hhigh ⊢ <;> omega
  next => exact h

theorem promote_wrap_of_fits (h : t.Fits x) : t.promote.wrap x = x := wrap_of_fits h.promote

theorem min_eq_of_signed (hs : t.isSigned = true) : t.min = -(t.max + 1) ∧ 0 < t.max := by
  obtain ⟨w, s⟩ := t
  cases hs
  cases w <;> simp [min, max, bits, Width.bits]

theorem min_eq_of_unsigned (hs : t.isSigned = false) : t.min = 0 ∧ t.max = 2 ^ t.bits - 1 := by
  simp [min, max, hs]

/-- The value in the type, if there is one. -/
def ofInt? (t : IntType) (x : Int) : Option t.Value := if h : t.Fits x then some ⟨x, h⟩ else none

theorem ofInt?_eq_some {v : t.Value} : t.ofInt? x = some v ↔ v.1 = x := by
  rw [ofInt?]
  split
  next h =>
    constructor
    · rintro ⟨⟩
      rfl
    · rintro rfl
      rfl
  next h => simpa using fun he : v.1 = x => h (he ▸ v.2)

theorem ofInt?_eq_none : t.ofInt? x = none ↔ ¬ t.Fits x := by
  rw [ofInt?]
  split <;> simp [*]

/-- The end of each operation: a result in the range is stored as it is, and any other refused. -/
theorem ite_eq_ofInt? {c : Prop} [Decidable c] {v : t.Value} (hv : t.Fits x → v.1 = x) (hc : c ↔ ¬ t.Fits x) :
    (if c then none else some v) = t.ofInt? x := by
  split
  next h => exact (ofInt?_eq_none.mpr (hc.mp h)).symm
  next h => exact (ofInt?_eq_some.mpr (hv (not_not.mp (mt hc.mpr h)))).symm

end IntType

/-! ## Signed operands -/

/-- `res` is a signed type that is as wide as `l` and `r`, and one of them is as wide as `res`. -/
structure Wider (l r res : IntType) : Prop where
  signed : res.isSigned = true
  common_eq : common l r = res.promote
  common_left : common res l = res.promote ∧ common l res = res.promote
  common_right : common res r = res.promote
  left : ∀ {x}, l.Fits x → res.Fits x
  right : ∀ {x}, r.Fits x → res.Fits x

variable {t : IntType}

theorem Wider.self (hs : t.isSigned = true) : Wider t t t := by
  have hc : common t t = t.promote := by simp [common]
  exact ⟨hs, hc, ⟨hc, hc⟩, hc, id, id⟩

theorem Wider.resultType {l r : IntType} (hl : l.isSigned = true) (hr : r.isSigned = true) :
    Wider l r (resultType l r) := by
  obtain ⟨u, s⟩ := l
  obtain ⟨w, s'⟩ := r
  cases hl
  cases hr
  cases u <;> cases w <;> refine ⟨rfl, rfl, ⟨rfl, rfl⟩, rfl, ?_, ?_⟩ <;>
    simp [IntType.resultType, Fits, IntType.min, IntType.max, bits, Width.bits] <;> omega

theorem xor_nonneg_iff {w : Nat} {x y : Int} (hx : -2 ^ w ≤ x ∧ x < 2 ^ w) (hy : -2 ^ w ≤ y ∧ y < 2 ^ w) :
    0 ≤ (BitVec.ofInt (w + 1) x ^^^ BitVec.ofInt (w + 1) y).toInt ↔ (0 ≤ x ↔ 0 ≤ y) := by
  have hmsb {z : Int} (hz : -2 ^ w ≤ z ∧ z < 2 ^ w) : (BitVec.ofInt (w + 1) z).msb = decide (z < 0) := by
    have hpow : ((2 ^ (w + 1) : Nat) : Int) = 2 * 2 ^ w := by
      push_cast
      ring
    rw [BitVec.msb_eq_toInt, BitVec.toInt_ofInt, Int.bmod_eq_of_le (by omega) (by omega)]
  have hxor := BitVec.msb_xor (x := BitVec.ofInt (w + 1) x) (y := BitVec.ofInt (w + 1) y)
  rw [BitVec.msb_eq_toInt, hmsb hx, hmsb hy] at hxor
  generalize (BitVec.ofInt (w + 1) x ^^^ BitVec.ofInt (w + 1) y).toInt = z at *
  by_cases h0 : x < 0 <;> by_cases h1 : y < 0 <;> simp [h0, h1] at hxor <;> omega

section Signed

variable {l r res : IntType} {lhs : l.Value} {rhs : r.Value} (h : Wider l r res)
include h

theorem signsMatch_iff (lhs : l.Value) (rhs : r.Value) : signsMatch lhs rhs = true ↔ (0 ≤ lhs.1 ↔ 0 ≤ rhs.1) := by
  have hx := (h.left lhs.2).promote
  have hy := (h.right rhs.2).promote
  have hs := h.signed
  rw [signsMatch, decide_eq_true_eq, h.common_eq]
  obtain ⟨w, s⟩ := res
  cases hs
  cases w
  all_goals
    simp only [IntType.promote, bits, Width.bits, Fits, IntType.min, IntType.max, int] at hx hy ⊢
    norm_num at hx hy ⊢
    exact xor_nonneg_iff (by omega) (by omega)

theorem cast_common {z : Int} (hz : res.Fits z) : (res.cast ((common l r).wrap z)).1 = z := by
  rw [h.common_eq, promote_wrap_of_fits hz, cast_of_fits hz]

theorem addSigned_eq : addSigned res lhs rhs = res.ofInt? (lhs.1 + rhs.1) := by
  refine ite_eq_ofInt? (cast_common h) ?_
  have hmat := signsMatch_iff h lhs rhs
  have hx := h.left lhs.2
  have hy := h.right rhs.2
  obtain ⟨hmin, hmax⟩ := min_eq_of_signed h.signed
  rw [Fits] at hx hy ⊢
  split
  next hm =>
    have hsame := hmat.mp hm
    split
    next hpos =>
      rw [h.common_right, promote_wrap_of_fits (by rw [Fits]; omega), decide_eq_true_eq]
      omega
    next hneg =>
      have htemp : res.Fits (lhs.1 - res.min) := by
        rw [Fits]
        omega
      rw [h.common_left.2, promote_wrap_of_fits htemp]
      dsimp only
      rw [cast_of_fits htemp, promote_wrap_of_fits (by rw [Fits]; omega), decide_eq_true_eq]
      omega
  next hm =>
    have hdiff := mt hmat.mpr hm
    simp
    omega

theorem subSigned_eq :
    subSigned res lhs rhs = if lhs.1 - rhs.1 = res.min then none else res.ofInt? (lhs.1 - rhs.1) := by
  have hmat := signsMatch_iff h lhs rhs
  have hx := h.left lhs.2
  have hy := h.right rhs.2
  obtain ⟨hmin, hmax⟩ := min_eq_of_signed h.signed
  have hover : (if !signsMatch lhs rhs then
      if 0 ≤ lhs.1 then decide ((common res r).wrap (res.max + rhs.1) < lhs.1)
      else decide ((common res l).wrap (res.max + lhs.1) < rhs.1) else false) = true ↔
      lhs.1 - rhs.1 = res.min ∨ ¬ res.Fits (lhs.1 - rhs.1) := by
    rw [Fits] at hx hy ⊢
    split
    next hm =>
      have hdiff := mt hmat.mpr (by simpa using hm)
      split
      · rw [h.common_right, promote_wrap_of_fits (by rw [Fits]; omega), decide_eq_true_eq]
        omega
      · rw [h.common_left.1, promote_wrap_of_fits (by rw [Fits]; omega), decide_eq_true_eq]
        omega
    next hm =>
      have hsame := hmat.mp (by simpa using hm)
      simp
      omega
  by_cases hz : lhs.1 - rhs.1 = res.min
  · rw [if_pos hz, subSigned]
    exact if_pos (hover.mpr (.inl hz))
  · rw [if_neg hz, subSigned]
    exact ite_eq_ofInt? (cast_common h) (hover.trans (or_iff_right hz))

end Signed

/-! ## Quotients -/

section

variable {t : IntType} (hs : t.isSigned = true) {a b m : Int} (ha : 0 ≤ a) (hm : t.Fits m)
include hs ha hm

theorem tdiv_fits : t.Fits (m.tdiv a) := by
  obtain ⟨hmin, hmax⟩ := min_eq_of_signed hs
  have hsize := Int.natAbs_tdiv_le_natAbs m a
  have hneg : m ≤ 0 → 0 ≤ (-m).tdiv a := fun hm => Int.tdiv_nonneg (by omega) ha
  rw [Int.neg_tdiv] at hneg
  obtain ⟨hlow, hhigh⟩ := hm
  exact ⟨by omega, by omega⟩

theorem guard_max_iff (hm0 : 0 ≤ m) : (decide (a ≠ 0) && decide (t.promote.wrap (m.tdiv a) < b)) = true ↔ m < a * b := by
  rw [promote_wrap_of_fits (tdiv_fits hs ha hm), Int.tdiv_eq_ediv_of_nonneg hm0]
  rcases ha.eq_or_lt with rfl | ha
  · simpa using hm0
  · simp [ha.ne', Int.ediv_lt_iff_lt_mul ha, mul_comm]

theorem guard_min_iff (hm0 : m ≤ 0) : (decide (a ≠ 0) && decide (b < t.promote.wrap (m.tdiv a))) = true ↔ a * b < m := by
  have hquot : (-m).tdiv a < -b ↔ b < m.tdiv a := by
    rw [Int.neg_tdiv]
    omega
  rw [promote_wrap_of_fits (tdiv_fits hs ha hm)]
  simp only [← hquot, Int.tdiv_eq_ediv_of_nonneg (by omega : 0 ≤ -m)]
  rcases ha.eq_or_lt with rfl | ha
  · simpa using hm0
  · simp [ha.ne', Int.ediv_lt_iff_lt_mul ha, mul_comm]

end

section Multiply

variable {l r res : IntType} {lhs : l.Value} {rhs : r.Value} (h : Wider l r res)
include h

theorem multiplySigned_eq (hneg : lhs.1 < 0 → rhs.1 < 0 → (lhs.1 ≠ res.min → l.promote.Fits (-lhs.1)) ∧
    (rhs.1 ≠ res.min → r.promote.Fits (-rhs.1))) : multiplySigned res lhs rhs = res.ofInt? (lhs.1 * rhs.1) := by
  refine ite_eq_ofInt? (cast_common h) ?_
  have hmat := signsMatch_iff h lhs rhs
  have hx := h.left lhs.2
  have hy := h.right rhs.2
  obtain ⟨hmin, hmax⟩ := min_eq_of_signed h.signed
  have hfmax : res.Fits res.max := ⟨by omega, le_rfl⟩
  have hfmin : res.Fits res.min := ⟨le_rfl, by omega⟩
  rw [cast_of_fits hx, cast_of_fits hy, h.common_left.1, h.common_right, Fits]
  generalize lhs.1 = x at *
  generalize rhs.1 = y at *
  split
  next hm =>
    have hsame := hmat.mp hm
    split
    next hpos =>
      have hprod := mul_nonneg hpos (hsame.mp hpos)
      rw [guard_max_iff h.signed hpos hfmax hmax.le]
      omega
    next hpos =>
      have hx0 : x < 0 := by omega
      have hy0 : y < 0 := by omega
      obtain ⟨hnx, hny⟩ := hneg hx0 hy0
      by_cases hend : x = res.min ∨ y = res.min
      · have hbig : res.max < x * y := by
          rcases hend with rfl | rfl <;> nlinarith
        simp [hend]
        omega
      · rw [not_or] at hend
        have hprod := mul_pos_of_neg_of_neg hx0 hy0
        have hgua := guard_max_iff (a := -x) (b := -y) h.signed (by omega) hfmax hmax.le
        rw [wrap_of_fits (hnx hend.1), wrap_of_fits (hny hend.2)]
        rw [neg_mul_neg, decide_eq_true (by omega : -x ≠ 0), Bool.true_and] at hgua
        rw [decide_eq_false hend.1, decide_eq_false hend.2, Bool.or_self, Bool.false_or, hgua]
        omega
  next hm =>
    have hdiff := mt hmat.mpr hm
    split
    next hx0 =>
      have hprod := mul_nonpos_of_nonpos_of_nonneg hx0.le (by omega : 0 ≤ y)
      rw [guard_min_iff h.signed (by omega) hfmin (by omega), mul_comm y x]
      omega
    next hx0 =>
      have hprod := mul_nonpos_of_nonneg_of_nonpos (by omega : 0 ≤ x) (by omega : y ≤ 0)
      rw [guard_min_iff h.signed (by omega) hfmin (by omega)]
      omega

end Multiply

/-! ## Unsigned operands -/

section Unsigned

variable {t : IntType} (hs : t.isSigned = false) {lhs rhs : t.Value}
include hs

theorem wrap_common_of_unsigned (x : Int) : t.wrap ((common t t).wrap x) = x % 2 ^ t.bits := by
  obtain ⟨w, s⟩ := t
  cases hs
  cases w with
  | w8 | w16 =>
    simp only [common, IntType.promote, wrap, bits, Width.bits, int]
    norm_num
    rw [Int.bmod_def]
    split <;> omega
  | w32 | w64 => simp [common, IntType.promote, wrap, bits, Width.bits]

theorem fits_iff_of_unsigned {x : Int} : t.Fits x ↔ 0 ≤ x ∧ x < 2 ^ t.bits := by
  rw [Fits, (min_eq_of_unsigned hs).1, (min_eq_of_unsigned hs).2]
  omega

theorem cast_common_of_unsigned {z : Int} (hz : t.Fits z) : (t.cast ((common t t).wrap z)).1 = z := by
  rw [fits_iff_of_unsigned hs] at hz
  exact (wrap_common_of_unsigned hs z).trans (Int.emod_eq_of_lt hz.1 hz.2)

theorem addUnsigned_eq : addUnsigned t lhs rhs = t.ofInt? (lhs.1 + rhs.1) := by
  refine ite_eq_ofInt? (cast_common_of_unsigned hs) ?_
  have hx := (fits_iff_of_unsigned hs).mp lhs.2
  have hy := (fits_iff_of_unsigned hs).mp rhs.2
  change t.wrap ((common t t).wrap _) < lhs.1 ↔ _
  rw [wrap_common_of_unsigned hs, fits_iff_of_unsigned hs]
  rcases lt_or_ge (lhs.1 + rhs.1) (2 ^ t.bits) with hsma | hbig
  · rw [Int.emod_eq_of_lt (by omega) hsma]
    omega
  · rw [← Int.sub_emod_right, Int.emod_eq_of_lt (by omega) (by omega)]
    omega

theorem subUnsigned_eq : subUnsigned t lhs rhs = t.ofInt? (lhs.1 - rhs.1) := by
  refine ite_eq_ofInt? (cast_common_of_unsigned hs) ?_
  have hx := (fits_iff_of_unsigned hs).mp lhs.2
  have hy := (fits_iff_of_unsigned hs).mp rhs.2
  change lhs.1 < t.wrap ((common t t).wrap _) ↔ _
  rw [wrap_common_of_unsigned hs, fits_iff_of_unsigned hs]
  rcases le_or_gt rhs.1 lhs.1 with hle | hgt
  · rw [Int.emod_eq_of_lt (by omega) (by omega)]
    omega
  · rw [← Int.add_emod_right, Int.emod_eq_of_lt (by omega) (by omega)]
    omega

theorem multiplyUnsigned_eq : multiplyUnsigned t lhs rhs = t.ofInt? (lhs.1 * rhs.1) := by
  have hx := (fits_iff_of_unsigned hs).mp lhs.2
  have hy := (fits_iff_of_unsigned hs).mp rhs.2
  have hzero : t.Fits 0 := (fits_iff_of_unsigned hs).mpr ⟨le_rfl, by positivity⟩
  rw [multiplyUnsigned]
  split
  next hz =>
    have hprod : lhs.1 * rhs.1 = 0 := by simpa using hz
    rw [hprod, eq_comm, ofInt?_eq_some, cast_of_fits hzero]
  next hz =>
    simp only [Bool.or_eq_true, decide_eq_true_eq, not_or] at hz
    have hmax : 0 ≤ t.max := hzero.2
    have hquot : t.Fits (t.max / lhs.1) :=
      ⟨(min_eq_of_unsigned hs).1.trans_le (Int.ediv_nonneg hmax hx.1), Int.ediv_le_self _ hmax⟩
    refine ite_eq_ofInt? (cast_common_of_unsigned hs) ?_
    have hprod := mul_nonneg hx.1 hy.1
    rw [show common t t = t.promote by simp [common], promote_wrap_of_fits hquot,
      Int.ediv_lt_iff_lt_mul (by omega), mul_comm, Fits, (min_eq_of_unsigned hs).1]
    omega

end Unsigned

/-! ## Operands of one type -/

theorem promote_fits_neg (hs : t.isSigned = true) {x : Int} (hx : t.Fits x) (hmin : x ≠ t.min) :
    t.promote.Fits (-x) := by
  obtain ⟨hm, hmax⟩ := min_eq_of_signed hs
  obtain ⟨hlow, hhigh⟩ := hx
  exact Fits.promote ⟨by omega, by omega⟩

theorem arithmetic_self (op : Op) (lhs rhs : t.Value) : arithmetic op t lhs rhs =
    if op = .sub ∧ t.isSigned = true ∧ lhs.1 - rhs.1 = t.min then none else t.ofInt? (op.apply lhs.1 rhs.1) := by
  rw [arithmetic.eq_def]
  cases hs : t.isSigned with
  | true =>
    cases op with
    | add => simpa [Op.apply] using addSigned_eq (.self hs)
    | sub => simpa [Op.apply] using subSigned_eq (.self hs)
    | multiply =>
      simpa [Op.apply] using multiplySigned_eq (.self hs) fun _ _ => ⟨promote_fits_neg hs lhs.2, promote_fits_neg hs rhs.2⟩
  | false =>
    cases op with
    | add => simpa [Op.apply] using addUnsigned_eq hs
    | sub => simpa [Op.apply] using subUnsigned_eq hs
    | multiply => simpa [Op.apply] using multiplyUnsigned_eq hs

/-- **An operation on one type fails only out of range**, but for `sub` with the smallest value as its result. -/
theorem fails_only_outside_iff (op : Op) {t : IntType} (lhs rhs : t.Value) :
    (arithmetic op t lhs rhs = none → ¬ t.Fits (op.apply lhs.1 rhs.1)) ↔
      ¬ (op = .sub ∧ t.isSigned = true ∧ lhs.1 - rhs.1 = t.min) := by
  rw [arithmetic_self]
  split
  next h =>
    obtain ⟨hop, hs, hmin⟩ := id h
    obtain ⟨hm, hmax⟩ := min_eq_of_signed hs
    simp only [hop, Op.apply, hmin, hs, forall_const, not_true_eq_false, and_self, iff_false, not_not]
    exact ⟨le_rfl, by omega⟩
  next h => exact iff_of_true ofInt?_eq_none.mp h

theorem sub_refuses_min : arithmetic .sub int (int.cast (-1)) (int.cast 2147483647) = none ∧
    int.Fits (-1 - 2147483647) := by decide

/-! ## Factors of different widths -/

section

variable {l r : IntType} (hl : l.isSigned = true) (hr : r.isSigned = true) (lhs : l.Value) (rhs : r.Value)
include hl hr

theorem wraps_cases (hwrap : ¬ ((lhs.1 ≠ (resultType l r).min → l.promote.Fits (-lhs.1)) ∧
    (rhs.1 ≠ (resultType l r).min → r.promote.Fits (-rhs.1)))) :
    (l = int64 ∧ r = int ∧ rhs.1 = int.min) ∨ (l = int ∧ r = int64 ∧ lhs.1 = int.min) := by
  obtain ⟨x, hx⟩ := lhs
  obtain ⟨y, hy⟩ := rhs
  obtain ⟨u, s⟩ := l
  obtain ⟨w, s'⟩ := r
  cases hl
  cases hr
  cases u <;> cases w <;>
    simp [resultType, IntType.promote, Fits, IntType.min, IntType.max, bits, Width.bits, int, int64] at hx hy hwrap ⊢ <;>
    omega

end

theorem multiplySigned_of_neg {l r res : IntType} (h : Wider l r res) {lhs : l.Value} {rhs : r.Value}
    (hx : lhs.1 < 0) (hy : rhs.1 < 0) : multiplySigned res lhs rhs = if (lhs.1 = res.min ∨ rhs.1 = res.min) ∨
        res.promote.wrap (res.max.tdiv (l.promote.wrap (-lhs.1))) < r.promote.wrap (-rhs.1) then none
      else some (res.cast ((common l r).wrap (lhs.1 * rhs.1))) := by
  have hm : signsMatch lhs rhs = true := (signsMatch_iff h lhs rhs).mpr (iff_of_false (by omega) (by omega))
  simp only [multiplySigned, cast_of_fits (h.left lhs.2), cast_of_fits (h.right rhs.2), h.common_left.1, hm, if_true,
    not_le.mpr hx, if_false, Bool.or_eq_true, decide_eq_true_eq]

/-- **A product of signed factors is exact**, but for a long negative factor and the smallest 32-bit value. -/
theorem multiply_exact_iff {l r : IntType} (hl : l.isSigned = true) (hr : r.isSigned = true) (lhs : l.Value)
    (rhs : r.Value) : (∀ v, arithmetic .multiply (resultType l r) lhs rhs = some v →
        (resultType l r).Fits (lhs.1 * rhs.1) ∧ v.1 = lhs.1 * rhs.1) ↔
      ¬ (l = int64 ∧ r = int ∧ rhs.1 = int.min ∧ int64.min < lhs.1 ∧ lhs.1 ≤ -2 ^ 32) := by
  have harith : arithmetic .multiply (resultType l r) lhs rhs = multiplySigned (resultType l r) lhs rhs := by
    simp only [arithmetic.eq_def, hl, hr]
  rw [harith]
  by_cases hsafe : lhs.1 < 0 → rhs.1 < 0 → (lhs.1 ≠ (resultType l r).min → l.promote.Fits (-lhs.1)) ∧
      (rhs.1 ≠ (resultType l r).min → r.promote.Fits (-rhs.1))
  · rw [multiplySigned_eq (.resultType hl hr) hsafe]
    refine iff_of_true (fun v hv => ?_) ?_
    · rw [ofInt?_eq_some] at hv
      exact ⟨hv ▸ v.2, hv⟩
    · rintro ⟨rfl, rfl, hy, -, hx⟩
      have hneg := (hsafe (by omega) (by rw [hy]; decide)).2 (by rw [hy]; decide)
      rw [hy] at hneg
      exact absurd hneg (by decide)
  · simp only [not_forall] at hsafe
    obtain ⟨hx, hy, hwrap⟩ := hsafe
    rcases wraps_cases hl hr lhs rhs hwrap with ⟨rfl, rfl, hmin⟩ | ⟨rfl, rfl, hmin⟩
    · have hw : Wider int64 int int64 := .resultType hl hr
      change (∀ v, multiplySigned int64 lhs rhs = some v → int64.Fits _ ∧ _) ↔ _
      rw [multiplySigned_of_neg hw hx hy]
      by_cases hend : lhs.1 = int64.min
      · rw [if_pos (.inl (.inl hend))]
        simp [hend]
      · have hquot := tdiv_fits (t := int64) hl (by omega : 0 ≤ -lhs.1) (by decide : int64.Fits int64.max)
        have hpos := Int.tdiv_nonneg (by decide : 0 ≤ int64.max) (by omega : 0 ≤ -lhs.1)
        have hfits : int64.Fits (lhs.1 * rhs.1) ↔ -2 ^ 32 < lhs.1 := by
          rw [hmin, Fits]
          simp only [IntType.min, IntType.max, bits, Width.bits, int64, int]
          norm_num
          omega
        rw [if_neg, ← not_lt, ← hfits]
        · constructor
          · rintro h ⟨-, -, -, -, hout⟩
            exact hout (h _ rfl).1
          · intro h v hv
            cases hv
            have hin : int64.Fits (lhs.1 * rhs.1) :=
              by_contra fun hout => h ⟨rfl, rfl, hmin, lt_of_le_of_ne lhs.2.1 (Ne.symm hend), hout⟩
            exact ⟨hin, cast_common hw hin⟩
        · rw [wrap_of_fits (promote_fits_neg hl lhs.2 hend), promote_wrap_of_fits hquot, hmin]
          have hlow : int.promote.wrap (-int.min) < 0 := by decide
          have hne : int.min ≠ int64.min := by decide
          omega
    · -- the quotient by the negation, which is the factor itself, is below zero
      rw [multiplySigned_of_neg (.resultType hl hr) hx hy, if_pos]
      · simp [int, int64]
      · by_cases hend : rhs.1 = int64.min
        · exact .inl (.inr hend)
        · right
          have hneg : int64.promote.wrap (int64.max.tdiv (int.promote.wrap (-int.min))) < 0 := by decide
          rw [hmin, wrap_of_fits (promote_fits_neg hr rhs.2 hend)]
          exact hneg.trans (by omega)

theorem multiply_exact_iff_sample : resultType int64 int = int64 ∧
    ∀ v, arithmetic .multiply int64 (int64.cast (-3)) (int.cast (-5)) = some v → int64.Fits (-3 * -5) ∧ v.1 = -3 * -5 :=
  ⟨rfl, (multiply_exact_iff rfl rfl (int64.cast (-3)) (int.cast (-5))).mpr (by decide)⟩

/-- The product is 2^93, and `multiply` stores zero. -/
theorem multiply_loses_high_bits : resultType int64 int = int64 ∧
    arithmetic .multiply int64 (int64.cast (-2 ^ 62)) (int.cast (-2 ^ 31)) = some (int64.cast 0) ∧
    ¬ int64.Fits (-2 ^ 62 * -2 ^ 31) := by decide

end WebV8.Checked
