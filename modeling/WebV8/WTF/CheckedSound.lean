import WebV8.WTF.CheckedOperations

/-! # Checked computations

An expression over `Checked` values either reports an overflow or has the value that the same expression has
over the integers. Each operation is exact or fails, and the flag is passed on by every operator.
-/

namespace WebV8.Checked

open IntType

/-! ## One operation -/

/-- An operation on operands of types `l` and `r` with a result of type `res` is exact whenever it succeeds. -/
def ExactOn (l r res : IntType) : Prop :=
  ∀ (op : Op) (lhs : l.Value) (rhs : r.Value) (v : res.Value),
    arithmetic op res lhs rhs = some v → v.1 = op.apply lhs.1 rhs.1

theorem exactOn_self (t : IntType) : ExactOn t t t := by
  intro op lhs rhs v h
  rw [arithmetic_self] at h
  split at h
  next => cases h
  next => exact ofInt?_eq_some.mp h

/-! ## int and unsigned together -/

theorem narrow_exact {res : IntType} {z : Int} {v : res.Value} (hz : int64.Fits z)
    (h : narrow res (int64.wrap z) = some v) : v.1 = z := by
  rw [wrap_of_fits hz, narrow] at h
  split at h
  next => cases h
  next hlow =>
    split at h
    next => cases h
    next hhigh =>
      cases h
      exact cast_of_fits ⟨by omega, by omega⟩

theorem apply_fits_int64 (op : Op) {x y : Int} (hx : int.Fits x) (hy : unsigned.Fits y) :
    int64.Fits (op.apply x y) ∧ int64.Fits (op.apply y x) := by
  simp only [Fits, IntType.min, IntType.max, int, unsigned, bits, Width.bits, int64] at hx hy ⊢
  norm_num at hx hy ⊢
  cases op with
  | add | sub => simp only [Op.apply]; omega
  | multiply =>
    have hlow : -2147483648 * 4294967295 ≤ x * y := by nlinarith
    have hhigh : x * y ≤ 2147483647 * 4294967295 := by nlinarith
    rw [Op.apply, Op.apply, mul_comm y x]
    omega

theorem exactOn_int_unsigned (res : IntType) : ExactOn int unsigned res := by
  intro op lhs rhs v h
  exact narrow_exact (apply_fits_int64 op lhs.2 rhs.2).1 h

theorem exactOn_unsigned_int (res : IntType) : ExactOn unsigned int res := by
  intro op lhs rhs v h
  obtain ⟨hswap, hfits⟩ := apply_fits_int64 op rhs.2 lhs.2
  cases op with
  | add => exact (narrow_exact hswap h).trans (add_comm _ _)
  | sub => exact narrow_exact hfits h
  | multiply => exact (narrow_exact hswap h).trans (mul_comm _ _)

/-! ## Expressions -/

inductive Expr : IntType → Type where
  | leaf {t : IntType} (value : t.Value) : Expr t
  | binary (op : Op) {u v : IntType} (lhs : Expr u) (rhs : Expr v) : Expr (resultType u v)
  | assign (op : Op) {u v : IntType} (lhs : Expr u) (rhs : Expr v) : Expr u

namespace Expr

def eval {t : IntType} : Expr t → Checked t
  | leaf value => ofValue _ value
  | binary op lhs rhs => Checked.binary op lhs.eval rhs.eval
  | assign op lhs rhs => Checked.assign op lhs.eval rhs.eval

def exact {t : IntType} : Expr t → Int
  | leaf value => value.1
  | binary op lhs rhs => op.apply lhs.exact rhs.exact
  | assign op lhs rhs => op.apply lhs.exact rhs.exact

/-- All leaves have a type with the property `p`. -/
def Leaves (p : IntType → Prop) {t : IntType} : Expr t → Prop
  | @leaf t _ => p t
  | binary _ lhs rhs => lhs.Leaves p ∧ rhs.Leaves p
  | assign _ lhs rhs => lhs.Leaves p ∧ rhs.Leaves p

/-- The first expression is a subexpression of the second. -/
inductive Within {s : IntType} (e : Expr s) : {t : IntType} → Expr t → Prop where
  | refl : Within e e
  | binary_left {op : Op} {u v : IntType} {lhs : Expr u} {rhs : Expr v} : Within e lhs → Within e (binary op lhs rhs)
  | binary_right {op : Op} {u v : IntType} {lhs : Expr u} {rhs : Expr v} : Within e rhs → Within e (binary op lhs rhs)
  | assign_left {op : Op} {u v : IntType} {lhs : Expr u} {rhs : Expr v} : Within e lhs → Within e (assign op lhs rhs)
  | assign_right {op : Op} {u v : IntType} {lhs : Expr u} {rhs : Expr v} : Within e rhs → Within e (assign op lhs rhs)

end Expr

/-! ## The flag -/

section

variable {u v : IntType} (op : Op)

theorem ofValue_self {t : IntType} (value : t.Value) : ofValue t value = ⟨value, false⟩ := by
  rw [ofValue, isInBounds, if_pos (.inl rfl)]
  congr 1
  exact Subtype.ext (cast_of_fits value.2)

theorem binary_overflowed (lhs : Checked u) (rhs : Checked v) : (Checked.binary op lhs rhs).overflowed = true ∨
      lhs.overflowed = false ∧ rhs.overflowed = false ∧
        arithmetic op (resultType u v) lhs.value rhs.value = some (Checked.binary op lhs rhs).value := by
  rw [Checked.binary]
  cases hl : lhs.overflowed with
  | true =>
    left
    simp only [hasOverflowed, hl, Bool.true_or, if_true]
    split <;> rfl
  | false =>
    simp only [hasOverflowed, hl, Bool.false_eq_true, if_false, Bool.false_or]
    split
    next => exact .inl rfl
    next result hres =>
      cases hr : rhs.overflowed with
      | true => exact .inl (by rw [if_pos rfl]; rfl)
      | false =>
        right
        rw [if_neg Bool.false_ne_true, ofValue_self]
        exact ⟨trivial, rfl, hres⟩

theorem assign_overflowed (lhs : Checked u) (rhs : Checked v) : (Checked.assign op lhs rhs).overflowed = true ∨
      lhs.overflowed = false ∧ rhs.overflowed = false ∧
        arithmetic op u lhs.value rhs.value = some (Checked.assign op lhs rhs).value := by
  rw [Checked.assign, assignValue]
  split
  next => exact .inl rfl
  next result hres =>
    cases hl : lhs.overflowed <;> cases hr : rhs.overflowed <;> simp [hasOverflowed, hr]
    exact hres

end

/-! ## Whole computations -/

/-- The types of a computation: they are closed under the types of results, and on them all operations are
    exact. -/
structure Supported (p : IntType → Prop) : Prop where
  result : ∀ {u v}, p u → p v → p (resultType u v)
  binary : ∀ {u v}, p u → p v → ExactOn u v (resultType u v)
  assign : ∀ {u v}, p u → p v → ExactOn u v u

theorem resultType_self (t : IntType) : resultType t t = t := by
  simp [resultType]

theorem supported_one (t : IntType) : Supported (· = t) where
  result := by
    rintro _ _ rfl rfl
    exact resultType_self _
  binary := by
    rintro _ _ rfl rfl
    rw [resultType_self]
    exact exactOn_self _
  assign := by
    rintro _ _ rfl rfl
    exact exactOn_self _

theorem supported_int_unsigned : Supported fun t => t = int ∨ t = unsigned where
  result := by
    rintro u v (rfl | rfl) (rfl | rfl) <;> decide
  binary := by
    rintro u v (rfl | rfl) (rfl | rfl)
    · exact exactOn_self int
    · exact exactOn_int_unsigned _
    · exact exactOn_unsigned_int _
    · exact exactOn_self unsigned
  assign := by
    rintro u v (rfl | rfl) (rfl | rfl)
    · exact exactOn_self int
    · exact exactOn_int_unsigned _
    · exact exactOn_unsigned_int _
    · exact exactOn_self unsigned

namespace Expr

variable {p : IntType → Prop} {t : IntType} {e : Expr t}

theorem Leaves.type (hp : Supported p) (h : e.Leaves p) : p t := by
  induction e with
  | leaf value => exact h
  | binary op lhs rhs ihl ihr => exact hp.result (ihl h.1) (ihr h.2)
  | assign op lhs rhs ihl ihr => exact ihl h.1

theorem eval_exact (hp : Supported p) (h : e.Leaves p) (hflag : e.eval.overflowed = false) :
    e.eval.value.1 = e.exact := by
  induction e with
  | leaf value => rw [eval, ofValue_self, exact]
  | binary op lhs rhs ihl ihr =>
    rw [eval] at hflag ⊢
    obtain ⟨hl, hr, hop⟩ := (binary_overflowed op lhs.eval rhs.eval).resolve_left (by rw [hflag]; decide)
    rw [hp.binary (h.1.type hp) (h.2.type hp) op _ _ _ hop, ihl h.1 hl, ihr h.2 hr, exact]
  | assign op lhs rhs ihl ihr =>
    rw [eval] at hflag ⊢
    obtain ⟨hl, hr, hop⟩ := (assign_overflowed op lhs.eval rhs.eval).resolve_left (by rw [hflag]; decide)
    rw [hp.assign (h.1.type hp) (h.2.type hp) op _ _ _ hop, ihl h.1 hl, ihr h.2 hr, exact]

theorem Within.overflowed {s : IntType} {e' : Expr s} (h : Within e' e)
    (hflag : e'.eval.overflowed = true) : e.eval.overflowed = true := by
  induction h with
  | refl => exact hflag
  | binary_left _ ih =>
    rcases binary_overflowed _ _ _ with h | ⟨hl, -, -⟩
    · exact h
    · cases hl.symm.trans ih
  | binary_right _ ih =>
    rcases binary_overflowed _ _ _ with h | ⟨-, hr, -⟩
    · exact h
    · cases hr.symm.trans ih
  | assign_left _ ih =>
    rcases assign_overflowed _ _ _ with h | ⟨hl, -, -⟩
    · exact h
    · cases hl.symm.trans ih
  | assign_right _ ih =>
    rcases assign_overflowed _ _ _ with h | ⟨-, hr, -⟩
    · exact h
    · cases hr.symm.trans ih

/-- **Checked computations are sound**: an expression over one type, or over `int` and `unsigned`, that reports
    no overflow has the value it has over the integers, and if a part of it reports one, so does the whole. -/
theorem checked_sound (e : Expr t) (h : (∃ u, e.Leaves (· = u)) ∨ e.Leaves fun u => u = int ∨ u = unsigned) :
    (e.eval.hasOverflowed = false → ∃ value, e.eval.unsafeGet = some value ∧ value.1 = e.exact) ∧
      ∀ {s : IntType} (e' : Expr s), Within e' e → e'.eval.hasOverflowed = true → e.eval.hasOverflowed = true := by
  refine ⟨fun hflag => ⟨e.eval.value, by rw [unsafeGet, if_neg (by rw [hflag]; decide)], ?_⟩,
    fun e' hwithin hflag => hwithin.overflowed hflag⟩
  rcases h with ⟨u, hu⟩ | hmixed
  · exact eval_exact (supported_one u) hu hflag
  · exact eval_exact supported_int_unsigned hmixed hflag

/-- 100 + 20 as `int8_t`. -/
theorem checked_sound_int8 :
    ∃ value, (binary .add (leaf (cast ⟨.w8, true⟩ 100)) (leaf (cast ⟨.w8, true⟩ 20))).eval.unsafeGet = some value ∧
      value.1 = 120 :=
  (checked_sound (binary .add (leaf (cast ⟨.w8, true⟩ 100)) (leaf (cast ⟨.w8, true⟩ 20)))
    (.inl ⟨⟨.w8, true⟩, rfl, rfl⟩)).1 (by decide)

end Expr

end WebV8.Checked
