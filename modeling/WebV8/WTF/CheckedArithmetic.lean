import Mathlib

/-! # Checked arithmetic

`Checked<T, RecordOverflow>`: an integer together with a flag that says whether some operation on the way
to it overflowed. The tests are chosen by the signedness of the operands, and are computed in the types that
the integral promotions and the usual arithmetic conversions give; signed arithmetic is read as two's
complement. Comparisons are between values that their common type holds, so they are comparisons of
integers.
-/

namespace WebV8

namespace Checked

/-! ## Integral types -/

inductive Width where
  | w8
  | w16
  | w32
  | w64
  deriving DecidableEq

def Width.bits : Width → Nat
  | w8 => 8
  | w16 => 16
  | w32 => 32
  | w64 => 64

structure IntType where
  width : Width
  isSigned : Bool
  deriving DecidableEq

namespace IntType

def int : IntType := ⟨.w32, true⟩

def unsigned : IntType := ⟨.w32, false⟩

def int64 : IntType := ⟨.w64, true⟩

def bits (t : IntType) : Nat := t.width.bits

variable (t : IntType)

/-- `std::numeric_limits<T>::min()` -/
def min : Int := if t.isSigned then -2 ^ (t.bits - 1) else 0

/-- `std::numeric_limits<T>::max()` -/
def max : Int := if t.isSigned then 2 ^ (t.bits - 1) - 1 else 2 ^ t.bits - 1

def Fits (x : Int) : Prop := t.min ≤ x ∧ x ≤ t.max

/-- A result that is computed in, or converted to, the type. -/
def wrap (x : Int) : Int := if t.isSigned then x.bmod (2 ^ t.bits) else x % 2 ^ t.bits

theorem wrap_fits (x : Int) : t.Fits (t.wrap x) := by
  obtain ⟨w, s⟩ := t
  cases w <;> cases s <;> simp [Fits, wrap, min, max, bits, Width.bits] <;> grind

def Value : Type := { x : Int // t.Fits x }

instance (t : IntType) : DecidableEq t.Value := inferInstanceAs (DecidableEq { x : Int // t.Fits x })

/-- `static_cast<T>` -/
def cast (x : Int) : t.Value := ⟨t.wrap x, t.wrap_fits x⟩

def promote : IntType := if t.bits < 32 then int else t

def common (a b : IntType) : IntType :=
  let a := a.promote
  let b := b.promote
  if a.isSigned = b.isSigned then if b.bits < a.bits then a else b
  else if a.isSigned then if a.bits ≤ b.bits then b else a
  else if b.bits ≤ a.bits then a else b

/-- `Result<U, V>::ResultType`: the wider type, and of two types of one width the unsigned one. -/
def resultType (u v : IntType) : IntType :=
  if v.bits < u.bits then u
  else if u.bits < v.bits then v
  else if u.isSigned && !v.isSigned then v else u

end IntType

open IntType

/-! ## ArithmeticOperations

A result of `none` stands for the answer `false`, with which nothing is stored. -/

section

variable {l r : IntType} (res : IntType) (lhs : l.Value) (rhs : r.Value)

/-- `(lhs ^ rhs) >= 0` -/
def signsMatch (lhs : l.Value) (rhs : r.Value) : Bool :=
  0 ≤ (BitVec.ofInt (common l r).bits lhs.1 ^^^ BitVec.ofInt (common l r).bits rhs.1).toInt

def addSigned : Option res.Value :=
  let overflows :=
    if signsMatch lhs rhs then
      if 0 ≤ lhs.1 then decide ((common res r).wrap (res.max - rhs.1) < lhs.1)
      else
        let temp := res.cast ((common l res).wrap (lhs.1 - res.min))
        decide (rhs.1 < res.promote.wrap (-temp.1))
    else false
  if overflows then none else some (res.cast ((common l r).wrap (lhs.1 + rhs.1)))

def subSigned : Option res.Value :=
  let overflows :=
    if !signsMatch lhs rhs then
      if 0 ≤ lhs.1 then decide ((common res r).wrap (res.max + rhs.1) < lhs.1)
      else decide ((common res l).wrap (res.max + lhs.1) < rhs.1)
    else false
  if overflows then none else some (res.cast ((common l r).wrap (lhs.1 - rhs.1)))

def multiplySigned : Option res.Value :=
  let overflows :=
    if signsMatch lhs rhs then
      if 0 ≤ lhs.1 then lhs.1 ≠ 0 && (common res l).wrap (res.max.tdiv lhs.1) < rhs.1
      else ((res.cast lhs.1).1 = res.min || (res.cast rhs.1).1 = res.min) ||
        (common res l).wrap (res.max.tdiv (l.promote.wrap (-lhs.1))) < r.promote.wrap (-rhs.1)
    else
      if lhs.1 < 0 then rhs.1 ≠ 0 && lhs.1 < (common res r).wrap (res.min.tdiv rhs.1)
      else lhs.1 ≠ 0 && rhs.1 < (common res l).wrap (res.min.tdiv lhs.1)
  if overflows then none else some (res.cast ((common l r).wrap (lhs.1 * rhs.1)))

def addUnsigned : Option res.Value :=
  let temp := res.cast ((common l r).wrap (lhs.1 + rhs.1))
  if temp.1 < lhs.1 then none else some temp

def subUnsigned : Option res.Value :=
  let temp := res.cast ((common l r).wrap (lhs.1 - rhs.1))
  if lhs.1 < temp.1 then none else some temp

def multiplyUnsigned : Option res.Value :=
  if lhs.1 = 0 || rhs.1 = 0 then some (res.cast 0)
  else if (common res l).wrap (res.max / lhs.1) < rhs.1 then none
  else some (res.cast ((common l r).wrap (lhs.1 * rhs.1)))

/-- The range check on a result that was computed with 64 bits. -/
def narrow (temp : Int) : Option res.Value :=
  if temp < res.min then none else if res.max < temp then none else some (res.cast temp)

end

inductive Op where
  | add
  | sub
  | multiply
  deriving DecidableEq

def Op.apply : Op → Int → Int → Int
  | add, x, y => x + y
  | sub, x, y => x - y
  | multiply, x, y => x * y

/-- `safeAdd`, `safeSub` and `safeMultiply`. With operands of different signedness they are there for `int` and
    `unsigned` only. -/
def arithmetic (op : Op) {l r : IntType} (res : IntType) (lhs : l.Value) (rhs : r.Value) : Option res.Value :=
  match l.isSigned, r.isSigned with
  | true, true =>
    match op with
    | .add => addSigned res lhs rhs
    | .sub => subSigned res lhs rhs
    | .multiply => multiplySigned res lhs rhs
  | false, false =>
    match op with
    | .add => addUnsigned res lhs rhs
    | .sub => subUnsigned res lhs rhs
    | .multiply => multiplyUnsigned res lhs rhs
  | true, false => narrow res (int64.wrap (op.apply lhs.1 rhs.1))
  | false, true =>
    match op with
    | .sub => narrow res (int64.wrap (op.apply lhs.1 rhs.1))
    | _ => narrow res (int64.wrap (op.apply rhs.1 lhs.1))

/-! ## Bounds -/

/-- `BoundsChecker<Target, Source>::inBounds` -/
def boundsChecker (target : IntType) {source : IntType} (value : source.Value) : Bool :=
  match target.isSigned, source.isSigned with
  | false, false => value.1 ≤ target.max
  | true, true => target.min ≤ value.1 && value.1 ≤ target.max
  | false, true =>
    if value.1 < 0 then false
    else if source.bits ≤ target.bits then (target.cast value.1).1 ≤ target.max
    else value.1 ≤ (source.cast target.max).1
  | true, false => if target.bits ≤ source.bits then value.1 ≤ (source.cast target.max).1 else true

/-- `isInBounds<Target>(value)`: no check for a wider type or for the same one. -/
def isInBounds (target : IntType) {source : IntType} (value : source.Value) : Bool :=
  if target = source ∨ source.bits < target.bits then true else boundsChecker target value

end Checked

open Checked IntType

/-! ## Checked<T, RecordOverflow> -/

structure Checked (t : IntType) where
  value : t.Value
  overflowed : Bool
  deriving DecidableEq

namespace Checked

variable {u v : IntType}

/-- `Checked(ResultOverflowedTag)` -/
def resultOverflowed (t : IntType) : Checked t := ⟨t.cast 0, true⟩

/-- `template <typename U> Checked(U value)` -/
def ofValue (t : IntType) (value : u.Value) : Checked t := ⟨t.cast value.1, !isInBounds t value⟩

def hasOverflowed (c : Checked u) : Bool := c.overflowed

/-- `unsafeGet`; `none` stands for the crash. -/
def unsafeGet (c : Checked u) : Option u.Value := if c.hasOverflowed then none else some c.value

/-- The operators `+`, `-` and `*`. If the left operand has overflowed, the right one is not read. -/
def binary (op : Op) (lhs : Checked u) (rhs : Checked v) : Checked (resultType u v) :=
  let x := lhs.value
  let y := if lhs.hasOverflowed then v.cast 0 else rhs.value
  let overflowed := lhs.hasOverflowed || rhs.hasOverflowed
  match arithmetic op (resultType u v) x y with
  | none => resultOverflowed _
  | some result => if overflowed then resultOverflowed _ else ofValue _ result

/-- `operator+=(U rhs)` and its kin. -/
def assignValue (op : Op) (lhs : Checked u) (rhs : v.Value) : Checked u :=
  match arithmetic op u lhs.value rhs with
  | none => { lhs with overflowed := true }
  | some result => { lhs with value := result }

/-- `operator+=(Checked<U, V> rhs)` and its kin. -/
def assign (op : Op) (lhs : Checked u) (rhs : Checked v) : Checked u :=
  assignValue op { lhs with overflowed := lhs.overflowed || rhs.hasOverflowed } rhs.value

end Checked

end WebV8
