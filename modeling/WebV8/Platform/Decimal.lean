import Mathlib

/-!
# `Decimal`

Decimal floating point numbers with an exponent between -1023 and 1023. The operations work on 64-bit
words, which wrap. The constant for the largest coefficient has 17 digits, although the source's comment
on it says 18, which is also the number of digits that operands are aligned to.
-/

namespace WebV8

/-! ## Numbers -/

namespace DecimalPrivate

def exponentMax : Int := 1023

def exponentMin : Int := -1023

def precision : Nat := 18

def maxCoefficient : Nat := 0x16345785D89FFFF

end DecimalPrivate

open DecimalPrivate

namespace Decimal

inductive Sign where
  | positive
  | negative
  deriving DecidableEq, Repr

def invertSign : Sign → Sign
  | .negative => .positive
  | .positive => .negative

def productSign (lhsSign rhsSign : Sign) : Sign := if lhsSign = rhsSign then .positive else .negative

/-- A number that is not special. `ClassZero` and `ClassNormal` are told apart by the coefficient. -/
structure Finite where
  sign : Sign
  exponent : Int
  coefficient : Nat
  exponentMin_le : exponentMin ≤ exponent
  le_exponentMax : exponent ≤ exponentMax
  coefficient_le : coefficient ≤ maxCoefficient
  deriving DecidableEq

end Decimal

open Decimal

inductive Decimal where
  | finite (d : Finite)
  | infinity (sign : Sign)
  | nan
  deriving DecidableEq

namespace DecimalPrivate

/-! ## Words -/

/-- The loop of `countDigits`; `powerOfTen` is `10 ^ numberOfDigits`. -/
def countDigitsFrom (x numberOfDigits : Nat) : Nat :=
  if x < 10 ^ numberOfDigits then numberOfDigits
  else if (2 ^ 64 - 1) / 10 ≤ 10 ^ numberOfDigits then numberOfDigits + 1
  else countDigitsFrom x (numberOfDigits + 1)
termination_by x + 1 - 10 ^ numberOfDigits
decreasing_by
  have hpow : 0 < 10 ^ numberOfDigits := by positivity
  rw [Nat.pow_succ]
  omega

def countDigits (x : Nat) : Nat := countDigitsFrom x 0

def scaleDown (x : Nat) : Nat → Nat
  | 0 => x
  | n + 1 => if x = 0 then x else scaleDown (x / 10) n

/-- The loop of `scaleUp`. -/
def scaleUpFrom (x n y z : Nat) : Nat :=
  let y := if n % 2 = 1 then y * z % 2 ^ 64 else y
  if n / 2 = 0 then x * y % 2 ^ 64
  else scaleUpFrom x (n / 2) y (z * z % 2 ^ 64)
termination_by n
decreasing_by omega

def scaleUp (x n : Nat) : Nat := scaleUpFrom x n 1 10

/-- Digits are dropped until the coefficient is small enough. -/
def normalizeCoefficient (exponent : Int) (coefficient : Nat) : Int × Nat :=
  if coefficient ≤ maxCoefficient then (exponent, coefficient)
  else normalizeCoefficient (exponent + 1) (coefficient / 10)
termination_by coefficient
decreasing_by
  rw [maxCoefficient] at *
  omega

theorem normalizeCoefficient_snd_le (exponent : Int) (coefficient : Nat) :
    (normalizeCoefficient exponent coefficient).2 ≤ maxCoefficient := by
  fun_induction normalizeCoefficient exponent coefficient with
  | case1 _ _ h => exact h
  | case2 _ _ _ ih => exact ih

theorem le_normalizeCoefficient_fst (exponent : Int) (coefficient : Nat) :
    exponent ≤ (normalizeCoefficient exponent coefficient).1 := by
  fun_induction normalizeCoefficient exponent coefficient with
  | case1 _ _ _ => exact le_rfl
  | case2 _ _ _ ih => omega

end DecimalPrivate

variable (lhs rhs : Decimal)

namespace Decimal

/-! ## Construction -/

/-- `zero(sign)` -/
def zero (sign : Sign) : Decimal :=
  .finite ⟨sign, 0, 0, by decide, by decide, by decide⟩

/-- `Decimal(sign, exponent, coefficient)` -/
def ofParts (sign : Sign) (exponent : Int) (coefficient : Nat) : Decimal :=
  if h : exponentMin ≤ exponent ∧ exponent ≤ exponentMax then
    let n := normalizeCoefficient exponent coefficient
    if h' : n.1 ≤ exponentMax then
      .finite ⟨sign, n.1, n.2, h.1.trans (le_normalizeCoefficient_fst _ _), h', normalizeCoefficient_snd_le _ _⟩
    else .infinity sign
  else if exponentMax < exponent then .infinity sign
  else zero sign

/-- `Decimal(int32_t)` for the numbers the source needs. -/
def one (sign : Sign) : Decimal := ofParts sign 0 1

def isNaN : Decimal → Bool
  | nan => true
  | _ => false

def isSpecial : Decimal → Bool
  | finite _ => false
  | _ => true

def isZero : Decimal → Bool
  | finite d => d.coefficient = 0
  | _ => false

def sign : Decimal → Sign
  | finite d => d.sign
  | infinity s => s
  | nan => .positive

def isNegative (d : Decimal) : Bool := d.sign = .negative

def isPositive (d : Decimal) : Bool := d.sign = .positive

/-! ## Addition and subtraction -/

structure AlignedOperands where
  lhsCoefficient : Nat
  rhsCoefficient : Nat
  exponent : Int
  deriving DecidableEq

/-- One of the two branches of `alignOperands`: the operand with the larger exponent is scaled up as far as
    18 digits allow, and the other one is scaled down if that is not far enough. -/
def alignTo (largeExponent smallExponent : Int) (largeCoefficient smallCoefficient : Nat) :
    Nat × Nat × Int :=
  let numberOfDigits := countDigits largeCoefficient
  if numberOfDigits = 0 then (largeCoefficient, smallCoefficient, smallExponent)
  else
    let shiftAmount := largeExponent - smallExponent
    let overflow := numberOfDigits + shiftAmount - precision
    if overflow ≤ 0 then (scaleUp largeCoefficient shiftAmount.toNat, smallCoefficient, smallExponent)
    else
      (scaleUp largeCoefficient (shiftAmount - overflow).toNat,
        scaleDown smallCoefficient overflow.toNat, smallExponent + overflow)

def alignOperands (lhs rhs : Finite) : AlignedOperands :=
  if rhs.exponent < lhs.exponent then
    let (l, r, e) := alignTo lhs.exponent rhs.exponent lhs.coefficient rhs.coefficient
    ⟨l, r, e⟩
  else if lhs.exponent < rhs.exponent then
    let (r, l, e) := alignTo rhs.exponent lhs.exponent rhs.coefficient lhs.coefficient
    ⟨l, r, e⟩
  else ⟨lhs.coefficient, rhs.coefficient, lhs.exponent⟩

/-- The end of `operator-` for two finite numbers, once they are aligned. A word stands for a negative
    number if its highest bit is set. -/
def subAligned (lhsSign rhsSign : Sign) (a : AlignedOperands) : Decimal :=
  let result :=
    if lhsSign = rhsSign then (a.lhsCoefficient + (2 ^ 64 - a.rhsCoefficient)) % 2 ^ 64
    else (a.lhsCoefficient + a.rhsCoefficient) % 2 ^ 64
  if lhsSign = .negative ∧ rhsSign = .negative ∧ result = 0 then ofParts .positive a.exponent 0
  else if result < 2 ^ 63 then ofParts lhsSign a.exponent result
  else ofParts (invertSign lhsSign) a.exponent (2 ^ 64 - result)

/-- `operator-` -/
def sub : Decimal → Decimal → Decimal
  | finite lhs, finite rhs => subAligned lhs.sign rhs.sign (alignOperands lhs rhs)
  | nan, _ => nan
  | _, nan => nan
  | infinity s, infinity t => if s = t then nan else infinity s
  | infinity s, finite _ => infinity s
  | finite _, infinity t => infinity (invertSign t)

/-! ## Comparison -/

def compareTo : Decimal :=
  match sub lhs rhs with
  | infinity s => one s
  | nan => nan
  | finite d => if d.coefficient = 0 then zero .positive else finite d

/-- `operator==` -/
def eq : Bool := lhs = rhs || (compareTo lhs rhs).isZero

/-- `operator!=` -/
def ne : Bool :=
  if lhs = rhs then false
  else
    let result := compareTo lhs rhs
    if result.isNaN then false else !result.isZero

/-- `operator<` -/
def lt : Bool :=
  let result := compareTo lhs rhs
  if result.isNaN then false else !result.isZero && result.isNegative

/-- `operator<=` -/
def le : Bool :=
  if lhs = rhs then true
  else
    let result := compareTo lhs rhs
    if result.isNaN then false else result.isZero || result.isNegative

/-- `operator>` -/
def gt : Bool :=
  let result := compareTo lhs rhs
  if result.isNaN then false else !result.isZero && result.isPositive

/-- `operator>=` -/
def ge : Bool :=
  if lhs = rhs then true
  else
    let result := compareTo lhs rhs
    if result.isNaN then false else result.isZero || !result.isNegative

/-! ## Multiplication -/

end Decimal

namespace DecimalPrivate

/-- `UInt128`, with its two words. -/
structure UInt128 where
  high : Nat
  low : Nat
  deriving DecidableEq

namespace UInt128

def highUInt32 (x : Nat) : Nat := x / 2 ^ 32 % 2 ^ 32

def lowUInt32 (x : Nat) : Nat := x % 2 ^ 32

def makeUInt64 (low high : Nat) : Nat := low + high * 2 ^ 32

def multiplyHigh (u v : Nat) : Nat :=
  let uLow := lowUInt32 u
  let uHigh := highUInt32 u
  let vLow := lowUInt32 v
  let vHigh := highUInt32 v
  let partialProduct := (uHigh * vLow + highUInt32 (uLow * vLow)) % 2 ^ 64
  (uHigh * vHigh + highUInt32 partialProduct +
    highUInt32 ((uLow * vHigh + lowUInt32 partialProduct) % 2 ^ 64)) % 2 ^ 64

def multiply (u v : Nat) : UInt128 := ⟨multiplyHigh u v, u * v % 2 ^ 64⟩

/-- `operator/=`, by long division of four 32-bit digits. -/
def divide (x : UInt128) (divisor : Nat) : UInt128 :=
  if x.high = 0 then ⟨0, x.low / divisor⟩
  else
    let work3 := makeUInt64 (highUInt32 x.high) 0
    let work2 := makeUInt64 (lowUInt32 x.high) (work3 % divisor)
    let work1 := makeUInt64 (highUInt32 x.low) (work2 % divisor)
    let work0 := makeUInt64 (lowUInt32 x.low) (work1 % divisor)
    ⟨makeUInt64 (work2 / divisor) (work3 / divisor), makeUInt64 (work0 / divisor) (work1 / divisor)⟩

end UInt128

/-- The loop of `operator*`: drop digits until one word is enough. The fuel is the number of digits that
    can be dropped. -/
def dropHigh : Nat → Int → UInt128 → Int × Nat
  | 0, exponent, work => (exponent, work.low)
  | fuel + 1, exponent, work =>
    if work.high = 0 then (exponent, work.low) else dropHigh fuel (exponent + 1) (work.divide 10)

end DecimalPrivate

namespace Decimal

/-- `operator*` for two finite numbers. -/
def mulFinite (lhs rhs : Finite) : Decimal :=
  let (resultExponent, low) :=
    dropHigh 40 (lhs.exponent + rhs.exponent) (UInt128.multiply lhs.coefficient rhs.coefficient)
  ofParts (productSign lhs.sign rhs.sign) resultExponent low

/-- `operator*` -/
def mul : Decimal → Decimal → Decimal
  | finite lhs, finite rhs => mulFinite lhs rhs
  | nan, _ => nan
  | _, nan => nan
  | infinity s, infinity t => infinity (productSign s t)
  | infinity s, finite rhs => if rhs.coefficient = 0 then nan else infinity (productSign s rhs.sign)
  | finite lhs, infinity t => if lhs.coefficient = 0 then nan else infinity (productSign lhs.sign t)

/-! ## Division -/

end Decimal

namespace DecimalPrivate

/-- The variables of the loop of `operator/`. -/
structure Division where
  remainder : Nat
  result : Nat
  resultExponent : Int
  deriving DecidableEq

section

-- The code runs with `wrap n = n % 2 ^ 64`.
variable (wrap : Nat → Nat) (divisor : Nat)

/-- The inner loop: one more digit, until the divisor goes into the remainder. -/
def shiftDigits : Nat → Division → Option Division
  | 0, _ => none
  | fuel + 1, s =>
    if s.remainder < divisor then
      shiftDigits fuel ⟨wrap (s.remainder * 10), wrap (s.result * 10), s.resultExponent - 1⟩
    else some s

def divideLoop : Nat → Division → Option Division
  | 0, _ => none
  | fuel + 1, s =>
    if s.result < maxCoefficient / 100 then do
      let s ← shiftDigits wrap divisor fuel s
      let s := ⟨s.remainder % divisor, wrap (s.result + s.remainder / divisor), s.resultExponent⟩
      if s.remainder = 0 then some s else divideLoop fuel s
    else some s

end

/-- `if (remainder > divisor / 2) ++result;` -/
def roundUpHalf (divisor : Nat) (s : Division) : Nat :=
  if divisor / 2 < s.remainder then (s.result + 1) % 2 ^ 64 else s.result

end DecimalPrivate

namespace Decimal

/-- `operator/` for two finite numbers that are not zero. The fuel bounds the loops. -/
def divFinite (fuel : Nat) (lhs rhs : Finite) : Option Decimal := do
  let s ← divideLoop (· % 2 ^ 64) rhs.coefficient fuel ⟨lhs.coefficient, 0, lhs.exponent - rhs.exponent⟩
  return ofParts (productSign lhs.sign rhs.sign) s.resultExponent (roundUpHalf rhs.coefficient s)

/-- `operator/` -/
def div (fuel : Nat) : Decimal → Decimal → Option Decimal
  | finite lhs, finite rhs =>
    if rhs.coefficient = 0 then
      some (if lhs.coefficient = 0 then nan else infinity (productSign lhs.sign rhs.sign))
    else if lhs.coefficient = 0 then
      some (ofParts (productSign lhs.sign rhs.sign) (lhs.exponent - rhs.exponent) 0)
    else divFinite fuel lhs rhs
  | nan, _ => some nan
  | _, nan => some nan
  | infinity _, infinity _ => some nan
  | infinity s, finite rhs => some (infinity (productSign s rhs.sign))
  | finite lhs, infinity t => some (zero (productSign lhs.sign t))

/-! ## Rounding to integers -/

/-- `ceiling` and `floor` for a finite number with a negative exponent. They differ in the sign that is
    rounded away from zero, and in what is returned when no digit is left of the point. -/
def roundToInteger (away : Sign) (d : Finite) (ifFraction : Decimal) : Decimal :=
  let numberOfDigits := countDigits d.coefficient
  let numberOfDropDigits := (-d.exponent).toNat
  if numberOfDigits < numberOfDropDigits then ifFraction
  else
    let result := scaleDown d.coefficient (numberOfDropDigits - 1)
    let result := if d.sign = away ∧ 0 < result % 10 then result + 10 else result
    ofParts d.sign 0 (result / 10)

def ceiling : Decimal → Decimal
  | finite d =>
    if 0 ≤ d.exponent then finite d
    else roundToInteger .positive d (if d.sign = .positive then one .positive else zero .positive)
  | special => special

def floor : Decimal → Decimal
  | finite d =>
    if 0 ≤ d.exponent then finite d
    else roundToInteger .negative d (if d.sign = .positive then zero .positive else one .negative)
  | special => special

def remainder (fuel : Nat) (lhs rhs : Decimal) : Option Decimal := do
  let quotient ← div fuel lhs rhs
  if quotient.isSpecial then return quotient
  return sub lhs (mul (if quotient.isNegative then ceiling quotient else floor quotient) rhs)

/-! ## What the numbers stand for -/

def Sign.toInt : Sign → Int
  | .positive => 1
  | .negative => -1

/-- `sign * coefficient * 10 ^ exponent` -/
def Finite.toRat (d : Finite) : ℚ := d.sign.toInt * d.coefficient * (10 : ℚ) ^ d.exponent

end Decimal

end WebV8
