import Mathlib

/-! # Computations that may crash

A computation that ends with a deliberate crash does no harm; one whose behaviour is undefined may do anything.
`Ends` is the weakest condition on the result: the postcondition if there is a result, and no undefined behaviour.
-/

namespace WebV8.Lib

inductive Stop where
  | crash
  | undefined
  deriving DecidableEq, Repr

variable {α β : Type} {c : Except Stop α} {Q : α → Prop}

/-- The computation crashes, or its result satisfies the postcondition. -/
def Ends (c : Except Stop α) (Q : α → Prop) : Prop :=
  match c with
  | .ok a => Q a
  | .error .crash => True
  | .error .undefined => False

theorem Ends.crash : Ends (throw .crash) Q := trivial

theorem Ends.mono {R : α → Prop} (h : Ends c Q) (hQR : ∀ a, Q a → R a) : Ends c R := by
  match c, h with
  | .ok a, h => exact hQR a h
  | .error .crash, _ => trivial

theorem Ends.bind {R : β → Prop} {f : α → Except Stop β} (h : Ends c Q)
    (hf : ∀ a, Q a → Ends (f a) R) : Ends (c >>= f) R := by
  match c, h with
  | .ok a, h => exact hf a h
  | .error .crash, _ => trivial

end WebV8.Lib
