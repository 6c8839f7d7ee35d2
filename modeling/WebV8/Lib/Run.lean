import Mathlib

/-!
# Runs of a partial, deterministic step function

A component with operations is a step function: it takes a state and an operation to the next
state, or to `none` where the code it models goes wrong. A run applies a list of operations.

A property of runs is proved from one step lemma. `run_simulates` is the rule for refinement: if
each step the environment allows succeeds and keeps a relation to an abstract state, then so does
the whole run. `along_iff_eachStep` is the rule for an exact condition: if a step keeps a property
precisely when it satisfies a condition, a run keeps it throughout precisely when all its steps do.
-/

namespace WebV8.Lib

variable {σ ο α : Type*}

def run (step : σ → ο → Option σ) : σ → List ο → Option σ
  | s, [] => some s
  | s, o :: os => (step s o).bind fun s' => run step s' os

/-- Every step of the run, as far as it gets, is one that `Q` allows. -/
def EachStep (step : σ → ο → Option σ) (Q : σ → ο → Prop) : σ → List ο → Prop
  | _, [] => True
  | s, o :: os => Q s o ∧ ∀ s', step s o = some s' → EachStep step Q s' os

/-- No step fails and every state of the run, the first and the last included, satisfies `P`. -/
def Along (step : σ → ο → Option σ) (P : σ → Prop) : σ → List ο → Prop
  | s, [] => P s
  | s, o :: os => P s ∧ ∃ s', step s o = some s' ∧ Along step P s' os

variable {step : σ → ο → Option σ} {Q : σ → ο → Prop} {Inv P : σ → Prop}

@[simp] theorem run_nil (s : σ) : run step s [] = some s := rfl

theorem run_cons {s s' : σ} {o : ο} (h : step s o = some s') (os : List ο) :
    run step s (o :: os) = run step s' os := by
  rw [run, h]
  rfl

theorem run_concat (s : σ) (os : List ο) (o : ο) :
    run step s (os ++ [o]) = (run step s os).bind fun s' => step s' o := by
  induction os generalizing s with
  | nil =>
    rw [List.nil_append, run_nil, Option.bind_some, run]
    exact Option.bind_fun_some _
  | cons o' os ih =>
    rw [List.cons_append, run, run, Option.bind_assoc]
    congr 1
    funext s'
    exact ih s'

theorem eachStep_of_forall (h : ∀ s o, Q s o) :
    ∀ (s : σ) (os : List ο), EachStep step Q s os
  | _, [] => trivial
  | s, o :: os => ⟨h s o, fun s' _ => eachStep_of_forall h s' os⟩

theorem Along.head {s : σ} : ∀ {os : List ο}, Along step P s os → P s
  | [], h => h
  | _ :: _, h => h.1

theorem Along.last {s s' : σ} :
    ∀ {os : List ο}, Along step P s os → run step s os = some s' → P s'
  | [], h, hrun => Option.some.inj hrun ▸ h
  | _ :: os, ⟨_, _, hstep, hrest⟩, hrun => hrest.last (run_cons hstep os ▸ hrun)

theorem Along.mono {P' : σ → Prop} (h : ∀ s, P s → P' s) {s : σ} :
    ∀ {os : List ο}, Along step P s os → Along step P' s os
  | [], hs => h s hs
  | _ :: _, ⟨hs, s', hstep, hrest⟩ => ⟨h s hs, s', hstep, hrest.mono h⟩

/-- **The refinement rule**: a relation kept by every allowed step is kept by every allowed run,
    and the run does not fail. -/
theorem run_simulates {astep : α → ο → α} {R : σ → α → Prop}
    (hstep : ∀ s a o, R s a → Q s o → ∃ s', step s o = some s' ∧ R s' (astep a o)) :
    ∀ {s : σ} {a : α} (os : List ο), R s a → EachStep step Q s os →
      ∃ s', run step s os = some s' ∧ R s' (os.foldl astep a)
  | s, _, [], hR, _ => ⟨s, rfl, hR⟩
  | s, a, o :: os, hR, hQ => by
    obtain ⟨s₁, hs, hR₁⟩ := hstep s a o hR hQ.1
    obtain ⟨s₂, hrun, hR₂⟩ := run_simulates hstep os hR₁ (hQ.2 s₁ hs)
    exact ⟨s₂, by rw [run_cons hs, hrun], hR₂⟩

/-- **The exact rule**: if, under the invariant, an allowed step keeps `P` exactly when it
    satisfies `C`, an allowed run keeps `P` throughout exactly when all its steps satisfy `C`. -/
theorem along_iff_eachStep {C : σ → ο → Prop}
    (hstep : ∀ s o, Inv s → P s → Q s o → ∃ s', step s o = some s' ∧ Inv s' ∧ (P s' ↔ C s o)) :
    ∀ {s : σ} (os : List ο), Inv s → P s → EachStep step Q s os → (Along step P s os ↔ EachStep step C s os)
  | _, [], _, hP, _ => iff_of_true hP trivial
  | s, o :: os, hI, hP, hQ => by
    obtain ⟨s₁, hs, hI₁, hC⟩ := hstep s o hI hP hQ.1
    constructor
    · rintro ⟨-, s₂, hs₂, halo⟩
      obtain rfl : s₁ = s₂ := by rw [hs] at hs₂; exact Option.some.inj hs₂
      have hP₁ : P s₁ := halo.head
      refine ⟨hC.mp hP₁, fun s' hs' => ?_⟩
      obtain rfl : s₁ = s' := by rw [hs] at hs'; exact Option.some.inj hs'
      exact (along_iff_eachStep hstep os hI₁ hP₁ (hQ.2 s₁ hs)).mp halo
    · rintro ⟨hc, hrest⟩
      have hP₁ : P s₁ := hC.mpr hc
      exact ⟨hP, s₁, hs, (along_iff_eachStep hstep os hI₁ hP₁ (hQ.2 s₁ hs)).mpr (hrest s₁ hs)⟩

/-- **The invariant rule**: if an allowed step from a state with the invariant succeeds, keeps the invariant and
    satisfies `R`, then an allowed run has the invariant throughout and all its steps satisfy `R`. -/
theorem along_and_eachStep {R : σ → ο → Prop}
    (hstep : ∀ s o, Inv s → Q s o → R s o ∧ ∃ s', step s o = some s' ∧ Inv s') :
    ∀ {s : σ} (os : List ο), Inv s → EachStep step Q s os → Along step Inv s os ∧ EachStep step R s os
  | _, [], hI, _ => ⟨hI, trivial⟩
  | s, o :: os, hI, hQ => by
    obtain ⟨hR, s₁, hs, hI₁⟩ := hstep s o hI hQ.1
    obtain ⟨halo, hste⟩ := along_and_eachStep hstep os hI₁ (hQ.2 s₁ hs)
    refine ⟨⟨hI, s₁, hs, halo⟩, hR, fun s' hs' => ?_⟩
    obtain rfl : s₁ = s' := by rw [hs] at hs'; exact Option.some.inj hs'
    exact hste

/-- Two properties that agree on the states with an invariant hold along the same runs, if a step from a state with
    the second keeps the invariant. -/
theorem along_iff_along {F : σ → Prop} (hiff : ∀ s, Inv s → (P s ↔ F s))
    (hstep : ∀ s o s', Inv s → Q s o → step s o = some s' → Inv s') :
    ∀ {s : σ} (os : List ο), Inv s → EachStep step Q s os → (Along step P s os ↔ Along step F s os)
  | s, [], hI, _ => hiff s hI
  | s, o :: os, hI, hQ => by
    refine and_congr (hiff s hI) (exists_congr fun s' => and_congr_right fun hs => ?_)
    exact along_iff_along hiff hstep os (hstep s o s' hI hQ.1 hs) (hQ.2 s' hs)

theorem run_keeps (hstep : ∀ s o s', Inv s → Q s o → step s o = some s' → Inv s') :
    ∀ {s s' : σ} (os : List ο), Inv s → EachStep step Q s os → run step s os = some s' → Inv s'
  | _, _, [], hI, _, hrun => Option.some.inj hrun ▸ hI
  | s, s', o :: os, hI, hQ, hrun => by
    obtain ⟨s₁, hs, hrest⟩ := Option.bind_eq_some_iff.mp hrun
    exact run_keeps hstep os (hstep s o s₁ hI hQ.1 hs) (hQ.2 s₁ hs) hrest

theorem eachStep_congr {R C : σ → ο → Prop}
    (hinv : ∀ s o s', Inv s → Q s o → C s o → step s o = some s' → Inv s')
    (h : ∀ s o, Inv s → Q s o → (R s o ↔ C s o)) :
    ∀ {s : σ} (os : List ο), Inv s → EachStep step Q s os → (EachStep step R s os ↔ EachStep step C s os)
  | _, [], _, _ => Iff.rfl
  | s, o :: os, hI, hQ => by
    rw [EachStep, EachStep, h s o hI hQ.1]
    refine and_congr_right fun hC => forall₂_congr fun s' hs => ?_
    exact eachStep_congr hinv h os (hinv s o s' hI hQ.1 hC hs) (hQ.2 s' hs)

end WebV8.Lib
