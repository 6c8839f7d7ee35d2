import Mathlib

/-!
# Edge lists and step functions over a linear order

Two finite descriptions of something that changes at finitely many places of a line.

* An *edge list* describes a set: a point is in the set when an odd number of edges lie at or
  before it (`inside`). A strictly increasing list of even length is a union of disjoint
  half-open intervals, and it is the only strictly increasing list that describes that set
  (`inside_ext`).
* A *step list* describes a function: its value at a point is the value attached to the last
  step at or before the point (`stepAt`). A step list whose places strictly increase and whose
  neighbouring values differ is the only such list for its function (`stepAt_ext`).

Both uniqueness results are what makes comparing two descriptions the same as comparing the
things they describe.
-/

namespace WebV8.Lib

open List

variable {α β : Type*} [LinearOrder α]

/-! ## Edge lists -/

/-- An odd number of the edges lie at or before `x`. -/
def inside : List α → α → Bool
  | [], _ => false
  | a :: l, x => decide (a ≤ x) ^^ inside l x

@[simp] theorem inside_nil (x : α) : inside [] x = false := rfl

@[simp] theorem inside_cons (a : α) (l : List α) (x : α) : inside (a :: l) x = (decide (a ≤ x) ^^ inside l x) := rfl

theorem inside_append (l l' : List α) (x : α) : inside (l ++ l') x = (inside l x ^^ inside l' x) := by
  induction l with
  | nil => simp
  | cons a l ih => simp [ih]

variable {l : List α} {x y y' : α} {d v : β} {rows : List (α × β)} {row : α × β}

theorem inside_of_lt (h : ∀ a ∈ l, x < a) : inside l x = false := by
  induction l with
  | nil => rfl
  | cons a l ih =>
    have hax : ¬ a ≤ x := not_le.mpr (h a (by simp))
    simp [hax, ih fun b hb => h b (by simp [hb])]

theorem inside_of_le (h : ∀ a ∈ l, a ≤ x) : inside l x = decide (l.length % 2 = 1) := by
  induction l with
  | nil => rfl
  | cons a l ih =>
    have hax : a ≤ x := h a (by simp)
    rw [inside_cons, ih fun b hb => h b (by simp [hb])]
    rcases Nat.mod_two_eq_zero_or_one l.length with hl | hl <;>
      simp [hax, length_cons, Nat.add_mod, hl]

theorem exists_le_of_inside (h : inside l x = true) : ∃ a ∈ l, a ≤ x := by
  by_contra hcon
  push Not at hcon
  rw [inside_of_lt hcon] at h
  exact absurd h (by simp)

theorem exists_lt_of_inside (hl : l.length % 2 = 0) (h : inside l x = true) : ∃ a ∈ l, x < a := by
  by_contra hcon
  push Not at hcon
  rw [inside_of_le hcon] at h
  simp [hl] at h

theorem inside_map {γ : Type*} [LinearOrder γ] {f : α → γ} (hf : StrictMono f) (l : List α)
    (x : α) : inside (l.map f) (f x) = inside l x := by
  induction l with
  | nil => rfl
  | cons a l ih => simp [ih, hf.le_iff_le]

/-- **A strictly increasing edge list is determined by the set it describes.** -/
theorem inside_ext : ∀ {l l' : List α}, l.Pairwise (· < ·) → l'.Pairwise (· < ·) →
    (∀ x, inside l x = inside l' x) → l = l'
  | [], [], _, _, _ => rfl
  | [], a :: l, _, hl, h => by
    have ha := h a
    rw [inside_cons, inside_of_lt (pairwise_cons.mp hl).1] at ha
    simp at ha
  | a :: l, [], hl, _, h => by
    have ha := h a
    rw [inside_cons, inside_of_lt (pairwise_cons.mp hl).1] at ha
    simp at ha
  | a :: l, b :: l', hl, hl', h => by
    obtain ⟨hal, hsl⟩ := pairwise_cons.mp hl
    obtain ⟨hbl, hsl'⟩ := pairwise_cons.mp hl'
    -- The smaller head is inside its own list and before every edge of the other one.
    have hab : a = b := by
      rcases lt_trichotomy a b with hlt | heq | hgt
      · have ha := h a
        have hnot : ∀ c ∈ b :: l', a < c := by
          intro c hc
          rcases mem_cons.mp hc with rfl | hc
          · exact hlt
          · exact hlt.trans (hbl c hc)
        rw [inside_of_lt hnot, inside_cons, inside_of_lt hal] at ha
        simp at ha
      · exact heq
      · have hb := h b
        have hnot : ∀ c ∈ a :: l, b < c := by
          intro c hc
          rcases mem_cons.mp hc with rfl | hc
          · exact hgt
          · exact hgt.trans (hal c hc)
        rw [inside_of_lt hnot, inside_cons, inside_of_lt hbl] at hb
        simp at hb
    subst hab
    have htail : ∀ x, inside l x = inside l' x := by
      intro x
      have hx := h x
      rw [inside_cons, inside_cons] at hx
      exact Bool.xor_right_inj.mp hx
    rw [inside_ext hsl hsl' htail]

/-! ## Step lists -/

/-- The value of the last step at or before `y`; `d` before the first step. -/
def stepAt (d : β) : List (α × β) → α → β
  | [], _ => d
  | (y', v) :: rows, y => if y' ≤ y then stepAt v rows y else d

@[simp] theorem stepAt_nil (d : β) (y : α) : stepAt d [] y = d := rfl

theorem stepAt_cons_of_le (h : y' ≤ y) : stepAt d ((y', v) :: rows) y = stepAt v rows y := if_pos h

theorem stepAt_cons_of_lt (h : y < y') : stepAt d ((y', v) :: rows) y = d := if_neg (not_le.mpr h)

def StepSorted (rows : List (α × β)) : Prop := rows.Pairwise (·.1 < ·.1)

/-- Neighbouring values differ, the first one from the default. -/
def StepTight (d : β) (rows : List (α × β)) : Prop :=
  List.IsChain (· ≠ ·) (d :: rows.map Prod.snd)

theorem StepSorted.tail (h : StepSorted (row :: rows)) : StepSorted rows := (pairwise_cons.mp h).2

theorem StepSorted.head_lt {row' : α × β} (h : StepSorted (row :: rows)) (hm : row' ∈ rows) : row.1 < row'.1 :=
  (pairwise_cons.mp h).1 row' hm

omit [LinearOrder α] in
theorem StepTight.head_ne (h : StepTight d (row :: rows)) : row.2 ≠ d := by
  simp only [StepTight, map_cons, isChain_cons_cons] at h
  exact fun he => h.1 he.symm

omit [LinearOrder α] in
theorem StepTight.tail (h : StepTight d (row :: rows)) : StepTight row.2 rows := by
  simp only [StepTight, map_cons, isChain_cons_cons] at h
  exact h.2

theorem stepAt_of_lt (h : ∀ r ∈ rows, y < r.1) : stepAt d rows y = d := by
  cases rows with
  | nil => rfl
  | cons r rows => exact stepAt_cons_of_lt (h r (by simp))

theorem stepAt_mem (d : β) (rows : List (α × β)) (y : α) :
    stepAt d rows y = d ∨ ∃ r ∈ rows, r.1 ≤ y ∧ stepAt d rows y = r.2 := by
  induction rows generalizing d with
  | nil => exact Or.inl rfl
  | cons r rows ih =>
    by_cases hry : r.1 ≤ y
    · rw [show r :: rows = (r.1, r.2) :: rows from rfl, stepAt_cons_of_le hry]
      rcases ih r.2 with h | ⟨r', hr', hle, h⟩
      · exact Or.inr ⟨r, by simp, hry, h⟩
      · exact Or.inr ⟨r', by simp [hr'], hle, h⟩
    · exact Or.inl (stepAt_cons_of_lt (not_le.mp hry))

theorem stepAt_concat (h : ∀ r ∈ rows, r.1 < y')
    (y : α) : stepAt d (rows ++ [(y', v)]) y = if y' ≤ y then v else stepAt d rows y := by
  induction rows generalizing d with
  | nil => rfl
  | cons r rows ih =>
    have hr : r.1 < y' := h r (by simp)
    have hrest := ih (d := r.2) fun r' hr' => h r' (by simp [hr'])
    by_cases hry : r.1 ≤ y
    · rw [cons_append, show r = (r.1, r.2) from rfl, stepAt_cons_of_le hry, stepAt_cons_of_le hry]
      exact hrest
    · have hy' : ¬ y' ≤ y := fun hc => hry (hr.le.trans hc)
      rw [cons_append, show r = (r.1, r.2) from rfl, stepAt_cons_of_lt (not_le.mp hry),
        stepAt_cons_of_lt (not_le.mp hry), if_neg hy']

/-- **A sorted step list without repeated neighbours is determined by its function.** -/
theorem stepAt_ext : ∀ {d : β} {rows rows' : List (α × β)}, StepSorted rows → StepTight d rows →
    StepSorted rows' → StepTight d rows' → (∀ y, stepAt d rows y = stepAt d rows' y) →
    rows = rows'
  | _, [], [], _, _, _, _, _ => rfl
  | d, [], (y, v) :: rows, _, _, hs, ht, h => by
    have hy := h y
    rw [stepAt_nil, stepAt_cons_of_le le_rfl, stepAt_of_lt fun r hr => hs.head_lt hr] at hy
    exact absurd hy.symm ht.head_ne
  | d, (y, v) :: rows, [], hs, ht, _, _, h => by
    have hy := h y
    rw [stepAt_nil, stepAt_cons_of_le le_rfl, stepAt_of_lt fun r hr => hs.head_lt hr] at hy
    exact absurd hy ht.head_ne
  | d, (y, v) :: rows, (y', v') :: rows', hs, ht, hs', ht', h => by
    have hat : stepAt d ((y, v) :: rows) y = v := by
      rw [stepAt_cons_of_le le_rfl, stepAt_of_lt fun r hr => hs.head_lt hr]
    have hat' : stepAt d ((y', v') :: rows') y' = v' := by
      rw [stepAt_cons_of_le le_rfl, stepAt_of_lt fun r hr => hs'.head_lt hr]
    -- At the earlier of the two first places one function has left its default.
    have hy : y = y' := by
      rcases lt_trichotomy y y' with hlt | heq | hgt
      · have hc := h y
        rw [hat, stepAt_cons_of_lt hlt] at hc
        exact absurd hc ht.head_ne
      · exact heq
      · have hc := h y'
        rw [hat', stepAt_cons_of_lt hgt] at hc
        exact absurd hc.symm ht'.head_ne
    subst hy
    have hv : v = v' := by rw [← hat, h y, hat']
    subst hv
    have htail : ∀ t, stepAt v rows t = stepAt v rows' t := by
      intro t
      by_cases hyt : y ≤ t
      · have ht := h t
        rwa [stepAt_cons_of_le hyt, stepAt_cons_of_le hyt] at ht
      · have hty := not_le.mp hyt
        rw [stepAt_of_lt fun r hr => hty.trans (hs.head_lt hr), stepAt_of_lt fun r hr => hty.trans (hs'.head_lt hr)]
    rw [stepAt_ext hs.tail ht.tail hs'.tail ht'.tail htail]

end WebV8.Lib
