import WebV8.WTF.RedBlackFocus

/-!
# What rebalancing keeps

Rotations and colours change the shape of a tree and, through `updateNode`, the summaries in its
nodes. They do not change the sequence of the nodes and of the part of their data that is not a
summary (`entries`), and in a tree whose summaries are all up to date (`UpToDate`) they leave them so.
`Reshaped` is the two together; it holds of a tree when it holds of a subtree.
-/

namespace WebV8

open Lib ColorTree

variable {ι δ σ κ : Type}

/-- What is asked of summaries: `updateNode` keeps the core of the data, computes the rest from the
    core and the summaries of the children, says so if it changes something, and gives the same
    summary before and after a rotation. -/
structure Augmentation.Lawful (aug : Augmentation δ σ) (core : δ → κ) : Prop where
  core_update : ∀ v a b, core (aug.update v a b).1 = core v
  update_congr : ∀ {v w : δ} (a b : Option σ), core v = core w →
    (aug.update v a b).1 = (aug.update w a b).1
  unchanged : ∀ v a b, (aug.update v a b).2 = false → (aug.update v a b).1 = v
  rotate : ∀ v w a b c,
    aug.summary (aug.update w (some (aug.summary (aug.update v a b).1)) c).1 =
      aug.summary (aug.update v a (some (aug.summary (aug.update w b c).1))).1

theorem lawful_none : (Augmentation.none : Augmentation δ Unit).Lawful id :=
  ⟨fun _ _ _ => rfl, fun _ _ h => h, fun _ _ _ _ => rfl, fun _ _ _ _ _ => rfl⟩

section refresh

variable {aug : Augmentation δ σ} {core : δ → κ} (hlaw : aug.Lawful core) (d : Dir)
include hlaw

theorem core_refresh (v : δ) (a b : Option σ) : core (aug.refresh d v a b).1 = core v := by
  cases d with
  | left => exact hlaw.core_update v a b
  | right => exact hlaw.core_update v b a

theorem refresh_congr {v w : δ} (a b : Option σ) (h : core v = core w) :
    (aug.refresh d v a b).1 = (aug.refresh d w a b).1 := by
  cases d with
  | left => exact hlaw.update_congr a b h
  | right => exact hlaw.update_congr b a h

theorem refresh_unchanged (v : δ) (a b : Option σ) (h : (aug.refresh d v a b).2 = false) :
    (aug.refresh d v a b).1 = v := by
  cases d with
  | left => exact hlaw.unchanged v a b h
  | right => exact hlaw.unchanged v b a h

theorem refresh_refresh (v : δ) (a b : Option σ) :
    (aug.refresh d (aug.refresh d v a b).1 a b).1 = (aug.refresh d v a b).1 :=
  refresh_congr hlaw d a b (core_refresh hlaw d v a b)

theorem summary_rotate (v w : δ) (a b c : Option σ) :
    aug.summary (aug.refresh d w (some (aug.summary (aug.refresh d v a b).1)) c).1 =
      aug.summary (aug.refresh d v a (some (aug.summary (aug.refresh d w b c).1))).1 := by
  cases d with
  | left => exact hlaw.rotate v w a b c
  | right => exact (hlaw.rotate w v c b a).symm

end refresh

/-! ## Summaries up to date -/

section upToDate

variable (aug : Augmentation δ σ)

def UpToDate : ColorTree (ι × δ) → Prop
  | nil => True
  | node _ l a r =>
    (aug.update a.2 (summaryOf aug l) (summaryOf aug r)).1 = a.2 ∧ UpToDate l ∧ UpToDate r

/-- Updating a node around the hole would change nothing, if the subtree in it had that summary. -/
def CtxUpToDate : List (Frame (ι × δ)) → Option σ → Prop
  | [], _ => True
  | f :: ctx, s =>
    (aug.refresh f.dir f.label.2 s (summaryOf aug f.sibling)).1 = f.label.2 ∧ UpToDate aug f.sibling ∧
      CtxUpToDate ctx (some (aug.summary f.label.2))

variable {aug} {T : ColorTree (ι × δ)}

theorem upToDate_branch {d : Dir} {c : Color} {A B : ColorTree (ι × δ)} {x : ι} {v : δ} :
    UpToDate aug (branch d c A (x, v) B) ↔
      (aug.refresh d v (summaryOf aug A) (summaryOf aug B)).1 = v ∧ UpToDate aug A ∧ UpToDate aug B := by
  cases d with
  | left => exact Iff.rfl
  | right => exact and_congr_right fun _ => and_comm

theorem upToDate_plug {ctx : List (Frame (ι × δ))} :
    UpToDate aug (plug ctx T) ↔ UpToDate aug T ∧ CtxUpToDate aug ctx (summaryOf aug T) := by
  induction ctx generalizing T with
  | nil => exact (and_iff_left trivial).symm
  | cons f ctx ih =>
    obtain ⟨d, c, ⟨x, v⟩, B⟩ := f
    rw [plug_cons, ih, Frame.fill, upToDate_branch, summaryOf_branch, CtxUpToDate]
    constructor
    · rintro ⟨⟨hv, hA, hB⟩, hctx⟩
      exact ⟨hA, hv, hB, hctx⟩
    · rintro ⟨hA, hv, hB, hctx⟩
      exact ⟨⟨hv, hA, hB⟩, hctx⟩

theorem ctxUpToDate_append {ctx₁ ctx₂ : List (Frame (ι × δ))} :
    CtxUpToDate aug (ctx₁ ++ ctx₂) (summaryOf aug T) ↔
      CtxUpToDate aug ctx₁ (summaryOf aug T) ∧ CtxUpToDate aug ctx₂ (summaryOf aug (plug ctx₁ T)) := by
  induction ctx₁ generalizing T with
  | nil => exact (and_iff_right trivial).symm
  | cons f ctx₁ ih =>
    have hfill : summaryOf aug (f.fill T) = some (aug.summary f.label.2) := by
      rw [Frame.fill, summaryOf, root?_branch]
      rfl
    rw [List.cons_append, CtxUpToDate, CtxUpToDate, plug_cons, ← hfill, ih, and_assoc, and_assoc]

theorem summaryOf_plug_congr (ctx : List (Frame (ι × δ))) {T' : ColorTree (ι × δ)}
    (h : summaryOf aug T' = summaryOf aug T) : summaryOf aug (plug ctx T') = summaryOf aug (plug ctx T) := by
  induction ctx generalizing T T' with
  | nil => exact h
  | cons f ctx ih =>
    refine ih ?_
    rw [Frame.fill, Frame.fill, summaryOf, summaryOf, root?_branch, root?_branch]

theorem upToDate_none (T : ColorTree (ι × δ)) : UpToDate Augmentation.none T := by
  induction T with
  | nil => trivial
  | node c l a r ihl ihr => exact ⟨rfl, ihl, ihr⟩

theorem ctxUpToDate_none (ctx : List (Frame (ι × δ))) (s : Option Unit) : CtxUpToDate Augmentation.none ctx s := by
  induction ctx generalizing s with
  | nil => trivial
  | cons f ctx ih =>
    refine ⟨?_, upToDate_none _, ih _⟩
    cases f.dir <;> rfl

end upToDate

/-! ## The sequence of the entries -/

variable (core : δ → κ)

def entries (T : ColorTree (ι × δ)) : List (ι × κ) := T.inorder.map fun a => (a.1, core a.2)

def entriesBefore (ctx : List (Frame (ι × δ))) : List (ι × κ) :=
  (before ctx).map fun a => (a.1, core a.2)

def entriesAfter (ctx : List (Frame (ι × δ))) : List (ι × κ) :=
  (after ctx).map fun a => (a.1, core a.2)

variable {core}

theorem entries_plug (ctx : List (Frame (ι × δ))) (T : ColorTree (ι × δ)) :
    entries core (plug ctx T) = entriesBefore core ctx ++ entries core T ++ entriesAfter core ctx := by
  simp [entries, entriesBefore, entriesAfter, inorder_plug]

@[simp] theorem entries_nil : entries core (nil : ColorTree (ι × δ)) = [] := rfl

theorem entries_node (c : Color) (A B : ColorTree (ι × δ)) (x : ι) (v : δ) :
    entries core (node c A (x, v) B) = entries core A ++ (x, core v) :: entries core B := by
  simp [entries]

@[simp] theorem entries_left (c : Color) (A B : ColorTree (ι × δ)) (x : ι) (v : δ) :
    entries core (branch .left c A (x, v) B) = entries core A ++ (x, core v) :: entries core B := by
  simp [entries, branch]

@[simp] theorem entries_right (c : Color) (A B : ColorTree (ι × δ)) (x : ι) (v : δ) :
    entries core (branch .right c A (x, v) B) = entries core B ++ (x, core v) :: entries core A := by
  simp [entries, branch]

theorem ids_eq_entries (T : ColorTree (ι × δ)) : ids T = ((entries core T).map Prod.fst : List ι) := by
  rw [entries, List.map_map]
  rfl

theorem entries_branch_congr {d : Dir} {c c' : Color} {A A' B B' : ColorTree (ι × δ)} {x : ι}
    {v v' : δ} (hA : entries core A' = entries core A) (hB : entries core B' = entries core B)
    (hv : core v' = core v) : entries core (branch d c' A' (x, v') B') = entries core (branch d c A (x, v) B) := by
  cases d <;> simp [hA, hB, hv]

section rotated

variable {aug : Augmentation δ σ} (hlaw : aug.Lawful core) {d : Dir} {A B C : ColorTree (ι × δ)}
  {x y : ι} {v w : δ}
include hlaw

theorem entries_rotated (c₁ c₂ c₃ c₄ : Color) : entries core (rotated aug d c₃ c₄ A B C x y v w) =
    entries core (branch d c₁ A (x, v) (branch d c₂ B (y, w) C)) := by
  have hcore := core_refresh hlaw d
  cases d <;> simp [rotated, hcore]

theorem upToDate_rotated {c₁ c₂ : Color} (hA : UpToDate aug A) (hB : UpToDate aug B)
    (hC : UpToDate aug C) : UpToDate aug (rotated aug d c₁ c₂ A B C x y v w) := by
  rw [rotated, upToDate_branch, upToDate_branch, summaryOf_branch]
  exact ⟨refresh_refresh hlaw d _ _ _, ⟨refresh_refresh hlaw d _ _ _, hA, hB⟩, hC⟩

end rotated

/-! ## Reshaping -/

/-- The second tree has the entries of the first, and its summaries are up to date, with the same
    summary of the whole, if they were. -/
structure Reshaped (aug : Augmentation δ σ) (core : δ → κ) (T T' : ColorTree (ι × δ)) : Prop where
  entries_eq : entries core T' = entries core T
  upToDate : UpToDate aug T → UpToDate aug T' ∧ summaryOf aug T' = summaryOf aug T

namespace Reshaped

variable {aug : Augmentation δ σ} {T T' T'' A A' B B' C : ColorTree (ι × δ)} {d : Dir} {c c' : Color}
  {x : ι} {v : δ}

theorem refl (T : ColorTree (ι × δ)) : Reshaped aug core T T := ⟨rfl, fun h => ⟨h, rfl⟩⟩

theorem trans (h : Reshaped aug core T T') (h' : Reshaped aug core T' T'') : Reshaped aug core T T'' := by
  refine ⟨h'.entries_eq.trans h.entries_eq, fun hT => ?_⟩
  obtain ⟨hT', hs⟩ := h.upToDate hT
  obtain ⟨hT'', hs'⟩ := h'.upToDate hT'
  exact ⟨hT'', hs'.trans hs⟩

theorem plug (h : Reshaped aug core T T') (ctx : List (Frame (ι × δ))) :
    Reshaped aug core (Lib.plug ctx T) (Lib.plug ctx T') := by
  refine ⟨?_, fun hT => ?_⟩
  · rw [entries_plug, entries_plug, h.entries_eq]
  · obtain ⟨hT, hctx⟩ := upToDate_plug.mp hT
    obtain ⟨hT', hs⟩ := h.upToDate hT
    exact ⟨upToDate_plug.mpr ⟨hT', hs ▸ hctx⟩, summaryOf_plug_congr ctx hs⟩

theorem branch (hA : Reshaped aug core A A') (hB : Reshaped aug core B B') :
    Reshaped aug core (branch d c A (x, v) B) (branch d c' A' (x, v) B') := by
  refine ⟨entries_branch_congr hA.entries_eq hB.entries_eq rfl, fun hT => ?_⟩
  obtain ⟨hv, hfA, hfB⟩ := upToDate_branch.mp hT
  obtain ⟨hfA', hsA⟩ := hA.upToDate hfA
  obtain ⟨hfB', hsB⟩ := hB.upToDate hfB
  refine ⟨upToDate_branch.mpr ⟨?_, hfA', hfB'⟩, ?_⟩
  · rw [hsA, hsB, hv]
  · rw [summaryOf_branch, summaryOf_branch]

theorem blacken (T : ColorTree (ι × δ)) : Reshaped aug core T T.blacken := by
  cases T with
  | nil => exact refl _
  | node c l a r => exact branch (d := .left) (refl l) (refl r)

theorem rotated (hlaw : aug.Lawful core) (c₁ c₂ : Color) {c₃ c₄ : Color} {y : ι} {w : δ} :
    Reshaped aug core (ColorTree.branch d c₁ A (x, v) (ColorTree.branch d c₂ B (y, w) C))
      (WebV8.rotated aug d c₃ c₄ A B C x y v w) := by
  refine ⟨entries_rotated hlaw c₁ c₂ c₃ c₄, fun hT => ?_⟩
  obtain ⟨hx, hA, hT⟩ := upToDate_branch.mp hT
  obtain ⟨hy, hB, hC⟩ := upToDate_branch.mp hT
  rw [summaryOf_branch] at hx
  refine ⟨upToDate_rotated hlaw hA hB hC, ?_⟩
  rw [WebV8.rotated, summaryOf_branch, summaryOf_branch, summary_rotate hlaw, hy, hx]

end Reshaped

end WebV8
