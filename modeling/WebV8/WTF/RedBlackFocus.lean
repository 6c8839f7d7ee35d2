import WebV8.Lib.Cells
import WebV8.WTF.RedBlackLinks

/-!
# Linked nodes as trees

The nodes in memory and the functional trees of `Lib.RedBlack`, whose labels are an address and the
data at it. `Focus m t ctx T` says that the linked tree `t` is the tree `plug ctx T`: every node
of it is in memory once, with the links, the colour and the data that it has there, and the rest of
the memory is `m`. The position of the hole is where the algorithm looks; it is moved without a change
of memory (`focus_branch`, `focus_branch_flip`).

Every statement of the source that changes links is a lemma here about what it does at the focus:
colouring, updating, rotating, hanging a leaf, unlinking.
-/

namespace WebV8

open Lib ColorTree

variable {ι δ σ : Type}

/-! ## Nodes seen from one side -/

/-- The node whose child on side `d` is `a` and whose other child is `b`. -/
def LinkedNode.ofSides (d : Dir) (a b parent : Option ι) (c : Color) (v : δ) : LinkedNode ι δ :=
  match d with
  | .left => ⟨a, b, parent, c, v⟩
  | .right => ⟨b, a, parent, c, v⟩

section ofSides

variable (d : Dir) (a b p q : Option ι) (c k : Color) (v w : δ)

open LinkedNode

@[simp] theorem child_ofSides : (ofSides d a b p c v).child d = a := by cases d <;> rfl

@[simp] theorem child_flip_ofSides : (ofSides d a b p c v).child d.flip = b := by cases d <;> rfl

@[simp] theorem parent_ofSides : (ofSides d a b p c v).parent = p := by cases d <;> rfl

@[simp] theorem color_ofSides : (ofSides d a b p c v).color = c := by cases d <;> rfl

@[simp] theorem data_ofSides : (ofSides d a b p c v).data = v := by cases d <;> rfl

@[simp] theorem setChild_ofSides : (ofSides d a b p c v).setChild d q = ofSides d q b p c v := by
  cases d <;> rfl

@[simp] theorem setChild_flip_ofSides : (ofSides d a b p c v).setChild d.flip q = ofSides d a q p c v := by
  cases d <;> rfl

@[simp] theorem setParent_ofSides : { ofSides d a b p c v with parent := q } = ofSides d a b q c v := by
  cases d <;> rfl

@[simp] theorem setColor_ofSides : { ofSides d a b p c v with color := k } = ofSides d a b p k v := by
  cases d <;> rfl

@[simp] theorem setData_ofSides : { ofSides d a b p c v with data := w } = ofSides d a b p c w := by
  cases d <;> rfl

end ofSides

/-! ## The cells of a tree -/

/-- The address of the root of a tree, and of the node above a hole. -/
def rootId (T : ColorTree (ι × δ)) : Option ι := T.root?.map Prod.fst

def aboveId (ctx : List (Frame (ι × δ))) : Option ι := (above? ctx).map Prod.fst

variable {T : ColorTree (ι × δ)} {p : Option ι} {S : Multiset (ι × LinkedNode ι δ)}
    {n : LinkedNode ι δ}

@[simp] theorem rootId_nil : rootId (nil : ColorTree (ι × δ)) = none := rfl

@[simp] theorem rootId_branch (d : Dir) (c : Color) (A : ColorTree (ι × δ)) (x : ι) (v : δ)
    (B : ColorTree (ι × δ)) : rootId (branch d c A (x, v) B) = some x := by
  simp [rootId]

theorem exists_rootId (h : T ≠ nil) : ∃ x, rootId T = some x := by
  cases T with
  | nil => exact absurd rfl h
  | node c l a r => exact ⟨a.1, rfl⟩

@[simp] theorem aboveId_nil : aboveId ([] : List (Frame (ι × δ))) = none := rfl

@[simp] theorem aboveId_cons (f : Frame (ι × δ)) (ctx : List (Frame (ι × δ))) :
    aboveId (f :: ctx) = some f.label.1 := rfl

def treeCells : Option ι → ColorTree (ι × δ) → Multiset (ι × LinkedNode ι δ)
  | _, nil => 0
  | p, node c l (x, v) r =>
    {(x, ⟨rootId l, rootId r, p, c, v⟩)} + treeCells (some x) l + treeCells (some x) r

def ctxCells : List (Frame (ι × δ)) → Option ι → Multiset (ι × LinkedNode ι δ)
  | [], _ => 0
  | f :: ctx, hole =>
    {(f.label.1, .ofSides f.dir hole (rootId f.sibling) (aboveId ctx) f.color f.label.2)} +
      treeCells (some f.label.1) f.sibling + ctxCells ctx (some f.label.1)

/-- The root of the tree around a hole in which a link is. -/
def topId : List (Frame (ι × δ)) → Option ι → Option ι
  | [], hole => hole
  | f :: ctx, _ => topId ctx (some f.label.1)

/-- The linked tree is `plug ctx T`, and the memory outside is `m`. -/
structure Focus (m : ι → LinkedNode ι δ) (t : LinkedTree ι δ) (ctx : List (Frame (ι × δ)))
    (T : ColorTree (ι × δ)) : Prop where
  root : t.root = topId ctx (rootId T)
  cells : Cells m t.node (treeCells (aboveId ctx) T + ctxCells ctx (rootId T))

def ids (T : ColorTree (ι × δ)) : Multiset ι := (T.inorder.map Prod.fst : List ι)

theorem treeCells_branch (d : Dir) (c : Color) (A B : ColorTree (ι × δ)) (x : ι) (v : δ) (p : Option ι) :
    treeCells p (branch d c A (x, v) B) = {(x, .ofSides d (rootId A) (rootId B) p c v)} +
      treeCells (some x) A + treeCells (some x) B := by
  cases d with
  | left => rfl
  | right => exact add_right_comm _ _ _

theorem map_fst_treeCells (p : Option ι) (T : ColorTree (ι × δ)) : (treeCells p T).map Prod.fst = ids T := by
  induction T generalizing p with
  | nil => rfl
  | node c l a r ihl ihr =>
    obtain ⟨x, v⟩ := a
    simp only [treeCells, Multiset.map_add, ihl, ihr, Multiset.map_singleton, ids, inorder_node,
      List.map_append, List.map_cons, ← Multiset.coe_add, ← Multiset.cons_coe,
      ← Multiset.singleton_add]
    abel

theorem mem_treeCells_of_rootId {x : ι} (h : rootId T = some x) : x ∈ (treeCells p T).map Prod.fst := by
  cases T with
  | nil => cases h
  | node c l a r =>
    obtain rfl : a.1 = x := by simpa [rootId] using h
    simp [treeCells]

theorem topId_mem_ctxCells (f : Frame (ι × δ)) (ctx : List (Frame (ι × δ))) (hole : Option ι) :
    ∃ x ∈ (ctxCells (f :: ctx) hole).map Prod.fst, topId (f :: ctx) hole = some x := by
  induction ctx generalizing f hole with
  | nil => exact ⟨f.label.1, by simp [ctxCells], rfl⟩
  | cons g ctx ih =>
    obtain ⟨x, hx, htop⟩ := ih g (some f.label.1)
    refine ⟨x, ?_, htop⟩
    rw [ctxCells, Multiset.map_add, Multiset.mem_add]
    exact .inr hx

/-! ## Moving the focus -/

variable {m : ι → LinkedNode ι δ} {t : LinkedTree ι δ} {ctx : List (Frame (ι × δ))}
  {T A B C : ColorTree (ι × δ)} {d : Dir} {c : Color} {x y z : ι} {v w : δ}

theorem focus_branch : Focus m t ctx (branch d c A (x, v) B) ↔ Focus m t (⟨d, c, (x, v), B⟩ :: ctx) A := by
  have hcel : treeCells (aboveId ctx) (branch d c A (x, v) B) + ctxCells ctx (some x) =
      treeCells (some x) A + ctxCells (⟨d, c, (x, v), B⟩ :: ctx) (rootId A) := by
    rw [treeCells_branch, ctxCells]
    abel
  constructor
  · rintro ⟨hroot, hmem⟩
    rw [rootId_branch] at hroot hmem
    exact ⟨hroot, hcel ▸ hmem⟩
  · rintro ⟨hroot, hmem⟩
    refine ⟨?_, ?_⟩
    · rw [rootId_branch]
      exact hroot
    · rw [rootId_branch, hcel]
      exact hmem

theorem focus_branch_flip : Focus m t ctx (branch d c A (x, v) B) ↔
    Focus m t (⟨d.flip, c, (x, v), A⟩ :: ctx) B := by
  rw [← branch_flip, focus_branch]

theorem Focus.left (h : Focus m t ctx (node c A (x, v) B)) : Focus m t (⟨.left, c, (x, v), B⟩ :: ctx) A :=
  (focus_branch).mp h

theorem Focus.right (h : Focus m t ctx (node c A (x, v) B)) : Focus m t (⟨.right, c, (x, v), A⟩ :: ctx) B :=
  (focus_branch).mp h

theorem focus_plug : ∀ {ctx ctx' : List (Frame (ι × δ))} {T : ColorTree (ι × δ)},
    Focus m t ctx' (plug ctx T) ↔ Focus m t (ctx ++ ctx') T := by
  intro ctx
  induction ctx with
  | nil => exact Iff.rfl
  | cons f ctx ih =>
    intro ctx' T
    exact ih.trans focus_branch

theorem focus_root : Focus m t [] (plug ctx T) ↔ Focus m t ctx T := by
  rw [focus_plug, List.append_nil]

theorem ids_plug (ctx : List (Frame (ι × δ))) (T : ColorTree (ι × δ)) (p hole : Option ι) :
    ids (plug ctx T) = (treeCells p T + ctxCells ctx hole).map Prod.fst := by
  induction ctx generalizing T p hole with
  | nil => rw [plug_nil, ctxCells, add_zero, map_fst_treeCells]
  | cons f ctx ih =>
    obtain ⟨d, c, ⟨x, v⟩, B⟩ := f
    rw [plug_cons, ih _ none (some x), Frame.fill, treeCells_branch, ctxCells]
    simp only [Multiset.map_add, map_fst_treeCells, Multiset.map_singleton]
    abel

/-! ## Reading -/

theorem Focus.node_eq (h : Focus m t ctx (branch d c A (x, v) B)) :
    t.node x = .ofSides d (rootId A) (rootId B) (aboveId ctx) c v := by
  have hcel := h.cells
  rw [treeCells_branch, add_assoc, add_assoc] at hcel
  exact hcel.read

theorem Focus.record_eq (h : Focus m t ctx (node c A (x, v) B)) :
    t.node x = ⟨rootId A, rootId B, aboveId ctx, c, v⟩ :=
  Focus.node_eq (d := .left) h

theorem Focus.notMem_right (h : Focus m t ctx (node c A (x, v) B)) : x ∉ ids B := by
  have hcel := h.cells
  rw [treeCells, add_assoc, add_assoc] at hcel
  have hx := hcel.notMem
  simp only [Multiset.map_add, Multiset.mem_add, map_fst_treeCells, not_or] at hx
  exact hx.2.1

theorem Focus.above_eq (h : Focus m t (⟨d, c, (x, v), B⟩ :: ctx) A) :
    t.node x = .ofSides d (rootId A) (rootId B) (aboveId ctx) c v :=
  (focus_branch.mpr h).node_eq

theorem Focus.outside (h : Focus m t [] T) (hx : x ∉ ids T) : t.node x = m x := by
  refine h.cells.outside x ?_
  simpa [ctxCells, map_fst_treeCells] using hx

theorem Focus.nodup (h : Focus m t [] T) : (T.inorder.map Prod.fst).Nodup := by
  have hnod := h.cells.nodup
  rw [← ids_plug [] T] at hnod
  exact Multiset.coe_nodup.mp hnod

theorem Focus.data_eq (h : Focus m t [] T) (hx : (x, v) ∈ T.inorder) : (t.node x).data = v := by
  obtain ⟨ctx, c, l, r, rfl⟩ := exists_plug_of_mem hx
  rw [(focus_plug.mp h).record_eq]

theorem isBlack_rootId
    (h : Cells m t.node (treeCells p T + S)) : t.isBlack (rootId T) = (T.rootColor == .black) := by
  cases T with
  | nil => rfl
  | node c l a r =>
    obtain ⟨x, v⟩ := a
    rw [treeCells, add_assoc, add_assoc] at h
    change ((t.node x).color == .black) = _
    rw [h.read]
    rfl

theorem Focus.isBlack (h : Focus m t ctx T) : t.isBlack (rootId T) = (T.rootColor == .black) :=
  isBlack_rootId h.cells

theorem parent_rootId
    (h : Cells m t.node (treeCells p T + S)) (hx : rootId T = some x) : (t.node x).parent = p := by
  cases T with
  | nil => cases hx
  | node c l a r =>
    obtain ⟨y, v⟩ := a
    obtain rfl : y = x := by simpa [rootId] using hx
    rw [treeCells, add_assoc, add_assoc] at h
    rw [h.read]

theorem Focus.exists_root (h : Focus m t ctx T) (hx : rootId T = some x) :
    ∃ r, t.root = some r ∧ (t.node r).parent = none := by
  have htop := focus_root.mpr h
  obtain ⟨r, hr⟩ : ∃ r, t.root = some r := by
    cases ctx with
    | nil => exact ⟨x, h.root.trans hx⟩
    | cons f ctx =>
      obtain ⟨r, -, hr⟩ := topId_mem_ctxCells f ctx (rootId T)
      exact ⟨r, h.root.trans hr⟩
  exact ⟨r, hr, parent_rootId htop.cells (htop.root.symm.trans hr)⟩

theorem Focus.rootId_ne (h : Focus m t (⟨d, c, (x, v), B⟩ :: ctx) A) (hy : rootId A = some y) :
    rootId B ≠ some y := by
  intro hB
  have hcel := h.cells
  rw [ctxCells, show ∀ S S' S'' S''' : Multiset (ι × LinkedNode ι δ),
    S + (S' + S'' + S''') = S + (S'' + (S' + S''')) by intros; abel] at hcel
  refine hcel.disjoint (mem_treeCells_of_rootId hy) ?_
  rw [Multiset.map_add, Multiset.mem_add]
  exact .inl (mem_treeCells_of_rootId hB)

theorem Focus.root_ne (h : Focus m t ctx T) (hctx : ctx ≠ []) : t.root ≠ rootId T := by
  obtain ⟨f, ctx, rfl⟩ := List.exists_cons_of_ne_nil hctx
  obtain ⟨y, hy, htop⟩ := topId_mem_ctxCells f ctx (rootId T)
  rw [h.root, htop]
  intro heq
  exact h.cells.disjoint (mem_treeCells_of_rootId heq.symm) hy

/-! ## Writing -/

variable [DecidableEq ι]

theorem Focus.side_eq (h : Focus m t (⟨d, c, (x, v), B⟩ :: ctx) A) (hne : rootId A ≠ rootId B) :
    (if rootId A = (t.node x).left then Dir.left else Dir.right) = d := by
  have hnode := h.above_eq
  cases d with
  | left => rw [hnode]; exact if_pos rfl
  | right => rw [hnode]; exact if_neg hne

theorem cells_modify (h : Cells m t.node ({(x, n)} + S)) (f : LinkedNode ι δ → LinkedNode ι δ) :
    Cells m (t.modify x f).node ({(x, f n)} + S) := by
  have hwri := h.write (f n)
  rw [← h.read] at hwri ⊢
  exact hwri

theorem node_modify_of_ne {f : LinkedNode ι δ → LinkedNode ι δ} (h : y ≠ x) : (t.modify x f).node y = t.node y :=
  Function.update_of_ne h ..

theorem modify_modify (t : LinkedTree ι δ) (x : ι) (f g : LinkedNode ι δ → LinkedNode ι δ) :
    (t.modify x f).modify x g = t.modify x fun n => g (f n) := by
  simp [LinkedTree.modify]

@[simp] theorem root_setParentIf (t : LinkedTree ι δ) (x p : Option ι) : (t.setParentIf x p).root = t.root := by
  cases x <;> rfl

theorem cells_setParentIf (h : Cells m t.node (treeCells p T + S)) (q : Option ι) :
    Cells m (t.setParentIf (rootId T) q).node (treeCells q T + S) := by
  cases T with
  | nil => exact h
  | node c l a r =>
    obtain ⟨x, v⟩ := a
    rw [treeCells, add_assoc, add_assoc] at h ⊢
    exact cells_modify h fun n => { n with parent := q }

theorem cells_relink (hroot : t.root = topId ctx (some x))
    (h : Cells m t.node ({(x, n)} + (ctxCells ctx (some x) + S))) (new : Option ι) :
    (t.relink (aboveId ctx) x new).root = topId ctx new ∧
      Cells m (t.relink (aboveId ctx) x new).node ({(x, n)} + (ctxCells ctx new + S)) := by
  cases ctx with
  | nil => exact ⟨rfl, h⟩
  | cons f ctx =>
    obtain ⟨d, c, ⟨p, v⟩, B⟩ := f
    have hfoc : rootId B ≠ some x := by
      intro hB
      refine h.notMem ?_
      simp only [ctxCells, Multiset.map_add, Multiset.mem_add]
      exact .inl (.inl (.inr (mem_treeCells_of_rootId hB)))
    have hshu : ∀ hole : Option ι, ({(x, n)} + (ctxCells (⟨d, c, (p, v), B⟩ :: ctx) hole + S) : Multiset _) =
        {(p, .ofSides d hole (rootId B) (aboveId ctx) c v)} +
          ({(x, n)} + (treeCells (some p) B + ctxCells ctx (some p) + S)) := by
      intro hole
      rw [ctxCells]
      abel
    rw [hshu] at h ⊢
    have hnode := h.read
    have hset : t.relink (some p) x new = t.setChild d p new := by
      cases d with
      | left => exact if_pos (by rw [hnode]; rfl)
      | right => exact if_neg (by rw [hnode]; exact hfoc)
    rw [aboveId_cons, hset]
    refine ⟨hroot, ?_⟩
    have hwri := cells_modify h fun n => n.setChild d new
    rwa [setChild_ofSides] at hwri

theorem Focus.modify_outside (h : Focus m t [] T) (hx : x ∉ ids T) (f : LinkedNode ι δ → LinkedNode ι δ) :
    Focus (Function.update m x (f (t.node x))) (t.modify x f) [] T := by
  refine ⟨h.root, (cells_modify (h.cells.take ?_) f).leave⟩
  simpa [ctxCells, map_fst_treeCells] using hx

theorem Focus.setColor (h : Focus m t ctx (branch d c A (x, v) B)) (k : Color) :
    Focus m (t.setColor x k) ctx (branch d k A (x, v) B) := by
  obtain ⟨hroot, hcel⟩ := h
  rw [rootId_branch] at hroot hcel
  refine ⟨by rw [rootId_branch]; exact hroot, ?_⟩
  rw [rootId_branch]
  rw [treeCells_branch, add_assoc, add_assoc] at hcel ⊢
  have hwri := cells_modify hcel fun n => { n with color := k }
  rwa [setColor_ofSides] at hwri

theorem Focus.setData (h : Focus m t ctx (branch d c A (x, v) B)) (w : δ) :
    Focus m (t.setData x w) ctx (branch d c A (x, w) B) := by
  obtain ⟨hroot, hcel⟩ := h
  rw [rootId_branch] at hroot hcel
  refine ⟨by rw [rootId_branch]; exact hroot, ?_⟩
  rw [rootId_branch]
  rw [treeCells_branch, add_assoc, add_assoc] at hcel ⊢
  have hwri := cells_modify hcel fun n => { n with data := w }
  rwa [setData_ofSides] at hwri

theorem Focus.setColorIf_black (h : Focus m t ctx T) : Focus m (t.setColorIf (rootId T) .black) ctx T.blacken := by
  cases T with
  | nil => exact h
  | node c l a r =>
    obtain ⟨x, v⟩ := a
    exact Focus.setColor (d := .left) h .black

/-! ## Summaries -/

variable (aug : Augmentation δ σ)

def summaryOf (T : ColorTree (ι × δ)) : Option σ := T.root?.map fun a => aug.summary a.2

/-- What `updateNode` makes of the data of a node, given the summaries of the child on side `d` and of
    the other. -/
def Augmentation.refresh (d : Dir) (v : δ) (a b : Option σ) : δ × Bool :=
  match d with
  | .left => aug.update v a b
  | .right => aug.update v b a

omit [DecidableEq ι] in
@[simp] theorem summaryOf_branch (d : Dir) (c : Color) (A : ColorTree (ι × δ)) (x : ι) (v : δ)
    (B : ColorTree (ι × δ)) : summaryOf aug (branch d c A (x, v) B) = some (aug.summary v) := by
  simp [summaryOf]

omit [DecidableEq ι] in
theorem summary_rootId (h : Cells m t.node (treeCells p T + S)) :
    (rootId T).map (fun x => aug.summary (t.node x).data) = summaryOf aug T := by
  cases T with
  | nil => rfl
  | node c l a r =>
    obtain ⟨x, v⟩ := a
    rw [treeCells, add_assoc, add_assoc] at h
    change some (aug.summary (t.node x).data) = some (aug.summary v)
    rw [h.read]

theorem Focus.updateNode (h : Focus m t ctx (branch d c A (x, v) B)) :
    ∃ t', t.updateNode aug x = (t', (aug.refresh d v (summaryOf aug A) (summaryOf aug B)).2) ∧
      Focus m t' ctx (branch d c A (x, (aug.refresh d v (summaryOf aug A) (summaryOf aug B)).1) B) := by
  have hcel := h.cells
  rw [treeCells_branch] at hcel
  have hA := summary_rootId (T := A) aug (t := t) (m := m)
    (S := {(x, .ofSides d (rootId A) (rootId B) (aboveId ctx) c v)} + treeCells (some x) B +
      ctxCells ctx (some x)) (by rw [rootId_branch] at hcel; convert hcel using 1; abel)
  have hB := summary_rootId (T := B) aug (t := t) (m := m)
    (S := {(x, .ofSides d (rootId A) (rootId B) (aboveId ctx) c v)} + treeCells (some x) A +
      ctxCells ctx (some x)) (by rw [rootId_branch] at hcel; convert hcel using 1; abel)
  refine ⟨t.setData x (aug.refresh d v (summaryOf aug A) (summaryOf aug B)).1, ?_, h.setData _⟩
  rw [← hA, ← hB, LinkedTree.updateNode, h.node_eq]
  cases d <;> rfl

/-! ## Rotating -/

def rotated (d : Dir) (cx cy : Color) (A B C : ColorTree (ι × δ)) (x y : ι) (vx vy : δ) :
    ColorTree (ι × δ) :=
  let vx' := (aug.refresh d vx (summaryOf aug A) (summaryOf aug B)).1
  let vy' := (aug.refresh d vy (some (aug.summary vx')) (summaryOf aug C)).1
  branch d cy (branch d cx A (x, vx') B) (y, vy') C

/-- The links of a rotation: `x` goes down on side `d`, its child `y` on the other side takes its
    place. -/
theorem Focus.rotateLinks {cx cy : Color} {vx vy : δ}
    (h : Focus m t ctx (branch d cx A (x, vx) (branch d cy B (y, vy) C))) :
    Focus m (t.rotateLinks d x y) ctx (branch d cy (branch d cx A (x, vx) B) (y, vy) C) := by
  have hy := (focus_branch_flip.mp h).node_eq
  obtain ⟨hroot, h₀⟩ := h
  simp only [rootId_branch, treeCells_branch] at hroot h₀
  -- the two nodes and the subtree that change, the link from above, and the rest
  obtain ⟨S, hS⟩ : ∃ S, S = treeCells (some x) A + treeCells (some y) C := ⟨_, rfl⟩
  replace h₀ : Cells m t.node ({(x, .ofSides d (rootId A) (some y) (aboveId ctx) cx vx)} +
      ({(y, .ofSides d (rootId B) (rootId C) (some x) cy vy)} +
        (treeCells (some y) B + (ctxCells ctx (some x) + S)))) := by
    convert h₀ using 1
    rw [hS]
    abel
  rw [LinkedTree.rotateLinks, hy, child_ofSides]
  -- turn one subtree of `y` into the other one of `x`
  have h₁ := cells_modify h₀ fun n => n.setChild d.flip (rootId B)
  rw [setChild_flip_ofSides] at h₁
  change Cells m (t.setChild d.flip x (rootId B)).node _ at h₁
  replace hroot : (t.setChild d.flip x (rootId B)).root = topId ctx (some x) := hroot
  generalize t.setChild d.flip x (rootId B) = t₁ at h₁ hroot ⊢
  rw [h₁.second.read, child_ofSides]
  have h₂ := cells_setParentIf h₁.third (some x)
  rw [← root_setParentIf t₁ (rootId B) (some x)] at hroot
  generalize t₁.setParentIf (rootId B) (some x) = t₂ at h₂ hroot ⊢
  -- link the parent of `x` to `y`
  rw [h₂.second.read, parent_ofSides]
  have h₃ := cells_modify h₂.third fun n => { n with parent := aboveId ctx }
  rw [setParent_ofSides] at h₃
  change Cells m (t₂.setParent y (aboveId ctx)).node _ at h₃
  replace hroot : (t₂.setParent y (aboveId ctx)).root = topId ctx (some x) := hroot
  generalize t₂.setParent y (aboveId ctx) = t₃ at h₃ hroot ⊢
  rw [h₃.third.read, parent_ofSides]
  obtain ⟨hroot₄, h₄⟩ := cells_relink hroot
    (S := {(y, .ofSides d (rootId B) (rootId C) (aboveId ctx) cy vy)} +
      (treeCells (some x) B + S)) (by convert h₃ using 1; abel) (some y)
  generalize t₃.relink (aboveId ctx) x (some y) = t₄ at h₄ hroot₄ ⊢
  -- put `x` below `y`
  have h₅ := cells_modify h₄.third fun n => n.setChild d (some x)
  rw [setChild_ofSides] at h₅
  have h₆ := cells_modify h₅.second fun n => { n with parent := some y }
  rw [setParent_ofSides] at h₆
  change Cells m ((t₄.setChild d y (some x)).setParent x (some y)).node _ at h₆
  refine ⟨by rw [rootId_branch]; exact hroot₄, ?_⟩
  rw [rootId_branch, treeCells_branch, treeCells_branch, rootId_branch]
  convert h₆ using 1
  rw [hS]
  abel

/-- `x` goes down on side `d`, its child `y` on the other side takes its place; both are updated. -/
theorem Focus.rotate {cx cy : Color} {vx vy : δ}
    (h : Focus m t ctx (branch d cx A (x, vx) (branch d cy B (y, vy) C))) : ∃ t', t.rotate aug d x = some (t', y) ∧
      Focus m t' ctx (rotated aug d cx cy A B C x y vx vy) := by
  have hx := h.node_eq
  rw [rootId_branch] at hx
  obtain ⟨t₁, hupd₁, h₁⟩ := (focus_branch.mp h.rotateLinks).updateNode aug
  obtain ⟨t₂, hupd₂, h₂⟩ := (focus_branch.mpr h₁).updateNode aug
  refine ⟨t₂, ?_, ?_⟩
  · rw [LinkedTree.rotate, hx, child_flip_ofSides]
    simp only [Option.bind_eq_bind, Option.bind_some, hupd₁, hupd₂]
    rfl
  · rwa [summaryOf_branch] at h₂

omit aug

/-! ## Hanging and unlinking -/

theorem Focus.hang {f : Frame (ι × δ)} (h : Focus m t (f :: ctx) nil)
    (hz : z ∉ (ctxCells (f :: ctx) none).map Prod.fst) (hnode : t.node z = ⟨none, none, p, c, v⟩) :
    Focus m ((t.setParent z (some f.label.1)).setChild f.dir f.label.1 (some z)) (f :: ctx)
      (node c nil (z, v) nil) := by
  obtain ⟨hroot, hcel⟩ := h
  rw [treeCells, zero_add] at hcel
  have h₁ := cells_modify (hcel.take hz) fun n => { n with parent := some f.label.1 }
  rw [hnode, rootId_nil, ctxCells, add_assoc] at h₁
  have h₂ := cells_modify h₁.second fun n => n.setChild f.dir (some z)
  rw [setChild_ofSides] at h₂
  refine ⟨hroot, ?_⟩
  have hcel : treeCells (aboveId (f :: ctx)) (node c nil (z, v) nil) = {(z, ⟨none, none, some f.label.1, c, v⟩)} := by
    simp [treeCells]
  rw [hcel, ctxCells, add_assoc]
  exact h₂.second

theorem Focus.hang_root (h : Focus m t [] nil) (hnode : t.node z = ⟨none, none, p, c, v⟩) :
    Focus m { t.setParent z none with root := some z } [] (node c nil (z, v) nil) := by
  have h₁ := cells_modify (h.cells.take (x := z) (by simp [treeCells, ctxCells])) fun n => { n with parent := none }
  rw [hnode] at h₁
  change Cells m (t.setParent z none).node _ at h₁
  refine ⟨rfl, ?_⟩
  simpa [treeCells, ctxCells] using h₁

theorem Focus.unlink (h : Focus m t ctx (branch d c T (y, v) nil)) :
    ∃ t', t.unlink y = (t', rootId T, aboveId ctx) ∧ t'.node y = t.node y ∧ y ∉ ids (plug ctx T) ∧
      Focus (Function.update m y (t.node y)) t' ctx T := by
  have hy := h.node_eq
  have hch : (t.node y).left.or (t.node y).right = rootId T := by
    rw [hy]
    cases d with
    | left => exact Option.or_none
    | right => exact Option.none_or
  obtain ⟨hroot, h₀⟩ := h
  rw [rootId_branch] at hroot h₀
  rw [treeCells_branch, rootId_nil, treeCells, add_zero, add_assoc] at h₀
  have h₁ := cells_setParentIf h₀.second (aboveId ctx)
  rw [← root_setParentIf t (rootId T) (aboveId ctx)] at hroot
  rw [LinkedTree.unlink, hch, hy, parent_ofSides]
  generalize t.setParentIf (rootId T) (aboveId ctx) = t₁ at h₁ hroot ⊢
  have hpar : ((rootId T).elim (t₁.node y).parent fun x => (t₁.node x).parent) = aboveId ctx := by
    cases hT : rootId T with
    | none =>
      rw [Option.elim_none, h₁.second.read, parent_ofSides]
    | some x => exact parent_rootId h₁ hT
  obtain ⟨hroot₂, h₂⟩ := cells_relink hroot (add_comm (treeCells _ _) _ ▸ h₁.second) (rootId T)
  refine ⟨_, Prod.ext ?_ (Prod.ext rfl hpar), h₂.read, ?_, hroot₂, ?_⟩
  · rw [h₁.second.read, parent_ofSides]
  · rw [ids_plug ctx T (aboveId ctx) (rootId T), add_comm]
    exact h₂.notMem
  · rw [add_comm]
    exact h₂.leave

/-! ## Addresses in use -/

/-- The addresses of the nodes that can be reached from the root. -/
inductive LinkedTree.InUse (t : LinkedTree ι δ) : ι → Prop where
  | root {x : ι} : t.root = some x → InUse t x
  | left {x y : ι} : InUse t x → (t.node x).left = some y → InUse t y
  | right {x y : ι} : InUse t x → (t.node x).right = some y → InUse t y

section

omit [DecidableEq ι]

theorem LinkedTree.not_inUse (h : t.root = none) (x : ι) : ¬t.InUse x := by
  intro hx
  induction hx with
  | root hroot =>
    rw [h] at hroot
    cases hroot
  | left _ _ ih => exact ih
  | right _ _ ih => exact ih

theorem LinkedTree.InUse.eq_root (h : t.InUse y) (hroot : t.root = some x)
    (hleft : (t.node x).left = none) (hrig : (t.node x).right = none) : y = x := by
  induction h with
  | root h => exact Option.some.inj (h.symm.trans hroot)
  | left _ h ih =>
    rw [ih, hleft] at h
    cases h
  | right _ h ih =>
    rw [ih, hrig] at h
    cases h

theorem inUse_of_focus : ∀ {T : ColorTree (ι × δ)} {ctx : List (Frame (ι × δ))},
      Focus m t ctx T → (∀ x, rootId T = some x → t.InUse x) → ∀ x ∈ ids T, t.InUse x := by
  intro T
  induction T with
  | nil => exact fun _ _ x hx => absurd hx (Multiset.notMem_zero x)
  | node c l a r ihl ihr =>
    intro ctx h hroot x hx
    obtain ⟨y, v⟩ := a
    have hy := hroot y rfl
    obtain ⟨e, he, rfl⟩ := List.mem_map.mp hx
    rcases mem_inorder_node.mp he with he | rfl | he
    · refine ihl h.left (fun x hx => hy.left ?_) _ (List.mem_map_of_mem he)
      rw [h.record_eq, hx]
    · exact hy
    · refine ihr h.right (fun x hx => hy.right ?_) _ (List.mem_map_of_mem he)
      rw [h.record_eq, hx]

theorem Focus.inUse (h : Focus m t [] T) (hx : x ∈ ids T) : t.InUse x :=
  inUse_of_focus h (fun _ hy => .root (h.root.trans hy)) x hx

end

end WebV8
