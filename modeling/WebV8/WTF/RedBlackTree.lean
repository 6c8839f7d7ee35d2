import WebV8.Lib.Run
import WebV8.WTF.RedBlackSearch

/-!
# `WTF::RedBlackTree`

The intrusive red-black tree of `wtf/RedBlackTree.h`: its nodes belong to the user, who allocates them
and passes their addresses to `insert` and `remove`. Here are the operations, what each does to the
set of the nodes in the tree (`Stored`), and whole runs of them from an empty tree in any memory.

`remove` is the one that is unlike the textbook: it unlinks the successor `y` of the node `z` to be
removed, repairs the tree while `z` is still in it, and then gives `y` the links and the colour that
`z` has ended up with.
-/

namespace WebV8

open Lib ColorTree LinkedTree

namespace RedBlackTree

variable {ι δ K : Type} [DecidableEq ι] [LinearOrder K] (key : δ → K)

/-! ## The operations -/

/-- `Node::reset` -/
def reset (t : LinkedTree ι δ) (x : ι) : LinkedTree ι δ :=
  t.modify x fun n => { n with left := none, right := none, parent := none, color := .red }

def insert (rounds : Nat) (t : LinkedTree ι δ) (x : ι) : Option (LinkedTree ι δ) := do
  let t := reset t x
  let t ← t.treeInsert (lessBy id key) rounds x
  let t := t.setColor x .red
  let (t, _) ← insertFixup .none rounds t x (t.node x).parent
  let root ← t.root
  return t.setColor root .black

/-- `y` gets the links and the colour of `z`. -/
def copyLinks (t : LinkedTree ι δ) (y z : ι) : LinkedTree ι δ :=
  let t := t.setParent y (t.node z).parent
  let t := t.setColor y (t.node z).color
  let t := t.setChild .left y (t.node z).left
  t.setChild .right y (t.node z).right

/-- The end of `remove`: `y` takes the place of `z`. -/
def takePlace (t : LinkedTree ι δ) (y z : ι) : LinkedTree ι δ :=
  let t := copyLinks t y z
  let t := t.setParentIf (t.node z).left (some y)
  let t := t.setParentIf (t.node z).right (some y)
  t.relink (t.node z).parent z (some y)

/-- Unlink `y` and repair the tree. -/
def unlinkAndFix (rounds : Nat) (t : LinkedTree ι δ) (y : ι) : Option (LinkedTree ι δ) :=
  let (t, x, xParent) := t.unlink y
  if (t.node y).color = .black then removeFixup .none rounds t x xParent else some t

/-- `remove(NodeType*)` -/
def remove (rounds : Nat) (t : LinkedTree ι δ) (z : ι) : Option (LinkedTree ι δ) := do
  let y ←
    if (t.node z).left = none ∨ (t.node z).right = none then some z
    else do
      let y ← t.successor rounds z
      y
  let t ← unlinkAndFix rounds t y
  if y ≠ z then return takePlace t y z else return t

def findExact (t : LinkedTree ι δ) (k : K) : Nat → Option ι → Option (Option ι)
  | 0, _ => none
  | _ + 1, none => some none
  | rounds + 1, some current =>
    let n := t.node current
    if key n.data = k then some (some current)
    else if k < key n.data then findExact t k rounds n.left
    else findExact t k rounds n.right

def findLeastGreaterThanOrEqual (t : LinkedTree ι δ) (k : K) :
    Nat → Option ι → Option ι → Option (Option ι)
  | 0, _, _ => none
  | _ + 1, best, none => some best
  | rounds + 1, best, some current =>
    let n := t.node current
    if key n.data = k then some (some current)
    else if key n.data < k then findLeastGreaterThanOrEqual t k rounds best n.right
    else findLeastGreaterThanOrEqual t k rounds (some current) n.left

def findGreatestLessThanOrEqual (t : LinkedTree ι δ) (k : K) :
    Nat → Option ι → Option ι → Option (Option ι)
  | 0, _, _ => none
  | _ + 1, best, none => some best
  | rounds + 1, best, some current =>
    let n := t.node current
    if key n.data = k then some (some current)
    else if key n.data > k then findGreatestLessThanOrEqual t k rounds best n.left
    else findGreatestLessThanOrEqual t k rounds (some current) n.right

/-! ## Steps of `remove` -/

variable {key} {m : ι → LinkedNode ι δ} {t : LinkedTree ι δ} {ctx : List (Frame (ι × δ))} {d : Dir}
  {c : Color} {T X l r : ColorTree (ι × δ)} {x y z : ι} {v w : δ} {rounds n : Nat}

omit [DecidableEq ι] in
theorem entries_id (T : ColorTree (ι × δ)) : entries id T = T.inorder := by
  simp [entries]

theorem unlinkAndFix_spec (h : Focus m t ctx (branch d c X (y, v) nil))
    (hbal : Balanced (plug ctx (branch d c X (y, v) nil)) .black n) (hlen : ctx.length < rounds) :
    ∃ t' T' k, unlinkAndFix rounds t y = some t' ∧ Focus (Function.update m y (t.node y)) t' [] T' ∧
      Balanced T' .black k ∧ T'.inorder = (plug ctx X).inorder := by
  obtain ⟨hred, hbla⟩ := balanced_without hbal
  have hcol : (t.node y).color = c := by
    rw [h.node_eq, color_ofSides]
  obtain ⟨t₁, hunl, hy, -, h₁⟩ := h.unlink
  rw [unlinkAndFix, hunl]
  dsimp only
  rw [hy, hcol]
  cases c with
  | red =>
    obtain ⟨k, hk⟩ := hred rfl
    exact ⟨t₁, plug ctx X, k, rfl, focus_root.mpr h₁, hk, rfl⟩
  | black =>
    obtain ⟨t', T', hfix, h', ⟨k, hk⟩, hsha⟩ := removeFixup_spec lawful_none rounds h₁ (hbla rfl) (.inl hlen)
    exact ⟨t', T', k, hfix, h', hk, by simpa only [entries_id] using hsha.entries_eq⟩

theorem copyLinks_eq (h : z ≠ y) : copyLinks t y z = t.modify y fun n => { t.node z with data := n.data } := by
  simp only [copyLinks, setParent, LinkedTree.setColor, LinkedTree.setChild,
    node_modify_of_ne h, modify_modify]
  rfl

theorem takePlace_spec (h : Focus m t ctx (node c l (z, v) r))
    (hy : y ∉ ids (plug ctx (node c l (z, v) r))) (hw : (t.node y).data = w) :
    Focus (Function.update m z (t.node z)) (takePlace t y z) ctx (node c l (y, w) r) := by
  have hz := h.record_eq
  obtain ⟨hroot, h₀⟩ := h
  rw [ids_plug ctx _ (aboveId ctx) (some z)] at hy
  have hne : z ≠ y := by
    rintro rfl
    exact hy (by simp [treeCells])
  -- `y`, `z`, the two subtrees and the link from above
  have h₁ := cells_modify (h₀.take hy) fun n => { t.node z with data := n.data }
  replace h₁ : Cells m (copyLinks t y z).node ({(y, ⟨rootId l, rootId r, aboveId ctx, c, w⟩)} +
      ({(z, t.node z)} + (treeCells (some z) l + (treeCells (some z) r + ctxCells ctx (some z))))) := by
    rw [copyLinks_eq hne]
    rw [hw, hz] at h₁
    rw [hz]
    simpa [treeCells, rootId, add_assoc] using h₁
  replace hroot : (copyLinks t y z).root = topId ctx (some z) := hroot
  rw [takePlace]
  generalize copyLinks t y z = t₁ at h₁ hroot ⊢
  rw [h₁.second.read, hz]
  have h₂ := cells_setParentIf h₁.third (some y)
  rw [← root_setParentIf t₁ (rootId l) (some y)] at hroot
  generalize t₁.setParentIf (rootId l) (some y) = t₂ at h₂ hroot ⊢
  rw [h₂.third.read, hz]
  have h₃ : Cells m t₂.node (treeCells (some z) r + ({(z, t.node z)} + (ctxCells ctx (some z) +
      (treeCells (some y) l + {(y, ⟨rootId l, rootId r, aboveId ctx, c, w⟩)})))) := by
    convert h₂ using 1
    abel
  have h₄ := cells_setParentIf h₃ (some y)
  rw [← root_setParentIf t₂ (rootId r) (some y)] at hroot
  rw [h₄.second.read, hz]
  obtain ⟨hroot₅, h₅⟩ := cells_relink hroot (S := treeCells (some y) r +
    (treeCells (some y) l + {(y, ⟨rootId l, rootId r, aboveId ctx, c, w⟩)}))
    (by convert h₄ using 1; abel) (some y)
  refine ⟨hroot₅, ?_⟩
  have hcel : treeCells (aboveId ctx) (node c l (y, w) r) + ctxCells ctx (some y) =
      ctxCells ctx (some y) + (treeCells (some y) r +
        (treeCells (some y) l + {(y, ⟨rootId l, rootId r, aboveId ctx, c, w⟩)})) := by
    rw [treeCells]
    abel
  change Cells _ _ (_ + ctxCells ctx (some y))
  rw [hcel]
  have h₆ := h₅.leave
  rwa [hz] at h₆

/-! ## The nodes in the tree -/

variable (key) in
/-- The nodes in the tree, with their data, are those of `s`; the links, the order and the colours are
    as they should be. -/
def Stored (t : LinkedTree ι δ) (s : Multiset (ι × δ)) : Prop :=
  ∃ m T n, Focus m t [] T ∧ SortedBy key T.inorder ∧ Balanced T .black n ∧
    (T.inorder : Multiset (ι × δ)) = s

variable {s : Multiset (ι × δ)} {T' : ColorTree (ι × δ)}

omit [DecidableEq ι] in
theorem ids_eq (h : (T.inorder : Multiset (ι × δ)) = s) : ids T = s.map Prod.fst := by
  rw [← h]
  rfl

/-- Data is not touched by operations that only write links: it is enough to know this of the nodes in
    the tree and of those outside. -/
theorem data_eq_of_focus {m' : ι → LinkedNode ι δ} {t' : LinkedTree ι δ}
    (h' : Focus m' t' [] T') (hin : ∀ e ∈ T'.inorder, (t.node e.1).data = e.2)
    (hout : ∀ a, a ∉ ids T' → (m' a).data = (t.node a).data) (a : ι) : (t'.node a).data = (t.node a).data := by
  by_cases ha : a ∈ ids T'
  · obtain ⟨⟨b, w⟩, he, rfl⟩ := List.mem_map.mp (Multiset.mem_coe.mp ha)
    rw [h'.data_eq he, hin _ he]
  · rw [h'.outside ha, hout a ha]

theorem insert_spec (h : Stored key t s) (hx : x ∉ s.map Prod.fst) (hlen : s.card < rounds) :
    ∃ t', insert key rounds t x = some t' ∧ Stored key t' ((x, (t.node x).data) ::ₘ s) ∧
      ∀ a, (t'.node a).data = (t.node a).data := by
  obtain ⟨m, T, n, hfoc, hsort, hbal, hs⟩ := h
  have hcard : T.inorder.length < rounds := by
    rwa [← hs, Multiset.coe_card] at hlen
  have hxT : x ∉ ids T := by rwa [ids_eq hs]
  have h₀ := hfoc.modify_outside hxT fun n =>
    { n with left := none, right := none, parent := none, color := .red }
  have hnode : (reset t x).node x = ⟨none, none, none, .red, (t.node x).data⟩ := by
    simp [reset, LinkedTree.modify]
  change Focus _ (reset t x) [] T at h₀
  have hsort' : SortedBy key (entries id T) := by rwa [entries_id]
  obtain ⟨t₁, ctx, hinse, h₁, rfl, hbtw⟩ := treeInsert_spec h₀ hxT hnode hsort' hcard
  have h₂ := Focus.setColor (d := .left) h₁ .red
  -- the leaf is red, and fits into the place of an empty tree
  obtain ⟨c₁, c₂, k, hctx, hnil, -⟩ := hbal.unplug
  obtain rfl : k = 0 := by
    cases hnil
    rfl
  have hctxl : ctx.length < rounds := lt_of_le_of_lt (le_of_add_le_left (length_inorder_plug ctx nil)) hcard
  obtain ⟨t₃, ctx₃, T₃, hfix, hins⟩ := insertFixup_spec lawful_none rounds h₂ rfl (.red .nil .nil) hctx
    (upToDate_none _) (ctxUpToDate_none ctx none) hctxl
  have h₃ := focus_root.mpr hins.focus
  have hino : (plug ctx₃ T₃).inorder =
      entriesBefore id ctx ++ (x, (t.node x).data) :: entriesAfter id ctx := by
    have hent := hins.entries_eq
    rw [entries_plug ctx (branch .left .red nil (x, (t.node x).data) nil), entries_left, entries_id] at hent
    simpa using hent
  have hold : (plug ctx nil).inorder = entriesBefore id ctx ++ entriesAfter id ctx := by
    rw [← entries_id, entries_plug, entries_nil, List.append_nil]
  have hs' : ((plug ctx₃ T₃).inorder : Multiset (ι × δ)) = (x, (t.node x).data) ::ₘ s := by
    rw [← hs, hold, hino, Multiset.cons_coe, Multiset.coe_eq_coe]
    exact List.perm_middle
  obtain ⟨c₃, n₃, hbal₃⟩ := hins.balanced
  obtain ⟨k, hbla⟩ := hbal₃.blacken
  obtain ⟨r, hr⟩ : ∃ r, rootId (plug ctx₃ T₃) = some r := by
    cases hU : plug ctx₃ T₃ with
    | nil =>
      rw [hU] at hino
      exact absurd hino.symm (by simp)
    | node c l a r => exact ⟨a.1, rfl⟩
  have h₄ := h₃.setColorIf_black
  have hdone : insert key rounds t x = some (t₃.setColorIf (rootId (plug ctx₃ T₃)) .black) := by
    have hpar : ((t₁.setColor x .red).node x).parent = aboveId ctx := by
      rw [h₂.node_eq, parent_ofSides]
    have hroot : t₃.root = some r := h₃.root.trans hr
    simp only [insert, hinse, hpar, hfix, hroot, Option.bind_eq_bind, Option.bind_some, hr]
    rfl
  refine ⟨_, hdone, ⟨_, _, k, h₄, ?_, hbla, ?_⟩, ?_⟩
  · rw [inorder_blacken, hino]
    exact hbtw.sorted rfl hsort'
  · rw [inorder_blacken, hs']
  · refine data_eq_of_focus h₄ ?_ ?_
    · intro e he
      rw [inorder_blacken, hino] at he
      rcases List.mem_append.mp he with he | he
      · exact hfoc.data_eq (by rw [hold]; exact List.mem_append.mpr (.inl he))
      · rcases List.mem_cons.mp he with rfl | he
        · rfl
        · exact hfoc.data_eq (by rw [hold]; exact List.mem_append.mpr (.inr he))
    · intro a ha
      rw [ids_eq (by rw [inorder_blacken, hs']), Multiset.map_cons, Multiset.mem_cons, not_or] at ha
      rw [Function.update_of_ne ha.1, hfoc.outside (by rw [ids_eq hs]; exact ha.2)]

omit [LinearOrder K] in
theorem filter_middle {P R : List (ι × δ)} (h : ((P ++ (z, v) :: R).map Prod.fst).Nodup) :
    (P ++ (z, v) :: R).filter (fun e => e.1 ≠ z) = P ++ R := by
  have hkeep : ∀ e ∈ P ++ R, decide (e.1 ≠ z) = true := by
    intro e he
    rw [List.perm_middle.map Prod.fst |>.nodup_iff, List.map_cons, List.nodup_cons] at h
    refine decide_eq_true fun heq => h.1 ?_
    have hmem := List.mem_map_of_mem (f := Prod.fst) he
    rwa [heq] at hmem
  rw [List.filter_append, List.filter_cons_of_neg (by simp), ← List.filter_append, List.filter_eq_self.mpr hkeep]

theorem mem_ids_of_filter
    (h : T'.inorder = T.inorder.filter fun e => e.1 ≠ z) {a : ι} (ha : a ∈ ids T) (hne : a ≠ z) : a ∈ ids T' := by
  obtain ⟨e, he, rfl⟩ := List.mem_map.mp (Multiset.mem_coe.mp ha)
  refine Multiset.mem_coe.mpr (List.mem_map_of_mem ?_)
  rw [h]
  exact List.mem_filter.mpr ⟨he, decide_eq_true hne⟩

/-- What `remove` leaves. -/
structure Removed (t : LinkedTree ι δ) (T : ColorTree (ι × δ)) (z : ι) (t' : LinkedTree ι δ)
    (m' : ι → LinkedNode ι δ) (T' : ColorTree (ι × δ)) : Prop where
  focus : Focus m' t' [] T'
  balanced : ∃ k, Balanced T' .black k
  inorder_eq : T'.inorder = T.inorder.filter fun e => e.1 ≠ z
  outside : ∀ a, a ∉ ids T' → (m' a).data = (t.node a).data

theorem remove_unlinked (h : Focus m t ctx (branch d c X (z, v) nil))
    (hbal : Balanced (plug ctx (branch d c X (z, v) nil)) .black n) (hlen : ctx.length < rounds) :
    ∃ t' m' T', remove rounds t z = some t' ∧ Removed t (plug ctx (branch d c X (z, v) nil)) z t' m' T' := by
  have htop := focus_root.mpr h
  obtain ⟨t', T', k, hfix, h', hbal', hino⟩ := unlinkAndFix_spec h hbal hlen
  have hfil : T'.inorder =
      (plug ctx (branch d c X (z, v) nil)).inorder.filter fun e => e.1 ≠ z := by
    have hnod := htop.nodup
    rw [hino, inorder_plug]
    cases d with
    | left =>
      have hspl : (plug ctx (branch .left c X (z, v) nil)).inorder =
          (before ctx ++ X.inorder) ++ (z, v) :: after ctx := by
        simp [inorder_plug, branch]
      rw [hspl] at hnod ⊢
      rw [filter_middle hnod]
    | right =>
      have hspl : (plug ctx (branch .right c X (z, v) nil)).inorder =
          before ctx ++ (z, v) :: (X.inorder ++ after ctx) := by
        simp [inorder_plug, branch]
      rw [hspl] at hnod ⊢
      rw [filter_middle hnod, List.append_assoc]
  refine ⟨t', _, T', ?_, h', ⟨k, hbal'⟩, hfil, ?_⟩
  · rw [remove, if_pos h.child_eq_none]
    simp [hfix]
  · intro a ha
    by_cases haz : a = z
    · rw [haz, Function.update_self]
    · rw [Function.update_of_ne haz, htop.outside fun hmem => ha (mem_ids_of_filter hfil hmem haz)]

theorem remove_replaced (h : Focus m t ctx (node c l (z, v) r))
    (hbal : Balanced (plug ctx (node c l (z, v) r)) .black n) (hl : l ≠ nil) (hr : r ≠ nil)
    (hlen : (plug ctx (node c l (z, v) r)).inorder.length < rounds) :
    ∃ t' m' T', remove rounds t z = some t' ∧ Removed t (plug ctx (node c l (z, v) r)) z t' m' T' := by
  have hz := h.record_eq
  obtain ⟨hch, ctxR, cy, y, vy, ry, hsucc, rfl, hbef, hy, hlenY⟩ := h.successor_spec hl hr hlen
  -- the nodes before `z`, and those after its successor `y`
  obtain ⟨P, hP⟩ : ∃ P, P = before ctx ++ l.inorder := ⟨_, rfl⟩
  obtain ⟨Q, hQ⟩ : ∃ Q, Q = ry.inorder ++ after ctxR ++ after ctx := ⟨_, rfl⟩
  have hT : (plug ctx (node c l (z, v) (plug ctxR (node cy nil (y, vy) ry)))).inorder =
      P ++ (z, v) :: (y, vy) :: Q := by
    simp [inorder_plug, hbef, hP, hQ]
  have hT₁ : (plug (ctxR ++ ⟨.right, c, (z, v), l⟩ :: ctx) ry).inorder = P ++ (z, v) :: Q := by
    rw [plug_append, plug_cons]
    simp [inorder_plug, hbef, hP, hQ, Frame.fill, branch]
  have htop := focus_root.mpr h
  have hnod : ((P ++ (z, v) :: (y, vy) :: Q).map Prod.fst).Nodup := hT ▸ htop.nodup
  obtain ⟨hzPQ, hyPQ⟩ : z ∉ y :: (P ++ Q).map Prod.fst ∧ y ∉ (P ++ Q).map Prod.fst := by
    have hperm : (P ++ (z, v) :: (y, vy) :: Q).Perm ((z, v) :: (y, vy) :: (P ++ Q)) :=
      List.perm_middle.trans (List.perm_middle.cons (z, v))
    have hcons := ((hperm.map Prod.fst).nodup_iff).mp hnod
    exact ⟨(List.nodup_cons.mp hcons).1, (List.nodup_cons.mp (List.nodup_cons.mp hcons).2).1⟩
  have hne : y ≠ z := fun heq => hzPQ (heq ▸ List.mem_cons_self ..)
  obtain ⟨t₁, T₁, k, hfix, h₁, hbal₁, hin₁⟩ := unlinkAndFix_spec hy (by rw [plug_append]; exact hbal) hlenY
  rw [hT₁] at hin₁
  obtain ⟨ctx₁, c₁, l₁, r₁, rfl⟩ := exists_plug_of_mem (a := (z, v)) (by rw [hin₁]; simp)
  have hyout : y ∉ ids (plug ctx₁ (node c₁ l₁ (z, v) r₁)) := by
    intro hmem
    rw [ids, hin₁, Multiset.mem_coe, (List.perm_middle.map Prod.fst).mem_iff] at hmem
    rcases List.mem_cons.mp hmem with heq | hmem
    · exact hne heq
    · exact hyPQ hmem
  have hyda : (t₁.node y).data = vy := by
    rw [h₁.outside hyout, Function.update_self, hy.node_eq, data_ofSides]
  rw [focus_root] at h₁
  have h₂ := takePlace_spec h₁ hyout hyda
  obtain ⟨k₂, hbal₂⟩ := hbal₁.relabel (y, vy)
  -- `z` stands where it stood
  have hspl : (before ctx₁ ++ l₁.inorder) ++ (z, v) :: (r₁.inorder ++ after ctx₁) =
      P ++ (z, v) :: Q := by
    rw [← hin₁, inorder_plug, inorder_node]
    simp
  obtain ⟨hP', hQ'⟩ : before ctx₁ ++ l₁.inorder = P ∧ r₁.inorder ++ after ctx₁ = Q := by
    have hzP : (z, v) ∉ P ++ Q := fun hmem =>
      hzPQ (List.mem_cons_of_mem _ (List.mem_map_of_mem hmem))
    rw [List.mem_append, not_or] at hzP
    obtain ⟨hP', -, hQ'⟩ := (List.append_cons_inj_of_notMem hzP.1 hzP.2).mp hspl.symm
    exact ⟨hP'.symm, hQ'.symm⟩
  have hfil : (plug ctx₁ (node c₁ l₁ (y, vy) r₁)).inorder =
      (plug ctx (node c l (z, v) (plug ctxR (node cy nil (y, vy) ry)))).inorder.filter
        fun e => e.1 ≠ z := by
    rw [hT, filter_middle hnod, inorder_plug, inorder_node, ← hP', ← hQ']
    simp
  refine ⟨_, _, _, ?_, focus_root.mpr h₂, ⟨k₂, hbal₂⟩, hfil, ?_⟩
  · rw [remove, if_neg hch]
    simp only [hsucc, Option.bind_eq_bind, Option.bind_some, hfix, hne, ne_eq, not_false_eq_true, if_true]
    rfl
  · intro a ha
    by_cases haz : a = z
    · rw [haz, Function.update_self, h₁.record_eq, hz]
    · have hay : a ≠ y := by
        rintro rfl
        refine ha ?_
        rw [ids, inorder_plug, inorder_node]
        simp
      rw [Function.update_of_ne haz, Function.update_of_ne hay,
        htop.outside fun hmem => ha (mem_ids_of_filter hfil hmem haz)]

theorem remove_spec (h : Stored key t s) (hz : z ∈ s.map Prod.fst) (hlen : s.card < rounds) :
    ∃ t', remove rounds t z = some t' ∧ Stored key t' (s.filter fun e => e.1 ≠ z) ∧
      ∀ a, (t'.node a).data = (t.node a).data := by
  obtain ⟨m, T, n, hfoc, hsort, hbal, rfl⟩ := h
  obtain ⟨⟨x, v⟩, hmem, rfl⟩ := List.mem_map.mp (Multiset.mem_coe.mp hz)
  obtain ⟨ctx, c, l, r, rfl⟩ := exists_plug_of_mem hmem
  have h := focus_root.mp hfoc
  have hctx := lt_of_le_of_lt (le_of_add_le_left (length_inorder_plug ctx _)) hlen
  obtain ⟨t', m', T', hremo, hrem⟩ : ∃ t' m' T', remove rounds t x = some t' ∧
      Removed t (plug ctx (node c l (x, v) r)) x t' m' T' := by
    by_cases hl : l = nil
    · subst hl
      exact remove_unlinked (d := .right) h hbal hctx
    · by_cases hr : r = nil
      · subst hr
        exact remove_unlinked (d := .left) h hbal hctx
      · exact remove_replaced h hbal hl hr hlen
  obtain ⟨k, hbal'⟩ := hrem.balanced
  refine ⟨t', hremo, ⟨m', T', k, hrem.focus, ?_, hbal', ?_⟩, data_eq_of_focus hrem.focus ?_ hrem.outside⟩
  · rw [hrem.inorder_eq]
    exact hsort.filter _
  · rw [hrem.inorder_eq, Multiset.filter_coe]
  · intro e he
    rw [hrem.inorder_eq] at he
    exact hfoc.data_eq (List.mem_of_mem_filter he)

/-! ## The operations for users of a tree -/

section users

variable {s : Multiset (ι × δ)}

section

omit [DecidableEq ι]

theorem Stored.data_eq (h : Stored key t s) (hmem : (x, v) ∈ s) : (t.node x).data = v := by
  obtain ⟨m, T, n, hfoc, -, -, rfl⟩ := h
  exact hfoc.data_eq hmem

theorem Stored.nodup (h : Stored key t s) : (s.map Prod.fst).Nodup := by
  obtain ⟨m, T, n, hfoc, -, -, rfl⟩ := h
  exact hfoc.nodup

theorem Stored.notMem (h : Stored key t ((x, v) ::ₘ s)) : x ∉ s.map Prod.fst := by
  have hnod := h.nodup
  rw [Multiset.map_cons, Multiset.nodup_cons] at hnod
  exact hnod.1

theorem Stored.inUse (h : Stored key t s) (hx : x ∈ s.map Prod.fst) : t.InUse x := by
  obtain ⟨m, T, n, hfoc, -, -, rfl⟩ := h
  exact hfoc.inUse hx

end

theorem Stored.remove (h : Stored key t ((x, v) ::ₘ s)) (hlen : s.card + 1 < rounds) :
    ∃ t', RedBlackTree.remove rounds t x = some t' ∧ Stored key t' s ∧ ∀ a, (t'.node a).data = (t.node a).data := by
  have hx : x ∈ ((x, v) ::ₘ s).map Prod.fst := by simp
  obtain ⟨t', hrem, hsto, hdata⟩ := remove_spec h hx (by rwa [Multiset.card_cons])
  refine ⟨t', hrem, ?_, hdata⟩
  have hrest : s.filter (fun e => e.1 ≠ x) = s := by
    refine Multiset.filter_eq_self.mpr fun e he heq => h.notMem ?_
    rw [← heq]
    exact Multiset.mem_map_of_mem _ he
  have hfil : ((x, v) ::ₘ s).filter (fun e => e.1 ≠ x) = s := by
    rw [Multiset.filter_cons_of_neg _ fun hne => hne rfl, hrest]
  rwa [hfil] at hsto

theorem Stored.insert (h : Stored key t s) (hx : x ∉ s.map Prod.fst) (hlen : s.card < rounds) (v : δ) :
    ∃ t', RedBlackTree.insert key rounds (t.setData x v) x = some t' ∧ Stored key t' ((x, v) ::ₘ s) := by
  have h' : Stored key (t.setData x v) s := by
    obtain ⟨m, T, n, hfoc, hsort, hbal, rfl⟩ := h
    exact ⟨_, T, n, hfoc.modify_outside hx _, hsort, hbal, rfl⟩
  obtain ⟨t', hins, hsto, -⟩ := insert_spec h' hx hlen
  refine ⟨t', hins, ?_⟩
  simpa [LinkedTree.setData, LinkedTree.modify] using hsto

end users

end RedBlackTree

end WebV8
