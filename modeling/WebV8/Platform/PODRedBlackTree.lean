import WebV8.Lib.Run
import WebV8.WTF.RedBlackSearch

/-!
# `PODRedBlackTree`

The red-black tree of `platform/PODRedBlackTree.h`, which allocates its nodes from an arena and calls
`updateNode` for trees whose nodes summarise their subtrees. The rotations and the loops that restore
the balance are those of `WTF.RedBlackLinks`; the rest is here: insertion and deletion of a node with
the updates of the summaries, and the search for data in a tree where the order does not tell all data
apart.

Deletion is where the summaries are at risk. It moves the data of the successor `y` of `z` into `z`,
updates upwards from the parent of `z` while the subtrees between `z` and the old place of `y` are
not up to date, and then upwards from there. Each of the two walks stops at the first node that does
not change. `CtxUpToDate` is the invariant: the nodes around the hole are up to date with a summary
that the subtree in it does not have any more.
-/

namespace WebV8

open Lib ColorTree

namespace PODRedBlackTree

variable {ι δ σ κ K : Type} [DecidableEq ι] {n : Nat}

/-! ## The operations -/

section operations

variable (less equal : δ → δ → Bool) (aug : Augmentation δ σ)

def propagateUpdates : Nat → LinkedTree ι δ → Option ι → Option (LinkedTree ι δ)
  | 0, _, _ => none
  | _ + 1, t, none => some t
  | rounds + 1, t, some start =>
    let (t, shouldContinue) := t.updateNode aug start
    if shouldContinue then propagateUpdates rounds t (t.node start).parent else some t

variable (rounds : Nat) (t : LinkedTree ι δ)

def insertNode (x : ι) : Option (LinkedTree ι δ) := do
  let t ← t.treeInsert less rounds x
  let t := t.setColor x .red
  let t := (t.updateNode aug x).1
  let (t, updateStart) ← LinkedTree.insertFixup aug rounds t x (t.node x).parent
  let t ← propagateUpdates aug rounds t updateStart
  let root ← t.root
  return t.setColor root .black

/-- `add`, with the address that `allocateObject` returns. -/
def add (x : ι) (data : δ) : Option (LinkedTree ι δ) :=
  insertNode less aug rounds (t.modify x fun _ => ⟨none, none, none, .red, data⟩) x

/-- What `deleteNode` does with the data when the node `y` is unlinked for `z`. -/
def moveData (y z : ι) : Option (LinkedTree ι δ) :=
  if y ≠ z then
    let t := t.setData z (t.node y).data
    -- this node has changed location in the tree and must be updated
    let t := (t.updateNode aug z).1
    -- the parent and its parents may now be out of date
    propagateUpdates aug rounds t (t.node z).parent
  else some t

/-- If we haven't already updated starting from `xParent`, do so now. -/
def updateFromParent (xParent : Option ι) (y z : ι) :
    Option (LinkedTree ι δ) :=
  if xParent ≠ none ∧ xParent ≠ some y ∧ xParent ≠ some z then propagateUpdates aug rounds t xParent
  else some t

/-- `deleteNode`; `freeObject` does nothing to the tree. -/
def deleteNode (z : ι) : Option (LinkedTree ι δ) := do
  let y ←
    if (t.node z).left = none ∨ (t.node z).right = none then some z
    else do
      let y ← t.successor rounds z
      y
  let (t, x, xParent) := t.unlink y
  let t ← moveData aug rounds t y z
  let t ← updateFromParent aug rounds t xParent y z
  if (t.node y).color = .black then LinkedTree.removeFixup aug rounds t x xParent else some t

def treeSearchFullComparisons (t : LinkedTree ι δ) (data : δ) : Nat → Option ι → Option (Option ι)
  | 0, _ => none
  | _ + 1, none => some none
  | rounds + 1, some current =>
    let n := t.node current
    if less data n.data then treeSearchFullComparisons t data rounds n.left
    else if less n.data data then treeSearchFullComparisons t data rounds n.right
    else if equal data n.data then some (some current)
    else do
      -- we may need to traverse both the left and right subtrees
      let result ← treeSearchFullComparisons t data rounds n.left
      match result with
      | some x => some (some x)
      | none => treeSearchFullComparisons t data rounds n.right

/-- `treeSearch` of a tree that needs full comparisons. -/
def treeSearch (data : δ) : Option (Option ι) :=
  treeSearchFullComparisons less equal t data rounds t.root

def remove (data : δ) : Option (LinkedTree ι δ × Bool) := do
  let node ← treeSearch less equal rounds t data
  match node with
  | some z =>
    let t ← deleteNode aug rounds t z
    return (t, true)
  | none => return (t, false)

def contains (data : δ) : Option Bool :=
  (treeSearch less equal rounds t data).map Option.isSome

end operations

/-! ## Updating upwards -/

section updates

def SameFrames (core : δ → κ) (ctx ctx' : List (Frame (ι × δ))) : Prop :=
  List.Forall₂ (fun f g => ∃ v, core v = core f.label.2 ∧
    g = ⟨f.dir, f.color, (f.label.1, v), f.sibling⟩) ctx ctx'

def SameShape (ctx ctx' : List (Frame (ι × δ))) : Prop :=
  List.Forall₂ (fun f g => ∃ a, g = ⟨f.dir, f.color, a, f.sibling⟩) ctx ctx'

variable {aug : Augmentation δ σ} {core : δ → κ} {ctx ctx' : List (Frame (ι × δ))}
  {T X : ColorTree (ι × δ)}

section

omit [DecidableEq ι]

theorem SameShape.refl (ctx : List (Frame (ι × δ))) : SameShape ctx ctx :=
  List.forall₂_same.mpr fun _ _ => ⟨_, rfl⟩

theorem SameShape.holeOk {c : Color} (h : SameShape ctx ctx') (hctx : HoleOk ctx c n) :
    HoleOk ctx' c n := by
  induction h generalizing c n with
  | nil => exact hctx
  | cons hf hrest ih =>
    obtain ⟨a, rfl⟩ := hf
    cases hctx with
    | red hs hctx hne =>
      refine .red hs (ih hctx) fun hnil => hne ?_
      rw [hnil] at hrest
      exact List.forall₂_nil_right_iff.mp hrest
    | black hs hctx => exact .black hs (ih hctx)

theorem SameShape.deficit (h : SameShape ctx ctx') (hdef : Deficit ctx X) : Deficit ctx' X := by
  obtain ⟨n, c, hctx, hX⟩ := hdef
  exact ⟨n, c, h.holeOk hctx, hX⟩

theorem SameShape.balanced (h : SameShape ctx ctx') {c : Color} {T' : ColorTree (ι × δ)}
    (hT : ∀ {c n}, Balanced T c n → Balanced T' c n) (hbal : Balanced (plug ctx T) c n) :
    Balanced (plug ctx' T') c n := by
  induction h generalizing T T' with
  | nil => exact hT hbal
  | @cons f g ctx ctx' hf _ ih =>
    obtain ⟨a, rfl⟩ := hf
    refine ih (fun {c n} hfill => ?_) hbal
    obtain ⟨d, cf, b, B⟩ := f
    cases cf with
    | red =>
      obtain ⟨rfl, hsub, hB⟩ := Balanced.of_branch_red hfill
      exact (hT hsub).branch_red hB
    | black =>
      obtain ⟨rfl, k, c₁, c₂, rfl, hsub, hB⟩ := Balanced.of_branch_black hfill
      exact (hT hsub).branch_black hB

theorem SameFrames.refl (ctx : List (Frame (ι × δ))) : SameFrames core ctx ctx :=
  List.forall₂_same.mpr fun _ _ => ⟨_, rfl, rfl⟩

variable (h : SameFrames core ctx ctx')
include h

theorem SameFrames.aboveId_eq : aboveId ctx' = aboveId ctx := by
  cases h with
  | nil => rfl
  | cons hf _ =>
    obtain ⟨v, -, rfl⟩ := hf
    rfl

theorem SameFrames.sameShape : SameShape ctx ctx' :=
  h.imp fun _ _ ⟨_, _, hg⟩ => ⟨_, hg⟩

theorem SameFrames.entries_plug (hT : entries core T = entries core X) :
    entries core (plug ctx' T) = entries core (plug ctx X) := by
  induction h generalizing T X with
  | nil => exact hT
  | cons hf _ ih =>
    obtain ⟨v, hv, rfl⟩ := hf
    exact ih (entries_branch_congr hT rfl hv)

theorem SameFrames.ids_plug : ids (plug ctx' T) = ids (plug ctx T) := by
  have hent : entries core (plug ctx' T) = entries core (plug ctx T) := h.entries_plug rfl
  rw [ids_eq_entries, ids_eq_entries, hent]

end

variable {m : ι → LinkedNode ι δ} {t : LinkedTree ι δ}

theorem updateFromParent_eq {rounds : Nat} {xParent : Option ι} {y z : ι} (hy : xParent ≠ some y)
    (hz : xParent ≠ some z) (hrou : 0 < rounds) :
    updateFromParent aug rounds t xParent y z = propagateUpdates aug rounds t xParent := by
  cases xParent with
  | none =>
    obtain ⟨rounds, rfl⟩ := Nat.exists_eq_add_one_of_ne_zero hrou.ne'
    rfl
  | some p => exact if_pos ⟨nofun, hy, hz⟩

/-- **The walk upwards** makes the nodes around the hole up to date with the subtree in it. It may stop
    early, because the nodes further up were up to date with what it has not changed. -/
theorem propagateUpdates_spec (hlaw : aug.Lawful core) : ∀ {ctx : List (Frame (ι × δ))} {t : LinkedTree ι δ}
    {T : ColorTree (ι × δ)} {s : Option σ} (rounds : Nat),
    Focus m t ctx T → CtxUpToDate aug ctx s → ctx.length < rounds →
    ∃ t' ctx', propagateUpdates aug rounds t (aboveId ctx) = some t' ∧ Focus m t' ctx' T ∧
      CtxUpToDate aug ctx' (summaryOf aug T) ∧ SameFrames core ctx ctx' := by
  intro ctx
  induction ctx with
  | nil =>
    intro t T s rounds h _ hlen
    obtain ⟨rounds, rfl⟩ := Nat.exists_eq_add_one_of_ne_zero (Nat.ne_zero_of_lt hlen)
    exact ⟨t, [], rfl, h, trivial, .nil⟩
  | cons f ctx ih =>
    intro t T s rounds h hs hlen
    obtain ⟨d, c, ⟨x, v⟩, B⟩ := f
    obtain ⟨rounds, rfl⟩ := Nat.exists_eq_add_one_of_ne_zero (Nat.ne_zero_of_lt hlen)
    obtain ⟨hv, hB, hctx⟩ := hs
    obtain ⟨t₁, hupd, h₁⟩ := (focus_branch.mpr h).updateNode aug
    have hcore := core_refresh hlaw d v (summaryOf aug T) (summaryOf aug B)
    have haga := refresh_refresh hlaw d v (summaryOf aug T) (summaryOf aug B)
    rw [aboveId_cons, propagateUpdates, hupd]
    dsimp only
    cases hcha : (aug.refresh d v (summaryOf aug T) (summaryOf aug B)).2 with
    | false =>
      -- nothing has changed here, so nothing changes above
      have hsame := refresh_unchanged hlaw d v _ _ hcha
      rw [hsame] at h₁
      refine ⟨t₁, _, rfl, focus_branch.mp h₁, ⟨hsame, hB, hctx⟩, .refl _⟩
    | true =>
      obtain ⟨t', ctx', hprop, h', hctx', hfrs⟩ := ih rounds h₁ hctx (Nat.lt_of_succ_lt_succ hlen)
      rw [summaryOf_branch] at hctx'
      refine ⟨t', _, ?_, focus_branch.mp h', ⟨haga, hB, hctx'⟩, .cons ⟨_, hcore, rfl⟩ hfrs⟩
      rw [h₁.node_eq, parent_ofSides]
      exact hprop

end updates

/-! ## Insertion and deletion -/

section specs

variable [LinearOrder K] (aug : Augmentation δ σ) (core : δ → κ) (key : κ → K)

/-- The tree in memory is `T`, in order, with the colours of a red-black tree and all summaries up to
    date. -/
structure Holds (t : LinkedTree ι δ) (T : ColorTree (ι × δ)) : Prop where
  focus : ∃ m, Focus m t [] T
  sorted : SortedBy key (entries core T)
  balanced : ∃ n, Balanced T .black n
  upToDate : UpToDate aug T

variable {aug core key} {m : ι → LinkedNode ι δ} {t : LinkedTree ι δ} {ctx : List (Frame (ι × δ))}
  {T X : ColorTree (ι × δ)} {x y z : ι} {c : Color} {v : δ} {rounds : Nat}

theorem add_spec (hlaw : aug.Lawful core) (h : Holds aug core key t T) (hx : x ∉ ids T)
    (hlen : T.inorder.length + 1 < rounds) (data : δ) :
    ∃ t' T' l₁ l₂, add (lessBy core key) aug rounds t x data = some t' ∧ Holds aug core key t' T' ∧
      entries core T = l₁ ++ l₂ ∧ entries core T' = l₁ ++ (x, core data) :: l₂ := by
  obtain ⟨⟨m, hfoc⟩, hsort, ⟨n, hbal⟩, hfre⟩ := h
  have h₀ := hfoc.modify_outside hx fun _ => ⟨none, none, none, .red, data⟩
  have hnode : (t.modify x fun _ => ⟨none, none, none, .red, data⟩).node x =
      ⟨none, none, none, .red, data⟩ := by
    simp [LinkedTree.modify]
  obtain ⟨t₁, ctx, hinse, h₁, rfl, hbtw⟩ :=
    treeInsert_spec h₀ hx hnode hsort (lt_of_le_of_lt (Nat.le_succ _) hlen)
  have h₂ := Focus.setColor (d := .left) h₁ .red
  obtain ⟨t₂, hupd, h₂⟩ := h₂.updateNode aug
  -- the leaf is red, up to date, and fits into the place of an empty tree
  have hcore := core_refresh hlaw .left data (summaryOf aug (nil : ColorTree (ι × δ)))
    (summaryOf aug (nil : ColorTree (ι × δ)))
  have hleaf := refresh_refresh hlaw .left data (summaryOf aug (nil : ColorTree (ι × δ)))
    (summaryOf aug (nil : ColorTree (ι × δ)))
  generalize (aug.refresh .left data (summaryOf aug (nil : ColorTree (ι × δ)))
    (summaryOf aug (nil : ColorTree (ι × δ)))).1 = w at h₂ hcore hleaf
  obtain ⟨c₁, c₂, k, hctx, hnil, -⟩ := hbal.unplug
  obtain rfl : k = 0 := by
    cases hnil
    rfl
  obtain ⟨-, hctxf⟩ := upToDate_plug.mp hfre
  have hctxl := length_inorder_plug ctx (nil : ColorTree (ι × δ))
  obtain ⟨t₃, ctx₃, T₃, hfix, hins⟩ := insertFixup_spec hlaw rounds h₂ rfl (.red .nil .nil) hctx
    (upToDate_branch.mpr ⟨hleaf, trivial, trivial⟩) hctxf (by rw [inorder_nil] at hctxl; omega)
  have hent : entries core (plug ctx₃ T₃) =
      entriesBefore core ctx ++ (x, core data) :: entriesAfter core ctx := by
    rw [hins.entries_eq, entries_plug, entries_left, hcore]
    simp
  have hold : entries core (plug ctx nil) = entriesBefore core ctx ++ entriesAfter core ctx := by
    rw [entries_plug, entries_nil, List.append_nil]
  have hlen₃ : ctx₃.length < rounds := by
    have hlen₃ := length_inorder_plug ctx₃ T₃
    have hcnt := congrArg List.length hent
    have hcnt' := congrArg List.length hold
    simp [entries] at hcnt hcnt'
    omega
  obtain ⟨s, haro⟩ := hins.around
  obtain ⟨t₄, ctx₄, hprop, h₄, hctx₄, hfrs⟩ := propagateUpdates_spec hlaw rounds hins.focus haro hlen₃
  have h₄ := focus_root.mpr h₄
  have hent₄ := (hfrs.entries_plug (T := T₃) rfl).trans hent
  obtain ⟨c₃, n₃, hbal₃⟩ := hins.balanced
  obtain ⟨n₄, hbal₄⟩ := (hfrs.sameShape.balanced (fun hT => hT) hbal₃).blacken
  obtain ⟨r, hr⟩ : ∃ r, rootId (plug ctx₄ T₃) = some r := by
    refine exists_rootId fun hnil => ?_
    rw [hnil, entries_nil] at hent₄
    exact absurd hent₄.symm (by simp)
  have hsha : Reshaped aug core (plug ctx₄ T₃) (plug ctx₄ T₃).blacken := .blacken _
  refine ⟨t₄.setColorIf (rootId (plug ctx₄ T₃)) .black, (plug ctx₄ T₃).blacken,
    entriesBefore core ctx, entriesAfter core ctx, ?_, ⟨⟨_, h₄.setColorIf_black⟩, ?_, ⟨n₄, hbal₄⟩, ?_⟩,
    hold, ?_⟩
  · have hpar : (t₂.node x).parent = aboveId ctx := by
      rw [h₂.node_eq, parent_ofSides]
    have hroot : t₄.root = some r := h₄.root.trans hr
    simp only [add, insertNode, hinse, hupd, hpar, hfix, hprop, hroot, Option.bind_eq_bind,
      Option.bind_some, hr]
    rfl
  · rw [hsha.entries_eq, hent₄]
    exact hbtw.sorted rfl hsort
  · exact (hsha.upToDate (upToDate_plug.mpr ⟨hins.upToDate, hctx₄⟩)).1
  · rw [hsha.entries_eq, hent₄]

theorem removeFixup_if_black (hlaw : aug.Lawful core) (h : Focus m t ctx X) (hy : (t.node y).color = c)
    (hfre : UpToDate aug (plug ctx X)) (hred : c = .red → ∃ k, Balanced (plug ctx X) .black k)
    (hbla : c = .black → Deficit ctx X) (hlen : ctx.length < rounds) : ∃ t' T', (if (t.node y).color = .black then
        LinkedTree.removeFixup aug rounds t (rootId X) (aboveId ctx) else some t) = some t' ∧
      Focus m t' [] T' ∧ (∃ k, Balanced T' .black k) ∧ UpToDate aug T' ∧
      entries core T' = entries core (plug ctx X) := by
  rw [hy]
  cases c with
  | red => exact ⟨t, plug ctx X, rfl, focus_root.mpr h, hred rfl, hfre, rfl⟩
  | black =>
    obtain ⟨t', T', hfix, h', hbal, hsha⟩ := removeFixup_spec hlaw rounds h (hbla rfl) (.inl hlen)
    exact ⟨t', T', hfix, h', hbal, (hsha.upToDate hfre).1, hsha.entries_eq⟩

/-- What `deleteNode` leaves: the data at one place is gone. -/
structure Deleted (aug : Augmentation δ σ) (core : δ → κ) (T : ColorTree (ι × δ)) (v : δ)
    (t' : LinkedTree ι δ) (T' : ColorTree (ι × δ)) : Prop where
  focus : ∃ m, Focus m t' [] T'
  balanced : ∃ k, Balanced T' .black k
  upToDate : UpToDate aug T'
  data : ∃ l₁ l₂, (entries core T).map Prod.snd = l₁ ++ core v :: l₂ ∧
    (entries core T').map Prod.snd = l₁ ++ l₂

omit [DecidableEq ι] in
theorem aboveId_mem_ids {ctx : List (Frame (ι × δ))} {p : ι} (h : aboveId ctx = some p) : p ∈ ids (plug ctx X) := by
  cases ctx with
  | nil => cases h
  | cons f ctx =>
    obtain rfl := Option.some.inj h
    rw [ids_plug (f :: ctx) X none none]
    simp [ctxCells]

theorem deleteNode_unlinked {d : Dir} (hlaw : aug.Lawful core)
    (h : Focus m t ctx (branch d c X (z, v) nil)) (hbal : Balanced (plug ctx (branch d c X (z, v) nil)) .black n)
    (hfre : UpToDate aug (plug ctx (branch d c X (z, v) nil))) (hlen : ctx.length < rounds) :
    ∃ t' T', deleteNode aug rounds t z = some t' ∧
      Deleted aug core (plug ctx (branch d c X (z, v) nil)) v t' T' := by
  have hcol : (t.node z).color = c := by
    rw [h.node_eq, color_ofSides]
  obtain ⟨hred, hbla⟩ := balanced_without hbal
  obtain ⟨t₁, hunl, hz, hout, h₁⟩ := h.unlink
  obtain ⟨hsub, hctx⟩ := upToDate_plug.mp hfre
  obtain ⟨-, hX, -⟩ := upToDate_branch.mp hsub
  -- the walk upwards from the parent
  obtain ⟨t₂, ctx₂, hprop, h₂, hctx₂, hfrs⟩ := propagateUpdates_spec hlaw rounds h₁ hctx hlen
  have hupd : updateFromParent aug rounds t₁ (aboveId ctx) z z = some t₂ := by
    have hne : aboveId ctx ≠ some z := fun heq => hout (aboveId_mem_ids heq)
    exact (updateFromParent_eq hne hne (Nat.zero_lt_of_lt hlen)).trans hprop
  have hz₂ : (t₂.node z).color = c := by
    rw [(focus_root.mpr h₂).outside (by rwa [hfrs.ids_plug]), Function.update_self, hcol]
  obtain ⟨t', T', hfix, h', hbal', hfre', hent⟩ := removeFixup_if_black hlaw h₂ hz₂
    (upToDate_plug.mpr ⟨hX, hctx₂⟩)
    (fun hc => (hred hc).imp fun k hk => hfrs.sameShape.balanced (fun h => h) hk)
    (fun hc => hfrs.sameShape.deficit (hbla hc)) (hfrs.length_eq ▸ hlen)
  refine ⟨t', T', ?_, ⟨_, h'⟩, hbal', hfre', ?_⟩
  · rw [hfrs.aboveId_eq] at hfix
    rw [deleteNode, if_pos h.child_eq_none]
    simp only [Option.bind_eq_bind, Option.bind_some, hunl, moveData, ne_eq, not_true_eq_false, if_false, hupd]
    exact hfix
  · rw [hent, hfrs.entries_plug rfl, entries_plug, entries_plug]
    cases d with
    | left =>
      exact ⟨(entriesBefore core ctx ++ entries core X).map Prod.snd,
        (entriesAfter core ctx).map Prod.snd, by simp, by simp⟩
    | right =>
      exact ⟨(entriesBefore core ctx).map Prod.snd,
        (entries core X ++ entriesAfter core ctx).map Prod.snd, by simp, by simp⟩

theorem deleteNode_moved {l r : ColorTree (ι × δ)} (hlaw : aug.Lawful core)
    (h : Focus m t ctx (node c l (z, v) r)) (hbal : Balanced (plug ctx (node c l (z, v) r)) .black n)
    (hfre : UpToDate aug (plug ctx (node c l (z, v) r))) (hl : l ≠ nil) (hr : r ≠ nil)
    (hlen : (plug ctx (node c l (z, v) r)).inorder.length < rounds) : ∃ t' T', deleteNode aug rounds t z = some t' ∧
      Deleted aug core (plug ctx (node c l (z, v) r)) v t' T' := by
  obtain ⟨hch, ctxR, cy, y, vy, ry, hsucc, rfl, hbef, hy, hlenY⟩ := h.successor_spec hl hr hlen
  have hbalY : Balanced (plug (ctxR ++ ⟨.right, c, (z, v), l⟩ :: ctx) (branch .right cy ry (y, vy) nil))
      .black n := by
    rw [plug_append]
    exact hbal
  obtain ⟨hred, hbla⟩ := balanced_without hbalY
  obtain ⟨t₁, hunl, hyno, hout, h₁⟩ := hy.unlink
  -- the data of `y` goes to `z`, and the nodes above `z` are updated
  have hz₁ : Focus _ t₁ ctx (branch .left c l (z, v) (plug ctxR ry)) :=
    (focus_branch (d := .right)).mpr (focus_plug.mpr h₁)
  have hyda : (t₁.node y).data = vy := by
    rw [hyno, hy.node_eq, data_ofSides]
  obtain ⟨t₂, hupd, h₂⟩ := (hz₁.setData vy).updateNode aug
  have hcore := core_refresh hlaw .left vy (summaryOf aug l) (summaryOf aug (plug ctxR ry))
  have haga := refresh_refresh hlaw .left vy (summaryOf aug l) (summaryOf aug (plug ctxR ry))
  generalize (aug.refresh .left vy (summaryOf aug l) (summaryOf aug (plug ctxR ry))).1 = w at h₂ hcore haga
  obtain ⟨hsub, hctx⟩ := upToDate_plug.mp hfre
  obtain ⟨-, hfl, hfR⟩ := hsub
  obtain ⟨⟨-, -, hfry⟩, hctxR⟩ := upToDate_plug.mp hfR
  obtain ⟨t₃, ctx₃, hprop, h₃, hctx₃, hfrs⟩ :=
    propagateUpdates_spec hlaw rounds h₂ hctx (lt_of_le_of_lt (le_of_add_le_left (length_inorder_plug ctx _)) hlen)
  have hne : y ≠ z := by
    rintro rfl
    refine h.notMem_right ?_
    rw [ids, inorder_plug, inorder_node]
    simp
  have hmove : moveData aug rounds t₁ y z = some t₃ := by
    have hpar : (t₂.node z).parent = aboveId ctx := by
      rw [h₂.node_eq, parent_ofSides]
    rw [moveData, if_pos hne]
    simp only [hyda, hupd, hpar, hprop]
  -- the nodes from the old place of `y` up to `z` are up to date with what was there
  have h₃' : Focus _ t₃ (ctxR ++ ⟨.right, c, (z, w), l⟩ :: ctx₃) ry := focus_plug.mp (Focus.right h₃)
  have hlenM : (ctxR ++ ⟨.right, c, (z, w), l⟩ :: ctx₃).length < rounds := by
    rw [List.length_append, List.length_cons] at hlenY ⊢
    rwa [hfrs.length_eq] at hlenY
  obtain ⟨t₄, ctx₄, hupda, h₄, hctx₄, hfrs₄⟩ : ∃ t₄ ctx₄,
      updateFromParent aug rounds t₃ (aboveId (ctxR ++ ⟨.right, c, (z, v), l⟩ :: ctx)) y z = some t₄ ∧
      Focus (Function.update m y (t.node y)) t₄ ctx₄ ry ∧ CtxUpToDate aug ctx₄ (summaryOf aug ry) ∧
      SameFrames core (ctxR ++ ⟨.right, c, (z, w), l⟩ :: ctx₃) ctx₄ := by
    cases ctxR with
    | nil =>
      -- `z` is the parent, and has just been updated
      refine ⟨t₃, _, if_neg ?_, h₃', ⟨haga, hfl, ?_⟩, .refl _⟩
      · exact fun hcond => hcond.2.2 rfl
      · rwa [summaryOf_branch] at hctx₃
    | cons f ctxR =>
      have habv : some f.label.1 ≠ some z := by
        intro heq
        have hmem : f.label.1 ∈ ids (plug (f :: ctxR) ry) := aboveId_mem_ids rfl
        rw [Option.some.inj heq] at hmem
        exact Focus.notMem_right hz₁ hmem
      have hctxM : CtxUpToDate aug ((f :: ctxR) ++ ⟨.right, c, (z, w), l⟩ :: ctx₃)
          (summaryOf aug (node cy nil (y, vy) ry)) := by
        refine ctxUpToDate_append.mpr ⟨hctxR, ?_, hfl, ?_⟩
        · have hsame : summaryOf aug (plug (f :: ctxR) (node cy nil (y, vy) ry)) =
              summaryOf aug (plug (f :: ctxR) ry) := by
            refine summaryOf_plug_congr ctxR ?_
            rw [Frame.fill, Frame.fill, summaryOf, summaryOf, root?_branch, root?_branch]
          rw [hsame]
          exact haga
        · rwa [summaryOf_branch] at hctx₃
      obtain ⟨t₄, ctx₄, hprop₄, h₄, hctx₄, hfrs₄⟩ := propagateUpdates_spec hlaw rounds h₃' hctxM hlenM
      refine ⟨t₄, ctx₄, ?_, h₄, hctx₄, hfrs₄⟩
      refine (updateFromParent_eq ?_ habv (Nat.zero_lt_of_lt hlenM)).trans hprop₄
      exact fun heq => hout (aboveId_mem_ids heq)
  have hent₄ : entries core (plug ctx₄ ry) = entriesBefore core ctx ++
      (entries core l ++ (z, core vy) :: entries core (plug ctxR ry)) ++ entriesAfter core ctx := by
    rw [hfrs₄.entries_plug rfl, plug_append, plug_cons, hfrs.entries_plug rfl, entries_plug,
      Frame.fill, entries_right, hcore]
  have hy₄ : (t₄.node y).color = cy := by
    have hids : ids (plug ctx₄ ry) = ids (plug (ctxR ++ ⟨.right, c, (z, v), l⟩ :: ctx) ry) := by
      have hentY : entries core (plug (ctxR ++ ⟨.right, c, (z, v), l⟩ :: ctx) ry) = entriesBefore core ctx ++
            (entries core l ++ (z, core v) :: entries core (plug ctxR ry)) ++ entriesAfter core ctx := by
        rw [plug_append, plug_cons, entries_plug, Frame.fill, entries_right]
      rw [ids_eq_entries, ids_eq_entries, hent₄, hentY]
      simp
    rw [(focus_root.mpr h₄).outside (by rwa [hids]), Function.update_self, hy.node_eq, color_ofSides]
  -- the colours and the subtrees are those of the tree without `y`
  have hsha : SameShape (ctxR ++ ⟨.right, c, (z, v), l⟩ :: ctx) (ctxR ++ ⟨.right, c, (z, w), l⟩ :: ctx₃) :=
    List.rel_append (SameShape.refl ctxR) (.cons ⟨_, rfl⟩ hfrs.sameShape)
  obtain ⟨t', T', hfix, h', hbal', hfre', hent⟩ := removeFixup_if_black hlaw h₄ hy₄
    (upToDate_plug.mpr ⟨hfry, hctx₄⟩)
    (fun hc => (hred hc).imp fun k hk => hfrs₄.sameShape.balanced (fun h => h) (hsha.balanced (fun h => h) hk))
    (fun hc => hfrs₄.sameShape.deficit (hsha.deficit (hbla hc))) (hfrs₄.length_eq ▸ hlenM)
  refine ⟨t', T', ?_, ⟨_, h'⟩, hbal', hfre', ?_⟩
  · have habv : aboveId ctx₄ = aboveId (ctxR ++ ⟨.right, c, (z, v), l⟩ :: ctx) := by
      rw [hfrs₄.aboveId_eq]
      cases ctxR <;> rfl
    rw [habv] at hfix
    rw [deleteNode, if_neg hch]
    simp only [hsucc, Option.bind_eq_bind, Option.bind_some, hunl, hmove, hupda]
    exact hfix
  · have hR : entries core (plug ctxR (node cy nil (y, vy) ry)) =
        (y, core vy) :: entries core (plug ctxR ry) := by
      rw [entries_plug, entries_plug, entries_node]
      simp [entriesBefore, hbef]
    rw [hent, hent₄, entries_plug, entries_node, hR]
    exact ⟨(entriesBefore core ctx ++ entries core l).map Prod.snd,
      (core vy :: (entries core (plug ctxR ry) ++ entriesAfter core ctx).map Prod.snd),
      by simp, by simp⟩

theorem deleteNode_spec (hlaw : aug.Lawful core) (h : Holds aug core key t T) (hz : (z, v) ∈ T.inorder)
    (hlen : T.inorder.length < rounds) :
    ∃ t' T' l₁ l₂, deleteNode aug rounds t z = some t' ∧ Holds aug core key t' T' ∧
      (entries core T).map Prod.snd = l₁ ++ core v :: l₂ ∧ (entries core T').map Prod.snd = l₁ ++ l₂ := by
  obtain ⟨⟨m, hfoc⟩, hsort, ⟨n, hbal⟩, hfre⟩ := h
  obtain ⟨ctx, c, l, r, rfl⟩ := exists_plug_of_mem hz
  rw [focus_root] at hfoc
  have hctx := lt_of_le_of_lt (le_of_add_le_left (length_inorder_plug ctx _)) hlen
  obtain ⟨t', T', hdele, hdel⟩ : ∃ t' T', deleteNode aug rounds t z = some t' ∧
      Deleted aug core (plug ctx (node c l (z, v) r)) v t' T' := by
    by_cases hl : l = nil
    · subst hl
      exact deleteNode_unlinked (d := .right) hlaw hfoc hbal hfre hctx
    · by_cases hr : r = nil
      · subst hr
        exact deleteNode_unlinked (d := .left) hlaw hfoc hbal hfre hctx
      · exact deleteNode_moved hlaw hfoc hbal hfre hl hr hlen
  obtain ⟨l₁, l₂, hdata, hdata'⟩ := hdel.data
  refine ⟨t', T', l₁, l₂, hdele, ⟨hdel.focus, ?_, hdel.balanced, hdel.upToDate⟩, hdata, hdata'⟩
  rw [sortedBy_iff, hdata] at hsort
  rw [sortedBy_iff, hdata']
  exact hsort.sublist ((List.Sublist.refl l₁).append (List.sublist_cons_self ..))

/-! ## Searching -/

/-- What a search may return: a node with equal data, or null if there is none. -/
def Found (core : δ → κ) (data : δ) (l : List (ι × δ)) : Option ι → Prop
  | some x => ∃ v, (x, v) ∈ l ∧ core v = core data
  | none => ∀ e ∈ l, core e.2 ≠ core data

variable {equal : δ → δ → Bool} (hequal : ∀ v w, equal v w = true ↔ core v = core w)
include hequal

omit [DecidableEq ι] in
theorem treeSearchFullComparisons_spec (data : δ) (h : Focus m t ctx T) (hsort : SortedBy key (entries core T))
    (hlen : T.inorder.length < rounds) :
    ∃ r, treeSearchFullComparisons (lessBy core key) equal t data rounds (rootId T) = some r ∧
      Found core data T.inorder r := by
  refine Focus.walk (fun ctx rounds => ⟨none, rfl, nofun⟩) ?_ h hsort hlen
  rintro c l x v r ctx rounds h hsort ⟨resl, hfin, hresl⟩ ⟨resr, hfind, hresr⟩
  obtain ⟨hle, hge⟩ := hsort.bounds
  have hinl : ∀ {y}, Found core data l.inorder (some y) → Found core data (node c l (x, v) r).inorder (some y) :=
    fun ⟨w, hw, heq⟩ => ⟨w, mem_inorder_node.mpr (.inl hw), heq⟩
  have hinr : ∀ {y}, Found core data r.inorder (some y) → Found core data (node c l (x, v) r).inorder (some y) :=
    fun ⟨w, hw, heq⟩ => ⟨w, mem_inorder_node.mpr (.inr (.inr hw)), heq⟩
  have hnone : Found core data l.inorder none → core v ≠ core data → Found core data r.inorder none →
      Found core data (node c l (x, v) r).inorder none := by
    intro hl hv hr e he
    rcases mem_inorder_node.mp he with he | rfl | he
    · exact hl e he
    · exact hv
    · exact hr e he
  change ∃ res, treeSearchFullComparisons (lessBy core key) equal t data (rounds + 1) (some x) = some res ∧ _
  simp only [treeSearchFullComparisons, h.record_eq, lessBy, decide_eq_true_eq]
  by_cases hlt : key (core data) < key (core v)
  · -- only the left subtree can have it
    refine ⟨resl, (if_pos hlt).trans hfin, ?_⟩
    cases resl with
    | some y => exact hinl hresl
    | none =>
      refine hnone hresl (fun heq => hlt.ne' (congrArg key heq)) fun e he heq => ?_
      exact absurd (heq ▸ hge e he) (not_le.mpr hlt)
  · rw [if_neg hlt]
    by_cases hgt : key (core v) < key (core data)
    · refine ⟨resr, (if_pos hgt).trans hfind, ?_⟩
      cases resr with
      | some y => exact hinr hresr
      | none =>
        refine hnone (fun e he heq => ?_) (fun heq => hgt.ne (congrArg key heq)) hresr
        exact absurd (heq ▸ hle e he) (not_le.mpr hgt)
    · rw [if_neg hgt]
      by_cases heq : core data = core v
      · refine ⟨some x, if_pos ((hequal data v).mpr heq), v, ?_, heq.symm⟩
        exact mem_inorder_node.mpr (.inr (.inl rfl))
      · -- equal keys: both subtrees may have it
        rw [if_neg fun htrue => heq ((hequal data v).mp htrue), hfin]
        cases resl with
        | some y => exact ⟨some y, rfl, hinl hresl⟩
        | none =>
          refine ⟨resr, hfind, ?_⟩
          cases resr with
          | some y => exact hinr hresr
          | none => exact hnone hresl (Ne.symm heq) hresr

variable [DecidableEq κ]

def dataOf (core : δ → κ) (T : ColorTree (ι × δ)) : Multiset κ := ((entries core T).map Prod.snd : List κ)

omit hequal [LinearOrder K] [DecidableEq ι] [DecidableEq κ] in
theorem mem_dataOf {k : κ} : k ∈ dataOf core T ↔ ∃ e ∈ T.inorder, core e.2 = k := by
  simp [dataOf, entries]

omit [DecidableEq ι] in
theorem contains_spec (h : Holds aug core key t T) (hlen : T.inorder.length < rounds) (data : δ) :
    contains (lessBy core key) equal rounds t data = some (decide (core data ∈ dataOf core T)) := by
  obtain ⟨⟨m, hfoc⟩, hsort, -, -⟩ := h
  obtain ⟨r, hfind, hr⟩ := treeSearchFullComparisons_spec hequal data hfoc hsort hlen
  have hroot : t.root = rootId T := hfoc.root
  rw [contains, treeSearch, hroot, hfind]
  cases r with
  | some x =>
    obtain ⟨v, hv, heq⟩ := hr
    rw [decide_eq_true (mem_dataOf.mpr ⟨_, hv, heq⟩)]
    rfl
  | none =>
    rw [decide_eq_false fun hmem => ?_]
    · rfl
    · obtain ⟨e, he, heq⟩ := mem_dataOf.mp hmem
      exact hr e he heq

theorem remove_spec (hlaw : aug.Lawful core) (h : Holds aug core key t T)
    (hlen : T.inorder.length < rounds) (data : δ) : ∃ t' T', remove (lessBy core key) equal aug rounds t data =
        some (t', decide (core data ∈ dataOf core T)) ∧
      Holds aug core key t' T' ∧ dataOf core T' = (dataOf core T).erase (core data) := by
  obtain ⟨m, hfoc⟩ := h.focus
  obtain ⟨r, hfind, hr⟩ := treeSearchFullComparisons_spec hequal data hfoc h.sorted hlen
  have hroot : t.root = rootId T := hfoc.root
  rw [remove, treeSearch, hroot, hfind]
  cases r with
  | some x =>
    obtain ⟨v, hv, heq⟩ := hr
    obtain ⟨t', T', l₁, l₂, hdel, hhol, hdata, hdata'⟩ := deleteNode_spec hlaw h hv hlen
    refine ⟨t', T', ?_, hhol, ?_⟩
    · rw [decide_eq_true (mem_dataOf.mpr ⟨_, hv, heq⟩)]
      simp only [Option.bind_eq_bind, Option.bind_some, hdel]
      rfl
    · have hperm : (l₁ ++ core data :: l₂ : List κ).Perm (core data :: (l₁ ++ l₂)) := List.perm_middle
      rw [dataOf, dataOf, hdata, hdata', heq, Multiset.coe_eq_coe.mpr hperm, ← Multiset.cons_coe,
        Multiset.erase_cons_head]
  | none =>
    have hnot : core data ∉ dataOf core T := fun hmem => by
      obtain ⟨e, he, heq⟩ := mem_dataOf.mp hmem
      exact hr e he heq
    refine ⟨t, T, ?_, h, (Multiset.erase_of_notMem hnot).symm⟩
    rw [decide_eq_false hnot]
    rfl

end specs

end PODRedBlackTree

end WebV8
