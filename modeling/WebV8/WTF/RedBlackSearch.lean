import WebV8.WTF.RedBlackFixup

/-!
# Finding places in a linked tree

The walks down: where a new leaf goes (`treeInsert`), and the first node of a subtree
(`treeMinimum`). And what unlinking a node with at most one child does to the balance.

The order is that of a key in the part of the data that is not a summary. Keys may be equal; a new
node goes after the nodes with its key.
-/

namespace WebV8

open Lib ColorTree LinkedTree

variable {ι δ σ κ K : Type} [LinearOrder K] {core : δ → κ} {key : κ → K}

def SortedBy (key : κ → K) (l : List (ι × κ)) : Prop := l.Pairwise fun a b => key a.2 ≤ key b.2

theorem sortedBy_iff {l : List (ι × κ)} : SortedBy key l ↔ (l.map Prod.snd).Pairwise fun a b => key a ≤ key b := by
  rw [List.pairwise_map]
  rfl

def lessBy (core : δ → κ) (key : κ → K) (v w : δ) : Bool := decide (key (core v) < key (core w))

/-- Every entry before the hole has at most the key `k`, every entry after it a larger one. -/
def Between (core : δ → κ) (key : κ → K) (k : K) (ctx : List (Frame (ι × δ))) : Prop :=
  (∀ e ∈ entriesBefore core ctx, key e.2 ≤ k) ∧ ∀ e ∈ entriesAfter core ctx, k < key e.2

variable {k : K} {ctx : List (Frame (ι × δ))} {T : ColorTree (ι × δ)} {c : Color}
  {l r : ColorTree (ι × δ)} {x z : ι} {v : δ}

theorem entriesBefore_left : entriesBefore core (⟨.left, c, (x, v), r⟩ :: ctx) = entriesBefore core ctx := by
  simp [entriesBefore, before]

theorem entriesAfter_left : entriesAfter core (⟨.left, c, (x, v), r⟩ :: ctx) =
    (x, core v) :: entries core r ++ entriesAfter core ctx := by
  simp [entriesAfter, after, entries]

theorem entriesBefore_right : entriesBefore core (⟨.right, c, (x, v), l⟩ :: ctx) =
    entriesBefore core ctx ++ (entries core l ++ [(x, core v)]) := by
  simp [entriesBefore, before, entries]

theorem entriesAfter_right : entriesAfter core (⟨.right, c, (x, v), l⟩ :: ctx) = entriesAfter core ctx := by
  simp [entriesAfter, after]

theorem SortedBy.node (h : SortedBy key (entries core (node c l (x, v) r))) :
    SortedBy key (entries core l) ∧ SortedBy key (entries core r) ∧
      (∀ e ∈ entries core l, key e.2 ≤ key (core v)) ∧ ∀ e ∈ entries core r, key (core v) ≤ key e.2 := by
  rw [entries_node] at h
  obtain ⟨hl, hr, hcro⟩ := List.pairwise_append.mp h
  refine ⟨hl, hr.of_cons, ?_, ?_⟩
  · intro e he
    exact hcro e he _ (List.mem_cons_self ..)
  · intro e he
    exact List.rel_of_pairwise_cons hr he

theorem SortedBy.bounds (h : SortedBy key (entries core (.node c l (x, v) r))) :
    (∀ e ∈ l.inorder, key (core e.2) ≤ key (core v)) ∧ ∀ e ∈ r.inorder, key (core v) ≤ key (core e.2) :=
  ⟨fun e he => h.node.2.2.1 (e.1, core e.2) (List.mem_map_of_mem he),
    fun e he => h.node.2.2.2 (e.1, core e.2) (List.mem_map_of_mem he)⟩

theorem Between.left (h : Between core key k ctx) (hk : k < key (core v))
    (hsort : SortedBy key (entries core (node c l (x, v) r))) :
    Between core key k (⟨.left, c, (x, v), r⟩ :: ctx) := by
  refine ⟨by rw [entriesBefore_left]; exact h.1, fun e he => ?_⟩
  rw [entriesAfter_left, List.cons_append] at he
  rcases List.mem_cons.mp he with rfl | he
  · exact hk
  · rcases List.mem_append.mp he with he | he
    · exact lt_of_lt_of_le hk (hsort.node.2.2.2 e he)
    · exact h.2 e he

theorem Between.right (h : Between core key k ctx) (hk : key (core v) ≤ k)
    (hsort : SortedBy key (entries core (node c l (x, v) r))) :
    Between core key k (⟨.right, c, (x, v), l⟩ :: ctx) := by
  refine ⟨fun e he => ?_, by rw [entriesAfter_right]; exact h.2⟩
  rw [entriesBefore_right] at he
  rcases List.mem_append.mp he with he | he
  · exact h.1 e he
  · rcases List.mem_append.mp he with he | he
    · exact le_trans (hsort.node.2.2.1 e he) hk
    · rw [List.mem_singleton.mp he]
      exact hk

theorem Between.sorted (h : Between core key k ctx) {a : κ} (ha : key a = k)
    (hsort : SortedBy key (entries core (plug ctx nil))) :
    SortedBy key (entriesBefore core ctx ++ (z, a) :: entriesAfter core ctx) := by
  rw [entries_plug, entries_nil, List.append_nil] at hsort
  obtain ⟨hbef, haft, hcro⟩ := List.pairwise_append.mp hsort
  refine List.pairwise_append.mpr ⟨hbef, List.pairwise_cons.mpr ⟨?_, haft⟩, ?_⟩
  · intro e he
    exact ha ▸ (h.2 e he).le
  · intro e he e' he'
    rcases List.mem_cons.mp he' with rfl | he'
    · exact ha ▸ h.1 e he
    · exact hcro e he e' he'

/-! ## The place of a new leaf -/

variable {m : ι → LinkedNode ι δ} {t : LinkedTree ι δ} {rounds : Nat}

/-- **Walks down a tree** take a round for each level: what holds of an empty tree, and of a node if it holds of
    the two children, holds of every tree in order. -/
@[elab_as_elim]
theorem Focus.walk {P : ColorTree (ι × δ) → List (Frame (ι × δ)) → Nat → Prop}
    (hnil : ∀ ctx rounds, P nil ctx (rounds + 1))
    (hnode : ∀ {c l x v r ctx rounds}, Focus m t ctx (node c l (x, v) r) →
      SortedBy key (entries core (node c l (x, v) r)) → P l (⟨.left, c, (x, v), r⟩ :: ctx) rounds →
      P r (⟨.right, c, (x, v), l⟩ :: ctx) rounds → P (node c l (x, v) r) ctx (rounds + 1))
    (h : Focus m t ctx T) (hsort : SortedBy key (entries core T)) (hlen : T.inorder.length < rounds) :
    P T ctx rounds := by
  obtain ⟨rounds, rfl⟩ := Nat.exists_eq_add_one_of_ne_zero (Nat.ne_zero_of_lt hlen)
  induction T generalizing ctx rounds with
  | nil => exact hnil ctx rounds
  | node c l a r ihl ihr =>
    obtain ⟨hsl, hsr, -⟩ := hsort.node
    obtain ⟨hl, hr⟩ := length_children hlen
    obtain ⟨rounds, rfl⟩ := Nat.exists_eq_add_one_of_ne_zero (Nat.ne_zero_of_lt hl)
    exact hnode h hsort (ihl h.left hsl rounds hl) (ihr h.right hsr rounds hr)

theorem descend_spec (data : δ) (h : Focus m t ctx T) (hsort : SortedBy key (entries core T))
    (hlen : T.inorder.length < rounds) : Between core key (key (core data)) ctx →
    ∃ ctx', t.descend (lessBy core key) data rounds (rootId T) (aboveId ctx) = some (aboveId ctx') ∧
      plug ctx' nil = plug ctx T ∧ Between core key (key (core data)) ctx' := by
  refine Focus.walk (fun ctx rounds hctx => ⟨ctx, rfl, rfl, hctx⟩) ?_ h hsort hlen
  intro c l x v r ctx rounds h hsort ihl ihr hctx
  change ∃ ctx', t.descend _ data (rounds + 1) (some x) _ = _ ∧ _
  rw [descend, h.record_eq]
  by_cases hk : key (core data) < key (core v)
  · obtain ⟨ctx', hdesc, hplug, hbtw⟩ := ihl (hctx.left hk hsort)
    exact ⟨ctx', (if_pos (decide_eq_true hk)).trans hdesc, hplug, hbtw⟩
  · obtain ⟨ctx', hdesc, hplug, hbtw⟩ := ihr (hctx.right (not_lt.mp hk) hsort)
    refine ⟨ctx', (if_neg ?_).trans hdesc, hplug, hbtw⟩
    exact fun htrue => hk (of_decide_eq_true htrue)

theorem Between.side {f : Frame (ι × δ)} (h : Between core key k (f :: ctx)) :
    (k < key (core f.label.2)) ↔ f.dir = .left := by
  obtain ⟨d, c, ⟨x, w⟩, B⟩ := f
  cases d with
  | left =>
    refine iff_of_true (h.2 (x, core w) ?_) rfl
    rw [entriesAfter_left]
    exact List.mem_cons_self ..
  | right =>
    refine iff_of_false (not_lt.mpr (h.1 (x, core w) ?_)) nofun
    rw [entriesBefore_right]
    simp

variable [DecidableEq ι] {X : ColorTree (ι × δ)}

theorem treeInsert_spec {p : Option ι} (h : Focus m t [] T) (hz : z ∉ ids T)
    (hnode : t.node z = ⟨none, none, p, c, v⟩) (hsort : SortedBy key (entries core T))
    (hlen : T.inorder.length < rounds) : ∃ t' ctx, t.treeInsert (lessBy core key) rounds z = some t' ∧
      Focus m t' ctx (node c nil (z, v) nil) ∧ plug ctx nil = T ∧ Between core key (key (core v)) ctx := by
  obtain ⟨ctx, hdesc, hplug, hbtw⟩ := descend_spec v h hsort hlen ⟨nofun, nofun⟩
  have hroot : t.root = rootId T := h.root
  rw [← hroot, aboveId_nil] at hdesc
  rw [plug_nil] at hplug
  subst hplug
  rw [focus_root] at h
  rw [ids_plug ctx nil none none, treeCells, zero_add] at hz
  rw [treeInsert, hnode, hdesc]
  cases ctx with
  | nil => exact ⟨_, [], rfl, h.hang_root hnode, rfl, hbtw⟩
  | cons f ctx =>
    refine ⟨_, f :: ctx, ?_, h.hang hz hnode, rfl, hbtw⟩
    have hne : f.label.1 ≠ z := by
      rintro rfl
      exact hz (by simp [ctxCells])
    have hside := hbtw.side
    have hz' : ((t.setParent z (some f.label.1)).node z).data = v := by
      simp [LinkedTree.setParent, LinkedTree.modify, hnode]
    have hy : ((t.setParent z (some f.label.1)).node f.label.1).data = f.label.2 := by
      rw [LinkedTree.setParent, node_modify_of_ne hne]
      exact (congrArg LinkedNode.data h.above_eq).trans (data_ofSides ..)
    simp only [aboveId_cons, Option.bind_eq_bind, Option.bind_some, hz', hy]
    cases hdir : f.dir with
    | left => exact if_pos (decide_eq_true (hside.mpr hdir))
    | right =>
      refine if_neg fun htrue => ?_
      rw [hside.mp (of_decide_eq_true htrue)] at hdir
      cases hdir

/-! ## The first node of a subtree -/

omit [LinearOrder K] [DecidableEq ι] in
theorem treeMinimum_spec : ∀ (T : ColorTree (ι × δ)) {ctx : List (Frame (ι × δ))} {x : ι} (rounds : Nat),
    Focus m t ctx T → rootId T = some x → T.inorder.length ≤ rounds →
    ∃ ctx' c y v r, t.treeMinimum rounds x = some y ∧ T = plug ctx' (node c nil (y, v) r) ∧ before ctx' = [] := by
  intro T
  induction T with
  | nil =>
    intro ctx x rounds _ hx _
    cases hx
  | node c l a r ihl _ =>
    intro ctx x rounds h hx hlen
    obtain ⟨y, v⟩ := a
    obtain rfl : y = x := by simpa [rootId] using hx
    rw [inorder_node, List.length_append, List.length_cons] at hlen
    obtain ⟨rounds, rfl⟩ := Nat.exists_eq_add_one_of_ne_zero (show rounds ≠ 0 by omega)
    rw [treeMinimum, h.record_eq]
    cases hl : rootId l with
    | none =>
      cases l with
      | nil => exact ⟨[], c, y, v, r, rfl, rfl, rfl⟩
      | node => cases hl
    | some x =>
      obtain ⟨ctx', c', z, w, r', hmin, rfl, hbef⟩ := ihl rounds h.left hl (by omega)
      refine ⟨ctx' ++ [⟨.left, c, (y, v), r⟩], c', z, w, r', hmin, ?_, ?_⟩
      · rw [plug_append]
        rfl
      · rw [before_append, hbef, List.append_nil]
        rfl

omit [LinearOrder K] in
/-- The node after one with two children, as `remove` and `deleteNode` look for it. -/
theorem Focus.successor_spec {l r : ColorTree (ι × δ)} (h : Focus m t ctx (node c l (z, v) r))
    (hl : l ≠ nil) (hr : r ≠ nil) (hlen : (plug ctx (node c l (z, v) r)).inorder.length < rounds) :
    ¬((t.node z).left = none ∨ (t.node z).right = none) ∧ ∃ ctxR cy y vy ry,
      t.successor rounds z = some (some y) ∧ r = plug ctxR (node cy nil (y, vy) ry) ∧ before ctxR = [] ∧
      Focus m t (ctxR ++ ⟨.right, c, (z, v), l⟩ :: ctx) (branch .right cy ry (y, vy) nil) ∧
      (ctxR ++ ⟨.right, c, (z, v), l⟩ :: ctx).length < rounds := by
  have hz := h.record_eq
  obtain ⟨x, hx⟩ := exists_rootId hr
  obtain ⟨x', hx'⟩ := exists_rootId hl
  have hrlen : r.inorder.length ≤ rounds := by
    rw [inorder_plug, inorder_node] at hlen
    simp at hlen
    omega
  obtain ⟨ctxR, cy, y, vy, ry, hmin, rfl, hbef⟩ := treeMinimum_spec r rounds h.right hx hrlen
  refine ⟨?_, ctxR, cy, y, vy, ry, ?_, rfl, hbef, focus_plug.mp h.right, ?_⟩
  · rw [hz, hx, hx']
    rintro (hnone | hnone) <;> cases hnone
  · simp only [successor, hz, hx, hmin, Option.map_some]
  · refine lt_of_le_of_lt (le_of_add_le_left (length_inorder_plug _ (node cy nil (y, vy) ry))) ?_
    rw [plug_append]
    exact hlen

/-! ## Unlinking -/

omit [LinearOrder K] [DecidableEq ι] in
theorem Focus.child_eq_none {d : Dir} (h : Focus m t ctx (branch d c X (z, v) nil)) :
    (t.node z).left = none ∨ (t.node z).right = none := by
  rw [h.node_eq]
  cases d with
  | left => exact .inr rfl
  | right => exact .inl rfl

omit [LinearOrder K] [DecidableEq ι] in
theorem balanced_without {d : Dir} {a : ι × δ} {n : Nat}
    (h : Balanced (plug ctx (branch d c X a nil)) .black n) :
    (c = .red → ∃ k, Balanced (plug ctx X) .black k) ∧ (c = .black → Deficit ctx X) := by
  obtain ⟨c₁, c₂, k, hctx, hsub, hc, hroot⟩ := h.unplug
  constructor
  · rintro rfl
    obtain ⟨rfl, hX, -⟩ := hsub.of_branch_red
    obtain ⟨k, l, hplug, -, hbla⟩ := hX.plug hctx fun _ => rfl
    obtain rfl := hbla fun hnil => nomatch hroot hnil
    exact ⟨l, hplug⟩
  · rintro rfl
    obtain ⟨-, l, cX, -, rfl, hX, -⟩ := hsub.of_branch_black
    refine ⟨l, _, hctx, ?_⟩
    cases cX with
    | black => exact .inl hX
    | red => exact .inr ⟨hX.rootColor_eq, hX.blacken_red⟩

end WebV8
