import WebV8.WTF.RedBlackTree

/-!
# Searches in a `RedBlackTree`, and runs of it

The three searches, and then any sequence of `insert` and `remove` from an empty tree. A tree is
right if its links are those of some binary tree, in both directions and without sharing, that is
in order, has the colours of a red-black tree and has exactly the nodes that were inserted and not
removed; and if the three searches give what their names say.

A loop of the source that does not end, or that follows a null pointer, has no result in the model.
That a run has a result is therefore part of the statement; in particular `removeFixup` finds a
sibling in each of its rounds.
-/

namespace WebV8

open Lib ColorTree Multiset

variable {rounds : Nat}

namespace RedBlackTree

variable {ι δ K : Type} [LinearOrder K] {key : δ → K} {k : K}

/-! ## Searches -/

def IsExact (key : δ → K) (k : K) (s : Multiset (ι × δ)) : Option ι → Prop
  | some x => ∃ v, (x, v) ∈ s ∧ key v = k
  | none => ∀ e ∈ s, key e.2 ≠ k

/-- A node with the least key that is at least `k`, if there is one. -/
def IsLeastGreaterThanOrEqual (key : δ → K) (k : K) (s : Multiset (ι × δ)) : Option ι → Prop
  | some x => ∃ v, (x, v) ∈ s ∧ k ≤ key v ∧ ∀ e ∈ s, k ≤ key e.2 → key v ≤ key e.2
  | none => ∀ e ∈ s, key e.2 < k

/-- A node with the greatest key that is at most `k`, if there is one. -/
def IsGreatestLessThanOrEqual (key : δ → K) (k : K) (s : Multiset (ι × δ)) : Option ι → Prop
  | some x => ∃ v, (x, v) ∈ s ∧ key v ≤ k ∧ ∀ e ∈ s, key e.2 ≤ k → key e.2 ≤ key v
  | none => ∀ e ∈ s, k < key e.2

variable {m : ι → LinkedNode ι δ} {t : LinkedTree ι δ}

variable {ctx : List (Frame (ι × δ))} {T : ColorTree (ι × δ)} {rounds : Nat} (h : Focus m t ctx T)
  (hsort : SortedBy key (entries id T)) (hlen : T.inorder.length < rounds)
include h hsort hlen

theorem findExact_spec (k : K) : ∃ r, findExact key t k rounds (rootId T) = some r ∧
    IsExact key k (T.inorder : Multiset (ι × δ)) r := by
  refine Focus.walk (fun ctx rounds => ⟨none, rfl, nofun⟩) ?_ h hsort hlen
  rintro c l x v r ctx rounds h hsort ⟨resl, hfin, hresl⟩ ⟨resr, hfind, hresr⟩
  obtain ⟨hle, hge⟩ := hsort.bounds
  change ∃ res, findExact key t k (rounds + 1) (some x) = some res ∧ _
  simp only [findExact, h.record_eq]
  by_cases heq : key v = k
  · exact ⟨some x, if_pos heq, v, mem_inorder_node.mpr (.inr (.inl rfl)), heq⟩
  · rw [if_neg heq]
    by_cases hlt : k < key v
    · refine ⟨resl, (if_pos hlt).trans hfin, ?_⟩
      cases resl with
      | some y =>
        obtain ⟨w, hw, hk⟩ := hresl
        exact ⟨w, mem_inorder_node.mpr (.inl hw), hk⟩
      | none =>
        intro e he
        rcases mem_inorder_node.mp he with he | rfl | he
        · exact hresl e he
        · exact heq
        · exact (lt_of_lt_of_le hlt (hge e he)).ne'
    · refine ⟨resr, (if_neg hlt).trans hfind, ?_⟩
      cases resr with
      | some y =>
        obtain ⟨w, hw, hk⟩ := hresr
        exact ⟨w, mem_inorder_node.mpr (.inr (.inr hw)), hk⟩
      | none =>
        have hvk : key v < k := lt_of_le_of_ne (not_lt.mp hlt) heq
        intro e he
        rcases mem_inorder_node.mp he with he | rfl | he
        · exact (lt_of_le_of_lt (hle e he) hvk).ne
        · exact heq
        · exact hresr e he

/-- The search in a subtree finds the node there, or there is none and the best so far stays. -/
def Found (found : Option ι → Prop) (best r : Option ι) : Prop :=
  (∃ x, r = some x ∧ found (some x)) ∨ r = best ∧ found none

section Found

omit h hsort hlen

variable {s s' : Multiset (ι × δ)} {best r : Option ι}

theorem Found.skip (hsub : ∀ e ∈ s, e ∈ s') (hskip : ∀ e ∈ s', e ∈ s ∨ key e.2 < k)
    (h : Found (IsLeastGreaterThanOrEqual key k s) best r) : Found (IsLeastGreaterThanOrEqual key k s') best r := by
  rcases h with ⟨y, rfl, w, hw, hkw, hlea⟩ | ⟨rfl, hnone⟩
  · refine .inl ⟨y, rfl, w, hsub _ hw, hkw, fun e he hke => ?_⟩
    exact hlea e ((hskip e he).resolve_right (not_lt.mpr hke)) hke
  · exact .inr ⟨rfl, fun e he => (hskip e he).elim (hnone e) id⟩

theorem Found.take {x : ι} {v : δ} (hx : (x, v) ∈ s') (hkv : k ≤ key v)
    (hsub : ∀ e ∈ s, e ∈ s' ∧ key e.2 ≤ key v) (hskip : ∀ e ∈ s', e ∈ s ∨ key v ≤ key e.2)
    (h : Found (IsLeastGreaterThanOrEqual key k s) (some x) r) :
    Found (IsLeastGreaterThanOrEqual key k s') best r := by
  rcases h with ⟨y, rfl, w, hw, hkw, hlea⟩ | ⟨rfl, hnone⟩
  · refine .inl ⟨y, rfl, w, (hsub _ hw).1, hkw, fun e he hke => ?_⟩
    exact (hskip e he).elim (hlea e · hke) (hsub _ hw).2.trans
  · refine .inl ⟨x, rfl, v, hx, hkv, fun e he hke => ?_⟩
    exact (hskip e he).resolve_left fun hs => not_lt.mpr hke (hnone e hs)

end Found

theorem findLeastGreaterThanOrEqual_spec (k : K) : ∀ best : Option ι,
    ∃ r, findLeastGreaterThanOrEqual key t k rounds best (rootId T) = some r ∧
      Found (IsLeastGreaterThanOrEqual key k (T.inorder : Multiset (ι × δ))) best r := by
  refine Focus.walk (fun ctx rounds best => ⟨best, rfl, .inr ⟨rfl, nofun⟩⟩) ?_ h hsort hlen
  intro c l x v r ctx rounds h hsort ihl ihr best
  obtain ⟨hle, hge⟩ := hsort.bounds
  have hx : (x, v) ∈ (node c l (x, v) r).inorder := mem_inorder_node.mpr (.inr (.inl rfl))
  change ∃ res, findLeastGreaterThanOrEqual key t k (rounds + 1) best (some x) = some res ∧ _
  simp only [findLeastGreaterThanOrEqual, h.record_eq]
  split_ifs with heq hlt
  · exact ⟨some x, rfl, .inl ⟨x, rfl, v, hx, heq.ge, fun e _ hke => heq ▸ hke⟩⟩
  · obtain ⟨res, hfind, hres⟩ := ihr best
    refine ⟨res, hfind, hres.skip (fun e he => mem_inorder_node.mpr (.inr (.inr he))) fun e he => ?_⟩
    rcases mem_inorder_node.mp he with he | rfl | he
    · exact .inr (lt_of_le_of_lt (hle e he) hlt)
    · exact .inr hlt
    · exact .inl he
  · obtain ⟨res, hfind, hres⟩ := ihl (some x)
    refine ⟨res, hfind, hres.take hx (not_lt.mp hlt)
      (fun e he => ⟨mem_inorder_node.mpr (.inl he), hle e he⟩) fun e he => ?_⟩
    rcases mem_inorder_node.mp he with he | rfl | he
    · exact .inl he
    · exact .inr le_rfl
    · exact .inr (hge e he)

theorem findGreatestLessThanOrEqual_spec (k : K) : ∀ best : Option ι,
    ∃ r, findGreatestLessThanOrEqual key t k rounds best (rootId T) = some r ∧
      Found (IsLeastGreaterThanOrEqual (K := Kᵒᵈ) key k (T.inorder : Multiset (ι × δ))) best r := by
  refine Focus.walk (fun ctx rounds best => ⟨best, rfl, .inr ⟨rfl, nofun⟩⟩) ?_ h hsort hlen
  intro c l x v r ctx rounds h hsort ihl ihr best
  obtain ⟨hle, hge⟩ := hsort.bounds
  have hx : (x, v) ∈ (node c l (x, v) r).inorder := mem_inorder_node.mpr (.inr (.inl rfl))
  change ∃ res, findGreatestLessThanOrEqual key t k (rounds + 1) best (some x) = some res ∧ _
  simp only [findGreatestLessThanOrEqual, h.record_eq]
  split_ifs with heq hlt
  · exact ⟨some x, rfl, .inl ⟨x, rfl, v, hx, heq.le, fun e _ hke => heq ▸ hke⟩⟩
  · obtain ⟨res, hfind, hres⟩ := ihl best
    refine ⟨res, hfind, hres.skip (fun e he => mem_inorder_node.mpr (.inl he)) fun e he => ?_⟩
    rcases mem_inorder_node.mp he with he | rfl | he
    · exact .inl he
    · exact .inr hlt
    · exact .inr (show k < key e.2 from lt_of_lt_of_le hlt (hge e he))
  · obtain ⟨res, hfind, hres⟩ := ihr (some x)
    refine ⟨res, hfind, hres.take hx (not_lt.mp hlt)
      (fun e he => ⟨mem_inorder_node.mpr (.inr (.inr he)), hge e he⟩) fun e he => ?_⟩
    rcases mem_inorder_node.mp he with he | rfl | he
    · exact .inr (hle e he)
    · exact .inr le_rfl
    · exact .inl he

omit h hsort hlen

/-! ## Runs -/

/-- Every node of the tree is in memory with its links, colour and data. -/
def Linked (mem : ι → LinkedNode ι δ) : Option ι → ColorTree (ι × δ) → Prop
  | _, nil => True
  | p, node c l (x, v) r =>
    mem x = ⟨rootId l, rootId r, p, c, v⟩ ∧ Linked mem (some x) l ∧ Linked mem (some x) r

theorem linked_of_cells {mem : ι → LinkedNode ι δ} {T : ColorTree (ι × δ)} {p : Option ι}
    (h : ∀ e ∈ treeCells p T, mem e.1 = e.2) : Linked mem p T := by
  induction T generalizing p with
  | nil => trivial
  | node c l a r ihl ihr =>
    obtain ⟨x, v⟩ := a
    simp only [treeCells, mem_add, mem_singleton] at h
    exact ⟨h _ (.inl (.inl rfl)), ihl fun e he => h e (.inl (.inr he)), ihr fun e he => h e (.inr he)⟩

/-- The tree is right, and has the nodes of `s`. The searches are given the rounds of the run. -/
structure Correct (key : δ → K) (rounds : Nat) (t : LinkedTree ι δ) (s : Multiset (ι × δ)) : Prop where
  shape : ∃ T n, t.root = rootId T ∧ Linked t.node none T ∧ (T.inorder.map Prod.fst).Nodup ∧
    SortedBy key T.inorder ∧ Balanced T .black n ∧ (T.inorder : Multiset (ι × δ)) = s
  findExact : ∀ k, ∃ r, findExact key t k rounds t.root = some r ∧ IsExact key k s r
  findLeast : ∀ k, ∃ r, findLeastGreaterThanOrEqual key t k rounds none t.root = some r ∧
    IsLeastGreaterThanOrEqual key k s r
  findGreatest : ∀ k, ∃ r, findGreatestLessThanOrEqual key t k rounds none t.root = some r ∧
    IsGreatestLessThanOrEqual key k s r

theorem Stored.correct {s : Multiset (ι × δ)} (h : Stored key t s)
    (hlen : s.card < rounds) : Correct key rounds t s := by
  obtain ⟨m, T, n, hfoc, hsort, hbal, rfl⟩ := h
  have hroot : t.root = rootId T := hfoc.root
  have hsort' : SortedBy key (entries id T) := by rwa [entries_id]
  rw [coe_card] at hlen
  refine ⟨⟨T, n, hroot, ?_, hfoc.nodup, hsort, hbal, rfl⟩, fun k => ?_, fun k => ?_, fun k => ?_⟩
  · refine linked_of_cells fun e he => hfoc.cells.holds e ?_
    exact mem_add.mpr (.inl he)
  · rw [hroot]
    exact findExact_spec hfoc hsort' hlen k
  · rw [hroot]
    obtain ⟨r, hfind, ⟨x, rfl, hx⟩ | ⟨rfl, hnone⟩⟩ :=
      findLeastGreaterThanOrEqual_spec hfoc hsort' hlen k none
    · exact ⟨some x, hfind, hx⟩
    · exact ⟨none, hfind, hnone⟩
  · rw [hroot]
    obtain ⟨r, hfind, ⟨x, rfl, hx⟩ | ⟨rfl, hnone⟩⟩ :=
      findGreatestLessThanOrEqual_spec hfoc hsort' hlen k none
    · exact ⟨some x, hfind, hx⟩
    · exact ⟨none, hfind, hnone⟩

end RedBlackTree

open RedBlackTree

/-- The user's calls: make a node with the given data at an address and insert it, or remove a node. -/
inductive RedBlackTreeOp (ι δ : Type) where
  | insert (x : ι) (data : δ)
  | remove (x : ι)

variable {ι δ K : Type} [DecidableEq ι] [LinearOrder K] {key : δ → K}

def treeStep (key : δ → K) (rounds : Nat) (t : LinkedTree ι δ) :
    RedBlackTreeOp ι δ → Option (LinkedTree ι δ)
  | .insert x data => RedBlackTree.insert key rounds (t.setData x data) x
  | .remove x => RedBlackTree.remove rounds t x

/-- What the calls mean for the nodes in the tree: a node may be inserted if it is not in the tree, and
    removed if it is. -/
def nodesStep (s : Multiset (ι × δ)) : RedBlackTreeOp ι δ → Option (Multiset (ι × δ))
  | .insert x data => if x ∈ s.map Prod.fst then none else some ((x, data) ::ₘ s)
  | .remove x => if x ∈ s.map Prod.fst then some (s.filter fun e => e.1 ≠ x) else none

theorem treeStep_stored {t : LinkedTree ι δ} {s s' : Multiset (ι × δ)}
    {o : RedBlackTreeOp ι δ} (h : Stored key t s) (ho : nodesStep s o = some s') (hlen : s.card < rounds) :
    ∃ t', treeStep key rounds t o = some t' ∧ Stored key t' s' ∧ s'.card ≤ s.card + 1 := by
  cases o with
  | insert x data =>
    by_cases hx : x ∈ s.map Prod.fst
    · rw [nodesStep, if_pos hx] at ho
      cases ho
    · rw [nodesStep, if_neg hx] at ho
      obtain rfl := Option.some.inj ho
      obtain ⟨t', hins, hsto⟩ := h.insert hx hlen data
      exact ⟨t', hins, hsto, (card_cons ..).le⟩
  | remove x =>
    by_cases hx : x ∈ s.map Prod.fst
    · rw [nodesStep, if_pos hx] at ho
      obtain rfl := Option.some.inj ho
      obtain ⟨t', hrem, hsto, -⟩ := remove_spec h hx hlen
      exact ⟨t', hrem, hsto, (card_le_card (filter_le ..)).trans (Nat.le_succ _)⟩
    · rw [nodesStep, if_neg hx] at ho
      cases ho

theorem run_stored : ∀ (ops : List (RedBlackTreeOp ι δ))
    {t : LinkedTree ι δ} {s s' : Multiset (ι × δ)}, Stored key t s → run nodesStep s ops = some s' →
    s.card + ops.length < rounds →
    ∃ t', run (treeStep key rounds) t ops = some t' ∧ Stored key t' s' ∧ s'.card < rounds := by
  intro ops
  induction ops with
  | nil =>
    intro t s s' h hrun hlen
    obtain rfl := Option.some.inj hrun
    exact ⟨t, rfl, h, hlen⟩
  | cons o ops ih =>
    intro t s s' h hrun hlen
    obtain ⟨s₁, ho, hrun⟩ := Option.bind_eq_some_iff.mp hrun
    rw [List.length_cons] at hlen
    have hcard : s.card < rounds := by omega
    obtain ⟨t₁, hstep, h₁, hcard⟩ := treeStep_stored h ho hcard
    obtain ⟨t', hrun', h'⟩ := ih h₁ hrun (by omega)
    exact ⟨t', by rw [run_cons hstep, hrun'], h'⟩

omit [DecidableEq ι] in
theorem stored_empty (key : δ → K) (mem : ι → LinkedNode ι δ) : Stored key ⟨none, mem⟩ 0 :=
  ⟨mem, nil, 0, ⟨rfl, Cells.empty mem⟩, List.Pairwise.nil, .nil, rfl⟩

/-- **Every run of insertions and removals leaves a correct red-black tree** of exactly the nodes that
    were inserted and not removed, from any memory and for any keys, equal ones included. More rounds
    than there are calls are enough for every loop. -/
theorem redBlackTree_run (key : δ → K) (mem : ι → LinkedNode ι δ) (ops : List (RedBlackTreeOp ι δ))
    (s : Multiset (ι × δ)) (hops : run nodesStep 0 ops = some s) (rounds : Nat) (hrounds : ops.length < rounds) :
    ∃ t, run (treeStep key rounds) ⟨none, mem⟩ ops = some t ∧ Correct key rounds t s := by
  obtain ⟨t, hrun, hstored, hcard⟩ :=
    run_stored ops (stored_empty key mem) hops (by rwa [card_zero, Nat.zero_add])
  exact ⟨t, hrun, hstored.correct hcard⟩

/-- Two equal keys, a smaller one, and the removal of the first node. -/
theorem redBlackTree_run_equal_keys :
    ∃ t, run (treeStep (id : Nat → Nat) 5) ⟨none, fun _ : Fin 3 => ⟨none, none, none, .red, 0⟩⟩
        [.insert 0 7, .insert 1 7, .insert 2 4, .remove 0] = some t ∧ Correct id 5 t {((2 : Fin 3), 4), (1, 7)} :=
  redBlackTree_run id _ _ _ (by decide) 5 (by decide)

end WebV8
