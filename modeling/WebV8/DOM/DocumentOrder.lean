import WebV8.DOM.DOMTree

/-! # Document order

A node comes before its descendants, the nodes below a sibling before those below a later one, and the attributes of an
element before the nodes below its children. The attributes of one element are in no order.

The order is the lexicographic one of the ways from the root, if all attributes of an element are given the same number; so a set
of nodes has one list in document order, up to the attributes of an element.
-/

namespace WebV8

open List Option

namespace DOMNode

inductive Before : DOMNode → DOMNode → Prop where
  | descendant {n m : DOMNode} : n <:+ m → n ≠ m → Before n m
  | sibling {p n m : DOMNode} {i j : Nat} : i < j → .child i :: p <:+ n → .child j :: p <:+ m → Before n m
  | attr {p m : DOMNode} {i j : Nat} : .child j :: p <:+ m → Before (.attr i :: p) m

def SameElement (n m : DOMNode) : Prop := ∃ p i j, n = .attr i :: p ∧ m = .attr j :: p

def InOrder (n m : DOMNode) : Prop := Before n m ∨ SameElement n m

theorem Before.ne {n m : DOMNode} (h : Before n m) : n ≠ m := by
  have hcons : ∀ {e e' : Edge} {p q : DOMNode}, e :: p <:+ q → e' :: p <:+ q → e = e' := by
    intro e e' p q h h'
    have heq := (suffix_iff_eq_drop.mp h).trans (suffix_iff_eq_drop.mp h').symm
    exact (List.cons.inj heq).1
  rintro rfl
  cases h with
  | descendant _ hne => exact hne rfl
  | sibling hij hi hj => exact hij.ne (Edge.child.inj (hcons hi hj))
  | attr hj => exact nomatch hcons hj suffix_rfl

/-! ## The lexicographic order -/

def rank : Edge → Nat
  | .attr _ => 0
  | .child i => i + 1

def key (n : DOMNode) : List Nat := (n.map rank).reverse

theorem key_cons (e : Edge) (p : DOMNode) : key (e :: p) = key p ++ [rank e] := by
  rw [key, map_cons, reverse_cons, key]

variable {n m : DOMNode}

theorem key_start (h : n <:+ m) : key n <+: key m := reverse_prefix.mpr (h.map rank)

theorem key_lt_of_rank {e e' : Edge} {p : DOMNode} (hn : e :: p <:+ n) (hm : e' :: p <:+ m) (h : rank e < rank e') :
    key n < key m := by
  obtain ⟨xs, hxs⟩ := key_start hn
  obtain ⟨ys, hys⟩ := key_start hm
  rw [← hxs, ← hys, key_cons, key_cons, append_assoc, append_assoc]
  exact append_left_lt (cons_lt_cons_iff.mpr (Or.inl h))

theorem InOrder.key_le (h : InOrder n m) : key n ≤ key m := by
  rcases h with hbef | ⟨p, i, j, rfl, rfl⟩
  · cases hbef with
    | descendant hsuf _ => exact not_lt.mp (key_start hsuf).le
    | sibling hij hn hm => exact (key_lt_of_rank hn hm (Nat.succ_lt_succ hij)).le
    | @attr p m i j hm =>
      have hrank : rank (.attr i) < rank (.child j) := Nat.succ_pos j
      exact (key_lt_of_rank suffix_rfl hm hrank).le
  · rw [key_cons, key_cons]
    exact le_rfl

end DOMNode

namespace DOMTree

open DOMNode

variable {t : DOMTree}

/-! ## The nodes of a tree -/

theorem subtree_child (t : DOMTree) (i : Nat) (p : DOMNode) :
    t.subtree (.child i :: p) = (t.subtree p).bind fun u => u.children[i]? := rfl

variable {n p m : DOMNode} {u : DOMTree}

theorem contains_of_subtree (h : t.subtree n = some u) : t.Contains n := by
  match n, h with
  | [], h => exact isSome_iff_exists.mpr ⟨u, h⟩
  | .child _ :: _, h => exact isSome_iff_exists.mpr ⟨u, h⟩

theorem contains_child {i : Nat} : t.Contains (.child i :: p) ↔ i < t.childCount p := by
  show ((t.subtree p).bind fun u => u.children[i]?).isSome = true ↔ i < t.childCount p
  rw [childCount]
  cases t.subtree p with
  | none => exact iff_of_false nofun (Nat.not_lt_zero i)
  | some u =>
    show (u.children[i]?).isSome = true ↔ i < u.children.length
    rw [isSome_getElem?]

theorem Contains.parent {e : Edge} (h : t.Contains (e :: p)) : ∃ u, t.subtree p = some u := by
  cases e with
  | child i =>
    obtain ⟨v, hv⟩ := isSome_iff_exists.mp h
    obtain ⟨u, hu, -⟩ := bind_eq_some_iff.mp hv
    exact ⟨u, hu⟩
  | attr i =>
    have hlt : i < t.attributeCount p := h
    cases hp : t.subtree p with
    | none =>
      rw [attributeCount, hp] at hlt
      exact absurd hlt (Nat.not_lt_zero i)
    | some u => exact ⟨u, rfl⟩

theorem exists_child_of_subtree (h : t.subtree p = some u) {e : Edge} (he : e ∈ p) : ∃ i, e = .child i := by
  induction p generalizing u with
  | nil => exact absurd he not_mem_nil
  | cons e' p ih =>
    obtain ⟨v, hv⟩ := (contains_of_subtree h).parent
    rcases mem_cons.mp he with rfl | hmem
    · cases e with
      | child i => exact ⟨i, rfl⟩
      | attr i => exact nomatch h
    · exact ih hv hmem

theorem Contains.of_suffix (hm : t.Contains m) (h : n <:+ m) : t.Contains n := by
  induction m with
  | nil => exact suffix_nil.mp h ▸ hm
  | cons e p ih =>
    rcases suffix_cons_iff.mp h with rfl | hp
    · exact hm
    · obtain ⟨u, hu⟩ := hm.parent
      exact ih (contains_of_subtree hu) hp

theorem Contains.eq_of_attribute {i : Nat} (hm : t.Contains m) (h : .attr i :: p <:+ m) : m = .attr i :: p := by
  cases m with
  | nil => exact nomatch suffix_nil.mp h
  | cons e q =>
    rcases suffix_cons_iff.mp h with heq | hq
    · exact heq.symm
    · obtain ⟨u, hu⟩ := hm.parent
      obtain ⟨j, hj⟩ := exists_child_of_subtree hu (hq.subset mem_cons_self)
      exact nomatch hj

/-! ## One list in document order -/

theorem rank_child_inj {q : DOMNode} {v : DOMTree} (hp : t.subtree p = some u) (hq : t.subtree q = some v)
    (h : p.map rank = q.map rank) : p = q := by
  induction p generalizing q u v with
  | nil => exact (map_eq_nil_iff.mp h.symm).symm
  | cons e p ih =>
    cases q with
    | nil => exact nomatch h
    | cons e' q =>
      obtain ⟨hrank, hrest⟩ := List.cons.inj h
      obtain ⟨u', hu'⟩ := (contains_of_subtree hp).parent
      obtain ⟨v', hv'⟩ := (contains_of_subtree hq).parent
      obtain ⟨i, rfl⟩ := exists_child_of_subtree hp mem_cons_self
      obtain ⟨j, rfl⟩ := exists_child_of_subtree hq mem_cons_self
      rw [ih hu' hv' hrest, Nat.succ.inj hrank]

theorem eq_or_sameElement_of_key (hn : t.Contains n) (hm : t.Contains m) (h : key n = key m) :
    n = m ∨ SameElement n m := by
  have hmap : n.map rank = m.map rank := reverse_injective h
  match n, m, hn, hm, hmap with
  | [], [], _, _, _ => exact Or.inl rfl
  | e :: p, e' :: q, hn, hm, hmap =>
    obtain ⟨hrank, hrest⟩ := List.cons.inj hmap
    obtain ⟨u, hu⟩ := hn.parent
    obtain ⟨v, hv⟩ := hm.parent
    obtain rfl := rank_child_inj hu hv hrest
    match e, e', hrank with
    | .attr i, .attr j, _ => exact Or.inr ⟨p, i, j, rfl, rfl⟩
    | .child i, .child j, hrank => exact Or.inl (by rw [Nat.succ.inj hrank])

/-- **Document order determines the list**, up to the attributes of an element. -/
theorem forall₂_of_inOrder {ns ms : List DOMNode} (hperm : ns.Perm ms) (hcts : ∀ n ∈ ns, t.Contains n)
    (hns : ns.Pairwise InOrder) (hms : ms.Pairwise InOrder) :
    List.Forall₂ (fun n m => n = m ∨ SameElement n m) ns ms := by
  have hkeys : ns.map key = ms.map key := by
    refine (hperm.map key).eq_of_pairwise (fun _ _ _ _ => le_antisymm) ?_ ?_
    · exact pairwise_map.mpr (hns.imp InOrder.key_le)
    · exact pairwise_map.mpr (hms.imp InOrder.key_le)
  rw [forall₂_iff_get]
  have hlen : ns.length = ms.length := hperm.length_eq
  refine ⟨hlen, fun i hi hi' => ?_⟩
  refine eq_or_sameElement_of_key (hcts _ (get_mem ns ⟨i, hi⟩))
    (hcts _ (hperm.mem_iff.mpr (get_mem ms ⟨i, hi'⟩))) ?_
  have hget := congrArg (fun keys => keys[i]?) hkeys
  rw [List.getElem?_map, List.getElem?_map, List.getElem?_eq_getElem hi, List.getElem?_eq_getElem hi'] at hget
  exact Option.some.inj hget

end DOMTree

end WebV8
