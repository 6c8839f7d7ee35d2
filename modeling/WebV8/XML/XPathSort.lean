import WebV8.XML.XPathSortBlock

/-! # Sorting by traversal

`NodeTraversal::next` visits the nodes of the tree in preorder. Each node with its attributes behind it, in preorder, is
the whole tree in document order, and the traversal keeps of it the nodes of the set. `sort_spec` says that both ways to sort
give the set in document order.
-/

namespace WebV8

open DOMNode List Option Nat

namespace DOMTree

/-! ## Preorder -/

mutual

/-- The nodes of the tree, where the way to its root is `p`. -/
def preorder : DOMTree → DOMNode → List DOMNode
  | .node _ children, p => p :: preorderAll children p 0

def preorderAll : List DOMTree → DOMNode → Nat → List DOMNode
  | [], _, _ => []
  | u :: us, p, i => preorder u (.child i :: p) ++ preorderAll us p (i + 1)

end

theorem preorder_eq (u : DOMTree) (p : DOMNode) : u.preorder p = p :: preorderAll u.children p 0 := by
  cases u
  rw [preorder, children]

variable {t : DOMTree}

/-- Going on with `next` from the first node visits the nodes of the list. -/
def Walk (next : DOMNode → Option DOMNode) : Option DOMNode → List DOMNode → Option DOMNode → Prop
  | start, [], stop => start = stop
  | start, n :: ns, stop => start = some n ∧ Walk next (next n) ns stop

theorem Walk.append {next : DOMNode → Option DOMNode} {ns ms : List DOMNode} {start mid stop : Option DOMNode}
    (hns : Walk next start ns mid) (hms : Walk next mid ms stop) : Walk next start (ns ++ ms) stop := by
  induction ns generalizing start with
  | nil => exact hns ▸ hms
  | cons n ns ih => exact ⟨hns.1, ih hns.2⟩

variable {p : DOMNode}

theorem next_of_children (h : 0 < t.childCount p) : t.next p = some (.child 0 :: p) := by
  rw [next, firstChild, if_pos h]

theorem next_of_no_children (h : t.childCount p = 0) : t.next p = t.nextSkippingChildren p := by
  rw [next, firstChild, if_neg (by omega)]
  rfl

theorem nextSkippingChildren_child (t : DOMTree) (i : Nat) (p : DOMNode) : t.nextSkippingChildren (.child i :: p) =
      if i + 1 < t.childCount p then some (.child (i + 1) :: p) else t.nextSkippingChildren p := by
  rw [nextSkippingChildren, nextSibling]
  split_ifs with h
  · rfl
  · rw [nextAncestorSibling, nextSkippingChildren]

theorem childCount_eq {u : DOMTree} (h : t.subtree p = some u) : t.childCount p = u.children.length := by
  rw [childCount, h]

mutual

/-- **The traversal is in preorder**: after all below a node, it goes where it would without its children. -/
theorem walk_preorder : ∀ (u : DOMTree) {p : DOMNode}, t.subtree p = some u →
    Walk t.next (some p) (u.preorder p) (t.nextSkippingChildren p)
  | .node kind children, p, h => by
    have hcnt := childCount_eq h
    rw [preorder]
    refine ⟨rfl, ?_⟩
    cases hchd : children with
    | nil =>
      rw [next_of_no_children (by rw [hcnt, DOMTree.children, hchd, length_nil])]
      exact rfl
    | cons v vs =>
      rw [next_of_children (by rw [hcnt, DOMTree.children, hchd]; exact succ_pos _), ← hchd]
      exact walk_preorderAll children h 0 rfl (hchd ▸ cons_ne_nil v vs)

theorem walk_preorderAll : ∀ (us : List DOMTree) {p : DOMNode} {w : DOMTree}, t.subtree p = some w → ∀ i,
    w.children.drop i = us → us ≠ [] →
    Walk t.next (some (.child i :: p)) (preorderAll us p i) (t.nextSkippingChildren p)
  | [], _, _, _, _, _, hne => absurd rfl hne
  | u :: us, p, w, h, i, hdrop, _ => by
    have hget : w.children[i]? = some u := by
      rw [← List.head?_drop, hdrop, List.head?_cons]
    have hrest : w.children.drop (i + 1) = us := by
      rw [← tail_drop, hdrop, tail_cons]
    have hsub : t.subtree (.child i :: p) = some u := by
      rw [subtree_child, h, bind_some, hget]
    rw [preorderAll]
    refine (walk_preorder u hsub).append ?_
    rw [nextSkippingChildren_child, childCount_eq h]
    cases hus : us with
    | nil =>
      have hlen := congrArg List.length hrest
      rw [length_drop, hus, length_nil] at hlen
      rw [if_neg (by omega)]
      exact rfl
    | cons v vs =>
      have hlen := congrArg List.length hrest
      rw [length_drop, hus, length_cons] at hlen
      rw [if_pos (by omega), ← hus]
      exact walk_preorderAll us h (i + 1) hrest (hus ▸ cons_ne_nil v vs)

end

/-! ## All nodes in document order -/

/-- The second node is below a child of the first one, or they part at two siblings. -/
def TreeBefore (n m : DOMNode) : Prop :=
  (∃ j, .child j :: n <:+ m) ∨ ∃ p i j, i < j ∧ .child i :: p <:+ n ∧ .child j :: p <:+ m

mutual

theorem suffix_of_mem_preorder : ∀ (u : DOMTree) {p n : DOMNode}, n ∈ u.preorder p → p <:+ n
  | .node kind children, p, n, h => by
    rw [preorder] at h
    rcases mem_cons.mp h with rfl | hmem
    · exact suffix_rfl
    · obtain ⟨j, -, hj⟩ := suffix_of_mem_preorderAll children hmem
      exact (suffix_cons _ _).trans hj

theorem suffix_of_mem_preorderAll : ∀ (us : List DOMTree) {p n : DOMNode} {i : Nat}, n ∈ preorderAll us p i →
    ∃ j, i ≤ j ∧ .child j :: p <:+ n
  | [], _, _, _, h => absurd h not_mem_nil
  | u :: us, p, n, i, h => by
    rw [preorderAll] at h
    rcases mem_append.mp h with hmem | hmem
    · exact ⟨i, le_rfl, suffix_of_mem_preorder u hmem⟩
    · obtain ⟨j, hij, hj⟩ := suffix_of_mem_preorderAll us hmem
      exact ⟨j, by omega, hj⟩

end

mutual

theorem pairwise_preorder : ∀ (u : DOMTree) (p : DOMNode), (u.preorder p).Pairwise TreeBefore
  | .node kind children, p => by
    rw [preorder]
    refine pairwise_cons.mpr ⟨fun n hn => ?_, pairwise_preorderAll children p 0⟩
    obtain ⟨j, -, hj⟩ := suffix_of_mem_preorderAll children hn
    exact Or.inl ⟨j, hj⟩

theorem pairwise_preorderAll : ∀ (us : List DOMTree) (p : DOMNode) (i : Nat), (preorderAll us p i).Pairwise TreeBefore
  | [], _, _ => by
    rw [preorderAll]
    exact List.Pairwise.nil
  | u :: us, p, i => by
    rw [preorderAll]
    refine pairwise_append.mpr ⟨pairwise_preorder u _, pairwise_preorderAll us p (i + 1), fun n hn m hm => ?_⟩
    obtain ⟨j, hij, hj⟩ := suffix_of_mem_preorderAll us hm
    exact Or.inr ⟨p, i, j, by omega, suffix_of_mem_preorder u hn, hj⟩

end

variable {u : DOMTree} {p n a : DOMNode}

theorem mem_preorderAll {us : List DOMTree} {j : Nat} (h : us[j]? = some u) (p : DOMNode) (i : Nat) :
    u.preorder (.child (i + j) :: p) ⊆ preorderAll us p i := by
  induction us generalizing i j with
  | nil => exact nomatch h
  | cons v vs ih =>
    rw [preorderAll]
    cases j with
    | zero =>
      obtain rfl : v = u := Option.some.inj h
      exact subset_append_left _ _
    | succ j =>
      have hmem := ih h (i + 1)
      rw [add_right_comm] at hmem
      exact List.Subset.trans hmem (subset_append_right _ _)

theorem preorder_subset (h : t.subtree p = some u) : u.preorder p ⊆ t.preorder [] := by
  induction p generalizing u with
  | nil =>
    obtain rfl : t = u := Option.some.inj h
    exact List.Subset.refl _
  | cons e p ih =>
    obtain ⟨j, rfl⟩ := exists_child_of_subtree h mem_cons_self
    obtain ⟨w, hw, hget⟩ := bind_eq_some_iff.mp (subtree_child t j p ▸ h)
    have hmem := mem_preorderAll hget p 0
    rw [zero_add] at hmem
    refine List.Subset.trans (List.Subset.trans hmem ?_) (ih hw)
    rw [preorder_eq w p]
    exact subset_cons_self _ _

theorem mem_preorder (h : t.subtree p = some u) : p ∈ t.preorder [] := by
  refine preorder_subset h ?_
  rw [preorder_eq]
  exact mem_cons_self

/-- The nodes of the tree, each with its attributes behind it. -/
def documentOrder (t : DOMTree) : List DOMNode := (t.preorder []).flatMap fun n => n :: t.attributes n

theorem mem_documentOrder (h : t.Contains n) : n ∈ t.documentOrder := by
  rw [documentOrder, mem_flatMap]
  match n, h with
  | [], h =>
    obtain ⟨u, hu⟩ := isSome_iff_exists.mp h
    exact ⟨[], mem_preorder hu, mem_cons_self⟩
  | .child i :: p, h =>
    obtain ⟨u, hu⟩ := isSome_iff_exists.mp h
    exact ⟨_, mem_preorder hu, mem_cons_self⟩
  | .attr i :: p, h =>
    obtain ⟨u, hu⟩ := Contains.parent h
    refine ⟨p, mem_preorder hu, mem_cons_of_mem _ (mem_map.mpr ⟨i, mem_range.mpr h, rfl⟩)⟩

theorem eq_or_attribute_of_mem (h : a ∈ n :: t.attributes n) : a = n ∨ ∃ i, a = .attr i :: n := by
  rcases mem_cons.mp h with rfl | hmem
  · exact Or.inl rfl
  · obtain ⟨i, -, rfl⟩ := mem_map.mp hmem
    exact Or.inr ⟨i, rfl⟩

theorem suffix_of_mem_attributes (h : a ∈ n :: t.attributes n) : n <:+ a := by
  rcases eq_or_attribute_of_mem h with rfl | ⟨i, rfl⟩
  · exact suffix_rfl
  · exact suffix_cons _ _

theorem before_of_treeBefore {m b : DOMNode} (h : TreeBefore n m) (ha : a ∈ n :: t.attributes n)
    (hb : b ∈ m :: t.attributes m) : Before a b := by
  have hmb := suffix_of_mem_attributes hb
  rcases h with ⟨j, hj⟩ | ⟨p, i, j, hij, hi, hj⟩
  · rcases eq_or_attribute_of_mem ha with rfl | ⟨i, rfl⟩
    · refine Before.descendant ((suffix_cons _ _).trans (hj.trans hmb)) ?_
      rintro rfl
      have hlen := (hj.trans hmb).length_le
      rw [length_cons] at hlen
      omega
    · exact Before.attr (hj.trans hmb)
  · exact Before.sibling hij (hi.trans (suffix_of_mem_attributes ha)) (hj.trans hmb)

/-- **The whole tree in document order.** -/
theorem pairwise_documentOrder (t : DOMTree) : t.documentOrder.Pairwise fun n m => DOMNode.InOrder n m ∧ n ≠ m := by
  refine pairwise_flatMap.mpr ⟨fun n _ => ?_, (pairwise_preorder t []).imp fun h a ha b hb => ?_⟩
  · refine pairwise_cons.mpr ⟨fun a ha => ?_, ?_⟩
    · obtain ⟨i, -, rfl⟩ := mem_map.mp ha
      exact ⟨Or.inl (.descendant (suffix_cons _ _) (cons_ne_self _ _).symm), (cons_ne_self _ _).symm⟩
    · refine pairwise_map.mpr (pairwise_lt_range.imp fun {i j} hij => ?_)
      exact ⟨Or.inr ⟨n, i, j, rfl, rfl⟩, fun heq => hij.ne (Edge.attr.inj (List.cons.inj heq).1)⟩
  · have hbef := before_of_treeBefore h ha hb
    exact ⟨Or.inl hbef, hbef.ne⟩

end DOMTree

namespace XPath

open DOMTree

variable {t : DOMTree} {nodes : List DOMNode}

/-! ## traversalSort -/

variable {fuel : Nat}

theorem traverse_of_walk {containsAttributeNodes : Bool} {start : Option DOMNode} {ns : List DOMNode}
    (hwalk : Walk t.next start ns none) (hfuel : ns.length ≤ fuel) (sortedNodes : List DOMNode) :
    traverse t nodes containsAttributeNodes fuel start sortedNodes =
      some (sortedNodes ++ ns.flatMap (collect t nodes containsAttributeNodes)) := by
  induction ns generalizing start fuel sortedNodes with
  | nil =>
    obtain rfl : start = none := hwalk
    rw [traverse, flatMap_nil, append_nil]
  | cons n ns ih =>
    obtain ⟨rfl, hrest⟩ := hwalk
    cases fuel with
    | zero => exact absurd hfuel (not_succ_le_zero _)
    | succ fuel =>
      rw [traverse, ih hrest (le_of_succ_le_succ hfuel), flatMap_cons, append_assoc]

theorem collect_eq (n : DOMNode) :
    collect t nodes (nodes.any isAttributeNode) n = (n :: t.attributes n).filter nodes.contains := by
  have hatt : (if nodes.any isAttributeNode && t.isElementNode n then (t.attributes n).filter nodes.contains else []) =
      (t.attributes n).filter nodes.contains := by
    split_ifs with hcond
    · rfl
    · symm
      refine filter_eq_nil_iff.mpr fun a ha hmem => hcond ?_
      obtain ⟨i, hi, rfl⟩ := mem_map.mp ha
      refine Bool.and_eq_true_iff.mpr ⟨any_eq_true.mpr ⟨_, contains_iff_mem.mp hmem, rfl⟩, ?_⟩
      by_contra hele
      rw [attributeCount_eq_zero (Bool.eq_false_of_not_eq_true hele)] at hi
      exact absurd (mem_range.mp hi) (not_lt_zero i)
  rw [collect, hatt, filter_cons]
  split_ifs
  · rfl
  · rfl

theorem findRootNode_eq (n : DOMNode) : findRootNode n = [] := by
  induction n with
  | nil => rfl
  | cons e p ih => exact ih

theorem traversalSort_eq (hne : nodes ≠ []) (hfuel : (t.preorder []).length ≤ fuel) :
    traversalSort t fuel nodes = some (t.documentOrder.filter nodes.contains) := by
  match nodes, hne with
  | first :: rest, _ =>
    rw [traversalSort, findRootNode_eq, traverse_of_walk (walk_preorder t rfl) hfuel, nil_append, documentOrder,
      filter_flatMap]
    congr 2
    funext n
    exact collect_eq n

theorem traversalSort_spec (hnod : nodes.Nodup) (hcts : ∀ n ∈ nodes, t.Contains n) (hne : nodes ≠ [])
    (hfuel : (t.preorder []).length ≤ fuel) :
    ∃ sorted, traversalSort t fuel nodes = some sorted ∧ sorted.Perm nodes ∧ sorted.Pairwise DOMNode.InOrder := by
  refine ⟨_, traversalSort_eq hne hfuel, ?_, ?_⟩
  · have hdis : t.documentOrder.Nodup := (pairwise_documentOrder t).imp And.right
    refine (perm_ext_iff_of_nodup (hdis.filter _) hnod).mpr fun n => ?_
    rw [mem_filter, contains_iff_mem]
    exact ⟨And.right, fun hn => ⟨mem_documentOrder (hcts n hn), hn⟩⟩
  · exact ((pairwise_documentOrder t).imp And.left).filter _

/-! ## sort -/

theorem cons_parentNodes {p : DOMNode} {u : DOMTree} (h : t.subtree p = some u) : p :: parentNodes p = p.tails := by
  induction p generalizing u with
  | nil => rfl
  | cons e p ih =>
    obtain ⟨i, rfl⟩ := exists_child_of_subtree h mem_cons_self
    obtain ⟨v, hv⟩ := (contains_of_subtree h).parent
    rw [parentNodes, ih hv, tails_cons]

theorem parentsVector_eq {n : DOMNode} (h : t.Contains n) : parentsVector n = n.tails := by
  match n, h with
  | [], _ => rfl
  | .child i :: p, h =>
    obtain ⟨u, hu⟩ := isSome_iff_exists.mp h
    exact cons_parentNodes hu
  | .attr i :: p, h =>
    obtain ⟨u, hu⟩ := Contains.parent h
    show (.attr i :: p) :: p :: parentNodes p = _
    rw [cons_parentNodes hu, tails_cons]

theorem blockSort_spec (hnodu : nodes.Nodup) (hcts : ∀ n ∈ nodes, t.Contains n) (hlong : 2 ≤ nodes.length) :
    ∃ sorted, blockSort t nodes = some sorted ∧ sorted.Perm nodes ∧ sorted.Pairwise DOMNode.InOrder := by
  have hmat : nodes.map parentsVector = nodes.map List.tails :=
    map_congr_left fun n hn => parentsVector_eq (hcts n hn)
  have hsor : Sortable t (nodes.any isAttributeNode) (nodes.map List.tails) := by
    refine ⟨forall_mem_map.mpr fun n hn => ⟨n, hcts n hn, rfl⟩, hnodu.map tails_injective,
      fun hnone => forall_mem_map.mpr fun n hn p => Bool.eq_false_of_not_eq_true fun hatt => ?_⟩
    obtain ⟨i, rfl⟩ := isAttributeOf_tails.mp hatt
    exact any_eq_false.mp hnone _ hn rfl
  have hall : Lib.Cut [] (nodes.map List.tails) [] 0 nodes.length (nodes.map List.tails).toArray :=
    ⟨(append_nil _).symm, rfl, by rw [length_map, zero_add]⟩
  obtain ⟨m, blk, hsort, hcut, hperm, hord⟩ := sortBlock_spec nodes.length hall (by omega) (by omega) hsor
  refine ⟨blk.filterMap List.head?, ?_, ?_, ?_⟩
  · rw [blockSort, hmat, hsort, bind_eq_bind, bind_some, hcut.toList_eq, nil_append, append_nil]
    rfl
  · have hnod : (nodes.map List.tails).filterMap List.head? = nodes := by
      rw [filterMap_map, show List.head? ∘ List.tails = some from funext head?_tails, filterMap_some]
    exact hnod ▸ hperm.filterMap List.head?
  · refine hord.filterMap _ fun r r' hr n hn n' hn' => ?_
    obtain ⟨a, b, rfl, rfl, hab⟩ := hr
    rw [head?_tails, some_inj] at hn hn'
    rw [← hn, ← hn']
    exact hab

/-- **A node set is sorted into document order**, and both ways to sort it give the same order, up to the order among the
    attributes of one element. -/
theorem sort_spec (t : DOMTree) {set : NodeSet} (hnodup : set.nodes.Nodup) (hcontains : ∀ n ∈ set.nodes, t.Contains n)
    (hsorted : set.isSorted = true → set.nodes.Pairwise DOMNode.InOrder) {fuel : Nat} (hfuel : (t.preorder []).length ≤ fuel) :
    (∃ set', set.sort t fuel = some set' ∧ set'.isSorted = true ∧ set'.nodes.Perm set.nodes ∧
      set'.nodes.Pairwise DOMNode.InOrder) ∧
    (2 ≤ set.nodes.length → ∃ sorted sorted', blockSort t set.nodes = some sorted ∧
      traversalSort t fuel set.nodes = some sorted' ∧ sorted.Perm set.nodes ∧ sorted'.Perm set.nodes ∧
      sorted.Pairwise DOMNode.InOrder ∧ sorted'.Pairwise DOMNode.InOrder ∧
      List.Forall₂ (fun n m => n = m ∨ SameElement n m) sorted sorted') := by
  have htraversal := fun hne => traversalSort_spec hnodup hcontains hne hfuel
  have hblock := blockSort_spec hnodup hcontains
  constructor
  · rw [NodeSet.sort]
    split_ifs with hdone hshort hlarge
    · exact ⟨set, rfl, hdone, .rfl, hsorted hdone⟩
    · refine ⟨_, rfl, rfl, .rfl, ?_⟩
      match hnodes : set.nodes, hshort with
      | [], _ => exact List.Pairwise.nil
      | [n], _ => exact pairwise_singleton _ _
    · obtain ⟨sorted, hsort, hperm, hordered⟩ := htraversal (ne_nil_of_length_pos (by omega))
      exact ⟨⟨sorted, true⟩, by rw [hsort]; rfl, rfl, hperm, hordered⟩
    · obtain ⟨sorted, hsort, hperm, hordered⟩ := hblock (by omega)
      exact ⟨⟨sorted, true⟩, by rw [hsort]; rfl, rfl, hperm, hordered⟩
  · intro hlong
    obtain ⟨sorted, hsort, hperm, hordered⟩ := hblock hlong
    obtain ⟨sorted', hsort', hperm', hordered'⟩ := htraversal (ne_nil_of_length_pos (by omega))
    refine ⟨sorted, sorted', hsort, hsort', hperm, hperm', hordered, hordered', ?_⟩
    exact forall₂_of_inOrder (hperm.trans hperm'.symm) (fun n hn => hcontains n (hperm.mem_iff.mp hn)) hordered hordered'

/-- An element with an attribute and a text: the text, the attribute and the element are put in order. -/
theorem sort_spec_element : ∃ set', (NodeSet.mk [[.child 0], [.attr 0], []] false).sort
      (.node (.element 1) [.node .other []]) 2 = some set' ∧ set'.nodes.Pairwise DOMNode.InOrder := by
  have hnodup : (NodeSet.mk [[.child 0], [.attr 0], []] false).nodes.Nodup := by decide
  have hfuel : (preorder (.node (.element 1) [.node .other []]) []).length ≤ 2 := by decide
  obtain ⟨⟨set', hsort, -, -, hordered⟩, -⟩ := sort_spec _ hnodup (by decide) nofun hfuel
  exact ⟨set', hsort, hordered⟩

end XPath

end WebV8
