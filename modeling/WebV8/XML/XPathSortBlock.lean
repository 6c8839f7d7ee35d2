import WebV8.Lib.Shuffle
import WebV8.DOM.DocumentOrder
import WebV8.XML.XPathNodeSet

/-! # Sorting by blocks

A row is the list of the nodes from a node up to the root, so a node is above another one if it is in its row.
`sortBlock` divides a block at the nearest common ancestor: all rows of the first part come before all rows of the second
one, and each part is a smaller block.
-/

namespace WebV8.XPath

open DOMNode Lib List Option Bool Nat

variable {t : DOMTree} {from_ to_ : Nat} {m : Matrix} {pre blk rest post : List (List DOMNode)}
    {r first : List DOMNode} {p : DOMNode}

/-! ## Rows -/

def IsRow (t : DOMTree) (r : List DOMNode) : Prop := ∃ n, t.Contains n ∧ r = n.tails

/-- The node of the first row comes before that of the second one. -/
def RowOrder (r r' : List DOMNode) : Prop := ∃ n n', r = n.tails ∧ r' = n'.tails ∧ DOMNode.InOrder n n'

theorem head?_tails (n : DOMNode) : n.tails.head? = some n := by
  cases n <;> rfl

theorem tails_injective : Function.Injective (List.tails : DOMNode → List DOMNode) := by
  intro n n' heq
  exact Option.some.inj ((head?_tails n).symm.trans ((congrArg List.head? heq).trans (head?_tails n')))

theorem parentWithDepth_tails (depth : Nat) (n : DOMNode) :
    parentWithDepth depth n.tails = some (n.drop (n.length - depth)) := by
  have hlt : n.tails.length - 1 - depth < n.tails.length := by
    rw [length_tails]
    omega
  rw [parentWithDepth, List.getElem?_eq_getElem hlt, List.getElem_tails, List.length_tails, Nat.add_sub_cancel]

theorem parentWithDepth_eq_iff (hr : IsRow t r) (q : DOMNode) : parentWithDepth q.length r = some q ↔ q ∈ r := by
  obtain ⟨n, -, rfl⟩ := hr
  rw [parentWithDepth_tails, mem_tails, suffix_iff_eq_drop, some_inj]
  exact eq_comm

theorem block_rows (h : Cut pre blk post from_ to_ m) : (block from_ to_).map (row m) = blk := h.map_getD []

theorem exists_row (h : Cut pre blk post from_ to_ m) (hr : r ∈ blk) : ∃ k ∈ block from_ to_, row m k = r :=
  mem_map.mp ((block_rows h).symm ▸ hr)

theorem row_eq {s u : List (List DOMNode)} (h : Cut pre (s ++ r :: u) post from_ to_ m) :
    row m (from_ + s.length) = r := by
  rw [row, Array.getD_eq_getD_getElem?, h.getElem?, getD_some]

/-! ## The common ancestor -/

theorem minDepth_spec (h : Cut pre (first :: rest) post from_ to_ m) :
    (∃ r ∈ first :: rest, r.length - 1 = minDepth from_ to_ m) ∧
      ∀ r ∈ first :: rest, minDepth from_ to_ m ≤ r.length - 1 := by
  have hmin : ((first :: rest).map fun r => r.length - 1).min? = some (minDepth from_ to_ m) := by
    have hfst : row m from_ = first := row_eq (s := []) h
    have hfold : minDepth from_ to_ m = ((block from_ to_).map (row m)).foldl (fun d r => min d (r.length - 1))
        (first.length - 1) := by rw [minDepth, hfst, foldl_map]
    rw [hfold, block_rows h, map_cons, List.min?_cons', foldl_map, foldl_cons, min_self]
  obtain ⟨hmem, hle⟩ := List.min?_eq_some_iff.mp hmin
  exact ⟨mem_map.mp hmem, fun r hr => hle _ (mem_map_of_mem hr)⟩

/-- The node is above all rows of the block, and no node of the next depth is, unless the depth is the least one. -/
theorem findCommonAncestor_spec (h : Cut pre (first :: rest) post from_ to_ m) (hrows : ∀ r ∈ first :: rest, IsRow t r)
    (D : Nat) (hdep : ∀ r ∈ first :: rest, D ≤ r.length - 1) :
    ∃ p : DOMNode, findCommonAncestor from_ to_ m D = (p.length, some p) ∧ p.length ≤ D ∧ (∀ r ∈ first :: rest, p ∈ r) ∧
      (p.length = D ∨ ¬ ∃ q : DOMNode, q.length = p.length + 1 ∧ ∀ r ∈ first :: rest, q ∈ r) := by
  have hfst : row m from_ = first := row_eq (s := []) h
  obtain ⟨n, -, hn⟩ := hrows first mem_cons_self
  induction D with
  | zero =>
    refine ⟨[], ?_, le_rfl, fun r hr => ?_, Or.inl rfl⟩
    · rw [findCommonAncestor, hfst, hn, parentWithDepth_tails, Nat.sub_zero, List.drop_length, List.length_nil]
    · obtain ⟨n, -, rfl⟩ := hrows r hr
      exact (mem_tails _ _).mpr nil_suffix
  | succ D ih =>
    obtain ⟨p, hp⟩ : ∃ p, p = n.drop (n.length - (D + 1)) := ⟨_, rfl⟩
    have hlen : p.length = D + 1 := by
      have hD := hdep first mem_cons_self
      rw [hn, length_tails] at hD
      rw [hp, length_drop]
      omega
    have hpfi : parentWithDepth (D + 1) first = some p := by rw [hn, parentWithDepth_tails, hp]
    rw [findCommonAncestor, hfst, hpfi]
    split_ifs with hall
    · refine ⟨p, by rw [hlen], hlen.le, fun r hr => ?_, Or.inl hlen⟩
      apply (parentWithDepth_eq_iff (hrows r hr) p).mp
      rw [hlen]
      rcases mem_cons.mp hr with rfl | hmem
      · exact hpfi
      · obtain ⟨k, hk, rfl⟩ := exists_row (h.right (s := [first])) hmem
        exact of_decide_eq_true (all_eq_true.mp hall k hk)
    · obtain ⟨p', hfind, hle, habv, hnext⟩ := ih fun r hr => (le_succ D).trans (hdep r hr)
      refine ⟨p', hfind, hle.trans (le_succ D), habv, Or.inr ?_⟩
      rcases hnext with heq | hnone
      · rintro ⟨q, hq, hqall⟩
        rw [heq] at hq
        have hqrow : ∀ r ∈ first :: rest, parentWithDepth (D + 1) r = some q := fun r hr =>
          hq ▸ (parentWithDepth_eq_iff (hrows r hr) q).mpr (hqall r hr)
        -- The first row has only one node of that depth.
        have hqp : q = p := Option.some.inj ((hqrow first mem_cons_self).symm.trans hpfi)
        refine hall (all_eq_true.mpr fun k hk => decide_eq_true ?_)
        have hmem : row m k ∈ rest := block_rows (h.right (s := [first])) ▸ mem_map_of_mem hk
        exact hqp ▸ hqrow _ (mem_cons_of_mem _ hmem)
      · exact hnone

/-! ## Moving rows to the beginning -/

variable (pred : List DOMNode → Bool)

/-- The rows that satisfy the predicate are first. -/
def Gathered (pre blk post : List (List DOMNode)) (from_ to_ : Nat) (result : Nat × Matrix) :
    Prop :=
  ∃ yes no m', result = (from_ + yes.length, m') ∧ Cut pre (yes ++ no) post from_ to_ m' ∧ (yes ++ no).Perm blk ∧
    (∀ r ∈ yes, pred r = true) ∧ ∀ r ∈ no, pred r = false

theorem gather_spec (no : List (List DOMNode))
    (h : Cut pre (no ++ rest) post from_ to_ m) (hno : ∀ r ∈ no, pred r = false) :
    Gathered pred pre (no ++ rest) post from_ to_ (gather pred rest.length (from_ + no.length) from_ m) := by
  induction rest generalizing pre from_ no m with
  | nil => exact ⟨[], no, m, rfl, by simpa using h, by simp, nofun, hno⟩
  | cons r rest ih =>
    rw [length_cons, gather, row_eq h]
    split_ifs with hpred
    · -- The row goes to the end of the rows that are gathered.
      obtain ⟨no', hperm, hswap⟩ := h.swap
      obtain ⟨yes, no₁, m', hgat, hcut, hperm', hyes, hno₁⟩ := ih no' (hswap.right (s := [r]))
        fun r hr => hno r (hperm.mem_iff.mp hr)
      refine ⟨r :: yes, no₁, m', ?_, hcut.join (s := [r]), ?_, forall_mem_cons.mpr ⟨hpred, hyes⟩, hno₁⟩
      · rw [hperm.length_eq, length_singleton, add_right_comm] at hgat
        rw [hgat, length_cons, add_assoc, add_comm 1]
      · exact ((hperm'.trans (hperm.append_right rest)).cons r).trans perm_middle.symm
    · have hspec := ih (no ++ [r]) (by simpa using h)
        (forall_mem_append.mpr ⟨hno, by simpa using hpred⟩)
      rwa [length_append, append_assoc] at hspec

theorem gather_block (h : Cut pre blk post from_ to_ m) :
    Gathered pred pre blk post from_ to_ (gather pred (to_ - from_) from_ from_ m) := by
  rw [h.stop, Nat.add_sub_cancel_left]
  exact h.stop ▸ gather_spec pred [] h nofun

/-! ## Blocks -/

/-- What the block must be: rows of nodes, all different, with attributes only if they are announced. -/
structure Sortable (t : DOMTree) (mayContainAttributeNodes : Bool) (blk : List (List DOMNode)) : Prop where
  rows : ∀ r ∈ blk, IsRow t r
  nodup : blk.Nodup
  attributes : mayContainAttributeNodes = false → ∀ r ∈ blk, ∀ p, isAttributeOf p r = false

def Sorted (pre blk post : List (List DOMNode)) (from_ to_ : Nat) (result : Option Matrix) : Prop :=
  ∃ m' blk', result = some m' ∧ Cut pre blk' post from_ to_ m' ∧ blk'.Perm blk ∧ blk'.Pairwise RowOrder

variable {may : Bool} {result : Option Matrix} {as : List (List DOMNode)}

theorem Sortable.perm (h : Sortable t may blk) (hperm : as.Perm blk) : Sortable t may as :=
  ⟨fun r hr => h.rows r (hperm.mem_iff.mp hr), hperm.nodup_iff.mpr h.nodup,
    fun hmay r hr => h.attributes hmay r (hperm.mem_iff.mp hr)⟩

theorem Sortable.sublist (h : Sortable t may blk) (hsub : as.Sublist blk) : Sortable t may as :=
  ⟨fun r hr => h.rows r (hsub.subset hr), h.nodup.sublist hsub, fun hmay r hr => h.attributes hmay r (hsub.subset hr)⟩

theorem sorted_ite (hcut : Cut pre blk post from_ to_ m) (h : to_ - from_ > 1 → Sorted pre blk post from_ to_ result) :
    Sorted pre blk post from_ to_ (if to_ - from_ > 1 then result else some m) := by
  split_ifs with hlong
  · exact h hlong
  · refine ⟨m, blk, rfl, hcut, .rfl, ?_⟩
    have hstop := hcut.stop
    rcases blk with - | ⟨r, - | ⟨r', blk⟩⟩
    · exact .nil
    · exact pairwise_singleton _ _
    · rw [length_cons, length_cons] at hstop
      omega

theorem Sorted.perm (h : Sorted pre as post from_ to_ result) (hperm : as.Perm blk) : Sorted pre blk post from_ to_ result := by
  obtain ⟨m', blk', hres, hcut, hperm', hord⟩ := h
  exact ⟨m', blk', hres, hcut, hperm'.trans hperm, hord⟩

/-- The first rows are in order and before the others, which are sorted next. -/
theorem Sorted.append (h : Sorted (pre ++ as) rest post (from_ + as.length) to_ result) (has : as.Pairwise RowOrder)
    (hperm : (as ++ rest).Perm blk) (hord : ∀ r ∈ as, ∀ r' ∈ rest, RowOrder r r') :
    Sorted pre blk post from_ to_ result := by
  obtain ⟨m', rest', hres, hcut, hperm', hrest⟩ := h
  refine ⟨m', as ++ rest', hres, hcut.join, (hperm'.append_left as).trans hperm, ?_⟩
  exact pairwise_append.mpr ⟨has, hrest, fun r hr r' hr' => hord r hr r' (hperm'.mem_iff.mp hr')⟩

/-! ## Groups -/

theorem rowOrder_of_children {r' : List DOMNode} (hr : IsRow t r) (hr' : IsRow t r') {i j : Nat} (hij : i < j)
    (hi : .child i :: p ∈ r) (hj : .child j :: p ∈ r') : RowOrder r r' := by
  obtain ⟨n, -, rfl⟩ := hr
  obtain ⟨n', -, rfl⟩ := hr'
  exact ⟨n, n', rfl, rfl, Or.inl (.sibling hij ((mem_tails _ _).mp hi) ((mem_tails _ _).mp hj))⟩

/-- **The loop over the children**: the rows below one child are moved to the beginning and sorted, and the others come
    later. A group is not the whole block, since no child is above all its rows. -/
theorem sortGroups_spec {sort : Nat → Nat → Matrix → Option Matrix} {isParent : DOMNode → Bool} {size : Nat}
    (hsort : ∀ {pre blk post from_ to_ m}, Cut pre blk post from_ to_ m → to_ - from_ > 1 → to_ - from_ < size →
      Sortable t may blk → Sorted pre blk post from_ to_ (sort from_ to_ m)) (k i : Nat)
    (hcut : Cut pre blk post from_ to_ m) (hsor : Sortable t may blk)
    (hpar : ∀ j, isParent (.child j :: p) = false → ∀ r ∈ blk, .child j :: p ∉ r) (hsize : blk.length ≤ size)
    (hspr : ∀ q : DOMNode, q.length = p.length + 1 → blk.length = size → ∃ r ∈ blk, q ∉ r)
    (hchd : ∀ r ∈ blk, ∃ j, i ≤ j ∧ j < i + k ∧ .child j :: p ∈ r) : Sorted pre blk post from_ to_
      (sortGroups sort isParent (p.length + 1) to_ ((List.range' i k).map fun j => .child j :: p) from_ from_ m) := by
  induction k generalizing i pre blk from_ m with
  | zero =>
    -- All rows are done.
    refine ⟨m, blk, rfl, hcut, .rfl, ?_⟩
    cases blk with
    | nil => exact .nil
    | cons r blk =>
      obtain ⟨j, hij, hji, -⟩ := hchd r mem_cons_self
      omega
  | succ k ih =>
    rw [List.range'_succ, map_cons, sortGroups]
    split_ifs with hcts
    · obtain ⟨yes, no, m₁, hgat, hcut₁, hperm, hyes, hno⟩ :=
        gather_block (fun parents => parentWithDepth (p.length + 1) parents = some (.child i :: p)) hcut
      have hsor₁ := hsor.perm hperm
      have hmem : ∀ {r}, r ∈ yes ++ no → r ∈ blk := hperm.mem_iff.mp
      have hgro : ∀ r ∈ yes, .child i :: p ∈ r := fun r hr =>
        (parentWithDepth_eq_iff (hsor₁.rows r (mem_append_left _ hr)) (.child i :: p)).mp
          (of_decide_eq_true (hyes r hr))
      have hoth : ∀ r ∈ no, ∃ j, i + 1 ≤ j ∧ j < i + 1 + k ∧ .child j :: p ∈ r := by
        intro r hr
        obtain ⟨j, hij, hjk, hj⟩ := hchd r (hmem (mem_append_right _ hr))
        have hne : j ≠ i := by
          rintro rfl
          refine of_decide_eq_false (hno r hr) ?_
          exact (parentWithDepth_eq_iff (hsor₁.rows r (mem_append_right _ hr)) (.child j :: p)).mpr hj
        exact ⟨j, by omega, by omega, hj⟩
      have hlen := hperm.length_eq
      rw [length_append] at hlen
      have hsma : yes.length < size := by
        by_contra hlar
        obtain ⟨r, hr, hnot⟩ := hspr (.child i :: p) rfl (by omega)
        obtain rfl : no = [] := length_eq_zero_iff.mp (by omega)
        exact hnot (hgro r (append_nil yes ▸ hperm.mem_iff.mpr hr))
      obtain ⟨m₂, yes', hres, hcut₂, hperm₂, hord⟩ := sorted_ite hcut₁.left fun hlong =>
        hsort hcut₁.left hlong (by omega) (hsor₁.sublist (sublist_append_left _ _))
      have hcut₃ : Cut (pre ++ yes') no post (from_ + yes'.length) to_ m₂ := by
        refine ⟨by simp [hcut₂.toList_eq], by simp [hcut₂.start], ?_⟩
        rw [hcut₁.stop, length_append, hperm₂.length_eq, add_assoc]
      have hfin := ih (i + 1) hcut₃ (hsor₁.sublist (sublist_append_right _ _))
        (fun j hj r hr => hpar j hj r (hmem (mem_append_right _ hr))) (by omega) ?_ hoth
      · have hsrt := hfin.append hord (show (yes' ++ no).Perm blk from (hperm₂.append_right no).trans hperm) ?_
        · rw [hgat]
          dsimp only
          rw [hperm₂.length_eq] at hsrt
          split_ifs at hres ⊢ with hlong
          · rw [hres]
            exact hsrt
          · rw [Option.some.inj hres]
            exact hsrt
        · intro r hr r' hr'
          have hr := hperm₂.mem_iff.mp hr
          obtain ⟨j, hij, -, hj⟩ := hoth r' hr'
          exact rowOrder_of_children (hsor₁.rows r (mem_append_left _ hr))
            (hsor₁.rows r' (mem_append_right _ hr')) hij (hgro r hr) hj
      · intro q hq hwho
        obtain rfl : yes = [] := length_eq_zero_iff.mp (by omega)
        obtain ⟨r, hr, hnot⟩ := hspr q hq (by omega)
        exact ⟨r, hperm.mem_iff.mpr hr, hnot⟩
    · refine ih (i + 1) hcut hsor hpar hsize hspr fun r hr => ?_
      obtain ⟨j, hij, hjk, hj⟩ := hchd r hr
      have hne : j ≠ i := by
        rintro rfl
        exact hpar j (eq_false_of_not_eq_true hcts) r hr hj
      exact ⟨j, by omega, by omega, hj⟩

/-! ## The whole block -/

theorem isAttributeOf_tails {n : DOMNode} : isAttributeOf p n.tails = true ↔ ∃ i, n = .attr i :: p := by
  rw [isAttributeOf, head?_tails]
  match n with
  | [] => exact iff_of_false nofun nofun
  | .child i :: q => exact iff_of_false nofun nofun
  | .attr i :: q => simp [isAttributeNode, ownerElement]

theorem attributeCount_eq_zero (h : t.isElementNode p = false) : t.attributeCount p = 0 := by
  rw [DOMTree.isElementNode] at h
  rw [DOMTree.attributeCount]
  split
  · next heq =>
    rw [heq] at h
    cases h
  · rfl

theorem gatherAttributes_spec (hcut : Cut pre blk post from_ to_ m) (h : Sortable t may blk) (p : DOMNode) :
    Gathered (isAttributeOf p) pre blk post from_ to_ (gatherAttributes t may from_ to_ m p) := by
  rw [gatherAttributes]
  split_ifs with hcond
  · exact gather_block (isAttributeOf p) hcut
  · refine ⟨[], blk, m, rfl, hcut, .rfl, nofun, ?_⟩
    cases hmay : may with
    | false => exact fun r hr => h.attributes hmay r hr p
    | true =>
      -- Only an element has attributes.
      have hele : t.isElementNode p = false := by
        rw [hmay, Bool.true_and] at hcond
        exact eq_false_of_not_eq_true hcond
      refine fun r hr => eq_false_of_not_eq_true fun hatt => ?_
      obtain ⟨n, hn, rfl⟩ := h.rows r hr
      obtain ⟨i, rfl⟩ := isAttributeOf_tails.mp hatt
      have hlt : i < t.attributeCount p := hn
      rw [attributeCount_eq_zero hele] at hlt
      exact not_lt_zero i hlt

theorem exists_child_of_mem (hr : IsRow t r) (hp : p ∈ r) (hne : r ≠ p.tails)
    (hatt : isAttributeOf p r = false) : ∃ j, j < t.childCount p ∧ .child j :: p ∈ r := by
  obtain ⟨n, hn, rfl⟩ := hr
  obtain ⟨xs, rfl⟩ := (mem_tails _ _).mp hp
  rcases eq_nil_or_concat' xs with rfl | ⟨ys, e, rfl⟩
  · exact absurd rfl hne
  · have hsuf : e :: p <:+ ys ++ [e] ++ p := ⟨ys, by rw [append_assoc, singleton_append]⟩
    cases e with
    | attr i =>
      rw [hn.eq_of_attribute hsuf] at hatt
      exact nomatch hatt.symm.trans (isAttributeOf_tails.mpr ⟨i, rfl⟩)
    | child j => exact ⟨j, DOMTree.contains_child.mp (hn.of_suffix hsuf), (mem_tails _ _).mpr hsuf⟩

theorem isParentNode_spec (hcut : Cut pre blk post from_ to_ m) (h : Sortable t may blk) (q : DOMNode)
    (hnone : isParentNode from_ to_ m q.length q = false) (hr : r ∈ blk) : q ∉ r := by
  intro hmem
  obtain ⟨k, hk, rfl⟩ := exists_row hcut hr
  exact any_eq_false.mp hnone k hk (decide_eq_true ((parentWithDepth_eq_iff (h.rows _ hr) q).mpr hmem))

theorem findAncestorRow_spec (hcut : Cut pre (first :: rest) post from_ to_ m) (h : Sortable t may (first :: rest))
    (hp : ∀ r ∈ first :: rest, p ∈ r) :
    (∃ as bs, first :: rest = as ++ p.tails :: bs ∧
      findAncestorRow from_ to_ m p.length p = some (from_ + as.length)) ∨
    findAncestorRow from_ to_ m p.length p = none ∧ p.length ≠ minDepth from_ to_ m ∧
      ∀ r ∈ first :: rest, r ≠ p.tails := by
  have hlen : ∀ r ∈ first :: rest, p.length ≤ r.length - 1 ∧ (r.length - 1 = p.length → r = p.tails) := by
    intro r hr
    obtain ⟨n, -, hn⟩ := h.rows r hr
    have hsuf : p <:+ n := (mem_tails _ _).mp (hn ▸ hp r hr)
    rw [hn, List.length_tails, Nat.add_sub_cancel]
    exact ⟨hsuf.length_le, fun heq => by rw [hsuf.eq_of_length heq.symm]⟩
  obtain ⟨⟨r, hr, hmin⟩, hle⟩ := minDepth_spec hcut
  rw [findAncestorRow]
  by_cases hdep : p.length = minDepth from_ to_ m
  · -- The row of least depth is that of the ancestor.
    rw [if_pos hdep]
    left
    cases hfind : (block from_ to_).find? fun i => (row m i).head? = some p with
    | some i =>
      obtain ⟨hfou, as, bs, hblo, -⟩ := List.find?_eq_some_iff_append.mp hfind
      have hi : i = from_ + as.length := by
        have hget : (block from_ to_)[as.length]? = some i := by rw [hblo]; simp
        obtain ⟨_, heq⟩ := List.getElem?_eq_some_iff.mp hget
        simp [block] at heq
        exact heq.symm
      have hrows := block_rows hcut
      rw [hblo, map_append, map_cons] at hrows
      obtain ⟨n, -, hn⟩ := h.rows (row m i) (hrows ▸ mem_append_right _ mem_cons_self)
      have hnp : n = p := by
        have hhead := of_decide_eq_true hfou
        rwa [hn, head?_tails, some_inj] at hhead
      exact ⟨as.map (row m), bs.map (row m), by rw [← hrows, hn, hnp], by rw [length_map, hi]⟩
    | none =>
      obtain ⟨k, hk, hrow⟩ := exists_row hcut hr
      refine absurd (decide_eq_true ?_) (List.find?_eq_none.mp hfind k hk)
      rw [hrow, (hlen r hr).2 (hmin.trans hdep.symm), head?_tails]
  · rw [if_neg hdep]
    refine Or.inr ⟨rfl, hdep, fun r' hr' heq => hdep ?_⟩
    have hle' := hle r' hr'
    rw [heq, List.length_tails, Nat.add_sub_cancel] at hle'
    have := (hlen r hr).1
    omega

theorem sorted_ancestor {as bs : List (List DOMNode)} (hcut : Cut pre (as ++ p.tails :: bs) post from_ to_ m)
    (h : Sortable t may (as ++ p.tails :: bs)) (hp : ∀ r ∈ as ++ p.tails :: bs, p ∈ r)
    (sort : Matrix → Option Matrix) (hrest : ∀ {pre blk m}, Cut pre blk post (from_ + 1) to_ m → Sortable t may blk →
      Sorted pre blk post (from_ + 1) to_ (sort m)) :
    Sorted pre (as ++ p.tails :: bs) post from_ to_ (sort (m.swapIfInBounds (from_ + as.length) from_)) := by
  obtain ⟨as', hperm, hswap⟩ := hcut.swap
  have hperm' : (p.tails :: (as' ++ bs)).Perm (as ++ p.tails :: bs) :=
    ((hperm.append_right bs).cons _).trans perm_middle.symm
  have hsor := h.perm hperm'
  refine (hrest (hswap.right (s := [p.tails])) (hsor.sublist (sublist_cons_self _ _))).append
    (pairwise_singleton _ _) hperm' fun r hr r' hr' => ?_
  obtain rfl := mem_singleton.mp hr
  obtain ⟨n, -, rfl⟩ := hsor.rows r' (mem_cons_of_mem _ hr')
  have hmem := hp _ (hperm'.mem_iff.mp (mem_cons_of_mem _ hr'))
  -- No row is there twice.
  refine ⟨p, n, rfl, rfl, Or.inl (.descendant ((mem_tails _ _).mp hmem) ?_)⟩
  rintro rfl
  exact (nodup_cons.mp hsor.nodup).1 hr'

theorem sorted_attributes {yes no : List (List DOMNode)} (h : Sortable t may (yes ++ no)) (hperm : (yes ++ no).Perm blk)
    (hatt : ∀ r ∈ yes, isAttributeOf p r = true) (hchd : ∀ r ∈ no, ∃ j, .child j :: p ∈ r)
    (hrest : Sorted (pre ++ yes) no post (from_ + yes.length) to_ result) : Sorted pre blk post from_ to_ result := by
  have hfst : ∀ r ∈ yes, ∃ i, r = (Edge.attr i :: p).tails := by
    intro r hr
    obtain ⟨n, -, rfl⟩ := h.rows r (mem_append_left _ hr)
    obtain ⟨i, rfl⟩ := isAttributeOf_tails.mp (hatt _ hr)
    exact ⟨i, rfl⟩
  refine hrest.append ?_ hperm fun r hr r' hr' => ?_
  · refine pairwise_of_forall_mem_list fun r hr r' hr' => ?_
    obtain ⟨i, rfl⟩ := hfst r hr
    obtain ⟨j, rfl⟩ := hfst r' hr'
    exact ⟨_, _, rfl, rfl, Or.inr ⟨p, i, j, rfl, rfl⟩⟩
  · obtain ⟨i, rfl⟩ := hfst r hr
    obtain ⟨j, hj⟩ := hchd r' hr'
    obtain ⟨n, -, rfl⟩ := h.rows r' (mem_append_right _ hr')
    exact ⟨_, _, rfl, rfl, Or.inl (.attr ((mem_tails _ _).mp hj))⟩

/-- **sortBlock sorts**, if the fuel is the size of the block. -/
theorem sortBlock_spec (fuel : Nat) {pre blk post : List (List DOMNode)} {from_ to_ : Nat} {m : Matrix}
    (hcut : Cut pre blk post from_ to_ m) (hlong : to_ - from_ > 1) (hfuel : to_ - from_ ≤ fuel)
    (h : Sortable t may blk) : Sorted pre blk post from_ to_ (sortBlock t may fuel from_ to_ m) := by
  induction fuel generalizing pre blk post from_ to_ m with
  | zero => omega
  | succ fuel ih =>
    have hstop := hcut.stop
    cases hblk : blk with
    | nil =>
      rw [hblk, length_nil] at hstop
      omega
    | cons first rest =>
      rw [hblk] at hcut h
      obtain ⟨p, hfind, hle, hp, hnext⟩ := findCommonAncestor_spec hcut h.rows (minDepth from_ to_ m)
        (minDepth_spec hcut).2
      rw [sortBlock, hfind]
      dsimp only
      rcases findAncestorRow_spec hcut h hp with ⟨as, bs, hspl, hrow⟩ | ⟨hrow, hdep, hne⟩
      · rw [hrow]
        rw [hspl] at hcut h hp ⊢
        refine sorted_ancestor hcut h hp (fun m' =>
          if from_ + 2 < to_ then sortBlock t may fuel (from_ + 1) to_ m' else some m') fun hcut' h' => ?_
        have hiff : from_ + 2 < to_ ↔ to_ - (from_ + 1) > 1 := by omega
        simp only [hiff]
        exact sorted_ite hcut' fun hlong' => ih hcut' hlong' (by omega) h'
      · rw [hrow]
        obtain ⟨yes, no, m₁, hgat, hcut₁, hperm, hyes, hno⟩ := gatherAttributes_spec hcut h p
        have hsor := h.perm hperm
        have hchd : ∀ r ∈ no, ∃ j, j < t.childCount p ∧ .child j :: p ∈ r := fun r hr =>
          have hmem := hperm.mem_iff.mp (mem_append_right yes hr)
          exists_child_of_mem (h.rows r hmem) (hp r hmem) (hne r hmem) (hno r hr)
        rw [hgat]
        dsimp only
        cases yes with
        | nil =>
          -- The groups are what is below the children.
          rw [if_neg (by simp), DOMTree.childNodes, range_eq_range']
          refine .perm (sortGroups_spec (fun hcut' hlong' hsma h' => ih hcut' hlong' (by omega) h') (t.childCount p) 0
            hcut₁ hsor (fun j hj r hr => isParentNode_spec hcut₁ hsor (.child j :: p) hj hr)
            (show _ ≤ to_ - from_ by have := hcut₁.stop; omega) (fun q hq _ => ?_) fun r hr => ?_) hperm
          · by_contra hall
            refine hnext.resolve_left hdep ⟨q, hq, fun r hr => ?_⟩
            by_contra hnot
            exact hall ⟨r, hperm.mem_iff.mpr hr, hnot⟩
          · obtain ⟨j, hj, hmem⟩ := hchd r hr
            exact ⟨j, zero_le j, by omega, hmem⟩
        | cons r yes =>
          rw [if_pos (by simp)]
          refine sorted_attributes hsor hperm hyes (fun r hr => ?_) (sorted_ite hcut₁.right fun hlong' =>
            ih hcut₁.right hlong' (by simp at *; omega) (hsor.sublist (sublist_append_right _ _)))
          obtain ⟨j, -, hj⟩ := hchd r hr
          exact ⟨j, hj⟩

end WebV8.XPath
