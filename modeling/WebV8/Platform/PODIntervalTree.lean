import WebV8.Platform.PODRedBlackTree
import WebV8.WTF.RedBlackTreeRun

/-!
# `PODIntervalTree`

The interval tree of `platform/PODIntervalTree.h`: a `PODRedBlackTree` of intervals in the order of
their low endpoints, in which `updateNode` keeps at each node the largest high endpoint of its subtree.
A query skips a left subtree all of whose intervals end too early, and a right subtree all of whose
intervals start too late.

Two intervals are equal if their endpoints and their user data are; the order does not tell intervals
with one low endpoint apart, so the tree is searched with full comparisons.
-/

namespace WebV8

open Lib ColorTree

/-! ## Intervals -/

structure PODInterval (T U : Type) where
  low : T
  high : T
  data : U
  maxHigh : T

namespace PODInterval

variable {T U : Type}

/-- The constructor from two endpoints plus explicit user data. -/
def ofEndpoints (low high : T) (data : U) : PODInterval T U := ⟨low, high, data, high⟩

/-- What `operator==` compares. -/
def core (v : PODInterval T U) : T × T × U := (v.low, v.high, v.data)

variable [LinearOrder T]

def overlaps (v : PODInterval T U) (low high : T) : Bool :=
  if v.high < low then false else if high < v.low then false else true

/-- `operator<` -/
def less (v w : PODInterval T U) : Bool := decide (v.low < w.low)

/-- `operator==` -/
def equal [DecidableEq U] (v w : PODInterval T U) : Bool :=
  v.low == w.low && v.high == w.high && v.data == w.data

theorem equal_iff [DecidableEq U] (v w : PODInterval T U) : equal v w = true ↔ core v = core w := by
  simp [equal, core, and_assoc]

theorem less_eq_lessBy : (less : PODInterval T U → PODInterval T U → Bool) = lessBy core Prod.fst := rfl

theorem overlaps_iff (v : PODInterval T U) (low high : T) :
    v.overlaps low high = true ↔ low ≤ v.high ∧ v.low ≤ high := by
  unfold overlaps
  split_ifs with h₁ h₂
  · exact iff_of_false nofun fun h => absurd h.1 (not_le.mpr h₁)
  · exact iff_of_false nofun fun h => absurd h.2 (not_le.mpr h₂)
  · exact iff_of_true rfl ⟨not_lt.mp h₁, not_lt.mp h₂⟩

end PODInterval

namespace PODIntervalTree

open PODInterval

variable {ι T U : Type} [LinearOrder T]

/-! ## Summaries -/

/-- One of the two steps of `updateNode` that raise `curMax`. -/
def raise (curMax : T) : Option T → T
  | some maxHigh => if curMax < maxHigh then maxHigh else curMax
  | none => curMax

/-- `updateNode` -/
def maxHighs : Augmentation (PODInterval T U) T where
  summary := fun v => v.maxHigh
  update := fun v left right =>
    let curMax := raise (raise v.high left) right
    if ¬curMax = v.maxHigh then ({ v with maxHigh := curMax }, true) else (v, false)

theorem raise_none (a : T) : raise a none = a := rfl

theorem raise_some (a b : T) : raise a (some b) = max a b := (max_def_lt a b).symm

theorem update_fst (v : PODInterval T U) (a b : Option T) :
    (maxHighs.update v a b).1 = { v with maxHigh := raise (raise v.high a) b } := by
  dsimp only [maxHighs]
  split_ifs with h
  · rw [h]
  · rfl

theorem raise_rotate (v w : T) (a b c : Option T) :
    raise (raise w (some (raise (raise v a) b))) c = raise (raise v a) (some (raise (raise w b) c)) := by
  cases a <;> cases b <;> cases c <;> simp only [raise_none, raise_some] <;>
    simp only [max_comm, max_left_comm]

theorem maxHighs_lawful : (maxHighs : Augmentation (PODInterval T U) T).Lawful core where
  core_update v a b := by rw [update_fst]; rfl
  update_congr {v w} a b h := by
    obtain ⟨low, high, data, m⟩ := v
    obtain ⟨low', high', data', m'⟩ := w
    obtain ⟨rfl, rfl, rfl⟩ : low = low' ∧ high = high' ∧ data = data' := by simpa [core] using h
    rw [update_fst, update_fst]
  unchanged v a b h := by
    dsimp only [maxHighs] at h ⊢
    split_ifs at h ⊢ with hne
    · rfl
  rotate v w a b c := by
    simp only [update_fst]
    exact raise_rotate v.high w.high a b c

/-- Every node has the largest high endpoint of its subtree. -/
def MaxHighs : ColorTree (ι × PODInterval T U) → Prop
  | nil => True
  | node c l a r =>
    (a.2.maxHigh ∈ (node c l a r).inorder.map (fun e => e.2.high) ∧
      ∀ e ∈ (node c l a r).inorder, e.2.high ≤ a.2.maxHigh) ∧ MaxHighs l ∧ MaxHighs r

variable {S : ColorTree (ι × PODInterval T U)}

theorem MaxHighs.summary (h : MaxHighs S) {m : T} (hm : summaryOf maxHighs S = some m) :
    m ∈ S.inorder.map (fun e => e.2.high) ∧ ∀ e ∈ S.inorder, e.2.high ≤ m := by
  cases S with
  | nil => cases hm
  | node c l a r =>
    obtain rfl := Option.some.inj hm
    exact h.1

theorem le_raise (a : T) (s : Option T) : a ≤ raise a s := by
  cases s with
  | none => exact le_rfl
  | some b => rw [raise_some]; exact le_max_left a b

theorem raise_eq (a : T) (s : Option T) : raise a s = a ∨ s = some (raise a s) := by
  cases s with
  | none => exact .inl rfl
  | some b =>
    rw [raise_some]
    rcases max_choice a b with h | h
    · exact .inl h
    · exact .inr (by rw [h])

theorem MaxHighs.le_raise (h : MaxHighs S) (a : T)
    {e : ι × PODInterval T U} (he : e ∈ S.inorder) : e.2.high ≤ raise a (summaryOf maxHighs S) := by
  cases hs : summaryOf maxHighs S with
  | none =>
    cases S with
    | nil => cases he
    | node c l b r => cases hs
  | some m =>
    rw [raise_some]
    exact le_max_of_le_right ((h.summary hs).2 e he)

theorem maxHighs_of_upToDate (h : UpToDate maxHighs S) : MaxHighs S := by
  induction S with
  | nil => trivial
  | node c l a r ihl ihr =>
    obtain ⟨ha, hl, hr⟩ := h
    have hl := ihl hl
    have hr := ihr hr
    rw [update_fst] at ha
    have hmax : a.2.maxHigh = raise (raise a.2.high (summaryOf maxHighs l)) (summaryOf maxHighs r) :=
      (congrArg PODInterval.maxHigh ha).symm
    refine ⟨⟨?_, fun e he => ?_⟩, hl, hr⟩
    · -- it is one of the three: the node's own, or the largest of a subtree
      rw [hmax, inorder_node, List.map_append, List.map_cons]
      rcases raise_eq (raise a.2.high (summaryOf maxHighs l)) (summaryOf maxHighs r) with hrai | hrai
      · rw [hrai]
        rcases raise_eq a.2.high (summaryOf maxHighs l) with hrai | hrai
        · rw [hrai]
          exact List.mem_append_right _ (List.mem_cons_self ..)
        · exact List.mem_append_left _ (hl.summary hrai).1
      · exact List.mem_append_right _ (List.mem_cons_of_mem _ (hr.summary hrai).1)
    · rw [hmax]
      rcases mem_inorder_node.mp he with he | rfl | he
      · exact le_trans (hl.le_raise _ he) (le_raise _ _)
      · exact le_trans (le_raise _ _) (le_raise _ _)
      · exact hr.le_raise _ he

/-! ## Queries -/

/-- `collectIfNeeded` of the search adapter. -/
def collectIfNeeded (lowValue highValue : T) (result : List (PODInterval T U)) (data : PODInterval T U) :
    List (PODInterval T U) :=
  if data.overlaps lowValue highValue then result ++ [data] else result

def searchForOverlapsFrom (t : LinkedTree ι (PODInterval T U)) (lowValue highValue : T) :
    Nat → List (PODInterval T U) → Option ι → Option (List (PODInterval T U))
  | 0, _, _ => none
  | _ + 1, result, none => some result
  | rounds + 1, result, some current => do
    let n := t.node current
    let result ← (
      if n.left.any fun left => !decide ((t.node left).data.maxHigh < lowValue) then
        searchForOverlapsFrom t lowValue highValue rounds result n.left
      else some result)
    let result := collectIfNeeded lowValue highValue result n.data
    if ¬highValue < n.data.low then searchForOverlapsFrom t lowValue highValue rounds result n.right
    else some result

def allOverlaps (rounds : Nat) (t : LinkedTree ι (PODInterval T U)) (interval : PODInterval T U) :
    Option (List (PODInterval T U)) :=
  searchForOverlapsFrom t interval.low interval.high rounds [] t.root

/-- The intervals of a tree that overlap the query, in order. -/
def overlapping (S : ColorTree (ι × PODInterval T U)) (low high : T) : List (PODInterval T U) :=
  (S.inorder.map Prod.snd).filter fun v => v.overlaps low high

variable {low high : T}

theorem overlapping_eq_nil
    (h : ∀ e ∈ S.inorder, e.2.high < low ∨ high < e.2.low) : overlapping S low high = [] := by
  refine List.filter_eq_nil_iff.mpr fun v hv htrue => ?_
  obtain ⟨e, he, rfl⟩ := List.mem_map.mp hv
  obtain ⟨hlow, hhigh⟩ := (overlaps_iff ..).mp htrue
  rcases h e he with hlt | hlt
  · exact absurd hlow (not_le.mpr hlt)
  · exact absurd hhigh (not_le.mpr hlt)

theorem overlapping_node (c : Color) (l r : ColorTree (ι × PODInterval T U)) (x : ι)
    (v : PODInterval T U) (result : List (PODInterval T U)) :
    collectIfNeeded low high (result ++ overlapping l low high) v ++ overlapping r low high =
      result ++ overlapping (node c l (x, v) r) low high := by
  simp only [collectIfNeeded, overlapping, inorder_node, List.map_append, List.map_cons,
    List.filter_append, List.filter_cons]
  split_ifs <;> simp only [List.append_assoc, List.cons_append, List.nil_append]

variable {m : ι → LinkedNode ι (PODInterval T U)} {t : LinkedTree ι (PODInterval T U)}
  {ctx : List (Frame (ι × PODInterval T U))}

theorem overlapping_left (h : Focus m t ctx S) (hmax : MaxHighs S)
    (hskip : ¬(rootId S).any (fun left => !decide ((t.node left).data.maxHigh < low)) = true) :
    overlapping S low high = [] := by
  cases S with
  | nil => rfl
  | node c l a r =>
    obtain ⟨x, v⟩ := a
    have hlt : v.maxHigh < low := by
      have hdata : (t.node x).data = v := by rw [h.record_eq]
      simpa [rootId, hdata] using hskip
    exact overlapping_eq_nil fun e he => .inl (lt_of_le_of_lt (hmax.1.2 e he) hlt)

theorem searchForOverlapsFrom_spec {rounds : Nat} (h : Focus m t ctx S)
    (hsort : SortedBy Prod.fst (entries core S)) (hlen : S.inorder.length < rounds) :
    ∀ result : List (PODInterval T U), MaxHighs S →
    searchForOverlapsFrom t low high rounds result (rootId S) = some (result ++ overlapping S low high) := by
  refine Focus.walk (fun ctx rounds result _ => congrArg some (List.append_nil result).symm) ?_ h hsort hlen
  rintro c l x v r ctx rounds h hsort ihl ihr result ⟨-, hml, hmr⟩
  change searchForOverlapsFrom t low high (rounds + 1) result (some x) = _
  have hleft : (if (rootId l).any fun left => !decide ((t.node left).data.maxHigh < low) then
      searchForOverlapsFrom t low high rounds result (rootId l) else some result) =
      some (result ++ overlapping l low high) := by
    split_ifs with hgo
    · exact ihl result hml
    · rw [overlapping_left h.left hml hgo, List.append_nil]
  simp only [searchForOverlapsFrom, h.record_eq, hleft, Option.bind_eq_bind, Option.bind_some]
  rw [← overlapping_node]
  split_ifs with hgo
  · -- the intervals on the right start even later than this one
    have hnil : overlapping r low high = [] :=
      overlapping_eq_nil fun e he => .inr (lt_of_lt_of_le hgo (hsort.bounds.2 e he))
    rw [hnil, List.append_nil]
  · exact ihr _ hmr

end PODIntervalTree

/-! ## Runs -/

open PODIntervalTree PODInterval LinkedTree

/-- The user's calls; an added interval goes to the address that the arena returns. -/
inductive PODIntervalTreeOp (ι T U : Type) where
  | add (x : ι) (interval : PODInterval T U)
  | remove (interval : PODInterval T U)

variable {ι T U : Type} [DecidableEq ι] [LinearOrder T] [DecidableEq U]

def intervalTreeStep (rounds : Nat) (t : LinkedTree ι (PODInterval T U)) :
    PODIntervalTreeOp ι T U → Option (LinkedTree ι (PODInterval T U))
  | .add x interval => PODRedBlackTree.add less maxHighs rounds t x interval
  | .remove interval => (PODRedBlackTree.remove less equal maxHighs rounds t interval).map Prod.fst

/-- The arena does not return the address of a node that is in the tree. -/
def ArenaOk (t : LinkedTree ι (PODInterval T U)) : PODIntervalTreeOp ι T U → Prop
  | .add x _ => ¬InUse t x
  | .remove _ => True

def intervalsStep (s : Multiset (T × T × U)) : PODIntervalTreeOp ι T U → Multiset (T × T × U)
  | .add _ interval => core interval ::ₘ s
  | .remove interval => s.erase (core interval)

/-- The tree is right, and has the intervals of `s`. -/
structure IntervalTreeCorrect (rounds : Nat) (t : LinkedTree ι (PODInterval T U))
    (s : Multiset (T × T × U)) : Prop where
  shape : ∃ S n, t.root = rootId S ∧ RedBlackTree.Linked t.node none S ∧
    (S.inorder.map Prod.fst).Nodup ∧ (S.inorder.Pairwise fun a b => a.2.low ≤ b.2.low) ∧
    Balanced S .black n ∧ MaxHighs S ∧ (S.inorder.map fun e => core e.2 : Multiset (T × T × U)) = s
  contains : ∀ q, PODRedBlackTree.contains less equal rounds t q = some (decide (core q ∈ s))
  remove : ∀ q, (PODRedBlackTree.remove less equal maxHighs rounds t q).map Prod.snd =
    some (decide (core q ∈ s))
  allOverlaps : ∀ q, ∃ result, allOverlaps rounds t q = some result ∧
    (result.map core : Multiset (T × T × U)) =
      s.filter (fun k => q.low ≤ k.2.1 ∧ k.1 ≤ q.high) ∧
    result.Pairwise fun a b => a.low ≤ b.low

open PODRedBlackTree

omit [DecidableEq ι] [LinearOrder T] [DecidableEq U] in
theorem card_dataOf (S : ColorTree (ι × PODInterval T U)) : (dataOf core S).card = S.inorder.length := by
  simp [dataOf, entries]

variable {rounds : Nat} {t : LinkedTree ι (PODInterval T U)} {S : ColorTree (ι × PODInterval T U)}

theorem intervalTreeStep_holds {o : PODIntervalTreeOp ι T U}
    (h : Holds maxHighs core Prod.fst t S) (ho : ArenaOk t o) (hlen : S.inorder.length + 1 < rounds) :
    ∃ t' S', intervalTreeStep rounds t o = some t' ∧ Holds maxHighs core Prod.fst t' S' ∧
      dataOf core S' = intervalsStep (dataOf core S) o := by
  cases o with
  | add x interval =>
    obtain ⟨m, hfoc⟩ := h.focus
    have hx : x ∉ ids S := fun hx => ho (hfoc.inUse hx)
    obtain ⟨t', S', l₁, l₂, hadd, hhol, hent, hent'⟩ := add_spec maxHighs_lawful h hx hlen interval
    refine ⟨t', S', hadd, hhol, ?_⟩
    rw [dataOf, dataOf, hent, hent', List.map_append, List.map_cons, List.map_append]
    exact Multiset.coe_eq_coe.mpr List.perm_middle
  | remove interval =>
    obtain ⟨t', S', hrem, hhol, hdata⟩ :=
      remove_spec equal_iff maxHighs_lawful h (lt_of_le_of_lt (Nat.le_succ _) hlen) interval
    refine ⟨t', S', ?_, hhol, hdata⟩
    rw [intervalTreeStep, less_eq_lessBy, hrem]
    rfl

omit [DecidableEq ι] in
theorem card_intervalsStep_le (s : Multiset (T × T × U)) (o : PODIntervalTreeOp ι T U) :
    (intervalsStep s o).card ≤ s.card + 1 := by
  cases o with
  | add x interval => exact (Multiset.card_cons ..).le
  | remove interval => exact (Multiset.card_le_card (Multiset.erase_le ..)).trans (Nat.le_succ _)

theorem run_holds : ∀ (ops : List (PODIntervalTreeOp ι T U))
    {t : LinkedTree ι (PODInterval T U)} {S : ColorTree (ι × PODInterval T U)},
    Holds maxHighs core Prod.fst t S → EachStep (intervalTreeStep rounds) ArenaOk t ops →
    S.inorder.length + ops.length + 1 < rounds →
    ∃ t' S', run (intervalTreeStep rounds) t ops = some t' ∧ Holds maxHighs core Prod.fst t' S' ∧
      dataOf core S' = ops.foldl intervalsStep (dataOf core S) ∧ S'.inorder.length < rounds := by
  intro ops
  induction ops with
  | nil =>
    intro t S h _ hlen
    rw [List.length_nil] at hlen
    exact ⟨t, S, rfl, h, rfl, by omega⟩
  | cons o ops ih =>
    intro t S h hok hlen
    rw [List.length_cons] at hlen
    have hroom : S.inorder.length + 1 < rounds := by omega
    obtain ⟨t₁, S₁, hstep, h₁, hdata⟩ := intervalTreeStep_holds h hok.1 hroom
    have hcard : S₁.inorder.length ≤ S.inorder.length + 1 := by
      rw [← card_dataOf, ← card_dataOf, hdata]
      exact card_intervalsStep_le _ o
    obtain ⟨t', S', hrun, h', hdata', hlen'⟩ := ih h₁ (hok.2 t₁ hstep) (by omega)
    refine ⟨t', S', by rw [run_cons hstep, hrun], h', ?_, hlen'⟩
    rw [hdata', hdata, List.foldl_cons]

theorem intervalTreeCorrect_of_holds (h : Holds maxHighs core Prod.fst t S)
    (hlen : S.inorder.length < rounds) : IntervalTreeCorrect rounds t (dataOf core S) := by
  obtain ⟨m, hfoc⟩ := h.focus
  obtain ⟨n, hbal⟩ := h.balanced
  have hroot : t.root = rootId S := hfoc.root
  have hmax := maxHighs_of_upToDate h.upToDate
  have hsort : S.inorder.Pairwise fun a b => a.2.low ≤ b.2.low := by
    simpa only [SortedBy, entries, List.pairwise_map, core] using h.sorted
  refine ⟨⟨S, n, hroot, ?_, hfoc.nodup, hsort, hbal, hmax, ?_⟩, fun q => ?_, fun q => ?_, fun q => ?_⟩
  · refine RedBlackTree.linked_of_cells fun e he => hfoc.cells.holds e ?_
    exact Multiset.mem_add.mpr (.inl he)
  · simp only [dataOf, entries, List.map_map]
    rfl
  · exact contains_spec equal_iff h hlen q
  · obtain ⟨t', S', hrem, -, -⟩ := remove_spec equal_iff maxHighs_lawful h hlen q
    rw [less_eq_lessBy, hrem]
    rfl
  · refine ⟨overlapping S q.low q.high, ?_, ?_, ?_⟩
    · rw [PODIntervalTree.allOverlaps, hroot,
        searchForOverlapsFrom_spec hfoc h.sorted hlen [] hmax, List.nil_append]
    · have hove : (fun v : PODInterval T U => v.overlaps q.low q.high) =
          (fun k : T × T × U => decide (q.low ≤ k.2.1 ∧ k.1 ≤ q.high)) ∘ core := by
        funext v
        exact Bool.eq_iff_iff.mpr ((overlaps_iff ..).trans decide_eq_true_iff.symm)
      rw [overlapping, hove, ← List.filter_map, List.map_map, dataOf, Multiset.filter_coe]
      simp only [entries, List.map_map]
      rfl
    · refine List.Pairwise.filter _ ?_
      rwa [List.pairwise_map]

omit [DecidableEq ι] [DecidableEq U] in
theorem holds_empty (mem : ι → LinkedNode ι (PODInterval T U)) : Holds maxHighs core Prod.fst ⟨none, mem⟩ nil :=
  ⟨⟨mem, rfl, Cells.empty mem⟩, List.Pairwise.nil, ⟨0, .nil⟩, trivial⟩

/-- **Every run of additions and removals leaves a correct interval tree** of exactly the intervals that
    were added and not removed, each as often as it is stored, wherever the arena puts the nodes. -/
theorem podIntervalTree_run (mem : ι → LinkedNode ι (PODInterval T U))
    (ops : List (PODIntervalTreeOp ι T U)) (rounds : Nat) (hrounds : ops.length + 1 < rounds)
    (harena : EachStep (intervalTreeStep rounds) ArenaOk ⟨none, mem⟩ ops) :
    ∃ t, run (intervalTreeStep rounds) ⟨none, mem⟩ ops = some t ∧
      IntervalTreeCorrect rounds t (ops.foldl intervalsStep 0) := by
  have hlen : (nil : ColorTree (ι × PODInterval T U)).inorder.length + ops.length + 1 < rounds := by
    rwa [inorder_nil, List.length_nil, Nat.zero_add]
  obtain ⟨t, S, hrun, hholds, hdata, hlen⟩ := run_holds ops (holds_empty mem) harena hlen
  have hcorrect := intervalTreeCorrect_of_holds hholds hlen
  rw [hdata] at hcorrect
  exact ⟨t, hrun, hcorrect⟩

/-- Two intervals with one low endpoint, and the removal of an interval equal to the first. -/
theorem podIntervalTree_run_equal_lows :
    ∃ t, run (intervalTreeStep 5) ⟨none, fun _ : Fin 2 => ⟨none, none, none, .red, ⟨0, 0, (), 0⟩⟩⟩
        [.add 0 (ofEndpoints 1 5 ()), .add 1 (ofEndpoints 1 3 ()), .remove (ofEndpoints 1 5 ())] = some t ∧
      IntervalTreeCorrect 5 t {((1 : Nat), 3, ())} := by
  refine podIntervalTree_run _ _ 5 (by decide) ⟨fun hin => ?_, fun t₁ h₁ => ⟨fun hin => ?_, ?_⟩⟩
  · exact LinkedTree.not_inUse rfl _ hin
  · -- the tree is the one node
    have hroot : t₁.root = some 0 := (congrArg LinkedTree.root (Option.some.inj h₁)).symm
    have hleft : (t₁.node 0).left = none := by rw [← Option.some.inj h₁]; rfl
    have hright : (t₁.node 0).right = none := by rw [← Option.some.inj h₁]; rfl
    exact absurd (LinkedTree.InUse.eq_root hin hroot hleft hright) (by decide)
  · exact fun _ _ => ⟨trivial, fun _ _ => trivial⟩

end WebV8
