import WebV8.Lib.Intervals

/-! # PlatformTimeRanges

The times that are buffered, played or seekable, as ranges in order. `add` scans the ranges with the one to be
added, takes those out that overlap or are contiguous, and stops where the result is to go; `invert` adds the
gaps to an empty object, `unionWith` adds range by range, and `intersectWith` inverts the union of the inverses.
The times are those of any linear order with a least and a greatest element.
-/

namespace WebV8

open Lib

variable {T : Type} [LinearOrder T]

/-- We consider all the Ranges to be semi-bounded as follow: [start, end[ -/
abbrev Range (T : Type) := Segment T

variable (r range : Range T)

namespace Range

def isPointInRange (r : Range T) (point : T) : Bool := r.start ≤ point && point < r.stop

def isOverlappingRange : Bool :=
  isPointInRange r range.start || isPointInRange r range.stop || isPointInRange range r.start

def isContiguousWithRange : Bool := range.start = r.stop || range.stop = r.start

def unionWithOverlappingOrContiguousRange : Range T :=
  ⟨min r.start range.start, max r.stop range.stop⟩

def isBeforeRange : Bool := range.start ≥ r.stop

end Range

namespace PlatformTimeRanges

open Range

/-! ## Operations -/

/-- The scan of `add`. The index that a removal decreases is increased again at once, also where it wraps
    around at zero. -/
def scan (ranges : List (Range T)) (addedRange : Range T) (index : Nat) : List (Range T) × Range T × Nat :=
  if h : index < ranges.length then
    if isOverlappingRange addedRange ranges[index] || isContiguousWithRange addedRange ranges[index] then
      scan (ranges.eraseIdx index) (unionWithOverlappingOrContiguousRange addedRange ranges[index]) index
    else if
      if index = 0 then isBeforeRange addedRange ranges[index]
      else isBeforeRange ranges[index - 1] addedRange && isBeforeRange addedRange ranges[index] then
      (ranges, addedRange, index)
    else scan ranges addedRange (index + 1)
  else (ranges, addedRange, index)
termination_by ranges.length - index
decreasing_by
  · rw [List.length_eraseIdx_of_lt h]
    omega
  · omega

def add (ranges : List (Range T)) (start stop : T) : List (Range T) :=
  let (ranges, addedRange, index) := scan ranges ⟨start, stop⟩ 0
  ranges.insertIdx index addedRange

/-- The loop of `copy` and `unionWith`. -/
def addAll (ranges other : List (Range T)) : List (Range T) :=
  other.foldl (fun ranges range => add ranges range.start range.stop) ranges

def copy (other : List (Range T)) : List (Range T) := addAll [] other

def unionWith (ranges other : List (Range T)) : List (Range T) := addAll (copy ranges) other

/-- The loop of `invert` over the gaps between one range and the next. -/
def addGaps : List (Range T) → List (Range T) → List (Range T)
  | inverted, range :: next :: rest => addGaps (add inverted range.stop next.start) (next :: rest)
  | inverted, _ => inverted

section

variable [BoundedOrder T]

def invert (ranges : List (Range T)) : List (Range T) :=
  match ranges with
  | [] => add [] ⊥ ⊤
  | first :: rest =>
    let inverted := if first.start ≠ ⊥ then add [] ⊥ first.start else []
    let inverted := addGaps inverted (first :: rest)
    let stop := ((first :: rest).getLast (List.cons_ne_nil _ _)).stop
    if stop ≠ ⊤ then add inverted stop ⊤ else inverted

def intersectWith (ranges other : List (Range T)) : List (Range T) :=
  invert (unionWith (invert ranges) (invert (copy other)))

end

/-! ## Adding a range -/

variable {ranges other : List (Range T)}

/-- For ranges that do not end before they start, overlapping or contiguous ones are those that touch. -/
theorem merges_iff {r range : Range T} (hr : r.start ≤ r.stop) (hran : range.start ≤ range.stop) :
    (isOverlappingRange r range || isContiguousWithRange r range) = true ↔ r.Touches range := by
  simp only [isOverlappingRange, isContiguousWithRange, isPointInRange, Bool.or_eq_true, Bool.and_eq_true,
    decide_eq_true_eq, Segment.Touches]
  constructor
  · rintro (((⟨h₁, h₂⟩ | ⟨h₁, h₂⟩) | ⟨h₁, h₂⟩) | (h | h))
    · exact ⟨h₂.le, h₁.trans hran⟩
    · exact ⟨hran.trans h₂.le, h₁⟩
    · exact ⟨h₁.trans hr, h₂.le⟩
    · exact ⟨h.le, hr.trans (h ▸ hran)⟩
    · exact ⟨hran.trans (h ▸ hr), h.ge⟩
  · rintro ⟨hst, hstop⟩
    rcases hst.eq_or_lt with heq | hlt
    · exact Or.inr (Or.inl heq)
    rcases hstop.eq_or_lt with heq | hlt'
    · exact Or.inr (Or.inr heq.symm)
    rcases le_total r.start range.start with hle | hle
    · exact Or.inl (Or.inl (Or.inl ⟨hle, hlt⟩))
    · exact Or.inl (Or.inr ⟨hle, hlt'⟩)

theorem insertIdx_length_append {α : Type} (xs ys : List α) (a : α) :
    (xs ++ ys).insertIdx xs.length a = xs ++ a :: ys := by
  induction xs with
  | nil => rfl
  | cons x xs ih => rw [List.cons_append, List.length_cons, List.insertIdx_succ_cons, ih, List.cons_append]

theorem insertIdx_scan (before ranges : List (Range T)) (addedRange : Range T)
    (hadd : addedRange.start ≤ addedRange.stop) (hsep : Separated (before ++ ranges))
    (hbef : ∀ range ∈ before, range.stop < addedRange.start) :
    (fun r : List (Range T) × Range T × Nat => r.1.insertIdx r.2.2 r.2.1)
        (scan (before ++ ranges) addedRange before.length) = before ++ merge addedRange ranges := by
  induction ranges generalizing before addedRange with
  | nil =>
    rw [scan, dif_neg (by simp)]
    simp [merge]
  | cons range rest ih =>
    have hord : range.start ≤ range.stop := hsep.ordered range (by simp)
    have hlt : before.length < (before ++ range :: rest).length := by simp
    have hget : (before ++ range :: rest)[before.length] = range := by simp
    have hpair := List.pairwise_append.mp hsep.pairwise
    rw [scan, dif_pos hlt, hget, merge]
    by_cases htou : addedRange.Touches range
    · have hera : (before ++ range :: rest).eraseIdx before.length = before ++ rest := by
        rw [List.eraseIdx_append_of_length_le le_rfl, Nat.sub_self, List.eraseIdx_zero, List.tail_cons]
      rw [if_pos ((merges_iff hadd hord).mpr htou), if_pos htou, hera]
      refine ih before _ (Segment.hull_ordered hadd) ?_ fun s hs => ?_
      · exact hsep.sublist (List.Sublist.append_left (List.sublist_cons_self _ _) _)
      · exact lt_min (hbef s hs) (hpair.2.2 s hs range List.mem_cons_self)
    · rw [if_neg (fun h => htou ((merges_iff hadd hord).mp h)), if_neg htou]
      by_cases hpast : range.stop < addedRange.start
      · have hnot : isBeforeRange addedRange range = false :=
          decide_eq_false (not_le.mpr (hord.trans_lt (hpast.trans_le hadd)))
        have hgo := ih (before ++ [range]) addedRange hadd (by simpa using hsep) fun s hs => by
          rcases List.mem_append.mp hs with h | h
          · exact hbef s h
          · rwa [List.mem_singleton.mp h]
        rw [if_neg (by simp [hnot]), if_pos hpast]
        simpa using hgo
      · have hahe : addedRange.stop < range.start := (Segment.not_touches.mp htou).resolve_right hpast
        have hbre : (if before.length = 0 then isBeforeRange addedRange range
            else isBeforeRange (before ++ range :: rest)[before.length - 1] addedRange &&
              isBeforeRange addedRange range) = true := by
          have hyes : isBeforeRange addedRange range = true := decide_eq_true hahe.le
          split_ifs with hzero
          · exact hyes
          · have hprev : (before ++ range :: rest)[before.length - 1] ∈ before := by
              rw [List.getElem_append_left (by omega)]
              exact List.getElem_mem _
            rw [hyes, Bool.and_true]
            exact decide_eq_true (hbef _ hprev).le
        rw [if_pos hbre, if_neg hpast]
        exact insertIdx_length_append before _ addedRange

variable (hsep : Separated ranges)
include hsep

variable {start stop : T} {bs : List (Range T)}

/-- **Adding a range** to separated ones merges it into them. -/
theorem add_eq_merge (h : start ≤ stop) :
    add ranges start stop = merge ⟨start, stop⟩ ranges :=
  insertIdx_scan [] ranges ⟨start, stop⟩ h hsep nofun

theorem separated_add (h : start ≤ stop) :
    Separated (add ranges start stop) := by
  rw [add_eq_merge hsep h]
  exact hsep.merge h

theorem points_add (h : start ≤ stop) :
    points (add ranges start stop) = points ranges ∪ Set.Ico start stop := by
  rw [add_eq_merge hsep h, points_merge, Set.union_comm]
  rfl

theorem addAll_spec (hoth : ∀ range ∈ other, range.start ≤ range.stop) :
    Separated (addAll ranges other) ∧ points (addAll ranges other) = points ranges ∪ points other := by
  induction other generalizing ranges with
  | nil =>
    refine ⟨hsep, ?_⟩
    rw [points_nil, Set.union_empty]
    rfl
  | cons range rest ih =>
    obtain ⟨hran, hrest⟩ := List.forall_mem_cons.mp hoth
    obtain ⟨hs, hp⟩ := ih (separated_add hsep hran) hrest
    refine ⟨hs, hp.trans ?_⟩
    rw [points_add hsep hran, points_cons, Set.union_assoc]
    rfl

omit hsep in
theorem copy_spec (hoth : Separated other) : Separated (copy other) ∧ points (copy other) = points other := by
  obtain ⟨hs, hp⟩ := addAll_spec separated_nil hoth.ordered
  exact ⟨hs, by rw [copy, hp, points_nil, Set.empty_union]⟩

theorem unionWith_spec (hoth : Separated other) :
    Separated (unionWith ranges other) ∧ points (unionWith ranges other) = points ranges ∪ points other := by
  obtain ⟨hs, hp⟩ := copy_spec hsep
  obtain ⟨hs', hp'⟩ := addAll_spec hs hoth.ordered
  exact ⟨hs', by rw [unionWith, hp', hp]⟩

/-! ## Assignment -/

/-- `operator=` between two objects. Nothing is taken out before the ranges are added. -/
def assign (ranges other : List (Range T)) : List (Range T) := addAll ranges other

/-- `operator=` of an object to itself: the loop reads the ranges it changes, up to the size they had. -/
def assignSelf (ranges : List (Range T)) : Option (List (Range T)) :=
  (List.range ranges.length).foldlM (fun ranges i => ranges[i]?.map fun r => add ranges r.start r.stop) ranges

theorem covered_addAll (hoth : ∀ r ∈ other, r.start ≤ r.stop) :
    Covered ranges (addAll ranges other) ∧ Covered other (addAll ranges other) := by
  induction other generalizing ranges with
  | nil => exact ⟨.refl _, nofun⟩
  | cons s other ih =>
    obtain ⟨hs, hrest⟩ := List.forall_mem_cons.mp hoth
    have hmer := covered_merge s ranges
    rw [show merge s ranges = _ from (add_eq_merge hsep hs).symm] at hmer
    obtain ⟨hall, hrest⟩ := ih (separated_add hsep hs) hrest
    have hcov := covered_cons.mp (hmer.trans hall)
    exact ⟨hcov.2, covered_cons.mpr ⟨hcov.1, hrest⟩⟩

theorem addAll_covered (hbs : Separated bs) (h : Covered ranges bs)
    (hoth : other ⊆ bs) : Covered (addAll ranges other) bs := by
  induction other generalizing ranges with
  | nil => exact h
  | cons s other ih =>
    obtain ⟨hs, hrest⟩ := List.cons_subset.mp hoth
    refine ih (separated_add hsep (hbs.ordered s hs)) ?_ hrest
    rw [show (fun _ _ => _) _ _ = _ from add_eq_merge hsep (hbs.ordered s hs)]
    exact Covered.merge hbs (covered_cons.mpr ⟨Covered.refl bs s hs, h⟩)

theorem addAll_eq (hbs : Separated bs) (h : Covered ranges bs)
    (hoth : other ⊆ bs) (hbs' : Covered bs (addAll ranges other)) : addAll ranges other = bs :=
  Covered.antisymm (addAll_spec hsep fun s hs => hbs.ordered s (hoth hs)).1 hbs (addAll_covered hsep hbs h hoth) hbs'

theorem assignSelf_eq : assignSelf ranges = some ranges := by
  have hloop : ∀ is : List Nat, (∀ i ∈ is, i < ranges.length) →
      is.foldlM (fun ranges i => ranges[i]?.map fun r => add ranges r.start r.stop) ranges = some ranges := by
    intro is his
    induction is with
    | nil => rfl
    | cons i is ih =>
      obtain ⟨hi, hrest⟩ := List.forall_mem_cons.mp his
      have hmem := List.getElem_mem hi
      have hadd : addAll ranges [ranges[i]] = ranges := addAll_eq hsep hsep (.refl _) (by simp)
        (covered_addAll hsep (by simpa using hsep.ordered _ hmem)).1
      rw [List.foldlM_cons, List.getElem?_eq_getElem hi, Option.map_some,
        show add ranges ranges[i].start ranges[i].stop = ranges from hadd]
      exact ih hrest
  exact hloop _ fun i hi => List.mem_range.mp hi

/-! ## Inversion -/

theorem add_unless_spec (h : start ≤ stop) {p : Prop} [Decidable p]
    (hskip : p → start = stop) : Separated (if ¬p then add ranges start stop else ranges) ∧
      points (if ¬p then add ranges start stop else ranges) = points ranges ∪ Set.Ico start stop := by
  by_cases hs : p
  · rw [if_neg (not_not.mpr hs), hskip hs, Set.Ico_self, Set.union_empty]
    exact ⟨hsep, rfl⟩
  · rw [if_pos hs]
    exact ⟨separated_add hsep h, points_add hsep h⟩

omit hsep

section

variable [BoundedOrder T]

/-- The gaps, with what comes behind the last range, are what is left out from the first range on. -/
theorem addGaps_spec {inverted rest : List (Range T)} {range : Range T} (hinv : Separated inverted)
    (hsep : Separated (range :: rest)) : Separated (addGaps inverted (range :: rest)) ∧
      points (addGaps inverted (range :: rest)) ∪ Set.Ico ((range :: rest).getLast (List.cons_ne_nil _ _)).stop ⊤ =
        points inverted ∪ Set.Ico range.stop ⊤ \ points rest := by
  induction rest generalizing inverted range with
  | nil =>
    refine ⟨hinv, ?_⟩
    rw [points_nil, Set.sdiff_empty]
    rfl
  | cons next rest ih =>
    obtain ⟨hran, hlt, hrest⟩ := separated_cons.mp hsep
    have hgap : range.stop ≤ next.start := (hlt next List.mem_cons_self).le
    obtain ⟨hs, hp⟩ := ih (separated_add hinv hgap) hrest
    refine ⟨hs, ?_⟩
    rw [compl_points_cons hrest hgap, ← Set.union_assoc, ← points_add hinv hgap, ← hp,
      List.getLast_cons (List.cons_ne_nil _ _)]
    rfl

/-- **Inversion** gives the complement, below the greatest element, which is in no half-open range. -/
theorem invert_spec (hsep : Separated ranges) :
    Separated (invert ranges) ∧ points (invert ranges) = Set.Iio ⊤ \ points ranges := by
  have hall : Set.Iio (⊤ : T) = Set.Ico ⊥ ⊤ := by
    ext x
    simp
  cases ranges with
  | nil =>
    refine ⟨separated_add separated_nil le_top, ?_⟩
    rw [invert, points_add separated_nil le_top, points_nil, Set.empty_union, Set.sdiff_empty, hall]
  | cons first rest =>
    obtain ⟨hs, hp⟩ := add_unless_spec (p := first.start = ⊥) (separated_nil (T := T)) bot_le Eq.symm
    obtain ⟨hs', hp'⟩ := addGaps_spec hs hsep
    obtain ⟨hs'', hp''⟩ := add_unless_spec
      (p := ((first :: rest).getLast (List.cons_ne_nil _ _)).stop = ⊤) hs' le_top id
    refine ⟨hs'', hp''.trans ?_⟩
    rw [hp', hp, points_nil, Set.empty_union, hall, compl_points_cons hsep bot_le]

theorem intersectWith_spec (hsep : Separated ranges) (hoth : Separated other) :
    Separated (intersectWith ranges other) ∧
      points (intersectWith ranges other) = points ranges ∩ points other := by
  obtain ⟨hc, hcp⟩ := copy_spec hoth
  obtain ⟨hi, hip⟩ := invert_spec hsep
  obtain ⟨ho, hop⟩ := invert_spec hc
  obtain ⟨hu, hup⟩ := unionWith_spec hi ho
  obtain ⟨hs, hp⟩ := invert_spec hu
  refine ⟨hs, ?_⟩
  rw [intersectWith, hp, hup, hip, hop, hcp]
  ext x
  have hblw : x ∈ points ranges → x < ⊤ := by
    rintro ⟨range, -, hx⟩
    exact hx.2.trans_le le_top
  simp only [Set.mem_sdiff, Set.mem_Iio, Set.mem_union, Set.mem_inter_iff]
  tauto

end

/-! ## Runs over several objects -/

variable {ι : Type} [DecidableEq ι] {objects : ι → List (Range T)} {sets : ι → Set T}

inductive Operation (ι T : Type) where
  | add (object : ι) (start stop : T)
  | unionWith (object other : ι)
  | intersectWith (object other : ι)
  | invert (object : ι)

/-- The assertion of `add`. -/
def Operation.Ordered : Operation ι T → Prop
  | .add _ start stop => start ≤ stop
  | _ => True

def Represents (objects : ι → List (Range T)) (sets : ι → Set T) : Prop :=
  ∀ i, Separated (objects i) ∧ points (objects i) = sets i

theorem Represents.update (h : Represents objects sets) (i : ι)
    {ranges : List (Range T)} {set : Set T} (hi : Separated ranges ∧ points ranges = set) :
    Represents (Function.update objects i ranges) (Function.update sets i set) := by
  intro j
  rw [Function.update_apply, Function.update_apply]
  split_ifs
  · exact hi
  · exact h j

variable [BoundedOrder T]

def perform (objects : ι → List (Range T)) : Operation ι T → ι → List (Range T)
  | .add object start stop => Function.update objects object (add (objects object) start stop)
  | .unionWith object other => Function.update objects object (unionWith (objects object) (objects other))
  | .intersectWith object other =>
    Function.update objects object (intersectWith (objects object) (objects other))
  | .invert object => Function.update objects object (invert (objects object))

def performSets (sets : ι → Set T) : Operation ι T → ι → Set T
  | .add object start stop => Function.update sets object (sets object ∪ Set.Ico start stop)
  | .unionWith object other => Function.update sets object (sets object ∪ sets other)
  | .intersectWith object other => Function.update sets object (sets object ∩ sets other)
  | .invert object => Function.update sets object (Set.Iio ⊤ \ sets object)

theorem Represents.perform (h : Represents objects sets)
    {op : Operation ι T} (hop : op.Ordered) : Represents (perform objects op) (performSets sets op) := by
  cases op with
  | add i start stop =>
    refine h.update i ⟨separated_add (h i).1 hop, ?_⟩
    rw [points_add (h i).1 hop, (h i).2]
  | unionWith i j =>
    obtain ⟨hs, hp⟩ := unionWith_spec (h i).1 (h j).1
    exact h.update i ⟨hs, by rw [hp, (h i).2, (h j).2]⟩
  | intersectWith i j =>
    obtain ⟨hs, hp⟩ := intersectWith_spec (h i).1 (h j).1
    exact h.update i ⟨hs, by rw [hp, (h i).2, (h j).2]⟩
  | invert i =>
    obtain ⟨hs, hp⟩ := invert_spec (h i).1
    exact h.update i ⟨hs, by rw [hp, (h i).2]⟩

theorem Represents.foldl (h : Represents objects sets)
    (ops : List (Operation ι T)) (hops : ∀ op ∈ ops, op.Ordered) :
    Represents (ops.foldl PlatformTimeRanges.perform objects) (ops.foldl performSets sets) := by
  induction ops generalizing objects sets with
  | nil => exact h
  | cons op ops ih =>
    obtain ⟨hop, hrest⟩ := List.forall_mem_cons.mp hops
    exact ih (h.perform hop) hrest

/-- **Time ranges are a set algebra**: after any operations on any objects, each object has its ranges in order
    and separated, and its points are those that union, intersection and complement give. Adding a range then
    joins it with all those it touches, and leaves the others. -/
theorem set_algebra (ops : List (Operation ι T)) (hops : ∀ op ∈ ops, op.Ordered) (i : ι) :
    let ranges := ops.foldl perform (fun _ => []) i
    (Separated ranges ∧ points ranges = ops.foldl performSets (fun _ => ∅) i) ∧ ∀ start stop : T, start ≤ stop →
        add ranges start stop = ranges.filter (fun range => range.stop < start) ++
            (ranges.filter fun range => range.start ≤ stop ∧ start ≤ range.stop).foldl
              unionWithOverlappingOrContiguousRange ⟨start, stop⟩ ::
            ranges.filter (fun range => stop < range.start) := by
  have hinit : Represents (fun _ : ι => ([] : List (Range T))) fun _ => ∅ := fun _ => ⟨separated_nil, points_nil⟩
  have hrun := hinit.foldl ops hops i
  refine ⟨hrun, fun start stop h => ?_⟩
  rw [add_eq_merge hrun.1 h, merge_eq hrun.1 h]
  rfl

/-- A range that closes the gap between two others. -/
theorem set_algebra_fill :
    Separated ([Operation.add () 0 1, .add () 3 4, .add () 1 3].foldl perform (fun _ => []) () :
      List (Range (Fin 6))) :=
  (set_algebra _ (by simp [Operation.Ordered]) ()).1.1

/-! ## Objects that are assigned -/

/-- What an object can hold. -/
inductive Reachable : List (Range T) → Prop where
  | empty : Reachable []
  | add {a} {start stop : T} : Reachable a → start ≤ stop → Reachable (add a start stop)
  | unionWith {a b} : Reachable a → Reachable b → Reachable (unionWith a b)
  | intersectWith {a b} : Reachable a → Reachable b → Reachable (intersectWith a b)
  | invert {a} : Reachable a → Reachable (invert a)
  | assign {a b} : Reachable a → Reachable b → Reachable (assign a b)

theorem Reachable.separated (h : Reachable ranges) : Separated ranges := by
  induction h with
  | empty => exact separated_nil
  | add _ hle ih => exact separated_add ih hle
  | unionWith _ _ ih ih' => exact (unionWith_spec ih ih').1
  | intersectWith _ _ ih ih' => exact (intersectWith_spec ih ih').1
  | invert _ ih => exact (invert_spec ih).1
  | assign _ _ ih ih' => exact (addAll_spec ih ih'.ordered).1

/-- **Assignment** gives the ranges of the other object exactly if these cover, one by one, the ranges that were there
    before. An object that is assigned to itself does not change. -/
theorem assign_eq_iff (h : Reachable ranges) (hother : Reachable other) :
    (assign ranges other = other ↔ Covered ranges other) ∧ assignSelf ranges = some ranges := by
  obtain ⟨hcover, hcover'⟩ := covered_addAll h.separated hother.separated.ordered
  refine ⟨⟨fun heq => ?_, fun hwithin => ?_⟩, assignSelf_eq h.separated⟩
  · rwa [show addAll ranges other = other from heq] at hcover
  · exact addAll_eq h.separated hother.separated hwithin (List.Subset.refl _) hcover'

/-- A range that is extended at its end. -/
theorem assign_eq_iff_longer :
    (assign (add [] 0 1) (add [] 0 2) = (add [] 0 2 : List (Range (Fin 6))) ↔
      Covered (add [] 0 1) (add [] 0 2 : List (Range (Fin 6)))) ∧
    assignSelf (add [] 0 1) = some (add [] 0 1 : List (Range (Fin 6))) :=
  assign_eq_iff (.add .empty (by decide)) (.add .empty (by decide))

/-- An object that is assigned an empty one keeps its range. -/
theorem assigned_empty_keeps_range :
    ∃ ranges other : List (Range (Fin 6)), Reachable ranges ∧ Reachable other ∧ assign ranges other ≠ other := by
  refine ⟨add [] 0 1, [], .add .empty (by decide), .empty, ?_⟩
  rw [add_eq_merge separated_nil (by decide)]
  simp [assign, addAll, merge]

end PlatformTimeRanges

end WebV8
