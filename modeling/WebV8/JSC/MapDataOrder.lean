import WebV8.JSC.MapData

/-! # MapData is an ordered map

The entries that are not cleared are an ordered map, and the tables are to say where each key is. Packing
corrects the tables of strings and of immediate values, but not the table of cells: a cell that has a removed
entry before it loses its place. Runs without such a packing keep the map in order.
-/

namespace WebV8.JSC

open Lib List

variable {Str Cell Imm Val : Type}

namespace MapData

/-! ## Iteration -/

theorem iterationFrom_skipCleared (entries : List (Entry Str Cell Imm Val)) (index : Nat) :
    iterationFrom entries (skipCleared entries index) = live (entries.drop index) := by
  induction hn : entries.length - index generalizing index with
  | zero =>
    have hge : entries.length ≤ index := by omega
    rw [skipCleared, dif_neg (by omega), iterationFrom, dif_neg (by omega), drop_eq_nil_of_le hge]
    rfl
  | succ n ih =>
    have hlt : index < entries.length := by omega
    rw [skipCleared, dif_pos hlt, drop_eq_getElem_cons hlt]
    cases hent : entries[index] with
    | none =>
      rw [Option.isNone_none, if_pos rfl, ih (index + 1) (by omega)]
      rfl
    | some p =>
      rw [if_neg (by simp), iterationFrom, dif_pos hlt, hent, ih (index + 1) (by omega)]
      rfl

theorem iteration_eq (m : MapData Str Cell Imm Val) : m.iteration = live m.entries := by
  rw [iteration, iterationFrom_skipCleared]
  rfl

/-! ## Validity -/

/-- The tables say where each key is, and the entries that are not cleared are the map `a`. -/
structure Valid (m : MapData Str Cell Imm Val) (a : List (Key Str Cell Imm × JSValue Val)) : Prop where
  index : ∀ k i, m.index k = some i ↔ HoldsAt m.entries i k
  deleted : m.entries.length = (live m.entries).length + m.deletedCount
  map : live m.entries = a

variable {m : MapData Str Cell Imm Val} {a : List (Key Str Cell Imm × JSValue Val)} {k : Key Str Cell Imm}

theorem Valid.keysDistinct (h : m.Valid a) : KeysDistinct m.entries := by
  intro i j k hi hj
  exact Option.some.inj (((h.index k i).mpr hi).symm.trans ((h.index k j).mpr hj))

theorem Valid.not_holdsAt (h : m.Valid a) (hk : m.index k = none) (i : Nat) : ¬HoldsAt m.entries i k := by
  intro hi
  rw [← h.index, hk] at hi
  cases hi

theorem valid_create : (create : MapData Str Cell Imm Val).Valid [] where
  index := by
    intro k i
    refine iff_of_false ?_ ?_
    · cases k <;> exact nofun
    · rintro ⟨v, hv⟩
      simp [create] at hv
  deleted := rfl
  map := rfl

section

variable [DecidableEq Str] [DecidableEq Cell] [DecidableEq Imm] {v : JSValue Val}

/-- What can be seen of the ordered map `a`, and that every table entry points at the entry of its key. -/
structure Represents (m : MapData Str Cell Imm Val) (a : List (Key Str Cell Imm × JSValue Val)) : Prop where
  own : ∀ k i, m.index k = some i → HoldsAt m.entries i k
  get : ∀ k, m.get k = some (a.lookup k)
  contains : ∀ k, m.contains k = (a.lookup k).isSome
  remove : ∀ k, (m.remove k).map Prod.snd = some (a.lookup k).isSome
  size : m.size = a.length
  iteration : m.iteration = a

/-- An index leads to an entry with the value of the map, and no index means that the key is not there. -/
theorem Valid.lookup_cases (h : m.Valid a) (k : Key Str Cell Imm) : (m.index k = none ∧ a.lookup k = none) ∨
      ∃ i v, m.index k = some i ∧ m.entries[i]? = some (some (k, v)) ∧ a.lookup k = some v := by
  cases hk : m.index k with
  | none =>
    refine .inl ⟨rfl, ?_⟩
    rw [← h.map]
    exact lookup_eq_none (not_holdsAt_iff.mp (h.not_holdsAt hk))
  | some i =>
    obtain ⟨v, hv⟩ := (h.index k i).mp hk
    refine .inr ⟨i, v, rfl, hv, ?_⟩
    rw [← h.map]
    exact lookup_live h.keysDistinct hv

theorem Valid.represents (h : m.Valid a) : m.Represents a where
  own := fun k i => (h.index k i).mp
  get := by
    intro k
    rcases h.lookup_cases k with ⟨hk, hl⟩ | ⟨i, v, hk, hv, hl⟩
    · rw [MapData.get, find, hk, hl]
      rfl
    · simp only [MapData.get, find, hk, hv, hl]
      rfl
  contains := by
    intro k
    rcases h.lookup_cases k with ⟨hk, hl⟩ | ⟨i, v, hk, hv, hl⟩
    · rw [MapData.contains, hk, hl]
      rfl
    · rw [MapData.contains, hk, hl]
      rfl
  remove := by
    intro k
    rcases h.lookup_cases k with ⟨hk, hl⟩ | ⟨i, v, hk, hv, hl⟩
    · rw [MapData.remove, hk, hl]
      rfl
    · simp only [MapData.remove, hk, hv, hl]
      rfl
  size := by
    rw [MapData.size, storedSize, h.deleted, Nat.add_sub_cancel, h.map]
  iteration := by rw [iteration_eq, h.map]

/-! ## Tables -/

@[simp] theorem index_setIndex (m : MapData Str Cell Imm Val) (k k' : Key Str Cell Imm) (i : Option Nat) :
    (m.setIndex k i).index k' = if k' = k then i else m.index k' := by
  cases k <;> cases k' <;> simp [setIndex, index, Function.update_apply]

@[simp] theorem deletedCount_setIndex (m : MapData Str Cell Imm Val) (k : Key Str Cell Imm) (i : Option Nat) :
    (m.setIndex k i).deletedCount = m.deletedCount := by
  cases k <;> rfl

/-! ## Operations that do not grow the store -/

theorem Valid.overwrite (h : m.Valid a) {i : Nat} (hv : m.entries[i]? = some (some (k, v)))
    (v' : JSValue Val) :
    Valid { m with entries := m.entries.set i (some (k, v')) } (OrderedMap.insert a k v') where
  index := by
    intro k' j
    change m.index k' = some j ↔ _
    rw [h.index]
    obtain ⟨hi, -⟩ := List.getElem?_eq_some_iff.mp hv
    rcases eq_or_ne i j with rfl | hne
    · simp [HoldsAt, List.getElem?_set_self hi, hv]
    · simp [HoldsAt, List.getElem?_set_ne hne]
  deleted := by
    have hd := h.deleted
    rw [live_set_some h.keysDistinct hv, OrderedMap.insert,
      if_pos (by rw [lookup_live h.keysDistinct hv]; rfl), length_map, length_set]
    exact hd
  map := by rw [live_set_some h.keysDistinct hv, h.map]

theorem Valid.removed (h : m.Valid a) {i : Nat} (hv : m.entries[i]? = some (some (k, v))) :
    Valid { m.setIndex k none with entries := m.entries.set i none, deletedCount := m.deletedCount + 1 }
      (OrderedMap.erase a k) where
  index := by
    intro k' j
    change (m.setIndex k none).index k' = some j ↔ _
    obtain ⟨hi, -⟩ := List.getElem?_eq_some_iff.mp hv
    rw [index_setIndex]
    rcases eq_or_ne i j with rfl | hne
    · refine iff_of_false ?_ (by simp [HoldsAt, List.getElem?_set_self hi])
      split
      next => exact nofun
      next hk =>
        rw [h.index]
        rintro ⟨v', hv'⟩
        rw [hv] at hv'
        exact hk (by cases hv'; rfl)
    · have hsame : HoldsAt (m.entries.set i none) j k' ↔ HoldsAt m.entries j k' := by
        simp [HoldsAt, List.getElem?_set_ne hne]
      rw [hsame]
      split
      next hk =>
        subst hk
        refine iff_of_false nofun fun hj => hne ?_
        exact h.keysDistinct i j k' ⟨v, hv⟩ hj
      next => exact h.index k' j
  deleted := by
    have hd := h.deleted
    have hlen := length_live_set_none hv
    simp
    omega
  map := by rw [live_set_none h.keysDistinct hv, h.map]

omit [DecidableEq Str] [DecidableEq Cell] [DecidableEq Imm] in
theorem Valid.cleared (m : MapData Str Cell Imm Val) : m.clear.Valid [] where
  index := by
    intro k i
    refine iff_of_false ?_ ?_
    · cases k <;> exact nofun
    · rintro ⟨v, hv⟩
      simp [clear] at hv
  deleted := rfl
  map := rfl

theorem Valid.appended (h : m.Valid a) (hk : m.index k = none) (v : JSValue Val) :
    Valid { m.setIndex k (some m.storedSize) with entries := m.entries ++ [some (k, v)] }
      (OrderedMap.insert a k v) where
  index := by
    intro k' j
    change (m.setIndex k (some m.storedSize)).index k' = some j ↔ _
    rw [index_setIndex, HoldsAt]
    rcases lt_trichotomy j m.entries.length with hj | hj | hj
    · rw [List.getElem?_append_left hj]
      split
      next heq =>
        subst heq
        refine iff_of_false (fun heq => ?_) (h.not_holdsAt hk j)
        have := Option.some.inj heq
        rw [storedSize] at this
        omega
      next => exact h.index k' j
    · rw [hj, List.getElem?_concat_length]
      split
      next heq => exact iff_of_true rfl ⟨v, by rw [heq]⟩
      next hne =>
        refine iff_of_false (fun heq => ?_) ?_
        · obtain ⟨v', hv'⟩ := (h.index k' _).mp heq
          rw [List.getElem?_eq_none le_rfl] at hv'
          cases hv'
        · rintro ⟨v', hv'⟩
          exact hne (by cases hv'; rfl)
    · refine iff_of_false (fun heq => ?_) ?_
      · split at heq
        next =>
          have := Option.some.inj heq
          rw [storedSize] at this
          omega
        next =>
          obtain ⟨v', hv'⟩ := (h.index k' _).mp heq
          rw [List.getElem?_eq_none (by omega)] at hv'
          cases hv'
      · rintro ⟨v', hv'⟩
        rw [List.getElem?_eq_none (by simp; omega)] at hv'
        cases hv'
  deleted := by
    have hd := h.deleted
    rw [live_concat (h.not_holdsAt hk), OrderedMap.insert,
      if_neg (by rw [lookup_eq_none (not_holdsAt_iff.mp (h.not_holdsAt hk))]; simp)]
    simp [deletedCount_setIndex]
    omega
  map := by rw [live_concat (h.not_holdsAt hk), h.map]

end

/-! ## Packing -/

theorem packLoop_fst (es : List (Entry Str Cell Imm Val)) (newEnd : Nat) :
    (packLoop es newEnd).1 = (live es).map some := by
  fun_induction packLoop es newEnd with
  | case1 => rfl
  | case2 newEnd es destination old hrest ih =>
    rw [hrest] at ih
    exact ih
  | case3 newEnd k v es destination old hrest ih =>
    rw [hrest] at ih
    simpa using ih

theorem forwardingIndex_packLoop {es : List (Entry Str Cell Imm Val)} {newEnd i : Nat} {k : Key Str Cell Imm}
    (h : HoldsAt es i k) : forwardingIndex (packLoop es newEnd).2 i = newEnd + rank es i := by
  obtain ⟨v, hv⟩ := h
  fun_induction packLoop es newEnd generalizing i with
  | case1 => simp at hv
  | case2 newEnd es destination old hrest ih =>
    rw [hrest] at ih
    cases i with
    | zero => simp at hv
    | succ i =>
      rw [List.getElem?_cons_succ] at hv
      have := ih hv
      simpa [forwardingIndex, rank] using this
  | case3 newEnd k' v' es destination old hrest ih =>
    rw [hrest] at ih
    cases i with
    | zero => simp [forwardingIndex, rank, JSValue.asInt32]
    | succ i =>
      rw [List.getElem?_cons_succ] at hv
      have := ih hv
      simp [forwardingIndex, rank, live] at this ⊢
      omega

theorem entries_pack (m : MapData Str Cell Imm Val) (newCapacity : Nat) :
    (m.replaceAndPackBackingStore newCapacity).entries = (live m.entries).map some :=
  packLoop_fst m.entries 0

/-- No cell among the keys has a removed entry before it. -/
def CellsInPlace (m : MapData Str Cell Imm Val) : Prop :=
  ∀ i c, HoldsAt m.entries i (.cell c) → none ∉ m.entries.take i

/-- The tables after packing: strings and immediate values are found in their new places, and cells are looked for
    where they were. -/
theorem Valid.index_pack (h : m.Valid a) (newCapacity i : Nat) :
    (m.replaceAndPackBackingStore newCapacity).index k = some i ↔
      match k with
      | .cell _ => HoldsAt m.entries i k
      | _ => HoldsAt ((live m.entries).map some) i k := by
  have hfor (hcell : ∀ j, m.index k = some j → forwardingIndex (packLoop m.entries 0).2 j = rank m.entries j) :
      (m.index k).map (forwardingIndex (packLoop m.entries 0).2) = some i ↔
        HoldsAt ((live m.entries).map some) i k := by
    rw [holdsAt_map_some_live, Option.map_eq_some_iff]
    constructor
    · rintro ⟨j, hj, hi⟩
      exact ⟨j, (h.index k j).mp hj, by rw [← hcell j hj, hi]⟩
    · rintro ⟨j, hj, hi⟩
      have hj := (h.index k j).mpr hj
      exact ⟨j, hj, by rw [hcell j hj, hi]⟩
  have hrank : ∀ j, m.index k = some j → forwardingIndex (packLoop m.entries 0).2 j = rank m.entries j := by
    intro j hj
    rw [forwardingIndex_packLoop ((h.index k j).mp hj), Nat.zero_add]
  cases k with
  | string s => exact hfor hrank
  | cell c => exact h.index (.cell c) i
  | value x => exact hfor hrank

theorem Valid.packed (h : m.Valid a) (hcel : m.CellsInPlace) (newCapacity : Nat) :
    (m.replaceAndPackBackingStore newCapacity).Valid a where
  index := by
    intro k i
    rw [h.index_pack, entries_pack]
    cases k with
    | string s | value x => exact Iff.rfl
    | cell c =>
      simp only [holdsAt_map_some_live]
      have hrank {j : Nat} (hj : HoldsAt m.entries j (.cell c)) : rank m.entries j = j :=
        (rank_eq_iff hj.lt_length.le).mpr (hcel j c hj)
      constructor
      · exact fun hi => ⟨i, hi, hrank hi⟩
      · rintro ⟨j, hj, rfl⟩
        rwa [hrank hj]
  deleted := by
    rw [entries_pack, live_map_some, length_map]
    rfl
  map := by rw [entries_pack, live_map_some, h.map]

/-! ## Runs -/

inductive Call (Str Cell Imm Val : Type) where
  /-- `set`; the flag says whether storage can be allocated if it is needed. -/
  | set (allocates : Bool) (k : Key Str Cell Imm) (v : JSValue Val)
  | get (k : Key Str Cell Imm)
  | contains (k : Key Str Cell Imm)
  | remove (k : Key Str Cell Imm)
  | clear

variable [DecidableEq Str] [DecidableEq Cell] [DecidableEq Imm]

/-- The map after a call, and whether an exception was thrown. -/
def step (m : MapData Str Cell Imm Val) : Call Str Cell Imm Val → Option (MapData Str Cell Imm Val × Bool)
  | .set allocates k v => m.set allocates k v
  | .get k => (m.get k).map fun _ => (m, false)
  | .contains _ => some (m, false)
  | .remove k => (m.remove k).map fun r => (r.1, false)
  | .clear => some (m.clear, false)

def orderedStep (a : List (Key Str Cell Imm × JSValue Val)) :
    Call Str Cell Imm Val → List (Key Str Cell Imm × JSValue Val)
  | .set _ k v => OrderedMap.insert a k v
  | .remove k => OrderedMap.erase a k
  | .clear => []
  | _ => a

/-- The map and the ordered map, side by side. A call that throws is no call for the ordered map. -/
def sideBySide (s : MapData Str Cell Imm Val × List (Key Str Cell Imm × JSValue Val)) (c : Call Str Cell Imm Val) :
    Option (MapData Str Cell Imm Val × List (Key Str Cell Imm × JSValue Val)) :=
  (s.1.step c).map fun r => (r.1, if r.2 then s.2 else orderedStep s.2 c)

/-- The call does not pack the store, or packs it when the cells are in place. -/
def PacksInPlace (m : MapData Str Cell Imm Val) : Call Str Cell Imm Val → Prop
  | .set allocates k _ =>
    m.index k = none → m.capacity ≤ m.storedSize → allocates = true → m.shouldPack = true → m.CellsInPlace
  | _ => True

theorem Valid.not_own_of_moved (h : m.Valid a) (hk : m.index k = none) (hcel : ¬m.CellsInPlace) (v : JSValue Val)
    (newCapacity : Nat) {m' : MapData Str Cell Imm Val} (hm' : m' = m.replaceAndPackBackingStore newCapacity) :
    ¬∀ k' i, (m'.setIndex k (some m'.storedSize)).index k' = some i →
      HoldsAt (m'.entries ++ [some (k, v)]) i k' := by
  intro hown
  obtain ⟨i, hi⟩ := Classical.not_forall.mp hcel
  obtain ⟨c, hc⟩ := Classical.not_forall.mp hi
  obtain ⟨hheld, hmem⟩ := Classical.not_imp.mp hc
  have hne : Key.cell c ≠ k := by
    rintro rfl
    exact h.not_holdsAt hk i hheld
  have hidx : (m'.setIndex k (some m'.storedSize)).index (.cell c) = some i := by
    rw [index_setIndex, if_neg hne, hm']
    exact (h.index (.cell c) i).mpr hheld
  obtain ⟨v', hv'⟩ := hown _ _ hidx
  rcases lt_trichotomy i m'.entries.length with hlt | heq | hgt
  · rw [List.getElem?_append_left hlt, hm', entries_pack] at hv'
    obtain ⟨j, hj, hrank⟩ := holdsAt_map_some_live.mp ⟨v', hv'⟩
    cases h.keysDistinct i j _ hheld hj
    exact hmem fun hnone => (rank_eq_iff hheld.lt_length.le).mp hrank hnone
  · rw [heq, List.getElem?_concat_length] at hv'
    cases hv'
    exact hne rfl
  · rw [List.getElem?_eq_none (by simp; omega)] at hv'
    cases hv'

/-- One call: it succeeds, and afterwards the ordered map is represented exactly if the call packs in place. -/
theorem Valid.step (h : m.Valid a) (c : Call Str Cell Imm Val) :
    ∃ s', sideBySide (m, a) c = some s' ∧ (m.PacksInPlace c → s'.1.Valid s'.2) ∧
      (s'.1.Represents s'.2 → m.PacksInPlace c) := by
  cases c with
  | set allocates k v =>
    rcases h.lookup_cases k with ⟨hk, -⟩ | ⟨i, old, hk, hv, -⟩
    · by_cases hspa : m.storedSize < m.capacity
      · have hens : m.ensureSpaceForAppend allocates = some m := if_pos hspa
        refine ⟨_, by simp only [sideBySide, MapData.step, MapData.set, hk, hens]; rfl, fun _ => h.appended hk v,
          fun _ _ hfull => absurd hspa (by omega)⟩
      · cases allocates with
        | false =>
          have hens : m.ensureSpaceForAppend false = none := by
            simp [ensureSpaceForAppend, hspa]
          refine ⟨_, by simp only [sideBySide, MapData.step, MapData.set, hk, hens]; rfl, fun _ => h, fun _ _ _ => nofun⟩
        | true =>
          by_cases hpack : m.shouldPack = true
          · have hens : m.ensureSpaceForAppend true = some (m.replaceAndPackBackingStore
                (max (m.capacity + m.capacity / 2 + 1) minimumMapSize)) := by
              simp [ensureSpaceForAppend, hspa, hpack]
            refine ⟨_, by simp only [sideBySide, MapData.step, MapData.set, hk, hens]; rfl, fun hpla => ?_, ?_⟩
            · have hcel := hpla hk (by omega) rfl hpack
              have hval := h.packed hcel (max (m.capacity + m.capacity / 2 + 1) minimumMapSize)
              refine hval.appended ?_ v
              cases hnone : (m.replaceAndPackBackingStore _).index k with
              | none => rfl
              | some i =>
                obtain ⟨p, hp⟩ := (hval.index k i).mp hnone
                rw [entries_pack] at hp
                obtain ⟨j, hj, -⟩ := holdsAt_map_some_live.mp ⟨p, hp⟩
                exact absurd hj (h.not_holdsAt hk j)
            · intro hrep _ _ _ _
              by_contra hcel
              exact h.not_own_of_moved hk hcel v _ rfl hrep.own
          · have hens : m.ensureSpaceForAppend true = some (m.replaceBackingStore
                (max (m.capacity + m.capacity / 2 + 1) minimumMapSize)) := by
              simp [ensureSpaceForAppend, hspa, hpack]
            have hval : (m.replaceBackingStore
                (max (m.capacity + m.capacity / 2 + 1) minimumMapSize)).Valid a := ⟨h.index, h.deleted, h.map⟩
            refine ⟨_, by simp only [sideBySide, MapData.step, MapData.set, hk, hens]; rfl,
              fun _ => hval.appended hk v, fun _ _ _ _ hp => absurd hp hpack⟩
    · refine ⟨_, by simp only [sideBySide, MapData.step, MapData.set, hk, hv]; rfl, fun _ => h.overwrite hv v, ?_⟩
      intro _ hnone
      rw [hk] at hnone
      cases hnone
  | get k =>
    exact ⟨(m, a), by simp only [sideBySide, MapData.step, h.represents.get k]; rfl, fun _ => h, fun _ => trivial⟩
  | contains k => exact ⟨(m, a), rfl, fun _ => h, fun _ => trivial⟩
  | remove k =>
    rcases h.lookup_cases k with ⟨hk, hl⟩ | ⟨i, v, hk, hv, -⟩
    · refine ⟨(m, a), ?_, fun _ => h, fun _ => trivial⟩
      have hera : OrderedMap.erase a k = a := by
        rw [OrderedMap.erase, filter_eq_self]
        intro p hp
        rw [← h.map] at hp
        simpa using not_holdsAt_iff.mp (h.not_holdsAt hk) p hp
      simp only [sideBySide, MapData.step, MapData.remove, hk, orderedStep]
      simp [hera]
    · exact ⟨_, by simp only [sideBySide, MapData.step, MapData.remove, hk, hv]; rfl, fun _ => h.removed hv,
        fun _ => trivial⟩
  | clear => exact ⟨_, rfl, fun _ => Valid.cleared m, fun _ => trivial⟩

/-- **MapData is an ordered map**: in a run from an empty map, the ordered map is represented throughout exactly
    if no call of the run packs the store when a cell has a removed entry before it. -/
theorem ordered_map_iff (calls : List (Call Str Cell Imm Val)) :
    Along sideBySide (fun s => s.1.Represents s.2) (create, []) calls ↔
      EachStep sideBySide (fun s c => s.1.PacksInPlace c) (create, []) calls := by
  have hstep (s : MapData Str Cell Imm Val × List (Key Str Cell Imm × JSValue Val)) (c : Call Str Cell Imm Val)
      (hinv : s.1.Represents s.2 → s.1.Valid s.2) (hrep : s.1.Represents s.2) (_ : True) :
      ∃ s', sideBySide s c = some s' ∧ (s'.1.Represents s'.2 → s'.1.Valid s'.2) ∧
        (s'.1.Represents s'.2 ↔ s.1.PacksInPlace c) := by
    obtain ⟨s', hs', hvalid, hplace⟩ := (hinv hrep).step c
    exact ⟨s', hs', fun hrep' => hvalid (hplace hrep'), hplace, fun h => (hvalid h).represents⟩
  exact along_iff_eachStep hstep calls (fun _ => valid_create) valid_create.represents
    (eachStep_of_forall (fun _ _ => trivial) _ _)

/-- Eight keys fill the store, and the first is removed. The next key packs the store, and the cell 0, which was
    second, is first now; its table entry still says second. -/
theorem get_after_packing : (run sideBySide (create, [])
        ([.set true (.value 0) (.int32 10), .set true (.cell 0) (.int32 11), .set true (.value 2) (.int32 12),
          .set true (.value 3) (.int32 13), .set true (.value 4) (.int32 14), .set true (.value 5) (.int32 15),
          .set true (.value 6) (.int32 16), .set true (.value 7) (.int32 17), .remove (.value 0),
          .set true (.string 0) (.int32 18)] : List (Call Nat Nat Nat Nat))).map
        (fun s => (s.1.get (.cell 0), s.2.lookup (.cell 0))) =
      some (some (some (.int32 12)), some (.int32 11)) := by
  decide

end MapData

end WebV8.JSC
