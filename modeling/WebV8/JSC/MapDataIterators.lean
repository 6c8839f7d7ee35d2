import WebV8.JSC.MapData

/-! # Iterators over a MapData

An iterator is a place in the array of entries. It stays right as long as entries are only appended and
cleared; packing moves them under it. The store should therefore not be packed while there are iterators, and
the map counts them for this. But only the destructor of an iterator touches the count, so that it is never
above zero: the store is packed under the first iterators, and never again once one of them is gone.
-/

namespace WebV8.JSC

open Lib List Option Bool

variable {Str Cell Imm Val : Type}

namespace MapData

/-- `const_iterator`, with what it has visited so far: the places, and what was there. `finished` is the number
    of entries there were when it first came to the end. -/
structure Iterator (Str Cell Imm Val : Type) where
  index : Nat
  visited : List (Nat × Entry Str Cell Imm Val)
  finished : Option Nat

namespace Iterator

variable (entries : List (Entry Str Cell Imm Val))

/-- `begin()` -/
def begin : Iterator Str Cell Imm Val :=
  ⟨skipCleared entries 0, [], none⟩

/-- `ensureSlot`: whether there is an entry, and the index afterwards. -/
def ensureSlot (it : Iterator Str Cell Imm Val) : Bool × Nat :=
  if (entries[it.index]?.join).isSome then (true, it.index)
  else
    let index := skipCleared entries (it.index + 1)
    (decide (index < entries.length), index)

/-- `ensureSlot`, and if there is an entry it is read and the iterator is incremented. -/
def next (it : Iterator Str Cell Imm Val) : Iterator Str Cell Imm Val :=
  match it.ensureSlot entries with
  | (true, index) =>
    { it with
      index := skipCleared entries (index + 1)
      visited := it.visited ++ [(index, entries[index]?.join)] }
  | (false, index) => { it with index, finished := it.finished.or (some entries.length) }

end Iterator

/-- A map and its iterators; `none` for an iterator that was destroyed. -/
structure Iterating (Str Cell Imm Val : Type) where
  map : MapData Str Cell Imm Val
  iterators : List (Option (Iterator Str Cell Imm Val))

inductive IteratorCall (Str Cell Imm Val : Type) where
  | set (allocates : Bool) (k : Key Str Cell Imm) (v : JSValue Val)
  | remove (k : Key Str Cell Imm)
  | create
  | destroy (j : Nat)
  | next (j : Nat)

def IteratorCall.isCreate : IteratorCall Str Cell Imm Val → Bool
  | create => true
  | _ => false

def IteratorCall.isDestroy : IteratorCall Str Cell Imm Val → Bool
  | destroy _ => true
  | _ => false

namespace Iterating

def start : Iterating Str Cell Imm Val := ⟨MapData.create, []⟩

def alive (s : Iterating Str Cell Imm Val) : Nat := s.iterators.countP Option.isSome

variable [DecidableEq Str] [DecidableEq Cell] [DecidableEq Imm]

section

variable (s : Iterating Str Cell Imm Val)

/-- The constructor of an iterator leaves the map alone, the destructor counts down. -/
def step : IteratorCall Str Cell Imm Val → Option (Iterating Str Cell Imm Val)
  | .set allocates k v => (s.map.set allocates k v).map fun r => { s with map := r.1 }
  | .remove k => (s.map.remove k).map fun r => { s with map := r.1 }
  | .create => some { s with iterators := s.iterators ++ [some (.begin s.map.entries)] }
  | .destroy j =>
    s.iterators[j]?.join.map fun _ =>
      ⟨{ s.map with iteratorCount := s.map.iteratorCount - 1 }, s.iterators.set j none⟩
  | .next j =>
    s.iterators[j]?.join.map fun it => { s with iterators := s.iterators.set j (some (it.next s.map.entries)) }

def Packs : IteratorCall Str Cell Imm Val → Prop
  | .set allocates k _ =>
    s.map.index k = none ∧ s.map.capacity ≤ s.map.storedSize ∧ allocates = true ∧ s.map.shouldPack = true
  | _ => False

def Undisturbed (c : IteratorCall Str Cell Imm Val) : Prop :=
  s.alive ≠ 0 → ¬s.Packs c

end

end Iterating

/-! ## What an iterator visits -/

/-- The iterator has visited entries that were not removed, in order and each once; of the places before it, and of
    all places there were when it came to the end, it has visited those whose entry is not removed. -/
structure Visits (entries : List (Entry Str Cell Imm Val)) (it : Iterator Str Cell Imm Val) : Prop where
  present : ∀ v ∈ it.visited, v.2.isSome
  ordered : (it.visited.map Prod.fst).Pairwise (· < ·)
  before : ∀ v ∈ it.visited, v.1 < it.index
  index_le : it.finished = none → it.index ≤ entries.length
  finished_le : ∀ n, it.finished = some n → n ≤ entries.length
  covers : ∀ p, (p < it.index ∧ it.finished = none ∨ ∃ n, it.finished = some n ∧ p < n) → p < entries.length →
    p ∈ it.visited.map Prod.fst ∨ entries[p]? = some none

variable {it : Iterator Str Cell Imm Val}

section

variable {entries : List (Entry Str Cell Imm Val)} {index : Nat}

theorem skipCleared_le (h : index ≤ entries.length) : skipCleared entries index ≤ entries.length := by
  fun_induction skipCleared entries index with
  | case1 _ hlt _ ih => exact ih (by omega)
  | case2 _ hlt _ => omega
  | case3 => exact h

theorem skipped_cleared {p : Nat} (hle : index ≤ p) (hlt : p < skipCleared entries index) :
    entries[p]? = some none := by
  fun_induction skipCleared entries index with
  | case1 index hlt' hnone ih =>
    rcases eq_or_lt_of_le hle with rfl | hgt
    · rw [List.getElem?_eq_getElem hlt', isNone_iff_eq_none.mp hnone]
    · exact ih (by omega) hlt
  | case2 => omega
  | case3 => omega

theorem skipCleared_stops (h : skipCleared entries index < entries.length) :
    (entries[skipCleared entries index]?.join).isSome := by
  fun_induction skipCleared entries index with
  | case1 _ _ _ ih => exact ih h
  | case2 index hlt hsome =>
    rw [List.getElem?_eq_getElem hlt]
    simpa [isSome_iff_ne_none] using hsome
  | case3 => omega

theorem ensureSlot_spec (entries : List (Entry Str Cell Imm Val)) (it : Iterator Str Cell Imm Val) :
    it.index ≤ (it.ensureSlot entries).2 ∧
      (∀ p, it.index ≤ p → p < (it.ensureSlot entries).2 → p < entries.length → entries[p]? = some none) ∧
      ((it.ensureSlot entries).1 = true → (entries[(it.ensureSlot entries).2]?.join).isSome) ∧
      ((it.ensureSlot entries).1 = false → entries.length ≤ (it.ensureSlot entries).2) := by
  rw [Iterator.ensureSlot]
  split
  next h => exact ⟨le_rfl, fun p h₁ h₂ => absurd h₁ (by omega), fun _ => h, nofun⟩
  next h =>
    have hle := le_skipCleared entries (it.index + 1)
    refine ⟨by simp only; omega, fun p h₁ h₂ h₃ => ?_, fun htrue => ?_, fun hfal => ?_⟩
    · rcases eq_or_lt_of_le h₁ with rfl | hgt
      · rw [List.getElem?_eq_getElem h₃] at h ⊢
        simpa using h
      · exact skipped_cleared hgt h₂
    · exact skipCleared_stops (of_decide_eq_true htrue)
    · have := of_decide_eq_false hfal
      simp only
      omega

theorem visits_begin (entries : List (Entry Str Cell Imm Val)) : Visits entries (.begin entries) where
  present := nofun
  ordered := List.Pairwise.nil
  before := nofun
  index_le := fun _ => skipCleared_le (Nat.zero_le _)
  finished_le := nofun
  covers := by
    rintro p (⟨hp, -⟩ | ⟨n, hn, -⟩) -
    · exact .inr (skipped_cleared (Nat.zero_le _) hp)
    · cases hn

theorem Visits.mono {entries' : List (Entry Str Cell Imm Val)}
    (h : Visits entries it) (hlen : entries.length ≤ entries'.length)
    (hcle : ∀ p : Nat, entries[p]? = some none → entries'[p]? = some none) : Visits entries' it where
  present := h.present
  ordered := h.ordered
  before := h.before
  index_le := fun hn => (h.index_le hn).trans hlen
  finished_le := fun n hn => (h.finished_le n hn).trans hlen
  covers := by
    intro p hp _
    have hlt : p < entries.length := by
      rcases hp with ⟨hp, hn⟩ | ⟨n, hn, hp⟩
      · exact hp.trans_le (h.index_le hn)
      · exact hp.trans_le (h.finished_le n hn)
    rcases h.covers p hp hlt with hv | hc
    · exact .inl hv
    · exact .inr (hcle p hc)

theorem Visits.next (h : Visits entries it) : Visits entries (it.next entries) := by
  obtain ⟨hle, hcle, hslot, hend⟩ := ensureSlot_spec entries it
  rw [Iterator.next]
  split
  next index heq =>
    rw [heq] at hle hcle hslot
    have hsome := hslot rfl
    have hlt : index < entries.length := by
      by_contra hge
      rw [List.getElem?_eq_none (by omega)] at hsome
      cases hsome
    have hskip := le_skipCleared entries (index + 1)
    refine ⟨?_, ?_, ?_, fun _ => skipCleared_le hlt, h.finished_le, ?_⟩
    · intro v hv
      rcases mem_append.mp hv with hv | hv
      · exact h.present v hv
      · rw [mem_singleton.mp hv]
        exact hsome
    · rw [map_append, pairwise_append]
      refine ⟨h.ordered, pairwise_singleton _ _, ?_⟩
      rintro _ hmem q hq
      obtain ⟨v, hv, rfl⟩ := mem_map.mp hmem
      rw [mem_singleton.mp hq]
      exact (h.before v hv).trans_le hle
    · intro v hv
      change v.1 < skipCleared entries (index + 1)
      rcases mem_append.mp hv with hv | hv
      · have := h.before v hv
        simp only at hle
        omega
      · rw [mem_singleton.mp hv]
        exact hskip
    · intro p hp hlen
      rw [map_append, mem_append]
      rcases hp with ⟨hp, hn⟩ | hfin
      · rcases lt_or_ge p it.index with hbef | haft
        · rcases h.covers p (.inl ⟨hbef, hn⟩) hlen with hv | hc
          · exact .inl (.inl hv)
          · exact .inr hc
        · rcases lt_trichotomy p index with hlt' | rfl | hgt
          · exact .inr (hcle p haft hlt' hlen)
          · exact .inl (.inr mem_cons_self)
          · exact .inr (skipped_cleared hgt hp)
      · rcases h.covers p (.inr hfin) hlen with hv | hc
        · exact .inl (.inl hv)
        · exact .inr hc
  next index heq =>
    rw [heq] at hle hcle hend
    have hge := hend rfl
    have hfini : it.finished.or (some entries.length) ≠ none := by
      cases it.finished <;> exact nofun
    refine ⟨h.present, h.ordered, fun v hv => (h.before v hv).trans_le hle, fun hn => absurd hn hfini, ?_, ?_⟩
    · intro n hn
      cases hfin : it.finished with
      | none =>
        rw [hfin] at hn
        cases hn
        exact le_rfl
      | some n' =>
        rw [hfin] at hn
        cases hn
        exact h.finished_le n hfin
    · intro p hp hlen
      rcases hp with ⟨-, hn⟩ | ⟨n, hn, hp⟩
      · exact absurd hn hfini
      · cases hfin : it.finished with
        | none =>
          rcases lt_or_ge p it.index with hbef | haft
          · exact h.covers p (.inl ⟨hbef, hfin⟩) hlen
          · exact .inr (hcle p haft (by simp only at hge ⊢; omega) hlen)
        | some n' =>
          rw [hfin] at hn
          cases hn
          exact h.covers p (.inr ⟨n, hfin, hp⟩) hlen

end

/-! ## Calls -/

namespace Iterating

section

variable [DecidableEq Str] [DecidableEq Cell] [DecidableEq Imm] {s s' : Iterating Str Cell Imm Val}
  {c : IteratorCall Str Cell Imm Val} {k : Key Str Cell Imm}

/-- A map after a call that has not packed: no entry has moved. -/
structure Extends (m m' : MapData Str Cell Imm Val) : Prop where
  length : m.entries.length ≤ m'.entries.length
  cleared : ∀ p : Nat, m.entries[p]? = some none → m'.entries[p]? = some none

theorem count_setIndex (m : MapData Str Cell Imm Val) (k : Key Str Cell Imm) (i : Option Nat) :
    (m.setIndex k i).iteratorCount = m.iteratorCount := by
  cases k <;> rfl

theorem set_spec {m m' : MapData Str Cell Imm Val} {allocates threw : Bool}
    {v : JSValue Val} (h : m.set allocates k v = some (m', threw)) : m'.iteratorCount = m.iteratorCount ∧
      (¬(m.index k = none ∧ m.capacity ≤ m.storedSize ∧ allocates = true ∧ m.shouldPack = true) → Extends m m') := by
  rw [MapData.set] at h
  split at h
  next i hk =>
    obtain ⟨e, he, heq⟩ := map_eq_some_iff.mp h
    cases heq
    refine ⟨rfl, fun _ => ⟨by simp, fun p hp => ?_⟩⟩
    rcases eq_or_ne i p with rfl | hne
    · obtain ⟨hlt, -⟩ := List.getElem?_eq_some_iff.mp he
      rw [he] at hp
      cases hp
      simp [List.getElem?_set_self hlt]
    · simpa [List.getElem?_set_ne hne] using hp
  next hk =>
    have happ (m₁ : MapData Str Cell Imm Val) (hent : m₁.entries = m.entries)
        (hm' : m' = { m₁.setIndex k (some m₁.storedSize) with entries := m₁.entries ++ [some (k, v)] }) :
        Extends m m' := by
      subst hm'
      refine ⟨by simp [hent], fun p hp => ?_⟩
      obtain ⟨hlt, -⟩ := List.getElem?_eq_some_iff.mp hp
      simpa [hent, List.getElem?_append_left hlt] using hp
    rw [ensureSpaceForAppend] at h
    by_cases hspa : m.storedSize < m.capacity
    · rw [if_pos hspa] at h
      cases h
      exact ⟨count_setIndex _ _ _, fun _ => happ m rfl rfl⟩
    · rw [if_neg hspa] at h
      cases allocates with
      | false =>
        cases h
        exact ⟨rfl, fun _ => ⟨le_rfl, fun _ => id⟩⟩
      | true =>
        by_cases hpack : m.shouldPack = true
        · simp only [Bool.not_true, Bool.false_eq_true, if_false, hpack, if_true] at h
          cases h
          exact ⟨count_setIndex _ _ _, fun hno => absurd ⟨hk, by omega, rfl, hpack⟩ hno⟩
        · simp only [Bool.not_true, Bool.false_eq_true, if_false, hpack] at h
          cases h
          exact ⟨count_setIndex _ _ _, fun _ =>
            happ (m.replaceBackingStore (max (m.capacity + m.capacity / 2 + 1) minimumMapSize)) rfl rfl⟩

theorem remove_spec {m m' : MapData Str Cell Imm Val} {found : Bool}
    (h : m.remove k = some (m', found)) : m'.iteratorCount = m.iteratorCount ∧ Extends m m' := by
  rw [MapData.remove] at h
  split at h
  next =>
    cases h
    exact ⟨rfl, le_rfl, fun _ => id⟩
  next i hk =>
    obtain ⟨e, he, heq⟩ := map_eq_some_iff.mp h
    cases heq
    refine ⟨count_setIndex _ _ _, by simp, fun p hp => ?_⟩
    obtain ⟨hlt, -⟩ := List.getElem?_eq_some_iff.mp he
    rcases eq_or_ne i p with rfl | hne
    · simp [List.getElem?_set_self hlt]
    · simpa [List.getElem?_set_ne hne] using hp

theorem step_count (h : s.step c = some s') :
    s'.map.iteratorCount = s.map.iteratorCount - (if c.isDestroy then 1 else 0) ∧
      s'.alive + (if c.isDestroy then 1 else 0) = s.alive + (if c.isCreate then 1 else 0) := by
  cases c with
  | set allocates k v =>
    obtain ⟨⟨m', threw⟩, hset, rfl⟩ := map_eq_some_iff.mp h
    exact ⟨(set_spec hset).1.trans (sub_zero _).symm, rfl⟩
  | remove k =>
    obtain ⟨⟨m', found⟩, hrem, rfl⟩ := map_eq_some_iff.mp h
    exact ⟨(remove_spec hrem).1.trans (sub_zero _).symm, rfl⟩
  | create =>
    cases h
    exact ⟨(sub_zero _).symm, by simp [alive, IteratorCall.isDestroy, IteratorCall.isCreate]⟩
  | destroy j =>
    obtain ⟨it, hit, rfl⟩ := map_eq_some_iff.mp h
    obtain ⟨hlt, hget⟩ := List.getElem?_eq_some_iff.mp (join_eq_some_iff.mp hit)
    have hpos : 0 < s.iterators.countP Option.isSome :=
      countP_pos_iff.mpr ⟨some it, hget ▸ getElem_mem hlt, rfl⟩
    refine ⟨rfl, ?_⟩
    simp [alive, IteratorCall.isDestroy, IteratorCall.isCreate, countP_set hlt, hget]
    omega
  | next j =>
    obtain ⟨it, hit, rfl⟩ := map_eq_some_iff.mp h
    obtain ⟨hlt, hget⟩ := List.getElem?_eq_some_iff.mp (join_eq_some_iff.mp hit)
    have hpos : 0 < s.iterators.countP Option.isSome :=
      countP_pos_iff.mpr ⟨some it, hget ▸ getElem_mem hlt, rfl⟩
    refine ⟨(sub_zero _).symm, ?_⟩
    simp [alive, IteratorCall.isDestroy, IteratorCall.isCreate, countP_set hlt, hget]
    omega

variable {calls : List (IteratorCall Str Cell Imm Val)}

theorem run_count (h : run step s calls = some s') :
    s'.map.iteratorCount = s.map.iteratorCount - (calls.countP IteratorCall.isDestroy : Int) ∧
      s'.alive + calls.countP IteratorCall.isDestroy = s.alive + calls.countP IteratorCall.isCreate := by
  induction calls generalizing s with
  | nil =>
    cases h
    simp
  | cons c calls ih =>
    obtain ⟨s₁, hs₁, hrun⟩ := bind_eq_some_iff.mp h
    obtain ⟨hcnt, hali⟩ := step_count hs₁
    obtain ⟨hcnt', hali'⟩ := ih hrun
    rw [countP_cons, countP_cons]
    constructor
    · rw [hcnt', hcnt]
      cases c.isDestroy <;> simp
      omega
    · omega

/-- All iterators that are alive have visited what they should. -/
def AllVisit (s : Iterating Str Cell Imm Val) : Prop := ∀ it, some it ∈ s.iterators → Visits s.map.entries it

omit [DecidableEq Str] [DecidableEq Cell] [DecidableEq Imm] in
theorem alive_ne_zero (h : some it ∈ s.iterators) : s.alive ≠ 0 := by
  rw [alive]
  exact (countP_pos_iff.mpr ⟨some it, h, rfl⟩).ne'

theorem AllVisit.step (hv : s.AllVisit) (hc : s.Undisturbed c)
    (h : s.step c = some s') : s'.AllVisit := by
  intro it hit
  cases c with
  | set allocates k v =>
    obtain ⟨⟨m', threw⟩, hset, rfl⟩ := map_eq_some_iff.mp h
    have hext := (set_spec hset).2 (hc (alive_ne_zero hit))
    exact (hv it hit).mono hext.length hext.cleared
  | remove k =>
    obtain ⟨⟨m', found⟩, hrem, rfl⟩ := map_eq_some_iff.mp h
    have hext := (remove_spec hrem).2
    exact (hv it hit).mono hext.length hext.cleared
  | create =>
    cases h
    rcases mem_append.mp hit with hit | hit
    · exact hv it hit
    · cases mem_singleton.mp hit
      exact visits_begin _
  | destroy j =>
    obtain ⟨old, -, rfl⟩ := map_eq_some_iff.mp h
    rcases mem_or_eq_of_mem_set hit with hit | hit
    · exact hv it hit
    · cases hit
  | next j =>
    obtain ⟨old, hold, rfl⟩ := map_eq_some_iff.mp h
    rcases mem_or_eq_of_mem_set hit with hit | hit
    · exact hv it hit
    · cases hit
      exact (hv old (mem_of_getElem? (join_eq_some_iff.mp hold))).next

theorem AllVisit.run (hv : s.AllVisit)
    (hcal : EachStep Iterating.step Undisturbed s calls) (h : run Iterating.step s calls = some s') :
    s'.AllVisit := by
  induction calls generalizing s with
  | nil =>
    cases h
    exact hv
  | cons c calls ih =>
    obtain ⟨s₁, hs₁, hrun⟩ := bind_eq_some_iff.mp h
    exact ih (hv.step hcal.1 hs₁) (hcal.2 s₁ hs₁) hrun

theorem undisturbed_of_no_create (hali : s.alive = 0)
    (hno : ∀ c ∈ calls, c.isCreate = false) : EachStep step Undisturbed s calls := by
  induction calls generalizing s with
  | nil => trivial
  | cons c calls ih =>
    refine ⟨fun hne => absurd hali hne, fun s₁ hs₁ => ih ?_ fun c' hc' => hno c' (mem_cons_of_mem _ hc')⟩
    have := (step_count hs₁).2
    rw [hno c mem_cons_self, hali] at this
    simp at this
    omega

/-- **Iterators and the count**: in a run that gets to a state `s`, the count is the number of iterators that are
    alive, no packing disturbs an iterator and all iterators visit what they should, exactly if no iterator was
    ever created. As long as no packing disturbs an iterator, all visit what they should, whatever the count. -/
theorem iterators_iff {calls : List (IteratorCall Str Cell Imm Val)} {s : Iterating Str Cell Imm Val}
    (hrun : run step start calls = some s) :
    ((s.map.iteratorCount = s.alive ∧ EachStep step Undisturbed start calls ∧ s.AllVisit) ↔
      ∀ c ∈ calls, c.isCreate = false) ∧ (EachStep step Undisturbed start calls → s.AllVisit) := by
  have hstart : (start : Iterating Str Cell Imm Val).AllVisit := fun _ h => absurd h not_mem_nil
  obtain ⟨hcount, halive⟩ := run_count hrun
  refine ⟨⟨?_, fun hno => ?_⟩, fun hcalls => hstart.run hcalls hrun⟩
  · rintro ⟨hin, -, -⟩
    have hzero : calls.countP IteratorCall.isCreate = 0 := by
      simp only [start, MapData.create, alive, countP_nil] at hcount halive
      rw [hcount] at hin
      simp only [alive] at hin
      omega
    intro c hc
    simpa using countP_eq_zero.mp hzero c hc
  · have hcalls := undisturbed_of_no_create (s := start) rfl hno
    have hzero : calls.countP IteratorCall.isCreate = 0 := countP_eq_zero.mpr fun c hc => by simp [hno c hc]
    refine ⟨?_, hcalls, hstart.run hcalls hrun⟩
    simp only [start, MapData.create, alive, countP_nil] at hcount halive
    rw [hcount]
    simp only [alive]
    omega

/-- An iterator that sees an entry appended behind it. -/
theorem iterators_iff_append :
    let calls : List (IteratorCall Nat Nat Nat Nat) :=
      [.set true (.value 0) (.int32 0), .create, .next 0, .set true (.cell 0) (.int32 1), .next 0]
    ∃ s, run step start calls = some s ∧
      (((s.map.iteratorCount = s.alive ∧ EachStep step Undisturbed start calls ∧ s.AllVisit) ↔
        ∀ c ∈ calls, c.isCreate = false) ∧
      (EachStep step Undisturbed start calls → s.AllVisit)) :=
  ⟨_, rfl, iterators_iff rfl⟩

/-- The store is full and its first entry is removed. An iterator has visited the keys 1 and 2 when a ninth key
    packs the store; the next key that it visits is 4, although 3 is there. -/
theorem iterator_skips :
    let final := run step start
      ([.set true (.value 0) (.int32 0), .set true (.value 1) (.int32 0), .set true (.value 2) (.int32 0),
        .set true (.value 3) (.int32 0), .set true (.value 4) (.int32 0), .set true (.value 5) (.int32 0),
        .set true (.value 6) (.int32 0), .set true (.value 7) (.int32 0), .remove (.value 0), .create,
        .next 0, .next 0, .set true (.value 8) (.int32 0), .next 0] : List (IteratorCall Nat Nat Nat Nat))
    final.map (fun s => s.iterators.map fun it => it.map fun it => it.visited.map fun v => v.2.map Prod.fst) =
        some [some [some (.value 1), some (.value 2), some (.value 4)]] ∧
      final.map (fun s => s.map.contains (.value 3)) = some true := by
  decide +kernel

end

end Iterating

end MapData

end WebV8.JSC
