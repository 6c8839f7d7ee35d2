import WebV8.Storage.StorageMap

/-! # Storage areas that share maps

Each storage area holds one map, and several may hold the same. A call goes through one holder, which takes
over the map that is returned, if any. The reference count of a map is the number of its holders.

What a call should do is said of what holders see. The count of a map goes wrong exactly when a call names
a key that is stored with a null value.
-/

namespace WebV8.Storage

open Lib StorageMap List Option

/-- The maps that were ever made, and for each holder which of them it holds; `none` for a holder that is
    gone. -/
structure Storages where
  maps : List StorageMap
  holders : List (Option Nat)

inductive Call where
  | setItem (holder : Nat) (key value : Str)
  | removeItem (holder : Nat) (key : Str)
  /-- Another holder for the map of this one. -/
  | share (holder : Nat)
  | release (holder : Nat)

def Call.holder : Call → Nat
  | setItem h _ _ => h
  | removeItem h _ => h
  | share h => h
  | release h => h

namespace Storages

section

variable (s : Storages)

def refCount (i : Nat) : Nat := s.holders.count (some i)

def held (h : Nat) : Option Nat := s.holders[h]?.join

def view (h : Nat) : Option StorageMap := (s.held h).bind fun i => s.maps[i]?

def store (h i : Nat) (o : Outcome) : Storages :=
  match o.newMap with
  | none => { s with maps := s.maps.set i o.self }
  | some m => ⟨s.maps.set i o.self ++ [m], s.holders.set h (some s.maps.length)⟩

/-- A call, and whether it reports a quota exception; `none` if the holder is gone. -/
def perform (c : Call) : Option (Storages × Bool) := do
  let i ← s.held c.holder
  let m ← s.maps[i]?
  match c with
  | .setItem h key value =>
    let o := m.setItem (s.refCount i) key value
    return (s.store h i o, o.quotaException)
  | .removeItem h key =>
    let o := m.removeItem (s.refCount i) key
    return (s.store h i o, o.quotaException)
  | .share _ => return ({ s with holders := s.holders ++ [some i] }, false)
  | .release h => return ({ s with holders := s.holders.set h none }, false)

def step (c : Call) : Option Storages := (s.perform c).map Prod.fst

/-! ## What a call should do -/

def Tallied : Prop := ∀ m ∈ s.maps, m.currentLength = total m.map

/-- What the holder of the call sees: before it the map `m`, after it `m'`. -/
def Fulfils (m m' : StorageMap) (quotaException : Bool) : Call → Prop
  | .setItem _ key value =>
    (quotaException = true ↔ m.quotaSize / 2 < total (m.map.insert key (some value))) ∧
      (quotaException = true → m'.map = m.map ∧ m'.currentLength = m.currentLength) ∧
      (quotaException = false → ∀ k, m'.map.lookup k = if k = key then some (some value) else m.map.lookup k)
  | .removeItem _ key => ∀ k, m'.map.lookup k = if k = key then none else m.map.lookup k
  | .share _ => m' = m
  | .release _ => True

/-- A call does what it should: the maps stay tallied, the caller sees what was asked for, and no other holder
    sees a change. -/
def StepOk (c : Call) : Prop :=
  ∀ s' e, s.perform c = some (s', e) → s'.Tallied ∧
    (∀ m m', s.view c.holder = some m → s'.view c.holder = some m' → Fulfils m m' e c) ∧
    ∀ h, h ≠ c.holder → h < s.holders.length → s'.view h = s.view h

/-- The call does not go to an entry with a null value, unless it is over the quota anyway. -/
def Remembered (c : Call) : Prop :=
  ∀ m, s.view c.holder = some m →
    match c with
    | .setItem _ key value =>
      m.Forgotten key → m.quotaSize / 2 < total (m.map.insert key (some value))
    | .removeItem _ key => ¬m.Forgotten key
    | .share _ => True
    | .release _ => True

end

/-- Maps with a quota, which have imported items of less than 2³¹ characters, in the hands of some holders. -/
structure Imported (s : Storages) : Prop where
  maps : ∀ m ∈ s.maps, ∃ quota items, quota < noQuota ∧ total items < 2 ^ 31 ∧
    m = (create quota).importItems items
  holders : ∀ i, some i ∈ s.holders → i < s.maps.length

/-! ## Steps -/

/-- Every map is counted, and no holder's pointer dangles. -/
structure Sound (s : Storages) : Prop where
  counted : ∀ m ∈ s.maps, m.Counted
  holders : ∀ i, some i ∈ s.holders → i < s.maps.length

theorem Imported.sound {s : Storages} (h : s.Imported) : s.Sound where
  counted := by
    intro m hm
    obtain ⟨quota, items, hquo, hsma, rfl⟩ := h.maps m hm
    exact counted_importItems hquo hsma
  holders := h.holders

theorem Sound.tallied {s : Storages} (h : s.Sound) : s.Tallied := fun m hm => (h.counted m hm).length

variable {s s' : Storages} {h i : Nat} {m m' : StorageMap} {c : Call} {o inner : Outcome}

theorem held_eq_some : s.held h = some i ↔ s.holders[h]? = some (some i) := by
  rw [held]
  exact join_eq_some_iff

theorem held_ne_of_refCount_le {h' : Nat} (hone : s.refCount i ≤ 1) (hh : s.held h = some i) (hne : h' ≠ h) :
    s.held h' ≠ some i := by
  intro hh'
  rw [held_eq_some] at hh hh'
  obtain ⟨hlt, hget⟩ := List.getElem?_eq_some_iff.mp hh
  obtain ⟨hlt', hget'⟩ := List.getElem?_eq_some_iff.mp hh'
  have hdup : List.Duplicate (some i) s.holders := by
    rw [duplicate_iff_exists_distinct_get]
    rcases Nat.lt_or_gt_of_ne hne with hlt'' | hlt''
    · exact ⟨⟨h', hlt'⟩, ⟨h, hlt⟩, hlt'', hget'.symm, hget.symm⟩
    · exact ⟨⟨h, hlt⟩, ⟨h', hlt'⟩, hlt'', hget.symm, hget'.symm⟩
  have htwo : 2 ≤ s.refCount i := by
    rw [refCount]
    convert duplicate_iff_two_le_count.mp hdup
  omega

/-- The holder `h` sees the map `m'`, which is new or was held by no one else, and all others see what they saw
    before. -/
structure Replaced (s : Storages) (h : Nat) (m' : StorageMap) (s' : Storages) : Prop where
  maps : ∀ x ∈ s'.maps, x = m' ∨ x ∈ s.maps
  mem : m' ∈ s'.maps
  holders : ∀ j, some j ∈ s'.holders → j < s'.maps.length
  view : s'.view h = some m'
  frame : ∀ h', h' ≠ h → s'.view h' = s.view h'

theorem store_replaced (hs : s.Sound) (hh : s.held h = some i)
    (hi : s.maps[i]? = some m)
    (ho : (o.newMap = none ∧ o.self = m' ∧ s.refCount i ≤ 1) ∨ (o.newMap = some m' ∧ o.self = m)) :
    Replaced s h m' (s.store h i o) := by
  obtain ⟨hlt, hget⟩ := List.getElem?_eq_some_iff.mp hi
  obtain ⟨hlth, hgeth⟩ := List.getElem?_eq_some_iff.mp (held_eq_some.mp hh)
  rcases ho with ⟨hnew, hself, hone⟩ | ⟨hnew, hself⟩
  · have hsto : s.store h i o = { s with maps := s.maps.set i m' } := by rw [store, hnew, hself]
    rw [hsto]
    refine ⟨fun x hx => (mem_or_eq_of_mem_set hx).symm, mem_set hlt m', ?_, ?_, ?_⟩
    · intro j hj
      rw [length_set]
      exact hs.holders j hj
    · change (s.held h).bind _ = _
      rw [hh]
      exact List.getElem?_set_self hlt
    · intro h' hne
      change (s.held h').bind _ = (s.held h').bind _
      cases hheld : s.held h' with
      | none => rfl
      | some j =>
        have hij : i ≠ j := by
          rintro rfl
          exact held_ne_of_refCount_le hone hh hne hheld
        exact List.getElem?_set_ne hij
  · have hset : s.maps.set i m = s.maps := by
      rw [← hget]
      exact set_getElem_self hlt
    have hsto : s.store h i o = ⟨s.maps ++ [m'], s.holders.set h (some s.maps.length)⟩ := by
      rw [store, hnew, hself, hset]
    rw [hsto]
    refine ⟨fun x hx => ?_, by simp, ?_, ?_, ?_⟩
    · rcases mem_append.mp hx with hx | hx
      · exact .inr hx
      · exact .inl (mem_singleton.mp hx)
    · intro j hj
      rw [length_append, length_singleton]
      rcases mem_or_eq_of_mem_set hj with hj | hj
      · have := hs.holders j hj
        omega
      · cases hj
        omega
    · rw [view, held]
      simp [List.getElem?_set_self hlth]
    · intro h' hne
      rw [view, view, held, held]
      simp only [List.getElem?_set_ne hne.symm]
      cases hheld : s.holders[h']?.join with
      | none => rfl
      | some j =>
        have hj : j < s.maps.length := by
          rw [join_eq_some_iff] at hheld
          exact hs.holders j (mem_of_getElem? hheld)
        exact List.getElem?_append_left hj

theorem copyOnWrite_cases (refCount : Nat) (m : StorageMap) (hinn : inner.newMap = none)
    (ho : o = if 1 < refCount then { inner with self := m, newMap := some inner.self } else inner) :
    o.quotaException = inner.quotaException ∧
      ((o.newMap = none ∧ o.self = inner.self ∧ refCount ≤ 1) ∨ (o.newMap = some inner.self ∧ o.self = m)) := by
  split at ho
  next => exact ⟨by rw [ho], .inr ⟨by rw [ho], by rw [ho]⟩⟩
  next hsha => exact ⟨by rw [ho], .inl ⟨by rw [ho, hinn], by rw [ho], by omega⟩⟩

/-- What a call does to the map `m` of its holder, in terms of the mutators on a map with one reference. -/
def Effect (s : Storages) (m : StorageMap) (s' : Storages) (e : Bool) : Call → Prop
  | .setItem h key value =>
    Replaced s h (m.setItemOwned key value).self s' ∧ e = (m.setItemOwned key value).quotaException
  | .removeItem h key => Replaced s h (m.removeItemOwned key).self s'
  | .share _ => s'.maps = s.maps ∧ ∃ i, s'.holders = s.holders ++ [some i] ∧ some i ∈ s.holders
  | .release h => s'.maps = s.maps ∧ s'.holders = s.holders.set h none

theorem perform_spec {e : Bool} (hs : s.Sound) (hp : s.perform c = some (s', e)) :
    ∃ m, s.view c.holder = some m ∧ m.Counted ∧ Effect s m s' e c := by
  obtain ⟨i, hheld, hp⟩ := bind_eq_some_iff.mp hp
  obtain ⟨m, hm, hp⟩ := bind_eq_some_iff.mp hp
  have hcou := hs.counted m (mem_of_getElem? hm)
  refine ⟨m, by rw [view, hheld]; exact hm, hcou, ?_⟩
  cases c with
  | setItem h key value =>
    obtain ⟨rfl, rfl⟩ := Prod.mk.inj (Option.some.inj hp)
    obtain ⟨he, ho⟩ := copyOnWrite_cases (s.refCount i) m (m.setItemOwned_same key value).1 rfl
    exact ⟨store_replaced hs hheld hm ho, he⟩
  | removeItem h key =>
    obtain ⟨rfl, rfl⟩ := Prod.mk.inj (Option.some.inj hp)
    obtain ⟨-, ho⟩ := copyOnWrite_cases (s.refCount i) m rfl
      (o := m.removeItem (s.refCount i) key) rfl
    exact store_replaced hs hheld hm ho
  | share h =>
    obtain ⟨rfl, rfl⟩ := Prod.mk.inj (Option.some.inj hp)
    exact ⟨rfl, i, rfl, mem_of_getElem? (held_eq_some.mp hheld)⟩
  | release h =>
    obtain ⟨rfl, rfl⟩ := Prod.mk.inj (Option.some.inj hp)
    exact ⟨rfl, rfl⟩

theorem Replaced.sound (hr : Replaced s h m' s') (hs : s.Sound) (hm' : m'.Counted) : s'.Sound where
  counted := by
    intro x hx
    rcases hr.maps x hx with rfl | hx
    · exact hm'
    · exact hs.counted x hx
  holders := hr.holders

/-! ## When a call does what it should -/

theorem setItemOwned_spec {key value : Str} (hm : m.Counted)
    (hrem : m.Forgotten key → m.quotaSize / 2 < total (m.map.insert key (some value))) :
    (m.setItemOwned key value).self.Counted ∧
      Fulfils m (m.setItemOwned key value).self (m.setItemOwned key value).quotaException
        (.setItem h key value) := by
  have hiff : m.quotaSize / 2 < m.countedLength key value ↔
      m.quotaSize / 2 < total (m.map.insert key (some value)) := by
    by_cases hf : m.Forgotten key
    · refine iff_of_true ?_ (hrem hf)
      have := hrem hf
      rw [countedLength]
      omega
    · rw [countedLength_of_not_forgotten hf]
  rw [setItemOwned_eq hm]
  by_cases hover : m.quotaSize / 2 < m.countedLength key value
  · rw [if_pos hover]
    exact ⟨hm, iff_of_true rfl (hiff.mp hover), fun _ => ⟨rfl, rfl⟩, fun h => by cases h⟩
  · rw [if_neg hover]
    rw [hiff] at hover
    have hcnt := countedLength_of_not_forgotten (fun hf => hover (hrem hf)) value
    have hquo := hm.quota
    have hsma : total (m.map.insert key (some value)) < 2 ^ 31 := by
      rw [noQuota] at hquo
      omega
    refine ⟨⟨hcnt, hsma, hquo⟩, iff_of_false Bool.false_ne_true hover,
      fun h => absurd h Bool.false_ne_true, fun _ k => ?_⟩
    split
    next hk =>
      subst hk
      exact AList.lookup_insert _
    next hk => exact AList.lookup_insert_ne hk

theorem removeItemOwned_spec {key : Str} (hm : m.Counted) (hrem : ¬m.Forgotten key) :
    (m.removeItemOwned key).self.Counted := by
  have hlen := removeItemOwned_length hm key
  have hle : total (m.map.erase key) ≤ total m.map := by
    cases hloo : m.map.lookup key with
    | none => rw [total_erase_of_none hloo]
    | some old =>
      rw [← total_erase_of_some hloo]
      omega
  refine ⟨?_, hle.trans_lt hm.small, hm.quota⟩
  rw [hlen]
  split
  next hnull =>
    have hk : key.size = 0 := by
      by_contra hne
      exact hrem ⟨hnull, hne⟩
    rw [hk]
    rfl
  next => rfl

theorem stepOk_of_remembered {e : Bool} (hs : s.Sound) (hrem : s.Remembered c)
    (hp : s.perform c = some (s', e)) :
    s'.Sound ∧ (∀ m m', s.view c.holder = some m → s'.view c.holder = some m' → Fulfils m m' e c) ∧
      ∀ h, h ≠ c.holder → h < s.holders.length → s'.view h = s.view h := by
  obtain ⟨m, hview, hm, hc⟩ := perform_spec hs hp
  have hrem := hrem m hview
  cases c with
  | setItem h key value =>
    obtain ⟨hr, rfl⟩ := hc
    obtain ⟨hcnt, hful⟩ := setItemOwned_spec hm hrem
    refine ⟨hr.sound hs hcnt, fun m₁ m₂ h₁ h₂ => ?_, fun h' hne _ => hr.frame h' hne⟩
    cases hview.symm.trans h₁
    cases hr.view.symm.trans h₂
    exact hful
  | removeItem h key =>
    refine ⟨hc.sound hs (removeItemOwned_spec hm hrem), fun m₁ m₂ h₁ h₂ => ?_, fun h' hne _ => hc.frame h' hne⟩
    cases hview.symm.trans h₁
    cases hc.view.symm.trans h₂
    intro k
    split
    next hk =>
      subst hk
      exact AList.lookup_erase _ _
    next hk => exact AList.lookup_erase_ne hk
  | share h =>
    obtain ⟨hmaps, i, hhol, hi⟩ := hc
    have hold : ∀ h' < s.holders.length, s'.view h' = s.view h' := by
      intro h' hlt
      rw [view, view, held, held, hhol, hmaps, List.getElem?_append_left hlt]
    refine ⟨⟨by rw [hmaps]; exact hs.counted, fun j hj => ?_⟩, fun m₁ m₂ h₁ h₂ => ?_, fun h' _ => hold h'⟩
    · rw [hhol, mem_append, mem_singleton] at hj
      rw [hmaps]
      rcases hj with hj | hj
      · exact hs.holders j hj
      · exact hs.holders j (hj ▸ hi)
    · have hlt : h < s.holders.length := by
        by_contra hge
        rw [Call.holder, view, held, List.getElem?_eq_none (by omega)] at h₁
        cases h₁
      rw [Call.holder, hold h hlt] at h₂
      exact Option.some.inj (h₂.symm.trans h₁)
  | release h =>
    obtain ⟨hmaps, hhol⟩ := hc
    refine ⟨⟨by rw [hmaps]; exact hs.counted, fun j hj => ?_⟩, fun _ _ _ _ => trivial, fun h' hne _ => ?_⟩
    · rw [hhol] at hj
      rw [hmaps]
      rcases mem_or_eq_of_mem_set hj with hj | hj
      · exact hs.holders j hj
      · cases hj
    · have hne : h ≠ h' := Ne.symm hne
      rw [view, view, held, held, hhol, hmaps, List.getElem?_set_ne hne]

/-- A call to an entry with a null value that is not over the quota goes wrong: the key's length is counted
    once too often, in the length or already in the comparison with the quota. -/
theorem not_stepOk (hs : s.Sound) (hrem : ¬s.Remembered c) : ¬s.StepOk c := by
  intro hok
  obtain ⟨m, hrem⟩ := Classical.not_forall.mp hrem
  obtain ⟨hview, hrem⟩ := Classical.not_imp.mp hrem
  have hper : ∃ r, s.perform c = some r := by
    rw [view, bind_eq_some_iff] at hview
    obtain ⟨i, hheld, hm⟩ := hview
    cases c <;> simp [perform, hheld, hm]
  obtain ⟨⟨s', e⟩, hp⟩ := hper
  obtain ⟨htal, hful, -⟩ := hok s' e hp
  obtain ⟨m₁, hview₁, hm, hc⟩ := perform_spec hs hp
  cases hview.symm.trans hview₁
  cases c with
  | setItem h key value =>
    obtain ⟨hf, hund⟩ := Classical.not_imp.mp hrem
    obtain ⟨hr, rfl⟩ := hc
    have hmem := htal _ hr.mem
    have hex := (hful m _ hview hr.view).1
    have hcnt : m.countedLength key value = total (m.map.insert key (some value)) + key.size := by
      rw [countedLength, if_pos hf.1]
    rw [setItemOwned_eq hm] at hmem hex
    split at hex
    next => exact hund (hex.mp rfl)
    next hover =>
      rw [if_neg hover] at hmem
      have hpos := hf.2
      simp only [hcnt] at hmem
      omega
  | removeItem h key =>
    have hf : m.Forgotten key := Classical.not_not.mp hrem
    have hmem := htal _ hc.mem
    rw [removeItemOwned_length hm, if_pos hf.1] at hmem
    have hpos := hf.2
    change total (m.map.erase key) + key.size = total (m.map.erase key) at hmem
    omega
  | share h | release h => exact hrem trivial

theorem stepOk_iff (hs : s.Sound) : s.StepOk c ↔ s.Remembered c := by
  constructor
  · intro hok
    by_contra hrem
    exact not_stepOk hs hrem hok
  · intro hrem s' e hp
    obtain ⟨hs', hful, hfr⟩ := stepOk_of_remembered hs hrem hp
    exact ⟨hs'.tallied, hful, hfr⟩

/-- **Quota accounting**: after the import, every call of a run does what it should exactly if no call of the run
    goes to an entry that was imported with a null value. -/
theorem quota_accounting {s : Storages} (hs : s.Imported) (calls : List Call) :
    s.Tallied ∧ (EachStep step StepOk s calls ↔ EachStep step Remembered s calls) := by
  refine ⟨hs.sound.tallied, ?_⟩
  refine eachStep_congr (Q := fun _ _ => True) (fun s c s' (hs : Sound s) _ hrem hstep => ?_)
    (fun s c hs _ => stepOk_iff hs) calls hs.sound (eachStep_of_forall (fun _ _ => trivial) _ _)
  obtain ⟨⟨s'', e⟩, hp, rfl⟩ := map_eq_some_iff.mp hstep
  exact (stepOk_of_remembered hs hrem hp).1

/-- Two holders of one map with room for five characters; the first writes, and the second does not see it. -/
theorem quota_accounting_shared : (⟨[(create 10).importItems ∅], [some 0, some 0]⟩ : Storages).Tallied ∧
      (EachStep step StepOk ⟨[(create 10).importItems ∅], [some 0, some 0]⟩
          [.setItem 0 ⟨[107], by decide⟩ ⟨[118], by decide⟩, .removeItem 1 ⟨[107], by decide⟩] ↔
        EachStep step Remembered ⟨[(create 10).importItems ∅], [some 0, some 0]⟩
          [.setItem 0 ⟨[107], by decide⟩ ⟨[118], by decide⟩, .removeItem 1 ⟨[107], by decide⟩]) := by
  refine quota_accounting ⟨?_, ?_⟩ _
  · intro m hm
    exact ⟨10, ∅, by decide, by decide, mem_singleton.mp hm⟩
  · intro i hi
    simp at hi
    simp [hi]

/-- An item `k` that was imported with a null value is removed: the map is empty, and its length is one. -/
theorem removeItem_miscounts :
    ∃ s s' : Storages, s.Imported ∧ s.step (.removeItem 0 ⟨[107], by decide⟩) = some s' ∧ ¬s'.Tallied := by
  refine ⟨⟨[(create 10).importItems (AList.singleton ⟨[107], by decide⟩ none)], [some 0]⟩,
    ⟨[⟨∅, 10, 1⟩], [some 0]⟩, ⟨?_, ?_⟩, by rfl, ?_⟩
  · intro m hm
    exact ⟨10, _, by decide, by decide, mem_singleton.mp hm⟩
  · intro i hi
    simp at hi
    simp [hi]
  · intro htally
    have := htally ⟨∅, 10, 1⟩ mem_cons_self
    revert this
    decide

/-! ## The quota of shared maps -/

/-- The calls, and those that ignore the quota. -/
inductive QuotaCall where
  | call (c : Call)
  | setItemIgnoringQuota (holder : Nat) (key value : Str)

def quotaStep (s : Storages) : QuotaCall → Option Storages
  | .call c => s.step c
  | .setItemIgnoringQuota h key value => do
    let i ← s.held h
    let m ← s.maps[i]?
    return s.store h i (m.setItemIgnoringQuota (s.refCount i) key value)

/-- A new map in the hands of some holders. -/
def createShared (quota holders : Nat) : Storages := ⟨[create quota], List.replicate holders (some 0)⟩

/-- Every map that was ever made has this quota. -/
def HasQuota (quota : Nat) (s : Storages) : Prop := ∀ m ∈ s.maps, m.quotaSize = quota

/-- If there is a quota, it is ignored only by calls to a map with one holder. -/
def IgnoredAlone (quota : Nat) (s : Storages) : QuotaCall → Prop
  | .call _ => True
  | .setItemIgnoringQuota h _ _ => ∀ i, s.held h = some i → i < s.maps.length → quota = noQuota ∨ s.refCount i ≤ 1

variable {quota : Nat}

theorem hasQuota_store_iff (hs : s.HasQuota quota) (hself : o.self.quotaSize = quota) :
    (s.store h i o).HasQuota quota ↔ ∀ m ∈ o.newMap, m.quotaSize = quota := by
  have hset : ∀ m ∈ s.maps.set i o.self, m.quotaSize = quota := by
    intro m hm
    rcases mem_or_eq_of_mem_set hm with hm | rfl
    · exact hs m hm
    · exact hself
  cases hnew : o.newMap with
  | none =>
    rw [store, hnew]
    exact iff_of_true hset nofun
  | some m' =>
    rw [store, hnew]
    refine ⟨fun hall m hm => hall m (mem_append_right _ ?_), fun hm' m hm => ?_⟩
    · rw [mem_some.mp hm]
      exact mem_singleton_self m
    · rcases mem_append.mp hm with hm | hm
      · exact hset m hm
      · exact hm' m (mem_singleton.mp hm ▸ rfl)

theorem hasQuota_copyOnWrite (hs : s.HasQuota quota) (hm : m.quotaSize = quota)
    (hinn : inner.self.quotaSize = quota)
    (ho : (o.newMap = none ∧ o.self = inner.self ∧ s.refCount i ≤ 1) ∨ (o.newMap = some inner.self ∧ o.self = m)) :
    (s.store h i o).HasQuota quota := by
  rcases ho with ⟨hnew, hself, -⟩ | ⟨hnew, hself⟩
  · exact (hasQuota_store_iff hs (hself ▸ hinn)).mpr (hnew ▸ nofun)
  · refine (hasQuota_store_iff hs (hself ▸ hm)).mpr fun m' hm' => ?_
    rw [hnew] at hm'
    exact mem_some.mp hm' ▸ hinn

theorem hasQuota_step (hs : s.HasQuota quota) (hstep : s.step c = some s') : s'.HasQuota quota := by
  obtain ⟨⟨s', e⟩, hp, rfl⟩ := map_eq_some_iff.mp hstep
  obtain ⟨i, -, hp⟩ := bind_eq_some_iff.mp hp
  obtain ⟨m, hm, hp⟩ := bind_eq_some_iff.mp hp
  have hquo := hs m (mem_of_getElem? hm)
  cases c with
  | setItem h key value =>
    obtain ⟨rfl, rfl⟩ := Prod.mk.inj (Option.some.inj hp)
    obtain ⟨hnew, hsame⟩ := m.setItemOwned_same key value
    exact hasQuota_copyOnWrite hs hquo (hsame.trans hquo) (copyOnWrite_cases (s.refCount i) m hnew rfl).2
  | removeItem h key =>
    obtain ⟨rfl, rfl⟩ := Prod.mk.inj (Option.some.inj hp)
    exact hasQuota_copyOnWrite hs hquo (show (m.removeItemOwned key).self.quotaSize = quota from hquo)
      (copyOnWrite_cases (s.refCount i) m rfl rfl).2
  | share h | release h =>
    obtain ⟨rfl, rfl⟩ := Prod.mk.inj (Option.some.inj hp)
    exact hs

/-- **The step lemma**: the copy that is made while the quota is set aside has none. -/
theorem quotaStep_iff (hs : s.HasQuota quota) (c : QuotaCall) :
    (∀ s', s.quotaStep c = some s' → s'.HasQuota quota) ↔ s.IgnoredAlone quota c := by
  cases c with
  | call c => exact iff_of_true (fun s' => hasQuota_step hs) trivial
  | setItemIgnoringQuota h key value =>
    have hsto : ∀ i m, s.maps[i]? = some m →
        ((s.store h i (m.setItemIgnoringQuota (s.refCount i) key value)).HasQuota quota ↔
          quota = noQuota ∨ s.refCount i ≤ 1) := by
      intro i m hm
      obtain ⟨hnew, hsame⟩ := ({ m with quotaSize := noQuota } : StorageMap).setItemOwned_same key value
      rw [hasQuota_store_iff hs (hs m (mem_of_getElem? hm)), setItemIgnoringQuota, StorageMap.setItem]
      split_ifs with hsha
      · refine ⟨fun hall => Or.inl ((hall _ rfl).symm.trans hsame), fun hor m' hm' => ?_⟩
        rw [hor.resolve_right (Nat.not_le.mpr hsha), ← mem_some.mp hm']
        exact hsame
      · refine iff_of_true (fun m' hm' => ?_) (Or.inr (Nat.not_lt.mp hsha))
        exact absurd (hnew.symm.trans hm') nofun
    constructor
    · intro hall i hheld hi
      have hm := List.getElem?_eq_getElem hi
      exact (hsto i _ hm).mp (hall _ (by simp only [quotaStep, hheld, hm, bind_eq_bind, bind_some]; rfl))
    · intro halo s' hstep
      obtain ⟨i, hheld, hstep⟩ := bind_eq_some_iff.mp hstep
      obtain ⟨m, hm, hstep⟩ := bind_eq_some_iff.mp hstep
      rw [← Option.some.inj hstep]
      exact (hsto i m hm).mpr (halo i hheld (List.getElem?_eq_some_iff.mp hm).1)

/-- **The quota is permanent** in a run, for the map and all copies of it, exactly if the calls of the run that ignore
    the quota go to maps with one holder. -/
theorem hasQuota_iff (quota holders : Nat) (calls : List QuotaCall) :
    (createShared quota holders).HasQuota quota ∧
      (EachStep quotaStep (fun s c => ∀ s', s.quotaStep c = some s' → s'.HasQuota quota)
          (createShared quota holders) calls ↔
        EachStep quotaStep (IgnoredAlone quota) (createShared quota holders) calls) := by
  have hstart : (createShared quota holders).HasQuota quota := by simp [createShared, HasQuota, create]
  refine ⟨hstart, ?_⟩
  exact eachStep_congr (Q := fun _ _ => True)
    (fun s c s' (hs : s.HasQuota quota) _ hc hstep => (quotaStep_iff hs c).mpr hc s' hstep)
    (fun s c hs _ => quotaStep_iff hs c) calls hstart (eachStep_of_forall (fun _ _ => trivial) _ _)

/-- The first of two holders gets a map without a quota. -/
theorem setItemIgnoringQuota_loses_quota :
    ∃ s', (createShared 10 2).quotaStep (.setItemIgnoringQuota 0 ⟨[107], by decide⟩ ⟨[118], by decide⟩) = some s' ∧
      ¬s'.HasQuota 10 := by
  refine ⟨_, rfl, fun hall => ?_⟩
  have hcopy := hall _ (mem_append_right _ (mem_singleton_self _))
  exact absurd ((setItemOwned_same _ _).2.symm.trans hcopy) (by decide)

end Storages

end WebV8.Storage
