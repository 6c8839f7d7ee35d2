import WebV8.Lib.Run

/-! # StorageMap

The items of a storage area, with the quota they are held to. The map counts the characters of its keys
and values as it goes, in words that wrap; a map that several storage areas hold is copied before it is
changed.

A null value is a string of its own, different from the empty one. `setItem` is not called with one, but
the items read from a database at the start may have null values.
-/

namespace WebV8.Storage

open List

/-- A string that is not null. Its length is an `unsigned`. -/
abbrev Str := { s : List UInt16 // s.length < 2 ^ 32 }

def Str.size (s : Str) : Nat := s.1.length

def lengthOf : Option Str → Nat
  | none => 0
  | some s => s.size

/-- `HashMap<String, String>`; values may be null, keys may not. -/
abbrev StringMap := AList fun _ : Str => Option Str

/-- `HashMap::get`: null if there is no entry. -/
def StringMap.get (m : StringMap) (key : Str) : Option Str := (m.lookup key).join

def noQuota : Nat := 2 ^ 32 - 1

structure StorageMap where
  map : StringMap
  quotaSize : Nat
  currentLength : Nat
  deriving DecidableEq

variable (m : StorageMap)

namespace StorageMap

def create (quota : Nat) : StorageMap := ⟨∅, quota, 0⟩

def copy : StorageMap := { create m.quotaSize with map := m.map, currentLength := m.currentLength }

def getItem (key : Str) : Option Str := m.map.get key

def contains (key : Str) : Bool := (m.map.lookup key).isSome

/-! ## Mutators -/

/-- What a mutator leaves behind: the map it was called on, the map it returns if that is not null, and what
    it stores through its reference arguments. -/
structure Outcome where
  self : StorageMap
  newMap : Option StorageMap
  oldValue : Option Str
  quotaException : Bool

/-- `setItem` on a map with one reference. -/
def setItemOwned (key value : Str) : Outcome :=
  let newLength := m.currentLength
  let overflow := decide ((newLength + value.size) % 2 ^ 32 < newLength)
  let newLength := (newLength + value.size) % 2 ^ 32
  let oldValue := m.map.get key
  let overflow := overflow || decide (newLength < (newLength + (2 ^ 32 - lengthOf oldValue)) % 2 ^ 32)
  let newLength := (newLength + (2 ^ 32 - lengthOf oldValue)) % 2 ^ 32
  let adjustedKeyLength := if oldValue.isNone then key.size else 0
  let overflow := overflow || decide ((newLength + adjustedKeyLength) % 2 ^ 32 < newLength)
  let newLength := (newLength + adjustedKeyLength) % 2 ^ 32
  let overQuota := decide (m.quotaSize / 2 < newLength)
  if m.quotaSize ≠ noQuota ∧ (overflow || overQuota) then ⟨m, none, oldValue, true⟩
  else
    -- `add`, and an entry that is not new is overwritten
    ⟨{ m with map := m.map.insert key (some value), currentLength := newLength }, none, oldValue, false⟩

/-- `setItem`. The copy has one reference, so the inner call does not copy again; what it returns is null. -/
def setItem (refCount : Nat) (m : StorageMap) (key value : Str) : Outcome :=
  if 1 < refCount then
    let inner := m.copy.setItemOwned key value
    { inner with self := m, newMap := some inner.self }
  else m.setItemOwned key value

/-- `setItemIgnoringQuota`. The quota is set aside during the call, and given back to the map of the call. -/
def setItemIgnoringQuota (refCount : Nat) (m : StorageMap) (key value : Str) : Outcome :=
  let o := { m with quotaSize := noQuota }.setItem refCount key value
  { o with self := { o.self with quotaSize := m.quotaSize } }

/-- `removeItem` on a map with one reference. -/
def removeItemOwned (key : Str) : Outcome :=
  let oldValue := m.map.get key
  let currentLength :=
    if oldValue.isSome then (m.currentLength + (2 ^ 32 - key.size)) % 2 ^ 32 else m.currentLength
  ⟨{ m with
      map := m.map.erase key
      currentLength := (currentLength + (2 ^ 32 - lengthOf oldValue)) % 2 ^ 32 }, none, oldValue, false⟩

def removeItem (refCount : Nat) (m : StorageMap) (key : Str) : Outcome :=
  if 1 < refCount then
    let inner := m.copy.removeItemOwned key
    { inner with self := m, newMap := some inner.self }
  else m.removeItemOwned key

/-- One turn of the loop of `importItems`; `add` does not overwrite. -/
def importItem (item : Sigma fun _ : Str => Option Str) : StorageMap :=
  let map := if (m.map.lookup item.1).isSome then m.map else m.map.insert item.1 item.2
  { m with map, currentLength := ((m.currentLength + item.1.size) % 2 ^ 32 + lengthOf item.2) % 2 ^ 32 }

def importItems (items : StringMap) : StorageMap := items.entries.foldl importItem m

/-! ## Totals -/

def weight (item : Sigma fun _ : Str => Option Str) : Nat := item.1.size + lengthOf item.2

/-- The sum over the entries of key length plus value length. -/
def total (m : StringMap) : Nat := (m.entries.map weight).sum

variable {key : Str} {value : Option Str} {m : StorageMap} {quota : Nat}

theorem weight_kerase {l : List (Sigma fun _ : Str => Option Str)}
    (h : value ∈ l.dlookup key) : weight ⟨key, value⟩ + ((l.kerase key).map weight).sum = (l.map weight).sum := by
  induction l with
  | nil => cases h
  | cons item l ih =>
    by_cases hkey : key = item.1
    · subst hkey
      rw [dlookup_cons_eq] at h
      cases h
      rw [kerase_cons_eq rfl]
      rfl
    · rw [dlookup_cons_ne _ _ hkey] at h
      rw [kerase_cons_ne hkey, map_cons, sum_cons, map_cons, sum_cons, ← ih h]
      omega

theorem total_erase_of_some {m : StringMap} (h : m.lookup key = some value) :
    key.size + lengthOf value + total (m.erase key) = total m :=
  weight_kerase h

theorem total_erase_of_none {m : StringMap} (h : m.lookup key = none) : total (m.erase key) = total m := by
  rw [AList.lookup_eq_none] at h
  rw [total, total]
  change ((m.entries.kerase key).map weight).sum = _
  rw [kerase_of_notMem_keys h]

theorem total_insert (m : StringMap) (key : Str) (value : Option Str) :
    total (m.insert key value) = key.size + lengthOf value + total (m.erase key) := by
  rw [total, AList.entries_insert]
  rfl

/-! ## One map -/

/-- The length is the sum over the entries, small enough for a word, and the map has a quota. -/
structure Counted (m : StorageMap) : Prop where
  length : m.currentLength = total m.map
  small : total m.map < 2 ^ 31
  quota : m.quotaSize < noQuota

/-- The key is stored with a null value, which `setItem` and `removeItem` take for no entry at all. -/
def Forgotten (m : StorageMap) (key : Str) : Prop := m.map.lookup key = some none ∧ key.size ≠ 0

instance (m : StorageMap) (key : Str) : Decidable (m.Forgotten key) := inferInstanceAs (Decidable (_ ∧ _))

/-- What the code takes for the length after `setItem`. -/
def countedLength (m : StorageMap) (key value : Str) : Nat :=
  total (m.map.insert key (some value)) + if m.map.lookup key = some none then key.size else 0

theorem overflow_or_overQuota_iff {t v old k : Nat} (ht : t < 2 ^ 31) (hv : v < 2 ^ 32) (hold : old ≤ t)
    (hk : k < 2 ^ 32) (hquo : quota < noQuota) :
    ((((t + v) % 2 ^ 32 < t ∨ (t + v) % 2 ^ 32 < ((t + v) % 2 ^ 32 + (2 ^ 32 - old)) % 2 ^ 32) ∨
        (((t + v) % 2 ^ 32 + (2 ^ 32 - old)) % 2 ^ 32 + k) % 2 ^ 32 < ((t + v) % 2 ^ 32 + (2 ^ 32 - old)) % 2 ^ 32) ∨
        quota / 2 < (((t + v) % 2 ^ 32 + (2 ^ 32 - old)) % 2 ^ 32 + k) % 2 ^ 32) ↔ quota / 2 < t + v - old + k := by
  rw [noQuota] at hquo
  by_cases hwrap : t + v < 2 ^ 32
  · have h1 : (t + v) % 2 ^ 32 = t + v := Nat.mod_eq_of_lt hwrap
    have h2 : (t + v + (2 ^ 32 - old)) % 2 ^ 32 = t + v - old := by omega
    rw [h1, h2]
    omega
  · -- a value this long is over any quota
    exact iff_of_true (.inl (.inl (.inl (by omega)))) (by omega)

theorem wrapped_sum_eq {t v old k : Nat} (ht : t < 2 ^ 31) (hold : old ≤ t) (h : t + v - old + k < 2 ^ 31) :
    (((t + v) % 2 ^ 32 + (2 ^ 32 - old)) % 2 ^ 32 + k) % 2 ^ 32 = t + v - old + k := by
  omega

theorem countedLength_eq (key value : Str) : lengthOf (m.map.get key) ≤ total m.map ∧
      m.countedLength key value =
        total m.map + value.size - lengthOf (m.map.get key) + if (m.map.get key).isNone then key.size else 0 := by
  rw [countedLength, total_insert, StringMap.get]
  cases hloo : m.map.lookup key with
  | none =>
    have := total_erase_of_none hloo
    simp [lengthOf]
    omega
  | some old =>
    have := total_erase_of_some hloo
    cases old <;> simp [lengthOf] at this ⊢ <;> omega

theorem setItemOwned_eq (hm : m.Counted) (key value : Str) : m.setItemOwned key value =
      if m.quotaSize / 2 < m.countedLength key value then ⟨m, none, m.map.get key, true⟩
      else ⟨⟨m.map.insert key (some value), m.quotaSize, m.countedLength key value⟩, none, m.map.get key, false⟩ := by
  obtain ⟨hlen, hsma, hquo⟩ := hm
  have hne : m.quotaSize ≠ noQuota := hquo.ne
  obtain ⟨hold, hcnt⟩ := m.countedLength_eq key value
  have hadj : (if (m.map.get key).isNone then key.size else 0) < 2 ^ 32 := by
    split
    · exact key.2
    · decide
  have hiff := overflow_or_overQuota_iff hsma (show value.size < 2 ^ 32 from value.2) hold hadj hquo
  rw [setItemOwned, hlen]
  simp only [hne, ne_eq, not_false_eq_true, true_and, Bool.or_eq_true, decide_eq_true_eq, hcnt]
  by_cases hover : m.quotaSize / 2 < m.countedLength key value
  · rw [hcnt] at hover
    rw [if_pos (hiff.mpr hover), if_pos hover]
  · rw [hcnt] at hover
    rw [if_neg (mt hiff.mp hover), if_neg hover, wrapped_sum_eq hsma hold]
    rw [noQuota] at hquo
    omega

theorem setItemOwned_same (key value : Str) :
    (m.setItemOwned key value).newMap = none ∧ (m.setItemOwned key value).self.quotaSize = m.quotaSize := by
  simp only [setItemOwned]
  split_ifs <;> exact ⟨rfl, rfl⟩

theorem countedLength_of_not_forgotten (h : ¬m.Forgotten key) (value : Str) :
    m.countedLength key value = total (m.map.insert key (some value)) := by
  rw [countedLength]
  split
  next hnull =>
    have : key.size = 0 := by
      by_contra hne
      exact h ⟨hnull, hne⟩
    omega
  next => rfl

theorem removeItemOwned_length (hm : m.Counted) (key : Str) : (m.removeItemOwned key).self.currentLength =
      total (m.map.erase key) + if m.map.lookup key = some none then key.size else 0 := by
  obtain ⟨hlen, hsma, -⟩ := hm
  rw [removeItemOwned, hlen, StringMap.get]
  cases hloo : m.map.lookup key with
  | none =>
    have := total_erase_of_none hloo
    simp [lengthOf]
    omega
  | some old =>
    have := total_erase_of_some hloo
    cases old <;> simp [lengthOf] at this ⊢ <;> omega

/-! ## Importing -/

theorem importItem_spec {item : Sigma fun _ : Str => Option Str}
    (hnew : m.map.lookup item.1 = none) (hlen : m.currentLength = total m.map)
    (hsma : total m.map + weight item < 2 ^ 31) :
    (m.importItem item).currentLength = total (m.importItem item).map ∧
      (m.importItem item).map = m.map.insert item.1 item.2 ∧
      total (m.importItem item).map = total m.map + weight item ∧ (m.importItem item).quotaSize = m.quotaSize := by
  have hins := total_insert m.map item.1 item.2
  rw [total_erase_of_none hnew] at hins
  rw [weight] at *
  rw [importItem, hlen, hnew]
  simp only [Option.isSome_none, Bool.false_eq_true, if_false]
  refine ⟨?_, trivial, ?_, trivial⟩ <;> omega

theorem counted_importItems (hquo : quota < noQuota) {items : StringMap}
    (hsma : total items < 2 ^ 31) : ((create quota).importItems items).Counted := by
  -- the loop is followed with the items that are still to come
  have hloop : ∀ (l : List (Sigma fun _ : Str => Option Str)) (m : StorageMap), l.NodupKeys →
      (∀ item ∈ l, m.map.lookup item.1 = none) → m.currentLength = total m.map → m.quotaSize < noQuota →
      total m.map + (l.map weight).sum < 2 ^ 31 → (l.foldl importItem m).Counted := by
    intro l
    induction l with
    | nil =>
      intro m _ _ hlen hq hsum
      exact ⟨hlen, by simpa using hsum, hq⟩
    | cons item l ih =>
      intro m hnod hnew hlen hq hsum
      rw [map_cons, sum_cons] at hsum
      obtain ⟨hcnt, hmap, htot, hquo'⟩ := importItem_spec (hnew item mem_cons_self) hlen (by omega)
      rw [nodupKeys_cons] at hnod
      refine ih _ hnod.2 (fun other hoth => ?_) hcnt (by rw [hquo']; exact hq) (by omega)
      have hne : other.1 ≠ item.1 := fun h => hnod.1 (h ▸ mem_keys_of_mem hoth)
      rw [hmap, AList.lookup_insert_ne hne]
      exact hnew other (mem_cons_of_mem _ hoth)
  refine hloop items.entries (create quota) items.nodupKeys (fun _ _ => rfl) rfl hquo ?_
  simpa [create, total] using hsma

end StorageMap

end WebV8.Storage
