import WebV8.Lib.Probe
import WebV8.WTF.HashTable

/-!
# What the probe loops of `HashTable` find

`Buckets` is the invariant of an array of buckets: its length is a power of two, every entry can be
reached from the bucket of its hash without passing an empty bucket, and no two entries have equal
keys. Under it, and while there is an empty bucket, the loops of `lookup` and `lookupForWriting`
end, and they find the entry with a given key if there is one (`lookup_spec`,
`probeForWriting_spec`).
-/

namespace WebV8

open Lib List Bool Nat

variable {Key Value T : Type}

namespace HashTableTraits

/-! ## What the template parameters promise -/

variable (C : HashTableTraits Key Value)

/-- A key that is neither the empty nor the deleted value. -/
def IsLiveKey (key : Key) : Prop :=
  C.isEmptyKey key = false ∧ C.isDeletedKey key = false

def isLive (value : Value) : Bool := !C.isEmptyOrDeletedBucket value

def isMark (value : Value) : Bool :=
  !C.isEmptyBucket value && C.isDeletedBucket value

/-- Equality is an equivalence that the hash respects, an initialised bucket is empty, a deleted one
    is deleted, what `checkKey` asserts holds of every key of an entry, and the minimal size is a
    power of two that an `int` can hold. -/
structure Lawful (C : HashTableTraits Key Value) : Prop where
  equal_refl : ∀ {a : Key}, C.IsLiveKey a → C.equal a a = true
  equal_symm : ∀ {a b : Key}, C.IsLiveKey a → C.IsLiveKey b → C.equal a b = true → C.equal b a = true
  equal_trans : ∀ {a b c : Key}, C.IsLiveKey a → C.IsLiveKey b → C.IsLiveKey c →
    C.equal a b = true → C.equal b c = true → C.equal a c = true
  hash_eq : ∀ {a b : Key}, C.IsLiveKey a → C.IsLiveKey b → C.equal a b = true → C.hash a = C.hash b
  extract_initializedBucket : C.extract C.initializedBucket = C.emptyKey
  isEmptyKey_emptyKey : C.isEmptyKey C.emptyKey = true
  isDeletedKey_emptyKey : C.isDeletedKey C.emptyKey = false
  extract_constructDeletedValue : ∀ v w : Value,
    C.extract (C.constructDeletedValue v) = C.extract (C.constructDeletedValue w)
  isDeletedBucket_constructDeletedValue : ∀ v, C.isDeletedBucket (C.constructDeletedValue v) = true
  isEmptyBucket_constructDeletedValue : ∀ v, C.isEmptyBucket (C.constructDeletedValue v) = false
  checkKey_of_isLiveKey : ∀ {a : Key}, C.IsLiveKey a → C.checkKey C.identityTranslator a = true
  minimumTableSize_eq : ∃ m ≤ 30, C.minimumTableSize = 2 ^ m

/-- A translator and a value that stands for one key: the value passes `checkKey`, it hashes like
    the keys it compares equal to, and these are the keys equal to any one of them. -/
structure Names (C : HashTableTraits Key Value) (tr : HashTranslator Key T) (key : T) : Prop where
  checkKey : C.checkKey tr key = true
  hash_eq : ∀ {a : Key}, C.IsLiveKey a → tr.equal a key = true → C.hash a = tr.hash key
  equal_iff : ∀ {a b : Key}, C.IsLiveKey a → C.IsLiveKey b → tr.equal a key = true →
    (tr.equal b key = true ↔ C.equal a b = true)

variable {C : HashTableTraits Key Value}

variable {v : Value}

theorem isLive_iff : C.isLive v = true ↔ C.IsLiveKey (C.extract v) := by
  simp [isLive, isEmptyOrDeletedBucket, isEmptyBucket, isDeletedBucket, IsLiveKey]

theorem isLive_eq_false_iff : C.isLive v = false ↔ C.isEmptyBucket v = true ∨ C.isMark v = true := by
  cases he : C.isEmptyBucket v <;> cases hd : C.isDeletedBucket v <;>
    simp [isLive, isMark, isEmptyOrDeletedBucket, he, hd]

theorem isEmptyBucket_of_isLive (h : C.isLive v = true) : C.isEmptyBucket v = false :=
  (isLive_iff.mp h).1

theorem isDeletedBucket_of_isLive (h : C.isLive v = true) : C.isDeletedBucket v = false :=
  (isLive_iff.mp h).2

theorem isMark_of_isLive (h : C.isLive v = true) : C.isMark v = false := by
  rw [isMark, isDeletedBucket_of_isLive h, Bool.and_false]

theorem isEmptyBucket_of_isMark (h : C.isMark v = true) : C.isEmptyBucket v = false := by
  simp only [isMark, and_eq_true, not_eq_true'] at h
  exact h.1

theorem isDeletedBucket_of_isMark (h : C.isMark v = true) : C.isDeletedBucket v = true := by
  simp only [isMark, and_eq_true] at h
  exact h.2

theorem isLive_of_isMark (h : C.isMark v = true) : C.isLive v = false :=
  isLive_eq_false_iff.mpr (.inr h)

theorem isLive_of_isEmptyBucket (h : C.isEmptyBucket v = true) : C.isLive v = false :=
  isLive_eq_false_iff.mpr (.inl h)

namespace Lawful

variable (L : C.Lawful)

include L

theorem isEmptyBucket_initializedBucket : C.isEmptyBucket C.initializedBucket = true := by
  rw [isEmptyBucket, L.extract_initializedBucket, L.isEmptyKey_emptyKey]

theorem isDeletedBucket_initializedBucket : C.isDeletedBucket C.initializedBucket = false := by
  rw [isDeletedBucket, L.extract_initializedBucket, L.isDeletedKey_emptyKey]

theorem isMark_deleteBucket (v : Value) : C.isMark (C.deleteBucket v) = true := by
  rw [deleteBucket, isMark, L.isEmptyBucket_constructDeletedValue, L.isDeletedBucket_constructDeletedValue]
  rfl

theorem names_identity {key : Key} (hlive : C.IsLiveKey key) :
    C.Names C.identityTranslator key where
  checkKey := L.checkKey_of_isLiveKey hlive
  hash_eq := fun ha heql => L.hash_eq ha hlive heql
  equal_iff := by
    intro a b ha hb (hak : C.equal a key = true)
    constructor
    · intro (hbk : C.equal b key = true)
      exact L.equal_trans ha hlive hb hak (L.equal_symm hb hlive hbk)
    · intro hab
      exact L.equal_trans hb ha hlive (L.equal_symm ha hb hab) hak

end Lawful

/-! ## The invariant of the buckets -/

/-- The distance between the buckets that are tried for a hash. -/
def probeStep (h : UInt32) : Nat := (1 ||| doubleHash h).toNat

variable (buckets : List Value)

/-- The bucket that is tried after `n` others. -/
def bucketAt (h : UInt32) (n : Nat) : Nat :=
  slot h.toNat (probeStep h) buckets.length n

def Occupied (C : HashTableTraits Key Value) (buckets : List Value) (p : Nat) : Prop :=
  ∃ v, buckets[p]? = some v ∧ C.isEmptyBucket v = false

/-- No bucket that is tried before `p` is empty. -/
def ReachableFrom (C : HashTableTraits Key Value) (buckets : List Value) (h : UInt32) (p : Nat) : Prop :=
  Reachable (C.Occupied buckets) h.toNat (probeStep h) buckets.length p

structure Buckets (C : HashTableTraits Key Value) (buckets : List Value) : Prop where
  length_eq : ∃ m ≤ 30, buckets.length = 2 ^ m
  eq_of_isEmptyBucket : ∀ v ∈ buckets, C.isEmptyBucket v = true → v = C.initializedBucket
  eq_of_isMark : ∀ v ∈ buckets, C.isMark v = true → ∃ w, v = C.constructDeletedValue w
  reachable : ∀ {p : Nat} {v : Value}, buckets[p]? = some v → C.isLive v = true →
    C.ReachableFrom buckets (C.hash (C.extract v)) p
  unique : ∀ {p q : Nat} {v w : Value}, buckets[p]? = some v → buckets[q]? = some w →
    C.isLive v = true → C.isLive w = true → C.equal (C.extract v) (C.extract w) = true → p = q

def Matches (C : HashTableTraits Key Value) (tr : HashTranslator Key T) (key : T) (v : Value) : Prop :=
  C.isLive v = true ∧ tr.equal (C.extract v) key = true

end HashTableTraits

open HashTableTraits

/-! ## The words of the loop -/

variable {m N : Nat} {h : UInt32}

theorem toNat_and_mask (hm : m ≤ 30) (x : UInt32) : (x &&& UInt32.ofNat (2 ^ m - 1)).toNat = x.toNat % 2 ^ m := by
  have hlt : 2 ^ m - 1 < UInt32.size := by
    have : 2 ^ m ≤ 2 ^ 30 := Nat.pow_le_pow_right (by decide) hm
    rw [UInt32.size]
    omega
  rw [UInt32.toNat_and, UInt32.toNat_ofNat_of_lt' hlt, and_two_pow_sub_one_eq_mod]

theorem toNat_add_and_mask (hm : m ≤ 30) (x y : UInt32) :
    ((x + y) &&& UInt32.ofNat (2 ^ m - 1)).toNat = (x.toNat + y.toNat) % 2 ^ m := by
  have hdvd : 2 ^ m ∣ 2 ^ 32 := pow_dvd_pow 2 (by omega)
  rw [toNat_and_mask hm, UInt32.toNat_add, mod_mod_of_dvd _ hdvd]

theorem one_or_odd (x : UInt32) : (1 ||| x).toNat % 2 = 1 := by
  rw [UInt32.toNat_or, or_mod_two_eq_one]
  exact .inl rfl

theorem coprime_probeStep (h : UInt32) (m : Nat) : Nat.Coprime (probeStep h) (2 ^ m) :=
  coprime_two_pow (one_or_odd _) m

/-- **The loop follows the probe sequence**: if it goes on at the first `N` buckets and ends at the
    next one, it ends with what it answers there. `s n` is its variable at bucket `n`. -/
theorem probe_eq {σ ρ : Type} {visit : Nat → Value → σ → Except ρ σ} {buckets : List Value}
    (hm : m ≤ 30) (hlen : buckets.length = 2 ^ m) {s : Nat → σ} {result : ρ}
    (hgo : ∀ n < N, ∀ v, buckets[bucketAt buckets h n]? = some v →
      visit (bucketAt buckets h n) v (s n) = .ok (s (n + 1)))
    {v : Value} (hv : buckets[bucketAt buckets h N]? = some v)
    (hstop : visit (bucketAt buckets h N) v (s N) = .error result) :
    ∀ (rounds n : Nat) (i k : UInt32), N < n + rounds → n ≤ N → i.toNat = bucketAt buckets h n →
      (k = if n = 0 then 0 else 1 ||| doubleHash h) →
      probe visit buckets (UInt32.ofNat (buckets.length - 1)) h rounds i k (s n) = some result := by
  intro rounds
  induction rounds with
  | zero =>
    intro n _ _ hlt hle _ _
    omega
  | succ rounds ih =>
    intro n i k hlt hle hi hk
    have hin : bucketAt buckets h n < buckets.length := slot_lt (by rw [hlen]; exact Nat.two_pow_pos m) _ _ _
    have hget := List.getElem?_eq_getElem hin
    rw [probe, hi]
    rcases lt_or_eq_of_le hle with hlt' | rfl
    · -- the loop goes on, with the step set from here on
      simp only [hget, hgo n hlt' _ hget]
      have hstep : (if (k == 0) = true then 1 ||| doubleHash h else k) = 1 ||| doubleHash h := by
        rw [hk]
        split_ifs <;> simp_all
      rw [hstep]
      apply ih (n + 1) _ _ (by omega) hlt'
      · rw [hlen, toNat_add_and_mask hm, hi, bucketAt, bucketAt, slot_succ, hlen, probeStep]
      · rw [if_neg (succ_ne_zero n)]
    · simp only [hv, hstop]

namespace HashTable

/-! ## Tables with buckets -/

def contents (t : HashTable Value) : List Value := t.table.getD []

structure Shape (C : HashTableTraits Key Value) (t : HashTable Value) : Prop where
  table_eq : t.table = some t.contents
  tableSize_eq : t.tableSize = t.contents.length
  tableSizeMask_eq : t.tableSizeMask = t.contents.length - 1
  wf : C.Buckets t.contents

def HasEmptyBucket (C : HashTableTraits Key Value) (buckets : List Value) : Prop :=
  ∃ (p : Nat) (v : Value), buckets[p]? = some v ∧ C.isEmptyBucket v = true

variable {C : HashTableTraits Key Value} {t : HashTable Value} {buckets : List Value}
  {tr : HashTranslator Key T} {key : T}

theorem Shape.probeFrom_eq {σ ρ : Type} {visit : Nat → Value → σ → Except ρ σ}
    (ht : Shape C t) {s : Nat → σ} {result : ρ} (hN : N < t.contents.length)
    (hgo : ∀ n < N, ∀ v, t.contents[bucketAt t.contents h n]? = some v →
      visit (bucketAt t.contents h n) v (s n) = .ok (s (n + 1)))
    {v : Value} (hv : t.contents[bucketAt t.contents h N]? = some v)
    (hstop : visit (bucketAt t.contents h N) v (s N) = .error result) : t.probeFrom visit h (s 0) = some result := by
  obtain ⟨m, hm, hlen⟩ := ht.wf.length_eq
  rw [probeFrom, ht.table_eq, ht.tableSize_eq, ht.tableSizeMask_eq]
  apply probe_eq hm hlen hgo hv hstop t.contents.length 0 _ _ (by omega) (zero_le N)
  · rw [bucketAt, slot_zero, hlen, toNat_and_mask hm]
  · rw [if_pos rfl]

variable {v : Value}

/-- A bucket that does not answer to a key that passed `checkKey` does not compare equal to it. -/
theorem equal_eq_false_of_not_isLive (L : C.Lawful) (hb : C.Buckets buckets) (hkey : C.Names tr key)
    (hsafe : C.safeToCompareToEmptyOrDeleted = true) (hv : v ∈ buckets)
    (hlive : C.isLive v = false) : tr.equal (C.extract v) key = false := by
  have hche := hkey.checkKey
  simp only [checkKey, hsafe, Bool.not_true, Bool.false_or, Bool.and_eq_true, Bool.not_eq_true'] at hche
  rcases isLive_eq_false_iff.mp hlive with he | hd
  · rw [hb.eq_of_isEmptyBucket v hv he, L.extract_initializedBucket]
    exact hche.1
  · obtain ⟨w, rfl⟩ := hb.eq_of_isMark v hv hd
    rw [L.extract_constructDeletedValue w C.initializedBucket]
    exact hche.2

theorem exists_stop (hb : C.Buckets buckets) (hemp : HasEmptyBucket C buckets)
    (tr : HashTranslator Key T) (key : T) :
    ∃ N < buckets.length, ∃ v, buckets[bucketAt buckets (tr.hash key) N]? = some v ∧
      (C.isEmptyBucket v = true ∨ C.Matches tr key v) ∧
      ∀ n < N, ∀ w, buckets[bucketAt buckets (tr.hash key) n]? = some w →
        C.isEmptyBucket w = false ∧ ¬ C.Matches tr key w := by
  obtain ⟨m, hm, hlen⟩ := hb.length_eq
  obtain ⟨p, v, hv, he⟩ := hemp
  have hp : p < buckets.length := (List.getElem?_eq_some_iff.mp hv).1
  let stops := fun (q : Nat) => ∃ w, buckets[q]? = some w ∧ (C.isEmptyBucket w = true ∨ C.Matches tr key w)
  have hc : Nat.Coprime (probeStep (tr.hash key)) buckets.length := by
    rw [hlen]
    exact coprime_probeStep _ m
  obtain ⟨N, hN, ⟨w, hw, hstop⟩, hbef⟩ := exists_first_slot (tr.hash key).toNat hc (p := stops) hp ⟨v, hv, .inl he⟩
  refine ⟨N, hN, w, hw, hstop, ?_⟩
  intro n hn x hx
  have hnot := hbef n hn
  constructor
  · cases hxe : C.isEmptyBucket x with
    | false => rfl
    | true => exact absurd ⟨x, hx, .inl hxe⟩ hnot
  · intro hmat
    exact hnot ⟨x, hx, .inr hmat⟩

/-- If some entry answers to the key, the bucket at which the loops end does: it cannot be an empty
    one, since the entry is reachable. -/
theorem matches_of_stop (hb : C.Buckets buckets) (hkey : C.Names tr key)
    (hv : buckets[bucketAt buckets (tr.hash key) N]? = some v)
    (hstop : C.isEmptyBucket v = true ∨ C.Matches tr key v)
    (hbef : ∀ n < N, ∀ w, buckets[bucketAt buckets (tr.hash key) n]? = some w →
      C.isEmptyBucket w = false ∧ ¬ C.Matches tr key w)
    {w : Value} (hw : w ∈ buckets) (hmat : C.Matches tr key w) : C.Matches tr key v := by
  obtain ⟨q, hq⟩ := mem_iff_getElem?.mp hw
  have hrea := hb.reachable hq hmat.1
  rw [hkey.hash_eq (isLive_iff.mp hmat.1) hmat.2] at hrea
  obtain ⟨n, hn, hocc⟩ := hrea
  rcases lt_trichotomy N n with hlt | rfl | hgt
  · obtain ⟨x, hx, hxe⟩ := hocc N hlt
    change buckets[bucketAt buckets (tr.hash key) N]? = some x at hx
    rw [hv] at hx
    cases hx
    rcases hstop with he | hm
    · rw [hxe] at he
      cases he
    · exact hm
  · change bucketAt buckets (tr.hash key) N = q at hn
    rw [hn, hq] at hv
    cases hv
    exact hmat
  · change bucketAt buckets (tr.hash key) n = q at hn
    exact absurd hmat (hbef n hgt w (by rw [hn, hq])).2

/-! ## Looking up -/

theorem visitForLookup_eq (L : C.Lawful) (hb : C.Buckets buckets) (hkey : C.Names tr key)
    (hv : v ∈ buckets) (i : Nat) : (C.Matches tr key v → C.visitForLookup tr key i v () = .error (some i)) ∧
    (¬ C.Matches tr key v → C.isEmptyBucket v = true → C.visitForLookup tr key i v () = .error none) ∧
    (¬ C.Matches tr key v → C.isEmptyBucket v = false → C.visitForLookup tr key i v () = .ok ()) := by
  unfold visitForLookup
  cases hlive : C.isLive v with
  | true =>
    have he := isEmptyBucket_of_isLive hlive
    have hd := isDeletedBucket_of_isLive hlive
    simp [Matches, hlive, he, hd]
  | false =>
    have hnot : ¬ C.Matches tr key v := fun h => by
      rw [h.1] at hlive
      cases hlive
    cases hsafe : C.safeToCompareToEmptyOrDeleted with
    | true =>
      have hne := equal_eq_false_of_not_isLive L hb hkey hsafe hv hlive
      simp only [hnot, hne]
      cases C.isEmptyBucket v <;> simp
    | false =>
      rcases isLive_eq_false_iff.mp hlive with he | hd
      · simp [hnot, he]
      · simp [hnot, isEmptyBucket_of_isMark hd, isDeletedBucket_of_isMark hd]

/-- **`lookup` ends, and finds the entry that answers to the key if there is one.** -/
theorem lookup_spec (L : C.Lawful) (ht : Shape C t) (hemp : HasEmptyBucket C t.contents)
    (hkey : C.Names tr key) : ∃ entry, t.lookup C tr key = some entry ∧
      (∀ p, entry = some p → ∃ v, t.contents[p]? = some v ∧ C.Matches tr key v) ∧
      (entry = none → ∀ v ∈ t.contents, ¬ C.Matches tr key v) := by
  obtain ⟨N, hN, v, hv, hstop, hbef⟩ := exists_stop ht.wf hemp tr key
  have hgo : ∀ n < N, ∀ w, t.contents[bucketAt t.contents (tr.hash key) n]? = some w →
      C.visitForLookup tr key (bucketAt t.contents (tr.hash key) n) w () = .ok () := by
    intro n hn w hw
    obtain ⟨he, hnot⟩ := hbef n hn w hw
    exact (visitForLookup_eq L ht.wf hkey (mem_of_getElem? hw) _).2.2 hnot he
  rw [lookup, ht.table_eq]
  obtain ⟨hyes, hno, -⟩ := visitForLookup_eq L ht.wf hkey (mem_of_getElem? hv)
    (bucketAt t.contents (tr.hash key) N)
  by_cases hmat : C.Matches tr key v
  · refine ⟨some (bucketAt t.contents (tr.hash key) N), ht.probeFrom_eq hN hgo hv (hyes hmat), ?_, nofun⟩
    rintro p ⟨⟩
    exact ⟨v, hv, hmat⟩
  · have he : C.isEmptyBucket v = true := hstop.resolve_right hmat
    refine ⟨none, ht.probeFrom_eq hN hgo hv (hno hmat he), nofun, fun _ w hw hw' => ?_⟩
    exact hmat (matches_of_stop ht.wf hkey hv hstop hbef hw hw')

/-! ## Looking for a place to write -/

def Free (C : HashTableTraits Key Value) (buckets : List Value) (h : UInt32) (p : Nat) (v : Value) : Prop :=
  buckets[p]? = some v ∧ C.isLive v = false ∧ C.ReachableFrom buckets h p

/-- What a loop that looks for a place to write may answer. -/
def WritingProbeOk (C : HashTableTraits Key Value) (buckets : List Value) (tr : HashTranslator Key T)
    (key : T) : WritingProbe → Prop
  | .found p => ∃ v, buckets[p]? = some v ∧ C.Matches tr key v
  | .vacant p deleted =>
    (∀ v ∈ buckets, ¬ C.Matches tr key v) ∧
    (∃ v, Free C buckets (tr.hash key) p v ∧ C.isEmptyBucket v = true) ∧
    ∀ q, deleted = some q → ∃ v, Free C buckets (tr.hash key) q v ∧ C.isMark v = true

theorem visitForWriting_eq (L : C.Lawful) (hb : C.Buckets buckets) (hkey : C.Names tr key)
    (hv : v ∈ buckets) (i : Nat) (d : Option Nat) :
    (C.Matches tr key v → C.visitForWriting tr key i v d = .error (.found i)) ∧
    (C.isEmptyBucket v = true → C.visitForWriting tr key i v d = .error (.vacant i d)) ∧
    (¬ C.Matches tr key v → C.isEmptyBucket v = false →
      C.visitForWriting tr key i v d = .ok (if C.isMark v then some i else d)) := by
  unfold visitForWriting
  cases hlive : C.isLive v with
  | true =>
    have he := isEmptyBucket_of_isLive hlive
    have hd := isDeletedBucket_of_isLive hlive
    have hm := isMark_of_isLive hlive
    simp [Matches, hlive, he, hd, hm]
  | false =>
    have hnot : ¬ C.Matches tr key v := fun h => by
      rw [h.1] at hlive
      cases hlive
    rcases isLive_eq_false_iff.mp hlive with he | hm
    · simp [hnot, he]
    · have he := isEmptyBucket_of_isMark hm
      have hd := isDeletedBucket_of_isMark hm
      cases hsafe : C.safeToCompareToEmptyOrDeleted with
      | true =>
        have hne := equal_eq_false_of_not_isLive L hb hkey hsafe hv hlive
        simp [hnot, he, hd, hm, hne]
      | false => simp [hnot, he, hd, hm]

/-- The deleted bucket met last before bucket `n`. -/
def lastMark (C : HashTableTraits Key Value) (buckets : List Value) (h : UInt32) : Nat → Option Nat
  | 0 => none
  | n + 1 =>
    if (buckets[bucketAt buckets h n]?).any C.isMark then some (bucketAt buckets h n)
    else lastMark C buckets h n

theorem lastMark_eq_some {p : Nat} :
    ∀ {n : Nat}, lastMark C buckets h n = some p →
      ∃ n' < n, bucketAt buckets h n' = p ∧ ∃ v, buckets[p]? = some v ∧ C.isMark v = true
  | 0, hp => by cases hp
  | n + 1, hp => by
    rw [lastMark] at hp
    split_ifs at hp with hmark
    · cases hp
      refine ⟨n, lt_succ_self n, rfl, ?_⟩
      cases hv : buckets[bucketAt buckets h n]? with
      | none =>
        rw [hv] at hmark
        cases hmark
      | some v =>
        rw [hv] at hmark
        exact ⟨v, rfl, hmark⟩
    · obtain ⟨n', hn', hrest⟩ := lastMark_eq_some hp
      exact ⟨n', lt_succ_of_lt hn', hrest⟩

/-- **A loop that looks for a place to write ends**, at the entry that answers to the key or, if
    there is none, at free buckets. -/
theorem probeForWriting_spec (L : C.Lawful) (ht : Shape C t) (hemp : HasEmptyBucket C t.contents)
    (hkey : C.Names tr key) : ∃ result, t.probeFrom (C.visitForWriting tr key) (tr.hash key) none = some result ∧
      WritingProbeOk C t.contents tr key result := by
  obtain ⟨N, hN, v, hv, hstop, hbef⟩ := exists_stop ht.wf hemp tr key
  have hgo : ∀ n < N, ∀ w, t.contents[bucketAt t.contents (tr.hash key) n]? = some w →
      C.visitForWriting tr key (bucketAt t.contents (tr.hash key) n) w
        (lastMark C t.contents (tr.hash key) n) = .ok (lastMark C t.contents (tr.hash key) (n + 1)) := by
    intro n hn w hw
    obtain ⟨he, hnot⟩ := hbef n hn w hw
    rw [(visitForWriting_eq L ht.wf hkey (mem_of_getElem? hw) _ _).2.2 hnot he, lastMark, hw]
    rfl
  have hocc : ∀ n < N, C.Occupied t.contents (bucketAt t.contents (tr.hash key) n) := by
    obtain ⟨m, -, hlen⟩ := ht.wf.length_eq
    intro n hn
    have hin : bucketAt t.contents (tr.hash key) n < t.contents.length :=
      slot_lt (by rw [hlen]; exact Nat.two_pow_pos m) _ _ _
    exact ⟨_, List.getElem?_eq_getElem hin, (hbef n hn _ (List.getElem?_eq_getElem hin)).1⟩
  obtain ⟨hyes, hno, -⟩ := visitForWriting_eq L ht.wf hkey (mem_of_getElem? hv) (bucketAt t.contents (tr.hash key) N)
    (lastMark C t.contents (tr.hash key) N)
  by_cases hmat : C.Matches tr key v
  · exact ⟨.found (bucketAt t.contents (tr.hash key) N), ht.probeFrom_eq hN hgo hv (hyes hmat), v, hv, hmat⟩
  · have he : C.isEmptyBucket v = true := hstop.resolve_right hmat
    refine ⟨.vacant (bucketAt t.contents (tr.hash key) N) (lastMark C t.contents (tr.hash key) N),
      ht.probeFrom_eq hN hgo hv (hno he), ?_, ?_, ?_⟩
    · intro w hw hw'
      exact hmat (matches_of_stop ht.wf hkey hv hstop hbef hw hw')
    · exact ⟨v, ⟨hv, isLive_of_isEmptyBucket he, N, rfl, hocc⟩, he⟩
    · intro q hq
      obtain ⟨n, hn, hat, w, hw, hmark⟩ := lastMark_eq_some hq
      exact ⟨w, ⟨hw, isLive_of_isMark hmark, n, hat, fun n' hn' => hocc n' (hn'.trans hn)⟩, hmark⟩

end HashTable

end WebV8
