import WebV8.WTF.HashTableRehash

/-!
# The operations of `HashTable`

One specification for each operation: from a table in order it succeeds, leaves a table in order,
and the entries afterwards are the ones the operation is meant to leave.

The products of the counters are `int`s. The largest table has `2 ^ 30` buckets, and there the
operations have a limit: `AddFits`, `RemoveFits` and `RemoveIfFits` say that a product that an
operation computes does not leave the range of an `int`. Smaller tables have no limit.
-/

namespace WebV8

open Lib HashTableTraits List Option

variable {Key Value T Extra : Type} (t : HashTable Value)

namespace HashTable

variable {C : HashTableTraits Key Value} {t : HashTable Value}
  {tr : HashTranslator Key T} {key : T}

/-! ## Adding -/

/-- The largest number of buckets of which an `int` can hold the number. -/
def maximumTableSize : Nat := 2 ^ 30

/-- A table of the largest size is not expanded by one more entry. -/
def HasRoom (t : HashTable Value) : Prop :=
  t.tableSize = maximumTableSize → 2 * (t.keyCount + t.deletedCount + 1) < maximumTableSize

/-- Adding the key does not expand a table of the largest size: there is room, or the key is there,
    or it goes into a deleted bucket. -/
def AddFits (C : HashTableTraits Key Value) (t : HashTable Value) (tr : HashTranslator Key T)
    (key : T) : Prop :=
  t.HasRoom ∨ ∃ entry found, t.lookupForWriting C tr key = some (entry, found) ∧
    (found = true ∨ (t.at? entry).any C.isDeletedBucket = true)

/-- What a call of `add` with a new value `v` leaves and answers. -/
structure Added (C : HashTableTraits Key Value) (before : List Value) (tr : HashTranslator Key T)
    (key : T) (v : Value) (after : List Value) (r : HashTableAddResult) : Prop where
  isMark_le : after.countP C.isMark ≤ before.countP C.isMark
  outcome :
    (∃ w, C.Stores before w ∧ C.Matches tr key w ∧ after[r.iterator]? = some w ∧
      r.isNewEntry = false ∧ (∀ x, C.Stores after x ↔ C.Stores before x) ∧
      after.countP C.isLive = before.countP C.isLive) ∨
    ((∀ w, C.Stores before w → ¬ C.Matches tr key w) ∧ after[r.iterator]? = some v ∧
      r.isNewEntry = true ∧ (∀ x, C.Stores after x ↔ x = v ∨ C.Stores before x) ∧
      after.countP C.isLive = before.countP C.isLive + 1)

theorem shouldExpand_eq (ht : Counted C t)
    (hload : LoadNearlyOk t.contents.length (t.contents.countP C.isLive + t.contents.countP C.isMark)) :
    t.shouldExpand =
      decide (t.contents.length ≤ 2 * (t.contents.countP C.isLive + t.contents.countP C.isMark)) := by
  have hle := ht.length_le
  unfold LoadNearlyOk at hload
  rw [shouldExpand, ht.keyCount_eq, ht.deletedCount_eq, ht.tableSize_eq, maxLoad, wrapInt_eq (by omega) (by omega)]
  apply decide_eq_decide.mpr
  omega

variable (L : C.Lawful) {v : Value} {p : Nat}
include L

/-- **The end of `add`**: with the entry written and counted, expanding keeps it. -/
theorem finishAdd_spec (ht : Counted C { t with keyCount := t.keyCount + 1 })
    (hload : LoadNearlyOk t.contents.length (t.contents.countP C.isLive + t.contents.countP C.isMark))
    (hroom : t.contents.length = maximumTableSize →
      2 * (t.contents.countP C.isLive + t.contents.countP C.isMark) < t.contents.length)
    (hp : t.contents[p]? = some v) (hv : C.isLive v = true) :
    ∃ t' r, t.finishAdd C p = some (t', r) ∧ Holds C t' ∧ r.isNewEntry = true ∧
      t'.contents[r.iterator]? = some v ∧ (∀ x, C.Stores t'.contents x ↔ C.Stores t.contents x) ∧
      t'.contents.countP C.isLive = t.contents.countP C.isLive ∧
      t'.contents.countP C.isMark ≤ t.contents.countP C.isMark := by
  have hexpa := shouldExpand_eq ht hload
  rw [finishAdd]
  simp only [hexpa, decide_eq_true_eq]
  split_ifs with hexp
  · change t.contents.length ≤ 2 * (t.contents.countP C.isLive + t.contents.countP C.isMark) at hexp
    have hsize : t.contents.length < 2 ^ 30 := by
      have hle : t.contents.length ≤ 2 ^ 30 := ht.length_le
      have hne : t.contents.length ≠ 2 ^ 30 := fun h => absurd (hroom h) (by omega)
      omega
    obtain ⟨t', e, hrun, hhol, hres⟩ := expand_spec L ht hload hsize (some p)
    obtain ⟨q, rfl, hq⟩ := hres.follows p v rfl hp hv
    refine ⟨t', ⟨q, true⟩, ?_, hhol, rfl, hq, hres.stores, hres.isLive_eq, ?_⟩
    · rw [hrun]
      rfl
    · rw [hres.isMark_eq]
      exact Nat.zero_le _
  · exact ⟨_, ⟨p, true⟩, rfl, ⟨ht, .inl (Nat.lt_of_not_le hexp)⟩, rfl, hp, fun _ => Iff.rfl, rfl, le_rfl⟩

theorem allocateIfNull_spec (hok : Ok C t) :
    ∃ t', t.allocateIfNull C = some t' ∧ Holds C t' ∧ (∀ v, C.Stores t'.contents v ↔ C.Stores t.contents v) ∧
      t'.contents.countP C.isLive = t.contents.countP C.isLive ∧
      t'.contents.countP C.isMark = t.contents.countP C.isMark ∧
      (t' = t ∨ t'.contents.countP C.isLive = 0 ∧ t'.contents.countP C.isMark = 0) := by
  have hapa := hok.pairwise_apart
  have hcnt := hok.keyCount_eq
  rcases hok with ⟨hnull, hsize, -⟩ | hb
  · obtain ⟨m, hm, hmin⟩ := L.minimumTableSize_eq
    have hload : LoadOk (2 ^ m) (t.contents.countP C.isLive) := by
      rw [contents_eq_nil hnull, countP_nil]
      unfold LoadOk
      omega
    obtain ⟨t', e, hrun, hhol, hres⟩ := rehash_spec L hapa hcnt hm hmin.le hload none
    have hlive := hres.isLive_eq
    rw [contents_eq_nil hnull] at hlive ⊢
    refine ⟨t', ?_, hhol, fun v => contents_eq_nil hnull ▸ hres.stores v, hlive, hres.isMark_eq,
      .inr ⟨hlive, hres.isMark_eq⟩⟩
    rw [allocateIfNull, hnull, expand, hsize]
    simp only [beq_self_eq_true, if_true]
    rw [hmin, hrun]
    rfl
  · exact ⟨t, by rw [allocateIfNull, hb.table_eq], hb, fun _ => Iff.rfl, rfl, rfl, .inl rfl⟩

/-- Writing a new entry into a free bucket, with the counters as `add` leaves them before it counts
    the entry. -/
theorem Holds.write_counted (h : Holds C t) {old : Value}
    (hfree : Free C t.contents (C.hash (C.extract v)) p old) (hv : C.isLive v = true)
    (hnew : ∀ w ∈ t.contents, C.Apart v w) {deleted : Int}
    (hdel : deleted = t.deletedCount - if C.isMark old then 1 else 0) :
    Counted C { ({ t with deletedCount := deleted } : HashTable Value).write p v with
        keyCount := t.keyCount + 1 } := by
  have hsha := h.toShape.write (h.wf.insert L hfree hv hnew)
  obtain ⟨hlive, hmark⟩ := countP_insert hfree.1 hfree.2.1 hv
  have hcon := contents_write t p v
  refine ⟨⟨hsha.table_eq, hsha.tableSize_eq, hsha.tableSizeMask_eq, hsha.wf⟩, ?_, ?_, ?_⟩
  · change _ ≤ (t.write p v).contents.length
    rw [hcon, length_set]
    exact h.minimum_le
  · change t.keyCount + 1 = ((t.write p v).contents.countP C.isLive : Int)
    rw [h.keyCount_eq, hcon, hlive]
    rfl
  · change deleted = ((t.write p v).contents.countP C.isMark : Int)
    rw [hdel, h.deletedCount_eq, hcon, ← hmark]
    split_ifs <;> push_cast <;> ring

theorem AddFits.hasRoom (hfits : AddFits C t tr key)
    (hpro : t.probeFrom (C.visitForWriting tr key) (tr.hash key) none = some (.vacant p none))
    (hp : t.contents[p]? = some C.initializedBucket) : t.HasRoom := by
  rcases hfits with hroom | ⟨e, f, hloo, hor⟩
  · exact hroom
  · -- the bucket of `lookupForWriting` is this one, and neither the key's nor deleted
    rw [lookupForWriting, hpro] at hloo
    cases hloo
    rcases hor with hfou | hdel
    · cases hfou
    · rw [at?_eq] at hdel
      change (t.contents[p]?).any C.isDeletedBucket = true at hdel
      rw [hp, any_some, L.isDeletedBucket_initializedBucket] at hdel
      cases hdel

omit L in
/-- A key that is not in the table is apart from the entries. -/
theorem apart_of_not_matches (hkey : C.Names tr key) (heql : tr.equal (C.extract v) key = true)
    {buckets : List Value} (hno : ∀ w ∈ buckets, ¬ C.Matches tr key w) : ∀ w ∈ buckets, C.Apart v w := by
  intro w hw hv hlive
  refine Bool.eq_false_iff.mpr fun heq => hno w hw ⟨hlive, ?_⟩
  exact (hkey.equal_iff (isLive_iff.mp hv) (isLive_iff.mp hlive) heql).mpr heq

/-- **`add`**: the key is found, or the new entry is stored; either way the answer denotes the entry
    of the key. -/
theorem add_spec (hok : Ok C t) (hkey : C.Names tr key)
    (translate : Value → T → Extra → Value) (extra : Extra)
    (hval : translate C.initializedBucket key extra = v) (hv : C.isLive v = true)
    (heql : tr.equal (C.extract v) key = true) (hfits : AddFits C t tr key) :
    ∃ t' r, t.add C tr translate key extra = some (t', r) ∧ Holds C t' ∧
      Added C t.contents tr key v t'.contents r := by
  obtain ⟨t₀, hall, hhol, hsts, hlive₀, hmark₀, hcase⟩ := allocateIfNull_spec L hok
  have hfits₀ : AddFits C t₀ tr key := by
    rcases hcase with rfl | ⟨hl, hm⟩
    · exact hfits
    · left
      intro _
      rw [hhol.keyCount_eq, hhol.deletedCount_eq, hl, hm]
      decide
  obtain ⟨result, hpro, hres⟩ := probeForWriting_spec L hhol.toShape hhol.hasEmptyBucket hkey
  have hhash : C.hash (C.extract v) = tr.hash key := hkey.hash_eq (isLive_iff.mp hv) heql
  rw [add, hall]
  simp only [bind_eq_bind, bind_some, hpro]
  cases result with
  | found p =>
    obtain ⟨w, hw, hmat⟩ := hres
    refine ⟨t₀, ⟨p, false⟩, rfl, hhol, hmark₀.le, .inl ⟨w, ?_, hmat, hw, rfl, hsts, hlive₀⟩⟩
    exact (hsts w).mp ⟨mem_of_getElem? hw, hmat.1⟩
  | vacant p d =>
    obtain ⟨hno, ⟨w, hfree, hemp⟩, hd⟩ := hres
    have hload := hhol.load
    -- the bucket that is written, and what `finishAdd` gets
    have hfin : ∀ {q : Nat} {old : Value} {deleted : Int}, Free C t₀.contents (tr.hash key) q old →
        deleted = t₀.deletedCount - (if C.isMark old then 1 else 0) →
        (t₀.contents.length = maximumTableSize → C.isMark old = false →
          2 * (t₀.contents.countP C.isLive + t₀.contents.countP C.isMark + 1) < t₀.contents.length) →
        ∃ t' r, (({ t₀ with deletedCount := deleted } : HashTable Value).write q v).finishAdd C q =
          some (t', r) ∧ Holds C t' ∧ Added C t.contents tr key v t'.contents r := by
      intro q old deleted hfree hdel hroom
      rw [← hhash] at hfree
      obtain ⟨hlive, hmark⟩ := countP_insert hfree.1 hfree.2.1 hv
      have hcon : (({ t₀ with deletedCount := deleted } : HashTable Value).write q v).contents =
          t₀.contents.set q v := contents_write _ q v
      unfold LoadOk at hload
      obtain ⟨t', r, hrun, hhol', hnew, hat, hst, hl, hm⟩ := finishAdd_spec L
        (hhol.write_counted L hfree hv (apart_of_not_matches hkey heql hno) hdel)
        (by
          unfold LoadNearlyOk
          rw [hcon, length_set, hlive]
          omega)
        (by
          intro hbig
          rw [hcon, length_set] at hbig ⊢
          rw [hlive]
          cases hold : C.isMark old with
          | true =>
            rw [hold, if_pos rfl] at hmark
            rw [maximumTableSize] at hbig
            omega
          | false =>
            have := hroom hbig hold
            rw [hold] at hmark
            omega)
        (by rw [hcon, getElem?_set_eq hfree.1, if_pos rfl]) hv
      rw [hcon] at hst hl hm
      refine ⟨t', r, hrun, hhol', by omega, .inr ⟨fun x hx => hno x ((hsts x).mpr hx).1, hat, hnew, fun x => ?_, ?_⟩⟩
      · rw [hst, stores_insert hfree.1 hfree.2.1 hv, hsts]
      · rw [hl, hlive, hlive₀]
    cases d with
    | none =>
      have hw : w = C.initializedBucket := hhol.wf.eq_of_isEmptyBucket w (mem_of_getElem? hfree.1) hemp
      have hmark : C.isMark w = false := by rw [isMark, hemp]; rfl
      simp only [at?_eq, hfree.1, bind_some]
      rw [hw, hval]
      apply hfin hfree
      · rw [hmark]
        simp
      · intro hbig _
        have := hfits₀.hasRoom L hpro (hw ▸ hfree.1) (by rw [hhol.tableSize_eq, hbig])
        rw [hhol.keyCount_eq, hhol.deletedCount_eq, ← hbig] at this
        omega
    | some q =>
      obtain ⟨x, hfree', hmark⟩ := hd q rfl
      simp only
      rw [hval]
      apply hfin hfree'
      · rw [if_pos hmark]
      · intro _ hnot
        cases hnot.symm.trans hmark

/-- **`addPassingHashCode`** is `add`: the bucket that it finds and the deleted bucket that `add`
    remembers are the same. -/
theorem addPassingHashCode_eq_add (hok : Ok C t) (hkey : C.Names tr key)
    (translate : Value → T → Extra → UInt32 → Value) (extra : Extra) :
    t.addPassingHashCode C tr translate key extra =
      t.add C tr (fun bucket k x => translate bucket k x (tr.hash key)) key extra := by
  obtain ⟨t₀, hall, hhol, -⟩ := allocateIfNull_spec L hok
  obtain ⟨result, hpro, hres⟩ := probeForWriting_spec L hhol.toShape hhol.hasEmptyBucket hkey
  rw [addPassingHashCode, add, hall]
  simp only [bind_eq_bind, bind_some, hpro, fullLookupForWriting]
  cases result with
  | found p => rfl
  | vacant p d =>
    obtain ⟨-, ⟨w, hfree, hemp⟩, hd⟩ := hres
    cases d with
    | none =>
      have hw : w = C.initializedBucket := hhol.wf.eq_of_isEmptyBucket w (mem_of_getElem? hfree.1) hemp
      have hnot : C.isDeletedBucket w = false := by
        rw [hw]
        exact L.isDeletedBucket_initializedBucket
      simp [WritingProbe.lookup, at?_eq, hfree.1, hnot]
    | some q =>
      obtain ⟨x, hfree', hmark⟩ := hd q rfl
      simp [WritingProbe.lookup, at?_eq, hfree'.1, isDeletedBucket_of_isMark hmark]

/-! ## Finding -/

theorem Ok.lookup_spec (hok : Ok C t) (hkey : C.Names tr key) : ∃ entry, t.lookup C tr key = some entry ∧
      (∀ p, entry = some p → ∃ v, t.contents[p]? = some v ∧ C.Matches tr key v) ∧
      (entry = none → ∀ v ∈ t.contents, ¬ C.Matches tr key v) := by
  rcases hok with ⟨hnull, -, -⟩ | hb
  · refine ⟨none, by rw [lookup, hnull], by simp, fun _ => ?_⟩
    rw [contents_eq_nil hnull]
    simp
  · exact HashTable.lookup_spec L hb.toShape hb.hasEmptyBucket hkey

omit L in
theorem find_eq (tr : HashTranslator Key T) (key : T) :
    t.find C tr key = (t.lookup C tr key).map fun entry => entry.getD t.endPosition := by
  rw [find]
  cases htab : t.table with
  | none => rw [lookup, htab]; rfl
  | some _ => exact map_eq_bind.symm

omit L in
theorem contains_eq (tr : HashTranslator Key T) (key : T) :
    t.contains C tr key = (t.lookup C tr key).map Option.isSome := by
  rw [contains]
  cases htab : t.table with
  | none => rw [lookup, htab]; rfl
  | some _ => exact map_eq_bind.symm

/-- **`find`** ends, at the entry of the key or at the end. -/
theorem find_spec (hok : Ok C t) (hkey : C.Names tr key) : ∃ p, t.find C tr key = some p ∧
      ((∃ v, t.contents[p]? = some v ∧ C.Matches tr key v) ∨
        (p = t.endPosition ∧ ∀ v, C.Stores t.contents v → ¬ C.Matches tr key v)) := by
  obtain ⟨entry, hloo, hsome, hnone⟩ := hok.lookup_spec L hkey
  refine ⟨entry.getD t.endPosition, by rw [find_eq, hloo]; rfl, ?_⟩
  cases entry with
  | some p => exact .inl (hsome p rfl)
  | none => exact .inr ⟨rfl, fun v hv => hnone rfl v hv.1⟩

/-- **`contains`** tells whether there is an entry of the key. -/
theorem contains_spec (hok : Ok C t) (hkey : C.Names tr key) :
    ∃ answer, t.contains C tr key = some answer ∧
      (answer = true ↔ ∃ v, C.Stores t.contents v ∧ C.Matches tr key v) := by
  obtain ⟨entry, hloo, hsome, hnone⟩ := hok.lookup_spec L hkey
  refine ⟨entry.isSome, by rw [contains_eq, hloo]; rfl, ?_⟩
  cases entry with
  | some p =>
    obtain ⟨v, hv, hmat⟩ := hsome p rfl
    exact iff_of_true rfl ⟨v, ⟨mem_of_getElem? hv, hmat.1⟩, hmat⟩
  | none =>
    refine iff_of_false Bool.false_ne_true ?_
    rintro ⟨v, hv, hmat⟩
    exact hnone rfl v hv.1 hmat

/-! ## Removing -/

/-- The number of entries that are left times `m_minLoad` is in the range of an `int`. -/
def SparseFits (t : HashTable Value) (left : Int) : Prop :=
  t.tableSize = maximumTableSize → left * minLoad < 2 ^ 31

def RemoveFits (C : HashTableTraits Key Value) (t : HashTable Value) (key : Key) : Prop :=
  t.contains C C.identityTranslator key = some false ∨ t.SparseFits (t.keyCount - 1)

def RemoveIfFits (C : HashTableTraits Key Value) (t : HashTable Value) (functor : Value → Bool) : Prop :=
  t.SparseFits (t.contents.countP fun v => C.isLive v && !functor v)

omit L in
theorem minLoad_mul_lt (hb : Holds C t) (hfits : t.SparseFits (t.contents.countP C.isLive)) :
    (t.contents.countP C.isLive : Int) * minLoad < 2 ^ 31 := by
  by_cases hbig : t.tableSize = maximumTableSize
  · exact hfits hbig
  · -- a smaller table has at most half as many buckets, and half of them hold no entry
    obtain ⟨m, hm, hlen⟩ := hb.wf.length_eq
    have hne : m ≠ 30 := fun h => hbig (by rw [hb.tableSize_eq, hlen, h]; rfl)
    have hle : t.contents.length ≤ 2 ^ 29 := by
      rw [hlen]
      exact Nat.pow_le_pow_right (by decide) (by omega)
    have hload := hb.load
    unfold LoadOk at hload
    rw [minLoad]
    omega

/-- **`shrink`** if there are few entries: the same entries in fewer buckets. -/
theorem shrinkIfSparse_spec (hb : Holds C t) (hfits : t.SparseFits (t.contents.countP C.isLive)) :
    ∃ t', t.shrinkIfSparse C = some t' ∧ Holds C t' ∧ ∀ v, C.Stores t'.contents v ↔ C.Stores t.contents v := by
  obtain ⟨m, hm, hlen⟩ := hb.wf.length_eq
  have hsho : t.shouldShrink C = (decide (6 * t.contents.countP C.isLive < t.contents.length) &&
      decide (C.minimumTableSize < t.contents.length)) := by
    have hlt := minLoad_mul_lt hb hfits
    rw [minLoad] at hlt
    rw [shouldShrink, hb.keyCount_eq, hb.tableSize_eq, minLoad, wrapInt_eq (by omega) (by omega)]
    congr 1
    apply decide_eq_decide.mpr
    omega
  rw [shrinkIfSparse, hsho]
  split_ifs with hshr
  · simp only [Bool.and_eq_true, decide_eq_true_eq] at hshr
    obtain ⟨hspa, hmin⟩ := hshr
    obtain ⟨k, hk, hkmin⟩ := L.minimumTableSize_eq
    rw [hkmin, hlen] at hmin
    have hkm : k + 1 ≤ m := two_pow_lt hmin
    obtain ⟨n, rfl⟩ : ∃ n, m = n + 1 := ⟨m - 1, by omega⟩
    have hhalf : t.tableSize / 2 = 2 ^ n := by
      rw [hb.tableSize_eq, hlen, pow_succ, Nat.mul_div_cancel _ (by decide)]
    have hload : LoadOk (2 ^ n) (t.contents.countP C.isLive) := by
      rw [hlen, pow_succ] at hspa
      unfold LoadOk
      omega
    obtain ⟨t', e, hrun, hhol, hres⟩ := rehash_spec L hb.wf.pairwise_apart hb.keyCount_eq (m := n) (by omega)
      (by rw [hkmin]; exact Nat.pow_le_pow_right (by decide) (by omega)) hload none
    refine ⟨t', ?_, hhol, hres.stores⟩
    rw [shrink, hhalf, hrun]
    rfl
  · exact ⟨t, rfl, hb, fun _ => Iff.rfl⟩

theorem Holds.deleteEntry (hb : Holds C t)
    (hp : t.contents[p]? = some v) (hv : C.isLive v = true) : Holds C (t.deleteEntry C p v) ∧
      (t.deleteEntry C p v).contents = t.contents.set p (C.deleteBucket v) ∧
      (t.deleteEntry C p v).contents.countP C.isLive + 1 = t.contents.countP C.isLive := by
  have hmark := L.isMark_deleteBucket v
  have hsha := hb.toShape.write (hb.wf.delete L hp)
  have hlive := countP_set_add (f := C.isLive) hp (C.deleteBucket v)
  have hmar := countP_set_add (f := C.isMark) hp (C.deleteBucket v)
  simp only [hv, isLive_of_isMark hmark, hmark, isMark_of_isLive hv, if_true, Bool.false_eq_true, if_false,
    Nat.add_zero] at hlive hmar
  have hcon : (t.deleteEntry C p v).contents = t.contents.set p (C.deleteBucket v) := contents_write t p _
  rw [← hcon] at hlive hmar
  have hlen : (t.deleteEntry C p v).contents.length = t.contents.length := by rw [hcon, length_set]
  refine ⟨⟨⟨⟨hsha.table_eq, hsha.tableSize_eq, hsha.tableSizeMask_eq, hsha.wf⟩, ?_, ?_, ?_⟩, ?_⟩, hcon, hlive⟩
  · exact hb.minimum_le.trans hlen.ge
  · change t.keyCount - 1 = _
    rw [hb.keyCount_eq, ← hlive]
    push_cast
    ring
  · change t.deletedCount + 1 = _
    rw [hb.deletedCount_eq, hmar]
    push_cast
    ring
  · have hload := hb.load
    unfold LoadOk at hload ⊢
    omega

/-- **`remove`**: the entries are those with another key. -/
theorem remove_spec (hok : Ok C t) {key : Key} (hkey : C.IsLiveKey key)
    (hfits : RemoveFits C t key) : ∃ t', t.remove C key = some t' ∧ Ok C t' ∧
      ∀ v, C.Stores t'.contents v ↔ C.Stores t.contents v ∧ C.equal (C.extract v) key = false := by
  have hnam := L.names_identity hkey
  obtain ⟨p, hfind, hp⟩ := find_spec L hok hnam
  rw [remove, hfind]
  simp only [bind_eq_bind, bind_some, removeIterator]
  rcases hp with ⟨v, hv, hlive, heql⟩ | ⟨rfl, hnone⟩
  · have hspa : t.SparseFits (t.keyCount - 1) := by
      rcases hfits with habs | hfits
      · obtain ⟨answer, hans, hiff⟩ := contains_spec L hok hnam
        rw [habs] at hans
        cases hans
        exact nomatch hiff.mpr ⟨v, ⟨mem_of_getElem? hv, hlive⟩, hlive, heql⟩
      · exact hfits
    rcases hok with ⟨hnull, -, -⟩ | hb
    · rw [contents_eq_nil hnull] at hv
      cases hv
    · have hlt : p < t.contents.length := (List.getElem?_eq_some_iff.mp hv).1
      have hne : (p == t.endPosition) = false := by
        rw [endPosition, hb.tableSize_eq, beq_eq_false_iff_ne]
        omega
      obtain ⟨hdel, hcon, hcnt⟩ := hb.deleteEntry L hv hlive
      obtain ⟨t', hshr, hhol, hsts⟩ := shrinkIfSparse_spec L hdel (by
        rw [hb.keyCount_eq, ← hcnt, Nat.cast_succ, add_sub_cancel_right] at hspa
        exact hspa)
      refine ⟨t', ?_, .inr hhol, ?_⟩
      · rw [hne, if_neg Bool.false_ne_true, removeAt, at?_eq, hv]
        exact hshr
      · intro w
        rw [hsts, hcon, stores_delete L hb.wf hv hlive]
        apply and_congr_right
        rintro ⟨-, hw⟩
        have hiff := hnam.equal_iff (isLive_iff.mp hlive) (isLive_iff.mp hw) heql
        rw [Bool.eq_false_iff, Bool.eq_false_iff, ne_eq, ne_eq, not_iff_not]
        exact hiff.symm
  · refine ⟨t, if_pos (beq_self_eq_true _), hok, fun w => ⟨fun hw => ⟨hw, ?_⟩, And.left⟩⟩
    exact Bool.eq_false_iff.mpr fun heql => hnone w hw ⟨hw.2, heql⟩

/-- What `removeIf` makes of one bucket. -/
def removedBucket (C : HashTableTraits Key Value) (functor : Value → Bool) (v : Value) : Value :=
  if C.isLive v && functor v then C.deleteBucket v else v

/-- **The loop of `removeIf`** has treated the buckets from `i` on; it treats those below. -/
theorem removeIfLoop_spec (functor : Value → Bool) :
    ∀ (i : Nat) (t : HashTable Value), Holds C t → i ≤ t.contents.length →
      ∃ t', removeIfLoop C functor i t = some t' ∧ t'.tableSize = t.tableSize ∧ Holds C t' ∧
        t'.contents = (t.contents.take i).map (removedBucket C functor) ++ t.contents.drop i := by
  intro i
  induction i with
  | zero =>
    intro t hb _
    exact ⟨t, rfl, rfl, hb, rfl⟩
  | succ i ih =>
    intro t hb hlt
    have hget : t.contents[i]? = some t.contents[i] := List.getElem?_eq_getElem hlt
    obtain ⟨t₁, hloop, hsize, hhol, hcon⟩ : ∃ t₁, removeIfLoop C functor (i + 1) t = removeIfLoop C functor i t₁ ∧
        t₁.tableSize = t.tableSize ∧ Holds C t₁ ∧
        t₁.contents = t.contents.set i (removedBucket C functor t.contents[i]) := by
      rw [removeIfLoop, at?_eq, hget, removedBucket]
      cases hlive : C.isLive t.contents[i] with
      | false =>
        have hskip : C.isEmptyOrDeletedBucket t.contents[i] = true := by simpa [isLive] using hlive
        exact ⟨t, if_pos hskip, rfl, hb, (set_getElem_self hlt).symm⟩
      | true =>
        have hkeep : ¬ C.isEmptyOrDeletedBucket t.contents[i] = true := by simpa [isLive] using hlive
        rw [bind_eq_bind, bind_some, if_neg hkeep]
        cases functor t.contents[i] with
        | false => exact ⟨t, rfl, rfl, hb, (set_getElem_self hlt).symm⟩
        | true =>
          obtain ⟨hdel, hset, -⟩ := hb.deleteEntry L hget hlive
          exact ⟨_, rfl, rfl, hdel, hset⟩
    obtain ⟨t', hrun, hsize', hhol', hcon'⟩ := ih t₁ hhol (by rw [hcon, length_set]; omega)
    refine ⟨t', hloop.trans hrun, hsize'.trans hsize, hhol', ?_⟩
    rw [hcon', hcon, take_set_of_le le_rfl, drop_set, if_neg (Nat.lt_irrefl i), Nat.sub_self,
      drop_eq_getElem_cons hlt, set_cons_zero, take_succ_eq_append_getElem hlt, map_append,
      append_assoc]
    rfl

theorem isLive_removedBucket (functor : Value → Bool) (v : Value) :
    C.isLive (removedBucket C functor v) = (C.isLive v && !functor v) := by
  rw [removedBucket]
  split_ifs with h
  · rw [isLive_of_isMark (L.isMark_deleteBucket v)]
    simp only [Bool.and_eq_true] at h
    rw [h.1, h.2]
    rfl
  · cases hl : C.isLive v <;> cases hf : functor v <;> simp_all

/-- **`removeIf`**: the entries are those the functor rejects. -/
theorem removeIf_spec (hok : Ok C t) (functor : Value → Bool) (hfits : RemoveIfFits C t functor) :
    ∃ t', t.removeIf C functor = some t' ∧ Ok C t' ∧
      ∀ v, C.Stores t'.contents v ↔ C.Stores t.contents v ∧ functor v = false := by
  rcases hok with ⟨hnull, hsize, hcnt⟩ | hb
  · have hshr : t.shouldShrink C = false := by
      rw [shouldShrink, hsize, hcnt]
      rfl
    refine ⟨t, ?_, .inl ⟨hnull, hsize, hcnt⟩, ?_⟩
    · rw [removeIf, hsize]
      simp [removeIfLoop, shrinkIfSparse, hshr]
    · simp [contents_eq_nil hnull, Stores]
  · obtain ⟨t₁, hrun, hsize, hhol, hcon⟩ := removeIfLoop_spec L functor t.contents.length t hb le_rfl
    rw [take_length, drop_length, append_nil] at hcon
    have hcnt : t₁.contents.countP C.isLive = t.contents.countP fun v => C.isLive v && !functor v := by
      rw [hcon, countP_map]
      apply countP_congr
      intro v _
      rw [Function.comp_apply, isLive_removedBucket L]
    obtain ⟨t', hshr, hhol', hsts⟩ := shrinkIfSparse_spec L hhol (by
      intro hbig
      rw [hcnt]
      exact hfits (by rw [← hsize, hbig]))
    refine ⟨t', ?_, .inr hhol', fun v => ?_⟩
    · rw [removeIf, hb.tableSize_eq, hrun]
      exact hshr
    · rw [hsts, hcon, Stores, Stores, List.mem_map]
      constructor
      · rintro ⟨⟨w, hw, rfl⟩, hlive⟩
        rw [isLive_removedBucket L, Bool.and_eq_true, Bool.not_eq_true'] at hlive
        have hsame : removedBucket C functor w = w := by simp [removedBucket, hlive.2]
        rw [hsame]
        exact ⟨⟨hw, hlive.1⟩, hlive.2⟩
      · rintro ⟨⟨hv, hlive⟩, hfun⟩
        have hsame : removedBucket C functor v = v := by simp [removedBucket, hfun]
        exact ⟨⟨v, hv, hsame⟩, hlive⟩

omit L

theorem clear_spec (hok : Ok C t) : Ok C t.clear ∧ ∀ v, ¬ C.Stores t.clear.contents v := by
  rw [clear]
  rcases hok with ⟨hnull, hsize, hcnt⟩ | hb
  · rw [hnull]
    exact ⟨.inl ⟨hnull, hsize, hcnt⟩, by simp [contents_eq_nil hnull, Stores]⟩
  · rw [hb.table_eq]
    exact ⟨.inl ⟨rfl, rfl, rfl⟩, by simp [contents, Stores]⟩

/-! ## Iterating and copying -/

theorem iterateFrom_skipEmptyBuckets (C : HashTableTraits Key Value) (buckets : List Value) :
    ∀ n p, p + n = buckets.length →
      (iterateFrom C buckets (skipEmptyBuckets C buckets p buckets.length) buckets.length).map
        (fun q => buckets[q]?) = ((buckets.drop p).filter C.isLive).map some := by
  intro n
  induction n with
  | zero =>
    intro p hp
    have hnot : ¬ p < buckets.length := by omega
    rw [skipEmptyBuckets, if_neg hnot, iterateFrom, if_neg hnot, drop_of_length_le (by omega)]
    rfl
  | succ n ih =>
    intro p hp
    have hlt : p < buckets.length := by omega
    have hget : buckets[p]? = some buckets[p] := List.getElem?_eq_getElem hlt
    rw [skipEmptyBuckets, if_pos hlt, hget, drop_eq_getElem_cons hlt]
    simp only
    split_ifs with hskip
    · rw [ih (p + 1) (by omega), filter_cons_of_neg (by simp [isLive, hskip])]
    · rw [iterateFrom, if_pos hlt, map_cons, ih (p + 1) (by omega),
        filter_cons_of_pos (by simp [isLive, hskip]), map_cons, hget]

/-- **A loop over the table** visits its entries, each once. -/
theorem iterate_spec (hok : Ok C t) : (t.iterate C).map t.at? = (t.contents.filter C.isLive).map some := by
  have hcnt := hok.keyCount_eq
  rcases hok with ⟨hnull, hsize, hzero⟩ | hb
  · rw [iterate, begin, isEmpty, hzero, contents_eq_nil hnull, endPosition, hsize]
    simp [iterateFrom]
  · have hat : t.at? = fun q => t.contents[q]? := funext (at?_eq t)
    rw [iterate, begin, ← contents, hat, endPosition, hb.tableSize_eq]
    split_ifs with hemp
    · have hzero : t.contents.countP C.isLive = 0 := by
        rw [isEmpty, beq_iff_eq, hcnt] at hemp
        exact_mod_cast hemp
      rw [iterateFrom, if_neg (Nat.lt_irrefl _), filter_eq_nil_iff.mpr]
      · rfl
      · intro v hv hlive
        exact absurd hlive (by simpa using countP_eq_zero.mp hzero v hv)
    · rw [iterateFrom_skipEmptyBuckets C t.contents t.contents.length 0 (Nat.zero_add _), drop_zero]

theorem filterMap_iterate (hok : Ok C t) : (t.iterate C).filterMap t.at? = t.contents.filter C.isLive := by
  have h := congrArg (List.filterMap id) (iterate_spec hok)
  simpa [filterMap_map, Function.comp_def] using h

theorem AddFits.of_lt (hok : Ok C t) (hmar : t.contents.countP C.isMark = 0)
    (hroom : 2 * (t.contents.countP C.isLive + 1) < maximumTableSize) : AddFits C t tr key := by
  left
  intro hbig
  rcases hok with ⟨-, hsize, -⟩ | hb
  · rw [hsize] at hbig
    cases hbig
  · rw [hb.keyCount_eq, hb.deletedCount_eq, hmar]
    push_cast
    omega

theorem addEach_spec (L : C.Lawful) :
    ∀ (values : List Value) (t : HashTable Value), Ok C t → t.contents.countP C.isMark = 0 →
      (∀ v ∈ values, C.isLive v = true) → values.Pairwise C.Apart → (∀ v ∈ values, ∀ w ∈ t.contents, C.Apart v w) →
      2 * (t.contents.countP C.isLive + values.length) < maximumTableSize →
      ∃ t', addEach C values t = some t' ∧ Ok C t' ∧
        (∀ v, C.Stores t'.contents v ↔ C.Stores t.contents v ∨ v ∈ values) ∧
        t'.contents.countP C.isLive = t.contents.countP C.isLive + values.length ∧ t'.contents.countP C.isMark = 0 := by
  intro values
  induction values with
  | nil =>
    intro t hok hmar _ _ _ _
    exact ⟨t, rfl, hok, by simp, rfl, hmar⟩
  | cons v values ih =>
    intro t hok hmar hliv hpair hapa hroom
    rw [pairwise_cons] at hpair
    rw [length_cons] at hroom ⊢
    obtain ⟨hv, hliv⟩ := forall_mem_cons.mp hliv
    obtain ⟨happ, hapa⟩ := forall_mem_cons.mp hapa
    have hkey := isLive_iff.mp hv
    obtain ⟨t₁, r, hadd, hhol, hadde⟩ := add_spec L hok (L.names_identity hkey)
      (fun _ _ value => value) v rfl hv (L.equal_refl hkey) (.of_lt hok hmar (by omega))
    rcases hadde.outcome with ⟨w, hw, hmat, -⟩ | ⟨-, -, -, hsts, hcnt⟩
    · exact nomatch ((happ w hw.1).symm L hw.2 hv).symm.trans hmat.2
    · obtain ⟨t', hrun, hok', hsts', hlive', hmark'⟩ := ih t₁ (.inr hhol)
        (by have := hadde.isMark_le; omega) hliv hpair.2
        (by
          intro u hu w hw hlu hlw
          rcases (hsts w).mp ⟨hw, hlw⟩ with rfl | hw'
          · exact (hpair.1 u hu).symm L hlu hlw
          · exact hapa u hu w hw'.1 hlu hlw)
        (by omega)
      refine ⟨t', ?_, hok', fun x => ?_, by omega, hmark'⟩
      · rw [addEach, addValue, hadd]
        exact hrun
      · rw [hsts', hsts, mem_cons]
        tauto

theorem ok_empty : Ok C (empty : HashTable Value) := .inl ⟨rfl, rfl, rfl⟩

/-- **The copy constructor** makes a table with the same entries. -/
theorem copy_spec (L : C.Lawful) (hok : Ok C t) :
    ∃ t', t.copy C = some t' ∧ Ok C t' ∧ ∀ v, C.Stores t'.contents v ↔ C.Stores t.contents v := by
  have hroom : 2 * (t.contents.filter C.isLive).length < maximumTableSize := by
    rcases hok with ⟨hnull, -, -⟩ | hb
    · rw [contents_eq_nil hnull]
      exact Nat.two_pow_pos 30
    · have hload := hb.load
      have hle := hb.length_le
      rw [← countP_eq_length_filter, maximumTableSize]
      unfold LoadOk at hload
      omega
  obtain ⟨t', hrun, hok', hsts, -⟩ := addEach_spec L (t.contents.filter C.isLive) empty ok_empty rfl
    (fun v hv => (mem_filter.mp hv).2) (hok.pairwise_apart.filter _) (fun _ _ _ => nofun)
    (by
      rw [show (empty : HashTable Value).contents = [] from rfl, countP_nil, Nat.zero_add]
      exact hroom)
  refine ⟨t', by rw [copy, filterMap_iterate hok, hrun], hok', fun v => ?_⟩
  rw [hsts, mem_filter]
  simp [contents, empty, Stores]

end HashTable

end WebV8
