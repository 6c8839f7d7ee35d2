import WebV8.WTF.HashTableProbe

/-!
# Writing, deleting and rehashing

One entry written into a free bucket and one entry deleted keep the invariant of the buckets
(`Buckets.set`). `rehash` moves the entries into new buckets one by one and
loses none of them (`rehash_spec`); the bucket that it was asked to follow is among the new ones.

`Counted` adds to the shape of a table that its two counters are right, and `Holds` that it is at
most half full. `Ok` is the invariant of a table, with or without buckets.
-/

namespace WebV8

open Lib HashTableTraits List Bool Nat

variable {Key Value : Type}

/-! ## Lists -/

theorem countP_set_add {α : Type} {f : α → Bool} {l : List α} {i : Nat} {old : α} (h : l[i]? = some old) (new : α) :
    (l.set i new).countP f + (if f old then 1 else 0) = l.countP f + (if f new then 1 else 0) := by
  obtain ⟨hi, rfl⟩ := List.getElem?_eq_some_iff.mp h
  have hle : (if f l[i] then 1 else 0) ≤ l.countP f := by
    split_ifs with hf
    · exact countP_pos_iff.mpr ⟨l[i], getElem_mem hi, hf⟩
    · exact zero_le _
  rw [countP_set hi]
  omega

theorem getElem?_set_eq {α : Type} {l : List α} {i : Nat} {old : α} (h : l[i]? = some old) (new : α)
    (j : Nat) : (l.set i new)[j]? = if i = j then some new else l[j]? := by
  have hi := (List.getElem?_eq_some_iff.mp h).1
  rw [List.getElem?_set]
  simp [hi]

namespace HashTableTraits

variable {C : HashTableTraits Key Value} {buckets : List Value} {p : Nat} {old v w : Value}

def Stores (C : HashTableTraits Key Value) (buckets : List Value) (v : Value) : Prop :=
  v ∈ buckets ∧ C.isLive v = true

theorem stores_iff_getElem? : C.Stores buckets v ↔ ∃ p : Nat, buckets[p]? = some v ∧ C.isLive v = true := by
  rw [Stores, mem_iff_getElem?]
  exact exists_and_right.symm

theorem Occupied.set (hold : buckets[p]? = some old) (hv : C.isEmptyBucket v = false) {q : Nat}
    (h : C.Occupied buckets q) : C.Occupied (buckets.set p v) q := by
  obtain ⟨w, hw, hne⟩ := h
  rw [Occupied, getElem?_set_eq hold]
  split_ifs
  · exact ⟨v, rfl, hv⟩
  · exact ⟨w, hw, hne⟩

theorem ReachableFrom.set (hold : buckets[p]? = some old) (hv : C.isEmptyBucket v = false)
    {h : UInt32} {q : Nat} (hr : C.ReachableFrom buckets h q) : C.ReachableFrom (buckets.set p v) h q := by
  rw [ReachableFrom, length_set]
  exact Reachable.mono hr fun _ => Occupied.set hold hv

def Apart (C : HashTableTraits Key Value) (v w : Value) : Prop :=
  C.isLive v = true → C.isLive w = true → C.equal (C.extract v) (C.extract w) = false

theorem Apart.symm (L : C.Lawful) (h : C.Apart v w) : C.Apart w v := by
  intro hw hv
  refine eq_false_iff.mpr fun heql => ?_
  have hsymm := L.equal_symm (isLive_iff.mp hw) (isLive_iff.mp hv) heql
  exact nomatch (h hv hw).symm.trans hsymm

/-- A bucket is overwritten, with an entry that can be reached and whose key is new or with a deleted bucket. -/
theorem Buckets.set (L : C.Lawful) (hb : C.Buckets buckets) (hold : buckets[p]? = some old)
    (hne : C.isEmptyBucket v = false) (hmark : C.isMark v = true → ∃ w, v = C.constructDeletedValue w)
    (hrea : C.isLive v = true → C.ReachableFrom buckets (C.hash (C.extract v)) p)
    (hnew : ∀ w ∈ buckets, C.Apart v w) : C.Buckets (buckets.set p v) := by
  refine ⟨by simpa using hb.length_eq, ?_, ?_, ?_, ?_⟩
  · intro w hw he
    rcases mem_or_eq_of_mem_set hw with hw | rfl
    · exact hb.eq_of_isEmptyBucket w hw he
    · exact nomatch hne.symm.trans he
  · intro w hw hm
    rcases mem_or_eq_of_mem_set hw with hw | rfl
    · exact hb.eq_of_isMark w hw hm
    · exact hmark hm
  · intro q w hq hw
    rw [getElem?_set_eq hold] at hq
    split_ifs at hq with hpq
    · cases hq
      subst hpq
      exact (hrea hw).set hold hne
    · exact (hb.reachable hq hw).set hold hne
  · intro q r w x hq hr hw hx heql
    rw [getElem?_set_eq hold] at hq hr
    split_ifs at hq hr with hpq hpr hpr
    · rw [← hpq, hpr]
    · cases hq
      exact nomatch (hnew x (mem_of_getElem? hr) hw hx).symm.trans heql
    · cases hr
      exact nomatch ((hnew w (mem_of_getElem? hq)).symm L hw hx).symm.trans heql
    · exact hb.unique hq hr hw hx heql

theorem Buckets.insert (L : C.Lawful) (hb : C.Buckets buckets)
    (hfree : HashTable.Free C buckets (C.hash (C.extract v)) p old) (hv : C.isLive v = true)
    (hnew : ∀ w ∈ buckets, C.Apart v w) : C.Buckets (buckets.set p v) :=
  hb.set L hfree.1 (isEmptyBucket_of_isLive hv) (fun hm => nomatch (isMark_of_isLive hv).symm.trans hm)
    (fun _ => hfree.2.2) hnew

theorem Buckets.delete (L : C.Lawful) (hb : C.Buckets buckets) (hp : buckets[p]? = some v) :
    C.Buckets (buckets.set p (C.deleteBucket v)) := by
  have hmark := L.isMark_deleteBucket v
  have hdead := isLive_of_isMark hmark
  exact hb.set L hp (isEmptyBucket_of_isMark hmark) (fun _ => ⟨v, rfl⟩) (fun hv => nomatch hdead.symm.trans hv)
    fun _ _ hv => nomatch hdead.symm.trans hv

theorem stores_set (hold : buckets[p]? = some old) : C.Stores (buckets.set p v) w ↔
    w = v ∧ C.isLive v = true ∨ ∃ q, q ≠ p ∧ buckets[q]? = some w ∧ C.isLive w = true := by
  simp only [stores_iff_getElem?, getElem?_set_eq hold]
  constructor
  · rintro ⟨q, hq, hw⟩
    split_ifs at hq with hpq
    · cases hq
      exact .inl ⟨rfl, hw⟩
    · exact .inr ⟨q, Ne.symm hpq, hq, hw⟩
  · rintro (⟨rfl, hv⟩ | ⟨q, hne, hq, hw⟩)
    · exact ⟨p, if_pos rfl, hv⟩
    · exact ⟨q, (if_neg hne.symm).trans hq, hw⟩

theorem stores_insert (hold : buckets[p]? = some old) (hdead : C.isLive old = false)
    (hv : C.isLive v = true) (w : Value) : C.Stores (buckets.set p v) w ↔ w = v ∨ C.Stores buckets w := by
  rw [stores_set hold, stores_iff_getElem?, and_iff_left hv]
  refine or_congr_right (exists_congr fun q => and_iff_right_of_imp ?_)
  rintro ⟨hq, hw⟩ rfl
  rw [hold] at hq
  cases hq
  exact nomatch hdead.symm.trans hw

theorem stores_delete (L : C.Lawful) (hb : C.Buckets buckets) (hp : buckets[p]? = some v)
    (hv : C.isLive v = true) (w : Value) : C.Stores (buckets.set p (C.deleteBucket v)) w ↔
      C.Stores buckets w ∧ C.equal (C.extract v) (C.extract w) = false := by
  rw [stores_set hp, isLive_of_isMark (L.isMark_deleteBucket v), stores_iff_getElem?]
  constructor
  · rintro (⟨-, hdead⟩ | ⟨q, hne, hq, hw⟩)
    · exact nomatch hdead
    · refine ⟨⟨q, hq, hw⟩, eq_false_iff.mpr fun heql => ?_⟩
      exact hne (hb.unique hp hq hv hw heql).symm
  · rintro ⟨⟨q, hq, hw⟩, hne⟩
    refine .inr ⟨q, ?_, hq, hw⟩
    rintro rfl
    rw [hp] at hq
    cases hq
    exact nomatch hne.symm.trans (L.equal_refl (isLive_iff.mp hv))

theorem countP_insert (hold : buckets[p]? = some old) (hdead : C.isLive old = false) (hv : C.isLive v = true) :
    (buckets.set p v).countP C.isLive = buckets.countP C.isLive + 1 ∧
      (buckets.set p v).countP C.isMark + (if C.isMark old then 1 else 0) = buckets.countP C.isMark := by
  have hlive := countP_set_add (f := C.isLive) hold v
  have hmark := countP_set_add (f := C.isMark) hold v
  simp only [hv, hdead, isMark_of_isLive hv, if_true, false_eq_true, if_false, add_zero] at hlive hmark
  exact ⟨hlive, hmark⟩

theorem Buckets.pairwise_apart (hb : C.Buckets buckets) : buckets.Pairwise C.Apart := by
  rw [pairwise_iff_getElem]
  intro i j hi hj hij hv hw
  rw [eq_false_iff]
  intro heql
  have := hb.unique (List.getElem?_eq_getElem hi) (List.getElem?_eq_getElem hj) hv hw heql
  omega

theorem hasEmptyBucket_of_lt (h : buckets.countP C.isLive + buckets.countP C.isMark < buckets.length) :
    HashTable.HasEmptyBucket C buckets := by
  by_contra hnone
  have hle : buckets.countP (fun v => ¬ C.isLive v = true) ≤ buckets.countP C.isMark := by
    refine countP_mono_left fun v hv hdead => ?_
    rcases isLive_eq_false_iff.mp (eq_false_iff.mpr (of_decide_eq_true hdead)) with he | hm
    · obtain ⟨q, hq⟩ := mem_iff_getElem?.mp hv
      exact absurd ⟨q, v, hq, he⟩ hnone
    · exact hm
  have := length_eq_countP_add_countP C.isLive (l := buckets)
  omega

end HashTableTraits

namespace HashTable

/-! ## The invariant of a table -/

variable {C : HashTableTraits Key Value} {t : HashTable Value}

structure Counted (C : HashTableTraits Key Value) (t : HashTable Value) : Prop extends Shape C t where
  minimum_le : C.minimumTableSize ≤ t.contents.length
  keyCount_eq : t.keyCount = t.contents.countP C.isLive
  deletedCount_eq : t.deletedCount = t.contents.countP C.isMark

/-- At most half of the buckets are used, and less than half if there are more than four. -/
def LoadOk (size used : Nat) : Prop := 2 * used < size ∨ size ≤ 4 ∧ 2 * used ≤ size

structure Holds (C : HashTableTraits Key Value) (t : HashTable Value) : Prop extends Counted C t where
  load : LoadOk t.contents.length (t.contents.countP C.isLive + t.contents.countP C.isMark)

/-- **The invariant**: there are no buckets, or there are and they are in order. The counter of the
    deleted buckets may be wrong while there are no buckets. -/
def Ok (C : HashTableTraits Key Value) (t : HashTable Value) : Prop :=
  (t.table = none ∧ t.tableSize = 0 ∧ t.keyCount = 0) ∨ Holds C t

theorem contents_eq_nil (h : t.table = none) : t.contents = [] := by
  rw [contents, h, Option.getD_none]

theorem Shape.length_pos (h : Shape C t) : 0 < t.contents.length := by
  obtain ⟨m, -, hm⟩ := h.wf.length_eq
  rw [hm]
  exact Nat.two_pow_pos m

theorem Shape.length_le (h : Shape C t) : t.contents.length ≤ 2 ^ 30 := by
  obtain ⟨m, hle, hm⟩ := h.wf.length_eq
  rw [hm]
  exact Nat.pow_le_pow_right (by decide) hle

theorem Ok.pairwise_apart (hok : Ok C t) : t.contents.Pairwise C.Apart := by
  rcases hok with ⟨hnull, -, -⟩ | hb
  · rw [contents_eq_nil hnull]
    exact .nil
  · exact hb.wf.pairwise_apart

theorem Ok.keyCount_eq (hok : Ok C t) : t.keyCount = t.contents.countP C.isLive := by
  rcases hok with ⟨hnull, -, hcnt⟩ | hb
  · rw [contents_eq_nil hnull, hcnt]
    rfl
  · exact hb.keyCount_eq

theorem Holds.hasEmptyBucket (h : Holds C t) : HasEmptyBucket C t.contents := by
  apply hasEmptyBucket_of_lt
  have hpos := h.length_pos
  have hload := h.load
  unfold LoadOk at hload
  omega

theorem wrapInt_eq {x : Int} (hlo : -(2 ^ 31) ≤ x) (hhi : x < 2 ^ 31) : wrapInt x = x := by
  rw [wrapInt]
  exact Int.bmod_eq_of_le (by simpa using hlo) (by simpa using hhi)

theorem contents_write (t : HashTable Value) (p : Nat) (v : Value) : (t.write p v).contents = t.contents.set p v := by
  rw [contents, contents, write]
  cases t.table <;> rfl

theorem Shape.write (h : Shape C t) {p : Nat} {v : Value} (hwf : C.Buckets (t.contents.set p v)) :
    Shape C (t.write p v) where
  table_eq := by rw [contents_write, HashTable.write, h.table_eq, Option.map_some]
  tableSize_eq := by rw [contents_write, length_set]; exact h.tableSize_eq
  tableSizeMask_eq := by rw [contents_write, length_set]; exact h.tableSizeMask_eq
  wf := by rw [contents_write]; exact hwf

theorem at?_eq (t : HashTable Value) (p : Nat) : t.at? p = t.contents[p]? := by
  rw [at?, contents]
  cases t.table <;> rfl

/-! ## Rehashing -/

theorem reinsert_spec (L : C.Lawful) (ht : Shape C t) (hemp : HasEmptyBucket C t.contents)
    {v : Value} (hv : C.isLive v = true) (hnew : ∀ w ∈ t.contents, C.Apart v w) :
    ∃ p old, t.reinsert C v = some (t.write p v, p) ∧ Free C t.contents (C.hash (C.extract v)) p old := by
  have hkey := L.names_identity (isLive_iff.mp hv)
  obtain ⟨result, hres, hok⟩ := probeForWriting_spec L ht hemp hkey
  have hrei : t.reinsert C v = some (t.write result.lookup.1 v, result.lookup.1) := by
    rw [reinsert, lookupForWriting, hres]
    rfl
  cases result with
  | found p =>
    obtain ⟨w, hw, hlive, heql⟩ := hok
    exact nomatch ((hnew w (mem_of_getElem? hw)).symm L hlive hv).symm.trans heql
  | vacant p d =>
    obtain ⟨-, ⟨w, hfree, -⟩, hd⟩ := hok
    cases d with
    | none => exact ⟨p, w, hrei, hfree⟩
    | some q =>
      obtain ⟨x, hfree', -⟩ := hd q rfl
      exact ⟨q, x, hrei, hfree'⟩

/-- What the loop of `rehash` has done once it ends. -/
structure Moved (C : HashTableTraits Key Value) (oldTable before after : List Value) : Prop where
  length_eq : after.length = before.length
  stores : ∀ v, C.Stores after v ↔ C.Stores before v ∨ C.Stores oldTable v
  isLive_eq : after.countP C.isLive = before.countP C.isLive + oldTable.countP C.isLive
  isMark_le : after.countP C.isMark ≤ before.countP C.isMark
  stays : ∀ {p : Nat} {v : Value}, before[p]? = some v → C.isLive v = true → after[p]? = some v

theorem stores_cons {v w : Value} {vs : List Value} :
    C.Stores (v :: vs) w ↔ (w = v ∧ C.isLive v = true) ∨ C.Stores vs w := by
  rw [Stores, Stores, mem_cons, or_and_right]
  exact or_congr_left (and_congr_right fun h => by rw [h])

/-- **The loop of `rehash`**: it moves the entries of the old buckets that are left into the new
    buckets, and answers where the entry that it follows has gone. -/
theorem rehashLoop_spec (L : C.Lawful) (entry : Option Nat) :
    ∀ (oldTable : List Value) (i : Nat) (t : HashTable Value) (newEntry : Option Nat), Shape C t →
      oldTable.Pairwise C.Apart → (∀ v ∈ oldTable, ∀ w ∈ t.contents, C.Apart v w) →
      t.contents.countP C.isLive + oldTable.countP C.isLive + t.contents.countP C.isMark < t.contents.length →
      ∃ t' e, rehashLoop C entry oldTable i t newEntry = some (t', e) ∧
        Shape C t' ∧ t'.keyCount = t.keyCount ∧ Moved C oldTable t.contents t'.contents ∧
        (∀ j v, entry = some (i + j) → oldTable[j]? = some v → C.isLive v = true →
          ∃ p, e = some p ∧ t'.contents[p]? = some v) ∧
        ((∀ j < oldTable.length, entry ≠ some (i + j)) → e = newEntry) := by
  intro oldTable
  induction oldTable with
  | nil =>
    intro i t newEntry ht _ _ _
    refine ⟨t, newEntry, rfl, ht, rfl, ⟨rfl, ?_, ?_, le_rfl, fun hp _ => hp⟩, ?_, fun _ => rfl⟩
    · simp [Stores]
    · simp
    · intro j v _ hj
      simp at hj
  | cons v vs ih =>
    intro i t newEntry ht hpair hapa hroom
    rw [pairwise_cons] at hpair
    obtain ⟨hnew, hapa'⟩ := forall_mem_cons.mp hapa
    have hshi : ∀ j, i + (j + 1) = i + 1 + j := by omega
    rw [rehashLoop]
    cases hv : C.isLive v with
    | false =>
      -- an empty or a deleted bucket is passed over
      have hskip : C.isEmptyOrDeletedBucket v = true := by simpa [isLive] using hv
      rw [countP_cons_of_neg (by simp [hv])] at hroom
      rw [if_pos hskip]
      obtain ⟨t', e, hrun, ht', hcnt, hmov, hfol, hkeep⟩ := ih (i + 1) t newEntry ht hpair.2 hapa' hroom
      refine ⟨t', e, hrun, ht', hcnt, ⟨hmov.length_eq, ?_, ?_, hmov.isMark_le, hmov.stays⟩, ?_, ?_⟩
      · intro w
        rw [hmov.stores, stores_cons]
        simp [hv]
      · rw [hmov.isLive_eq, countP_cons_of_neg (by simp [hv])]
      · intro j w hent hj hw
        cases j with
        | zero =>
          cases hj
          cases hv.symm.trans hw
        | succ j => exact hfol j w (by rw [hent, hshi]) hj hw
      · intro hnone
        apply hkeep
        intro j hj
        rw [← hshi]
        exact hnone (j + 1) (succ_lt_succ hj)
    | true =>
      have hkeeIf : ¬ C.isEmptyOrDeletedBucket v = true := by simpa [isLive] using hv
      rw [countP_cons_of_pos (by simp [hv])] at hroom
      obtain ⟨p, old, hrei, hfree⟩ := reinsert_spec L ht (hasEmptyBucket_of_lt (by omega)) hv hnew
      have hold := hfree.1
      have hdead := hfree.2.1
      rw [if_neg hkeeIf, hrei]
      have ht₁ : Shape C (t.write p v) := ht.write (ht.wf.insert L hfree hv hnew)
      obtain ⟨hlive₁, hmark₁⟩ := countP_insert hold hdead hv
      obtain ⟨t', e, hrun, ht', hcnt, hmov, hfol, hkeep⟩ :=
        ih (i + 1) (t.write p v) (if entry == some i then some p else newEntry) ht₁ hpair.2
          (by
            rw [contents_write]
            intro u hu w hw
            rcases mem_or_eq_of_mem_set hw with hw | rfl
            · exact hapa' u hu w hw
            · exact (hpair.1 u hu).symm L)
          (by rw [contents_write, length_set]; omega)
      rw [contents_write] at hmov
      refine ⟨t', e, hrun, ht', hcnt, ⟨?_, ?_, ?_, ?_, ?_⟩, ?_, ?_⟩
      · rw [hmov.length_eq, length_set]
      · intro w
        rw [hmov.stores, stores_insert hold hdead hv, stores_cons]
        tauto
      · rw [hmov.isLive_eq, countP_cons_of_pos (by simp [hv])]
        omega
      · have := hmov.isMark_le
        omega
      · intro q w hq hw
        apply hmov.stays _ hw
        rw [getElem?_set_eq hold, if_neg]
        · exact hq
        · rintro rfl
          rw [hold] at hq
          cases hq
          cases hdead.symm.trans hw
      · intro j w hent hj hw
        cases j with
        | zero =>
          cases hj
          have he : e = some p := by
            rw [hkeep, if_pos (by simpa using hent)]
            intro j _
            rw [hent]
            simp
            omega
          exact ⟨p, he, hmov.stays (by rw [getElem?_set_eq hold, if_pos rfl]) hv⟩
        | succ j => exact hfol j w (by rw [hent, hshi]) hj hw
      · intro hnone
        rw [hkeep, if_neg]
        · intro heq
          exact hnone 0 (succ_pos _) (by simpa using heq)
        · intro j hj
          rw [← hshi]
          exact hnone (j + 1) (succ_lt_succ hj)

theorem buckets_replicate (L : C.Lawful) {m : Nat} (hm : m ≤ 30) :
    C.Buckets (List.replicate (2 ^ m) C.initializedBucket) := by
  have heq : ∀ v ∈ List.replicate (2 ^ m) C.initializedBucket, v = C.initializedBucket :=
    fun v hv => eq_of_mem_replicate hv
  have hemp := L.isEmptyBucket_initializedBucket
  have hdead : ∀ {p : Nat} {v : Value}, (List.replicate (2 ^ m) C.initializedBucket)[p]? = some v → C.isLive v = false := by
    intro p v hp
    rw [heq v (mem_of_getElem? hp), isLive_of_isEmptyBucket hemp]
  refine ⟨⟨m, hm, length_replicate⟩, fun v hv _ => heq v hv, fun v hv hmark => ?_,
    fun hp hv => (nomatch (hdead hp).symm.trans hv), fun hp _ hv => (nomatch (hdead hp).symm.trans hv)⟩
  rw [heq v hv] at hmark
  exact nomatch (isEmptyBucket_of_isMark hmark).symm.trans hemp

theorem countP_replicate_initializedBucket (L : C.Lawful) (n : Nat) :
    (List.replicate n C.initializedBucket).countP C.isLive = 0 ∧
      (List.replicate n C.initializedBucket).countP C.isMark = 0 := by
  have he := L.isEmptyBucket_initializedBucket
  constructor
  · rw [countP_replicate, isLive_of_isEmptyBucket he]
    rfl
  · rw [countP_replicate, isMark, he]
    rfl

/-- What `rehash` leaves: the same entries, no deleted bucket, and the entry that was asked for is
    found again. -/
structure Resized (C : HashTableTraits Key Value) (before after : List Value)
    (entry newEntry : Option Nat) : Prop where
  stores : ∀ v, C.Stores after v ↔ C.Stores before v
  isLive_eq : after.countP C.isLive = before.countP C.isLive
  isMark_eq : after.countP C.isMark = 0
  follows : ∀ p v, entry = some p → before[p]? = some v → C.isLive v = true →
    ∃ q, newEntry = some q ∧ after[q]? = some v

/-- **`rehash`** to a power of two that leaves room. -/
theorem rehash_spec (L : C.Lawful) (hpair : t.contents.Pairwise C.Apart)
    (hcnt : t.keyCount = t.contents.countP C.isLive) {m : Nat} (hm : m ≤ 30)
    (hmin : C.minimumTableSize ≤ 2 ^ m) (hload : LoadOk (2 ^ m) (t.contents.countP C.isLive)) (entry : Option Nat) :
    ∃ t' e, t.rehash C ((2 ^ m : Nat) : Int) entry = some (t', e) ∧ Holds C t' ∧
      Resized C t.contents t'.contents entry e := by
  have hpos : 0 < 2 ^ m := Nat.two_pow_pos m
  let fresh : List Value := List.replicate (2 ^ m) C.initializedBucket
  let t₀ : HashTable Value := { t with tableSize := 2 ^ m, tableSizeMask := 2 ^ m - 1, table := some fresh }
  have hlen : t₀.contents.length = 2 ^ m := length_replicate
  have hsha : Shape C t₀ := ⟨rfl, hlen.symm, by rw [hlen], buckets_replicate L hm⟩
  obtain ⟨hlive₀, hmark₀⟩ : t₀.contents.countP C.isLive = 0 ∧ t₀.contents.countP C.isMark = 0 :=
    countP_replicate_initializedBucket L (2 ^ m)
  have hnone := countP_eq_zero.mp hlive₀
  have hroom : t₀.contents.countP C.isLive + t.contents.countP C.isLive + t₀.contents.countP C.isMark <
      t₀.contents.length := by
    rw [hlive₀, hmark₀, hlen]
    unfold LoadOk at hload
    omega
  obtain ⟨t₁, e, hrun, hsha₁, hkey₁, hmov, hfol, -⟩ := rehashLoop_spec L entry t.contents 0 t₀ none hsha hpair
    (fun _ _ w hw _ hlive => absurd hlive (hnone w hw)) hroom
  have hmark : t₁.contents.countP C.isMark = 0 := by
    have := hmov.isMark_le
    omega
  have hlive : t₁.contents.countP C.isLive = t.contents.countP C.isLive := by
    rw [hmov.isLive_eq, hlive₀, zero_add]
  have hlen₁ : t₁.contents.length = 2 ^ m := hmov.length_eq.trans hlen
  refine ⟨{ t₁ with deletedCount := 0 }, e, ?_, ⟨⟨⟨hsha₁.table_eq, hsha₁.tableSize_eq, hsha₁.tableSizeMask_eq,
    hsha₁.wf⟩, hmin.trans hlen₁.ge, ?_, ?_⟩, ?_⟩, ⟨?_, hlive, hmark, ?_⟩⟩
  · have hall : allocateTable C ((2 ^ m : Nat) : Int) = some fresh := by
      rw [allocateTable, if_neg (by omega), Int.toNat_natCast]
    rw [rehash, hall, Int.toNat_natCast]
    change (rehashLoop C entry t.contents 0 t₀ none).bind _ = _
    rw [hrun]
    rfl
  · exact hkey₁.trans (hcnt.trans (congrArg _ hlive.symm))
  · exact (congrArg Nat.cast hmark).symm
  · change LoadOk t₁.contents.length (t₁.contents.countP C.isLive + t₁.contents.countP C.isMark)
    rw [hlen₁, hlive, hmark]
    exact hload
  · intro v
    refine (hmov.stores v).trans (or_iff_right fun h => ?_)
    exact hnone v h.1 h.2
  · intro p v hent hp hv
    exact hfol p v (by rw [hent, zero_add]) hp hv

/-- The load when `add` decides whether to expand: one more bucket may be used. -/
def LoadNearlyOk (size used : Nat) : Prop := 2 * used ≤ size + 1 ∨ size ≤ 4 ∧ 2 * used ≤ size + 2

theorem LoadOk.succ {size used : Nat} (h : LoadOk size used) : LoadNearlyOk size (used + 1) := by
  unfold LoadOk at h
  unfold LoadNearlyOk
  omega

theorem two_pow_lt {m k : Nat} (h : 2 ^ m < 2 ^ k) : m + 1 ≤ k :=
  (Nat.pow_lt_pow_iff_right (by decide)).mp h

/-- **`expand`** of a table that is not as large as an `int` allows. -/
theorem expand_spec (L : C.Lawful) (ht : Counted C t)
    (hload : LoadNearlyOk t.contents.length (t.contents.countP C.isLive + t.contents.countP C.isMark))
    (hsize : t.contents.length < 2 ^ 30) (entry : Option Nat) :
    ∃ t' e, t.expand C entry = some (t', e) ∧ Holds C t' ∧ Resized C t.contents t'.contents entry e := by
  obtain ⟨m, hm, hlen⟩ := ht.wf.length_eq
  have hpos := ht.length_pos
  have hm30 : m + 1 ≤ 30 := two_pow_lt (by rw [← hlen]; exact hsize)
  have hhalf : 2 * t.contents.length ≤ 2 ^ 30 := by
    rw [hlen, ← pow_succ']
    exact Nat.pow_le_pow_right (by decide) hm30
  unfold LoadNearlyOk at hload
  have hpla : t.mustRehashInPlace = decide (3 * t.contents.countP C.isLive < t.contents.length) := by
    rw [mustRehashInPlace, ht.keyCount_eq, ht.tableSize_eq, minLoad,
      wrapInt_eq (by omega) (by omega), wrapInt_eq (by omega) (by omega)]
    apply decide_eq_decide.mpr
    omega
  have hzero : (t.tableSize == 0) = false := by
    rw [ht.tableSize_eq, beq_eq_false_iff_ne]
    omega
  have hreh := fun {k : Nat} (hk : k ≤ 30) hle (hok : LoadOk (2 ^ k) (t.contents.countP C.isLive)) =>
    rehash_spec L ht.wf.pairwise_apart ht.keyCount_eq hk (ht.minimum_le.trans hle) hok entry
  rw [expand, hzero, hpla]
  by_cases hin : 3 * t.contents.countP C.isLive < t.contents.length
  · -- mostly deleted buckets: the same size again
    simp only [hin, decide_true, false_eq_true, if_false, if_true, ht.tableSize_eq]
    rw [hlen]
    apply hreh hm hlen.le
    unfold LoadOk
    omega
  · simp only [hin, decide_false, false_eq_true, if_false]
    have hdou : wrapInt ((t.tableSize : Int) * 2) = ((2 ^ (m + 1) : Nat) : Int) := by
      rw [ht.tableSize_eq, wrapInt_eq (by omega) (by omega), hlen, pow_succ]
      push_cast
      ring
    rw [hdou]
    apply hreh hm30
    · rw [pow_succ', ← hlen]
      omega
    · unfold LoadOk
      rw [pow_succ', ← hlen]
      omega

end HashTable

end WebV8
