import WebV8.Lib.Run
import WebV8.WTF.HashTableOps

/-!
# Programs over hash tables

A program is a list of calls on a store of hash tables that all start empty. The same program runs
on a store of partial functions from keys to values, where adding keeps a value that is there
already. Every table of the store is that function (`hashTable_run`), for every hash, every equality
and every collision.

The limit is the width of an `int`: `int` products of the counters of a table with `2 ^ 30` buckets
can overflow, and a program that only adds reaches this state. `unsigned_run_crashes` is such a
program.
-/

namespace WebV8

open Lib HashTableTraits HashTable List Option Bool

variable {ι Key Value T Extra : Type} [DecidableEq ι]

/-! ## The program -/

/-- A call on the table `i`. -/
inductive HashTableOp (ι Key Value T Extra : Type) where
  | add (i : ι) (tr : HashTranslator Key T) (translate : Value → T → Extra → Value) (key : T)
      (extra : Extra)
  | addPassingHashCode (i : ι) (tr : HashTranslator Key T)
      (translate : Value → T → Extra → UInt32 → Value) (key : T) (extra : Extra)
  | remove (i : ι) (key : Key)
  | removeIf (i : ι) (functor : Value → Bool)
  | clear (i : ι)
  | copy (i j : ι)
  | swap (i j : ι)

variable (C : HashTableTraits Key Value) (tables : ι → HashTable Value)

/-- `none` when a loop does not end or the program crashes. -/
def tableStep :
    HashTableOp ι Key Value T Extra → Option (ι → HashTable Value)
  | .add i tr translate key extra =>
    ((tables i).add C tr translate key extra).map fun r => Function.update tables i r.1
  | .addPassingHashCode i tr translate key extra =>
    ((tables i).addPassingHashCode C tr translate key extra).map fun r => Function.update tables i r.1
  | .remove i key => ((tables i).remove C key).map (Function.update tables i)
  | .removeIf i functor => ((tables i).removeIf C functor).map (Function.update tables i)
  | .clear i => some (Function.update tables i (tables i).clear)
  | .copy i j => ((tables i).assign C (tables j)).map (Function.update tables i)
  | .swap i j =>
    let r := (tables i).swap (tables j)
    some (Function.update (Function.update tables i r.1) j r.2)

/-! ## What the program means -/

variable (m : Key → Option Value)

/-- Store a value under its key and all keys equal to it, unless there is one. -/
def mapAdd (v : Value) : Key → Option Value :=
  if (m (C.extract v)).isSome then m
  else fun k => if C.equal (C.extract v) k then some v else m k

def mapRemove (key : Key) : Key → Option Value :=
  fun k => if C.equal key k then none else m k

def mapRemoveIf (functor : Value → Bool) : Key → Option Value :=
  fun k => (m k).filter fun v => !functor v

def addedValue (translate : Value → T → Extra → Value) (key : T) (extra : Extra) : Value :=
  translate C.initializedBucket key extra

def mapStep (maps : ι → Key → Option Value) :
    HashTableOp ι Key Value T Extra → ι → Key → Option Value
  | .add i _ translate key extra =>
    Function.update maps i (mapAdd C (maps i) (addedValue C translate key extra))
  | .addPassingHashCode i tr translate key extra =>
    Function.update maps i (mapAdd C (maps i)
      (addedValue C (fun bucket k x => translate bucket k x (tr.hash key)) key extra))
  | .remove i key => Function.update maps i (mapRemove C (maps i) key)
  | .removeIf i functor => Function.update maps i (mapRemoveIf (maps i) functor)
  | .clear i => Function.update maps i fun _ => none
  | .copy i j => Function.update maps i (maps j)
  | .swap i j => Function.update (Function.update maps i (maps j)) j (maps i)

/-! ## What a call may be given -/

/-- The key of an added value is not the empty or the deleted value, and answers to the key of the
    call. -/
def AddOk (tr : HashTranslator Key T) (key : T) (v : Value) : Prop :=
  C.Names tr key ∧ C.isLive v = true ∧ tr.equal (C.extract v) key = true

/-- A call that keeps to the contract of the keys and does not overflow an `int`. -/
def OpOk : HashTableOp ι Key Value T Extra → Prop
  | .add i tr translate key extra =>
    AddOk C tr key (addedValue C translate key extra) ∧ AddFits C (tables i) tr key
  | .addPassingHashCode i tr translate key extra =>
    AddOk C tr key (addedValue C (fun bucket k x => translate bucket k x (tr.hash key)) key extra) ∧
      AddFits C (tables i) tr key
  | .remove i key => C.IsLiveKey key ∧ RemoveFits C (tables i) key
  | .removeIf i functor => RemoveIfFits C (tables i) functor
  | _ => True

/-! ## The refinement -/

/-- The entries of a table are the values of a partial function on keys. -/
def TableDenotes (t : HashTable Value) (m : Key → Option Value) : Prop :=
  ∀ k, C.IsLiveKey k → ∀ v, m k = some v ↔ C.Stores t.contents v ∧ C.equal (C.extract v) k = true

def TableRefines (t : HashTable Value) (m : Key → Option Value) : Prop := Ok C t ∧ TableDenotes C t m

def StoreRefines (maps : ι → Key → Option Value) : Prop :=
  ∀ i, TableRefines C (tables i) (maps i)

variable {C} {t : HashTable Value} {m : Key → Option Value}

theorem TableDenotes.empty : TableDenotes C (HashTable.empty : HashTable Value) fun _ => none := by
  intro k _ v
  simp [contents, HashTable.empty, Stores]

variable {t' : HashTable Value} {tr : HashTranslator Key T} {key : T} {k : Key} {n : Nat}

theorem TableDenotes.congr (h : TableDenotes C t m)
    (hsts : ∀ v, C.Stores t'.contents v ↔ C.Stores t.contents v) : TableDenotes C t' m := by
  intro k hk v
  rw [h k hk v, hsts]

theorem TableDenotes.eq_some (h : TableDenotes C t m)
    (hkey : C.Names tr key) (hk : C.IsLiveKey k) (heql : tr.equal k key = true) {w : Value}
    (hw : C.Stores t.contents w) (hmat : C.Matches tr key w) : m k = some w := by
  rw [h k hk]
  exact ⟨hw, (hkey.equal_iff (isLive_iff.mp hw.2) hk hmat.2).mp heql⟩

theorem TableDenotes.eq_none (L : C.Lawful) (h : TableDenotes C t m)
    (hkey : C.Names tr key) (hk : C.IsLiveKey k) (heql : tr.equal k key = true)
    (hno : ∀ w, C.Stores t.contents w → ¬ C.Matches tr key w) : m k = none := by
  cases hm : m k with
  | none => rfl
  | some w =>
    obtain ⟨hw, hwk⟩ := (h k hk w).mp hm
    have hwli := isLive_iff.mp hw.2
    have hkw := L.equal_symm hwli hk hwk
    exact absurd ⟨hw.2, (hkey.equal_iff hk hwli heql).mpr hkw⟩ (hno w hw)

theorem TableDenotes.add (L : C.Lawful) (h : TableDenotes C t m) {v : Value} (hv : AddOk C tr key v)
    {r : HashTableAddResult} (hadd : Added C t.contents tr key v t'.contents r) :
    TableDenotes C t' (mapAdd C m v) := by
  obtain ⟨hkey, hlive, heql⟩ := hv
  have hvkey := isLive_iff.mp hlive
  rw [mapAdd]
  rcases hadd.outcome with ⟨w, hw, hmat, -, -, hsts, -⟩ | ⟨hno, -, -, hsts, -⟩
  · rw [h.eq_some hkey hvkey heql hw hmat]
    exact h.congr hsts
  · rw [h.eq_none L hkey hvkey heql hno]
    intro k hk x
    simp only [isSome_none, false_eq_true, if_false]
    rw [hsts]
    split_ifs with hvk
    · constructor
      · intro hx
        cases hx
        exact ⟨.inl rfl, hvk⟩
      · rintro ⟨rfl | hx, hxk⟩
        · rfl
        · -- another entry with this key would answer to the key of the call
          have hxkey := isLive_iff.mp hx.2
          have hvx := L.equal_trans hvkey hk hxkey hvk (L.equal_symm hxkey hk hxk)
          exact absurd ⟨hx.2, (hkey.equal_iff hvkey hxkey heql).mpr hvx⟩ (hno x hx)
    · rw [h k hk]
      constructor
      · rintro ⟨hx, hxk⟩
        exact ⟨.inr hx, hxk⟩
      · rintro ⟨rfl | hx, hxk⟩
        · exact absurd hxk hvk
        · exact ⟨hx, hxk⟩

theorem TableDenotes.remove (L : C.Lawful) (h : TableDenotes C t m) {key : Key} (hkey : C.IsLiveKey key)
    (hsts : ∀ v, C.Stores t'.contents v ↔ C.Stores t.contents v ∧ C.equal (C.extract v) key = false) :
    TableDenotes C t' (mapRemove C m key) := by
  intro k hk v
  rw [mapRemove, hsts]
  split_ifs with heq
  · constructor
    · intro hv
      cases hv
    · rintro ⟨⟨hv, hne⟩, hvk⟩
      have hvkey := isLive_iff.mp hv.2
      rw [L.equal_trans hvkey hk hkey hvk (L.equal_symm hkey hk heq)] at hne
      cases hne
  · rw [h k hk]
    constructor
    · rintro ⟨hv, hvk⟩
      have hvkey := isLive_iff.mp hv.2
      refine ⟨⟨hv, eq_false_iff.mpr fun hvkey' => heq ?_⟩, hvk⟩
      exact L.equal_trans hkey hvkey hk (L.equal_symm hvkey hkey hvkey') hvk
    · rintro ⟨⟨hv, -⟩, hvk⟩
      exact ⟨hv, hvk⟩

theorem TableDenotes.removeIf (h : TableDenotes C t m) {functor : Value → Bool}
    (hsts : ∀ v, C.Stores t'.contents v ↔ C.Stores t.contents v ∧ functor v = false) :
    TableDenotes C t' (mapRemoveIf m functor) := by
  intro k hk v
  rw [mapRemoveIf, filter_eq_some_iff, h k hk, hsts, not_eq_true']
  tauto

theorem TableRefines.add (L : C.Lawful) (h : TableRefines C t m) {tr : HashTranslator Key T} {key : T}
    (translate : Value → T → Extra → Value) (extra : Extra)
    (hv : AddOk C tr key (addedValue C translate key extra)) (hfits : AddFits C t tr key) :
    ∃ t' r, t.add C tr translate key extra = some (t', r) ∧
      TableRefines C t' (mapAdd C m (addedValue C translate key extra)) := by
  obtain ⟨t', r, hrun, hhol, hadd⟩ := add_spec L h.1 hv.1 translate extra rfl hv.2.1 hv.2.2 hfits
  exact ⟨t', r, hrun, .inr hhol, h.2.add L hv hadd⟩

theorem StoreRefines.update {tables : ι → HashTable Value} {maps : ι → Key → Option Value}
    (h : StoreRefines C tables maps) {i : ι} (ht : TableRefines C t m) :
    StoreRefines C (Function.update tables i t) (Function.update maps i m) := by
  intro j
  rw [Function.update_apply, Function.update_apply]
  split_ifs
  · exact ht
  · exact h j

/-- **One call**: it succeeds, and the store goes on denoting the store of functions. -/
theorem StoreRefines.step (L : C.Lawful) (tables : ι → HashTable Value)
    (maps : ι → Key → Option Value) (op : HashTableOp ι Key Value T Extra)
    (h : StoreRefines C tables maps) (hop : OpOk C tables op) :
    ∃ tables', tableStep C tables op = some tables' ∧ StoreRefines C tables' (mapStep C maps op) := by
  cases op with
  | add i tr translate key extra =>
    obtain ⟨t', r, hrun, href⟩ := (h i).add L translate extra hop.1 hop.2
    exact ⟨_, by rw [tableStep, hrun]; rfl, h.update href⟩
  | addPassingHashCode i tr translate key extra =>
    obtain ⟨t', r, hrun, href⟩ := (h i).add L _ extra hop.1 hop.2
    refine ⟨_, ?_, h.update href⟩
    rw [tableStep, addPassingHashCode_eq_add L (h i).1 hop.1.1, hrun]
    rfl
  | remove i key =>
    obtain ⟨t', hrun, hok, hsts⟩ := remove_spec L (h i).1 hop.1 hop.2
    exact ⟨_, by rw [tableStep, hrun]; rfl, h.update ⟨hok, (h i).2.remove L hop.1 hsts⟩⟩
  | removeIf i functor =>
    obtain ⟨t', hrun, hok, hsts⟩ := removeIf_spec L (h i).1 functor hop
    exact ⟨_, by rw [tableStep, hrun]; rfl, h.update ⟨hok, (h i).2.removeIf hsts⟩⟩
  | clear i =>
    obtain ⟨hok, hnone⟩ := clear_spec (h i).1
    refine ⟨_, rfl, h.update ⟨hok, TableDenotes.empty.congr fun v => ?_⟩⟩
    exact iff_of_false (hnone v) (by simp [contents, HashTable.empty, Stores])
  | copy i j =>
    obtain ⟨t', hrun, hok, hsts⟩ := copy_spec L (h j).1
    refine ⟨_, ?_, h.update ⟨hok, (h j).2.congr hsts⟩⟩
    rw [tableStep, assign, hrun]
    rfl
  | swap i j => exact ⟨_, rfl, (h.update (h j)).update (h i)⟩

/-! ## What the tables answer -/

/-- What a caller sees of a table that stands for a partial function. -/
structure TableCorrect (C : HashTableTraits Key Value) (t : HashTable Value)
    (m : Key → Option Value) : Prop where
  /-- `lookup`, `find` and `contains` end with the value of the key, whatever type it is given in. -/
  lookup : ∀ {T : Type} {tr : HashTranslator Key T} {key : T} {k : Key}, C.Names tr key →
    C.IsLiveKey k → tr.equal k key = true →
    ∃ entry, t.lookup C tr key = some entry ∧ entry.bind t.at? = m k
  find : ∀ {T : Type} {tr : HashTranslator Key T} {key : T} {k : Key}, C.Names tr key →
    C.IsLiveKey k → tr.equal k key = true →
    ∃ p, t.find C tr key = some p ∧ t.at? p = m k ∧ (p = t.endPosition ↔ m k = none)
  contains : ∀ {T : Type} {tr : HashTranslator Key T} {key : T} {k : Key}, C.Names tr key →
    C.IsLiveKey k → tr.equal k key = true → t.contains C tr key = some (m k).isSome
  /-- No key is in two buckets. -/
  unique : ∀ {p q : Nat} {v w : Value}, t.at? p = some v → t.at? q = some w → C.isLive v = true →
    C.isLive w = true → C.equal (C.extract v) (C.extract w) = true → p = q
  /-- An iteration visits the value of each key once, and nothing else. -/
  iterate : ∃ values : List Value, (t.iterate C).map t.at? = values.map some ∧
    (∀ v ∈ values, m (C.extract v) = some v) ∧
    ∀ k, C.IsLiveKey k → values.filter (fun v => C.equal (C.extract v) k) = (m k).toList
  keyCount : t.keyCount = t.contents.countP C.isLive
  deletedCount : t.table ≠ none → t.deletedCount = t.contents.countP C.isMark

/-- What a caller sees of `add`: the answer denotes the entry of the key in the table afterwards, and
    tells whether it is new. -/
def AddCorrect (C : HashTableTraits Key Value) (tr : HashTranslator Key T) (key : T) (v : Value)
    (m : Key → Option Value) (result : Option (HashTable Value × HashTableAddResult)) : Prop :=
  ∃ t' r w, result = some (t', r) ∧ t'.at? r.iterator = some w ∧ C.Matches tr key w ∧
    mapAdd C m v (C.extract v) = some w ∧ (r.isNewEntry = true ↔ m (C.extract v) = none)

theorem HashTable.Ok.at?_endPosition (hok : Ok C t) : t.at? t.endPosition = none := by
  rw [at?_eq]
  rcases hok with ⟨hnull, -, -⟩ | hb
  · rw [contents_eq_nil hnull]
    rfl
  · rw [endPosition, hb.tableSize_eq, List.getElem?_eq_none_iff]

theorem lookup_eq_find {p : Nat} (hok : Ok C t) (hfind : t.find C tr key = some p) :
    ∃ entry, t.lookup C tr key = some entry ∧ entry.bind t.at? = t.at? p := by
  rw [find_eq, map_eq_some_iff] at hfind
  obtain ⟨entry, hloo, rfl⟩ := hfind
  refine ⟨entry, hloo, ?_⟩
  cases entry with
  | none => exact hok.at?_endPosition.symm
  | some q => rfl

theorem TableRefines.find (L : C.Lawful) (h : TableRefines C t m) {T : Type} {tr : HashTranslator Key T}
    {key : T} {k : Key} (hkey : C.Names tr key) (hk : C.IsLiveKey k) (heql : tr.equal k key = true) :
    ∃ p, t.find C tr key = some p ∧ t.at? p = m k ∧ (p = t.endPosition ↔ m k = none) := by
  obtain ⟨p, hfind, hp⟩ := find_spec L h.1 hkey
  refine ⟨p, hfind, ?_⟩
  rcases hp with ⟨v, hv, hmat⟩ | ⟨rfl, hno⟩
  · rw [h.2.eq_some hkey hk heql ⟨mem_of_getElem? hv, hmat.1⟩ hmat, at?_eq, hv]
    refine ⟨rfl, iff_of_false ?_ (by simp)⟩
    rintro rfl
    rw [← at?_eq, h.1.at?_endPosition] at hv
    cases hv
  · rw [h.2.eq_none L hkey hk heql hno, h.1.at?_endPosition]
    exact ⟨rfl, iff_of_true rfl rfl⟩

theorem filter_equal_eq (L : C.Lawful) (h : TableRefines C t m) (hk : C.IsLiveKey k) :
    (t.contents.filter C.isLive).filter (fun v => C.equal (C.extract v) k) = (m k).toList := by
  have hmem : ∀ v, v ∈ (t.contents.filter C.isLive).filter (fun v => C.equal (C.extract v) k) ↔
      m k = some v := by
    intro v
    rw [mem_filter, mem_filter, h.2 k hk]
    rfl
  have hpair := (h.1.pairwise_apart.filter C.isLive).filter fun v => C.equal (C.extract v) k
  generalize (t.contents.filter C.isLive).filter (fun v => C.equal (C.extract v) k) = l at hmem hpair
  cases l with
  | nil =>
    cases hm : m k with
    | none => rfl
    | some v => exact absurd ((hmem v).mpr hm) (by simp)
  | cons v l =>
    have hv := (hmem v).mp mem_cons_self
    obtain ⟨hsv, hvk⟩ := (h.2 k hk v).mp hv
    cases l with
    | nil =>
      rw [hv]
      rfl
    | cons w l =>
      obtain ⟨hsw, hwk⟩ := (h.2 k hk w).mp ((hmem w).mp (by simp))
      have hvkey := isLive_iff.mp hsv.2
      have hwkey := isLive_iff.mp hsw.2
      have hvw := L.equal_trans hvkey hk hwkey hvk (L.equal_symm hwkey hk hwk)
      rw [pairwise_cons] at hpair
      rw [hpair.1 w (by simp) hsv.2 hsw.2] at hvw
      cases hvw

theorem TableRefines.tableCorrect (L : C.Lawful) (h : TableRefines C t m) : TableCorrect C t m where
  lookup := by
    intro T tr key k hkey hk heql
    obtain ⟨p, hfind, hat, -⟩ := h.find L hkey hk heql
    obtain ⟨entry, hloo, heq⟩ := lookup_eq_find h.1 hfind
    exact ⟨entry, hloo, by rw [heq, hat]⟩
  find := fun hkey hk heql => h.find L hkey hk heql
  contains := by
    intro T tr key k hkey hk heql
    obtain ⟨answer, hans, hiff⟩ := contains_spec L h.1 hkey
    rw [hans, Option.some.injEq, Bool.eq_iff_iff, hiff]
    constructor
    · rintro ⟨v, hv, hmat⟩
      rw [h.2.eq_some hkey hk heql hv hmat]
      rfl
    · intro hsome
      obtain ⟨v, hv⟩ := isSome_iff_exists.mp hsome
      obtain ⟨hst, hvk⟩ := (h.2 k hk v).mp hv
      have hvkey := isLive_iff.mp hst.2
      exact ⟨v, hst, hst.2, (hkey.equal_iff hk hvkey heql).mpr (L.equal_symm hvkey hk hvk)⟩
  unique := by
    intro p q v w hp hq hv hw heql
    rw [at?_eq] at hp hq
    rcases h.1 with ⟨hnull, -, -⟩ | hb
    · rw [contents_eq_nil hnull] at hp
      cases hp
    · exact hb.wf.unique hp hq hv hw heql
  iterate := by
    refine ⟨_, iterate_spec h.1, ?_, fun k hk => filter_equal_eq L h hk⟩
    intro v hv
    rw [mem_filter] at hv
    rw [h.2 _ (isLive_iff.mp hv.2)]
    exact ⟨hv, L.equal_refl (isLive_iff.mp hv.2)⟩
  keyCount := h.1.keyCount_eq
  deletedCount := by
    intro htab
    rcases h.1 with ⟨hnull, -, -⟩ | hb
    · exact absurd hnull htab
    · exact hb.deletedCount_eq

theorem TableRefines.addCorrect (L : C.Lawful) (h : TableRefines C t m)
    (translate : Value → T → Extra → Value) (extra : Extra)
    (hv : AddOk C tr key (addedValue C translate key extra)) (hfits : AddFits C t tr key) :
    AddCorrect C tr key (addedValue C translate key extra) m (t.add C tr translate key extra) := by
  obtain ⟨t', r, hrun, hhol, hadd⟩ := add_spec L h.1 hv.1 translate extra rfl hv.2.1 hv.2.2 hfits
  have hvkey := isLive_iff.mp hv.2.1
  rcases hadd.outcome with ⟨w, hw, hmat, hat, hold, -⟩ | ⟨hno, hat, hnew, -⟩
  · have hm := h.2.eq_some hv.1 hvkey hv.2.2 hw hmat
    refine ⟨t', r, w, hrun, by rw [at?_eq, hat], hmat, ?_, ?_⟩
    · rw [mapAdd, hm]
      exact hm
    · rw [hold, hm]
      simp
  · have hm := h.2.eq_none L hv.1 hvkey hv.2.2 hno
    refine ⟨t', r, _, hrun, (at?_eq _ _).trans hat, ⟨hv.2.1, hv.2.2⟩, ?_, ?_⟩
    · rw [mapAdd, hm]
      simp only [isSome_none, false_eq_true, if_false]
      rw [L.equal_refl hvkey]
      rfl
    · rw [hnew, hm]
      simp

/-- **Every program over hash tables** whose calls keep to the contract of the keys and do not
    overflow an `int` runs to its end, and leaves tables that stand for the partial functions that
    the same program leaves: what they answer and count is right, and so is what a further call of
    `add` answers. -/
theorem hashTable_run (L : C.Lawful) (ops : List (HashTableOp ι Key Value T Extra))
    (hops : EachStep (tableStep C) (OpOk C) (fun _ => HashTable.empty) ops) :
    ∃ tables, run (tableStep C) (fun _ => HashTable.empty) ops = some tables ∧
      ∀ i, TableCorrect C (tables i) (ops.foldl (mapStep C) (fun _ _ => none) i) ∧
        (∀ tr translate (key : T) (extra : Extra), OpOk C tables (.add i tr translate key extra) →
          AddCorrect C tr key (addedValue C translate key extra) (ops.foldl (mapStep C) (fun _ _ => none) i)
            ((tables i).add C tr translate key extra)) ∧ (∀ tr translate (key : T) (extra : Extra),
          OpOk C tables (.addPassingHashCode i tr translate key extra) → AddCorrect C tr key
            (addedValue C (fun bucket k x => translate bucket k x (tr.hash key)) key extra)
            (ops.foldl (mapStep C) (fun _ _ => none) i)
            ((tables i).addPassingHashCode C tr translate key extra)) := by
  have hstart : StoreRefines C (fun _ : ι => HashTable.empty) fun _ _ => none :=
    fun _ => ⟨ok_empty, TableDenotes.empty⟩
  obtain ⟨tables, hrun, href⟩ := run_simulates (fun s a o => StoreRefines.step L s a o) ops hstart hops
  refine ⟨tables, hrun, fun i => ⟨(href i).tableCorrect L, ?_, ?_⟩⟩
  · intro tr translate key extra hop
    exact (href i).addCorrect L translate extra hop.1 hop.2
  · intro tr translate key extra hop
    rw [addPassingHashCode_eq_add L (href i).1 hop.1.1]
    exact (href i).addCorrect L _ extra hop.1 hop.2

/-! ## `HashSet<unsigned>` -/

/-- `intHash(uint32_t)` -/
def intHash (key : UInt32) : UInt32 :=
  let key := key + ~~~(key <<< 15)
  let key := key ^^^ (key >>> 10)
  let key := key + (key <<< 3)
  let key := key ^^^ (key >>> 6)
  let key := key + ~~~(key <<< 11)
  key ^^^ (key >>> 16)

/-- The table of a `HashSet<unsigned>`: `IntHash` and the default integer traits, which disallow
    0 and the largest value as keys. -/
def unsignedTraits : HashTableTraits UInt32 UInt32 where
  extract := fun value => value
  hash := intHash
  equal := fun a b => a == b
  safeToCompareToEmptyOrDeleted := true
  emptyValueIsZero := true
  zeroedValue := 0
  emptyValue := 0
  constructDeletedValue := fun _ => 0xFFFFFFFF
  emptyKey := 0
  isEmptyKey := fun key => key == 0
  isDeletedKey := fun key => key == 0xFFFFFFFF
  minimumTableSize := 8

theorem unsignedTraits_lawful : unsignedTraits.Lawful where
  equal_refl := fun _ => beq_self_eq_true _
  equal_symm := fun _ _ h => beq_iff_eq.mpr (beq_iff_eq.mp h).symm
  equal_trans := fun _ _ _ hab hbc => beq_iff_eq.mpr ((beq_iff_eq.mp hab).trans (beq_iff_eq.mp hbc))
  hash_eq := fun _ _ h => congrArg intHash (beq_iff_eq.mp h)
  extract_initializedBucket := rfl
  isEmptyKey_emptyKey := rfl
  isDeletedKey_emptyKey := rfl
  extract_constructDeletedValue := fun _ _ => rfl
  isDeletedBucket_constructDeletedValue := fun _ => rfl
  isEmptyBucket_constructDeletedValue := fun _ => rfl
  checkKey_of_isLiveKey := by
    rintro a ⟨hemp, hdel⟩
    change (false || (!((0 : UInt32) == a) && !((0xFFFFFFFF : UInt32) == a))) = true
    rw [BEq.comm, show (a == 0) = false from hemp, BEq.comm, show (a == 0xFFFFFFFF) = false from hdel]
    rfl
  minimumTableSize_eq := ⟨3, by decide, rfl⟩

/-- `add` of a value. -/
def addUnsigned (value : UInt32) : HashTableOp Unit UInt32 UInt32 UInt32 UInt32 :=
  .add () unsignedTraits.identityTranslator (fun _ _ value => value) value value

theorem addOk_unsigned {value : UInt32} (hlive : unsignedTraits.IsLiveKey value) :
    AddOk unsignedTraits unsignedTraits.identityTranslator value value :=
  ⟨unsignedTraits_lawful.names_identity hlive, isLive_iff.mpr hlive, beq_self_eq_true value⟩

/-- Adding 7 and removing it again. -/
theorem hashTable_run_add_remove : ∃ tables, run (tableStep unsignedTraits) (fun _ => HashTable.empty)
        [addUnsigned 7, .remove () 7] = some tables ∧
      TableCorrect unsignedTraits (tables ()) (([addUnsigned 7, .remove () 7] : List _).foldl
        (mapStep unsignedTraits) (fun _ _ => none) ()) := by
  have h7 : unsignedTraits.IsLiveKey 7 := ⟨by decide, by decide⟩
  have hsize : ∀ tables : Unit → HashTable UInt32,
      tableStep unsignedTraits (fun _ => HashTable.empty) (addUnsigned 7) = some tables →
      (tables ()).tableSize = 8 := by
    intro tables htables
    have hadd : (HashTable.empty.add unsignedTraits unsignedTraits.identityTranslator
        (fun _ _ (value : UInt32) => value) 7 7).map (fun r => r.1.tableSize) = some 8 := by
      decide +kernel
    simp only [addUnsigned, tableStep, map_eq_some_iff] at htables
    obtain ⟨r, hr, rfl⟩ := htables
    rw [hr] at hadd
    simpa using hadd
  obtain ⟨tables, hrun, hcorrect⟩ := hashTable_run unsignedTraits_lawful [addUnsigned 7, .remove () 7]
    ⟨⟨addOk_unsigned h7, .inl fun h => absurd h (by decide)⟩, fun tables htables =>
      ⟨⟨h7, .inr fun h => absurd (hsize tables htables ▸ h) (by decide)⟩, fun _ _ => trivial⟩⟩
  exact ⟨tables, hrun, (hcorrect ()).1⟩

/-! ## The limit -/

/-- A table of the largest size cannot be expanded: twice its size is a negative `int`, and so is
    what `mustRehashInPlace` compares with. -/
theorem expand_maximum (hsize : t.tableSize = maximumTableSize) (entry : Option Nat) : t.expand C entry = none := by
  have hdou : wrapInt ((t.tableSize : Int) * 2) = -(2 ^ 31) := by
    rw [hsize]
    decide
  have hpla : t.mustRehashInPlace = false := by
    rw [mustRehashInPlace, hdou, decide_eq_false_iff_not, not_lt]
    exact Int.le_bmod (by decide)
  have hzero : (t.tableSize == 0) = false := by
    rw [hsize]
    decide
  rw [expand, hzero, hpla, hdou]
  rfl

theorem finishAdd_eq_none (ht : Counted C { t with keyCount := t.keyCount + 1 })
    (hload : LoadNearlyOk t.contents.length (t.contents.countP C.isLive + t.contents.countP C.isMark))
    (hfull : t.contents.length ≤ 2 * (t.contents.countP C.isLive + t.contents.countP C.isMark))
    (hsize : t.contents.length = maximumTableSize) (p : Nat) : t.finishAdd C p = none := by
  have hexp := (shouldExpand_eq ht hload).trans (decide_eq_true hfull)
  have hnone := expand_maximum (C := C) (ht.tableSize_eq.trans hsize) (some p)
  simp only [finishAdd, hexp, if_true, hnone]
  rfl

theorem add_eq_none (L : C.Lawful) (hb : Holds C t) (hsize : t.contents.length = maximumTableSize)
    {translate : Value → T → Extra → Value} {extra : Extra} (hv : AddOk C tr key (addedValue C translate key extra))
    (hno : ∀ w ∈ t.contents, ¬ C.Matches tr key w) (hmar : t.contents.countP C.isMark = 0)
    (hfull : t.contents.length ≤ 2 * (t.contents.countP C.isLive + 1)) : t.add C tr translate key extra = none := by
  obtain ⟨hkey, hlive, heql⟩ := hv
  have hall : t.allocateIfNull C = some t := by rw [allocateIfNull, hb.table_eq]
  obtain ⟨result, hpro, hres⟩ := probeForWriting_spec L hb.toShape hb.hasEmptyBucket hkey
  rw [HashTable.add, hall]
  simp only [bind_eq_bind, bind_some, hpro]
  cases result with
  | found p =>
    obtain ⟨w, hw, hmat⟩ := hres
    exact absurd hmat (hno w (mem_of_getElem? hw))
  | vacant p d =>
    obtain ⟨-, ⟨w, hfree, hemp⟩, hd⟩ := hres
    cases d with
    | some q =>
      obtain ⟨x, hx, hmark⟩ := hd q rfl
      exact absurd hmark (by simpa using countP_eq_zero.mp hmar x (mem_of_getElem? hx.1))
    | none =>
      have hw : w = C.initializedBucket := hb.wf.eq_of_isEmptyBucket w (mem_of_getElem? hfree.1) hemp
      have hmark : C.isMark w = false := by rw [isMark, hemp]; rfl
      obtain ⟨hl, hm⟩ := countP_insert hfree.1 hfree.2.1 hlive
      rw [← hkey.hash_eq (isLive_iff.mp hlive) heql] at hfree
      have hcou := hb.write_counted L hfree hlive (apart_of_not_matches hkey heql hno)
        (show t.deletedCount = t.deletedCount - if C.isMark w then 1 else 0 by rw [hmark]; simp)
      have hload := hb.load.succ
      unfold LoadNearlyOk at hload
      simp only [at?_eq, hfree.1, bind_some]
      rw [hw]
      refine finishAdd_eq_none (t := t.write p _) hcou ?_ ?_ ?_ p <;> rw [contents_write, length_set]
      · rw [LoadNearlyOk, hl]
        omega
      · rw [hl]
        omega
      · exact hsize

/-- The calls that add 1, 2, …, `n`. -/
def addUpTo (n : Nat) : List (HashTableOp Unit UInt32 UInt32 UInt32 UInt32) :=
  (List.range n).map fun i => addUnsigned (UInt32.ofNat (i + 1))

theorem toNat_ofNat_succ (hn : n < 2 ^ 29) : (UInt32.ofNat (n + 1)).toNat = n + 1 :=
  UInt32.toNat_ofNat_of_lt' (by rw [UInt32.size]; omega)

theorem isLiveKey_ofNat (hn : n < 2 ^ 29) : unsignedTraits.IsLiveKey (UInt32.ofNat (n + 1)) := by
  have hnat := toNat_ofNat_succ hn
  constructor
  · apply beq_eq_false_iff_ne.mpr
    intro h
    rw [h] at hnat
    cases hnat
  · apply beq_eq_false_iff_ne.mpr
    intro h
    rw [h] at hnat
    have : (0xFFFFFFFF : UInt32).toNat = 4294967295 := rfl
    omega

theorem ofNat_succ_ne {i : Nat} (hi : i < n) (hn : n < 2 ^ 29) : UInt32.ofNat (i + 1) ≠ UInt32.ofNat (n + 1) := by
  intro h
  have hnat := congrArg UInt32.toNat h
  rw [toNat_ofNat_succ (hi.trans hn), toNat_ofNat_succ hn] at hnat
  omega

theorem run_map_addUnsigned (values : List UInt32) :
    ∀ t : HashTable UInt32, run (tableStep unsignedTraits) (fun _ => t) (values.map addUnsigned) =
      (addEach unsignedTraits values t).map fun t' _ => t' := by
  induction values with
  | nil => exact fun _ => rfl
  | cons v values ih =>
    intro t
    rw [map_cons, run, addUnsigned, tableStep, addEach, addValue]
    change ((t.add unsignedTraits unsignedTraits.identityTranslator (fun _ _ value => value) v v).map _).bind _ =
      ((t.add unsignedTraits unsignedTraits.identityTranslator (fun _ _ value => value) v v).bind _).map _
    cases t.add unsignedTraits unsignedTraits.identityTranslator (fun _ _ value => value) v v with
    | none => rfl
    | some r => exact ih r.1

/-- After fewer than `2 ^ 29` additions the table holds the numbers added, and nothing is deleted. -/
theorem run_addUpTo (hn : n < 2 ^ 29) :
    ∃ t, run (tableStep unsignedTraits) (fun _ => HashTable.empty) (addUpTo n) = some (fun _ => t) ∧
      Ok unsignedTraits t ∧ (∀ v, unsignedTraits.Stores t.contents v → ∃ i < n, v = UInt32.ofNat (i + 1)) ∧
      t.contents.countP unsignedTraits.isLive = n ∧ t.contents.countP unsignedTraits.isMark = 0 := by
  obtain ⟨t, hrun, hok, hsts, hlive, hmark⟩ := addEach_spec unsignedTraits_lawful
    ((List.range n).map fun i => UInt32.ofNat (i + 1)) HashTable.empty ok_empty rfl
    (by
      intro v hv
      obtain ⟨i, hi, rfl⟩ := mem_map.mp hv
      exact isLive_iff.mpr (isLiveKey_ofNat ((mem_range.mp hi).trans hn)))
    (by
      refine pairwise_map.mpr (pairwise_lt_range.imp_of_mem ?_)
      intro i j _ hj hij _ _
      exact beq_eq_false_iff_ne.mpr (ofNat_succ_ne hij ((mem_range.mp hj).trans hn)))
    (fun _ _ _ => nofun)
    (by
      rw [length_map, length_range, maximumTableSize]
      change 2 * (0 + n) < _
      omega)
  refine ⟨t, ?_, hok, ?_, ?_, hmark⟩
  · rw [addUpTo, ← Function.comp_def addUnsigned, ← List.map_map, run_map_addUnsigned, hrun]
    rfl
  · intro v hv
    rcases (hsts v).mp hv with hv | hv
    · cases hv.1
    · obtain ⟨i, hi, rfl⟩ := mem_map.mp hv
      exact ⟨i, mem_range.mp hi, rfl⟩
  · rw [hlive, length_map, length_range]
    exact Nat.zero_add n

/-- Adding `2 ^ 29` different numbers to a `HashSet<unsigned>` crashes. -/
theorem unsigned_run_crashes :
    run (tableStep unsignedTraits) (fun _ => HashTable.empty) (addUpTo (2 ^ 29)) = none := by
  obtain ⟨n, hn⟩ : ∃ n, 2 ^ 29 = n + 1 := ⟨2 ^ 29 - 1, by norm_num⟩
  have hlt : n < 2 ^ 29 := by omega
  obtain ⟨t, hrun, hok, hstored, hlive, hmark⟩ := run_addUpTo hlt
  rw [hn, addUpTo, range_succ, map_append, map_singleton]
  change run _ _ (addUpTo n ++ [_]) = _
  rw [run_concat, hrun, bind_some, addUnsigned, tableStep]
  rcases hok with ⟨hnull, -, -⟩ | hb
  · rw [contents_eq_nil hnull] at hlive
    simp at hlive
    omega
  · have hsize : t.contents.length = maximumTableSize := by
      obtain ⟨m, hm, hlen⟩ := hb.wf.length_eq
      have hload := hb.load
      unfold LoadOk at hload
      have : 30 ≤ m := two_pow_lt (show 2 ^ 29 < 2 ^ m by omega)
      rw [hlen, show m = 30 by omega, maximumTableSize]
    have hno : ∀ w ∈ t.contents,
        ¬ unsignedTraits.Matches unsignedTraits.identityTranslator (UInt32.ofNat (n + 1)) w := by
      intro w hw hmatch
      obtain ⟨i, hi, rfl⟩ := hstored w ⟨hw, hmatch.1⟩
      exact ofNat_succ_ne hi hlt (beq_iff_eq.mp hmatch.2)
    rw [add_eq_none unsignedTraits_lawful hb hsize (addOk_unsigned (isLiveKey_ofNat hlt)) hno hmark
      (by rw [hsize, hlive, maximumTableSize]; omega)]
    rfl

end WebV8
