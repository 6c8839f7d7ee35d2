import Mathlib

/-!
# `WTF::HashTable`

The class template of `wtf/HashTable.h`: open addressing with double hashing, in which a bucket is
empty, deleted or holds an entry, and what a bucket is can be read off the key in it.

The template parameters are one record, `HashTableTraits`. A pointer to a bucket is its index, the
end iterator is the index `tableSize`, and the array of buckets is a list; `m_table` may be null.
An `int` product or sum is written with `wrapInt`, its value in 32 bits of two's complement, and the
indices of a probe loop are the `UInt32` words of the `int`s of the source.

The probe loops are `while (1)` loops. Their model stops after as many rounds as there are buckets,
and answers `none`: by then the indices repeat and the loop of the source goes on for ever. `none`
also stands for an access outside the buckets and for a crash in `fastMalloc`.
-/

namespace WebV8

/-- The value of an `int` expression. -/
def wrapInt (x : Int) : Int := x.bmod (2 ^ 32)

/-! ## Template parameters -/

/-- `Extractor`, `HashFunctions`, `Traits` and `KeyTraits`. -/
structure HashTableTraits (Key Value : Type) where
  /-- `Extractor::extract` -/
  extract : Value → Key
  /-- `HashFunctions::hash` -/
  hash : Key → UInt32
  /-- `HashFunctions::equal` -/
  equal : Key → Key → Bool
  /-- `HashFunctions::safeToCompareToEmptyOrDeleted` -/
  safeToCompareToEmptyOrDeleted : Bool
  /-- `Traits::emptyValueIsZero` -/
  emptyValueIsZero : Bool
  /-- A value whose bytes are all zero. -/
  zeroedValue : Value
  /-- `Traits::emptyValue()` -/
  emptyValue : Value
  /-- What `Traits::constructDeletedValue` makes of a slot. -/
  constructDeletedValue : Value → Value
  /-- `KeyTraits::emptyValue()` -/
  emptyKey : Key
  /-- `isHashTraitsEmptyValue<KeyTraits>` -/
  isEmptyKey : Key → Bool
  /-- `KeyTraits::isDeletedValue` -/
  isDeletedKey : Key → Bool
  /-- `KeyTraits::minimumTableSize` -/
  minimumTableSize : Nat

/-- A `HashTranslator`: how to hash a value of another type, and how to compare a key with it. -/
structure HashTranslator (Key T : Type) where
  hash : T → UInt32
  equal : Key → T → Bool

variable {Key Value T Extra : Type}

namespace HashTableTraits

variable (C : HashTableTraits Key Value)

/-- `IdentityTranslatorType` -/
def identityTranslator : HashTranslator Key Key where
  hash := C.hash
  equal := C.equal

def isEmptyBucket (value : Value) : Bool := C.isEmptyKey (C.extract value)

def isDeletedBucket (value : Value) : Bool := C.isDeletedKey (C.extract value)

def isEmptyOrDeletedBucket (value : Value) : Bool := C.isEmptyBucket value || C.isDeletedBucket value

/-- What `initializeBucket` leaves in a bucket, whatever was there. -/
def initializedBucket : Value := if C.emptyValueIsZero then C.zeroedValue else C.emptyValue

def deleteBucket (bucket : Value) : Value := C.constructDeletedValue bucket

/-- The assertions of `checkKey`. -/
def checkKey (tr : HashTranslator Key T) (key : T) : Bool :=
  !C.safeToCompareToEmptyOrDeleted ||
    (!tr.equal C.emptyKey key &&
      !tr.equal (C.extract (C.constructDeletedValue C.initializedBucket)) key)

end HashTableTraits

/-! ## Probing -/

def doubleHash (key : UInt32) : UInt32 :=
  let key := ~~~key + (key >>> 23)
  let key := key ^^^ (key <<< 12)
  let key := key ^^^ (key >>> 7)
  let key := key ^^^ (key <<< 2)
  key ^^^ (key >>> 20)

/-- The loop that `lookup`, `lookupForWriting`, `fullLookupForWriting` and `add` share. `visit` is
    the part of its body in which they differ: it looks at one entry, and either ends the loop with
    a result or goes on with a new value of its variable. -/
def probe {σ ρ : Type} (visit : Nat → Value → σ → Except ρ σ) (table : List Value)
    (sizeMask h : UInt32) : Nat → UInt32 → UInt32 → σ → Option ρ
  | 0, _, _, _ => none
  | rounds + 1, i, k, s =>
    match table[i.toNat]? with
    | none => none
    | some entry =>
      match visit i.toNat entry s with
      | .error result => some result
      | .ok s =>
        -- the step is computed when it is first needed
        let k := if k == 0 then 1 ||| doubleHash h else k
        probe visit table sizeMask h rounds ((i + k) &&& sizeMask) k s

namespace HashTableTraits

variable (C : HashTableTraits Key Value) (tr : HashTranslator Key T) (key : T)

/-- The body of the loop of `lookup`: the answer is the entry, or null. -/
def visitForLookup (i : Nat) (entry : Value) (_ : Unit) : Except (Option Nat) Unit :=
  if C.safeToCompareToEmptyOrDeleted then
    if tr.equal (C.extract entry) key then .error (some i)
    else if C.isEmptyBucket entry then .error none
    else .ok ()
  else
    if C.isEmptyBucket entry then .error none
    else if !C.isDeletedBucket entry && tr.equal (C.extract entry) key then .error (some i)
    else .ok ()

/-- How a loop that looks for a place to write ends: at the key, or at an empty bucket, with the
    deleted bucket met last. -/
inductive WritingProbe where
  | found (entry : Nat)
  | vacant (entry : Nat) (deletedEntry : Option Nat)
deriving Repr, DecidableEq

/-- The body of the loops of `lookupForWriting`, `fullLookupForWriting` and `add`. -/
def visitForWriting (i : Nat) (entry : Value) (deletedEntry : Option Nat) :
    Except WritingProbe (Option Nat) :=
  if C.safeToCompareToEmptyOrDeleted then
    if C.isEmptyBucket entry then .error (.vacant i deletedEntry)
    else if tr.equal (C.extract entry) key then .error (.found i)
    else if C.isDeletedBucket entry then .ok (some i)
    else .ok deletedEntry
  else
    if C.isEmptyBucket entry then .error (.vacant i deletedEntry)
    else if C.isDeletedBucket entry then .ok (some i)
    else if tr.equal (C.extract entry) key then .error (.found i)
    else .ok deletedEntry

/-- `LookupType`: the entry, and whether it holds the key. -/
def WritingProbe.lookup : WritingProbe → Nat × Bool
  | .found entry => (entry, true)
  | .vacant entry deletedEntry => (deletedEntry.getD entry, false)

end HashTableTraits

open HashTableTraits

/-! ## The table -/

structure HashTable (Value : Type) where
  table : Option (List Value)
  tableSize : Nat
  tableSizeMask : Nat
  keyCount : Int
  deletedCount : Int
deriving Repr, DecidableEq

structure HashTableAddResult where
  iterator : Nat
  isNewEntry : Bool
deriving Repr, DecidableEq

namespace HashTable

/-- `HashTable()` -/
def empty : HashTable Value :=
  { table := none, tableSize := 0, tableSizeMask := 0, keyCount := 0, deletedCount := 0 }

def maxLoad : Int := 2

def minLoad : Int := 6

section

variable (t : HashTable Value)

def isEmpty : Bool := t.keyCount == 0

/-- The iterator of `end()`. -/
def endPosition : Nat := t.tableSize

def write (position : Nat) (value : Value) : HashTable Value :=
  { t with table := t.table.map fun buckets => buckets.set position value }

def at? (position : Nat) : Option Value :=
  t.table.bind fun buckets => buckets[position]?

def shouldExpand : Bool :=
  decide (wrapInt ((t.keyCount + t.deletedCount) * maxLoad) ≥ t.tableSize)

def mustRehashInPlace : Bool :=
  decide (wrapInt (t.keyCount * minLoad) < wrapInt (t.tableSize * 2))

end

def probeFrom {σ ρ : Type} (t : HashTable Value) (visit : Nat → Value → σ → Except ρ σ)
    (h : UInt32) (s : σ) : Option ρ :=
  let sizeMask := UInt32.ofNat t.tableSizeMask
  t.table.bind fun table => probe visit table sizeMask h t.tableSize (h &&& sizeMask) 0 s

variable (C : HashTableTraits Key Value)

section

variable (t : HashTable Value)

def shouldShrink : Bool :=
  decide (wrapInt (t.keyCount * minLoad) < t.tableSize) && decide (t.tableSize > C.minimumTableSize)

/-! ### Looking up -/

section

variable (tr : HashTranslator Key T)

def lookup (key : T) : Option (Option Nat) :=
  match t.table with
  | none => some none
  | some _ => t.probeFrom (C.visitForLookup tr key) (tr.hash key) ()

def lookupForWriting (key : T) :
    Option (Nat × Bool) := do
  let result ← t.probeFrom (C.visitForWriting tr key) (tr.hash key) none
  return result.lookup

def fullLookupForWriting (key : T) :
    Option ((Nat × Bool) × UInt32) := do
  let h := tr.hash key
  let result ← t.probeFrom (C.visitForWriting tr key) h none
  return (result.lookup, h)

def find (key : T) : Option Nat :=
  match t.table with
  | none => some t.endPosition
  | some _ => do
    let entry ← t.lookup C tr key
    return entry.getD t.endPosition

def contains (key : T) : Option Bool :=
  match t.table with
  | none => some false
  | some _ => do
    let entry ← t.lookup C tr key
    return entry.isSome

end

/-! ### Iterating -/

/-- `skipEmptyBuckets` of an iterator at `position`; an iterator is never beyond the end. -/
def skipEmptyBuckets (table : List Value) (position endPosition : Nat) : Nat :=
  if position < endPosition then
    match table[position]? with
    | none => position
    | some bucket =>
      if C.isEmptyOrDeletedBucket bucket then skipEmptyBuckets table (position + 1) endPosition
      else position
  else position
termination_by endPosition - position

theorem le_skipEmptyBuckets (table : List Value) (position endPosition : Nat) :
    position ≤ skipEmptyBuckets C table position endPosition := by
  fun_induction skipEmptyBuckets C table position endPosition with
  | case2 position _ _ _ _ ih => exact Nat.le_trans (Nat.le_succ position) ih
  | _ => exact Nat.le_refl _

/-- The iterator of `begin()`. -/
def begin : Nat :=
  if t.isEmpty then t.endPosition
  else skipEmptyBuckets C (t.table.getD []) 0 t.endPosition

/-- The positions of a loop `for (it = …; it != end; ++it)`. -/
def iterateFrom (table : List Value) (position endPosition : Nat) : List Nat :=
  if position < endPosition then
    position :: iterateFrom table (skipEmptyBuckets C table (position + 1) endPosition) endPosition
  else []
termination_by endPosition - position
decreasing_by
  have := le_skipEmptyBuckets C table (position + 1) endPosition
  omega

/-- The positions of a loop from `begin()` to `end()`. -/
def iterate : List Nat :=
  iterateFrom C (t.table.getD []) (t.begin C) t.endPosition

/-! ### Rehashing -/

/-- `allocateTable`: `fastMalloc` crashes on the size that a negative `int` stands for. -/
def allocateTable (size : Int) : Option (List Value) :=
  if size < 0 then none else some (List.replicate size.toNat C.initializedBucket)

def reinsert (entry : Value) : Option (HashTable Value × Nat) := do
  let (newEntry, _) ← t.lookupForWriting C C.identityTranslator (C.extract entry)
  return (t.write newEntry entry, newEntry)

end

/-- The loop of `rehash` over the old buckets from index `i` on. -/
def rehashLoop (entry : Option Nat) :
    List Value → Nat → HashTable Value → Option Nat → Option (HashTable Value × Option Nat)
  | [], _, t, newEntry => some (t, newEntry)
  | bucket :: oldTable, i, t, newEntry =>
    if C.isEmptyOrDeletedBucket bucket then rehashLoop entry oldTable (i + 1) t newEntry
    else do
      let (t, reinsertedEntry) ← t.reinsert C bucket
      rehashLoop entry oldTable (i + 1) t (if entry == some i then some reinsertedEntry else newEntry)

section

variable (t : HashTable Value)

def rehash (newTableSize : Int) (entry : Option Nat) :
    Option (HashTable Value × Option Nat) := do
  let table ← allocateTable C newTableSize
  let (new, newEntry) ← rehashLoop C entry (t.table.getD []) 0
    { t with tableSize := newTableSize.toNat, tableSizeMask := newTableSize.toNat - 1, table := some table }
    none
  return ({ new with deletedCount := 0 }, newEntry)

def expand (entry : Option Nat) : Option (HashTable Value × Option Nat) :=
  let newSize : Int :=
    if t.tableSize == 0 then C.minimumTableSize
    else if t.mustRehashInPlace then t.tableSize
    else wrapInt (t.tableSize * 2)
  t.rehash C newSize entry

def shrink : Option (HashTable Value) := do
  let (t, _) ← t.rehash C (t.tableSize / 2 : Nat) none
  return t

/-! ### Adding -/

/-- The first lines of `add` and `addPassingHashCode`: a table that has no buckets gets some. -/
def allocateIfNull : Option (HashTable Value) :=
  match t.table with
  | none => do
    let (t, _) ← t.expand C none
    return t
  | some _ => some t

/-- The last lines of both: count the new entry, and expand. -/
def finishAdd (entry : Nat) : Option (HashTable Value × HashTableAddResult) :=
  let t := { t with keyCount := t.keyCount + 1 }
  if t.shouldExpand then do
    let (t, newEntry) ← t.expand C (some entry)
    -- `expand` answers null only if it was not given an entry of the table
    let newEntry ← newEntry
    return (t, { iterator := newEntry, isNewEntry := true })
  else some (t, { iterator := entry, isNewEntry := true })

/-- `add<HashTranslator>` -/
def add (tr : HashTranslator Key T) (translate : Value → T → Extra → Value)
    (key : T) (extra : Extra) : Option (HashTable Value × HashTableAddResult) := do
  let t ← t.allocateIfNull C
  match ← t.probeFrom (C.visitForWriting tr key) (tr.hash key) none with
  | .found entry => return (t, { iterator := entry, isNewEntry := false })
  | .vacant entry none => do
    let bucket ← t.at? entry
    (t.write entry (translate bucket key extra)).finishAdd C entry
  | .vacant _ (some deletedEntry) =>
    let t := { t with deletedCount := t.deletedCount - 1 }
    (t.write deletedEntry (translate C.initializedBucket key extra)).finishAdd C deletedEntry

/-- `add(const ValueType&)` -/
def addValue (value : Value) : Option (HashTable Value × HashTableAddResult) :=
  t.add C C.identityTranslator (fun _ _ value => value) (C.extract value) value

/-- `addPassingHashCode<HashTranslator>` -/
def addPassingHashCode (tr : HashTranslator Key T)
    (translate : Value → T → Extra → UInt32 → Value) (key : T) (extra : Extra) :
    Option (HashTable Value × HashTableAddResult) := do
  let t ← t.allocateIfNull C
  let ((entry, found), h) ← t.fullLookupForWriting C tr key
  if found then return (t, { iterator := entry, isNewEntry := false })
  let bucket ← t.at? entry
  if C.isDeletedBucket bucket then
    let t := { t with deletedCount := t.deletedCount - 1 }
    (t.write entry (translate C.initializedBucket key extra h)).finishAdd C entry
  else (t.write entry (translate bucket key extra h)).finishAdd C entry

/-! ### Removing -/

/-- What `remove` and `removeIf` do to the bucket of an entry. -/
def deleteEntry (position : Nat) (bucket : Value) : HashTable Value :=
  let t := t.write position (C.deleteBucket bucket)
  { t with deletedCount := t.deletedCount + 1, keyCount := t.keyCount - 1 }

/-- The last lines of `remove` and `removeIf`. -/
def shrinkIfSparse : Option (HashTable Value) :=
  if t.shouldShrink C then t.shrink C else some t

/-- `remove(ValueType*)` -/
def removeAt (position : Nat) : Option (HashTable Value) := do
  let bucket ← t.at? position
  (t.deleteEntry C position bucket).shrinkIfSparse C

/-- `remove(iterator)` -/
def removeIterator (position : Nat) : Option (HashTable Value) :=
  if position == t.endPosition then some t else t.removeAt C position

/-- `remove(const KeyType&)` -/
def remove (key : Key) : Option (HashTable Value) := do
  let it ← t.find C C.identityTranslator key
  t.removeIterator C it

end

/-- The loop of `removeIf`, from index `i - 1` down. -/
def removeIfLoop (functor : Value → Bool) : Nat → HashTable Value → Option (HashTable Value)
  | 0, t => some t
  | i + 1, t => do
    let bucket ← t.at? i
    if C.isEmptyOrDeletedBucket bucket then removeIfLoop functor i t
    else if !functor bucket then removeIfLoop functor i t
    else removeIfLoop functor i (t.deleteEntry C i bucket)

def removeIf (t : HashTable Value) (functor : Value → Bool) : Option (HashTable Value) := do
  let t ← removeIfLoop C functor t.tableSize t
  t.shrinkIfSparse C

/-- `clear` leaves `m_deletedCount` as it is. -/
def clear (t : HashTable Value) : HashTable Value :=
  match t.table with
  | none => t
  | some _ => { t with table := none, tableSize := 0, tableSizeMask := 0, keyCount := 0 }

/-! ### Copying -/

def addEach : List Value → HashTable Value → Option (HashTable Value)
  | [], t => some t
  | value :: values, t => do
    let (t, _) ← t.addValue C value
    addEach values t

/-- `HashTable(const HashTable&)` -/
def copy (other : HashTable Value) : Option (HashTable Value) :=
  addEach C ((other.iterate C).filterMap other.at?) empty

/-- `swap`: what the two tables hold afterwards. -/
def swap (t other : HashTable Value) : HashTable Value × HashTable Value := (other, t)

/-- `operator=(const HashTable&)` -/
def assign (t other : HashTable Value) : Option (HashTable Value) := do
  let tmp ← other.copy C
  return (t.swap tmp).1

end HashTable

end WebV8
