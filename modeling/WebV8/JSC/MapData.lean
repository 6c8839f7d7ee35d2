import WebV8.Lib.Slots
import WebV8.Lib.Run

/-! # MapData

The storage of JavaScript maps and sets: an array of entries in the order of insertion, and three hash tables,
one for each kind of key, from keys to places in the array. A removed entry stays in the array with its key
cleared. When the array is full, it is replaced by a larger one, and if there are removed entries and no
iterators it is packed on the way: the old entries are overwritten with forwarding indices, and the tables are
to be corrected with these.

The three kinds of keys, and values other than numbers, are left open. Counts are natural numbers.
-/

namespace WebV8.JSC

inductive Key (Str Cell Imm : Type) where
  | string (s : Str)
  | cell (c : Cell)
  | value (i : Imm)
  deriving DecidableEq

inductive JSValue (Val : Type) where
  | int32 (n : Nat)
  | other (v : Val)
  deriving DecidableEq

/-- The answer for a value that is not a number is arbitrary. -/
def JSValue.asInt32 {Val : Type} : JSValue Val → Nat
  | int32 n => n
  | other _ => 0

variable {Str Cell Imm Val : Type}

/-- `Entry`; `none` if key and value are cleared. -/
abbrev Entry (Str Cell Imm Val : Type) := Option (Key Str Cell Imm × JSValue Val)

/-- The entries up to `m_size`, the tables and the counters. -/
structure MapData (Str Cell Imm Val : Type) where
  cellKeyedTable : Cell → Option Nat
  valueKeyedTable : Imm → Option Nat
  stringKeyedTable : Str → Option Nat
  capacity : Nat
  deletedCount : Nat
  iteratorCount : Int
  entries : List (Entry Str Cell Imm Val)

namespace MapData

def minimumMapSize : Nat := 8

def create : MapData Str Cell Imm Val := ⟨fun _ => none, fun _ => none, fun _ => none, 0, 0, 0, []⟩

section

variable (m : MapData Str Cell Imm Val)

def storedSize : Nat := m.entries.length

def size : Nat := m.storedSize - m.deletedCount

def shouldPack : Bool := m.deletedCount ≠ 0 && m.iteratorCount = 0

def index : Key Str Cell Imm → Option Nat
  | .string s => m.stringKeyedTable s
  | .cell c => m.cellKeyedTable c
  | .value i => m.valueKeyedTable i

end

section

variable [DecidableEq Str] [DecidableEq Cell] [DecidableEq Imm]

def setIndex (m : MapData Str Cell Imm Val) (k : Key Str Cell Imm) (i : Option Nat) : MapData Str Cell Imm Val :=
  match k with
  | .string s => { m with stringKeyedTable := Function.update m.stringKeyedTable s i }
  | .cell c => { m with cellKeyedTable := Function.update m.cellKeyedTable c i }
  | .value v => { m with valueKeyedTable := Function.update m.valueKeyedTable v i }

end

/-! ## Growth -/

/-- The loop of `replaceAndPackBackingStore`: the entries of the new store, and the old entries with their
    forwarding indices. -/
def packLoop : List (Entry Str Cell Imm Val) → Nat → List (Entry Str Cell Imm Val) × List (Entry Str Cell Imm Val)
  | [], _ => ([], [])
  | none :: es, newEnd =>
    let (destination, old) := packLoop es newEnd
    (destination, none :: old)
  | some (k, v) :: es, newEnd =>
    let (destination, old) := packLoop es (newEnd + 1)
    (some (k, v) :: destination, some (k, .int32 newEnd) :: old)

/-- `m_entries[i].value.get().asInt32()`, arbitrary for an entry that is cleared. -/
def forwardingIndex (old : List (Entry Str Cell Imm Val)) (i : Nat) : Nat :=
  match old[i]? with
  | some (some (_, v)) => v.asInt32
  | _ => 0

def replaceAndPackBackingStore (m : MapData Str Cell Imm Val) (newCapacity : Nat) : MapData Str Cell Imm Val :=
  let (destination, old) := packLoop m.entries 0
  { m with
    valueKeyedTable := fun k => (m.valueKeyedTable k).map (forwardingIndex old)
    stringKeyedTable := fun k => (m.stringKeyedTable k).map (forwardingIndex old)
    deletedCount := 0
    capacity := newCapacity
    entries := destination }

def replaceBackingStore (m : MapData Str Cell Imm Val) (newCapacity : Nat) : MapData Str Cell Imm Val :=
  { m with capacity := newCapacity }

/-- `none` if no storage can be allocated. -/
def ensureSpaceForAppend (allocates : Bool) (m : MapData Str Cell Imm Val) : Option (MapData Str Cell Imm Val) :=
  if m.storedSize < m.capacity then some m
  else
    let requiredSize := max (m.capacity + m.capacity / 2 + 1) minimumMapSize
    if !allocates then none
    else if m.shouldPack then some (m.replaceAndPackBackingStore requiredSize)
    else some (m.replaceBackingStore requiredSize)

/-! ## Operations

An answer of `none` stands for an access to an entry that does not exist. -/

section

variable [DecidableEq Str] [DecidableEq Cell] [DecidableEq Imm] (m : MapData Str Cell Imm Val) (k : Key Str Cell Imm)

/-- `find`; the inner `none` for no entry, an entry that is cleared for one that should not be. -/
def find : Option (Option (Entry Str Cell Imm Val)) :=
  match m.index k with
  | none => some none
  | some i => m.entries[i]?.map some

def contains : Bool := (m.index k).isSome

/-- The inner `none` stands for the empty value. -/
def get : Option (Option (JSValue Val)) :=
  (m.find k).map fun e => e.join.map Prod.snd

def set (allocates : Bool) (m : MapData Str Cell Imm Val) (k : Key Str Cell Imm) (v : JSValue Val) :
    Option (MapData Str Cell Imm Val × Bool) :=
  match m.index k with
  | some i => m.entries[i]?.map fun e => ({ m with entries := m.entries.set i (e.map fun p => (p.1, v)) }, false)
  | none =>
    match m.ensureSpaceForAppend allocates with
    | none => some (m, true)
    | some m => some ({ m.setIndex k (some m.storedSize) with entries := m.entries ++ [some (k, v)] }, false)

def remove : Option (MapData Str Cell Imm Val × Bool) :=
  match m.index k with
  | none => some (m, false)
  | some i =>
    m.entries[i]?.map fun _ =>
      ({ m.setIndex k none with entries := m.entries.set i none, deletedCount := m.deletedCount + 1 }, true)

def clear : MapData Str Cell Imm Val :=
  { m with
    cellKeyedTable := fun _ => none
    valueKeyedTable := fun _ => none
    stringKeyedTable := fun _ => none
    capacity := 0
    deletedCount := 0
    entries := [] }

end

/-! ## Iterators -/

/-- The loop of `internalIncrement`: the first place from `index` on that is not cleared, or the end. -/
def skipCleared (entries : List (Entry Str Cell Imm Val)) (index : Nat) : Nat :=
  if h : index < entries.length then
    if entries[index].isNone then skipCleared entries (index + 1) else index
  else index
termination_by entries.length - index

theorem le_skipCleared (entries : List (Entry Str Cell Imm Val)) (index : Nat) :
    index ≤ skipCleared entries index := by
  fun_induction skipCleared entries index with
  | case1 _ _ _ ih => omega
  | case2 => exact le_rfl
  | case3 => exact le_rfl

/-- `*it` for each `it` from a place on to the end. -/
def iterationFrom (entries : List (Entry Str Cell Imm Val)) (index : Nat) : List (Key Str Cell Imm × JSValue Val) :=
  if h : index < entries.length then
    entries[index].toList ++ iterationFrom entries (skipCleared entries (index + 1))
  else []
termination_by entries.length - index
decreasing_by
  have := le_skipCleared entries (index + 1)
  omega

/-- The whole iteration, from `begin()`. -/
def iteration (m : MapData Str Cell Imm Val) : List (Key Str Cell Imm × JSValue Val) :=
  iterationFrom m.entries (skipCleared m.entries 0)

end MapData

end WebV8.JSC
