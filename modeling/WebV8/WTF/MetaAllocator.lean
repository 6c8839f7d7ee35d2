import WebV8.Lib.Extents
import WebV8.WTF.RedBlackTreeRun

/-!
# `MetaAllocator`

The allocator of `wtf/MetaAllocator.cpp`, which hands out handles to extents of memory. Free space
is kept in nodes that are in three indices: a red-black tree by size, and two hash maps by the first
address of a node and by the address after its last one. The pages that handles lie on are counted.

Addresses and sizes are 64-bit words, and null is 0. The two maps by address are partial functions with
the contract of `HashMap`: `add` leaves an entry that is there already. What the allocator calls, and
what `fastMalloc` returns, comes with the operation: `space` is `allocateNewSpace`, from the number of
pages requested to the address and the number of pages it got, and `new` is the address of a new node.
`CRASH()` and a look-up of an absent page have no result.

No tree has as many nodes as there are addresses, so that many rounds are enough for its loops.
-/

namespace WebV8

open Lib

namespace MetaAllocator

/-! ## Words -/

def word (n : Nat) : Nat := n % 2 ^ 64

def wordSub (a b : Nat) : Nat := (a + 2 ^ 64 - b) % 2 ^ 64

/-- `x & ~(n - 1)` -/
def maskBelow (x n : Nat) : Nat := x &&& (2 ^ 64 - 1 - (n - 1))

/-! ## State -/

/-- What the constructor computes and asserts: the two sizes are powers of two. -/
structure Config where
  logAllocationGranule : Nat
  logPageSize : Nat
  granule_lt : logAllocationGranule < 32
  page_lt : logPageSize < 32

def Config.allocationGranule (cfg : Config) : Nat := 2 ^ cfg.logAllocationGranule

def Config.pageSize (cfg : Config) : Nat := 2 ^ cfg.logPageSize

/-- The three indices of the free space nodes, with the memory of the nodes. -/
structure FreeSpaceMaps (ι : Type) where
  freeSpaceSizeMap : LinkedTree ι Extent
  freeSpaceStartAddressMap : Nat → Option ι
  freeSpaceEndAddressMap : Nat → Option ι

/-- A call of `notifyNeedPage` or of `notifyPageIsFree`. -/
inductive PageEvent where
  | needPage
  | pageIsFree
deriving DecidableEq, Repr

/-- The pages in use, with the notifications about pages that have been sent. -/
structure PageOccupancy where
  pageOccupancyMap : Nat → Option Nat
  bytesCommitted : Nat
  notified : List (Nat × PageEvent)

end MetaAllocator

open MetaAllocator

structure MetaAllocator (ι : Type) extends FreeSpaceMaps ι, PageOccupancy where
  bytesAllocated : Nat
  bytesReserved : Nat
  handles : List Extent

namespace MetaAllocator

variable {ι : Type} [DecidableEq ι]

/-! ## Indices -/

variable (f : FreeSpaceMaps ι) (address : Nat)

namespace FreeSpaceMaps

def rounds : Nat := 2 ^ 64

def node (f : FreeSpaceMaps ι) (x : ι) : Extent := (f.freeSpaceSizeMap.node x).data

def setNode (x : ι) (r : Extent) : FreeSpaceMaps ι :=
  { f with freeSpaceSizeMap := f.freeSpaceSizeMap.setData x r }

def removeFromSizeMap (x : ι) : Option (FreeSpaceMaps ι) :=
  (RedBlackTree.remove rounds f.freeSpaceSizeMap x).map fun t => { f with freeSpaceSizeMap := t }

def insertIntoSizeMap (x : ι) : Option (FreeSpaceMaps ι) :=
  (RedBlackTree.insert Extent.size rounds f.freeSpaceSizeMap x).map fun t =>
    { f with freeSpaceSizeMap := t }

def removeStart : FreeSpaceMaps ι :=
  { f with freeSpaceStartAddressMap := Function.update f.freeSpaceStartAddressMap address none }

def removeEnd : FreeSpaceMaps ι :=
  { f with freeSpaceEndAddressMap := Function.update f.freeSpaceEndAddressMap address none }

/-- `HashMap::add` -/
def addEntry (m : Nat → Option ι) (address : Nat) (x : ι) : Nat → Option ι :=
  if m address = none then Function.update m address (some x) else m

def addStart (x : ι) : FreeSpaceMaps ι :=
  { f with freeSpaceStartAddressMap := addEntry f.freeSpaceStartAddressMap address x }

def addEnd (x : ι) : FreeSpaceMaps ι :=
  { f with freeSpaceEndAddressMap := addEntry f.freeSpaceEndAddressMap address x }

def addFreeSpace (start sizeInBytes : Nat) (new : ι) :
    Option (FreeSpaceMaps ι) :=
  let stop := word (start + sizeInBytes)
  match f.freeSpaceEndAddressMap start, f.freeSpaceStartAddressMap stop with
  | some leftNode, some rightNode => do
    let left := f.node leftNode
    let leftEnd := word (left.start + left.size)
    let f ← f.removeFromSizeMap leftNode
    let f := f.removeEnd leftEnd
    -- freeing something in the middle of free blocks
    let rightSize := (f.node rightNode).size
    let rightEnd := word (stop + rightSize)
    let f ← f.removeFromSizeMap rightNode
    let f := (f.removeStart stop).removeEnd rightEnd
    let f := f.setNode leftNode ⟨left.start, word (left.size + word (sizeInBytes + rightSize))⟩
    let f ← f.insertIntoSizeMap leftNode
    return f.addEnd rightEnd leftNode
  | some leftNode, none => do
    let left := f.node leftNode
    let leftEnd := word (left.start + left.size)
    let f ← f.removeFromSizeMap leftNode
    let f := f.removeEnd leftEnd
    let f := f.setNode leftNode ⟨left.start, word (left.size + sizeInBytes)⟩
    let f ← f.insertIntoSizeMap leftNode
    return f.addEnd stop leftNode
  | none, some rightNode => do
    let rightSize := (f.node rightNode).size
    let f ← f.removeFromSizeMap rightNode
    let f := f.removeStart stop
    let f := f.setNode rightNode ⟨start, word (rightSize + sizeInBytes)⟩
    let f ← f.insertIntoSizeMap rightNode
    return f.addStart start rightNode
  | none, none => do
    let f := f.setNode new ⟨start, sizeInBytes⟩
    let f ← f.insertIntoSizeMap new
    return (f.addStart start new).addEnd stop new

/-- Whether an allocation on the left side of a node straddles no more pages than one on the right. -/
def preferLeft (cfg : Config) (node : Extent) (sizeInBytes : Nat) : Bool :=
  let firstPage := node.start >>> cfg.logPageSize
  let lastPage := wordSub (word (node.start + node.size)) 1 >>> cfg.logPageSize
  let lastPageForLeftAllocation := wordSub (word (node.start + sizeInBytes)) 1 >>> cfg.logPageSize
  let firstPageForRightAllocation :=
    wordSub (word (node.start + node.size)) sizeInBytes >>> cfg.logPageSize
  word (wordSub lastPageForLeftAllocation firstPage + 1) ≤
    word (wordSub lastPage firstPageForRightAllocation + 1)

/-- The part of `findAndRemoveFreeSpace` after the node has been taken out of the size map. -/
def takeFrom (cfg : Config) (f : FreeSpaceMaps ι) (node : ι) (r : Extent) (sizeInBytes : Nat) :
    Option (FreeSpaceMaps ι × Nat) :=
  if r.size = sizeInBytes then
    -- easy case: perfect fit, so just remove the node entirely
    some ((f.removeStart r.start).removeEnd (word (r.start + r.size)), r.start)
  else if preferLeft cfg r sizeInBytes then do
    let f := f.removeStart r.start
    let start := word (r.start + sizeInBytes)
    let f := f.setNode node ⟨start, wordSub r.size sizeInBytes⟩
    let f ← f.insertIntoSizeMap node
    return (f.addStart start node, r.start)
  else do
    let result := wordSub (word (r.start + r.size)) sizeInBytes
    let f := f.removeEnd (word (r.start + r.size))
    let f := f.setNode node ⟨r.start, wordSub r.size sizeInBytes⟩
    let f ← f.insertIntoSizeMap node
    return (f.addEnd result node, result)

def findAndRemoveFreeSpace (cfg : Config) (f : FreeSpaceMaps ι) (sizeInBytes : Nat) :
    Option (FreeSpaceMaps ι × Nat) := do
  let node ← RedBlackTree.findLeastGreaterThanOrEqual Extent.size f.freeSpaceSizeMap sizeInBytes rounds
    none f.freeSpaceSizeMap.root
  match node with
  | none => return (f, 0)
  | some node =>
    let f ← f.removeFromSizeMap node
    takeFrom cfg f node (f.node node) sizeInBytes

end FreeSpaceMaps

/-! ## Pages -/

variable (cfg : Config)

/-- The pages from the first to the last one of an extent, as the two loops over them go. -/
def pages (address sizeInBytes : Nat) : List Nat :=
  let firstPage := address >>> cfg.logPageSize
  let lastPage := wordSub (word (address + sizeInBytes)) 1 >>> cfg.logPageSize
  List.range' firstPage (lastPage + 1 - firstPage)

variable (o : PageOccupancy)

namespace PageOccupancy

def incrementPage (page : Nat) : PageOccupancy :=
  match o.pageOccupancyMap page with
  | none =>
    { pageOccupancyMap := Function.update o.pageOccupancyMap page (some 1)
      bytesCommitted := word (o.bytesCommitted + cfg.pageSize)
      notified := o.notified ++ [(page, .needPage)] }
  | some n => { o with pageOccupancyMap := Function.update o.pageOccupancyMap page (some (n + 1)) }

def incrementPageOccupancy (address sizeInBytes : Nat) : PageOccupancy :=
  (pages cfg address sizeInBytes).foldl (incrementPage cfg) o

def decrementPage (page : Nat) : Option PageOccupancy :=
  match o.pageOccupancyMap page with
  | none => none
  | some n =>
    if n = 1 then
      some
        { pageOccupancyMap := Function.update o.pageOccupancyMap page none
          bytesCommitted := wordSub o.bytesCommitted cfg.pageSize
          notified := o.notified ++ [(page, .pageIsFree)] }
    else
      some { o with pageOccupancyMap := Function.update o.pageOccupancyMap page (some (n - 1)) }

def decrementPageOccupancy (address sizeInBytes : Nat) : Option PageOccupancy :=
  run (decrementPage cfg) o (pages cfg address sizeInBytes)

/-- What `shrink` does with the pages of the extent that it frees. -/
def decrementFreedPages (freeStart freeSize : Nat) : Option PageOccupancy :=
  let freeEnd := word (freeStart + freeSize)
  let firstCompletelyFreePage := maskBelow (word (freeStart + cfg.pageSize - 1)) cfg.pageSize
  if firstCompletelyFreePage < freeEnd then
    decrementPageOccupancy cfg o firstCompletelyFreePage
      (wordSub freeSize (wordSub firstCompletelyFreePage freeStart))
  else some o

end PageOccupancy

/-! ## Operations -/

def roundUp (sizeInBytes : Nat) : Option Nat :=
  if 2 ^ 64 - 1 - cfg.allocationGranule ≤ sizeInBytes then none
  else some (maskBelow (word (sizeInBytes + cfg.allocationGranule - 1)) cfg.allocationGranule)

def requestedNumberOfPages (sizeInBytes : Nat) : Nat :=
  word (sizeInBytes + cfg.pageSize - 1) >>> cfg.logPageSize

variable (s : MetaAllocator ι)

/-- The end of `allocate`. -/
def handOut (start sizeInBytes : Nat) : MetaAllocator ι × Option Extent :=
  ({ s with
      toPageOccupancy := s.toPageOccupancy.incrementPageOccupancy cfg start sizeInBytes
      bytesAllocated := word (s.bytesAllocated + sizeInBytes)
      handles := ⟨start, sizeInBytes⟩ :: s.handles },
    some ⟨start, sizeInBytes⟩)

/-- The part of `allocate` that gets new space. -/
def allocateFrom (sizeInBytes start numberOfPages : Nat) (new : ι) :
    Option (MetaAllocator ι × Option Extent) :=
  let roundedUpSize := word (numberOfPages <<< cfg.logPageSize)
  let s := { s with bytesReserved := word (s.bytesReserved + roundedUpSize) }
  if roundedUpSize > sizeInBytes then do
    let freeSpaceStart := word (start + sizeInBytes)
    let freeSpaceSize := wordSub roundedUpSize sizeInBytes
    let f ← s.toFreeSpaceMaps.addFreeSpace freeSpaceStart freeSpaceSize new
    return handOut cfg { s with toFreeSpaceMaps := f } start sizeInBytes
  else some (handOut cfg s start sizeInBytes)

/-- `allocate`; the result is null or a handle. -/
def allocate (sizeInBytes : Nat) (space : Nat → Nat × Nat) (new : ι) :
    Option (MetaAllocator ι × Option Extent) :=
  if sizeInBytes = 0 then some (s, none)
  else do
    let sizeInBytes ← roundUp cfg sizeInBytes
    let (f, start) ← s.toFreeSpaceMaps.findAndRemoveFreeSpace cfg sizeInBytes
    let s := { s with toFreeSpaceMaps := f }
    if start = 0 then
      let (start, numberOfPages) := space (requestedNumberOfPages cfg sizeInBytes)
      if start = 0 then return (s, none)
      else allocateFrom cfg s sizeInBytes start numberOfPages new
    else return handOut cfg s start sizeInBytes

def addFreeSpaceFromReleasedHandle (start sizeInBytes : Nat) (new : ι) :
    Option (MetaAllocator ι) := do
  let s := { s with bytesAllocated := wordSub s.bytesAllocated sizeInBytes }
  let f ← s.toFreeSpaceMaps.addFreeSpace start sizeInBytes new
  return { s with toFreeSpaceMaps := f }

def addFreshFreeSpace (start sizeInBytes : Nat) (new : ι) :
    Option (MetaAllocator ι) := do
  let s := { s with bytesReserved := word (s.bytesReserved + sizeInBytes) }
  let f ← s.toFreeSpaceMaps.addFreeSpace start sizeInBytes new
  return { s with toFreeSpaceMaps := f }

/-- `release` of the handle at a position, from its destructor. -/
def release (i : Nat) (new : ι) : Option (MetaAllocator ι) := do
  let handle ← s.handles[i]?
  let s := { s with handles := s.handles.eraseIdx i }
  if handle.size ≠ 0 then do
    let o ← s.toPageOccupancy.decrementPageOccupancy cfg handle.start handle.size
    addFreeSpaceFromReleasedHandle { s with toPageOccupancy := o } handle.start handle.size new
  else return s

/-- `shrink` of the handle at a position. -/
def shrink (i newSizeInBytes : Nat) (new : ι) : Option (MetaAllocator ι) := do
  let handle ← s.handles[i]?
  let newSizeInBytes ← roundUp cfg newSizeInBytes
  if newSizeInBytes = handle.size then return s
  else do
    let freeStart := word (handle.start + newSizeInBytes)
    let freeSize := wordSub handle.size newSizeInBytes
    let o ← s.toPageOccupancy.decrementFreedPages cfg freeStart freeSize
    let s ← addFreeSpaceFromReleasedHandle { s with toPageOccupancy := o } freeStart freeSize new
    return { s with handles := s.handles.set i ⟨handle.start, newSizeInBytes⟩ }

end MetaAllocator

/-! ## Runs -/

/-- The calls of the users of the allocator and its handles. -/
inductive MetaAllocatorOp (ι : Type) where
  | allocate (sizeInBytes : Nat) (space : Nat → Nat × Nat) (new : ι)
  | release (i : Nat) (new : ι)
  | shrink (i newSizeInBytes : Nat) (new : ι)
  | addFreshFreeSpace (start sizeInBytes : Nat) (new : ι)

variable {ι : Type} [DecidableEq ι] (cfg : Config)

def metaAllocatorStep (s : MetaAllocator ι) : MetaAllocatorOp ι → Option (MetaAllocator ι)
  | .allocate sizeInBytes space new => (s.allocate cfg sizeInBytes space new).map Prod.fst
  | .release i new => s.release cfg i new
  | .shrink i newSizeInBytes new => s.shrink cfg i newSizeInBytes new
  | .addFreshFreeSpace start sizeInBytes new => s.addFreshFreeSpace start sizeInBytes new

/-- The allocator that the constructor makes, in any memory. -/
def MetaAllocator.init (mem : ι → LinkedNode ι Extent) : MetaAllocator ι where
  freeSpaceSizeMap := ⟨none, mem⟩
  freeSpaceStartAddressMap := fun _ => none
  freeSpaceEndAddressMap := fun _ => none
  pageOccupancyMap := fun _ => none
  bytesAllocated := 0
  bytesReserved := 0
  bytesCommitted := 0
  handles := []
  notified := []

/-- A fresh range: in memory, with neither null nor the last page of the address space in it, and apart
    from everything the allocator knows. -/
structure FreshRange (s : MetaAllocator ι) (r : Extent) : Prop where
  start_pos : 0 < r.start
  stop_le : r.stop + cfg.pageSize < 2 ^ 64
  handles : ∀ h ∈ s.handles, h.Apart r
  free : ∀ x, s.freeSpaceSizeMap.InUse x → (s.node x).Apart r

/-- What is asked of the callers and of what the allocator calls. A call that ends in `CRASH()` ends the
    process, and with it the run. -/
def AllocatorCallOk (s : MetaAllocator ι) : MetaAllocatorOp ι → Prop
  | .allocate sizeInBytes space new =>
    (sizeInBytes = 0 ∨ roundUp cfg sizeInBytes ≠ none) ∧ ¬s.freeSpaceSizeMap.InUse new ∧
      ∀ rounded start numberOfPages, roundUp cfg sizeInBytes = some rounded →
        space (requestedNumberOfPages cfg rounded) = (start, numberOfPages) → start ≠ 0 →
        requestedNumberOfPages cfg rounded ≤ numberOfPages ∧ cfg.pageSize ∣ start ∧
          FreshRange cfg s ⟨start, numberOfPages * cfg.pageSize⟩
  | .release i new => i < s.handles.length ∧ ¬s.freeSpaceSizeMap.InUse new
  | .shrink i newSizeInBytes new =>
    (∃ handle, s.handles[i]? = some handle ∧ newSizeInBytes ≤ handle.size) ∧
      roundUp cfg newSizeInBytes ≠ none ∧ ¬s.freeSpaceSizeMap.InUse new
  | .addFreshFreeSpace start sizeInBytes new =>
    0 < sizeInBytes ∧ ¬s.freeSpaceSizeMap.InUse new ∧ FreshRange cfg s ⟨start, sizeInBytes⟩

end WebV8
