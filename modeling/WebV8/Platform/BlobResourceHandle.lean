import WebV8.Platform.BlobRegistry
import WebV8.Platform.HTTPParsers

/-! # BlobResourceHandle

A handle loads the bytes of a blob, or a range of them. It first counts the sizes of the items, then seeks to the
range, announces a content length, and reads item by item: at once if it is asynchronous, and on demand otherwise.

The outcome is `none` if the behaviour is undefined: a `long long` overflows, or bytes outside of the raw data of an
item are read. Clients do not abort loads.
-/

namespace WebV8

open HTTPParsers BlobRegistry List Option

structure BlobResourceHandle where
  rangeOffset : Int
  rangeEnd : Int
  rangeSuffixLength : Int
  totalRemainingSize : Int := 0
  currentItemReadSize : Int := 0
  itemLengthList : List Int := []
  sizeItemCount : Nat := 0
  readItemCount : Nat := 0
  /-- The content length of the response. -/
  contentLength : Option Int := none
  /-- The bytes that the client received. -/
  received : List UInt8 := []

variable (handle : BlobResourceHandle)

namespace BlobResourceHandle

/-! ## Sizes and the range -/

def longLong (value : Int) : Option Int := if -2 ^ 63 ≤ value ∧ value < 2 ^ 63 then some value else none

/-- The number of items before the offset, and the offset in the next one. -/
def skip : List Int → Int → Nat × Int
  | [], offset => (0, offset)
  | length :: rest, offset =>
    if offset ≥ length then ((skip rest (offset - length)).1 + 1, (skip rest (offset - length)).2) else (0, offset)

def convertSuffix : Option BlobResourceHandle :=
  if handle.rangeSuffixLength ≠ -1 then do
    let rangeOffset ← longLong (handle.totalRemainingSize - handle.rangeSuffixLength)
    let rangeEnd ← longLong (rangeOffset + handle.rangeSuffixLength - 1)
    some { handle with rangeOffset, rangeEnd }
  else some handle

def adjustSize : Option Int :=
  if handle.rangeEnd ≠ -1 then do
    let rangeSize ← longLong (handle.rangeEnd - handle.rangeOffset + 1)
    some (if handle.totalRemainingSize > rangeSize then rangeSize else handle.totalRemainingSize)
  else longLong (handle.totalRemainingSize - handle.rangeOffset)

def seek : Option BlobResourceHandle := do
  let handle ← handle.convertSuffix
  if handle.rangeOffset = -1 then some handle
  else
    let (readItemCount, offset) := skip handle.itemLengthList handle.rangeOffset
    let totalRemainingSize ← handle.adjustSize
    some { handle with readItemCount, currentItemReadSize := offset, totalRemainingSize }

def didGetSize (getSizeForNext : BlobResourceHandle → Option BlobResourceHandle) (size : Int)
    (handle : BlobResourceHandle) : Option BlobResourceHandle := do
  let totalRemainingSize ← longLong (handle.totalRemainingSize + size)
  getSizeForNext
    { handle with
      itemLengthList := handle.itemLengthList ++ [size]
      totalRemainingSize
      sizeItemCount := handle.sizeItemCount + 1 }

/-- The items whose sizes are not counted yet come first; `continuation` is what follows the seek. -/
def getSizeForNext (continuation : BlobResourceHandle → Option BlobResourceHandle) :
    BlobDataItemList → BlobResourceHandle → Option BlobResourceHandle
  | [], handle => do
    let handle ← handle.seek
    continuation handle
  | item :: rest, handle => didGetSize (getSizeForNext continuation rest) item.length handle

def notifyResponse : BlobResourceHandle :=
  { handle with contentLength := some handle.totalRemainingSize }

/-! ## Asynchronous reading -/

/-- The bytes of an item from a position on, as a pointer and a length of type `int` have them. -/
def bytesAt (item : BlobDataItem) (position bytesRead : Int) : Option (List UInt8) :=
  if 0 ≤ bytesRead ∧ 0 ≤ item.offset + position ∧ item.offset + position + bytesRead ≤ item.data.length then
    some ((item.data.drop (item.offset + position).toNat).take bytesRead.toNat)
  else none

/-- `static_cast<int>` -/
def toInt (value : Int) : Int := value.bmod (2 ^ 32)

section

variable (readAsync : BlobResourceHandle → Option BlobResourceHandle)

def consumeData (data : List UInt8) (bytesRead : Int)
    (handle : BlobResourceHandle) : Option BlobResourceHandle :=
  readAsync
    { handle with
      totalRemainingSize := handle.totalRemainingSize - bytesRead
      received := handle.received ++ data
      readItemCount := handle.readItemCount + 1 }

/-- The read position in the item is reset after the data is consumed. -/
def readDataAsync (item : BlobDataItem)
    (handle : BlobResourceHandle) : Option BlobResourceHandle := do
  let bytesToRead := toInt (min (item.length - handle.currentItemReadSize) handle.totalRemainingSize)
  let data ← bytesAt item handle.currentItemReadSize bytesToRead
  let handle ← consumeData readAsync data bytesToRead handle
  some { handle with currentItemReadSize := 0 }

end

/-- The items are those from `readItemCount` on. -/
def readAsync : BlobDataItemList → BlobResourceHandle → Option BlobResourceHandle
  | [], handle => some handle
  | item :: rest, handle =>
    if handle.totalRemainingSize = 0 then some handle else readDataAsync (readAsync rest) item handle

def startAsync (items : BlobDataItemList) (range : ByteRange) : Option BlobResourceHandle :=
  getSizeForNext (fun handle => readAsync (items.drop handle.readItemCount) handle.notifyResponse) items
    { rangeOffset := range.rangeOffset, rangeEnd := range.rangeEnd, rangeSuffixLength := range.rangeSuffixLength }

def rangeOf (icu : ICU) (header : Characters) : Option ByteRange :=
  if header = [] then some {} else parseRange icu header

/-- `doStart` of an asynchronous load; a refused range is an error. -/
def loadAsync (icu : ICU) (items : BlobDataItemList) (header : Characters) : Option BlobResourceHandle := do
  let range ← rangeOf icu header
  startAsync items range

/-! ## Items of given lengths -/

/-- The items have these lengths, and lie within their raw data. -/
structure Shaped (items : BlobDataItemList) (lengths : List Nat) : Prop where
  inRange : AllInRange items
  lengths : items.map BlobDataItem.length = lengths.map Nat.cast

variable {items : BlobDataItemList} {lengths : List Nat}

theorem Shaped.length_blobBytes (h : Shaped items lengths) : (blobBytes items).length = lengths.sum := by
  obtain ⟨hran, hlen⟩ := h
  induction items generalizing lengths with
  | nil =>
    obtain rfl : lengths = [] := map_eq_nil_iff.mp hlen.symm
    rfl
  | cons item rest ih =>
    obtain ⟨hitem, hrest⟩ := forall_mem_cons.mp hran
    obtain ⟨l, ls, rfl, hl, hls⟩ := map_eq_cons_iff.mp hlen.symm
    have hbs := hitem.length_bytes
    rw [blobBytes_cons, length_append, sum_cons, ih hrest hls.symm]
    omega

theorem Shaped.length_eq (h : Shaped items lengths) : items.length = lengths.length := by
  have := congrArg List.length h.lengths
  rwa [length_map, length_map] at this

theorem Shaped.split {before after : List Nat} {l : Nat} (h : Shaped items (before ++ l :: after)) :
    ∃ (pre : BlobDataItemList) (item : BlobDataItem) (post : BlobDataItemList), items = pre ++ item :: post ∧
      pre.length = before.length ∧ Shaped pre before ∧ item.InRange ∧ item.length = l ∧ Shaped post after := by
  obtain ⟨hran, hlen⟩ := h
  rw [map_append] at hlen
  obtain ⟨pre, rest, rfl, hpre, hrest⟩ := map_eq_append_iff.mp hlen
  obtain ⟨item, post, rfl, hitem, hpost⟩ := map_eq_cons_iff.mp hrest
  obtain ⟨hpreRa, hresRa⟩ := forall_mem_append.mp hran
  obtain ⟨hiteRa, hposRa⟩ := forall_mem_cons.mp hresRa
  have hshp : Shaped pre before := ⟨hpreRa, hpre⟩
  exact ⟨pre, item, post, rfl, hshp.length_eq, hshp, hiteRa, hitem, ⟨hposRa, hpost⟩⟩

theorem exists_split {offset : Nat} (h : offset < lengths.sum) :
    ∃ before l after o, lengths = before ++ l :: after ∧ o < l ∧ offset = before.sum + o := by
  induction lengths generalizing offset with
  | nil => exact absurd h (Nat.not_lt_zero offset)
  | cons l ls ih =>
    by_cases hlt : offset < l
    · exact ⟨[], l, ls, offset, rfl, hlt, (Nat.zero_add offset).symm⟩
    · rw [sum_cons] at h
      obtain ⟨before, l', after, o, rfl, ho, hoff⟩ := ih (show offset - l < ls.sum by omega)
      refine ⟨l :: before, l', after, o, rfl, ho, ?_⟩
      rw [sum_cons]
      omega

theorem skip_append (before : List Nat) {l o : Nat} (after : List Nat) (ho : o < l) :
    skip ((before ++ l :: after).map Nat.cast) (before.sum + o : Nat) = (before.length, (o : Int)) := by
  induction before with
  | nil =>
    rw [nil_append, map_cons, skip, sum_nil, Nat.zero_add, if_neg (by omega)]
    rfl
  | cons first before ih =>
    rw [cons_append, map_cons, skip, sum_cons, if_pos (by omega),
      show ((first + before.sum + o : Nat) : Int) - (first : Nat) = (before.sum + o : Nat) by omega, ih]
    rfl

/-! ## The start of a load -/

theorem longLong_of_lt {value : Int} (hlow : -2 ^ 63 ≤ value) (hhigh : value < 2 ^ 63) :
    longLong value = some value :=
  if_pos ⟨hlow, hhigh⟩

theorem longLong_of_le {value : Int} (h : 2 ^ 63 ≤ value) : longLong value = none :=
  if_neg fun hfits => absurd hfits.2 (not_lt.mpr h)

variable {handle : BlobResourceHandle}

theorem adjustSize_last (hend : handle.rangeEnd ≠ -1)
    (hle : handle.rangeOffset ≤ handle.rangeEnd) (hfits : handle.rangeEnd - handle.rangeOffset + 1 < 2 ^ 63) :
    handle.adjustSize = some (min handle.totalRemainingSize (handle.rangeEnd - handle.rangeOffset + 1)) := by
  rw [adjustSize, if_pos hend, longLong_of_lt (by omega) hfits, bind_eq_bind, bind_some]
  congr 1
  split_ifs <;> omega

theorem adjustSize_wide (hend : handle.rangeEnd ≠ -1)
    (hwide : 2 ^ 63 ≤ handle.rangeEnd - handle.rangeOffset + 1) : handle.adjustSize = none := by
  rw [adjustSize, if_pos hend, longLong_of_le hwide]
  rfl

theorem adjustSize_open (hend : handle.rangeEnd = -1) :
    handle.adjustSize = longLong (handle.totalRemainingSize - handle.rangeOffset) :=
  if_neg (not_not.mpr hend)

theorem getSizeForNext_eq (continuation : BlobResourceHandle → Option BlobResourceHandle) (h : AllInRange items)
    (handle : BlobResourceHandle) (htot : 0 ≤ handle.totalRemainingSize)
    (hfits : handle.totalRemainingSize < 2 ^ 63) :
    getSizeForNext continuation items handle = if handle.totalRemainingSize + (blobBytes items).length < 2 ^ 63 then
        (seek
          { handle with
            itemLengthList := handle.itemLengthList ++ items.map BlobDataItem.length
            totalRemainingSize := handle.totalRemainingSize + (blobBytes items).length
            sizeItemCount := handle.sizeItemCount + items.length }).bind continuation
      else none := by
  induction items generalizing handle with
  | nil =>
    rw [getSizeForNext, blobBytes, flatMap_nil, length_nil, Nat.cast_zero, Int.add_zero, if_pos hfits,
      map_nil, append_nil]
    rfl
  | cons item rest ih =>
    obtain ⟨hitem, hrest⟩ := forall_mem_cons.mp h
    have hbs := hitem.length_bytes
    have hlen := hitem.length
    have hsum : handle.totalRemainingSize + ((blobBytes (item :: rest)).length : Int) =
        handle.totalRemainingSize + item.length + (blobBytes rest).length := by
      rw [blobBytes_cons, length_append]
      omega
    rw [getSizeForNext, didGetSize, hsum]
    by_cases hnext : handle.totalRemainingSize + item.length < 2 ^ 63
    · rw [longLong_of_lt (by omega) hnext, bind_eq_bind, bind_some,
        ih hrest _ (Int.add_nonneg htot hlen) hnext]
      simp only [append_assoc, map_cons, singleton_append, length_cons, Nat.add_assoc,
        Nat.add_comm 1]
    · rw [longLong_of_le (by omega), if_neg (by omega)]
      rfl

def sizeToRead (size : Nat) (range : ByteRange) : Int :=
  if range.rangeEnd ≠ -1 then min size (range.rangeEnd - range.rangeOffset + 1) else size - range.rangeOffset

/-- The bytes of a range: up to the last position, or to the end of the blob. -/
def requested (bytes : List UInt8) (range : ByteRange) : List UInt8 :=
  if range.rangeEnd ≠ -1 then
    (bytes.drop range.rangeOffset.toNat).take (range.rangeEnd - range.rangeOffset + 1).toNat
  else bytes.drop range.rangeOffset.toNat

theorem take_sizeToRead (bytes : List UInt8) {range : ByteRange} (hoff : 0 ≤ range.rangeOffset) :
    (bytes.drop range.rangeOffset.toNat).take (sizeToRead bytes.length range).toNat = requested bytes range := by
  rw [sizeToRead, requested]
  by_cases hend : range.rangeEnd = -1
  · rw [if_neg (not_not.mpr hend), if_neg (not_not.mpr hend)]
    apply take_of_length_le
    rw [length_drop]
    omega
  · rw [if_pos hend, if_pos hend, take_eq_take_iff, length_drop]
    omega

theorem bytesAt_eq {item : BlobDataItem} (h : item.InRange) {position bytesRead : Int} (hpos : 0 ≤ position)
    (hbs : 0 ≤ bytesRead) (hle : position + bytesRead ≤ item.length) :
    bytesAt item position bytesRead = some ((item.bytes.drop position.toNat).take bytesRead.toNat) := by
  obtain ⟨hran, hpart⟩ := h.part hpos hbs hle
  rw [bytesAt, if_pos ⟨hbs, hran.offset, hran.stop⟩, ← hpart]
  rfl

end BlobResourceHandle

end WebV8
