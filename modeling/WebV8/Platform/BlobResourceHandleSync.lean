import WebV8.Platform.BlobResourceHandleAsync

/-! # Synchronous loads of a range

`doStart` asks for the next size once for each item, and each time all sizes that are left are counted: from the
second time on there are none, and the handle seeks again. What was adjusted to the range is adjusted again.
-/

namespace WebV8

open HTTPParsers BlobRegistry List Option Int Nat

namespace BlobResourceHandle

/-! ## Starting and reading -/

/-- The loop of `doStart`, with the number of turns that are left. -/
def getSizes (items : BlobDataItemList) : Nat → BlobResourceHandle → Option BlobResourceHandle
  | 0, handle => some handle
  | turns + 1, handle => do
    let handle ← getSizeForNext some (items.drop handle.sizeItemCount) handle
    getSizes items turns handle

def startSync (items : BlobDataItemList) (range : ByteRange) : Option BlobResourceHandle := do
  let handle ← getSizes items items.length
    { rangeOffset := range.rangeOffset, rangeEnd := range.rangeEnd, rangeSuffixLength := range.rangeSuffixLength }
  some handle.notifyResponse

/-- `doStart` of a synchronous load; a refused range is an error. -/
def loadSync (icu : ICU) (items : BlobDataItemList) (header : Characters) : Option BlobResourceHandle := do
  let range ← rangeOf icu header
  startSync items range

def bytesToReadSync (item : BlobDataItem) (length : Nat) (handle : BlobResourceHandle) : Int :=
  let remaining := item.length - handle.currentItemReadSize
  let bytesToRead := if length > remaining then toInt remaining else length
  if bytesToRead > handle.totalRemainingSize then toInt handle.totalRemainingSize else bytesToRead

/-- The bytes are copied to a buffer of the given length. -/
def readDataSync (item : BlobDataItem) (length : Nat) (handle : BlobResourceHandle) :
    Option (List UInt8 × BlobResourceHandle) := do
  let bytesToRead := bytesToReadSync item length handle
  let data ← if bytesToRead ≤ length then bytesAt item handle.currentItemReadSize bytesToRead else none
  let currentItemReadSize := handle.currentItemReadSize + bytesToRead
  let totalRemainingSize := handle.totalRemainingSize - bytesToRead
  some (data,
    if currentItemReadSize = item.length then
      { handle with totalRemainingSize, readItemCount := handle.readItemCount + 1, currentItemReadSize := 0 }
    else { handle with totalRemainingSize, currentItemReadSize })

/-- The loop of `readSync`. A turn that neither reads a byte nor finishes an item is repeated for ever. -/
def readLoop (items : BlobDataItemList) (handle : BlobResourceHandle) (remaining : Nat) :
    Option (List UInt8 × BlobResourceHandle) :=
  if remaining = 0 ∨ handle.totalRemainingSize = 0 then some ([], handle)
  else
    match items[handle.readItemCount]? with
    | none => some ([], handle)
    | some item =>
      match readDataSync item remaining handle with
      | none => none
      | some (data, next) =>
        if _progress : items.length - next.readItemCount + (remaining - data.length) <
            items.length - handle.readItemCount + remaining then
          (readLoop items next (remaining - data.length)).map fun (more, last) => (data ++ more, last)
        else none
termination_by items.length - handle.readItemCount + remaining

def readSync (items : BlobDataItemList) (handle : BlobResourceHandle) (length : Nat) :
    Option (List UInt8 × BlobResourceHandle) := do
  let (data, handle) ← readLoop items handle length
  some (data, { handle with received := handle.received ++ data })

/-- What is received by calls with the given lengths, if one of them returns 0. -/
def readAll (items : BlobDataItemList) : List Nat → BlobResourceHandle → Option (List UInt8)
  | [], _ => none
  | length :: rest, handle => do
    let (data, handle) ← readSync items handle length
    if data = [] then some handle.received else readAll items rest handle

/-! ## Reads -/

variable {items : BlobDataItemList} {lengths : List Nat} {range : ByteRange} {handle : BlobResourceHandle}
  {unread : List UInt8}

/-- The handle is at a position from which `unread` is left of the blob. -/
structure Ready (items : BlobDataItemList) (handle : BlobResourceHandle) (unread : List UInt8) : Prop where
  position : 0 ≤ handle.currentItemReadSize
  within : ∀ item ∈ items[handle.readItemCount]?, handle.currentItemReadSize ≤ item.length
  unread : (blobBytes (items.drop handle.readItemCount)).drop handle.currentItemReadSize.toNat = unread
  total : 0 ≤ handle.totalRemainingSize

variable {item : BlobDataItem} {length : Nat} {total : Int}

theorem toInt_bounded {value bound : Int} (hval : value < 2 ^ 31) (hbd : 0 ≤ bound) :
    (if value > bound then toInt bound else value) = min value bound := by
  split_ifs with hpast
  · rw [toInt_eq (by omega) (by omega)]
    omega
  · omega

theorem bytesToReadSync_eq (hlen : length < 2 ^ 31)
    (hle : handle.currentItemReadSize ≤ item.length) (htot : 0 ≤ handle.totalRemainingSize) :
    bytesToReadSync item length handle =
      min (min (length : Int) (item.length - handle.currentItemReadSize)) handle.totalRemainingSize := by
  have hfst := toInt_bounded (show (length : Int) < 2 ^ 31 by omega) (sub_nonneg.mpr hle)
  rw [bytesToReadSync, hfst, toInt_bounded (by omega) htot]

theorem readDataSync_spec (h : AllInRange items) (hrea : Ready items handle unread)
    (hitem : items[handle.readItemCount]? = some item) (hlen : length < 2 ^ 31) (hpos : 0 < length)
    (htot : handle.totalRemainingSize ≠ 0) :
    ∃ (b : Nat) (next : BlobResourceHandle), readDataSync item length handle = some (unread.take b, next) ∧
      b ≤ unread.length ∧ b ≤ length ∧ b ≤ handle.totalRemainingSize ∧ Ready items next (unread.drop b) ∧
      next.totalRemainingSize = handle.totalRemainingSize - b ∧ next.received = handle.received ∧
      items.length - next.readItemCount + (length - b) < items.length - handle.readItemCount + length := by
  obtain ⟨hposi, hwit, hunr, hleft⟩ := hrea
  have hle := hwit item hitem
  have hinRa := h item (mem_of_getElem? hitem)
  have hbs := hinRa.length_bytes
  obtain ⟨hlt, hget⟩ := List.getElem?_eq_some_iff.mp hitem
  have hdrop : items.drop handle.readItemCount = item :: items.drop (handle.readItemCount + 1) := by
    rw [drop_eq_getElem_cons hlt, hget]
  rw [hdrop, blobBytes_cons, drop_append_of_le_length (by omega)] at hunr
  obtain ⟨b, hb⟩ := eq_ofNat_of_zero_le (show 0 ≤
    min (min (length : Int) (item.length - handle.currentItemReadSize)) handle.totalRemainingSize by omega)
  have htake : (item.bytes.drop handle.currentItemReadSize.toNat).take b = unread.take b := by
    rw [← hunr, take_append_of_le_length]
    rw [length_drop]
    omega
  have hunrLe : b ≤ unread.length := by
    rw [← hunr, length_append, length_drop]
    omega
  rw [readDataSync, bytesToReadSync_eq hlen hle hleft, hb, if_pos (by omega),
    bytesAt_eq hinRa hposi (natCast_nonneg b) (by omega), toNat_natCast, htake]
  refine ⟨b, _, rfl, hunrLe, by omega, by omega, ?_⟩
  by_cases hdone : handle.currentItemReadSize + b = item.length
  · -- The item is finished.
    rw [if_pos hdone]
    refine ⟨⟨le_rfl, fun next hnext => ?_, ?_, ?_⟩, rfl, rfl, ?_⟩
    · exact (h next (mem_of_getElem? hnext)).length
    · rw [← hunr, show b = (item.bytes.drop handle.currentItemReadSize.toNat).length by
        rw [length_drop]; omega, drop_left]
      rfl
    · show 0 ≤ handle.totalRemainingSize - b
      omega
    · show items.length - (handle.readItemCount + 1) + (length - b) < _
      omega
  · rw [if_neg hdone]
    refine ⟨⟨?_, fun next hnext => ?_, ?_, ?_⟩, rfl, rfl, ?_⟩
    · show 0 ≤ handle.currentItemReadSize + b
      omega
    · obtain rfl : item = next := Option.some.inj (hitem.symm.trans hnext)
      show handle.currentItemReadSize + b ≤ item.length
      omega
    · show (blobBytes (items.drop handle.readItemCount)).drop (handle.currentItemReadSize + b).toNat = _
      rw [hdrop, blobBytes_cons, ← hunr, show (handle.currentItemReadSize + b).toNat =
          handle.currentItemReadSize.toNat + b by omega, ← drop_drop, drop_append_of_le_length (by omega)]
    · show 0 ≤ handle.totalRemainingSize - b
      omega
    · show items.length - handle.readItemCount + (length - b) < _
      omega

/-- The handle `last` is `count` bytes further. -/
structure Advanced (items : BlobDataItemList) (handle : BlobResourceHandle) (unread : List UInt8) (count : Nat)
    (last : BlobResourceHandle) : Prop where
  ready : Ready items last (unread.drop count)
  total : last.totalRemainingSize = handle.totalRemainingSize - (unread.take count).length

/-- **A call** reads as much as it is asked for, up to the end of the range or of the blob. -/
theorem readLoop_spec (h : AllInRange items) (hrea : Ready items handle unread) {remaining : Nat}
    (hrmg : remaining < 2 ^ 31) :
    ∃ last, Advanced items handle unread (min remaining handle.totalRemainingSize.toNat) last ∧
      readLoop items handle remaining = some (unread.take (min remaining handle.totalRemainingSize.toNat), last) ∧
      last.received = handle.received := by
  obtain ⟨measure, hmea⟩ : ∃ measure, measure = items.length - handle.readItemCount + remaining := ⟨_, rfl⟩
  induction measure using Nat.strong_induction_on generalizing handle unread remaining with
  | _ measure ih =>
    rw [readLoop]
    by_cases hstop : remaining = 0 ∨ handle.totalRemainingSize = 0
    · have hzero : min remaining handle.totalRemainingSize.toNat = 0 := by omega
      rw [if_pos hstop, hzero]
      exact ⟨handle, ⟨hrea, (sub_zero _).symm⟩, rfl, rfl⟩
    · obtain ⟨hpos, htot⟩ := not_or.mp hstop
      rw [if_neg hstop]
      cases hitem : items[handle.readItemCount]? with
      | none =>
        have hnil : unread = [] := by
          rw [← hrea.unread, drop_eq_nil_of_le (List.getElem?_eq_none_iff.mp hitem)]
          exact drop_nil
        subst hnil
        rw [take_nil]
        refine ⟨handle, ⟨?_, ?_⟩, rfl, rfl⟩
        · rw [drop_nil]
          exact hrea
        · rw [take_nil]
          exact (sub_zero _).symm
      | some item =>
        obtain ⟨b, next, hread, hbUn, hbRe, hbTo, hnext, hnexTo, hnexRe, hpro⟩ :=
          readDataSync_spec h hrea hitem hrmg (pos_of_ne_zero hpos) htot
        have hlen : (unread.take b).length = b := by
          rw [length_take]
          omega
        obtain ⟨last, ⟨hlast, hlasTo⟩, hloop, hlasRe⟩ :=
          ih _ (hmea ▸ hpro) hnext (show remaining - b < 2 ^ 31 by omega) rfl
        have hmin : min remaining handle.totalRemainingSize.toNat =
            b + min (remaining - b) next.totalRemainingSize.toNat := by omega
        rw [hmin]
        refine ⟨last, ⟨?_, ?_⟩, ?_, hlasRe.trans hnexRe⟩
        · rw [← drop_drop]
          exact hlast
        · rw [hlasTo, List.take_add, List.length_append, hlen, Nat.cast_add, ← Int.sub_sub, ← hnexTo]
        · simp only [hread, hlen]
          rw [dif_pos hpro, hloop, take_add]
          rfl

theorem readSync_spec (h : AllInRange items) (hrea : Ready items handle unread) (hlen : length < 2 ^ 31) :
    ∃ last, Advanced items handle unread (min length handle.totalRemainingSize.toNat) last ∧
      readSync items handle length = some (unread.take (min length handle.totalRemainingSize.toNat), last) ∧
      last.received = handle.received ++ unread.take (min length handle.totalRemainingSize.toNat) := by
  obtain ⟨last, ⟨⟨hpos, hwit, hunr, hnon⟩, htot⟩, hloop, hrcv⟩ := readLoop_spec h hrea hlen
  rw [readSync, hloop, ← hrcv]
  exact ⟨{ last with received := last.received ++ _ }, ⟨⟨hpos, hwit, hunr, hnon⟩, htot⟩, rfl, rfl⟩

/-- **Calls of positive lengths** deliver what is left of the range, and then one returns 0. -/
theorem readAll_spec (h : AllInRange items) (hrea : Ready items handle unread) (calls : Nat → Nat)
    (hcal : ∀ i, 0 < calls i ∧ calls i < 2 ^ 31) : ∃ n, readAll items ((List.range n).map calls) handle =
      some (handle.received ++ unread.take handle.totalRemainingSize.toNat) := by
  obtain ⟨count, hcnt⟩ : ∃ count, count = (unread.take handle.totalRemainingSize.toNat).length := ⟨_, rfl⟩
  induction count using Nat.strong_induction_on generalizing handle unread calls with
  | _ count ih =>
    obtain ⟨hpos, hlt⟩ := hcal 0
    obtain ⟨last, ⟨hlast, htot⟩, hread, hrcv⟩ := readSync_spec h hrea hlt
    rw [length_take] at hcnt
    obtain ⟨read, hmin⟩ : ∃ read, read = min (calls 0) handle.totalRemainingSize.toNat := ⟨_, rfl⟩
    rw [← hmin] at hlast htot hread hrcv
    by_cases hend : unread.take read = []
    · refine ⟨1, ?_⟩
      have hnone : unread.take handle.totalRemainingSize.toNat = [] := by
        have hlen := congrArg List.length hend
        rw [length_take, length_nil] at hlen
        apply eq_nil_of_length_eq_zero
        rw [length_take]
        omega
      rw [show (List.range 1).map calls = [calls 0] from rfl, readAll, hread, bind_eq_bind, bind_some]
      dsimp only
      rw [if_pos hend, hrcv, hend, hnone]
    · have hsome := length_pos_iff.mpr hend
      rw [length_take] at htot hsome
      have hless : ((unread.drop read).take last.totalRemainingSize.toNat).length < count := by
        rw [length_take, length_drop, htot]
        omega
      obtain ⟨n, hn⟩ := ih _ hless hlast (fun i => calls (i + 1)) (fun i => hcal (i + 1)) rfl
      refine ⟨n + 1, ?_⟩
      rw [List.range_succ_eq_map, List.map_cons, List.map_map, readAll, hread, Option.bind_eq_bind, Option.bind_some]
      dsimp only
      rw [if_neg hend]
      refine hn.trans ?_
      rw [hrcv, append_assoc, ← take_add]
      congr 2
      rw [take_eq_take_iff]
      omega

/-! ## Seeking again and again -/

def sized (items : BlobDataItemList) (range : ByteRange) (total position : Int) (count : Nat) : BlobResourceHandle where
  rangeOffset := range.rangeOffset
  rangeEnd := range.rangeEnd
  rangeSuffixLength := range.rangeSuffixLength
  totalRemainingSize := total
  currentItemReadSize := position
  itemLengthList := items.map BlobDataItem.length
  sizeItemCount := items.length
  readItemCount := count

def sought (items : BlobDataItemList) (range : ByteRange) (total : Int) : BlobResourceHandle :=
  sized items range total (skip (items.map BlobDataItem.length) range.rangeOffset).2
    (skip (items.map BlobDataItem.length) range.rangeOffset).1

theorem startSync_eq (h : AllInRange items) (hne : items ≠ []) : startSync items range =
      if ((blobBytes items).length : Int) < 2 ^ 63 then
        (seek (sized items range (blobBytes items).length 0 0)).bind fun handle =>
          (getSizes items (items.length - 1) handle).map notifyResponse else none := by
  obtain ⟨turns, htur⟩ := exists_eq_succ_of_ne_zero (length_pos_iff.mpr hne).ne'
  rw [startSync, htur, getSizes, drop_zero, getSizeForNext_eq _ h _ le_rfl (show (0 : Int) < 2 ^ 63 by decide)]
  rw [nil_append, zero_add, zero_add]
  by_cases hfits : ((blobBytes items).length : Int) < 2 ^ 63
  · rw [if_pos hfits, if_pos hfits]
    rw [bind_fun_some, sized]
    cases seek _ with
    | none => rfl
    | some handle =>
      show (getSizes items turns handle).bind _ = (getSizes items turns handle).map _
      cases getSizes items turns handle with
      | none => rfl
      | some last => rfl
  · rw [if_neg hfits, if_neg hfits]
    rfl

theorem getSizes_sized (turns : Nat) (total position : Int) (count : Nat) :
    getSizes items (turns + 1) (sized items range total position count) =
      (seek (sized items range total position count)).bind (getSizes items turns) := by
  rw [getSizes, show (sized items range total position count).sizeItemCount = items.length from rfl, drop_length,
    getSizeForNext]
  show ((seek _).bind some).bind _ = _
  rw [bind_fun_some]

theorem getSizes_fixed (h : seek (sought items range total) = some (sought items range total))
    (turns : Nat) : getSizes items turns (sought items range total) = some (sought items range total) := by
  induction turns with
  | zero => rfl
  | succ turns ih =>
    rw [sought, getSizes_sized, ← sought, h]
    exact ih

section

variable (h : Positioned range)

include h

theorem seek_sized (total position : Int) (count : Nat) : seek (sized items range total position count) =
      (sized items range total position count).adjustSize.map (sought items range) := by
  have hpos := h.offset
  exact seek_of_offset h.suffix (show range.rangeOffset ≠ -1 by omega)

theorem seek_last (hend : range.rangeEnd ≠ -1)
    (hfits : range.rangeEnd - range.rangeOffset + 1 < 2 ^ 63) (total position : Int) (count : Nat) :
    seek (sized items range total position count) =
      some (sought items range (min total (range.rangeEnd - range.rangeOffset + 1))) := by
  rw [seek_sized h]
  exact congrArg (Option.map _) (adjustSize_last hend (h.stop.resolve_left hend) hfits)

theorem seek_open (hend : range.rangeEnd = -1) (total position : Int) (count : Nat) :
    seek (sized items range total position count) =
      (longLong (total - range.rangeOffset)).map (sought items range) := by
  rw [seek_sized h]
  exact congrArg (Option.map _) (adjustSize_open hend)

theorem getSizes_open (hend : range.rangeEnd = -1) (turns : Nat)
    (hsome : getSizes items turns (sought items range total) = some handle) :
    handle = sought items range (total - turns * range.rangeOffset) := by
  induction turns generalizing total with
  | zero =>
    obtain rfl := Option.some.inj hsome
    rw [Nat.cast_zero, Int.zero_mul, Int.sub_zero]
  | succ turns ih =>
    rw [sought, getSizes_sized, seek_open h hend] at hsome
    obtain ⟨next, hseek, hsome⟩ := bind_eq_some_iff.mp hsome
    obtain ⟨total', hlong, rfl⟩ := map_eq_some_iff.mp hseek
    obtain ⟨-, htot⟩ := ite_none_right_eq_some.mp hlong
    obtain rfl := Option.some.inj htot
    rw [ih hsome]
    congr 1
    push_cast
    ring

end

theorem convertSuffix_sized {first last suffix : Int} (hsuf : suffix ≠ -1) (htot : 0 ≤ total) (hfits : total < 2 ^ 63)
    (position : Int) (count : Nat) : (sized items ⟨first, last, suffix⟩ total position count).convertSuffix =
      (longLong (total - suffix)).map fun first => sized items ⟨first, total - 1, suffix⟩ total position count := by
  refine (if_pos hsuf).trans ?_
  show ((longLong (total - suffix)).bind fun first => (longLong (first + suffix - 1)).bind _) = _
  by_cases hlong : -2 ^ 63 ≤ total - suffix ∧ total - suffix < 2 ^ 63
  · rw [longLong_of_lt hlong.1 hlong.2, bind_some, show total - suffix + suffix - 1 = total - 1 by omega,
      longLong_of_lt (by omega) (by omega)]
    rfl
  · rw [longLong, if_neg hlong]
    rfl

/-- A suffix becomes a range at the end of the size to read, which is all of it from the second time on. -/
theorem seek_suffix {first last suffix : Int} (hpos : 0 < suffix) (hle : suffix ≤ total) (hfits : total < 2 ^ 63)
    (position : Int) (count : Nat) : seek (sized items ⟨first, last, suffix⟩ total position count) =
      some (sought items ⟨total - suffix, total - 1, suffix⟩ suffix) := by
  have hcon : (sized items ⟨first, last, suffix⟩ total position count).convertSuffix =
      some (sized items ⟨total - suffix, total - 1, suffix⟩ total position count) := by
    rw [convertSuffix_sized (by omega) (by omega) hfits, longLong_of_lt (by omega) (by omega)]
    rfl
  have hadj : (sized items ⟨total - suffix, total - 1, suffix⟩ total position count).adjustSize = some suffix := by
    rw [adjustSize_last (show total - 1 ≠ -1 by omega) (show total - suffix ≤ total - 1 by omega)
      (show total - 1 - (total - suffix) + 1 < 2 ^ 63 by omega)]
    congr 1
    show min total (total - 1 - (total - suffix) + 1) = suffix
    omega
  rw [seek, hcon, bind_eq_bind, bind_some]
  refine (if_neg (show total - suffix ≠ -1 by omega)).trans ?_
  rw [hadj]
  rfl

/-! ## Loads -/

/-- The load announces the length of the bytes, and calls of positive lengths deliver them. -/
def DeliversSync (icu : ICU) (items : BlobDataItemList) (header : Characters) (bytes : List UInt8) : Prop :=
  ∃ handle, loadSync icu items header = some handle ∧ handle.contentLength = some (bytes.length : Int) ∧
    ∀ calls : Nat → Nat, (∀ i, 0 < calls i ∧ calls i < 2 ^ 31) →
      ∃ n, readAll items ((List.range n).map calls) handle = some bytes

theorem skip_spec (h : AllInRange items) {offset o : Int} (hoff : 0 ≤ offset) {k : Nat}
    (hskip : skip (items.map BlobDataItem.length) offset = (k, o)) : 0 ≤ o ∧ (∀ item ∈ items[k]?, o ≤ item.length) ∧
      (blobBytes (items.drop k)).drop o.toNat = (blobBytes items).drop offset.toNat := by
  induction items generalizing offset k with
  | nil =>
    obtain ⟨rfl, rfl⟩ := Prod.mk.inj hskip
    exact ⟨hoff, nofun, rfl⟩
  | cons item rest ih =>
    obtain ⟨hitem, hrest⟩ := forall_mem_cons.mp h
    have hbs := hitem.length_bytes
    rw [map_cons, skip] at hskip
    split_ifs at hskip with hpast
    · obtain ⟨rfl, rfl⟩ := Prod.mk.inj hskip
      obtain ⟨hpos, hwit, hdrop⟩ := ih hrest (sub_nonneg.mpr hpast) rfl
      refine ⟨hpos, hwit, ?_⟩
      rw [drop_succ_cons, hdrop, blobBytes_cons,
        show offset.toNat = item.bytes.length + (offset - item.length).toNat by omega, drop_length_add_append]
    · obtain ⟨rfl, rfl⟩ := Prod.mk.inj hskip
      exact ⟨hoff, fun item' hitem' => Option.some.inj hitem' ▸ (not_le.mp hpast).le, rfl⟩

theorem ready_sought (h : AllInRange items) (hoff : 0 ≤ range.rangeOffset) (htot : 0 ≤ total) :
    Ready items (sought items range total).notifyResponse ((blobBytes items).drop range.rangeOffset.toNat) := by
  obtain ⟨hpos, hwit, hdrop⟩ := skip_spec h hoff rfl
  exact ⟨hpos, hwit, hdrop, htot⟩

def requestedBytes (bytes : List UInt8) (range : ByteRange) : List UInt8 :=
  if range.rangeSuffixLength ≠ -1 then bytes.drop (bytes.length - range.rangeSuffixLength.toNat)
  else requested bytes range

def SeeksWell (lengths : List Nat) (range : ByteRange) : Prop :=
  if range.rangeSuffixLength ≠ -1 then lengths.length = 1 ∨ range.rangeSuffixLength = lengths.sum
  else if range.rangeEnd ≠ -1 then
    range.rangeEnd - range.rangeOffset + 1 < 2 ^ 63 ∧ (range.rangeOffset = 0 ∨ range.rangeEnd < lengths.sum)
  else lengths.length = 1 ∨ range.rangeOffset = 0

section

variable {icu : ICU} {header : Characters}

theorem loadSync_eq (hhdr : parseRange icu header = some range) (items : BlobDataItemList) :
    loadSync icu items header = startSync items range := by
  rw [loadSync, rangeOf_eq hhdr]
  rfl

variable {bytes : List UInt8} {suffix : Nat}

theorem readAll_append {calls : List Nat} (h : readAll items calls handle = some bytes)
    (more : List Nat) : readAll items (calls ++ more) handle = some bytes := by
  induction calls generalizing handle with
  | nil => exact nomatch h
  | cons length rest ih =>
    obtain ⟨⟨data, next⟩, hread, h⟩ := bind_eq_some_iff.mp h
    rw [cons_append, readAll, hread, bind_eq_bind, bind_some]
    dsimp only at h ⊢
    by_cases hend : data = []
    · rw [if_pos hend] at h ⊢
      exact h
    · rw [if_neg hend] at h ⊢
      exact ih h

theorem readAll_unique {calls : Nat → Nat} {n n' : Nat} {bytes' : List UInt8}
    (h : readAll items ((List.range n).map calls) handle = some bytes)
    (h' : readAll items ((List.range n').map calls) handle = some bytes') : bytes = bytes' := by
  have hext : ∀ {n : Nat} {bytes : List UInt8} (more : Nat),
      readAll items ((List.range n).map calls) handle = some bytes →
      readAll items ((List.range (n + more)).map calls) handle = some bytes := by
    intro n bytes more h
    rw [range_add, map_append]
    exact readAll_append h _
  have hboth := hext n h'
  rw [add_comm, hext n' h] at hboth
  exact Option.some.inj hboth

/-- A load delivers the bytes at the position that it seeks to, as many as it announces. -/
theorem deliversSync_iff (hhdr : parseRange icu header = some range) (h : AllInRange items) {range' : ByteRange}
    (hst : startSync items range = some (sought items range' total).notifyResponse) (hoff : 0 ≤ range'.rangeOffset) :
    DeliversSync icu items header bytes ↔
      total = bytes.length ∧ ((blobBytes items).drop range'.rangeOffset.toNat).take total.toNat = bytes := by
  have hload := (loadSync_eq hhdr items).trans hst
  constructor
  · rintro ⟨handle, hhan, hlen, hread⟩
    obtain rfl := Option.some.inj (hload.symm.trans hhan)
    have htot : total = bytes.length := Option.some.inj hlen
    have hcal : ∀ _ : Nat, 0 < 1 ∧ 1 < 2 ^ 31 := fun _ => ⟨one_pos, by decide⟩
    obtain ⟨n, hn⟩ := hread (fun _ => 1) hcal
    obtain ⟨n', hn'⟩ := readAll_spec h (ready_sought h hoff (show 0 ≤ total by omega)) (fun _ => 1) hcal
    exact ⟨htot, readAll_unique hn' hn⟩
  · rintro ⟨htot, rfl⟩
    exact ⟨_, hload, congrArg some htot, readAll_spec h (ready_sought h hoff (by omega))⟩

theorem ne_nil_of_shaped (hshp : Shaped items lengths) (hpos : 0 < lengths.sum) : items ≠ [] := by
  rintro rfl
  have hlen := hshp.length_blobBytes
  rw [← hlen] at hpos
  exact absurd hpos (lt_irrefl 0)

theorem exists_of_deliversSync (h : DeliversSync icu items header bytes)
    (hhdr : parseRange icu header = some range) (hshp : Shaped items lengths) (hne : items ≠ []) :
    lengths.sum < 2 ^ 63 ∧ ∃ handle, seek (sized items range lengths.sum 0 0) = some handle ∧
      ∃ last, getSizes items (items.length - 1) handle = some last ∧ startSync items range = some last.notifyResponse := by
  obtain ⟨handle, hload, -⟩ := h
  rw [loadSync_eq hhdr] at hload
  have hst := hload
  rw [startSync_eq hshp.inRange hne, hshp.length_blobBytes] at hload
  obtain ⟨hfits, hload⟩ := ite_none_right_eq_some.mp hload
  obtain ⟨next, hseek, hload⟩ := bind_eq_some_iff.mp hload
  obtain ⟨last, hsiz, rfl⟩ := map_eq_some_iff.mp hload
  exact ⟨by omega, next, hseek, last, hsiz, hst⟩

/-! ### A last position -/

theorem startSync_last (h : Positioned range) (hend : range.rangeEnd ≠ -1) (hshp : Shaped items lengths)
    (hne : items ≠ []) (hfits : lengths.sum < 2 ^ 63) (hwide : range.rangeEnd - range.rangeOffset + 1 < 2 ^ 63) :
    startSync items range =
      some (sought items range (min lengths.sum (range.rangeEnd - range.rangeOffset + 1))).notifyResponse := by
  have hseek : ∀ total position count, seek (sized items range total position count) = _ := seek_last h hend hwide
  rw [startSync_eq hshp.inRange hne, hshp.length_blobBytes, if_pos (by omega), hseek, bind_some,
    getSizes_fixed]
  · rfl
  · rw [sought, hseek, ← sought, min_assoc, min_self]

theorem deliversSync_last_iff (hhdr : parseRange icu header = some range) (h : Positioned range)
    (hend : range.rangeEnd ≠ -1) (hsize : range.rangeOffset < lengths.sum) (hshp : Shaped items lengths) :
    DeliversSync icu items header (requested (blobBytes items) range) ↔
      lengths.sum < 2 ^ 63 ∧ range.rangeEnd - range.rangeOffset + 1 < 2 ^ 63 ∧
        (range.rangeOffset = 0 ∨ range.rangeEnd < lengths.sum) := by
  have hpos := h.offset
  have hle := h.stop.resolve_left hend
  have hne := ne_nil_of_shaped hshp (by omega)
  have hreq := take_sizeToRead (blobBytes items) hpos
  have hlen := congrArg List.length hreq
  rw [hshp.length_blobBytes, sizeToRead, if_pos hend] at hreq hlen
  rw [length_take, length_drop, hshp.length_blobBytes] at hlen
  by_cases hfits : lengths.sum < 2 ^ 63 ∧ range.rangeEnd - range.rangeOffset + 1 < 2 ^ 63
  · rw [deliversSync_iff hhdr hshp.inRange (startSync_last h hend hshp hne hfits.1 hfits.2) hpos,
      and_iff_left hreq]
    omega
  · refine iff_of_false (fun hdlv => ?_) (by omega)
    obtain ⟨hsum, next, hseek, -⟩ := exists_of_deliversSync hdlv hhdr hshp hne
    rw [seek_sized h, adjustSize_wide hend (show 2 ^ 63 ≤ range.rangeEnd - range.rangeOffset + 1 by omega)] at hseek
    cases hseek

/-! ### No last position -/

theorem deliversSync_open_iff (hhdr : parseRange icu header = some range) (h : Positioned range)
    (hend : range.rangeEnd = -1) (hsize : range.rangeOffset < lengths.sum) (hshp : Shaped items lengths) :
    DeliversSync icu items header (requested (blobBytes items) range) ↔
      lengths.sum < 2 ^ 63 ∧ (lengths.length = 1 ∨ range.rangeOffset = 0) := by
  have hpos := h.offset
  have hne := ne_nil_of_shaped hshp (by omega)
  have hreq := take_sizeToRead (blobBytes items) hpos
  have hlen := congrArg List.length hreq
  rw [hshp.length_blobBytes, sizeToRead, if_neg (not_not.mpr hend)] at hreq hlen
  rw [length_take, length_drop, hshp.length_blobBytes] at hlen
  have hseek : lengths.sum < 2 ^ 63 → seek (sized items range lengths.sum 0 0) =
      some (sought items range (lengths.sum - range.rangeOffset)) := by
    intro hfits
    rw [seek_open h hend, longLong_of_lt (by omega) (by omega)]
    rfl
  constructor
  · intro hdlv
    obtain ⟨hfits, next, hnext, last, hsiz, hst⟩ := exists_of_deliversSync hdlv hhdr hshp hne
    obtain rfl := Option.some.inj ((hseek hfits).symm.trans hnext)
    rw [getSizes_open h hend _ hsiz] at hst
    obtain ⟨htot, -⟩ := (deliversSync_iff hhdr hshp.inRange hst hpos).mp hdlv
    have hmul : ((items.length - 1 : Nat) : Int) * range.rangeOffset = 0 := by omega
    have hite := length_pos_iff.mpr hne
    have hcnt := hshp.length_eq
    rcases mul_eq_zero.mp hmul with hone | hzero
    · exact ⟨hfits, Or.inl (by omega)⟩
    · exact ⟨hfits, Or.inr hzero⟩
  · rintro ⟨hfits, hgood⟩
    refine (deliversSync_iff hhdr hshp.inRange ?_ hpos).mpr ⟨?_, hreq⟩
    · rw [startSync_eq hshp.inRange hne, hshp.length_blobBytes, if_pos (by omega), hseek hfits, bind_some]
      rcases hgood with hone | hzero
      · rw [hshp.length_eq, hone]
        rfl
      · rw [getSizes_fixed]
        · rfl
        · refine (seek_open h hend _ _ _).trans ?_
          rw [show (lengths.sum : Int) - range.rangeOffset - range.rangeOffset = lengths.sum - range.rangeOffset by
            omega, longLong_of_lt (by omega) (by omega)]
          rfl
    · omega

/-! ### A suffix -/

theorem startSync_suffix (hran : range.rangeSuffixLength = suffix) (hpos : 0 < suffix)
    (hle : suffix ≤ lengths.sum) (hfits : lengths.sum < 2 ^ 63) (hshp : Shaped items lengths) :
    startSync items range = some (sought items
      (if items.length = 1 then ⟨(lengths.sum - suffix : Nat), lengths.sum - 1, suffix⟩ else ⟨0, suffix - 1, suffix⟩)
      suffix).notifyResponse := by
  obtain ⟨first, last, suffixLength⟩ := range
  obtain rfl : suffixLength = suffix := hran
  have hne := ne_nil_of_shaped hshp (by omega)
  have hite := length_pos_iff.mpr hne
  have hseek : seek (sized items ⟨first, last, suffix⟩ lengths.sum 0 0) =
      some (sought items ⟨(lengths.sum : Int) - suffix, lengths.sum - 1, suffix⟩ suffix) :=
    seek_suffix (by omega) (by omega) (by omega) 0 0
  have haga : ∀ first last position count, seek (sized items ⟨first, last, suffix⟩ suffix position count) =
      some (sought items ⟨0, suffix - 1, suffix⟩ suffix) := by
    intro first last position count
    rw [seek_suffix (by omega) le_rfl (by omega), sub_self]
  rw [startSync_eq hshp.inRange hne, hshp.length_blobBytes, if_pos (by omega), hseek, bind_some]
  by_cases hone : items.length = 1
  · rw [if_pos hone, hone, show ((lengths.sum - suffix : Nat) : Int) = lengths.sum - suffix by omega]
    rfl
  · rw [if_neg hone]
    obtain ⟨turns, htur⟩ := exists_eq_succ_of_ne_zero (show items.length - 1 ≠ 0 by omega)
    rw [htur, sought, getSizes_sized, haga, bind_some, getSizes_fixed (haga _ _ _ _)]
    rfl

theorem exists_shaped (h : bytes.length = lengths.sum) :
    ∃ items, Shaped items lengths ∧ blobBytes items = bytes := by
  refine ⟨(lengths.splitLengths bytes).map whole, ?_, ?_⟩
  · have hshp := shaped_whole (lengths.splitLengths bytes)
    rwa [map_splitLengths_length bytes lengths h.ge] at hshp
  · rw [blobBytes_whole, flatten_splitLengths bytes lengths h.le]

/-- The suffix is delivered for all contents exactly if there is one item, or it is the whole blob. -/
theorem deliversSync_suffix_iff (hhdr : parseRange icu header = some range)
    (hran : range.rangeSuffixLength = suffix) (hpos : 0 < suffix) (hle : suffix ≤ lengths.sum) :
    (∀ items, Shaped items lengths →
      DeliversSync icu items header ((blobBytes items).drop ((blobBytes items).length - suffix))) ↔
    lengths.sum < 2 ^ 63 ∧ (lengths.length = 1 ∨ suffix = lengths.sum) := by
  constructor
  · intro hall
    -- Only the last byte is one.
    obtain ⟨items, hshp, hbs⟩ := exists_shaped
      (show (List.replicate (lengths.sum - 1) (0 : UInt8) ++ [1]).length = lengths.sum by
        rw [length_append, length_replicate, length_singleton]; omega)
    have hdlv := hall items hshp
    obtain ⟨hfits, -⟩ := exists_of_deliversSync hdlv hhdr hshp (ne_nil_of_shaped hshp (by omega))
    refine ⟨hfits, ?_⟩
    by_contra hbad
    obtain ⟨hone, hpart⟩ := not_or.mp hbad
    have hst := startSync_suffix hran hpos hle hfits hshp
    rw [hshp.length_eq, if_neg hone] at hst
    obtain ⟨-, heq⟩ := (deliversSync_iff hhdr hshp.inRange hst le_rfl).mp hdlv
    have hmem : (1 : UInt8) ∈ (blobBytes items).drop ((blobBytes items).length - suffix) := by
      rw [hbs, drop_append_of_le_length]
      · exact mem_append_right _ mem_cons_self
      · simp
        omega
    rw [← heq, toNat_zero, drop_zero, toNat_natCast, hbs, take_append_of_le_length] at hmem
    · exact absurd (eq_of_mem_replicate (mem_of_mem_take hmem)) (by decide)
    · rw [length_replicate]
      omega
  · rintro ⟨hfits, hgood⟩ items hshp
    have hbs := hshp.length_blobBytes
    have hst := startSync_suffix hran hpos hle hfits hshp
    obtain ⟨range', hran', hoff⟩ : ∃ range', startSync items range = some (sought items range' suffix).notifyResponse ∧
        range'.rangeOffset = (lengths.sum - suffix : Nat) := by
      refine ⟨_, hst, ?_⟩
      split_ifs with hone
      · rfl
      · have hwho := hgood.resolve_left (hshp.length_eq ▸ hone)
        show (0 : Int) = (lengths.sum - suffix : Nat)
        omega
    refine (deliversSync_iff hhdr hshp.inRange hran' (by omega)).mpr ?_
    rw [hoff, toNat_natCast, toNat_natCast, length_drop, hbs]
    refine ⟨by omega, take_of_length_le ?_⟩
    rw [length_drop]
    omega

/-- **Which ranges are delivered**: for all contents of items of given lengths, a synchronous load announces the
    length of the requested bytes and delivers them, exactly if the sizes fit and seeking once for each item is the
    same as seeking once. -/
theorem loadSync_iff (hheader : parseRange icu header = some range) (lengths : List Nat)
    (hrange : (range.rangeOffset ≠ -1 ∧ range.rangeOffset < lengths.sum) ∨
      (0 < range.rangeSuffixLength ∧ range.rangeSuffixLength ≤ lengths.sum)) : (∀ items, Shaped items lengths →
      DeliversSync icu items header (requestedBytes (blobBytes items) range)) ↔
    lengths.sum < 2 ^ 63 ∧ SeeksWell lengths range := by
  obtain ⟨items, hshaped, -⟩ := exists_shaped (show (List.replicate lengths.sum (0 : UInt8)).length = lengths.sum from
    length_replicate)
  have hforall : ∀ {P : BlobDataItemList → Prop} {Q : Prop}, (∀ items, Shaped items lengths → (P items ↔ Q)) →
      ((∀ items, Shaped items lengths → P items) ↔ Q) := by
    intro P Q hiff
    exact ⟨fun hall => (hiff items hshaped).mp (hall items hshaped), fun hQ items hshaped =>
      (hiff items hshaped).mpr hQ⟩
  by_cases hsuffix : range.rangeSuffixLength = -1
  · have hgiven := hrange.resolve_right (by omega)
    have h := positioned_of_parseRange hheader hgiven.1
    simp only [requestedBytes, SeeksWell, if_neg (not_not.mpr hsuffix)]
    apply hforall
    intro items hshaped
    by_cases hend : range.rangeEnd = -1
    · rw [if_neg (not_not.mpr hend)]
      exact deliversSync_open_iff hheader h hend hgiven.2 hshaped
    · rw [if_pos hend]
      exact deliversSync_last_iff hheader h hend hgiven.2 hshaped
  · have hpositive : 0 < range.rangeSuffixLength ∧ range.rangeSuffixLength ≤ lengths.sum := by
      rcases hrange with hgiven | hpositive
      · exact absurd (positioned_of_parseRange hheader hgiven.1).suffix hsuffix
      · exact hpositive
    obtain ⟨suffix, hnat⟩ := eq_ofNat_of_zero_le hpositive.1.le
    simp only [requestedBytes, SeeksWell]
    rw [hnat, Int.toNat_natCast, Nat.cast_inj]
    exact deliversSync_suffix_iff hheader hnat (by omega) (by omega)

end

theorem loadSync_iff_last :
    (∀ items, Shaped items [2, 3] → DeliversSync ICU.ascii items (characters "bytes=1-3")
      (requestedBytes (blobBytes items) { rangeOffset := 1, rangeEnd := 3 })) ↔
    5 < 2 ^ 63 ∧ SeeksWell [2, 3] { rangeOffset := 1, rangeEnd := 3 } :=
  loadSync_iff rfl [2, 3] (Or.inl (by decide))

/-- The first byte of two items is left out, and the load announces two bytes instead of three. -/
theorem first_position_subtracted_twice :
    (loadSync ICU.ascii [whole [1, 2], whole [3, 4]] (characters "bytes=1-")).map contentLength = some (some 2) ∧
      ¬DeliversSync ICU.ascii [whole [1, 2], whole [3, 4]] (characters "bytes=1-")
        (requestedBytes (blobBytes [whole [1, 2], whole [3, 4]]) { rangeOffset := 1 }) := by
  refine ⟨rfl, fun hdelivers => ?_⟩
  obtain ⟨handle, hload, hlength, -⟩ := hdelivers
  obtain rfl := Option.some.inj hload
  exact absurd hlength (by decide)

end BlobResourceHandle

end WebV8
