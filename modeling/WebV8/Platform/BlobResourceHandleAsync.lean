import WebV8.Platform.BlobResourceHandle

/-! # Asynchronous loads of a range

An item is read from the current read position in it. That position is reset to zero when `consumeData` returns,
and `consumeData` reads all items that follow: these are read from the position where the range starts in its first
item.
-/

namespace WebV8

open HTTPParsers BlobRegistry List Option Int

namespace BlobResourceHandle

variable {items : BlobDataItemList} {lengths : List Nat} {range : ByteRange} {handle : BlobResourceHandle}

/-! ## Seeking to a first position -/

/-- No size of the load exceeds a `long long`. -/
def FitsLongLong (size : Nat) (range : ByteRange) : Prop :=
  size < 2 ^ 63 ∧ (range.rangeEnd ≠ -1 → range.rangeEnd - range.rangeOffset + 1 < 2 ^ 63)

instance (size : Nat) (range : ByteRange) : Decidable (FitsLongLong size range) := instDecidableAnd

theorem seek_of_offset (hsuf : handle.rangeSuffixLength = -1) (hoff : handle.rangeOffset ≠ -1) :
    handle.seek = handle.adjustSize.map fun total =>
      { handle with
        readItemCount := (skip handle.itemLengthList handle.rangeOffset).1
        currentItemReadSize := (skip handle.itemLengthList handle.rangeOffset).2
        totalRemainingSize := total } := by
  have hcon : handle.convertSuffix = some handle := if_neg (not_not.mpr hsuf)
  rw [seek, hcon, bind_eq_bind, bind_some, if_neg hoff]
  cases handle.adjustSize with
  | none => rfl
  | some total => rfl

structure Positioned (range : ByteRange) : Prop where
  suffix : range.rangeSuffixLength = -1
  offset : 0 ≤ range.rangeOffset
  stop : range.rangeEnd = -1 ∨ range.rangeOffset ≤ range.rangeEnd

variable {header : Characters} {before : List Nat} {o : Nat} {item : BlobDataItem}
    {datas : List (List UInt8)} {data : List UInt8}

theorem positioned_of_parseRange {icu : ICU} (h : parseRange icu header = some range)
    (hoff : range.rangeOffset ≠ -1) : Positioned range := by
  rcases parseRange_spec h with hnone | ⟨hsuf, hpos, hstop⟩
  · exact absurd hnone.1 hoff
  · exact ⟨hsuf, hpos, hstop⟩

theorem adjustSize_eq (size : Nat) (h : Positioned range) (hsize : range.rangeOffset < size) (hfits : size < 2 ^ 63)
    (hoff : handle.rangeOffset = range.rangeOffset) (hend : handle.rangeEnd = range.rangeEnd)
    (htot : handle.totalRemainingSize = size) :
    handle.adjustSize = if FitsLongLong size range then some (sizeToRead size range) else none := by
  have hpos := h.offset
  rw [sizeToRead]
  by_cases hstop : range.rangeEnd = -1
  · rw [adjustSize_open (hend.trans hstop), htot, hoff, if_neg (not_not.mpr hstop),
      longLong_of_lt (by omega) (by omega), if_pos ⟨hfits, fun hne => absurd hstop hne⟩]
  · have hle := h.stop.resolve_left hstop
    rw [if_pos hstop]
    by_cases hwide : range.rangeEnd - range.rangeOffset + 1 < 2 ^ 63
    · rw [adjustSize_last (by omega) (by omega) (by omega), htot, hoff, hend, if_pos ⟨hfits, fun _ => hwide⟩]
    · rw [adjustSize_wide (by omega) (by omega), if_neg fun hall => hwide (hall.2 hstop)]

/-- **The start of an asynchronous load** leads to the item where the range starts. -/
theorem startAsync_eq {after : List Nat} {l : Nat} (h : Positioned range)
    (hshp : Shaped items (before ++ l :: after)) (ho : o < l)
    (hoff : range.rangeOffset = (before.sum + o : Nat)) :
    ∃ handle : BlobResourceHandle, handle.currentItemReadSize = o ∧ handle.received = [] ∧
      handle.totalRemainingSize = sizeToRead (blobBytes items).length range ∧ startAsync items range =
        if FitsLongLong (blobBytes items).length range then readAsync (items.drop before.length) handle else none := by
  have hlen := hshp.length_blobBytes
  have hsum : (before ++ l :: after).sum = before.sum + (l + after.sum) := by
    rw [sum_append, sum_cons]
  refine ⟨{ rangeOffset := range.rangeOffset, rangeEnd := range.rangeEnd
            rangeSuffixLength := range.rangeSuffixLength
            totalRemainingSize := sizeToRead (blobBytes items).length range
            currentItemReadSize := o
            itemLengthList := items.map BlobDataItem.length
            sizeItemCount := 0 + items.length
            readItemCount := before.length
            contentLength := some (sizeToRead (blobBytes items).length range) }, rfl, rfl, rfl, ?_⟩
  rw [startAsync, getSizeForNext_eq _ hshp.inRange _ le_rfl (show (0 : Int) < 2 ^ 63 by decide)]
  rw [nil_append, zero_add]
  by_cases hfits : ((blobBytes items).length : Int) < 2 ^ 63
  · have hgiv : range.rangeOffset ≠ -1 := by omega
    rw [if_pos hfits, seek_of_offset h.suffix hgiv,
      adjustSize_eq (blobBytes items).length h (by omega) (by omega) rfl rfl rfl]
    by_cases hall : FitsLongLong (blobBytes items).length range
    · rw [if_pos hall, if_pos hall]
      rw [hoff, hshp.lengths, skip_append before after ho]
      rfl
    · rw [if_neg hall, if_neg hall]
      rfl
  · rw [if_neg hfits, if_neg fun hall => hfits (by have := hall.1; omega)]

/-! ## Reading -/

/-- Items whose lengths are of type `int`. -/
def Short (items : BlobDataItemList) : Prop := ∀ item ∈ items, item.length < 2 ^ 31

theorem toInt_eq {value : Int} (hlow : -2 ^ 31 ≤ value) (hhigh : value < 2 ^ 31) : toInt value = value :=
  bmod_eq_of_le (by omega) (by omega)

theorem readDataAsync_eq (next : BlobResourceHandle → Option BlobResourceHandle)
    (hitem : item.InRange) (hsho : item.length < 2 ^ 31) (hpos : 0 ≤ handle.currentItemReadSize)
    (hle : handle.currentItemReadSize ≤ item.length) (htot : 0 ≤ handle.totalRemainingSize) :
    readDataAsync next item handle = (next
        { handle with
          totalRemainingSize := handle.totalRemainingSize -
            min (item.length - handle.currentItemReadSize) handle.totalRemainingSize
          received := handle.received ++
            (item.bytes.drop handle.currentItemReadSize.toNat).take handle.totalRemainingSize.toNat
          readItemCount := handle.readItemCount + 1 }).map fun handle => { handle with currentItemReadSize := 0 } := by
  obtain ⟨bytesToRead, hread⟩ : ∃ bytesToRead, bytesToRead =
    min (item.length - handle.currentItemReadSize) handle.totalRemainingSize := ⟨_, rfl⟩
  have hlen := hitem.length_bytes
  have htake : (item.bytes.drop handle.currentItemReadSize.toNat).take bytesToRead.toNat =
      (item.bytes.drop handle.currentItemReadSize.toNat).take handle.totalRemainingSize.toNat := by
    rw [take_eq_take_iff, length_drop]
    omega
  rw [readDataAsync, ← hread, toInt_eq (by omega) (by omega), bytesAt_eq hitem hpos (by omega) (by omega), htake]
  show (next _).bind _ = (next _).map _
  cases next _ with
  | none => rfl
  | some handle => rfl

/-- **Aligned reads**: from the start of an item on, the bytes of all items are received, up to the end of the
    range. -/
theorem readAsync_aligned (h : AllInRange items) (hsho : Short items) (hpos : handle.currentItemReadSize = 0)
    (htot : 0 ≤ handle.totalRemainingSize) : (readAsync items handle).map received =
      some (handle.received ++ (blobBytes items).take handle.totalRemainingSize.toNat) := by
  induction items generalizing handle with
  | nil => rw [readAsync, map_some, blobBytes, flatMap_nil, take_nil, append_nil]
  | cons item rest ih =>
    obtain ⟨hitem, hrest⟩ := forall_mem_cons.mp h
    obtain ⟨hiteSh, hresSh⟩ := forall_mem_cons.mp hsho
    have hlen := hitem.length_bytes
    rw [readAsync]
    by_cases hdone : handle.totalRemainingSize = 0
    · rw [if_pos hdone, hdone, map_some]
      simp
    · rw [if_neg hdone, readDataAsync_eq _ hitem hiteSh (by omega) (by omega) htot, Option.map_map]
      refine (ih hrest hresSh ?_ ?_).trans ?_
      · exact hpos
      · show 0 ≤ handle.totalRemainingSize - min _ _
        omega
      · dsimp only
        rw [hpos, append_assoc, sub_zero, blobBytes_cons, List.take_append,
          show (handle.totalRemainingSize - min item.length handle.totalRemainingSize).toNat =
            handle.totalRemainingSize.toNat - item.bytes.length by omega]
        rfl

theorem readAsync_single {rest : BlobDataItemList} (hitem : item.InRange)
    (hsho : item.length < 2 ^ 31) (hpos : 0 ≤ handle.currentItemReadSize)
    (hle : handle.currentItemReadSize ≤ item.length) (htot : 0 < handle.totalRemainingSize)
    (hends : handle.totalRemainingSize ≤ item.length - handle.currentItemReadSize ∨ rest = []) :
    (readAsync (item :: rest) handle).map received =
      some (handle.received ++ ((blobBytes (item :: rest)).drop handle.currentItemReadSize.toNat).take
        handle.totalRemainingSize.toNat) := by
  have hlen := hitem.length_bytes
  rw [readAsync, if_neg htot.ne', readDataAsync_eq _ hitem hsho hpos hle htot.le, Option.map_map,
    blobBytes_cons, drop_append_of_le_length (by omega)]
  rcases hends with hend | rfl
  · have hsto : ∀ (items : BlobDataItemList) {handle : BlobResourceHandle}, handle.totalRemainingSize = 0 →
        readAsync items handle = some handle := by
      intro items handle hzero
      cases items with
      | nil => rfl
      | cons item rest => rw [readAsync, if_pos hzero]
    rw [hsto rest (show handle.totalRemainingSize - _ = 0 by omega), map_some, take_append_of_le_length]
    · rfl
    · rw [length_drop]
      omega
  · rw [readAsync, map_some, blobBytes, flatMap_nil, append_nil]
    rfl

/-! ## Misaligned reads -/

def whole (data : List UInt8) : BlobDataItem := ⟨data, 0, data.length⟩

theorem shaped_whole (datas : List (List UInt8)) : Shaped (datas.map whole) (datas.map List.length) := by
  refine ⟨fun item hitem => ?_, ?_⟩
  · obtain ⟨data, -, rfl⟩ := mem_map.mp hitem
    exact ⟨le_rfl, natCast_nonneg _, (zero_add _).le⟩
  · rw [List.map_map, List.map_map]
    rfl

theorem blobBytes_whole (datas : List (List UInt8)) : blobBytes (datas.map whole) = datas.flatten := by
  induction datas with
  | nil => rfl
  | cons data rest ih =>
    rw [map_cons, blobBytes_cons, ih, flatten_cons]
    congr 1
    exact take_length

theorem readAsync_quiet {hand' : BlobResourceHandle}
    (hpos : handle.currentItemReadSize = o) (hzero : ∀ data ∈ datas, ∀ b ∈ data.drop o, b = 0)
    (hread : readAsync (datas.map whole) handle = some hand') :
    ∀ b ∈ hand'.received, b ∈ handle.received ∨ b = 0 := by
  induction datas generalizing handle hand' with
  | nil =>
    obtain rfl := Option.some.inj hread
    exact fun b hb => Or.inl hb
  | cons data rest ih =>
    obtain ⟨hdata, hrest⟩ := forall_mem_cons.mp hzero
    rw [map_cons, readAsync] at hread
    split_ifs at hread with hdone
    · obtain rfl := Option.some.inj hread
      exact fun b hb => Or.inl hb
    · obtain ⟨bytes, hbs, hread⟩ := bind_eq_some_iff.mp hread
      obtain ⟨hand₂, hcon, hread⟩ := bind_eq_some_iff.mp hread
      obtain rfl := Option.some.inj hread
      intro b hb
      rcases ih (by exact hpos) hrest hcon b hb with hold | hb
      · rcases mem_append.mp hold with hold | hnew
        · exact Or.inl hold
        · right
          rw [bytesAt, hpos] at hbs
          obtain ⟨-, hsome⟩ := ite_none_right_eq_some.mp hbs
          obtain rfl := Option.some.inj hsome
          rw [show ((whole data).offset + (o : Int)).toNat = o from congrArg Int.toNat (zero_add _)] at hnew
          exact hdata b (mem_of_mem_take hnew)
      · exact Or.inr hb

theorem readAsync_empty
    (hpos : handle.currentItemReadSize = o) (ho : 0 < o) (hlt : o < data.length) (hsho : data.length < 2 ^ 31)
    (htot : (data.length : Int) - o < handle.totalRemainingSize) :
    readAsync ((data :: [] :: datas).map whole) handle = none := by
  have hitem : (whole data).InRange := (shaped_whole [data]).inRange _ mem_cons_self
  have hlen : (whole data).length = data.length := rfl
  rw [map_cons, readAsync, if_neg (by omega), readDataAsync_eq _ hitem (by omega) (by omega) (by omega) (by omega),
    map_cons, readAsync, if_neg (show handle.totalRemainingSize - _ ≠ 0 by omega), readDataAsync]
  have hemp : toInt (min ((whole []).length - handle.currentItemReadSize) (handle.totalRemainingSize -
      min ((whole data).length - handle.currentItemReadSize) handle.totalRemainingSize)) = -o := by
    have hzero : (whole []).length = 0 := rfl
    rw [hzero, toInt_eq (by omega) (by omega)]
    omega
  rw [hemp, bytesAt, if_neg (by omega)]
  rfl

/-! ## Loads -/

theorem rangeOf_eq {icu : ICU} (h : parseRange icu header = some range) : rangeOf icu header = some range := by
  rw [rangeOf, if_neg]
  · exact h
  · rintro rfl
    have href : parseRange icu [] = none := rfl
    rw [href] at h
    exact nomatch h

/-- A range that starts within an item ends in it, or the item is the last one. -/
def Aligned (lengths : List Nat) (range : ByteRange) : Prop :=
  ∀ (before : List Nat) (l : Nat) (after : List Nat), lengths = before ++ l :: after →
    (before.sum : Int) < range.rangeOffset → range.rangeOffset < before.sum + l →
      range.rangeOffset + sizeToRead lengths.sum range ≤ before.sum + l ∨ after = []

theorem sizeToRead_pos {size : Nat} (h : Positioned range) (hsize : range.rangeOffset < size) :
    0 < sizeToRead size range := by
  obtain ⟨-, hoff, hstop⟩ := h
  rw [sizeToRead]
  split_ifs with hend
  · have hle := hstop.resolve_left hend
    omega
  · omega

theorem startAsync_of_aligned (h : Positioned range) (hsize : range.rangeOffset < lengths.sum)
    (hsho : ∀ l ∈ lengths, l < 2 ^ 31) (hfits : FitsLongLong lengths.sum range) (hali : Aligned lengths range)
    (hshp : Shaped items lengths) :
    (startAsync items range).map received = some (requested (blobBytes items) range) := by
  have hpos := h.offset
  obtain ⟨before, l, after, o, rfl, ho, hoff⟩ := exists_split (show range.rangeOffset.toNat < lengths.sum by omega)
  obtain ⟨pre, item, post, rfl, hpre, hpreSh, hitem, hl, hpost⟩ := hshp.split
  obtain ⟨handle, hposi, hrcv, htot, hst⟩ := startAsync_eq h hshp ho (by omega)
  have htotPo := sizeToRead_pos h hsize
  have hbs := hpreSh.length_blobBytes
  have hlen := hshp.length_blobBytes
  have hdrop : (blobBytes (pre ++ item :: post)).drop range.rangeOffset.toNat =
      (blobBytes (item :: post)).drop o := by
    rw [blobBytes_append, hoff, ← hbs, drop_length_add_append]
  rw [hlen] at htot hst
  rw [hst, if_pos hfits, ← hpre, drop_left, ← take_sizeToRead _ hpos, hdrop, hlen, ← htot]
  rw [← htot] at htotPo
  have hiteSh : item.length < 2 ^ 31 := by
    have := hsho l (mem_append_right before mem_cons_self)
    omega
  have hread : (readAsync (item :: post) handle).map received = some (handle.received ++
      ((blobBytes (item :: post)).drop handle.currentItemReadSize.toNat).take handle.totalRemainingSize.toNat) := by
    by_cases hzero : o = 0
    · -- The items that follow are read from their start, too.
      have hran : AllInRange (item :: post) := forall_mem_cons.mpr ⟨hitem, hpost.inRange⟩
      have hallSh : Short (item :: post) := by
        refine forall_mem_cons.mpr ⟨hiteSh, fun item' hitem' => ?_⟩
        have hmem : item'.length ∈ after.map Nat.cast := hpost.lengths ▸ mem_map_of_mem hitem'
        obtain ⟨l', hl', heq⟩ := mem_map.mp hmem
        have := hsho l' (mem_append_right before (mem_cons_of_mem l hl'))
        omega
      rw [readAsync_aligned hran hallSh (by omega) htotPo.le, hposi, hzero]
      rfl
    · refine readAsync_single hitem hiteSh (by omega) (by omega) htotPo ?_
      rcases hali before l after rfl (by omega) (by omega) with hends | rfl
      · exact Or.inl (by omega)
      · exact Or.inr (map_eq_nil_iff.mp hpost.lengths)
  rw [hread, hrcv, hposi, nil_append]
  rfl

def zeros (lengths : List Nat) : List (List UInt8) := lengths.map fun l => List.replicate l 0

theorem map_length_zeros (lengths : List Nat) : (zeros lengths).map List.length = lengths := by
  rw [zeros, List.map_map]
  refine (map_congr_left fun l _ => ?_).trans (map_id lengths)
  exact length_replicate

theorem eq_zero_of_mem_zeros (h : data ∈ zeros lengths) : ∀ b ∈ data, b = 0 := by
  obtain ⟨l, -, rfl⟩ := mem_map.mp h
  exact fun b hb => eq_of_mem_replicate hb

theorem exists_missed {l : Nat} (l' : Nat) (after : List Nat) (h : Positioned range)
    (ho : 0 < o) (hlt : o < l) (hoff : range.rangeOffset = (before.sum + o : Nat)) (hsho : l < 2 ^ 31)
    (hpast : (l : Int) - o < sizeToRead (before ++ l :: l' :: after).sum range) :
    ∃ items, Shaped items (before ++ l :: l' :: after) ∧
      (startAsync items range).map received ≠ some (requested (blobBytes items) range) := by
  -- All contents are zero, but for the first byte of the second item.
  obtain ⟨second, hsnd, hsndZe, hmark⟩ : ∃ second : List UInt8, second.length = l' ∧
      (∀ b ∈ second.drop o, b = 0) ∧ (l' ≠ 0 → second.head? = some 1) := by
    cases l' with
    | zero => exact ⟨[], rfl, by simp, fun hne => absurd rfl hne⟩
    | succ m =>
      refine ⟨1 :: List.replicate m 0, by simp, fun b hb => ?_, fun _ => rfl⟩
      obtain ⟨o', rfl⟩ := Nat.exists_eq_succ_of_ne_zero ho.ne'
      exact eq_of_mem_replicate (mem_of_mem_drop hb)
  have hdata : (List.replicate l (0 : UInt8)).length = l := length_replicate
  have hshp : Shaped ((zeros before).map whole ++ (List.replicate l 0 :: second :: zeros after).map whole)
      (before ++ l :: l' :: after) := by
    have := shaped_whole (zeros before ++ List.replicate l 0 :: second :: zeros after)
    have hleng : (zeros before ++ List.replicate l 0 :: second :: zeros after).map List.length =
        before ++ l :: l' :: after := by
      simp [map_length_zeros, hdata, hsnd]
    rwa [hleng, map_append] at this
  refine ⟨_, hshp, fun hgood => ?_⟩
  obtain ⟨handle, hpos, hrcv, htot, hst⟩ := startAsync_eq h hshp hlt hoff
  have hlen := hshp.length_blobBytes
  have hbef : ((zeros before).map whole).length = before.length := by
    rw [length_map, zeros, length_map]
  rw [hlen] at htot
  rw [hst] at hgood
  split_ifs at hgood with hfits
  · rw [← hbef, drop_left] at hgood
    by_cases hemp : l' = 0
    · obtain rfl : second = [] := length_eq_zero_iff.mp (hsnd.trans hemp)
      rw [readAsync_empty hpos ho (by omega) (by omega) (by omega)] at hgood
      exact nomatch hgood
    · obtain ⟨hand', hread, hreq⟩ := map_eq_some_iff.mp hgood
      obtain ⟨tail, rfl⟩ := List.head?_eq_some_iff.mp (hmark hemp)
      have hone : (1 : UInt8) ∈ hand'.received := by
        have hzer : (blobBytes ((zeros before).map whole)).length = before.sum := by
          rw [blobBytes_whole, List.length_flatten, map_length_zeros]
        rw [hreq, ← take_sizeToRead _ h.offset, hlen, blobBytes_append, hoff, toNat_natCast, ← hzer,
          drop_length_add_append, blobBytes_whole, flatten_cons, drop_append_of_le_length (by omega),
          List.take_append, flatten_cons, length_drop, hdata]
        refine mem_append_right _ ?_
        obtain ⟨n, hn⟩ := Nat.exists_eq_succ_of_ne_zero
          (show (sizeToRead (before ++ l :: l' :: after).sum range).toNat - (l - o) ≠ 0 by omega)
        rw [hn]
        exact mem_cons_self
      refine absurd (readAsync_quiet hpos ?_ hread 1 hone) ?_
      · refine forall_mem_cons.mpr ⟨fun b hb => eq_of_mem_replicate (mem_of_mem_drop hb),
          forall_mem_cons.mpr ⟨hsndZe, fun data hmem b hb => ?_⟩⟩
        exact eq_zero_of_mem_zeros hmem b (mem_of_mem_drop hb)
      · rw [hrcv]
        decide
  · exact nomatch hgood

end BlobResourceHandle

end WebV8
