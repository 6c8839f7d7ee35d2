import Mathlib

/-! # BlobRegistryImpl

A blob is a list of items, each a range of some raw data. Registering a blob of parts puts the items of registered
blobs and new raw data one after the other; registering a slice takes the items that the range meets, the first
and the last cut to it. Raw data is never copied.
-/

namespace WebV8

open List Option Int

/-- An item of type `Data`; offsets and lengths are `long long`. -/
structure BlobDataItem where
  data : List UInt8
  offset : Int
  length : Int

namespace BlobDataItem

def bytes (item : BlobDataItem) : List UInt8 := (item.data.drop item.offset.toNat).take item.length.toNat

structure InRange (item : BlobDataItem) : Prop where
  offset : 0 ≤ item.offset
  length : 0 ≤ item.length
  stop : item.offset + item.length ≤ item.data.length

variable {item : BlobDataItem}

theorem InRange.length_bytes (h : item.InRange) : (item.bytes.length : Int) = item.length := by
  obtain ⟨hoff, hlen, hstop⟩ := h
  rw [bytes, length_take, length_drop]
  omega

theorem InRange.part (h : item.InRange) {offset length : Int} (hoff : 0 ≤ offset)
    (hleng : 0 ≤ length) (hle : offset + length ≤ item.length) :
    (⟨item.data, item.offset + offset, length⟩ : BlobDataItem).InRange ∧
      (⟨item.data, item.offset + offset, length⟩ : BlobDataItem).bytes =
        (item.bytes.drop offset.toNat).take length.toNat := by
  obtain ⟨hst, hlen, hstop⟩ := h
  refine ⟨⟨?_, hleng, ?_⟩, ?_⟩
  · exact add_nonneg hst hoff
  · show item.offset + offset + length ≤ item.data.length
    omega
  · have hadd : (item.offset + offset).toNat = item.offset.toNat + offset.toNat := by omega
    have hmin : min length.toNat (item.length.toNat - offset.toNat) = length.toNat := by omega
    rw [bytes, bytes, drop_take, drop_drop, take_take, hmin, ← hadd]

end BlobDataItem

abbrev BlobDataItemList := List BlobDataItem

variable (items : BlobDataItemList)

def blobBytes : List UInt8 := items.flatMap BlobDataItem.bytes

namespace BlobRegistry

variable {URL : Type}

inductive BlobPart (URL : Type) where
  | data (bytes : List UInt8)
  | blob (url : URL)

/-- `m_blobs` -/
abbrev Blobs (URL : Type) := URL → Option BlobDataItemList

/-! ## Operations -/

/-- `blobSize`: the sum is an `unsigned long long`. -/
def blobSize : Nat :=
  items.foldl (fun result item => (result + item.length.toNat) % 2 ^ 64) 0

def skipItems : BlobDataItemList → Int → BlobDataItemList × Int
  | [], offset => ([], offset)
  | item :: rest, offset =>
    if offset ≥ item.length then skipItems rest (offset - item.length) else (item :: rest, offset)

/-- The items that are appended, from an offset in the first one on. -/
def storageItems : BlobDataItemList → Int → Int → BlobDataItemList
  | [], _, _ => []
  | item :: rest, offset, length =>
    if length > 0 then
      let currentLength := item.length - offset
      let newLength := if currentLength > length then length else currentLength
      ⟨item.data, item.offset + offset, newLength⟩ :: storageItems rest 0 (length - newLength)
    else []

def appendStorageItems (blobData items : BlobDataItemList) (offset length : Int) : BlobDataItemList :=
  let (items, offset) := if offset ≠ 0 then skipItems items offset else (items, offset)
  blobData ++ storageItems items offset length

/-- The items of the parts, unless a blob among them is not registered. -/
def appendParts (blobs : Blobs URL) : BlobDataItemList → List (BlobPart URL) → Option BlobDataItemList
  | items, [] => some items
  | items, .data bytes :: parts => appendParts blobs (items ++ [⟨bytes, 0, bytes.length⟩]) parts
  | items, .blob url :: parts => do
    let blobItems ← blobs url
    appendParts blobs (items ++ blobItems) parts

def registerBlobURL [DecidableEq URL] (blobs : Blobs URL) (url : URL) (blobParts : List (BlobPart URL)) : Blobs URL :=
  match appendParts blobs [] blobParts with
  | none => blobs
  | some items => Function.update blobs url (some items)

def registerBlobURLFrom [DecidableEq URL] (blobs : Blobs URL) (url srcURL : URL) : Blobs URL :=
  match blobs srcURL with
  | none => blobs
  | some items => Function.update blobs url (some items)

/-- A position that counts from the end: the sum is unsigned, and becomes signed again. -/
def fromEnd (position : Int) (originalSize : Nat) : Int :=
  if position < 0 then (position + originalSize).bmod (2 ^ 64) else position

def clampRange (start stop : Int) (originalSize : Nat) : Int × Int :=
  let start := fromEnd start originalSize
  let stop := fromEnd stop originalSize
  let start := if start < 0 then 0 else start
  let stop := if stop < 0 then 0 else stop
  if start ≥ originalSize then (0, 0)
  else if stop < start then (start, start)
  else if stop > originalSize then (start, originalSize)
  else (start, stop)

def registerBlobURLForSlice [DecidableEq URL] (blobs : Blobs URL) (url srcURL : URL) (start stop : Int64) :
    Blobs URL :=
  match blobs srcURL with
  | none => blobs
  | some items =>
    let (start, stop) := clampRange start.toInt stop.toInt (blobSize items)
    Function.update blobs url (some (appendStorageItems [] items start (stop - start)))

def unregisterBlobURL [DecidableEq URL] (blobs : Blobs URL) (url : URL) : Blobs URL := Function.update blobs url none

inductive Operation (URL : Type) where
  | registerBlobURL (url : URL) (blobParts : List (BlobPart URL))
  | registerBlobURLFrom (url srcURL : URL)
  | registerBlobURLForSlice (url srcURL : URL) (start stop : Int64)
  | unregisterBlobURL (url : URL)

def perform [DecidableEq URL] (blobs : Blobs URL) : Operation URL → Blobs URL
  | .registerBlobURL url blobParts => registerBlobURL blobs url blobParts
  | .registerBlobURLFrom url srcURL => registerBlobURLFrom blobs url srcURL
  | .registerBlobURLForSlice url srcURL start stop => registerBlobURLForSlice blobs url srcURL start stop
  | .unregisterBlobURL url => unregisterBlobURL blobs url

/-! ## Contents -/

/-- A position of a slice: a negative one counts from the end, and all are clamped to the size. -/
def slicePosition (size : Nat) (position : Int) : Nat :=
  if position < 0 then (size + position).toNat else min position.toNat size

def slice (bytes : List UInt8) (start stop : Int) : List UInt8 :=
  (bytes.drop (slicePosition bytes.length start)).take
    (slicePosition bytes.length stop - slicePosition bytes.length start)

abbrev Contents (URL : Type) := URL → Option (List UInt8)

def partsContent (contents : Contents URL) : List (BlobPart URL) → Option (List UInt8)
  | [] => some []
  | .data bytes :: parts => (partsContent contents parts).map (bytes ++ ·)
  | .blob url :: parts => do
    let bytes ← contents url
    (partsContent contents parts).map (bytes ++ ·)

def set [DecidableEq URL] (contents : Contents URL) (url : URL) (bytes : Option (List UInt8)) : Contents URL :=
  match bytes with
  | none => contents
  | some bytes => Function.update contents url (some bytes)

def performContents [DecidableEq URL] (contents : Contents URL) : Operation URL → Contents URL
  | .registerBlobURL url blobParts => set contents url (partsContent contents blobParts)
  | .registerBlobURLFrom url srcURL => set contents url (contents srcURL)
  | .registerBlobURLForSlice url srcURL start stop =>
    set contents url ((contents srcURL).map fun bytes => slice bytes start.toInt stop.toInt)
  | .unregisterBlobURL url => Function.update contents url none

/-! ## Ranges of items -/

def AllInRange : Prop := ∀ item ∈ items, item.InRange

variable {items : BlobDataItemList}

theorem blobBytes_cons (item : BlobDataItem) (items : BlobDataItemList) :
    blobBytes (item :: items) = item.bytes ++ blobBytes items := rfl

theorem blobBytes_append (items items' : BlobDataItemList) :
    blobBytes (items ++ items') = blobBytes items ++ blobBytes items' := flatMap_append

section

variable (h : AllInRange items)
include h

theorem blobSize_eq (hsize : (blobBytes items).length < 2 ^ 64) :
    blobSize items = (blobBytes items).length := by
  have hloop : ∀ (items : BlobDataItemList) (result : Nat), AllInRange items →
      result + (blobBytes items).length < 2 ^ 64 →
      items.foldl (fun result item => (result + item.length.toNat) % 2 ^ 64) result =
        result + (blobBytes items).length := by
    intro items
    induction items with
    | nil => exact fun _ _ _ => rfl
    | cons item rest ih =>
      intro result h hsize
      obtain ⟨hitem, hrest⟩ := forall_mem_cons.mp h
      have hlen := hitem.length_bytes
      rw [blobBytes_cons, length_append] at hsize ⊢
      have hmod : (result + item.length.toNat) % 2 ^ 64 = result + item.bytes.length := by
        rw [Nat.mod_eq_of_lt] <;> omega
      rw [foldl_cons, hmod, ih _ hrest (by omega), Nat.add_assoc]
  have hall := hloop items 0 h (by omega)
  rwa [Nat.zero_add] at hall

theorem skipItems_spec {offset : Int} (hoff : 0 ≤ offset) :
    AllInRange (skipItems items offset).1 ∧ 0 ≤ (skipItems items offset).2 ∧
      (∀ item ∈ (skipItems items offset).1.head?, (skipItems items offset).2 ≤ item.length) ∧
      (blobBytes (skipItems items offset).1).drop (skipItems items offset).2.toNat =
        (blobBytes items).drop offset.toNat := by
  induction items generalizing offset with
  | nil => exact ⟨nofun, hoff, nofun, rfl⟩
  | cons item rest ih =>
    obtain ⟨hitem, hrest⟩ := forall_mem_cons.mp h
    have hlen := hitem.length_bytes
    rw [skipItems]
    by_cases hskip : offset ≥ item.length
    · rw [if_pos hskip]
      obtain ⟨hall, hpos, hhead, hdrop⟩ := ih hrest (show 0 ≤ offset - item.length by omega)
      refine ⟨hall, hpos, hhead, hdrop.trans ?_⟩
      have hspl : offset.toNat = item.bytes.length + (offset - item.length).toNat := by omega
      rw [blobBytes_cons, hspl, drop_length_add_append]
    · rw [if_neg hskip]
      refine ⟨h, hoff, fun item' hitem' => ?_, rfl⟩
      obtain rfl : item = item' := Option.some.inj hitem'
      exact (not_le.mp hskip).le

/-- **The items of a range** hold the bytes of the range. -/
theorem storageItems_spec {offset length : Int} (hoff : 0 ≤ offset)
    (hhead : ∀ item ∈ items.head?, offset ≤ item.length) (hlen : 0 ≤ length) :
    AllInRange (storageItems items offset length) ∧ blobBytes (storageItems items offset length) =
        ((blobBytes items).drop offset.toNat).take length.toNat := by
  induction items generalizing offset length with
  | nil =>
    refine ⟨nofun, ?_⟩
    simp [storageItems, blobBytes]
  | cons item rest ih =>
    obtain ⟨hitem, hrest⟩ := forall_mem_cons.mp h
    have hle := hhead item rfl
    have hbs := hitem.length_bytes
    have hresHe : ∀ item ∈ rest.head?, 0 ≤ item.length :=
      fun item hi => (hrest item (mem_of_mem_head? hi)).length
    rw [storageItems]
    by_cases hpos : length > 0
    · rw [if_pos hpos]
      dsimp only
      obtain ⟨newLength, hnew⟩ : ∃ newLength, newLength =
        if item.length - offset > length then length else item.length - offset := ⟨_, rfl⟩
      rw [← hnew]
      have hnewL : 0 ≤ newLength ∧ newLength ≤ length ∧ offset + newLength ≤ item.length := by
        split_ifs at hnew <;> omega
      obtain ⟨hpart, hparBy⟩ := hitem.part hoff hnewL.1 hnewL.2.2
      obtain ⟨hall, hallBy⟩ := ih hrest (le_refl 0) hresHe (show 0 ≤ length - newLength by omega)
      refine ⟨forall_mem_cons.mpr ⟨hpart, hall⟩, ?_⟩
      rw [blobBytes_cons, hparBy, hallBy, blobBytes_cons, drop_append_of_le_length (by omega),
        List.take_append, length_drop]
      -- Either the range ends in this item, or all of the item from the offset on is taken.
      split_ifs at hnew with hends
      · rw [hnew, sub_self, show length.toNat - (item.bytes.length - offset.toNat) = 0 by omega]
        rfl
      · rw [take_of_length_le (show (item.bytes.drop offset.toNat).length ≤ newLength.toNat by
            rw [length_drop]; omega),
          take_of_length_le (show (item.bytes.drop offset.toNat).length ≤ length.toNat by
            rw [length_drop]; omega),
          show (length - newLength).toNat = length.toNat - (item.bytes.length - offset.toNat) by omega]
        rfl
    · rw [if_neg hpos]
      refine ⟨nofun, ?_⟩
      rw [show length.toNat = 0 by omega, take_zero]
      rfl

theorem appendStorageItems_spec {offset length : Int} (hoff : 0 ≤ offset)
    (hlen : 0 ≤ length) : AllInRange (appendStorageItems [] items offset length) ∧
      blobBytes (appendStorageItems [] items offset length) =
        ((blobBytes items).drop offset.toNat).take length.toNat := by
  rw [appendStorageItems]
  by_cases hzero : offset = 0
  · rw [if_neg (not_not.mpr hzero)]
    refine storageItems_spec h hoff (fun item hitem => ?_) hlen
    rw [hzero]
    exact (h item (mem_of_mem_head? hitem)).length
  · rw [if_pos hzero]
    obtain ⟨hall, hpos, hhead, hdrop⟩ := skipItems_spec h hoff
    rw [← hdrop]
    exact storageItems_spec hall hpos hhead hlen

end

/-! ## Slices -/

theorem slicePosition_le (size : Nat) (position : Int) : slicePosition size position ≤ size := by
  rw [slicePosition]
  split_ifs <;> omega

/-- A 64-bit position counts from the end as intended, as long as sizes do not reach the sign bit. -/
theorem fromEnd_eq {position : Int} {size : Nat} (hlow : -2 ^ 63 ≤ position) (hsize : size < 2 ^ 62) :
    fromEnd position size = if position < 0 then position + size else position := by
  rw [fromEnd]
  by_cases hneg : position < 0
  · rw [if_pos hneg, if_pos hneg]
    exact bmod_eq_of_le (by omega) (by omega)
  · rw [if_neg hneg, if_neg hneg]

theorem clampRange_spec {start stop : Int} {bytes : List UInt8} (hst : -2 ^ 63 ≤ start) (hstop : -2 ^ 63 ≤ stop)
    (hsize : bytes.length < 2 ^ 62) : 0 ≤ (clampRange start stop bytes.length).1 ∧
      (clampRange start stop bytes.length).1 ≤ (clampRange start stop bytes.length).2 ∧
      (bytes.drop (clampRange start stop bytes.length).1.toNat).take
        ((clampRange start stop bytes.length).2 - (clampRange start stop bytes.length).1).toNat =
          slice bytes start stop := by
  -- The positions are clamped from below first.
  have hlow : ∀ {position : Int}, -2 ^ 63 ≤ position →
      ∃ low : Nat, (if fromEnd position bytes.length < 0 then 0 else fromEnd position bytes.length) = (low : Int) ∧
        slicePosition bytes.length position = min low bytes.length := by
    intro position hpos
    rw [fromEnd_eq hpos hsize, slicePosition]
    by_cases hneg : position < 0
    · refine ⟨(bytes.length + position).toNat, ?_, ?_⟩
      · rw [if_pos hneg]
        split_ifs <;> omega
      · rw [if_pos hneg]
        omega
    · refine ⟨position.toNat, ?_, ?_⟩
      · rw [if_neg hneg, if_neg hneg]
        omega
      · rw [if_neg hneg]
  obtain ⟨low, hstLo, hstPo⟩ := hlow hst
  obtain ⟨high, hstoLo, hstoPo⟩ := hlow hstop
  rw [clampRange, slice, hstPo, hstoPo]
  simp only [hstLo, hstoLo]
  by_cases hend : (low : Int) ≥ bytes.length
  · rw [if_pos hend]
    refine ⟨le_rfl, le_rfl, ?_⟩
    rw [show min low bytes.length = bytes.length by omega, drop_length, take_nil]
    rfl
  · rw [if_neg hend, show min low bytes.length = low by omega]
    by_cases hinv : (high : Int) < low
    · rw [if_pos hinv]
      refine ⟨natCast_nonneg low, le_rfl, ?_⟩
      rw [show min high bytes.length - low = 0 by omega, sub_self]
      rfl
    · rw [if_neg hinv]
      by_cases hpast : (high : Int) > bytes.length
      · rw [if_pos hpast]
        refine ⟨natCast_nonneg low, by omega, ?_⟩
        rw [show min high bytes.length - low = ((bytes.length : Int) - low).toNat by omega]
        rfl
      · rw [if_neg hpast]
        refine ⟨natCast_nonneg low, by omega, ?_⟩
        rw [show min high bytes.length - low = ((high : Int) - low).toNat by omega]
        rfl

theorem length_slice (bytes : List UInt8) (start stop : Int) : (slice bytes start stop).length =
      slicePosition bytes.length stop - slicePosition bytes.length start := by
  have hstop := slicePosition_le bytes.length stop
  rw [slice, length_take, length_drop]
  omega

theorem slicePosition_natCast {size position : Nat} (h : position ≤ size) :
    slicePosition size position = position := by
  rw [slicePosition, if_neg (by omega)]
  omega

theorem slice_slice (bytes : List UInt8) (start stop start' stop' : Int) :
    slice (slice bytes start stop) start' stop' = slice bytes
        ((slicePosition bytes.length start + slicePosition (slice bytes start stop).length start' : Nat) : Int)
        ((slicePosition bytes.length start + slicePosition (slice bytes start stop).length stop' : Nat) : Int) := by
  have hlen := length_slice bytes start stop
  have hst := slicePosition_le bytes.length start
  have hstop := slicePosition_le bytes.length stop
  have hst' := slicePosition_le (slice bytes start stop).length start'
  have hstop' := slicePosition_le (slice bytes start stop).length stop'
  rw [slice.eq_1 bytes (Nat.cast _), slicePosition_natCast (by omega), slicePosition_natCast (by omega),
    slice.eq_1 (slice bytes start stop)]
  generalize slicePosition (slice bytes start stop).length start' = low at *
  generalize slicePosition (slice bytes start stop).length stop' = high at *
  rw [slice, drop_take, take_take, drop_drop]
  congr 1
  omega

/-! ## Runs -/

/-- The registered items denote the contents, and lie within their raw data. -/
def Denotes (blobs : Blobs URL) (contents : Contents URL) : Prop :=
  ∀ url, (blobs url).map blobBytes = contents url ∧ ∀ items ∈ blobs url, AllInRange items

variable {blobs : Blobs URL} {contents : Contents URL}

theorem appendParts_spec (h : Denotes blobs contents) (parts : List (BlobPart URL)) (items : BlobDataItemList)
    (hite : AllInRange items) : (appendParts blobs items parts).map blobBytes =
        (partsContent contents parts).map (blobBytes items ++ ·) ∧
      ∀ items' ∈ appendParts blobs items parts, AllInRange items' := by
  induction parts generalizing items with
  | nil =>
    refine ⟨?_, fun items' hite' => ?_⟩
    · rw [appendParts, partsContent, map_some, map_some, append_nil]
    · rw [appendParts] at hite'
      obtain rfl : items = items' := Option.some.inj hite'
      exact hite
  | cons part parts ih =>
    cases part with
    | data bytes =>
      have hitem : (⟨bytes, 0, bytes.length⟩ : BlobDataItem).InRange :=
        ⟨le_rfl, natCast_nonneg _, (zero_add _).le⟩
      have hbs : (⟨bytes, 0, bytes.length⟩ : BlobDataItem).bytes = bytes := take_length
      obtain ⟨hmap, hall⟩ := ih (items ++ [⟨bytes, 0, bytes.length⟩])
        (forall_mem_append.mpr ⟨hite, forall_mem_singleton.mpr hitem⟩)
      refine ⟨?_, hall⟩
      rw [appendParts, hmap, partsContent, Option.map_map, blobBytes_append, blobBytes_cons, hbs]
      congr 1
      funext more
      simp [blobBytes]
    | blob url =>
      obtain ⟨hurl, hurlIt⟩ := h url
      rw [appendParts, partsContent, ← hurl]
      cases hblob : blobs url with
      | none => exact ⟨rfl, nofun⟩
      | some blobItems =>
        obtain ⟨hmap, hall⟩ := ih (items ++ blobItems)
          (forall_mem_append.mpr ⟨hite, hurlIt blobItems hblob⟩)
        refine ⟨?_, hall⟩
        show (appendParts blobs (items ++ blobItems) parts).map blobBytes =
          ((partsContent contents parts).map (blobBytes blobItems ++ ·)).map (blobBytes items ++ ·)
        rw [hmap, Option.map_map, blobBytes_append]
        congr 1
        funext more
        rw [Function.comp, append_assoc]

section

variable [DecidableEq URL]

theorem Denotes.update (h : Denotes blobs contents) (url : URL) {new : Option BlobDataItemList}
    {bytes : Option (List UInt8)} (hbs : new.map blobBytes = bytes) (hnew : ∀ items ∈ new, AllInRange items) :
    Denotes (Function.update blobs url new) (Function.update contents url bytes) := by
  intro other
  rw [Function.update_apply, Function.update_apply]
  split_ifs
  · exact ⟨hbs, hnew⟩
  · exact h other

def Limited (contents : Contents URL) : Prop := ∀ url, ∀ bytes ∈ contents url, bytes.length < 2 ^ 62

theorem Denotes.perform (h : Denotes blobs contents) (hlim : Limited contents) (op : Operation URL) :
    Denotes (perform blobs op) (performContents contents op) := by
  cases op with
  | registerBlobURL url blobParts =>
    obtain ⟨hmap, hall⟩ := appendParts_spec h blobParts [] nofun
    rw [BlobRegistry.perform, registerBlobURL, performContents]
    cases hpar : appendParts blobs [] blobParts with
    | none =>
      rw [hpar] at hmap
      rw [map_eq_none_iff.mp hmap.symm]
      exact h
    | some items =>
      rw [hpar] at hmap
      obtain ⟨bytes, hcon, hbs⟩ := map_eq_some_iff.mp hmap.symm
      rw [hcon]
      exact h.update url (congrArg some hbs.symm) (fun items' hite' => hall items' (hpar.trans hite'))
  | registerBlobURLFrom url srcURL =>
    obtain ⟨hmap, hall⟩ := h srcURL
    rw [BlobRegistry.perform, registerBlobURLFrom, performContents, ← hmap]
    cases hsrc : blobs srcURL with
    | none => exact h
    | some items => exact h.update url rfl (fun items' hite' => hall items' (hsrc.trans hite'))
  | registerBlobURLForSlice url srcURL start stop =>
    obtain ⟨hmap, hall⟩ := h srcURL
    rw [BlobRegistry.perform, registerBlobURLForSlice, performContents, ← hmap]
    cases hsrc : blobs srcURL with
    | none => exact h
    | some items =>
      have hite := hall items hsrc
      have hsize : (blobBytes items).length < 2 ^ 62 := by
        apply hlim srcURL
        rw [← hmap, hsrc]
        rfl
      obtain ⟨hst, hle, hsli⟩ := clampRange_spec start.le_toInt stop.le_toInt hsize
      obtain ⟨hran, hbs⟩ := appendStorageItems_spec hite hst (sub_nonneg.mpr hle)
      rw [hsli] at hbs
      show Denotes (Function.update blobs url (some (appendStorageItems [] items
        (clampRange start.toInt stop.toInt (blobSize items)).1 _))) _
      rw [blobSize_eq hite (hsize.trans (by decide))]
      refine h.update url (congrArg some hbs) (fun items' hite' => ?_)
      obtain rfl := Option.some.inj hite'
      exact hran
  | unregisterBlobURL url => exact h.update url rfl nofun

/-- **The content of every registered URL** is what the operations say, as long as the contents are below the
    size limit, and all items lie within their raw data. A slice of a slice is a slice of the original bytes. -/
theorem contents_of_run (ops : List (Operation URL))
    (hlimited : ∀ done, done <+: ops → Limited (done.foldl performContents fun _ => none)) :
    (∀ url : URL, ((ops.foldl perform fun _ => none) url).map blobBytes =
        (ops.foldl performContents fun _ => none) url ∧
      ∀ items ∈ (ops.foldl perform fun _ => none) url, AllInRange items) ∧
    ∀ (bytes : List UInt8) (start stop start' stop' : Int), ∃ first last : Int,
      slice (slice bytes start stop) start' stop' = slice bytes first last := by
  refine ⟨?_, fun bytes start stop start' stop' => ⟨_, _, slice_slice bytes start stop start' stop'⟩⟩
  induction ops using List.reverseRecOn with
  | nil => exact fun url => ⟨rfl, nofun⟩
  | append_singleton ops op ih =>
    rw [foldl_append, foldl_append]
    refine Denotes.perform (ih fun done hdone => hlimited done (hdone.trans (prefix_append ops [op]))) ?_ op
    exact hlimited ops (prefix_append ops [op])

end

theorem contents_of_run_slice :
    let ops : List (Operation Bool) :=
      [.registerBlobURL false [.data [1, 2], .data [3]], .registerBlobURLForSlice true false (-2) 5]
    ((ops.foldl perform fun _ => none) true).map blobBytes = some [2, 3] := by
  intro ops
  have hlimited : ∀ done ∈ ops.inits, ∀ url, ∀ bytes ∈ done.foldl performContents (fun _ => none) url,
      bytes.length < 2 ^ 62 := by
    decide +kernel
  exact ((contents_of_run ops fun done hdone => hlimited done ((mem_inits done ops).mpr hdone)).1 true).1.trans
    (by decide +kernel)

end BlobRegistry

end WebV8
