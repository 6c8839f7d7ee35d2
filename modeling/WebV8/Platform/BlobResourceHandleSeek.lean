import WebV8.Platform.BlobResourceHandleSync

/-! # Where a seek ends

A reader takes it for granted that the read position lies in the blob and that no more is left to read than there is
from there on. A suffix that is longer than the blob, a first position after its end and a last position after its end
break this.
-/

namespace WebV8

open HTTPParsers BlobRegistry List Option

namespace BlobResourceHandle

/-- The handle is at a position of the blob, and what is left to read is there. -/
structure Inside (lengths : List Nat) (handle : BlobResourceHandle) : Prop where
  position : 0 ≤ (lengths.take handle.readItemCount).sum + handle.currentItemReadSize
  item : ∀ l ∈ lengths[handle.readItemCount]?, 0 ≤ handle.currentItemReadSize ∧ handle.currentItemReadSize < l
  total : 0 ≤ handle.totalRemainingSize
  rest : (lengths.take handle.readItemCount).sum + handle.currentItemReadSize + handle.totalRemainingSize ≤ lengths.sum

/-- The range of a blob of the given size. -/
def converted (size : Nat) (range : ByteRange) : ByteRange :=
  if range.rangeSuffixLength ≠ -1 then
    { range with rangeOffset := size - range.rangeSuffixLength, rangeEnd := size - 1 }
  else range

/-- A range without a first position is read from the first item on, which must not be empty. -/
def SeeksInside (lengths : List Nat) (range : ByteRange) : Prop :=
  if range.rangeOffset = -1 then lengths.head? ≠ some 0
  else 0 ≤ range.rangeOffset ∧ range.rangeOffset ≤ lengths.sum ∧ (range.rangeEnd ≠ -1 →
    range.rangeEnd - range.rangeOffset + 1 < 2 ^ 63 ∧ (range.rangeOffset = 0 ∨ range.rangeEnd < lengths.sum))

variable {items : BlobDataItemList} {lengths : List Nat} {range : ByteRange} {offset o : Int} {k : Nat}

theorem skip_position (h : skip (lengths.map Nat.cast) offset = (k, o)) : (lengths.take k).sum + o = offset ∧
      (0 ≤ offset → 0 ≤ o) ∧ ∀ l ∈ lengths[k]?, o < l := by
  induction lengths generalizing offset k with
  | nil =>
    obtain ⟨rfl, rfl⟩ := Prod.mk.inj h
    exact ⟨by simp, id, nofun⟩
  | cons l ls ih =>
    rw [map_cons, skip] at h
    split_ifs at h with hpast
    · obtain ⟨rfl, rfl⟩ := Prod.mk.inj h
      obtain ⟨hsum, hpos, hin⟩ := ih rfl
      refine ⟨?_, fun _ => hpos (Int.sub_nonneg.mpr hpast), hin⟩
      rw [take_succ_cons, sum_cons]
      omega
    · obtain ⟨rfl, rfl⟩ := Prod.mk.inj h
      exact ⟨by simp, id, fun l' hl' => some.inj hl' ▸ not_le.mp hpast⟩

theorem inside_sought_iff (hshp : Shaped items lengths) (range : ByteRange) (total : Int) :
    Inside lengths (sought items range total) ↔
      0 ≤ range.rangeOffset ∧ 0 ≤ total ∧ range.rangeOffset + total ≤ lengths.sum := by
  have hskip : skip (lengths.map Nat.cast) range.rangeOffset =
      ((sought items range total).readItemCount, (sought items range total).currentItemReadSize) := by
    rw [← hshp.lengths]
    rfl
  obtain ⟨hsum, ho, hin⟩ := skip_position hskip
  constructor
  · intro h
    exact ⟨hsum ▸ h.position, h.total, hsum ▸ h.rest⟩
  · rintro ⟨hoff, htot, hle⟩
    exact ⟨hsum ▸ hoff, fun l hl => ⟨ho hoff, hin l hl⟩, htot, hsum ▸ hle⟩

theorem adjustSize_inside_iff (handle : BlobResourceHandle) {size : Nat} (htot : handle.totalRemainingSize = size)
    (hsize : size < 2 ^ 63) (hord : handle.rangeEnd ≠ -1 →
      handle.rangeOffset ≤ handle.rangeEnd + 1 ∨ size < handle.rangeOffset) :
    (∃ total, handle.adjustSize = some total ∧
      0 ≤ handle.rangeOffset ∧ 0 ≤ total ∧ handle.rangeOffset + total ≤ size) ↔
    0 ≤ handle.rangeOffset ∧ handle.rangeOffset ≤ size ∧ (handle.rangeEnd ≠ -1 →
      handle.rangeEnd - handle.rangeOffset + 1 < 2 ^ 63 ∧ (handle.rangeOffset = 0 ∨ handle.rangeEnd < size)) := by
  rw [adjustSize, htot]
  simp only [longLong]
  split_ifs <;> simp <;> omega

theorem inside_start_iff (items : BlobDataItemList) (range : ByteRange) :
    Inside lengths (sized items range lengths.sum 0 0) ↔ lengths.head? ≠ some 0 := by
  constructor
  · intro h hzero
    exact lt_irrefl (0 : Int) (h.item 0 (head?_eq_getElem?.symm.trans hzero)).2
  · intro hne
    refine ⟨by simp [sized], fun l hl => ⟨le_rfl, ?_⟩, Int.natCast_nonneg _, by simp [sized]⟩
    have : l ≠ 0 := fun hzero => hne (head?_eq_getElem?.trans (hzero ▸ hl))
    simp [sized]
    omega

/-- The seek after the conversion of a suffix. -/
theorem seek_converted_iff {range' : ByteRange} (hshp : Shaped items lengths) (hfits : lengths.sum < 2 ^ 63)
    (hcon : convertSuffix (sized items range lengths.sum 0 0) = some (sized items range' lengths.sum 0 0))
    (hord : range'.rangeEnd ≠ -1 → range'.rangeOffset ≤ range'.rangeEnd + 1 ∨ lengths.sum < range'.rangeOffset) :
    (∃ handle, seek (sized items range lengths.sum 0 0) = some handle ∧ Inside lengths handle) ↔ SeeksInside lengths range' := by
  rw [seek, hcon, bind_eq_bind, bind_some]
  unfold SeeksInside
  by_cases hnone : range'.rangeOffset = -1
  · rw [if_pos hnone, if_pos (show (sized items range' _ 0 0).rangeOffset = -1 from hnone), ← inside_start_iff items range']
    simp
  · rw [if_neg hnone, if_neg (show (sized items range' _ 0 0).rangeOffset ≠ -1 from hnone)]
    refine Iff.trans ?_ (adjustSize_inside_iff (sized items range' lengths.sum 0 0) rfl hfits hord)
    constructor
    · rintro ⟨handle, hseek, hin⟩
      obtain ⟨total, hadj, hsome⟩ := bind_eq_some_iff.mp hseek
      obtain rfl := Option.some.inj hsome
      exact ⟨total, hadj, (inside_sought_iff hshp range' total).mp hin⟩
    · rintro ⟨total, hadj, hin⟩
      refine ⟨sought items range' total, ?_, (inside_sought_iff hshp range' total).mpr hin⟩
      rw [hadj]
      rfl

/-- **Where a seek ends**: once the sizes are counted, the handle seeks to a position of the blob with no more left to
    read than there is from there on, exactly if the range does not begin or end after the blob and no size
    overflows. -/
theorem seek_inside_iff {icu : ICU} {header : Characters} (hheader : parseRange icu header = some range)
    (hshaped : Shaped items lengths) :
    (∃ handle, getSizeForNext some items
        { rangeOffset := range.rangeOffset, rangeEnd := range.rangeEnd
          rangeSuffixLength := range.rangeSuffixLength } = some handle ∧ Inside lengths handle) ↔
    lengths.sum < 2 ^ 63 ∧ SeeksInside lengths (converted lengths.sum range) := by
  rw [getSizeForNext_eq _ hshaped.inRange _ le_rfl (show (0 : Int) < 2 ^ 63 by decide), hshaped.length_blobBytes]
  rw [nil_append, Int.zero_add, Nat.zero_add]
  by_cases hfits : lengths.sum < 2 ^ 63
  · rw [if_pos (by exact_mod_cast hfits), bind_fun_some, and_iff_right hfits]
    by_cases hsuffix : range.rangeSuffixLength = -1
    · rw [converted, if_neg (not_not.mpr hsuffix)]
      refine seek_converted_iff hshaped hfits (if_neg (not_not.mpr hsuffix)) fun hend => ?_
      rcases parseRange_spec hheader with hnone | ⟨-, -, hstop⟩
      · exact absurd hnone.2 hend
      · exact Or.inl (by have := hstop.resolve_left hend; omega)
    · have hcon : convertSuffix (sized items range lengths.sum 0 0) = _ :=
        convertSuffix_sized hsuffix (Int.natCast_nonneg _) (by exact_mod_cast hfits) 0 0
      rw [converted, if_pos hsuffix]
      by_cases hlong : -2 ^ 63 ≤ lengths.sum - range.rangeSuffixLength ∧ lengths.sum - range.rangeSuffixLength < 2 ^ 63
      · rw [longLong_of_lt hlong.1 hlong.2] at hcon
        exact seek_converted_iff hshaped hfits hcon fun _ => by dsimp only; omega
      · rw [longLong, if_neg hlong] at hcon
        refine iff_of_false ?_ ?_
        · rintro ⟨handle, hseek, -⟩
          rw [← sized, seek, hcon] at hseek
          cases hseek
        · rw [SeeksInside, if_neg (by dsimp only; omega)]
          dsimp only
          omega
  · rw [if_neg (by exact_mod_cast hfits)]
    simp only [reduceCtorEq, false_and, exists_false, hfits]

theorem seek_inside_iff_first :
    (∃ handle, getSizeForNext some [whole [1, 2], whole [3, 4, 5]]
        { rangeOffset := 1, rangeEnd := -1, rangeSuffixLength := -1 } = some handle ∧ Inside [2, 3] handle) ↔
    5 < 2 ^ 63 ∧ SeeksInside [2, 3] (converted 5 { rangeOffset := 1 }) :=
  seek_inside_iff (show parseRange ICU.ascii (characters "bytes=1-") = some { rangeOffset := 1 } from rfl)
    (shaped_whole [[1, 2], [3, 4, 5]])

/-- The last five bytes of two: the read position is before the blob. -/
theorem seek_before_blob :
    parseRange ICU.ascii (characters "bytes=-5") = some { rangeSuffixLength := 5 } ∧
      ∃ handle, getSizeForNext some [whole [1, 2]]
          { rangeOffset := -1, rangeEnd := -1, rangeSuffixLength := 5 } = some handle ∧
        handle.currentItemReadSize = -3 ∧ ¬Inside [2] handle := by
  refine ⟨rfl, _, rfl, rfl, fun hinside => ?_⟩
  exact absurd hinside.position (by decide)

end BlobResourceHandle

end WebV8
