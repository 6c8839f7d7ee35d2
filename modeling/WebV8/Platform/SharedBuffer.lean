import WebV8.Lib.Blocks
import WebV8.Lib.Run

/-! # SharedBuffer

Bytes that come in pieces. A small buffer keeps them one after the other; once there are more than a segment
holds, what is appended goes to segments of 4096 bytes. Flattening moves everything to the front part again.
Where the last segment ends is not stored: it follows from the sizes.
-/

namespace WebV8

open Lib List Nat

/-- A byte of memory, or what is there before anything is written. -/
abbrev Cell := Option UInt8

/-- `data` is the vector of the data buffer. -/
structure SharedBuffer where
  size : Nat
  data : List Cell
  segments : List (List Cell)

variable (b : SharedBuffer)

namespace SharedBuffer

def segmentSize : Nat := 4096

def empty : SharedBuffer := ⟨0, [], []⟩

/-! ## Operations -/

def wrapSize (n : Nat) : Nat := n % 2 ^ 32

/-- Copy to the free part of the last segment, or to a new one, and go on with new segments. There is no last
    segment to write to where the answer is `none`. -/
def appendToSegments (segments : List (List Cell)) (positionInSegment : Nat) (data : List Cell) :
    Option (List (List Cell)) :=
  if positionInSegment = 0 then some (segments ++ toBlocks segmentSize none data)
  else
    match segments.getLast? with
    | none => none
    | some segment =>
      let segmentFreeSpace := segmentSize - positionInSegment
      let bytesToCopy := min data.length segmentFreeSpace
      let filled := segment.take positionInSegment ++
        (data.take bytesToCopy ++ segment.drop (positionInSegment + bytesToCopy))
      let segments := segments.dropLast ++ [filled]
      if data.length = bytesToCopy then some segments
      else some (segments ++ toBlocks segmentSize none (data.drop bytesToCopy))

def append (data : List Cell) : Option SharedBuffer :=
  if data.length = 0 then some b
  else
    let positionInSegment := (((b.size : Int) - b.data.length) % segmentSize).toNat
    let size := wrapSize (b.size + data.length)
    if size ≤ segmentSize then some { b with size, data := b.data ++ data }
    else (appendToSegments b.segments positionInSegment data).map fun segments => { b with size, segments }

def clear (_ : SharedBuffer) : SharedBuffer := empty

/-- `copyBufferAndClear`: what is copied from the segments. -/
def copyBuffer : List (List Cell) → Nat → List Cell
  | [], _ => []
  | segment :: rest, bytesToCopy =>
    let effectiveBytesToCopy := min bytesToCopy segmentSize
    segment.take effectiveBytesToCopy ++ copyBuffer rest (bytesToCopy - effectiveBytesToCopy)

/-- `buffer()` and `data()`: the vector is resized, and what the segments have is copied behind. -/
def buffer : SharedBuffer :=
  if b.size > b.data.length then
    let copied := copyBuffer b.segments (b.size - b.data.length)
    { b with
      data := b.data ++ (copied ++ List.replicate (b.size - b.data.length - copied.length) none)
      segments := [] }
  else b

def copy : SharedBuffer := ⟨b.size, b.data ++ b.segments.flatten, []⟩

def getSomeData (position : Nat) : List Cell :=
  if position ≥ b.size then []
  else if position < b.data.length then b.data.drop position
  else
    let position := position - b.data.length
    let maxSegmentedSize := wrapSize (b.segments.length * segmentSize)
    match b.segments[position / segmentSize]? with
    | none => []
    | some segment =>
      let bytesLeft := b.size - b.data.length
      let segmentedSize := min maxSegmentedSize bytesLeft
      let positionInSegment := position % segmentSize
      let length :=
        if position / segmentSize = b.segments.length - 1 then wrapSize (segmentedSize + 2 ^ 32 - position)
        else segmentSize - positionInSegment
      (segment.drop positionInSegment).take length

/-- The loop that calls `getSomeData` until there is no more, with a bound on its rounds. -/
def pieces (b : SharedBuffer) : Nat → Nat → Option (List (List Cell))
  | 0, _ => none
  | rounds + 1, position =>
    let segment := b.getSomeData position
    if segment = [] then some []
    else (pieces b rounds (wrapSize (position + segment.length))).map (segment :: ·)

/-- Each round gives a byte or more, so it would come back to a position it was at in more rounds. -/
def piecesFrom (position : Nat) : Option (List (List Cell)) := b.pieces (b.size + 1) position

/-- Append another buffer; `none` if that never ends. -/
def appendBuffer (b other : SharedBuffer) : Option SharedBuffer := do
  (← other.piecesFrom 0).foldlM append b

/-! ## Layout -/

/-- The buffer stores these cells: the front part, and in the segments the rest, with less than a segment of
    slack behind. -/
structure Layout (b : SharedBuffer) (content slack : List Cell) : Prop where
  size : b.size = content.length
  wide : Wide segmentSize b.segments
  stored : b.data ++ b.segments.flatten = content ++ slack
  front : b.data.length ≤ content.length
  slack : slack.length < segmentSize
  small : content.length ≤ segmentSize → b.segments = []

theorem layout_empty : empty.Layout [] [] where
  size := rfl
  wide := nofun
  stored := rfl
  front := le_refl _
  slack := by decide
  small := fun _ => rfl

variable {b : SharedBuffer} {content slack : List Cell}

theorem segmentSize_pos : 0 < segmentSize := by decide

variable (h : b.Layout content slack)
include h

theorem Layout.flatten_eq : b.segments.flatten = content.drop b.data.length ++ slack := by
  have hdrop := congrArg (List.drop b.data.length) h.stored
  rwa [drop_left, drop_append_of_le_length h.front] at hdrop

theorem Layout.content_eq : b.data ++ content.drop b.data.length = content := by
  have hsto := h.stored
  rw [h.flatten_eq, ← append_assoc] at hsto
  exact append_cancel_right hsto

theorem Layout.data_eq (hfull : content.length ≤ b.data.length) :
    b.data = content ∧ b.segments = [] ∧ slack = [] := by
  have hdata := h.content_eq
  rw [drop_of_length_le hfull, append_nil] at hdata
  have hlen := h.wide.length_flatten
  have hsla := h.slack
  rw [h.flatten_eq, drop_of_length_le hfull, nil_append, segmentSize] at hlen
  rw [segmentSize] at hsla
  exact ⟨hdata, eq_nil_of_length_eq_zero (by omega), eq_nil_of_length_eq_zero (by omega)⟩

theorem Layout.length_eq :
    b.segments.length * segmentSize = content.length - b.data.length + slack.length := by
  rw [← h.wide.length_flatten, h.flatten_eq, length_append, length_drop]

/-! ## Appending -/

variable {segments : List (List Cell)} {data : List Cell} {position : Nat}

omit h in
theorem appendToSegments_spec {tail : List Cell}
    (hwide : Wide segmentSize segments) (hflat : segments.flatten = tail ++ slack)
    (hsla : slack.length < segmentSize) (hdata : data ≠ []) :
    ∃ segments' slack', appendToSegments segments (tail.length % segmentSize) data = some segments' ∧
      Wide segmentSize segments' ∧ segments'.flatten = tail ++ data ++ slack' ∧ slack'.length < segmentSize := by
  have hlen : segments.length * segmentSize = tail.length + slack.length := by
    rw [← hwide.length_flatten, hflat, length_append]
  have hmod : (tail.length + slack.length) % segmentSize = 0 := by rw [← hlen, mul_mod_left]
  rw [appendToSegments]
  by_cases hzero : tail.length % segmentSize = 0
  · -- the last segment is full
    obtain rfl : slack = [] := by
      rw [segmentSize] at hsla hmod hzero
      exact eq_nil_of_length_eq_zero (by omega)
    obtain ⟨slack', hflat', hsla'⟩ := exists_flatten_toBlocks none segmentSize_pos hdata
    rw [if_pos hzero]
    refine ⟨_, slack', rfl, hwide.append (length_of_mem_toBlocks segmentSize_pos), ?_, hsla'⟩
    rw [flatten_append, hflat, hflat', append_nil, append_assoc]
  · have hne : segments ≠ [] := by
      rintro rfl
      rw [length_nil, zero_mul] at hlen
      rw [show tail.length = 0 by omega] at hzero
      exact hzero rfl
    obtain ⟨init, segment, rfl⟩ : ∃ init segment, segments = init ++ [segment] :=
      ⟨_, _, (dropLast_append_getLast hne).symm⟩
    have hinit : Wide segmentSize init := fun s hs => hwide s (mem_append_left _ hs)
    have hseg : segment.length = segmentSize := hwide segment (by simp)
    -- the slack is the free part of the last segment
    have hfree : tail.length % segmentSize + slack.length = segmentSize := by
      rw [segmentSize] at hsla hmod hzero ⊢
      omega
    have htail : tail = init.flatten ++ segment.take (tail.length % segmentSize) := by
      have hcnt : tail.length = init.flatten.length + tail.length % segmentSize := by
        rw [hinit.length_flatten]
        rw [length_append, length_singleton, add_mul, one_mul] at hlen
        omega
      have htake := congrArg (List.take tail.length) hflat
      rw [take_left, flatten_append, flatten_singleton] at htake
      conv_lhs => rw [← htake, hcnt, take_length_add_append]
    generalize hp : tail.length % segmentSize = p at *
    have hfil : ∀ n ≤ data.length, p + n ≤ segmentSize → Wide segmentSize (init ++ [segment.take p ++
          (data.take n ++ segment.drop (p + n))]) := by
      intro n hn hle
      refine hinit.append (forall_mem_singleton.mpr ?_)
      simp [hseg]
      omega
    rw [if_neg hzero, List.getLast?_concat]
    simp only [dropLast_concat]
    by_cases hall : data.length ≤ segmentSize - p
    · rw [min_eq_left hall, if_pos rfl]
      refine ⟨_, segment.drop (p + data.length), rfl, hfil _ (le_refl _) (by omega), ?_, ?_⟩
      · rw [flatten_append, flatten_singleton, take_length]
        rw [htail]
        simp
      · rw [length_drop, hseg]
        omega
    · rw [min_eq_right (by omega), if_neg (by omega)]
      have hrest : data.drop (segmentSize - p) ≠ [] := by
        rw [Ne, drop_eq_nil_iff]
        omega
      obtain ⟨slack', hflat', hsla'⟩ := exists_flatten_toBlocks none segmentSize_pos hrest
      have hwho := hfil (segmentSize - p) (by omega) (by omega)
      have hend : segment.drop (p + (segmentSize - p)) = [] := drop_of_length_le (by omega)
      refine ⟨_, slack', rfl, hwho.append (length_of_mem_toBlocks segmentSize_pos), ?_, hsla'⟩
      rw [flatten_append, flatten_append, flatten_singleton, hflat', hend, append_nil]
      rw [htail]
      conv_rhs => rw [← take_append_drop (segmentSize - p) data]
      simp only [append_assoc]

/-- **Appending** puts the bytes behind those there are. -/
theorem append_spec (hsize : content.length + data.length < 2 ^ 32) :
    ∃ b' slack', b.append data = some b' ∧ b'.Layout (content ++ data) slack' := by
  rw [append]
  by_cases hnil : data.length = 0
  · rw [if_pos hnil, eq_nil_of_length_eq_zero hnil, append_nil]
    exact ⟨b, slack, rfl, h⟩
  have hsum : wrapSize (b.size + data.length) = (content ++ data).length := by
    rw [wrapSize, h.size, length_append, mod_eq_of_lt hsize]
  have hlen : (content ++ data).length = content.length + data.length := length_append
  rw [if_neg hnil]
  simp only [hsum]
  by_cases hsma : (content ++ data).length ≤ segmentSize
  · have hnone : b.segments = [] := h.small (by omega)
    have hsla := h.length_eq
    rw [hnone, length_nil, zero_mul] at hsla
    have hdata : b.data = content := (h.data_eq (by omega)).1
    rw [if_pos hsma]
    refine ⟨_, [], rfl, rfl, h.wide, ?_, ?_, segmentSize_pos, fun _ => hnone⟩
    · simp [hnone, hdata]
    · rw [hdata]
  · have hfro := h.front
    have hpos : (((b.size : Int) - b.data.length) % segmentSize).toNat =
        (content.drop b.data.length).length % segmentSize := by
      rw [length_drop, h.size, ← cast_sub hfro, ← Int.natCast_mod, Int.toNat_natCast]
    obtain ⟨segments', slack', happ, hwide, hflat, hsla⟩ :=
      appendToSegments_spec h.wide h.flatten_eq h.slack (ne_nil_of_length_pos (pos_of_ne_zero hnil))
    rw [if_neg hsma, hpos, happ]
    refine ⟨_, slack', rfl, rfl, hwide, ?_, ?_, hsla, fun hle => absurd hle hsma⟩
    · rw [hflat, ← append_assoc, ← append_assoc, h.content_eq]
    · simp
      omega

omit h in
theorem append_data {b' : SharedBuffer} (h : b.append data = some b')
    (hlar : segmentSize < wrapSize (b.size + data.length)) : b'.data = b.data := by
  rw [append] at h
  split at h
  · obtain rfl := Option.some.inj h
    rfl
  · simp only [if_neg (not_le.mpr hlar)] at h
    obtain ⟨segments, -, rfl⟩ := Option.map_eq_some_iff.mp h
    rfl

theorem foldlM_append_spec (ps : List (List Cell))
    (hsize : content.length + ps.flatten.length < 2 ^ 32) :
    ∃ b' slack', ps.foldlM append b = some b' ∧ b'.Layout (content ++ ps.flatten) slack' := by
  induction ps generalizing b content slack with
  | nil =>
    rw [flatten_nil, append_nil]
    exact ⟨b, slack, rfl, h⟩
  | cons p ps ih =>
    rw [flatten_cons, length_append] at hsize
    obtain ⟨b₁, slack₁, happ, h₁⟩ := append_spec h (show content.length + p.length < 2 ^ 32 by omega)
    obtain ⟨b₂, slack₂, hrest, h₂⟩ := ih h₁ (by rw [length_append]; omega)
    refine ⟨b₂, slack₂, ?_, ?_⟩
    · rw [foldlM_cons, happ]
      exact hrest
    · rwa [flatten_cons, ← append_assoc]

/-! ## Flattening -/

omit h in
theorem copyBuffer_eq (hwide : Wide segmentSize segments) {n : Nat}
    (hn : n ≤ segments.length * segmentSize) : copyBuffer segments n = segments.flatten.take n := by
  induction segments generalizing n with
  | nil => rw [copyBuffer, flatten_nil, take_nil]
  | cons segment rest ih =>
    obtain ⟨hseg, hrest⟩ := forall_mem_cons.mp hwide
    rw [length_cons, add_mul, one_mul] at hn
    rw [copyBuffer, flatten_cons, List.take_append, hseg, ih hrest (by omega)]
    rcases le_total n segmentSize with hle | hle
    · rw [Nat.min_eq_left hle, Nat.sub_self, Nat.sub_eq_zero_of_le hle]
    · have hsame : segment.take segmentSize = segment.take n := by
        rw [take_of_length_le hseg.le, take_of_length_le (hseg.le.trans hle)]
      rw [min_eq_right hle, hsame]

/-- **Flattening** leaves exactly the content in the front part. -/
theorem buffer_spec : b.buffer.data = content ∧ b.buffer.Layout content [] := by
  have hlen := h.length_eq
  rw [buffer]
  by_cases hmore : b.size > b.data.length
  · have hcop : copyBuffer b.segments (b.size - b.data.length) = content.drop b.data.length := by
      rw [copyBuffer_eq h.wide (by rw [hlen, h.size]; omega), h.flatten_eq, h.size, ← length_drop, take_left]
    have hdata : b.data ++ (content.drop b.data.length ++
        List.replicate (b.size - b.data.length - (content.drop b.data.length).length) none) = content := by
      rw [h.size, List.length_drop, Nat.sub_self, List.replicate_zero, List.append_nil, h.content_eq]
    rw [if_pos hmore]
    simp only [hcop, hdata]
    exact ⟨trivial, h.size, nofun, rfl, le_refl _, segmentSize_pos, fun _ => rfl⟩
  · obtain ⟨hdata, -, rfl⟩ := h.data_eq (by rw [← h.size]; omega)
    rw [if_neg hmore]
    exact ⟨hdata, h⟩

/-! ## Reading -/

def FewSegments (b : SharedBuffer) : Prop := b.segments.length < 2 ^ 20

/-- The pieces of a position give what is there from it on. -/
def ReadsFrom (b : SharedBuffer) (content : List Cell) (position : Nat) : Prop :=
  ∃ ps, b.piecesFrom position = some ps ∧ ps.flatten = content.drop position

theorem Layout.exists_segment (hfro : b.data.length ≤ position)
    (hlt : position < content.length) :
    ∃ segment, b.segments[(position - b.data.length) / segmentSize]? = some segment ∧ segment.length = segmentSize ∧
      segment.drop ((position - b.data.length) % segmentSize) ++
          (b.segments.drop ((position - b.data.length) / segmentSize + 1)).flatten =
        content.drop position ++ slack := by
  have hlen := h.length_eq
  have hidx : (position - b.data.length) / segmentSize < b.segments.length := by
    rw [div_lt_iff_lt_mul segmentSize_pos]
    omega
  have hget := List.getElem?_eq_getElem hidx
  refine ⟨_, hget, h.wide _ (getElem_mem hidx), ?_⟩
  rw [← h.wide.drop_flatten hget (mod_lt _ segmentSize_pos).le, div_add_mod', h.flatten_eq,
    drop_append_of_le_length (by rw [length_drop]; omega), drop_drop, Nat.add_sub_cancel' hfro]

/-- **What `getSomeData` gives** is not empty, and it is the beginning of what is left; unless there are 2^20
    segments and this is the last, when it goes on behind the end. -/
theorem getSomeData_spec (hsize : content.length < 2 ^ 32)
    (hlt : position < content.length) : b.getSomeData position ≠ [] ∧
      ((∃ rest, content.drop position = b.getSomeData position ++ rest ∧ (rest ≠ [] ∨ b.FewSegments)) ∨
        (¬b.FewSegments ∧ position + (b.getSomeData position).length = b.data.length + 2 ^ 32)) := by
  rw [getSomeData, if_neg (by rw [h.size]; omega)]
  by_cases hfro : position < b.data.length
  · rw [if_pos hfro]
    refine ⟨by rw [Ne, drop_eq_nil_iff]; omega, Or.inl ⟨content.drop b.data.length, ?_, ?_⟩⟩
    · conv_lhs => rw [← h.content_eq]
      rw [drop_append_of_le_length hfro.le]
    · rcases lt_or_ge b.data.length content.length with hmore | hfull
      · left
        rw [Ne, drop_eq_nil_iff]
        omega
      · right
        rw [FewSegments, (h.data_eq hfull).2.1]
        decide
  rw [not_lt] at hfro
  obtain ⟨segment, hget, hwid, hsto⟩ := h.exists_segment hfro hlt
  have hlen := h.length_eq
  have hsla := h.slack
  have hquot := div_add_mod' (position - b.data.length) segmentSize
  have hoff := mod_lt (position - b.data.length) segmentSize_pos
  rw [if_neg (not_lt.mpr hfro)]
  simp only [hget, h.size]
  generalize (position - b.data.length) / segmentSize = index at *
  generalize (position - b.data.length) % segmentSize = offset at *
  have hdro : (segment.drop offset).length = segmentSize - offset := by rw [length_drop, hwid]
  simp only [segmentSize] at *
  by_cases hlast : index = b.segments.length - 1
  · have hend : b.segments.drop (index + 1) = [] := drop_of_length_le (by omega)
    rw [if_pos hlast]
    rw [hend, flatten_nil, append_nil] at hsto
    have hleng : wrapSize (min (wrapSize (b.segments.length * 4096)) (content.length - b.data.length) + 2 ^ 32 -
        (position - b.data.length)) =
          if b.segments.length < 2 ^ 20 then (content.drop position).length else 4096 - offset := by
      rw [wrapSize, wrapSize, length_drop]
      split_ifs <;> omega
    rw [hleng]
    split_ifs with hfew
    · rw [hsto, take_left]
      refine ⟨by rw [Ne, drop_eq_nil_iff]; omega, Or.inl ⟨[], (append_nil _).symm, Or.inr hfew⟩⟩
    · rw [take_of_length_le hdro.le, hdro]
      refine ⟨ne_nil_of_length_pos (by omega), Or.inr ⟨hfew, by omega⟩⟩
  · have hmore : 4096 ≤ (b.segments.drop (index + 1)).flatten.length := by
      have hwide : Wide segmentSize (b.segments.drop (index + 1)) := fun s hs => h.wide s (mem_of_mem_drop hs)
      rw [hwide.length_flatten, length_drop, segmentSize]
      omega
    rw [if_neg hlast, take_of_length_le hdro.le]
    have hcnt := congrArg List.length hsto
    rw [length_append, length_append, hdro] at hcnt
    obtain ⟨rest, hrest⟩ : segment.drop offset <+: content.drop position :=
      prefix_of_prefix_length_le ⟨_, hsto⟩ (prefix_append _ _) (by omega)
    refine ⟨ne_nil_of_length_pos (by omega), Or.inl ⟨rest, hrest.symm, Or.inl ?_⟩⟩
    rintro rfl
    rw [append_nil] at hrest
    rw [← hrest, hdro] at hcnt
    omega

theorem pieces_spec (hsize : content.length < 2 ^ 32) (hfew : b.FewSegments)
    (rounds : Nat) (hle : position ≤ content.length) (hrou : content.length - position < rounds) :
    ∃ ps, b.pieces rounds position = some ps ∧ ps.flatten = content.drop position := by
  induction rounds generalizing position with
  | zero => omega
  | succ rounds ih =>
    rw [pieces]
    rcases hle.eq_or_lt with rfl | hlt
    · have hdone : b.getSomeData content.length = [] := by
        rw [getSomeData, if_pos (by rw [h.size])]
      rw [if_pos hdone, drop_length]
      exact ⟨[], rfl, rfl⟩
    · obtain ⟨hne, ⟨rest, hrest, -⟩ | ⟨hmany, -⟩⟩ := getSomeData_spec h hsize hlt
      · have hcnt := congrArg List.length hrest
        have hpos := length_pos_of_ne_nil hne
        rw [length_append, length_drop] at hcnt
        have hnext : wrapSize (position + (b.getSomeData position).length) =
            position + (b.getSomeData position).length := mod_eq_of_lt (by omega)
        obtain ⟨ps, hps, hflat⟩ := ih (show position + (b.getSomeData position).length ≤ content.length by omega)
          (by omega)
        rw [if_neg hne, hnext, hps]
        refine ⟨_, rfl, ?_⟩
        rw [flatten_cons, hflat, ← drop_drop, hrest, drop_left]
      · exact absurd hfew hmany

theorem Layout.front_lt (hmany : ¬b.FewSegments) : b.data.length < content.length := by
  have hlen := h.length_eq
  have hsla := h.slack
  rw [FewSegments, not_lt] at hmany
  rw [segmentSize] at hlen hsla
  omega

theorem pieces_many (hsize : content.length < 2 ^ 32) (hmany : ¬b.FewSegments)
    (rounds : Nat) (hlt : position < content.length) : b.pieces rounds position = none := by
  induction rounds generalizing position with
  | zero => rfl
  | succ rounds ih =>
    obtain ⟨hne, hcas⟩ := getSomeData_spec h hsize hlt
    have hnext : wrapSize (position + (b.getSomeData position).length) < content.length := by
      rcases hcas with ⟨rest, hrest, hmore | hfew⟩ | ⟨-, hwra⟩
      · have hcnt := congrArg List.length hrest
        have hpos := length_pos_of_ne_nil hmore
        rw [length_append, length_drop] at hcnt
        rw [wrapSize]
        omega
      · exact absurd hfew hmany
      · have hfro := h.front_lt hmany
        rw [hwra, wrapSize]
        omega
    rw [pieces, if_neg hne, ih hnext]
    rfl

theorem piecesFrom_zero (hsize : content.length < 2 ^ 32) {ps : List (List Cell)}
    (hps : b.piecesFrom 0 = some ps) : ps.flatten = content := by
  by_cases hfew : b.FewSegments
  · obtain ⟨ps', hps', hflat⟩ := pieces_spec h hsize hfew (b.size + 1) (zero_le _) (by rw [h.size]; omega)
    obtain rfl : ps = ps' := Option.some.inj (hps.symm.trans hps')
    rwa [drop_zero] at hflat
  · rw [piecesFrom, pieces_many h hsize hfew _ (zero_lt_of_lt (h.front_lt hfew))] at hps
    cases hps

/-- **Reading is right** from every position exactly if there are fewer than 2^20 segments. -/
theorem readsFrom_iff (hsize : content.length < 2 ^ 32) :
    (∀ position < b.size, b.ReadsFrom content position) ↔ b.FewSegments := by
  rw [h.size]
  constructor
  · intro hrea
    by_contra hmany
    have hpos : 0 < content.length := zero_lt_of_lt (h.front_lt hmany)
    obtain ⟨ps, hps, -⟩ := hrea 0 hpos
    rw [piecesFrom, pieces_many h hsize hmany _ hpos] at hps
    cases hps
  · intro hfew position hlt
    exact pieces_spec h hsize hfew _ hlt.le (by rw [h.size]; omega)

end SharedBuffer

end WebV8
