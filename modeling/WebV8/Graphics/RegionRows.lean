import WebV8.Lib.StepFunction
import WebV8.Graphics.Region

/-!
# Shapes as step functions

A shape packs, into two vectors, a step list: from the `y` of a span on, the pixel rows have that
span's segments. `Shape.ofRows` does the packing, and every shape the code builds is a packed
list of *rows*. This module transports what the code does with the two vectors to the rows: which
segments a span iterator has, what appending a span does, what the loop of `contains` computes.

A packed list is *canonical* (`Rows.Canonical`) when its places strictly increase, neighbouring
rows differ, the first row is not empty and the last one is, and every row is a strictly
increasing list of even length. Canonical rows are the only ones for their set of pixels
(`Rows.Canonical.ext`).
-/

namespace WebV8

open Lib List Shape

/-- A row: the place it starts at and the segments of every pixel row from there on. -/
abbrev Row := Int × List Int

/-! ## Packing -/

/-- The spans of a list of rows whose segments start at index `n` of the segment vector. -/
def spansFrom : Nat → List Row → List Span
  | _, [] => []
  | n, (y, segs) :: rows => ⟨y, n⟩ :: spansFrom (n + segs.length) rows

def flatSegments (rows : List Row) : List Int := rows.flatMap Prod.snd

/-- The shape that packs `rows`. -/
def Shape.ofRows (rows : List Row) : Shape := ⟨flatSegments rows, spansFrom 0 rows⟩

@[simp] theorem flatSegments_nil : flatSegments [] = [] := rfl

@[simp] theorem flatSegments_cons (r : Row) (rows : List Row) :
    flatSegments (r :: rows) = r.2 ++ flatSegments rows := rfl

@[simp] theorem flatSegments_append (rows rows' : List Row) :
    flatSegments (rows ++ rows') = flatSegments rows ++ flatSegments rows' := by
  simp [flatSegments]

@[simp] theorem spansFrom_nil (n : Nat) : spansFrom n [] = [] := rfl

@[simp] theorem spansFrom_cons (n : Nat) (y : Int) (segs : List Int) (rows : List Row) :
    spansFrom n ((y, segs) :: rows) = ⟨y, n⟩ :: spansFrom (n + segs.length) rows := rfl

@[simp] theorem spansFrom_length (n : Nat) (rows : List Row) : (spansFrom n rows).length = rows.length := by
  induction rows generalizing n with
  | nil => rfl
  | cons r rows ih => obtain ⟨y, segs⟩ := r; simp [ih]

theorem spansFrom_map_y (n : Nat) (rows : List Row) : (spansFrom n rows).map Span.y = rows.map Prod.fst := by
  induction rows generalizing n with
  | nil => rfl
  | cons r rows ih => obtain ⟨y, segs⟩ := r; simp [ih]

variable {rows rows' : List Row}

@[simp] theorem spansFrom_eq_nil {n : Nat} : spansFrom n rows = [] ↔ rows = [] := by
  cases rows with
  | nil => simp
  | cons r rows => obtain ⟨y, segs⟩ := r; simp

theorem spansFrom_append (n : Nat) (rows rows' : List Row) : spansFrom n (rows ++ rows')
      = spansFrom n rows ++ spansFrom (n + (flatSegments rows).length) rows' := by
  induction rows generalizing n with
  | nil => simp
  | cons r rows ih => obtain ⟨y, segs⟩ := r; simp [ih, Nat.add_assoc]

/-- Two packed lists with the same spans and the same segment vector are the same list: each
    span's index gives the length of the row before it. -/
theorem spansFrom_inj : ∀ {n : Nat} {rows rows' : List Row},
    spansFrom n rows = spansFrom n rows' → flatSegments rows = flatSegments rows' → rows = rows'
  | _, [], [], _, _ => rfl
  | _, [], (y, segs) :: rows, h, _ => absurd h (by simp)
  | _, (y, segs) :: rows, [], h, _ => absurd h (by simp)
  | n, (y, segs) :: rows, (y', segs') :: rows', h, hf => by
    simp only [spansFrom_cons, List.cons.injEq, Span.mk.injEq] at h
    obtain ⟨⟨rfl, -⟩, hrest⟩ := h
    have hlen : segs.length = segs'.length := by
      cases rows with
      | nil =>
        have hr' : rows' = [] := spansFrom_eq_nil.mp hrest.symm
        subst hr'
        simpa using congrArg List.length hf
      | cons r rows =>
        cases rows' with
        | nil => exact absurd hrest (by obtain ⟨y, s⟩ := r; simp)
        | cons r' rows' =>
          obtain ⟨y₁, s₁⟩ := r
          obtain ⟨y₂, s₂⟩ := r'
          simp [spansFrom_cons, Span.mk.injEq] at hrest
          omega
    obtain ⟨rfl, hf'⟩ := append_inj hf hlen
    rw [spansFrom_inj hrest hf']

theorem Shape.ofRows_inj : ofRows rows = ofRows rows' ↔ rows = rows' := by
  constructor
  · intro h
    simp only [ofRows, Shape.mk.injEq] at h
    exact spansFrom_inj h.2 h.1
  · rintro rfl; rfl

/-! ## The segments of a span iterator

A span iterator over a packed list splits it into the rows already passed and the rows that are
left; `itAt` is the iterator at such a split. -/

/-- The iterator over the packed list `before ++ rows` that has `rows` left. -/
def itAt (before rows : List Row) : Shape.SpanIterator :=
  spansFrom (flatSegments before).length rows

theorem ofRows_spans (rows : List Row) : (ofRows rows).spans = itAt [] rows := rfl

@[simp] theorem itAt_nil (before : List Row) : itAt before [] = [] := rfl

theorem itAt_cons (before : List Row) (y : Int) (segs : List Int) (rows : List Row) :
    itAt before ((y, segs) :: rows) = ⟨y, (flatSegments before).length⟩ :: itAt (before ++ [(y, segs)]) rows := by
  simp [itAt, flatSegments]

/-- A row is *closed off* when another one follows or it has no segments: the code finds where
    its segments end. -/
theorem segmentsOf_itAt (before : List Row) (y : Int) (segs : List Int) (rows : List Row)
    (h : rows = [] → segs = []) :
    (ofRows (before ++ (y, segs) :: rows)).segmentsOf (itAt before ((y, segs) :: rows)) = segs := by
  cases rows with
  | nil =>
    obtain rfl : segs = [] := h rfl
    simp [itAt, Shape.segmentsOf, segmentsBegin, segmentsEnd]
  | cons r rows =>
    obtain ⟨y', segs'⟩ := r
    by_cases hz : (flatSegments before).length
        = (ofRows (before ++ (y, segs) :: (y', segs') :: rows)).segments.length
    · -- Nothing follows in the segment vector, so this row is empty as well.
      have hs : segs = [] := by
        simp only [ofRows, flatSegments_append, flatSegments_cons, length_append] at hz
        exact eq_nil_of_length_eq_zero (by omega)
      simp only [itAt, spansFrom_cons, Shape.segmentsOf, segmentsBegin, if_pos hz]
      exact hs.symm
    · simp only [itAt, spansFrom_cons, Shape.segmentsOf, segmentsBegin, segmentsEnd, if_neg hz]
      simp [ofRows]

/-! ## Appending spans -/

/-- Appending a row to a step list, dropped when it repeats the last row. -/
def pushRow (rows : List Row) (r : Row) : List Row :=
  match rows.getLast? with
  | none => [r]
  | some last => if last.2 = r.2 then rows else rows ++ [r]

theorem spansFrom_getLast? (rows : List Row) (r : Row) :
    (spansFrom 0 (rows ++ [r])).getLast? = some ⟨r.1, (flatSegments rows).length⟩ := by
  obtain ⟨y, segs⟩ := r
  simp [spansFrom_append]

theorem appendSpanSegments_ofRows (rows : List Row) (y : Int) (segs : List Int) :
    (ofRows rows).appendSpanSegments y segs = ofRows (pushRow rows (y, segs)) := by
  rcases eq_nil_or_concat' rows with rfl | ⟨init, last, rfl⟩
  · simp [ofRows, appendSpanSegments, canCoalesce, appendSpan, pushRow]
  · have hco : (ofRows (init ++ [last])).canCoalesce segs = decide (last.2 = segs) := by
      simp only [canCoalesce, ofRows, spansFrom_getLast?]
      simp
    by_cases hl : last.2 = segs
    · simp [appendSpanSegments, hco, pushRow, hl]
    · have hdef : pushRow (init ++ [last]) (y, segs) = (init ++ [last]) ++ [(y, segs)] := by
        simp [pushRow, hl]
      rw [hdef, appendSpanSegments, hco, if_neg (by simpa using hl)]
      generalize init ++ [last] = rows
      simp [appendSpan, ofRows, spansFrom_append]

def pushRows (rows : List Row) (new : List Row) : List Row := new.foldl pushRow rows

theorem appendSpans_ofRows (rows before new : List Row) (h : ∀ r, new.getLast? = some r → r.2 = []) :
    (ofRows rows).appendSpans (ofRows (before ++ new)) (itAt before new)
      = ofRows (pushRows rows new) := by
  induction new generalizing rows before with
  | nil => simp [appendSpans, pushRows]
  | cons r new ih =>
    obtain ⟨y, segs⟩ := r
    have hseg : (ofRows (before ++ (y, segs) :: new)).segmentsOf
        (⟨y, (flatSegments before).length⟩ :: itAt (before ++ [(y, segs)]) new) = segs := by
      rw [← itAt_cons]
      refine segmentsOf_itAt before y segs new fun hn => ?_
      subst hn
      exact h (y, segs) rfl
    rw [itAt_cons, appendSpans, hseg, appendSpanSegments_ofRows]
    have hlast : ∀ r, new.getLast? = some r → r.2 = [] := by
      intro r hr
      apply h r
      cases new with
      | nil => simp at hr
      | cons a new => simpa using hr
    have := ih (pushRow rows (y, segs)) (before ++ [(y, segs)]) hlast
    rw [append_assoc, singleton_append] at this
    rw [this]
    rfl

/-! ## Pixels -/

/-- The pixel `p` belongs to the set the rows describe. -/
def pixelIn (rows : List Row) (p : IntPoint) : Bool := inside (stepAt [] rows p.y) p.x

/-- The segments of one row: disjoint half-open intervals with gaps between them. -/
def SegmentsOk (segs : List Int) : Prop := segs.Pairwise (· < ·) ∧ segs.length % 2 = 0

theorem segmentsContain_eq_inside : ∀ {segs : List Int} {x : Int}, SegmentsOk segs →
    segmentsContain segs x = inside segs x
  | [], _, _ => rfl
  | [_], _, h => absurd h.2 (by simp)
  | a :: b :: segs, x, h => by
    obtain ⟨hs, hl⟩ := h
    obtain ⟨ha, hs⟩ := pairwise_cons.mp hs
    obtain ⟨hb, hs⟩ := pairwise_cons.mp hs
    rw [segmentsContain]
    by_cases hax : a > x
    · rw [if_pos hax, inside_of_lt]
      intro c hc
      rcases mem_cons.mp hc with rfl | hc
      · exact hax
      · exact lt_trans hax (ha c hc)
    · rw [if_neg hax, inside_cons, decide_eq_true (not_lt.mp hax)]
      by_cases hbx : b > x
      · rw [if_pos hbx, inside_of_lt]
        · rfl
        · intro c hc
          rcases mem_cons.mp hc with rfl | hc
          · exact hbx
          · exact lt_trans hbx (hb c hc)
      · rw [if_neg hbx, inside_cons, decide_eq_true (not_lt.mp hbx)]
        have hl' : segs.length % 2 = 0 := by simp only [length_cons] at hl; omega
        rw [segmentsContain_eq_inside ⟨hs, hl'⟩]
        cases inside segs x <;> rfl

/-- What every row list of the code satisfies, whether or not neighbours may repeat. -/
structure RowsOk (rows : List Row) : Prop where
  sorted : StepSorted rows
  closed : ∀ r, rows.getLast? = some r → r.2 = []
  segments : ∀ r ∈ rows, SegmentsOk r.2

theorem RowsOk.nil : RowsOk [] := ⟨List.Pairwise.nil, by simp, by simp⟩

theorem RowsOk.tail {r : Row} {rows : List Row} (h : RowsOk (r :: rows)) : RowsOk rows where
  sorted := h.sorted.tail
  closed r' hr' := by
    apply h.closed r'
    cases rows with
    | nil => simp at hr'
    | cons a rows => simpa using hr'
  segments r' hr' := h.segments r' (by simp [hr'])

theorem RowsOk.closed_head {y : Int} {segs : List Int}
    (h : RowsOk ((y, segs) :: rows)) (hn : rows = []) : segs = [] := by
  subst hn
  exact h.closed (y, segs) rfl

theorem mem_flatSegments {y x : Int} (h : x ∈ stepAt [] rows y) : x ∈ flatSegments rows := by
  rcases stepAt_mem [] rows y with he | ⟨r, hr, -, he⟩
  · rw [he] at h
    exact absurd h (by simp)
  · exact mem_flatMap.mpr ⟨r, hr, he ▸ h⟩

theorem RowsOk.stepAt_segments (h : RowsOk rows) (y : Int) : SegmentsOk (stepAt [] rows y) := by
  rcases stepAt_mem [] rows y with he | ⟨r, hr, -, he⟩
  · rw [he]; exact ⟨List.Pairwise.nil, rfl⟩
  · rw [he]; exact h.segments r hr

theorem stepAt_default {d d' : List Int} {r : Row} {y : Int} (h : r.1 ≤ y) :
    stepAt d (r :: rows) y = stepAt d' (r :: rows) y := by
  obtain ⟨y', segs⟩ := r
  rw [stepAt_cons_of_le h, stepAt_cons_of_le h]

theorem containsLoop_itAt (p : IntPoint) : ∀ (before rows : List Row), RowsOk rows →
    (ofRows (before ++ rows)).containsLoop p (itAt before rows) = pixelIn rows p := by
  intro before rows
  induction rows generalizing before with
  | nil => intro _; rfl
  | cons r rows ih =>
    obtain ⟨y, segs⟩ := r
    intro h
    cases rows with
    | nil =>
      obtain rfl : segs = [] := h.closed_head rfl
      rw [itAt_cons, itAt_nil, containsLoop]
      · simp [pixelIn, stepAt]
      · intro a b c hc
        simp at hc
    | cons r' rows =>
      obtain ⟨y', segs'⟩ := r'
      have hseg := segmentsOf_itAt before y segs ((y', segs') :: rows) (by simp)
      have htail := ih (before ++ [(y, segs)]) h.tail
      rw [append_assoc, singleton_append] at htail
      rw [itAt_cons, itAt_cons] at hseg ⊢
      rw [itAt_cons] at htail
      rw [containsLoop, hseg, htail, pixelIn, pixelIn]
      by_cases hy : y > p.y
      · rw [if_pos hy, stepAt_cons_of_lt hy]; rfl
      · rw [if_neg hy]
        by_cases hy' : y' ≤ p.y
        · rw [if_pos hy', stepAt_cons_of_le (not_lt.mp hy), stepAt_default hy']
        · rw [if_neg hy', stepAt_cons_of_le (not_lt.mp hy), stepAt_cons_of_lt (not_le.mp hy'),
            stepAt_cons_of_lt (not_le.mp hy'),
            segmentsContain_eq_inside (h.segments (y, segs) (by simp))]
          cases inside segs p.x <;> rfl

/-- **The loops of `contains` decide membership in the set the rows describe.** -/
theorem containsPoint_ofRows (h : RowsOk rows) (p : IntPoint) :
    (ofRows rows).containsPoint p = pixelIn rows p :=
  containsLoop_itAt p [] rows h

/-! ## Canonical rows -/

/-- The form the code keeps its rows in: nothing repeats, nothing empty stands at the top. -/
structure Canonical (rows : List Row) : Prop extends RowsOk rows where
  tight : StepTight [] rows

/-- **Canonical rows are determined by their pixels.** -/
theorem Canonical.ext (h : Canonical rows) (h' : Canonical rows')
    (hp : ∀ p, pixelIn rows p = pixelIn rows' p) : rows = rows' := by
  refine stepAt_ext h.sorted h.tight h'.sorted h'.tight fun y => ?_
  exact inside_ext (h.stepAt_segments y).1 (h'.stepAt_segments y).1 fun x => hp ⟨x, y⟩

theorem Canonical.nil : Canonical [] := ⟨RowsOk.nil, by simp [StepTight]⟩

end WebV8
