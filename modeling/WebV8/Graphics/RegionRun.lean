import WebV8.Lib.Run
import WebV8.Graphics.RegionAlgebra

/-!
# Programs over regions

A program is a list of calls of `unite`, `intersect`, `subtract` and `translate` on a store of
regions, each of which starts as `Region()` or as `Region(rect)`. The same program runs on a store
of point sets. This module relates the two runs.

Coordinates are unbounded integers in the model, so it speaks for the code as long as nothing
overflows. What the proofs need of that is only that the coordinates in the vectors stay `int`s:
`Shape::bounds()` starts its minimum and maximum from the two ends of the range.

`translate` moves `m_bounds` also when the region is empty, while every other way to an empty
region leaves `IntRect()` there. The runs that never do this are exactly the ones that keep all
regions in the form `operator==` relies on (`wellFormed_along_iff`).
-/

namespace WebV8

open Lib Shape List

variable {ι : Type*} [DecidableEq ι]

/-! ## The program -/

/-- A call of a mutating member function on the region `i`. -/
inductive RegionOp (ι : Type*) where
  | unite (i j : ι)
  | intersect (i j : ι)
  | subtract (i j : ι)
  | translate (i : ι) (offset : IntSize)
deriving DecidableEq

/-- `none` when a call reads outside the segment vector. -/
def regionStep (s : ι → Region) : RegionOp ι → Option (ι → Region)
  | .unite i j => some (Function.update s i ((s i).unite (s j)))
  | .intersect i j => ((s i).intersect (s j)).map (Function.update s i)
  | .subtract i j => ((s i).subtract (s j)).map (Function.update s i)
  | .translate i offset => some (Function.update s i ((s i).translate offset))

def setStep (s : ι → Set IntPoint) : RegionOp ι → ι → Set IntPoint
  | .unite i j => Function.update s i (s i ∪ s j)
  | .intersect i j => Function.update s i (s i ∩ s j)
  | .subtract i j => Function.update s i (s i \ s j)
  | .translate i offset =>
    Function.update s i ((fun p => ⟨p.x + offset.width, p.y + offset.height⟩) '' s i)

variable (start : ι → Option IntRect)

/-- `Region()` for `none`, `Region(rect)` for `some rect`. -/
def regionStart (i : ι) : Region :=
  match start i with
  | none => Region.empty
  | some rect => Region.ofRect rect

def setStart (i : ι) : Set IntPoint :=
  match start i with
  | none => ∅
  | some rect => {p | (rect.x ≤ p.x ∧ p.x < rect.x + rect.width) ∧
      rect.y ≤ p.y ∧ p.y < rect.y + rect.height}

/-- The rectangles a program starts from have pixels and `int` coordinates. -/
def StartOk : Prop := ∀ i, ∀ rect ∈ start i, RectOk rect

/-- A call that keeps the coordinates `int`s. -/
def StepFits (s : ι → Region) : RegionOp ι → Prop
  | .translate i offset => (s i).translateFits offset
  | _ => True

/-! ## The set algebra -/

/-- A store of regions that keep their representation invariant. -/
def StoreOk (s : ι → Region) : Prop := ∀ i, ∃ rows, Represents (s i) rows

/-- The store of regions denotes the store of point sets. -/
def StoreDenotes (s : ι → Region) (a : ι → Set IntPoint) : Prop :=
  ∀ i, ∃ rows, Represents (s i) rows ∧ pixels rows = a i

variable {s : ι → Region} {a : ι → Set IntPoint} {start : ι → Option IntRect} {r : Region}
    {rows : List Row}

omit [DecidableEq ι] in
theorem StoreDenotes.ok (h : StoreDenotes s a) : StoreOk s := fun i => (h i).imp fun _ hr => hr.1

omit [DecidableEq ι] in
theorem StartOk.denotes (h : StartOk start) : StoreDenotes (regionStart start) (setStart start) := by
  intro i
  rw [regionStart, setStart]
  cases hi : start i with
  | none =>
    refine ⟨[], Represents.empty, ?_⟩
    ext p
    simp [pixelIn_nil]
  | some rect =>
    have hr : RectOk rect := h i rect (by rw [hi]; rfl)
    refine ⟨rectRows rect, Represents.ofRect hr, ?_⟩
    ext p
    rw [mem_pixels, pixelIn_rectRows hr, IntRect.containsPoint_iff]
    rfl

theorem StoreDenotes.update {s : ι → Region} {a : ι → Set IntPoint} (h : StoreDenotes s a) (i : ι)
    {r : Region} {rows : List Row} {S : Set IntPoint} (hr : Represents r rows) (hS : pixels rows = S) :
    StoreDenotes (Function.update s i r) (Function.update a i S) := by
  intro k
  rw [Function.update_apply, Function.update_apply]
  split_ifs
  · exact ⟨rows, hr, hS⟩
  · exact h k

/-- **Step lemma**: each call does to the point sets what its name says. -/
theorem StoreDenotes.step (h : StoreDenotes s a) (op : RegionOp ι) (hfits : StepFits s op) :
    ∃ s', regionStep s op = some s' ∧ StoreDenotes s' (setStep a op) := by
  cases op with
  | unite i j =>
    obtain ⟨rows, hr, hi⟩ := h i
    obtain ⟨rows', hr', hj⟩ := h j
    obtain ⟨out, hres⟩ := hr.unite hr'
    refine ⟨_, rfl, h.update i hres.represents ?_⟩
    rw [← hi, ← hj]
    ext p
    simp [hres.pixels p]
  | intersect i j =>
    obtain ⟨rows, hr, hi⟩ := h i
    obtain ⟨rows', hr', hj⟩ := h j
    obtain ⟨x, out, hx, hres⟩ := hr.intersect hr'
    refine ⟨_, by rw [regionStep, hx]; rfl, h.update i hres.represents ?_⟩
    rw [← hi, ← hj]
    ext p
    simp [hres.pixels p]
  | subtract i j =>
    obtain ⟨rows, hr, hi⟩ := h i
    obtain ⟨rows', hr', hj⟩ := h j
    obtain ⟨x, out, hx, hres⟩ := hr.subtract hr'
    refine ⟨_, by rw [regionStep, hx]; rfl, h.update i hres.represents ?_⟩
    rw [← hi, ← hj]
    ext p
    simp [hres.pixels p]
  | translate i offset =>
    obtain ⟨rows, hr, hi⟩ := h i
    refine ⟨_, rfl, h.update i (hr.translate hfits) ?_⟩
    rw [← hi]
    ext p
    rw [mem_pixels, pixelIn_translateRows]
    constructor
    · intro hp
      exact ⟨untranslate offset p, hp, by simp [untranslate]⟩
    · rintro ⟨q, hq, rfl⟩
      simpa [untranslate] using hq

/-- The result of each call with early exits, compared with the merge of the two shapes. -/
structure AgreesWithMerge (r r' : Region) : Prop where
  unite : ∀ p, (r.unite r').containsPoint p = (unionShapes r.shape r'.shape).containsPoint p
  intersect : ∃ x, r.intersect r' = some x ∧
    ∀ p, x.containsPoint p = (intersectShapes r.shape r'.shape).containsPoint p
  subtract : ∃ x, r.subtract r' = some x ∧
    ∀ p, x.containsPoint p = (subtractShapes r.shape r'.shape).containsPoint p

theorem Represents.agreesWithMerge {r' : Region} {rows' : List Row}
    (h : Represents r rows) (h' : Represents r' rows') : AgreesWithMerge r r' := by
  constructor
  · intro p
    obtain ⟨out, hres⟩ := h.unite h'
    obtain ⟨out', hrun, hc, -, hp⟩ := h.unionShapes h'
    rw [hres.represents.containsPoint, hres.pixels, hrun, containsPoint_ofRows hc.toRowsOk, hp]
  · obtain ⟨x, out, hx, hres⟩ := h.intersect h'
    obtain ⟨out', hrun, hc, -, hp⟩ := h.mergeSpans h' denotes_intersect
    refine ⟨x, hx, fun p => ?_⟩
    rw [hres.represents.containsPoint, hres.pixels, ← hp, ← containsPoint_ofRows hc.toRowsOk, ← hrun]
    rfl
  · obtain ⟨x, out, hx, hres⟩ := h.subtract h'
    obtain ⟨out', hrun, hc, -, hp⟩ := h.mergeSpans h' denotes_subtract
    refine ⟨x, hx, fun p => ?_⟩
    rw [hres.represents.containsPoint, hres.pixels, ← hp, ← containsPoint_ofRows hc.toRowsOk, ← hrun]
    rfl

/-- **Region programs compute with point sets.** No call of the program reads outside a vector,
    `contains` answers for the point set the program denotes, and the early exits of a further
    call change nothing. -/
theorem region_run_denotes (start : ι → Option IntRect) (hstart : StartOk start)
    (ops : List (RegionOp ι)) (hfits : EachStep regionStep StepFits (regionStart start) ops) :
    ∃ s, run regionStep (regionStart start) ops = some s ∧
      (∀ i p, (s i).containsPoint p = true ↔ p ∈ ops.foldl setStep (setStart start) i) ∧
      ∀ i j, AgreesWithMerge (s i) (s j) := by
  obtain ⟨s, hrun, hden⟩ := run_simulates
    (fun _ _ op hR hQ => hR.step op hQ) ops hstart.denotes hfits
  refine ⟨s, hrun, fun i p => ?_, fun i j => ?_⟩
  · obtain ⟨rows, hr, hi⟩ := hden i
    rw [hr.containsPoint, ← hi, mem_pixels]
  · obtain ⟨rows, hr, -⟩ := hden i
    obtain ⟨rows', hr', -⟩ := hden j
    exact hr.agreesWithMerge hr'

theorem region_run_denotes_two_rects :
    let start : Bool → Option IntRect := fun b =>
      if b then some ⟨⟨0, 0⟩, ⟨10, 10⟩⟩ else some ⟨⟨5, 5⟩, ⟨10, 2⟩⟩
    let ops : List (RegionOp Bool) := [.translate true ⟨-3, 4⟩, .unite true false, .subtract false true]
    ∃ s, run regionStep (regionStart start) ops = some s ∧
      (∀ i p, (s i).containsPoint p = true ↔ p ∈ ops.foldl setStep (setStart start) i) ∧
      ∀ i j, AgreesWithMerge (s i) (s j) := by
  intro start ops
  refine region_run_denotes start ?_ ops ?_
  · intro b rect hrect
    cases b with
    | true =>
      obtain rfl : (⟨⟨0, 0⟩, ⟨10, 10⟩⟩ : IntRect) = rect := by simpa [start] using hrect
      exact ⟨by decide, by decide, by decide, by decide⟩
    | false =>
      obtain rfl : (⟨⟨5, 5⟩, ⟨10, 2⟩⟩ : IntRect) = rect := by simpa [start] using hrect
      exact ⟨by decide, by decide, by decide, by decide⟩
  · exact ⟨⟨by decide, by decide⟩, fun _ _ => ⟨trivial, fun _ _ => ⟨trivial, fun _ _ => trivial⟩⟩⟩

/-! ## The form of a shape -/

/-- The form the functions that read a shape rely on. An iterator is what is left of the span
    vector, so a span with what follows it is a suffix of that vector. -/
structure CanonicalForm (r : Region) : Prop where
  increasing : (r.shape.spans.map Span.y).Pairwise (· < ·)
  first : ∀ span rest, r.shape.spans = span :: rest → r.shape.segmentsOf (span :: rest) ≠ []
  last : ∀ span, [span] <:+ r.shape.spans → r.shape.segmentsOf [span] = []
  differ : ∀ span next rest, span :: next :: rest <:+ r.shape.spans →
    r.shape.segmentsOf (span :: next :: rest) ≠ r.shape.segmentsOf (next :: rest)
  segments : ∀ span rest, span :: rest <:+ r.shape.spans →
    SegmentsOk (r.shape.segmentsOf (span :: rest))
  /-- `Shape::bounds()` stays inside the segment vector and finds `m_bounds`. -/
  bounds : r.shape.bounds = some r.bounds
  box : {p | r.containsPoint p = true}.Nonempty →
    TightBox r.bounds {p | r.containsPoint p = true}

/-- Every region is in canonical form, and `operator==` compares the point sets. -/
structure WellFormed (s : ι → Region) : Prop where
  form : ∀ i, CanonicalForm (s i)
  equal : ∀ i j, (s i).equal (s j) = true ↔ ∀ p, (s i).containsPoint p = (s j).containsPoint p

def MovesEmpty (s : ι → Region) : RegionOp ι → Prop
  | .translate i offset => (s i).isEmpty = true ∧ offset ≠ ⟨0, 0⟩
  | _ => False

/-- An empty region has the bounds `Region()` has. -/
def Settled (r : Region) : Prop := r.isEmpty = true → r.bounds = IntRect.empty

theorem suffix_itAt {it : SpanIterator} (h : it <:+ (ofRows rows).spans) :
    ∃ before rest, rows = before ++ rest ∧ it = itAt before rest := by
  obtain ⟨passed, hp⟩ := h
  have hlen : passed.length + it.length = rows.length := by
    rw [← length_append, hp, ofRows]
    simp
  refine ⟨rows.take passed.length, rows.drop passed.length, by simp, ?_⟩
  have hspl : spansFrom 0 rows = spansFrom 0 (rows.take passed.length) ++
      itAt (rows.take passed.length) (rows.drop passed.length) := by
    conv_lhs => rw [← take_append_drop passed.length rows]
    rw [spansFrom_append, itAt]
    simp
  rw [ofRows, hspl] at hp
  exact (append_inj hp (by simp; omega)).2

namespace Represents

variable {r r' : Region} {rows rows' : List Row}

section

variable (h : Represents r rows)
include h

theorem row_of_suffix {span : Span} {rest : SpanIterator}
    (hs : span :: rest <:+ r.shape.spans) : ∃ before y segs after,
      rows = before ++ (y, segs) :: after ∧ rest = itAt (before ++ [(y, segs)]) after ∧
      r.shape.segmentsOf (span :: rest) = segs := by
  rw [h.shape] at hs ⊢
  obtain ⟨before, after, hrows, hit⟩ := suffix_itAt hs
  cases after with
  | nil => exact absurd hit (by simp)
  | cons row after =>
    obtain ⟨y, segs⟩ := row
    have hclo : after = [] → segs = [] := by
      rintro rfl
      exact h.canonical.closed (y, segs) (by rw [hrows]; simp)
    refine ⟨before, y, segs, after, hrows, ?_, ?_⟩
    · rw [itAt_cons] at hit
      exact (List.cons.inj hit).2
    · rw [hit, hrows]
      exact segmentsOf_itAt before y segs after hclo

theorem canonicalForm (hb : Settled r) : CanonicalForm r where
  increasing := by
    have hmap : r.shape.spans.map Span.y = rows.map Prod.fst := by
      rw [h.shape]
      exact spansFrom_map_y 0 rows
    rw [hmap, pairwise_map]
    exact h.canonical.sorted
  first span rest hspa := by
    have hspan : span :: rest <:+ r.shape.spans := ⟨[], hspa.symm⟩
    obtain ⟨before, y, segs, after, hrows, hrest, hsegs⟩ := h.row_of_suffix hspan
    -- The iterator has everything left, so no row stands before this one.
    obtain rfl : before = [] := by
      have hlen := congrArg List.length hspa
      rw [h.shape, hrows, hrest] at hlen
      simp only [ofRows, itAt, spansFrom_length, length_append, length_cons] at hlen
      exact eq_nil_of_length_eq_zero (by omega)
    have htig := h.canonical.tight
    rw [hrows] at htig
    rw [hsegs]
    exact htig.head_ne
  last span hspan := by
    obtain ⟨before, y, segs, after, hrows, hrest, hsegs⟩ := h.row_of_suffix hspan
    obtain rfl : after = [] := by
      have hlen := congrArg List.length hrest
      simp only [itAt, spansFrom_length, length_nil] at hlen
      exact eq_nil_of_length_eq_zero hlen.symm
    rw [hsegs]
    exact h.canonical.closed (y, segs) (by rw [hrows]; simp)
  differ span next rest hspan := by
    obtain ⟨before, y, segs, after, hrows, hrest, hsegs⟩ := h.row_of_suffix hspan
    obtain ⟨before', y', segs', after', hrows', hrest', hsegs'⟩ :=
      h.row_of_suffix ((suffix_cons span (next :: rest)).trans hspan)
    -- Both iterators split the same rows, one row apart.
    have hlen := congrArg List.length hrest
    have hlen' := congrArg List.length hrest'
    have hrow := congrArg List.length hrows
    rw [hrows'] at hrow
    simp only [itAt, spansFrom_length, length_cons, length_append] at hlen hlen' hrow
    have hsame : before ++ [(y, segs)] ++ after = before' ++ (y', segs') :: after' := by
      rw [← hrows', hrows]
      simp
    obtain ⟨hbef, haft⟩ := append_inj hsame (by simp; omega)
    have htig := h.canonical.tight
    rw [hrows', ← hbef, StepTight] at htig
    rw [hsegs, hsegs']
    have hsuf : [segs, segs'] ++ after'.map Prod.snd <:+
        [] :: (before ++ [(y, segs)] ++ (y', segs') :: after').map Prod.snd :=
      ⟨[] :: before.map Prod.snd, by simp⟩
    exact (isChain_cons_cons.mp (htig.suffix hsuf)).1
  segments span rest hspan := by
    obtain ⟨before, y, segs, after, hrows, -, hsegs⟩ := h.row_of_suffix hspan
    rw [hsegs]
    exact h.canonical.segments (y, segs) (by rw [hrows]; simp)
  bounds := by
    by_cases hn : rows = []
    · rw [hb (h.noBox hn), h.shape, hn]
      rfl
    · obtain ⟨b, hbds, hbox⟩ := bounds_ofRows h.canonical h.fits hn
      rw [h.shape, hbds, hbox.unique (h.box hn)]
  box hp := by
    have hset : {p | r.containsPoint p = true} = pixels rows := by
      ext p
      rw [Set.mem_ofPred_eq, h.containsPoint, mem_pixels]
    rw [hset] at hp ⊢
    refine h.box ?_
    rintro rfl
    obtain ⟨p, hp⟩ := hp
    exact absurd hp (by simp [pixelIn_nil])

theorem settled (hform : CanonicalForm r) : Settled r := by
  intro he
  obtain rfl : rows = [] := h.isEmpty_iff.mp he
  have hb := hform.bounds
  rw [h.shape] at hb
  exact (Option.some.inj hb).symm

/-- **Settled regions are `operator==` when they have the same points.** -/
theorem equal_iff (h' : Represents r' rows') (hs : Settled r) (hs' : Settled r') :
    r.equal r' = true ↔ ∀ p, r.containsPoint p = r'.containsPoint p := by
  rw [Region.equal, Bool.and_eq_true, Bool.and_eq_true, decide_eq_true_eq, decide_eq_true_eq, decide_eq_true_eq]
  constructor
  · rintro ⟨-, hspa, hsegs⟩ p
    have hrows : rows = rows' := by
      rw [← ofRows_inj, ← h.shape, ← h'.shape, Shape.mk.injEq]
      exact ⟨hsegs, hspa⟩
    rw [h.containsPoint, h'.containsPoint, hrows]
  · intro hp
    obtain rfl : rows = rows' := h.canonical.ext h'.canonical fun p => by
      rw [← h.containsPoint, ← h'.containsPoint, hp]
    refine ⟨?_, by rw [h.shape, h'.shape], by rw [h.shape, h'.shape]⟩
    by_cases hn : rows = []
    · rw [hs (h.noBox hn), hs' (h'.noBox hn)]
    · exact (h.box hn).unique (h'.box hn)

end

end Represents

omit [DecidableEq ι] in
theorem wellFormed_iff_settled (h : StoreOk s) : WellFormed s ↔ ∀ i, Settled (s i) := by
  constructor
  · intro hw i
    obtain ⟨rows, hr⟩ := h i
    exact hr.settled (hw.form i)
  · intro hs
    refine ⟨fun i => ?_, fun i j => ?_⟩
    · obtain ⟨rows, hr⟩ := h i
      exact hr.canonicalForm (hs i)
    · obtain ⟨rows, hr⟩ := h i
      obtain ⟨rows', hr'⟩ := h j
      exact hr.equal_iff hr' (hs i) (hs j)

theorem settled_update (h : ∀ i, Settled (s i)) (i : ι) (r : Region) :
    (∀ k, Settled (Function.update s i r k)) ↔ Settled r := by
  rw [Function.forall_update_iff s fun _ => Settled]
  exact and_iff_left fun k _ => h k

theorem Represents.Result.settled {x : Region} {out : List Row} {f : IntPoint → Bool}
    (h : Represents.Result r x rows out f) (hr : Represents r rows) (hs : Settled r) : Settled x := by
  intro he
  rcases h.emptyBounds (h.represents.isEmpty_iff.mp he) with hb | ⟨hn, hb⟩
  · exact hb
  · rw [hb]
    exact hs (hr.noBox hn)

theorem settled_translate (hs : Settled r) (offset : IntSize) :
    Settled (r.translate offset) ↔ ¬ (r.isEmpty = true ∧ offset ≠ ⟨0, 0⟩) := by
  have hemp : (r.translate offset).isEmpty = r.isEmpty := rfl
  rw [Settled, hemp, not_and, not_not]
  refine forall_congr' fun he => ?_
  rw [show (r.translate offset).bounds = r.bounds.move offset from rfl, hs he]
  obtain ⟨w, h⟩ := offset
  simp [IntRect.move, IntRect.empty]

/-- **Step lemma**: a call keeps settled regions settled unless it moves an empty one away. -/
theorem settled_step (h : StoreOk s) (hs : ∀ i, Settled (s i)) (op : RegionOp ι) (hfits : StepFits s op) :
    ∃ s', regionStep s op = some s' ∧ StoreOk s' ∧ ((∀ i, Settled (s' i)) ↔ ¬ MovesEmpty s op) := by
  have hden : StoreDenotes s fun i => {p | (s i).containsPoint p = true} := by
    intro i
    obtain ⟨rows, hr⟩ := h i
    refine ⟨rows, hr, ?_⟩
    ext p
    rw [mem_pixels, Set.mem_ofPred_eq, hr.containsPoint]
  obtain ⟨s', hstep, hden'⟩ := hden.step op hfits
  refine ⟨s', hstep, hden'.ok, ?_⟩
  cases op with
  | unite i j =>
    obtain ⟨rows, hr⟩ := h i
    obtain ⟨rows', hr'⟩ := h j
    obtain ⟨out, hres⟩ := hr.unite hr'
    obtain rfl := Option.some.inj hstep
    rw [settled_update hs]
    exact iff_of_true (hres.settled hr (hs i)) not_false
  | intersect i j =>
    obtain ⟨rows, hr⟩ := h i
    obtain ⟨rows', hr'⟩ := h j
    obtain ⟨x, out, hx, hres⟩ := hr.intersect hr'
    rw [regionStep, hx] at hstep
    obtain rfl := Option.some.inj hstep
    rw [settled_update hs]
    exact iff_of_true (hres.settled hr (hs i)) not_false
  | subtract i j =>
    obtain ⟨rows, hr⟩ := h i
    obtain ⟨rows', hr'⟩ := h j
    obtain ⟨x, out, hx, hres⟩ := hr.subtract hr'
    rw [regionStep, hx] at hstep
    obtain rfl := Option.some.inj hstep
    rw [settled_update hs]
    exact iff_of_true (hres.settled hr (hs i)) not_false
  | translate i offset =>
    obtain rfl := Option.some.inj hstep
    rw [settled_update hs]
    exact settled_translate (hs i) offset

omit [DecidableEq ι] in
theorem settled_start (h : StartOk start) (i : ι) : Settled (regionStart start i) := by
  rw [regionStart]
  cases hi : start i with
  | none => exact fun _ => rfl
  | some rect =>
    intro he
    have hr : RectOk rect := h i rect (by rw [hi]; rfl)
    have hn := (Represents.ofRect hr).isEmpty_iff.mp he
    exact absurd hn (by simp [rectRows])

/-- **The regions of a program stay in canonical form, with `operator==` comparing their points,
    exactly as long as it moves no empty region away.** -/
theorem wellFormed_along_iff (start : ι → Option IntRect) (hstart : StartOk start)
    (ops : List (RegionOp ι)) (hfits : EachStep regionStep StepFits (regionStart start) ops) :
    Along regionStep WellFormed (regionStart start) ops ↔
      EachStep regionStep (fun s op => ¬ MovesEmpty s op) (regionStart start) ops := by
  have hok : StoreOk (regionStart start) := hstart.denotes.ok
  refine along_iff_eachStep ?_ ops hok ((wellFormed_iff_settled hok).mpr (settled_start hstart)) hfits
  intro s op h hw hf
  obtain ⟨s', hstep, hok', hiff⟩ := settled_step h ((wellFormed_iff_settled h).mp hw) op hf
  exact ⟨s', hstep, hok', (wellFormed_iff_settled hok').trans hiff⟩

theorem wellFormed_along_iff_two_rects :
    let start : Bool → Option IntRect := fun b =>
      if b then some ⟨⟨0, 0⟩, ⟨10, 10⟩⟩ else none
    let ops : List (RegionOp Bool) := [.translate true ⟨-3, 4⟩, .unite false true]
    Along regionStep WellFormed (regionStart start) ops ↔
      EachStep regionStep (fun s op => ¬ MovesEmpty s op) (regionStart start) ops := by
  intro start ops
  refine wellFormed_along_iff start ?_ ops ?_
  · intro b rect hrect
    cases b with
    | true =>
      obtain rfl : (⟨⟨0, 0⟩, ⟨10, 10⟩⟩ : IntRect) = rect := by simpa [start] using hrect
      exact ⟨by decide, by decide, by decide, by decide⟩
    | false => exact absurd hrect (by simp [start])
  · exact ⟨⟨by decide, by decide⟩, fun _ _ => ⟨trivial, fun _ _ => trivial⟩⟩

/-- `Region()` moved by one pixel is still empty, and `operator==` tells it from `Region()`. -/
theorem moved_empty_region_not_equal : ∃ s : Bool → Region,
      run regionStep (regionStart fun _ => none) [.translate true ⟨1, 0⟩] = some s ∧
      (∀ p, (s true).containsPoint p = (s false).containsPoint p) ∧
      (s true).equal (s false) = false ∧ (s true).shape.bounds ≠ some (s true).bounds := by
  refine ⟨_, rfl, fun p => ?_, by decide, by decide⟩
  -- Neither shape has a span for `contains` to look at.
  simp [regionStart, Region.empty, Region.translate, Region.containsPoint, Shape.containsPoint,
    Shape.translate, Shape.empty, Shape.containsLoop]

/-! ## History independence -/

/-- A program that keeps the coordinates `int`s and moves no empty region away. -/
structure RegionProgram (ι : Type*) [DecidableEq ι] where
  start : ι → Option IntRect
  ops : List (RegionOp ι)
  startOk : StartOk start
  allowed : EachStep regionStep (fun s op => StepFits s op ∧ ¬ MovesEmpty s op) (regionStart start) ops

namespace RegionProgram

variable (P Q : RegionProgram ι)

def result : Option (ι → Region) := run regionStep (regionStart P.start) P.ops

def points : ι → Set IntPoint := P.ops.foldl setStep (setStart P.start)

theorem exists_result : ∃ s, P.result = some s ∧ StoreDenotes s P.points ∧ ∀ i, Settled (s i) := by
  refine run_simulates (R := fun s a => StoreDenotes s a ∧ ∀ i, Settled (s i)) ?_ P.ops
    ⟨P.startOk.denotes, settled_start P.startOk⟩ P.allowed
  rintro s a op ⟨hden, hset⟩ ⟨hfits, hmoves⟩
  obtain ⟨s₁, hstep, hden₁⟩ := hden.step op hfits
  obtain ⟨s₂, hstep₂, -, hiff⟩ := settled_step hden.ok hset op hfits
  obtain rfl : s₁ = s₂ := Option.some.inj (hstep.symm.trans hstep₂)
  exact ⟨s₁, hstep, hden₁, hiff.mpr hmoves⟩

end RegionProgram

end WebV8
