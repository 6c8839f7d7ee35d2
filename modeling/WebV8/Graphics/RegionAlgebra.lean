import WebV8.Graphics.RegionCompare

/-!
# Region operations are set operations

`Represents r rows` says what the members of a region have to do with each other: the shape packs
canonical rows, and the bounds are the tight box of their pixels, or some empty rectangle when
there are none. Each operation is shown once to keep this and to do to the pixels what its name
says; the early exits need no separate treatment because every branch is judged by its pixels.
-/

namespace WebV8

open Lib Shape List IntRect

theorem pixelIn_two {a b : Int} (h : SegmentsOk [a, b]) (y y' : Int) (p : IntPoint) :
    pixelIn [(y, [a, b]), (y', [])] p = true ↔ (y ≤ p.y ∧ p.y < y') ∧ a ≤ p.x ∧ p.x < b := by
  rw [pixelIn]
  by_cases hy : y ≤ p.y
  · rw [stepAt_cons_of_le hy]
    by_cases hy' : y' ≤ p.y
    · rw [stepAt_cons_of_le hy', stepAt_nil]
      simp [inside_nil]
      omega
    · rw [stepAt_cons_of_lt (not_le.mp hy'), inside_cons₂ h]
      simp [inside_nil]
      omega
  · rw [stepAt_cons_of_lt (not_le.mp hy)]
    simp [inside_nil]
    omega

/-- The region's shape packs `rows` and its bounds belong to them. -/
structure Represents (r : Region) (rows : List Row) : Prop where
  shape : r.shape = ofRows rows
  canonical : Canonical rows
  fits : RowsFit rows
  noBox : rows = [] → r.bounds.isEmpty = true
  box : rows ≠ [] → TightBox r.bounds (pixels rows)

variable {p : IntPoint} {r : IntRect}

namespace Represents

variable {r r' : Region} {rows rows' : List Row}

variable (h : Represents r rows)
include h

theorem isEmpty_iff : r.bounds.isEmpty = true ↔ rows = [] := by
  constructor
  · intro he
    by_contra hne
    rw [(h.box hne).pos] at he
    exact absurd he (by simp)
  · exact h.noBox

theorem ne_nil (he : r.bounds.isEmpty = false) : rows ≠ [] := by
  intro hn
  rw [h.noBox hn] at he
  exact absurd he (by simp)

theorem bounds_contain (hp : pixelIn rows p = true) :
    r.bounds.containsPoint p = true := by
  refine (h.box ?_).holds p hp
  rintro rfl
  exact absurd hp (by simp [pixelIn])

/-- **`contains(const IntPoint&)` decides membership.** -/
theorem containsPoint (p : IntPoint) : r.containsPoint p = pixelIn rows p := by
  rw [Region.containsPoint, h.shape, containsPoint_ofRows h.canonical.toRowsOk]
  cases hb : r.bounds.containsPoint p with
  | true => rfl
  | false =>
    cases hp : pixelIn rows p with
    | true => rw [h.bounds_contain hp] at hb; exact absurd hb (by simp)
    | false => rfl

omit h in
theorem startsBy_of_pixel (hp : pixelIn rows p = true) : startsBy rows p.y := by
  intro row hrow
  cases rows with
  | nil => simp at hrow
  | cons first rest =>
    obtain rfl : first = row := by simpa using hrow
    by_contra hlt
    rw [pixelIn, show first = (first.1, first.2) from rfl, stepAt_cons_of_lt (not_le.mp hlt)] at hp
    exact absurd hp (by simp)

theorem startsBy_of_bounds {y : Int} (hy : r.bounds.y ≤ y) : startsBy rows y := by
  intro row hrow
  have hne : rows ≠ [] := by
    rintro rfl
    simp at hrow
  obtain ⟨q, hq, hqy⟩ := (h.box hne).top
  have := startsBy_of_pixel hq row hrow
  omega

theorem contains_sound (h' : Represents r' rows')
    (hc : r.contains r' = true) (hp : pixelIn rows' p = true) : pixelIn rows p = true := by
  rw [Region.contains] at hc
  cases hb : r.bounds.contains r'.bounds with
  | false => rw [hb] at hc; exact absurd hc (by simp)
  | true =>
    rw [hb, h.shape, h'.shape, Bool.not_true, if_neg (by simp), compareShapes_ofRows] at hc
    have hbox := containsPoint_iff.mp (h'.bounds_contain hp)
    have hsub := IntRect.contains_iff.mp hb
    exact compareRows_sound rows rows' false false h.canonical.toRowsOk
      h'.canonical.toRowsOk hc p (h.startsBy_of_bounds (by omega)) (startsBy_of_pixel hp) hp

theorem rows_of_isRect (hne : rows ≠ []) (hr : r.isRect = true) :
    ∃ y a b y', rows = [(y, [a, b]), (y', [])] := by
  obtain ⟨first, mid, last, rfl, hf, hl⟩ := h.canonical.shape hne
  rw [Region.isRect, Shape.isRect, h.shape] at hr
  simp only [Shape.ofRows, spansFrom_length, Bool.and_eq_true, decide_eq_true_eq,
    length_cons, length_append, flatSegments_cons, flatSegments_append] at hr
  obtain rfl : mid = [] := eq_nil_of_length_eq_zero (by omega)
  obtain ⟨y, segs⟩ := first
  obtain ⟨y', segs'⟩ := last
  simp only at hf hl
  subst hl
  have hok := h.canonical.segments (y, segs) (by simp)
  rcases segs with _ | ⟨a, _ | ⟨b, _ | ⟨c, segs⟩⟩⟩
  · exact absurd rfl hf
  · exact absurd hok.2 (by simp)
  · exact ⟨y, a, b, y', rfl⟩
  · simp at hr

theorem pixelIn_of_isRect (hne : rows ≠ []) (hr : r.isRect = true)
    (hp : r.bounds.containsPoint p = true) : pixelIn rows p = true := by
  obtain ⟨y, a, b, y', rfl⟩ := h.rows_of_isRect hne hr
  have hbox := h.box hne
  have hin := pixelIn_two (h.canonical.segments (y, [a, b]) (by simp)) y y'
  -- Each side of the bounds is touched, so the bounds are no larger than the rectangle.
  obtain ⟨pl, hpl, el⟩ := hbox.left
  obtain ⟨pr, hpr, er⟩ := hbox.right
  obtain ⟨pt, hpt, et⟩ := hbox.top
  obtain ⟨pb, hpb, eb⟩ := hbox.bottom
  rw [mem_pixels, hin] at hpl hpr hpt hpb
  rw [containsPoint_iff] at hp
  rw [hin]
  omega

omit h

/-! ## The constructors -/

theorem empty : Represents Region.empty [] where
  shape := rfl
  canonical := Canonical.nil
  fits := ⟨by simp, by simp⟩
  noBox _ := rfl
  box h := absurd rfl h

end Represents

def rectRows (r : IntRect) : List Row := [(r.y, [r.x, r.maxX]), (r.maxY, [])]

/-- The coordinates of a rectangle with pixels, all of them `int`s. -/
structure RectOk (r : IntRect) : Prop where
  width : 0 < r.width
  height : 0 < r.height
  fitsX : FitsInt r.x ∧ FitsInt r.maxX
  fitsY : FitsInt r.y ∧ FitsInt r.maxY

theorem RectOk.lt (h : RectOk r) : r.x < r.maxX ∧ r.y < r.maxY := by
  have h1 := h.width
  have h2 := h.height
  simp only [maxX, maxY]
  omega

theorem RectOk.canonical (h : RectOk r) : Canonical (rectRows r) := by
  obtain ⟨hx, hy⟩ := h.lt
  refine ⟨⟨?_, ?_, ?_⟩, ?_⟩
  · simpa [StepSorted, rectRows] using hy
  · intro row hrow
    obtain rfl : (r.maxY, []) = row := by simpa [rectRows] using hrow
    rfl
  · intro row hrow
    simp only [rectRows, mem_cons, not_mem_nil, or_false] at hrow
    rcases hrow with rfl | rfl
    · exact ⟨by simpa using hx, by simp⟩
    · exact ⟨List.Pairwise.nil, by simp⟩
  · simp [StepTight, rectRows]

theorem pixelIn_rectRows (h : RectOk r) (p : IntPoint) :
    pixelIn (rectRows r) p = r.containsPoint p := by
  have hok := h.canonical.segments (r.y, [r.x, r.maxX]) (by simp [rectRows])
  rw [Bool.eq_iff_iff, containsPoint_iff, rectRows, pixelIn_two hok, and_comm]

namespace Represents

variable {r r' : Region} {rows rows' : List Row}

theorem ofRect {rect : IntRect} (h : RectOk rect) :
    Represents (Region.ofRect rect) (rectRows rect) where
  shape := by
    simp [Region.ofRect, Shape.ofRect, Shape.empty, Shape.appendSpan, Shape.appendSegment, Shape.ofRows, rectRows]
  canonical := h.canonical
  fits := by
    refine ⟨fun row hrow => ?_, fun x hx => ?_⟩
    · simp only [rectRows, mem_cons, not_mem_nil, or_false] at hrow
      rcases hrow with rfl | rfl
      · exact h.fitsY.1
      · exact h.fitsY.2
    · simp only [rectRows, flatSegments_cons, flatSegments_nil, append_nil, mem_cons,
        not_mem_nil, or_false] at hx
      rcases hx with rfl | rfl
      · exact h.fitsX.1
      · exact h.fitsX.2
  noBox hn := absurd hn (by simp [rectRows])
  box _ := by
    obtain ⟨hx, hy⟩ := h.lt
    have hmem : ∀ p : IntPoint, p ∈ pixels (rectRows rect) ↔
        (rect.x ≤ p.x ∧ p.x < rect.maxX) ∧ rect.y ≤ p.y ∧ p.y < rect.maxY := fun p => by
      rw [mem_pixels, pixelIn_rectRows h, containsPoint_iff]
    refine ⟨fun p hp => ?_, ?_, ?_, ?_, ?_⟩
    · rwa [mem_pixels, pixelIn_rectRows h] at hp
    · exact ⟨⟨rect.x, rect.y⟩, (hmem _).mpr (by simp only; omega), rfl⟩
    · exact ⟨⟨rect.maxX - 1, rect.y⟩, (hmem _).mpr (by simp only; omega), rfl⟩
    · exact ⟨⟨rect.x, rect.y⟩, (hmem _).mpr (by simp only; omega), rfl⟩
    · exact ⟨⟨rect.x, rect.maxY - 1⟩, (hmem _).mpr (by simp only; omega), rfl⟩

/-! ## The operations -/

variable (h : Represents r rows)
include h

theorem mergeSpans (h' : Represents r' rows') {op : Operation}
    {f : Bool → Bool → Bool} (hop : Denotes op f) :
    ∃ out, Shape.mergeSpans op r.shape r'.shape r.shape.spans r'.shape.spans [] [] Shape.empty
        = ofRows out ∧ Canonical out ∧ RowsFit out ∧ ∀ p, pixelIn out p = f (pixelIn rows p) (pixelIn rows' p) := by
  obtain ⟨out, hrun, hcan, hpix, hpla, hsegs⟩ := mergeSpans_canonical hop h.canonical h'.canonical
  refine ⟨out, by rw [h.shape, h'.shape, hrun], hcan, ⟨fun row hrow => ?_, fun x hx => ?_⟩, hpix⟩
  · rcases hpla row hrow with ⟨row', hrow', he⟩ | ⟨row', hrow', he⟩
    · rw [← he]; exact h.fits.places row' hrow'
    · rw [← he]; exact h'.fits.places row' hrow'
  · exact (hsegs x hx).elim (h.fits.segments x) (h'.fits.segments x)

omit h in
theorem setShape {out : List Row} (hc : Canonical out) (hf : RowsFit out) :
    ∃ x, Region.setShape (ofRows out) = some x ∧ Represents x out ∧ (out = [] → x.bounds = IntRect.empty) := by
  by_cases hn : out = []
  · subst hn
    exact ⟨⟨IntRect.empty, ofRows []⟩, rfl, ⟨rfl, hc, hf, fun _ => rfl, fun h => absurd rfl h⟩, fun _ => rfl⟩
  · obtain ⟨b, hb, hbox⟩ := bounds_ofRows hc hf hn
    refine ⟨⟨b, ofRows out⟩, by rw [Region.setShape, hb], ?_, fun h => absurd h hn⟩
    exact ⟨rfl, hc, hf, fun h => absurd h hn, fun _ => hbox⟩

/-- What an operation does to the pixels and to the bounds of an empty result: they are what the
    receiver's were if the receiver was empty and `IntRect()` otherwise. -/
structure Result (r x : Region) (rows out : List Row) (f : IntPoint → Bool) : Prop where
  represents : Represents x out
  pixels : ∀ p, pixelIn out p = f p
  emptyBounds : out = [] → x.bounds = IntRect.empty ∨ (rows = [] ∧ x.bounds = r.bounds)

theorem Result.same {f : IntPoint → Bool}
    (hf : ∀ p, pixelIn rows p = f p) : Result r r rows rows f :=
  ⟨h, hf, fun hn => Or.inr ⟨hn, rfl⟩⟩

variable (h' : Represents r' rows')
include h'

theorem apart (hi : r.bounds.intersects r'.bounds = false) (hp : pixelIn rows p = true) :
    pixelIn rows' p = false := by
  have hout := not_containsPoint_of_not_intersects hi (h.bounds_contain hp)
  rw [← Bool.not_eq_true]
  exact fun hp' => absurd (h'.bounds_contain hp') (by simp [hout])

theorem intersect : ∃ x out, r.intersect r' = some x ∧
      Result r x rows out fun p => pixelIn rows p && pixelIn rows' p := by
  rw [Region.intersect]
  cases he : r.bounds.isEmpty with
  | true =>
    obtain rfl : rows = [] := h.isEmpty_iff.mp he
    exact ⟨r, [], by simp, .same h fun p => by simp [pixelIn]⟩
  | false =>
    rw [if_neg (by simp)]
    cases hi : r.bounds.intersects r'.bounds with
    | false =>
      refine ⟨⟨IntRect.empty, Shape.empty⟩, [], by simp, Represents.empty, fun p => ?_, fun _ => Or.inl rfl⟩
      cases hp : pixelIn rows p with
      | false => rfl
      | true => rw [h.apart h' hi hp]; rfl
    | true =>
      rw [if_neg (by simp)]
      obtain ⟨out, hrun, hc, hf, hp⟩ := h.mergeSpans h' denotes_intersect
      obtain ⟨x, hx, hrep, hb⟩ := setShape hc hf
      refine ⟨x, out, ?_, hrep, hp, fun hn => Or.inl (hb hn)⟩
      rw [← hx, ← hrun]
      rfl

theorem subtract : ∃ x out, r.subtract r' = some x ∧
      Result r x rows out fun p => pixelIn rows p && !pixelIn rows' p := by
  rw [Region.subtract]
  cases he : r.bounds.isEmpty with
  | true =>
    obtain rfl : rows = [] := h.isEmpty_iff.mp he
    exact ⟨r, [], by simp, .same h fun p => by simp [pixelIn]⟩
  | false =>
    rw [if_neg (by simp)]
    cases he' : r'.isEmpty with
    | true =>
      obtain rfl : rows' = [] := h'.isEmpty_iff.mp he'
      exact ⟨r, rows, by simp, .same h fun p => by simp [pixelIn_nil]⟩
    | false =>
      rw [if_neg (by simp)]
      cases hi : r.bounds.intersects r'.bounds with
      | false =>
        refine ⟨r, rows, by simp, .same h fun p => ?_⟩
        cases hp : pixelIn rows p with
        | false => rfl
        | true => rw [h.apart h' hi hp]; rfl
      | true =>
        rw [if_neg (by simp)]
        obtain ⟨out, hrun, hc, hf, hp⟩ := h.mergeSpans h' denotes_subtract
        obtain ⟨x, hx, hrep, hb⟩ := setShape hc hf
        refine ⟨x, out, ?_, hrep, hp, fun hn => Or.inl (hb hn)⟩
        rw [← hx, ← hrun]
        rfl

theorem absorbs_of_isRect
    (hr : r.isRect = true) (hne' : rows' ≠ []) (hb : r.bounds.contains r'.bounds = true)
    (hp : pixelIn rows' p = true) : pixelIn rows p = true := by
  have hsub := IntRect.contains_iff.mp hb
  have hin := containsPoint_iff.mp (h'.bounds_contain hp)
  have hne : rows ≠ [] := by
    apply h.ne_nil
    rw [isEmpty_eq_false]
    have := isEmpty_eq_false.mp (h'.box hne').pos
    simp only [maxX, maxY] at hsub
    omega
  refine h.pixelIn_of_isRect hne hr ?_
  rw [containsPoint_iff]
  omega

theorem unionShapes :
    ∃ out, Shape.unionShapes r.shape r'.shape = ofRows out ∧ Canonical out ∧ RowsFit out ∧
      ∀ p, pixelIn out p = (pixelIn rows p || pixelIn rows' p) := by
  by_cases hn : rows = []
  · subst hn
    refine ⟨rows', ?_, h'.canonical, h'.fits, fun p => by simp [pixelIn_nil]⟩
    rw [Shape.unionShapes, shapeOperation, h.shape, ← h'.shape]
    rfl
  · obtain ⟨out, hrun, hc, hf, hp⟩ := h.mergeSpans h' denotes_union
    refine ⟨out, ?_, hc, hf, hp⟩
    have hne : r.shape.isEmpty = false := by
      rw [h.shape]
      simp [Shape.isEmpty, Shape.ofRows, hn]
    rw [Shape.unionShapes, shapeOperation]
    simp only [UnionOperation, hne, Bool.false_eq_true, if_false]
    exact hrun

theorem unite :
    ∃ out, Result r (r.unite r') rows out fun p => pixelIn rows p || pixelIn rows' p := by
  rw [Region.unite]
  cases he' : r'.isEmpty with
  | true =>
    obtain rfl : rows' = [] := h'.isEmpty_iff.mp he'
    exact ⟨rows, .same h fun p => by simp [pixelIn_nil]⟩
  | false =>
    have hne' : rows' ≠ [] := h'.ne_nil he'
    have habs : (∀ p, pixelIn rows' p = true → pixelIn rows p = true) →
        ∀ p, pixelIn rows p = (pixelIn rows p || pixelIn rows' p) := by
      intro hsub p
      cases hp' : pixelIn rows' p with
      | false => simp
      | true => simp [hsub p hp']
    rw [if_neg (by simp)]
    cases h1 : (r.isRect && r.bounds.contains r'.bounds) with
    | true =>
      rw [Bool.and_eq_true] at h1
      exact ⟨rows, .same h (habs fun p hp => h.absorbs_of_isRect h' h1.1 hne' h1.2 hp)⟩
    | false =>
      rw [if_neg (by simp)]
      cases h2 : (r'.isRect && r'.bounds.contains r.bounds) with
      | true =>
        rw [Bool.and_eq_true] at h2
        refine ⟨rows', h', fun p => ?_, fun hn => absurd hn hne'⟩
        cases hp : pixelIn rows p with
        | false => simp
        | true =>
          have hne : rows ≠ [] := by rintro rfl; exact absurd hp (by simp [pixelIn_nil])
          simp [h'.absorbs_of_isRect h h2.1 hne h2.2 hp]
      | false =>
        rw [if_neg (by simp)]
        cases h3 : (!r.isRect && r.contains r') with
        | true =>
          rw [Bool.and_eq_true] at h3
          exact ⟨rows, .same h (habs fun p hp => h.contains_sound h' h3.2 hp)⟩
        | false =>
          rw [if_neg (by simp)]
          obtain ⟨out, hrun, hc, hf, hp⟩ := h.unionShapes h'
          have hout : out ≠ [] := by
            obtain ⟨q, hq⟩ := (h'.box hne').nonempty
            rintro rfl
            have := hp q
            rw [mem_pixels] at hq
            rw [pixelIn_nil, hq, Bool.or_true] at this
            exact absurd this (by simp)
          refine ⟨out, ⟨hrun, hc, hf, fun hn => absurd hn hout, fun _ => ?_⟩, hp, fun hn => absurd hn hout⟩
          have hset : pixels out = pixels rows ∪ pixels rows' := by
            ext p
            simp [mem_pixels, hp p]
          rw [hset]
          by_cases hn : rows = []
          · subst hn
            have hu : r.bounds.unite r'.bounds = r'.bounds := by
              rw [IntRect.unite, if_neg (by rw [(h'.box hne').pos]; simp), if_pos (h.noBox rfl)]
            have hnone : pixels [] = ∅ := by
              ext p
              simp [pixelIn_nil]
            rw [hu, hnone, Set.empty_union]
            exact h'.box hne'
          · exact (h.box hn).unite (h'.box hne')

end Represents

/-! ## Translation -/

variable (offset : IntSize) (rows : List Row)

def translateRows : List Row :=
  rows.map fun row => (row.1 + offset.height, row.2.map (· + offset.width))

def untranslate (p : IntPoint) : IntPoint :=
  ⟨p.x - offset.width, p.y - offset.height⟩

theorem spansFrom_translateRows (n : Nat) (rows : List Row) :
    spansFrom n (translateRows offset rows) =
      (spansFrom n rows).map fun span => { span with y := span.y + offset.height } := by
  induction rows generalizing n with
  | nil => rfl
  | cons row rows ih =>
    obtain ⟨y, segs⟩ := row
    simp only [translateRows, map_cons, spansFrom_cons, length_map] at ih ⊢
    rw [ih]

theorem flatSegments_translateRows :
    flatSegments (translateRows offset rows) = (flatSegments rows).map (· + offset.width) := by
  induction rows with
  | nil => rfl
  | cons row rows ih =>
    simp only [translateRows, map_cons, flatSegments_cons, map_append] at ih ⊢
    rw [ih]

theorem translate_ofRows :
    (ofRows rows).translate offset = ofRows (translateRows offset rows) := by
  rw [Shape.translate, ofRows, ofRows, spansFrom_translateRows, flatSegments_translateRows]

theorem pixelIn_translateRows (p : IntPoint) :
    pixelIn (translateRows offset rows) p = pixelIn rows (untranslate offset p) := by
  have hstep : ∀ d : List Int, stepAt (d.map (· + offset.width)) (translateRows offset rows) p.y
      = (stepAt d rows (p.y - offset.height)).map (· + offset.width) := by
    induction rows with
    | nil => intro d; rfl
    | cons row rows ih =>
      intro d
      obtain ⟨y, segs⟩ := row
      simp only [translateRows, map_cons, stepAt] at ih ⊢
      by_cases hy : y ≤ p.y - offset.height
      · rw [if_pos hy, if_pos (by omega), ih]
      · rw [if_neg hy, if_neg (by omega)]
  have hmono : StrictMono fun x : Int => x + offset.width := fun a b hab => by
    simpa using hab
  have hx : p.x = (p.x - offset.width) + offset.width := by omega
  rw [pixelIn, pixelIn, untranslate, show ([] : List Int) = [].map (· + offset.width) from rfl,
    hstep, hx, inside_map hmono]
  simp

theorem Canonical.translateRows {rows : List Row} (h : Canonical rows) (offset : IntSize) :
    Canonical (translateRows offset rows) where
  sorted := by
    rw [StepSorted, WebV8.translateRows, pairwise_map]
    exact h.sorted.imp fun hab => by simpa using hab
  closed row hrow := by
    rw [WebV8.translateRows, List.getLast?_map, Option.map_eq_some_iff] at hrow
    obtain ⟨row', hrow', rfl⟩ := hrow
    simp [h.closed row' hrow']
  segments row hrow := by
    rw [WebV8.translateRows, mem_map] at hrow
    obtain ⟨row', hrow', rfl⟩ := hrow
    obtain ⟨hs, hl⟩ := h.segments row' hrow'
    refine ⟨?_, by simpa using hl⟩
    rw [pairwise_map]
    exact hs.imp fun hab => by simpa using hab
  tight := by
    have hinj : Function.Injective (List.map (· + offset.width)) :=
      map_injective_iff.mpr (add_left_injective offset.width)
    have hmap : [] :: (WebV8.translateRows offset rows).map Prod.snd =
        ([] :: rows.map Prod.snd).map (List.map (· + offset.width)) := by
      simp [WebV8.translateRows]
    rw [StepTight, hmap, isChain_map]
    exact h.tight.imp fun _ _ hab he => hab (hinj he)

theorem TightBox.translate {b : IntRect} {rows : List Row} (h : TightBox b (pixels rows))
    (offset : IntSize) : TightBox (b.move offset) (pixels (translateRows offset rows)) := by
  -- A pixel that touches a side still does after the move.
  have hmov : ∀ {q : IntPoint}, q ∈ pixels rows → (⟨q.x + offset.width, q.y + offset.height⟩ : IntPoint)
        ∈ pixels (translateRows offset rows) := by
    intro q hq
    rw [mem_pixels, pixelIn_translateRows, untranslate]
    simpa using hq
  refine ⟨fun p hp => ?_, ?_, ?_, ?_, ?_⟩
  · rw [mem_pixels, pixelIn_translateRows] at hp
    have := containsPoint_iff.mp (h.holds _ hp)
    rw [containsPoint_iff]
    simp only [untranslate, move_x, move_y, move_maxX, move_maxY] at this ⊢
    omega
  · obtain ⟨q, hq, he⟩ := h.left
    exact ⟨_, hmov hq, by simp [he]⟩
  · obtain ⟨q, hq, he⟩ := h.right
    refine ⟨_, hmov hq, ?_⟩
    rw [move_maxX]
    dsimp only
    omega
  · obtain ⟨q, hq, he⟩ := h.top
    exact ⟨_, hmov hq, by simp [he]⟩
  · obtain ⟨q, hq, he⟩ := h.bottom
    refine ⟨_, hmov hq, ?_⟩
    rw [move_maxY]
    dsimp only
    omega

/-- The moved coordinates are still `int`s. -/
def Region.translateFits (r : Region) (offset : IntSize) : Prop :=
  (∀ span ∈ r.shape.spans, FitsInt (span.y + offset.height)) ∧
    ∀ x ∈ r.shape.segments, FitsInt (x + offset.width)

namespace Represents

variable {r : Region} {rows : List Row}

theorem translate (h : Represents r rows) {offset : IntSize} (hfits : r.translateFits offset) :
    Represents (r.translate offset) (translateRows offset rows) where
  shape := by rw [Region.translate, h.shape, translate_ofRows]
  canonical := h.canonical.translateRows offset
  fits := by
    refine ⟨fun row hrow => ?_, fun x hx => ?_⟩
    · rw [translateRows, mem_map] at hrow
      obtain ⟨row', hrow', rfl⟩ := hrow
      have hy : row'.1 ∈ (spansFrom 0 rows).map Span.y := by
        rw [spansFrom_map_y]
        exact mem_map_of_mem hrow'
      obtain ⟨span, hspan, he⟩ := mem_map.mp hy
      rw [← he]
      exact hfits.1 span (by rw [h.shape]; exact hspan)
    · rw [flatSegments_translateRows, mem_map] at hx
      obtain ⟨x', hx', rfl⟩ := hx
      exact hfits.2 x' (by rw [h.shape]; exact hx')
  noBox hn := by
    obtain rfl : rows = [] := map_eq_nil_iff.mp hn
    exact h.noBox rfl
  box hn := (h.box fun he => hn (by rw [he]; rfl)).translate offset

end Represents

end WebV8
