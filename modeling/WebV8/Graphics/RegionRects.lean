import WebV8.Graphics.RegionInclusion

/-!
# A region as rectangles

`rects()` cuts a shape along its spans and segments. The rectangles of canonical rows are disjoint
and have pixels, and together they are the region, so `totalArea()` counts its pixels.
-/

namespace WebV8

open Lib Shape List IntRect

def rowRects : List Row → List IntRect
  | (y, segs) :: (y', segs') :: rows =>
    segmentRects y (y' - y) segs ++ rowRects ((y', segs') :: rows)
  | _ => []

theorem rectsLoop_itAt (before rows : List Row) :
    (ofRows (before ++ rows)).rectsLoop (itAt before rows) = rowRects rows := by
  induction rows generalizing before with
  | nil => rfl
  | cons r rows ih =>
    obtain ⟨y, segs⟩ := r
    cases rows with
    | nil => rw [itAt_cons, itAt_nil]; rfl
    | cons r' rows =>
      obtain ⟨y', segs'⟩ := r'
      have hseg := segmentsOf_itAt before y segs ((y', segs') :: rows) (by simp)
      have htail := ih (before ++ [(y, segs)])
      rw [append_assoc, singleton_append, itAt_cons] at htail
      rw [itAt_cons, itAt_cons] at hseg ⊢
      rw [rectsLoop, hseg, htail, rowRects]

structure Tiles (rects : List IntRect) (S : Set IntPoint) : Prop where
  pos : ∀ rect ∈ rects, 0 < rect.width ∧ 0 < rect.height
  disjoint : rects.Pairwise fun a b => ∀ p, a.containsPoint p = true → b.containsPoint p = false
  union : ∀ p, p ∈ S ↔ ∃ rect ∈ rects, rect.containsPoint p = true

theorem Tiles.nil : Tiles [] ∅ := ⟨by simp, List.Pairwise.nil, by simp⟩

theorem Tiles.append {as bs : List IntRect} {S T : Set IntPoint} (ha : Tiles as S)
    (hb : Tiles bs T) (hST : Disjoint S T) : Tiles (as ++ bs) (S ∪ T) where
  pos rect hrect := (mem_append.mp hrect).elim (ha.pos rect) (hb.pos rect)
  disjoint := by
    refine pairwise_append.mpr ⟨ha.disjoint, hb.disjoint, fun a hma b hmb p hpa => ?_⟩
    rw [← Bool.not_eq_true]
    intro hpb
    exact hST.ne_of_mem ((ha.union p).mpr ⟨a, hma, hpa⟩) ((hb.union p).mpr ⟨b, hmb, hpb⟩) rfl
  union p := by
    rw [Set.mem_union, ha.union, hb.union]
    simp only [mem_append, or_and_right, exists_or]

theorem tiles_single {rect : IntRect} (h : 0 < rect.width ∧ 0 < rect.height) :
    Tiles [rect] {p | rect.containsPoint p = true} :=
  ⟨by simpa using h, pairwise_singleton _ _, by simp⟩

def spanPixels (y y' : Int) (segs : List Int) : Set IntPoint :=
  {p | (y ≤ p.y ∧ p.y < y') ∧ inside segs p.x = true}

theorem tiles_segmentRects {y y' : Int} (hy : y < y') :
    ∀ {segs : List Int}, SegmentsOk segs → Tiles (segmentRects y (y' - y) segs) (spanPixels y y' segs)
  | [], _ => by simpa [segmentRects, spanPixels] using Tiles.nil
  | [_], h => absurd h.2 (by simp)
  | a :: b :: segs, h => by
    have hab : a < b := (pairwise_cons.mp h.1).1 b (by simp)
    have hfst : ∀ p : IntPoint, (⟨⟨a, y⟩, ⟨b - a, y' - y⟩⟩ : IntRect).containsPoint p = true ↔
        (a ≤ p.x ∧ p.x < b) ∧ y ≤ p.y ∧ p.y < y' := by
      intro p
      rw [containsPoint_iff]
      simp only [maxX, maxY, IntRect.x, IntRect.y, IntRect.width, IntRect.height]
      omega
    have huni : spanPixels y y' (a :: b :: segs) =
        {p | (⟨⟨a, y⟩, ⟨b - a, y' - y⟩⟩ : IntRect).containsPoint p = true} ∪ spanPixels y y' segs := by
      ext p
      simp only [spanPixels, Set.mem_union, Set.mem_ofPred_eq, hfst, inside_cons₂ h]
      tauto
    have hpos : 0 < (⟨⟨a, y⟩, ⟨b - a, y' - y⟩⟩ : IntRect).width ∧
        0 < (⟨⟨a, y⟩, ⟨b - a, y' - y⟩⟩ : IntRect).height := ⟨Int.sub_pos.mpr hab, Int.sub_pos.mpr hy⟩
    rw [huni, segmentRects, ← singleton_append]
    refine (tiles_single hpos).append (tiles_segmentRects hy h.tail₂) (Set.disjoint_left.mpr fun p hp hq => ?_)
    have := lt_of_inside_rest h hq.2
    have := (hfst p).mp hp
    omega

/-- **The rectangles of the rows are their pixels.** -/
theorem tiles_rowRects : ∀ {rows : List Row}, RowsOk rows → Tiles (rowRects rows) (pixels rows)
  | [], _ => by simpa [pixels, pixelIn, rowRects] using Tiles.nil
  | [(y, segs)], h => by
    obtain rfl : segs = [] := h.closed_head rfl
    simpa [pixels, pixelIn, stepAt, rowRects] using Tiles.nil
  | (y, segs) :: (y', segs') :: rows, h => by
    have hy : y < y' := h.head_lt
    have huni : pixels ((y, segs) :: (y', segs') :: rows) =
        spanPixels y y' segs ∪ pixels ((y', segs') :: rows) := by
      ext p
      rw [Set.mem_union, mem_pixels, mem_pixels]
      constructor
      · intro hp
        by_cases hle : y' ≤ p.y
        · exact Or.inr (pixelIn_tail h hp hle)
        · have hge : y ≤ p.y := startsBy_cons.mp (Represents.startsBy_of_pixel hp)
          rw [pixelIn, stepAt_first hge (not_le.mp hle)] at hp
          exact Or.inl ⟨⟨hge, not_le.mp hle⟩, hp⟩
      · rintro (⟨⟨hge, hlt⟩, hp⟩ | hp)
        · rw [pixelIn, stepAt_first hge hlt]
          exact hp
        · exact pixelIn_of_tail h hp
    rw [huni, rowRects]
    refine (tiles_segmentRects hy (h.segments (y, segs) (by simp))).append (tiles_rowRects h.tail)
      (Set.disjoint_left.mpr fun p hp hq => ?_)
    have hle : y' ≤ p.y := startsBy_cons.mp (Represents.startsBy_of_pixel hq)
    exact absurd hp.1.2 (not_lt.mpr hle)

/-! ## Areas -/

theorem IntRect.points_eq (r : IntRect) : {p | r.containsPoint p = true} =
    (fun q : Int × Int => IntPoint.mk q.1 q.2) ''
      (Finset.Ico r.x r.maxX ×ˢ Finset.Ico r.y r.maxY : Finset (Int × Int)) := by
  ext ⟨x, y⟩
  simp [containsPoint_iff]

theorem IntRect.finite_points (r : IntRect) : {p | r.containsPoint p = true}.Finite := by
  rw [points_eq]
  exact (Finset.finite_toSet _).image _

theorem IntRect.ncard_points {r : IntRect} (h : 0 < r.width ∧ 0 < r.height) :
    ({p | r.containsPoint p = true}.ncard : Int) = r.width * r.height := by
  have hinj : Function.Injective fun q : Int × Int => IntPoint.mk q.1 q.2 := by
    intro q q' hq
    exact Prod.ext (congrArg IntPoint.x hq) (congrArg IntPoint.y hq)
  rw [points_eq, Set.ncard_image_of_injective _ hinj, Set.ncard_coe_finset, Finset.card_product,
    Int.card_Ico, Int.card_Ico, Nat.cast_mul, maxX, maxY, add_sub_cancel_left, add_sub_cancel_left,
    Int.toNat_of_nonneg h.1.le, Int.toNat_of_nonneg h.2.le]

theorem Tiles.area {rects : List IntRect} {S : Set IntPoint} (h : Tiles rects S) (total : Nat)
    (htot : total < 2 ^ 32) :
    rects.foldl (fun total rect => (total + (rect.width * rect.height % 2 ^ 32).toNat) % 2 ^ 32)
      total = (total + S.ncard) % 2 ^ 32 := by
  induction rects generalizing total S with
  | nil =>
    obtain rfl : S = ∅ := Set.eq_empty_of_forall_notMem fun p hp => by simpa using (h.union p).mp hp
    rw [foldl_nil, Set.ncard_empty, Nat.add_zero, Nat.mod_eq_of_lt htot]
  | cons rect rects ih =>
    have hrest : Tiles rects {p | ∃ rect ∈ rects, rect.containsPoint p = true} :=
      ⟨fun rect' hmem => h.pos rect' (by simp [hmem]), (pairwise_cons.mp h.disjoint).2, fun p => Iff.rfl⟩
    have hS : S = {p | rect.containsPoint p = true} ∪
        {p | ∃ rect ∈ rects, rect.containsPoint p = true} := by
      ext p
      rw [h.union]
      simp
    have hapa : Disjoint {p | rect.containsPoint p = true}
        {p | ∃ rect ∈ rects, rect.containsPoint p = true} := by
      refine Set.disjoint_left.mpr fun p hp hq => ?_
      obtain ⟨rect', hmem, hq⟩ := hq
      rw [(pairwise_cons.mp h.disjoint).1 rect' hmem p hp] at hq
      exact absurd hq (by simp)
    have hfin : {p | ∃ rect ∈ rects, rect.containsPoint p = true}.Finite := by
      have huni : {p | ∃ rect ∈ rects, rect.containsPoint p = true} =
          ⋃ rect ∈ {rect | rect ∈ rects}, {p | rect.containsPoint p = true} := by
        ext p
        simp
      rw [huni]
      exact rects.finite_toSet.biUnion fun rect _ => rect.finite_points
    have hcard := ncard_points (h.pos rect (by simp))
    rw [foldl_cons, ih hrest _ (Nat.mod_lt _ (by decide)), hS,
      Set.ncard_union_eq hapa rect.finite_points hfin, ← hcard]
    omega

/-! ## Regions -/

/-- `rects()` tiles the region and `totalArea()` counts its pixels. -/
structure Decomposes (r : Region) : Prop where
  tiles : Tiles r.rects {p | r.containsPoint p = true}
  area : r.totalArea = {p | r.containsPoint p = true}.ncard % 2 ^ 32

theorem Represents.decomposes {r : Region} {rows : List Row} (h : Represents r rows) : Decomposes r := by
  have hset : {p | r.containsPoint p = true} = pixels rows := by
    ext p
    rw [Set.mem_ofPred_eq, h.containsPoint, mem_pixels]
  have htil : Tiles r.rects (pixels rows) := by
    rw [Region.rects, h.shape]
    exact rectsLoop_itAt [] rows ▸ tiles_rowRects h.canonical.toRowsOk
  refine ⟨hset ▸ htil, ?_⟩
  rw [hset, Region.totalArea, htil.area 0 (by decide), Nat.zero_add]

variable {ι : Type*} [DecidableEq ι]

/-- **In every program that starts from rectangles with pixels, `rects()` cuts every region into
    disjoint rectangles with pixels, and `totalArea()` is the number of its pixels.** -/
theorem region_run_decomposes (start : ι → Option IntRect) (hstart : StartOk start)
    (ops : List (RegionOp ι)) (hfits : EachStep regionStep StepFits (regionStart start) ops) :
    ∃ s, run regionStep (regionStart start) ops = some s ∧ ∀ i, Decomposes (s i) := by
  obtain ⟨s, hrun, hden⟩ := run_simulates
    (fun _ _ op hR hQ => hR.step op hQ) ops hstart.denotes hfits
  refine ⟨s, hrun, fun i => ?_⟩
  obtain ⟨rows, hr, -⟩ := hden i
  exact hr.decomposes

theorem region_run_decomposes_rect : ∃ s, run regionStep (regionStart fun _ : Unit => some ⟨⟨0, 0⟩, ⟨10, 10⟩⟩)
      [.translate () ⟨-3, 4⟩] = some s ∧ ∀ i, Decomposes (s i) := by
  refine region_run_decomposes _ ?_ _ ⟨⟨by decide, by decide⟩, fun _ _ => trivial⟩
  intro i rect hrect
  obtain rfl : (⟨⟨0, 0⟩, ⟨10, 10⟩⟩ : IntRect) = rect := by simpa using hrect
  exact ⟨by decide, by decide, by decide, by decide⟩

/-- The region of a rectangle without width is cut into that rectangle. -/
theorem empty_rect_in_rects : ∃ s, run regionStep (regionStart fun _ : Unit => some ⟨⟨0, 0⟩, ⟨0, 5⟩⟩) [] = some s ∧
      ¬ Decomposes (s ()) := by
  refine ⟨_, rfl, fun h => ?_⟩
  have := (h.tiles.pos ⟨⟨0, 0⟩, ⟨0, 5⟩⟩ (by decide +kernel)).1
  exact absurd this (by decide)

end WebV8
