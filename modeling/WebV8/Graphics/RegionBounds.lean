import WebV8.Graphics.RegionMerge

/-!
# Bounding boxes

`Shape::bounds()` walks over the spans and reads, for each, the first segment of the span and the
one just before the segments of the next span. For a span without segments in the middle of the
shape these belong to its neighbours, and for one at the top the second read would lie before the
vector. On canonical rows neither does harm: every read stays inside the vector and what is read
is always some segment of the shape (`boundsLoop_itAt`), so the result is the tight box of the
pixels (`bounds_ofRows`).
-/

namespace WebV8

open Lib Shape List IntRect

/-! ## Tight boxes -/

/-- The rectangle holds every point of the set and each of its four sides is touched by one. -/
structure TightBox (r : IntRect) (S : Set IntPoint) : Prop where
  holds : ∀ p ∈ S, r.containsPoint p = true
  left : ∃ p ∈ S, p.x = r.x
  right : ∃ p ∈ S, p.x = r.maxX - 1
  top : ∃ p ∈ S, p.y = r.y
  bottom : ∃ p ∈ S, p.y = r.maxY - 1

namespace TightBox

variable {r r' : IntRect} {S S' : Set IntPoint}

theorem nonempty (h : TightBox r S) : S.Nonempty :=
  let ⟨p, hp, _⟩ := h.left
  ⟨p, hp⟩

theorem pos (h : TightBox r S) : r.isEmpty = false := by
  obtain ⟨p, hp, -⟩ := h.left
  have hc := containsPoint_iff.mp (h.holds p hp)
  rw [isEmpty_eq_false]
  simp only [maxX, maxY] at hc
  omega

theorem le (h : TightBox r S) (h' : ∀ p ∈ S, r'.containsPoint p = true) :
    r'.x ≤ r.x ∧ r.maxX ≤ r'.maxX ∧ r'.y ≤ r.y ∧ r.maxY ≤ r'.maxY := by
  obtain ⟨pl, hpl, el⟩ := h.left
  obtain ⟨pr, hpr, er⟩ := h.right
  obtain ⟨pt, hpt, et⟩ := h.top
  obtain ⟨pb, hpb, eb⟩ := h.bottom
  have hl := containsPoint_iff.mp (h' pl hpl)
  have hr := containsPoint_iff.mp (h' pr hpr)
  have ht := containsPoint_iff.mp (h' pt hpt)
  have hb := containsPoint_iff.mp (h' pb hpb)
  omega

theorem unique (h : TightBox r S) (h' : TightBox r' S) : r = r' := by
  have hle := h.le h'.holds
  have hge := h'.le h.holds
  simp only [maxX, maxY, IntRect.x, IntRect.y, IntRect.width, IntRect.height] at hle hge
  obtain ⟨⟨x, y⟩, ⟨w, hgt⟩⟩ := r
  obtain ⟨⟨x', y'⟩, ⟨w', hgt'⟩⟩ := r'
  simp only [IntRect.mk.injEq, IntPoint.mk.injEq, IntSize.mk.injEq] at *
  omega

theorem exists_union {f : IntPoint → Int} {a b c : Int} (hc : c = a ∨ c = b) (h : ∃ p ∈ S, f p = a)
    (h' : ∃ p ∈ S', f p = b) : ∃ p ∈ S ∪ S', f p = c := by
  rcases hc with rfl | rfl
  · exact h.imp fun p hp => ⟨Or.inl hp.1, hp.2⟩
  · exact h'.imp fun p hp => ⟨Or.inr hp.1, hp.2⟩

theorem unite (h : TightBox r S) (h' : TightBox r' S') : TightBox (r.unite r') (S ∪ S') := by
  have hx : (r.unite r').x = min r.x r'.x := by simp [IntRect.unite, h.pos, h'.pos, IntRect.x]
  have hy : (r.unite r').y = min r.y r'.y := by simp [IntRect.unite, h.pos, h'.pos, IntRect.y]
  have hmx : (r.unite r').maxX = max r.maxX r'.maxX := by
    rw [maxX, hx]
    simp [IntRect.unite, h.pos, h'.pos, IntRect.width]
  have hmy : (r.unite r').maxY = max r.maxY r'.maxY := by
    rw [maxY, hy]
    simp [IntRect.unite, h.pos, h'.pos, IntRect.height]
  constructor
  · intro p hp
    rw [containsPoint_iff, hx, hy, hmx, hmy]
    rcases hp with hp | hp
    · have := containsPoint_iff.mp (h.holds p hp); omega
    · have := containsPoint_iff.mp (h'.holds p hp); omega
  · exact exists_union (by omega) h.left h'.left
  · exact exists_union (by omega) h.right h'.right
  · exact exists_union (by omega) h.top h'.top
  · exact exists_union (by omega) h.bottom h'.bottom

end TightBox

/-! ## The pixels of a row list -/

def pixels (rows : List Row) : Set IntPoint := {p | pixelIn rows p = true}

variable {rows : List Row} {x : Int} {segs before : List Int}

@[simp] theorem mem_pixels {p : IntPoint} : p ∈ pixels rows ↔ pixelIn rows p = true := Iff.rfl

theorem pixelIn_nil (p : IntPoint) : pixelIn [] p = false := rfl

theorem inside_head (h : (x :: segs).Pairwise (· < ·)) : inside (x :: segs) x = true := by
  rw [inside_cons, decide_eq_true le_rfl, inside_of_lt (pairwise_cons.mp h).1]
  rfl

theorem inside_pred_last (h : SegmentsOk (segs ++ [x])) : inside (segs ++ [x]) (x - 1) = true := by
  have hlt : ∀ a ∈ segs, a ≤ x - 1 := fun a ha => by
    have := (pairwise_append.mp h.1).2.2 a ha x (by simp)
    omega
  have hodd : segs.length % 2 = 1 := by
    have := h.2
    rw [length_append, length_singleton] at this
    omega
  rw [inside_append, inside_of_le hlt, hodd]
  simp

theorem inside_least (h : SegmentsOk segs) (hx : x ∈ segs) (hle : ∀ a ∈ segs, x ≤ a) :
    inside segs x = true := by
  cases segs with
  | nil => exact absurd hx (by simp)
  | cons a segs =>
    obtain rfl : x = a := by
      rcases mem_cons.mp hx with hm | hm
      · exact hm
      · exact absurd ((pairwise_cons.mp h.1).1 x hm) (not_lt.mpr (hle a (by simp)))
    exact inside_head h.1

theorem inside_pred_greatest (h : SegmentsOk segs) (hx : x ∈ segs) (hle : ∀ a ∈ segs, a ≤ x) :
    inside segs (x - 1) = true := by
  rcases eq_nil_or_concat' segs with rfl | ⟨init, b, rfl⟩
  · exact absurd hx (by simp)
  · obtain rfl : x = b := by
      rcases mem_append.mp hx with hm | hm
      · exact absurd ((pairwise_append.mp h.1).2.2 x hm b (by simp)) (not_lt.mpr (hle b (by simp)))
      · simpa using hm
    exact inside_pred_last h

theorem exists_inside (h : SegmentsOk segs) (hne : segs ≠ []) : ∃ x, inside segs x = true := by
  cases segs with
  | nil => exact absurd rfl hne
  | cons x segs => exact ⟨x, inside_head h.1⟩

/-! ## The loop of `bounds()` -/

/-- The segment at the index where a row's segments begin: the row's first one, or for an empty
    row the next one of the shape. -/
theorem firstSegment_read {rest : List Int} (hs : segs.Pairwise (· < ·))
    (hlt : before.length < (before ++ (segs ++ rest)).length) :
    ∃ a ∈ before ++ (segs ++ rest), (before ++ (segs ++ rest))[before.length]? = some a ∧ ∀ x ∈ segs, a ≤ x := by
  rw [List.getElem?_append_right le_rfl, Nat.sub_self]
  cases segs with
  | nil =>
    cases rest with
    | nil => simp at hlt
    | cons a rest => exact ⟨a, by simp, rfl, by simp⟩
  | cons a segs =>
    refine ⟨a, by simp, rfl, fun x hx => ?_⟩
    rcases mem_cons.mp hx with rfl | hx
    · exact le_rfl
    · exact ((pairwise_cons.mp hs).1 x hx).le

/-- The segment just before the index where a row's segments end: the row's last one, or for an
    empty row the one before it in the shape. -/
theorem lastSegment_read (rest : List Int) (hs : segs.Pairwise (· < ·)) (hne : before.length + segs.length ≠ 0) :
    ∃ b ∈ before ++ (segs ++ rest), (before ++ (segs ++ rest))[before.length + segs.length - 1]? = some b ∧
      ∀ x ∈ segs, x ≤ b := by
  rw [← append_assoc]
  rcases eq_nil_or_concat' segs with rfl | ⟨init, b, rfl⟩
  · rcases eq_nil_or_concat' before with rfl | ⟨init, b, rfl⟩
    · simp at hne
    · exact ⟨b, by simp, by simp, by simp⟩
  · refine ⟨b, by simp, ?_, fun x hx => ?_⟩
    · have hlen : before.length + (init ++ [b]).length - 1 = (before ++ init).length := by simp
      rw [hlen]
      simp
    · rcases mem_append.mp hx with hx | hx
      · exact ((pairwise_append.mp hs).2.2 x hx b (by simp)).le
      · simp at hx; omega

/-- The reads of the loop stay inside the segment vector, and its two results are the extreme
    ones among the starting values and the segments it has seen. The hypothesis `hfirst` is what
    the code relies on: an empty row never stands at the top. -/
theorem boundsLoop_itAt (before rows : List Row) (minX maxX : Int) (h : RowsOk rows)
    (hfst : flatSegments before ≠ [] ∨ ∀ r, rows.head? = some r → r.2 ≠ []) :
    ∃ mn mx, (ofRows (before ++ rows)).boundsLoop (itAt before rows) minX maxX = some (mn, mx) ∧
      (mn ≤ minX ∧ maxX ≤ mx) ∧ (∀ x ∈ flatSegments rows, mn ≤ x ∧ x ≤ mx) ∧
      (mn = minX ∨ mn ∈ flatSegments (before ++ rows)) ∧ (mx = maxX ∨ mx ∈ flatSegments (before ++ rows)) := by
  induction rows generalizing before minX maxX with
  | nil => exact ⟨minX, maxX, rfl, ⟨le_rfl, le_rfl⟩, by simp, Or.inl rfl, Or.inl rfl⟩
  | cons r rows ih =>
    obtain ⟨y, segs⟩ := r
    cases rows with
    | nil =>
      obtain rfl : segs = [] := h.closed_head rfl
      exact ⟨minX, maxX, rfl, ⟨le_rfl, le_rfl⟩, by simp, Or.inl rfl, Or.inl rfl⟩
    | cons r' rows =>
      obtain ⟨y', segs'⟩ := r'
      have hs := (h.segments (y, segs) (by simp)).1
      have hnext : flatSegments (before ++ [(y, segs)]) ≠ []
          ∨ ∀ r, ((y', segs') :: rows).head? = some r → r.2 ≠ [] := by
        left
        rcases hfst with hb | hf
        · simp [hb]
        · have := hf (y, segs) rfl
          simp_all
      have hflat : (ofRows (before ++ (y, segs) :: (y', segs') :: rows)).segments
          = flatSegments before ++ (segs ++ flatSegments ((y', segs') :: rows)) := by
        simp [Shape.ofRows]
      have hrec := fun a b => ih (before ++ [(y, segs)]) a b h.tail hnext
      simp only [append_assoc, singleton_append] at hrec
      by_cases hz : (flatSegments before).length
          = (ofRows (before ++ (y, segs) :: (y', segs') :: rows)).segments.length
      · -- No segment is left in the vector: the code skips the span.
        have hemp : segs = [] := by
          rw [hflat, length_append, length_append] at hz
          exact eq_nil_of_length_eq_zero (by omega)
        subst hemp
        obtain ⟨mn, mx, he, hle, hall, hmn, hmx⟩ := hrec minX maxX
        refine ⟨mn, mx, ?_, hle, ?_, hmn, hmx⟩
        · rw [← he]
          simp only [itAt, spansFrom_cons, boundsLoop, segmentsBegin, if_pos hz, length_nil,
            Nat.add_zero, flatSegments_append, flatSegments_cons, flatSegments_nil,
            append_nil]
        · rw [flatSegments_cons, nil_append]
          exact hall
      · have hlt : (flatSegments before).length
            < (flatSegments before ++ (segs ++ flatSegments ((y', segs') :: rows))).length := by
          rw [← hflat]
          refine lt_of_le_of_ne ?_ hz
          rw [hflat, length_append]
          omega
        have hend : (flatSegments before).length + segs.length ≠ 0 := by
          rcases hfst with hb | hf
          · have := length_pos_iff.mpr hb; omega
          · have := length_pos_iff.mpr (hf (y, segs) rfl); simp only at this; omega
        obtain ⟨a, ha, hra, hla⟩ := firstSegment_read hs hlt
        obtain ⟨b, hb, hrb, hlb⟩ := lastSegment_read (flatSegments ((y', segs') :: rows)) hs hend
        rw [← hflat] at ha hra hb hrb
        obtain ⟨mn, mx, he, hle, hall, hmn, hmx⟩ := hrec (if a < minX then a else minX) (if b > maxX then b else maxX)
        refine ⟨mn, mx, ?_, ?_, ?_, ?_, ?_⟩
        · rw [← he]
          simp only [itAt, spansFrom_cons, boundsLoop, segmentsBegin, segmentsEnd, if_neg hz,
            if_neg hend, hra, hrb, flatSegments_append, flatSegments_cons, flatSegments_nil,
            append_nil, length_append]
        · split_ifs at hle <;> omega
        · intro x hx
          rw [flatSegments_cons] at hx
          rcases mem_append.mp hx with hx | hx
          · have h1 := hla x hx
            have h2 := hlb x hx
            split_ifs at hle <;> omega
          · exact hall x hx
        · split_ifs at hmn
          · exact Or.inr (hmn.elim (fun he => he ▸ ha) id)
          · exact hmn
        · split_ifs at hmx
          · exact Or.inr (hmx.elim (fun he => he ▸ hb) id)
          · exact hmx

/-- Every coordinate of the rows is an `int`. -/
structure RowsFit (rows : List Row) : Prop where
  places : ∀ r ∈ rows, FitsInt r.1
  segments : ∀ x ∈ flatSegments rows, FitsInt x

/-! ### Where the extreme coordinates of canonical rows are -/

theorem Canonical.shape (h : Canonical rows) (hne : rows ≠ []) :
    ∃ first mid last, rows = first :: (mid ++ [last]) ∧ first.2 ≠ [] ∧ last.2 = [] := by
  cases rows with
  | nil => exact absurd rfl hne
  | cons first rows =>
    have hf : first.2 ≠ [] := h.tight.head_ne
    rcases eq_nil_or_concat' rows with rfl | ⟨mid, last, rfl⟩
    · exact absurd (h.closed first rfl) hf
    · refine ⟨first, mid, last, rfl, hf, h.closed last ?_⟩
      rw [← cons_append, List.getLast?_concat]

theorem pixelIn_of_row (h : StepSorted rows) {r : Row} (hr : r ∈ rows)
    (hx : inside r.2 x = true) : pixelIn rows ⟨x, r.1⟩ = true := by
  rw [pixelIn, stepAt_self h hr]
  exact hx

theorem RowsOk.exists_bottom {d : List Int} {init : List Row} {last : Row}
    (h : RowsOk (init ++ [last])) (ht : StepTight d (init ++ [last])) (hne : init ≠ []) :
    ∃ x, pixelIn (init ++ [last]) ⟨x, last.1 - 1⟩ = true := by
  obtain ⟨init', r, rfl⟩ := (eq_nil_or_concat' init).resolve_left hne
  have hlt : ∀ r' ∈ init' ++ [r], r'.1 < last.1 := fun r' hr' =>
    (pairwise_append.mp h.sorted).2.2 r' hr' last (by simp)
  have hlt' : ∀ r' ∈ init', r'.1 < r.1 := fun r' hr' =>
    (pairwise_append.mp (pairwise_append.mp h.sorted).1).2.2 r' hr' r (by simp)
  have hrla : r.1 ≤ last.1 - 1 := by have := hlt r (by simp); omega
  have hstep : stepAt [] (init' ++ [r] ++ [last]) (last.1 - 1) = r.2 := by
    rw [show last = (last.1, last.2) from rfl, stepAt_concat hlt, if_neg (by simp),
      show r = (r.1, r.2) from rfl, stepAt_concat hlt', if_pos hrla]
  -- Neighbouring rows differ, so the row before the empty last one is not empty.
  have hrne : r.2 ≠ [] := by
    have hl : last.2 = [] := h.closed last (by simp)
    rw [StepTight, map_append, map_append, map_singleton, map_singleton,
      ← cons_append, ← cons_append, append_assoc, isChain_append] at ht
    have := ht.2.1
    simp only [singleton_append, isChain_cons_cons, hl] at this
    exact this.1
  obtain ⟨x, hx⟩ := exists_inside (h.segments r (by simp)) hrne
  exact ⟨x, by rw [pixelIn, hstep]; exact hx⟩

/-- **`bounds()` of canonical rows reads nothing outside its vectors and is the tight box.** -/
theorem bounds_ofRows (h : Canonical rows) (hfit : RowsFit rows)
    (hne : rows ≠ []) : ∃ r, (ofRows rows).bounds = some r ∧ TightBox r (pixels rows) := by
  obtain ⟨first, mid, last, rfl, hf, hl⟩ := h.shape hne
  have hfst : ∀ r, (first :: (mid ++ [last])).head? = some r → r.2 ≠ [] := by
    intro r hr
    obtain rfl : first = r := by simpa using hr
    exact hf
  obtain ⟨mn, mx, he, hle, hall, hmn, hmx⟩ := boundsLoop_itAt [] _ intMax intMin h.toRowsOk (Or.inr hfst)
  rw [nil_append, ← ofRows_spans] at he
  rw [nil_append] at hmn hmx
  -- Some segment exists and all of them are `int`s, so the starting values are never the result.
  obtain ⟨x₀, hx₀⟩ := exists_mem_of_ne_nil first.2 hf
  have hx₀' : x₀ ∈ flatSegments (first :: (mid ++ [last])) := by
    rw [flatSegments_cons]; exact mem_append_left _ hx₀
  obtain ⟨hmn₀, hmx₀⟩ := hall x₀ hx₀'
  obtain ⟨hge, hle₀⟩ := hfit.segments x₀ hx₀'
  have hmn' : mn ∈ flatSegments (first :: (mid ++ [last])) := by
    rcases hmn with hm | hm
    · rwa [show mn = x₀ by omega]
    · exact hm
  have hmx' : mx ∈ flatSegments (first :: (mid ++ [last])) := by
    rcases hmx with hm | hm
    · rwa [show mx = x₀ by omega]
    · exact hm
  have hlast : ((ofRows (first :: (mid ++ [last]))).spans.getLast?).map Span.y = some last.1 := by
    rw [← cons_append, ofRows_spans, itAt, spansFrom_append]
    obtain ⟨y, segs⟩ := last
    simp
  have hhead : ((ofRows (first :: (mid ++ [last]))).spans.head?).map Span.y = some first.1 := by
    obtain ⟨y, segs⟩ := first
    simp [ofRows_spans, itAt]
  refine ⟨⟨⟨mn, first.1⟩, ⟨mx - mn, last.1 - first.1⟩⟩, ?_, ?_⟩
  · obtain ⟨sl, hsl, hyl⟩ := Option.map_eq_some_iff.mp hlast
    obtain ⟨sf, hsf, hyf⟩ := Option.map_eq_some_iff.mp hhead
    rw [Shape.bounds, hsl, hsf]
    dsimp only
    rw [he, hyl, hyf]
  · have hin : ∀ y x, inside (stepAt [] (first :: (mid ++ [last])) y) x = true →
        mn ≤ x ∧ x < mx := by
      intro y x hx
      obtain ⟨a, ha, hax⟩ := exists_le_of_inside hx
      obtain ⟨b, hb, hxb⟩ := exists_lt_of_inside (h.stepAt_segments y).2 hx
      exact ⟨(hall a (mem_flatSegments ha)).1.trans hax, hxb.trans_le (hall b (mem_flatSegments hb)).2⟩
    obtain ⟨rn, hrn, hmnr⟩ := mem_flatMap.mp hmn'
    obtain ⟨rx, hrx, hmxr⟩ := mem_flatMap.mp hmx'
    constructor
    · intro p hp
      rw [mem_pixels, pixelIn] at hp
      have hx := hin p.y p.x hp
      rw [containsPoint_iff]
      simp only [IntRect.x, IntRect.y, maxX, maxY, IntRect.width, IntRect.height]
      refine ⟨by omega, ?_, ?_⟩
      · by_contra hlt
        rw [show first = (first.1, first.2) from rfl, stepAt_cons_of_lt (not_le.mp hlt)] at hp
        exact absurd hp (by simp)
      · by_contra hge
        rw [h.stepAt_end] at hp
        · exact absurd hp (by simp)
        · intro r hr
          rw [← cons_append] at hr
          rcases mem_append.mp hr with hr | hr
          · have hs := h.sorted
            rw [StepSorted, ← cons_append] at hs
            have := (pairwise_append.mp hs).2.2 r hr last (by simp)
            omega
          · obtain rfl : r = last := by simpa using hr
            omega
    · exact ⟨⟨mn, rn.1⟩, pixelIn_of_row h.sorted hrn (inside_least (h.segments rn hrn) hmnr
        fun a ha => (hall a (mem_flatMap.mpr ⟨rn, hrn, ha⟩)).1), rfl⟩
    · exact ⟨⟨mx - 1, rx.1⟩, pixelIn_of_row h.sorted hrx (inside_pred_greatest (h.segments rx hrx) hmxr
        fun a ha => (hall a (mem_flatMap.mpr ⟨rx, hrx, ha⟩)).2),
        by simp [maxX, IntRect.x, IntRect.width]⟩
    · obtain ⟨x, hx⟩ := exists_inside (h.segments first (by simp)) hf
      exact ⟨⟨x, first.1⟩, pixelIn_of_row h.sorted (by simp) hx, rfl⟩
    · have hc : Canonical ((first :: mid) ++ [last]) := cons_append ▸ h
      obtain ⟨x, hx⟩ := hc.toRowsOk.exists_bottom hc.tight (by simp)
      exact ⟨⟨x, last.1 - 1⟩, hx, by simp [maxY, IntRect.y, IntRect.height]⟩

end WebV8
