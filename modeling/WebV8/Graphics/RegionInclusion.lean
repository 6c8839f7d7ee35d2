import WebV8.Graphics.RegionRun

/-!
# Inclusion and intersection tests

`contains(const Region&)` and `intersects(const Region&)` scan both shapes once, from the top, and
stop at the first thing that decides the answer. Here the two scans are shown to decide set
inclusion and whether two sets meet.

For `contains` one half is `compareRows_sound`. The other half is about what stops the scan. Inside
overlapping spans that is a segment of the second shape that starts before the current one of the
first. Between spans it is the flag `aHadSegmentInPreviousSpan`, and it has to be shown that
whenever the second shape's span starts higher, the flag speaks of a row the two spans share
(`Scan`).

The shape of `Region(rect)` has two segments also when the rectangle is empty. A later `unite` of
such a region keeps them, and a scan then takes them for pixels; the runs below start from
rectangles with pixels.
-/

namespace WebV8

open Lib Shape List Option Represents

/-! ## Segments -/

theorem head_le_of_inside {aX aMaxX bX bMaxX : Int} {as bs : List Int}
    (ha : SegmentsOk (aX :: aMaxX :: as)) (hb : SegmentsOk (bX :: bMaxX :: bs))
    (hsub : ∀ x, inside (bX :: bMaxX :: bs) x = true → inside (aX :: aMaxX :: as) x = true) : aX ≤ bX := by
  obtain ⟨c, hc, hle⟩ := exists_le_of_inside (hsub bX (inside_head hb.1))
  rcases mem_cons.mp hc with rfl | hc
  · exact hle
  · exact ((pairwise_cons.mp ha.1).1 c hc).le.trans hle

variable {segs segs' : List Int} {f : Int → List Int} {r r' : Row} {rows as bs : List Row}
    {y' y : Int} {p : IntPoint}

theorem lt_of_inside_rest {a b x : Int} (h : SegmentsOk (a :: b :: segs)) (hx : inside segs x = true) : b < x := by
  obtain ⟨c, hc, hcx⟩ := exists_le_of_inside hx
  exact lt_of_lt_of_le ((pairwise_cons.mp (pairwise_cons.mp h.1).2).1 c hc) hcx

/-- **A comparison of a row with one inside it is not stopped.** -/
theorem compareSegments_complete (as bs : List Int) : SegmentsOk as → SegmentsOk bs →
    (∀ x, inside bs x = true → inside as x = true) → compareSegments CompareContainsOperation as bs = none := by
  fun_induction compareSegments CompareContainsOperation as bs with
  | case1 aX aMaxX as bX bMaxX bs ih1 ih2 ih3 =>
    intro ha hb hsub
    have hle : aX ≤ bX := head_le_of_inside ha hb hsub
    simp only [CompareContainsOperation, hookIf_none, none_or, or_eq_none_iff,
      hookIf_some_eq_none, decide_eq_false_iff_not]
    refine ⟨by omega, ?_⟩
    rcases lt_trichotomy aMaxX bMaxX with hlt | heq | hgt
    · rw [if_pos hlt]
      refine ih1 ha.tail₂ hb fun x hx => ?_
      rcases (inside_cons₂ ha x).mp (hsub x hx) with hin | hin
      · -- A pixel in the first interval would put its end, which is not in the row, there too.
        have hend : bX ≤ aMaxX := by
          rcases (inside_cons₂ hb x).mp hx with hx | hx
          · omega
          · have := lt_of_inside_rest hb hx
            omega
        have := hsub aMaxX ((inside_cons₂ hb aMaxX).mpr (Or.inl ⟨hend, hlt⟩))
        rcases (inside_cons₂ ha aMaxX).mp this with h | h
        · omega
        · exact absurd (lt_of_inside_rest ha h) (lt_irrefl _)
      · exact hin
    · rw [if_neg (by omega), if_neg (by omega)]
      refine ih3 ha.tail₂ hb.tail₂ fun x hx => ?_
      have := lt_of_inside_rest hb hx
      rcases (inside_cons₂ ha x).mp (hsub x ((inside_cons₂ hb x).mpr (Or.inr hx))) with h | h
      · omega
      · exact h
    · rw [if_neg (by omega), if_pos hgt]
      exact ih2 ha hb.tail₂ fun x hx => hsub x ((inside_cons₂ hb x).mpr (Or.inr hx))
  | case2 as bs hno =>
    intro ha hb hsub
    simp only [CompareContainsOperation, hookIf_none, none_or, hookIf_some_eq_none,
      Bool.not_eq_false', List.isEmpty_iff]
    rcases bs with _ | ⟨b, _ | ⟨b', bs⟩⟩
    · rfl
    · exact absurd hb.2 (by simp)
    rcases as with _ | ⟨a, _ | ⟨a', as⟩⟩
    · exact absurd (hsub b (inside_head hb.1)) (by simp)
    · exact absurd ha.2 (by simp)
    · exact (hno a a' as b b' bs rfl rfl).elim

/-- **A comparison of two rows for overlap is stopped exactly when they share a pixel.** -/
theorem compareSegments_intersects (as bs : List Int) : SegmentsOk as → SegmentsOk bs →
    (compareSegments CompareIntersectsOperation as bs = some true ∧ ∃ x, inside as x = true ∧ inside bs x = true) ∨
      (compareSegments CompareIntersectsOperation as bs = none ∧
        ∀ x, inside as x = true → inside bs x = false) := by
  fun_induction compareSegments CompareIntersectsOperation as bs with
  | case1 aX aMaxX as bX bMaxX bs ih1 ih2 ih3 =>
    intro ha hb
    have hax : aX < aMaxX := (pairwise_cons.mp ha.1).1 aMaxX (by simp)
    have hbx : bX < bMaxX := (pairwise_cons.mp hb.1).1 bMaxX (by simp)
    simp only [CompareIntersectsOperation, hookIf_none, none_or] at ih1 ih2 ih3 ⊢
    cases hover : (decide (bMaxX > aX) && decide (bX < aMaxX)) with
    | true =>
      simp only [Bool.and_eq_true, decide_eq_true_eq] at hover
      refine Or.inl ⟨rfl, max aX bX, ?_, ?_⟩
      · exact (inside_cons₂ ha _).mpr (Or.inl (by omega))
      · exact (inside_cons₂ hb _).mpr (Or.inl (by omega))
    | false =>
      -- The intervals are apart, so the one that ends first meets nothing of the other row.
      have hapa : ¬ (bMaxX > aX ∧ bX < aMaxX) := by
        intro h
        rw [decide_eq_true h.1, decide_eq_true h.2] at hover
        exact absurd hover (by simp)
      rw [hookIf, if_neg (by simp), none_or]
      rcases lt_trichotomy aMaxX bMaxX with hlt | heq | hgt
      · rw [if_pos hlt]
        rcases ih1 ha.tail₂ hb with ⟨hrun, x, hxa, hxb⟩ | ⟨hrun, hno⟩
        · exact Or.inl ⟨hrun, x, (inside_cons₂ ha x).mpr (Or.inr hxa), hxb⟩
        · refine Or.inr ⟨hrun, fun x hx => ?_⟩
          rcases (inside_cons₂ ha x).mp hx with hx | hx
          · rw [← Bool.not_eq_true]
            intro hxb
            rcases (inside_cons₂ hb x).mp hxb with hxb | hxb
            · omega
            · have := lt_of_inside_rest hb hxb
              omega
          · exact hno x hx
      · omega
      · rw [if_neg (by omega), if_pos hgt]
        rcases ih2 ha hb.tail₂ with ⟨hrun, x, hxa, hxb⟩ | ⟨hrun, hno⟩
        · exact Or.inl ⟨hrun, x, hxa, (inside_cons₂ hb x).mpr (Or.inr hxb)⟩
        · refine Or.inr ⟨hrun, fun x hx => ?_⟩
          rw [← Bool.not_eq_true]
          intro hxb
          rcases (inside_cons₂ hb x).mp hxb with hxb | hxb
          · rcases (inside_cons₂ ha x).mp hx with hx | hx
            · omega
            · have := lt_of_inside_rest ha hx
              omega
          · rw [hno x hx] at hxb
            exact absurd hxb (by simp)
  | case2 as bs hno =>
    intro ha hb
    right
    simp only [CompareIntersectsOperation, hookIf_none, or_none, true_and]
    intro x hx
    rcases bs with _ | ⟨b, _ | ⟨b', bs⟩⟩
    · rfl
    · exact absurd hb.2 (by simp)
    rcases as with _ | ⟨a, _ | ⟨a', as⟩⟩
    · exact absurd hx (by simp)
    · exact absurd ha.2 (by simp)
    · exact (hno a a' as b b' bs rfl rfl).elim

/-! ## Spans -/

/-- How far the scan has come, where `fA` gives every row of the first shape. Once it has left that
    shape's first span, the second shape's span ends below the current one of the first; and a
    span of the second shape that starts higher, with the flag down, shares a blank row. -/
def Scan (fA : Int → List Int) (hadA : Bool) : List Row → List Row → Prop
  | (ya, _) :: _, (yb, _) :: (yb', _) :: _ =>
    (ya < yb' ∨ ∀ y < ya, fA y = []) ∧
      (yb < ya → hadA = false → ∃ y, (yb ≤ y ∧ y < yb') ∧ fA y = [])
  | _, _ => True

theorem RowsOk.exists_low_pixel {d : List Int} (h : RowsOk ((y, segs) :: (y', segs') :: rows))
    (ht : StepTight d ((y, segs) :: (y', segs') :: rows)) :
    ∃ x z, y' ≤ z + 1 ∧ y ≤ z ∧ pixelIn ((y, segs) :: (y', segs') :: rows) ⟨x, z⟩ = true := by
  have hlt : y < y' := h.head_lt
  obtain ⟨init, last, hcat⟩ := (eq_nil_or_concat' ((y', segs') :: rows)).resolve_left (by simp)
  have hlast : y' ≤ last.1 := by
    have hmem : last ∈ (y', segs') :: rows := by rw [hcat]; simp
    rcases mem_cons.mp hmem with rfl | hm
    · exact le_refl _
    · exact (h.tail.sorted.head_lt hm).le
  rw [hcat, ← cons_append] at h ht ⊢
  obtain ⟨x, hx⟩ := h.exists_bottom ht (by simp)
  exact ⟨x, last.1 - 1, by omega, by omega, hx⟩

section Complete

variable {fA fB : Int → List Int} (hsub : ∀ y x, inside (fB y) x = true → inside (fA y) x = true)
include hsub

variable {sb : List Int}

theorem blank_of_blank {y : Int} (hb : SegmentsOk sb) (hy : fB y = sb) (hbla : fA y = []) : sb = [] := by
  by_contra hne
  obtain ⟨x, hx⟩ := exists_inside hb hne
  have := hsub y x (by rw [hy]; exact hx)
  rw [hbla] at this
  exact absurd this (by simp)

/-- **A round over an included shape goes on.** -/
theorem compareRound_complete {ya ya' yb yb' : Int} {sa sa' sb' : List Int} {as bs : List Row}
    {hadA : Bool} (hadB : Bool) (ha : RowsOk ((ya, sa) :: (ya', sa') :: as))
    (hb : RowsOk ((yb, sb) :: (yb', sb') :: bs)) (hfA : GoesOn fA ((ya, sa) :: (ya', sa') :: as))
    (hfB : GoesOn fB ((yb, sb) :: (yb', sb') :: bs))
    (hscan : Scan fA hadA ((ya, sa) :: (ya', sa') :: as) ((yb, sb) :: (yb', sb') :: bs)) :
    compareRound CompareContainsOperation ya ya' sa yb yb' sb hadA hadB = none := by
  have hya : ya < ya' := ha.head_lt
  have hyb : yb < yb' := hb.head_lt
  have hsa : SegmentsOk sa := ha.segments (ya, sa) (by simp)
  have hsb : SegmentsOk sb := hb.segments (yb, sb) (by simp)
  rw [compareRound, or_eq_none_iff, or_eq_none_iff]
  refine ⟨hookIf_none _, hookIf_some_eq_none.mpr ?_, ?_⟩
  · rw [← Bool.not_eq_true]
    intro hc
    simp only [Bool.and_eq_true, decide_eq_true_eq, Bool.not_eq_true'] at hc
    obtain ⟨⟨hlt, hflag⟩, hne⟩ := hc
    obtain ⟨y, hy, hbla⟩ := hscan.2 hlt hflag
    rw [blank_of_blank hsub hsb (hfB.first hy) hbla] at hne
    exact absurd hne (by simp)
  · by_cases hover : yb' > ya ∧ yb < ya'
    · rw [if_pos (by simpa using hover)]
      -- The two spans share the row at the lower of their tops.
      have hrowA : fA (max ya yb) = sa := hfA.first (by dsimp only; omega)
      have hrowB : fB (max ya yb) = sb := hfB.first (by dsimp only; omega)
      refine compareSegments_complete sa sb hsa hsb fun x hx => ?_
      rw [← hrowA]
      exact hsub _ x (by rw [hrowB]; exact hx)
    · rw [if_neg (by simpa using hover)]

/-- **A comparison with an included shape answers `true`.** -/
theorem compareRows_complete (as bs : List Row) (hadA hadB : Bool) : RowsOk as → RowsOk bs →
    GoesOn fA as → GoesOn fB bs → (∃ d, StepTight d bs) → Scan fA hadA as bs →
    compareRows CompareContainsOperation as bs hadA hadB = true := by
  fun_induction compareRows CompareContainsOperation as bs hadA hadB with
  | case1 ya sa ya' sa' as yb sb yb' sb' bs hadA hadB result hstop =>
    intro ha hb hfA hfB _ hscan
    rw [compareRound_complete hsub hadB ha hb hfA hfB hscan] at hstop
    exact absurd hstop (by simp)
  | case2 ya sa ya' sa' as yb sb yb' sb' bs hadA hadB hstop hlt ih =>
    intro ha hb hfA hfB ht hscan
    refine ih ha.tail hb (hfA.tail ha.sorted) hfB ht ⟨Or.inl hlt, fun hlt' hflag => ?_⟩
    -- The row above the new span of the first shape is the one just left.
    have hya : ya < ya' := ha.head_lt
    refine ⟨ya' - 1, by omega, ?_⟩
    rw [hfA.first (by dsimp only; omega)]
    simpa using hflag
  | case3 ya sa ya' sa' as yb sb yb' sb' bs hadA hadB hstop hlt hgt ih =>
    rintro ha hb hfA hfB ⟨_, ht⟩ hscan
    refine ih ha hb.tail hfA (hfB.tail hb.sorted) ⟨_, ht.tail⟩ ?_
    cases bs with
    | nil => trivial
    | cons r bs =>
      obtain ⟨yb'', sb''⟩ := r
      have hyb : yb' < yb'' := hb.tail.head_lt
      refine ⟨hscan.1.imp_left fun h => h.trans hyb, fun hlt' _ => ?_⟩
      rcases hscan.1 with h | h
      · omega
      · exact ⟨yb', ⟨le_refl _, hyb⟩, h yb' hlt'⟩
  | case4 ya sa ya' sa' as yb sb yb' sb' bs hadA hadB hstop hlt hgt ih =>
    rintro ha hb hfA hfB ⟨_, ht⟩ hscan
    refine ih ha.tail hb.tail (hfA.tail ha.sorted) (hfB.tail hb.sorted) ⟨_, ht.tail⟩ ?_
    cases bs with
    | nil => trivial
    | cons r bs =>
      obtain ⟨yb'', sb''⟩ := r
      have hyb : yb' < yb'' := hb.tail.head_lt
      refine ⟨Or.inl (by omega), fun hlt' _ => ?_⟩
      omega
  | case5 as bs hadA hadB hno =>
    rintro ha hb hfA hfB ⟨d, ht⟩ hscan
    rcases bs with _ | ⟨⟨yb, sb⟩, _ | ⟨⟨yb', sb'⟩, bs⟩⟩
    · simp [CompareContainsOperation, hookIf]
    · simp [CompareContainsOperation, hookIf]
    exfalso
    obtain ⟨x, y, hlow, hy, hp⟩ := hb.exists_low_pixel ht
    have hin : inside (fA y) x = true := hsub y x (by rw [hfB y (startsBy_cons.mpr hy)]; exact hp)
    have hbla : fA y = [] := by
      rcases as with _ | ⟨⟨ya, sa⟩, _ | ⟨⟨ya', sa'⟩, as⟩⟩
      · exact hfA.last ha (by simp) (by simp [startsBy])
      · by_cases hle : ya ≤ y
        · exact hfA.last ha (by simp) (startsBy_cons.mpr hle)
        · rcases hscan.1 with h | h
          · omega
          · exact h y (not_le.mp hle)
      · exact (hno ya sa ya' sa' as yb sb yb' sb' bs rfl rfl).elim
    rw [hbla] at hin
    exact absurd hin (by simp)

end Complete

theorem compareRound_intersects (ya ya' yb yb' : Int) (sa sb : List Int) (hadA hadB : Bool) :
    compareRound CompareIntersectsOperation ya ya' sa yb yb' sb hadA hadB =
      if yb' > ya && yb < ya' then compareSegments CompareIntersectsOperation sa sb else none := by
  rw [compareRound]
  change (hookIf _ none).or ((hookIf _ none).or _) = _
  rw [hookIf_none, hookIf_none, none_or, none_or]

theorem pixelIn_of_tail (h : RowsOk (r :: r' :: rows))
    (hp : pixelIn (r' :: rows) p = true) : pixelIn (r :: r' :: rows) p = true := by
  have hle : r'.1 ≤ p.y := startsBy_cons.mp (startsBy_of_pixel hp)
  rw [pixelIn, stepAt_skip h.sorted hle]
  exact hp

theorem pixelIn_tail (h : RowsOk (r :: r' :: rows)) (hp : pixelIn (r :: r' :: rows) p = true) (hle : r'.1 ≤ p.y) :
    pixelIn (r' :: rows) p = true := by
  rw [pixelIn, stepAt_skip h.sorted hle] at hp
  exact hp

/-- **The comparison for overlap answers whether the shapes share a pixel.** -/
theorem compareRows_intersects (as bs : List Row) (hadA hadB : Bool) (ha : RowsOk as) (hb : RowsOk bs) :
    compareRows CompareIntersectsOperation as bs hadA hadB = true ↔
      ∃ p, pixelIn as p = true ∧ pixelIn bs p = true := by
  have hseg := fun y => compareSegments_intersects _ _ (ha.stepAt_segments y) (hb.stepAt_segments y)
  rcases compareRows_cases as bs hadA hadB ha hb (fun _ _ => rfl) (fun _ _ => rfl) rfl with
    ⟨ya, ya', sa, yb, yb', sb, _, _, hstop, hrow⟩ | ⟨a, b, hend, hrest⟩
  · rw [compareRound_intersects, ite_none_right_eq_some, Bool.and_eq_true, decide_eq_true_eq,
      decide_eq_true_eq] at hstop
    obtain ⟨y, rfl, rfl⟩ := hrow hstop.1.1 hstop.1.2
    rcases hseg y with ⟨hsome, x, hx⟩ | ⟨hnone, -⟩
    · exact iff_of_true (Option.some.inj (hstop.2.symm.trans hsome)) ⟨⟨x, y⟩, hx⟩
    · exact absurd (hnone.symm.trans hstop.2) (by simp)
  · simp only [CompareIntersectsOperation, hookIf_none, or_none, getD_none] at hend
    refine iff_of_false (by simp [CompareIntersectsOperation, ← hend]) ?_
    rintro ⟨p, hpa, hpb⟩
    rcases hrest p.y (startsBy_of_pixel hpa) (startsBy_of_pixel hpb) with
      hnone | ⟨h | h, hA, hB⟩
    · rcases hseg p.y with ⟨hsome, -⟩ | ⟨-, hno⟩
      · exact absurd (hnone.symm.trans hsome) (by simp)
      · exact absurd hpb (by simp [pixelIn, hno p.x hpa])
    · exact absurd hpa (by simp [pixelIn, hA h])
    · exact absurd hpb (by simp [pixelIn, hB h])

/-! ## Regions -/

theorem scan_start (h : RowsOk as) (bs : List Row) (hb : RowsOk bs) : Scan (stepAt [] as) false as bs := by
  match as, bs, h, hb with
  | [], _, _, _ => trivial
  | (_, _) :: _, [], _, _ => trivial
  | (_, _) :: _, [_], _, _ => trivial
  | (ya, sa) :: as, (yb, sb) :: (yb', sb') :: bs, _, hb =>
    refine ⟨Or.inr fun y hy => stepAt_cons_of_lt hy, fun hlt _ => ?_⟩
    exact ⟨yb, ⟨le_refl _, hb.head_lt⟩, stepAt_cons_of_lt hlt⟩

theorem startsBy_of_scan (ha : Canonical as) (hb : Canonical bs)
    (hrun : compareRows CompareContainsOperation as bs false false = true)
    (hp : pixelIn bs p = true) : startsBy as p.y := by
  have hyp := startsBy_of_pixel hp
  match as, bs, ha, hb with
  | [], _, _, _ => intro r hr; simp at hr
  | [(ya, sa)], _, ha, _ =>
    obtain rfl : sa = [] := ha.toRowsOk.closed_head rfl
    exact absurd rfl ha.tight.head_ne
  | _ :: _ :: _, [], _, _ => exact absurd hp (by simp [pixelIn])
  | _ :: _ :: _, [(yb, sb)], _, hb =>
    obtain rfl : sb = [] := hb.toRowsOk.closed_head rfl
    exact absurd rfl hb.tight.head_ne
  | (ya, sa) :: (ya', sa') :: as, (yb, sb) :: (yb', sb') :: bs, _, hb =>
    have hyb : yb ≤ p.y := startsBy_cons.mp hyp
    refine startsBy_cons.mpr (not_lt.mp fun hlt => ?_)
    have hlt' : yb < ya := lt_of_le_of_lt hyb hlt
    have hne : sb ≠ [] := hb.tight.head_ne
    have hstop : compareRound CompareContainsOperation ya ya' sa yb yb' sb false false =
        some false := by
      rw [compareRound]
      change (hookIf _ none).or ((hookIf _ (some false)).or _) = some false
      rw [hookIf_none, none_or, show (decide (yb < ya) && !false && !sb.isEmpty) = true by
        simp [hlt', hne]]
      rfl
    rw [compareRows, hstop] at hrun
    exact absurd hrun (by simp)

namespace Represents

variable {r r' : Region} {rows rows' : List Row}

variable (h : Represents r rows)
include h

variable (h' : Represents r' rows')
include h'

/-- **The scan of `contains` decides inclusion.** -/
theorem scan_contains_iff :
    compareShapes CompareContainsOperation r.shape r'.shape = true ↔
      ∀ p, pixelIn rows' p = true → pixelIn rows p = true := by
  rw [h.shape, h'.shape, compareShapes_ofRows]
  constructor
  · intro hrun p hp
    exact compareRows_sound rows rows' false false h.canonical.toRowsOk h'.canonical.toRowsOk hrun p
      (startsBy_of_scan h.canonical h'.canonical hrun hp) (startsBy_of_pixel hp) hp
  · intro hsub
    have hrows : ∀ y x, inside (stepAt [] rows' y) x = true → inside (stepAt [] rows y) x = true :=
      fun y x hx => hsub ⟨x, y⟩ hx
    exact compareRows_complete hrows rows rows' false false h.canonical.toRowsOk
      h'.canonical.toRowsOk (fun _ _ => rfl) (fun _ _ => rfl) ⟨[], h'.canonical.tight⟩
      (scan_start h.canonical.toRowsOk rows' h'.canonical.toRowsOk)

theorem bounds_contains
    (hne : rows' ≠ []) (hsub : ∀ p, pixelIn rows' p = true → pixelIn rows p = true) :
    r.bounds.contains r'.bounds = true := by
  have hle := (h'.box hne).le fun p hp => h.bounds_contain (hsub p hp)
  rw [IntRect.contains_iff]
  omega

/-- **`contains(const Region&)` decides inclusion of a region with pixels.** -/
theorem contains_iff (hne : rows' ≠ []) :
    r.contains r' = true ↔ ∀ p, pixelIn rows' p = true → pixelIn rows p = true := by
  constructor
  · intro hc p hp
    exact h.contains_sound h' hc hp
  · intro hsub
    rw [Region.contains, h.bounds_contains h' hne hsub, Bool.not_true, if_neg (by simp)]
    exact (h.scan_contains_iff h').mpr hsub

/-- **The scan of `intersects` decides whether two regions share a pixel.** -/
theorem scan_intersects_iff :
    compareShapes CompareIntersectsOperation r.shape r'.shape = true ↔
      ∃ p, pixelIn rows p = true ∧ pixelIn rows' p = true := by
  rw [h.shape, h'.shape, compareShapes_ofRows]
  exact compareRows_intersects rows rows' false false h.canonical.toRowsOk h'.canonical.toRowsOk

theorem intersects_iff :
    r.intersects r' = true ↔ ∃ p, pixelIn rows p = true ∧ pixelIn rows' p = true := by
  rw [Region.intersects]
  cases hb : r.bounds.intersects r'.bounds with
  | true =>
    rw [Bool.not_true, if_neg (by simp)]
    exact h.scan_intersects_iff h'
  | false =>
    constructor
    · intro hrun
      exact absurd hrun (by simp)
    · rintro ⟨p, hp, hp'⟩
      have := IntRect.not_containsPoint_of_not_intersects hb (h.bounds_contain hp)
      rw [h'.bounds_contain hp'] at this
      exact absurd this (by simp)

end Represents

/-- The two tests and the scans behind them, compared with the points of the regions. -/
structure DecidesInclusion (a b : Region) : Prop where
  contains : (∃ p, b.containsPoint p = true) →
    (a.contains b = true ↔ ∀ p, b.containsPoint p = true → a.containsPoint p = true)
  intersects : a.intersects b = true ↔ ∃ p, a.containsPoint p = true ∧ b.containsPoint p = true
  scanContains : compareShapes CompareContainsOperation a.shape b.shape = true ↔
    ∀ p, b.containsPoint p = true → a.containsPoint p = true
  scanIntersects : compareShapes CompareIntersectsOperation a.shape b.shape = true ↔
    ∃ p, a.containsPoint p = true ∧ b.containsPoint p = true

theorem Represents.decidesInclusion {a b : Region} {rows' : List Row} (h : Represents a rows)
    (h' : Represents b rows') : DecidesInclusion a b := by
  constructor
  · rintro ⟨p, hp⟩
    rw [h'.containsPoint] at hp
    simp only [h.containsPoint, h'.containsPoint]
    refine h.contains_iff h' ?_
    rintro rfl
    exact absurd hp (by simp [pixelIn])
  · simp only [h.containsPoint, h'.containsPoint]
    exact h.intersects_iff h'
  · simp only [h.containsPoint, h'.containsPoint]
    exact h.scan_contains_iff h'
  · simp only [h.containsPoint, h'.containsPoint]
    exact h.scan_intersects_iff h'

variable {ι : Type*} [DecidableEq ι]

end WebV8
