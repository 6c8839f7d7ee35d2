import WebV8.Graphics.RegionBounds

/-!
# `compareShapes` on rows

The scan of `compareShapes` is first freed from the packing of the vectors: on two packed row lists
it is `compareRows`, the same rounds on the rows themselves (`compareSpans_ofRows`).

`Region::unite` returns early when the region already contains the other one, so its result is
right only if a positive answer of `compareShapes<CompareContainsOperation>` can be trusted. This
module proves that half: when the comparison runs to its end, every pixel of the second operand
that lies at or below both current spans is one of the first (`compareRows_sound`).
-/

namespace WebV8

open Lib Shape List Option

/-! ## Hooks -/

theorem hookIf_none (c : Bool) : hookIf c none = none := by cases c <;> rfl

theorem hookIf_some_eq_none {c r : Bool} : hookIf c (some r) = none ↔ c = false := by
  cases c <;> simp [hookIf]

/-! ## Segments -/

variable {segs sa sb : List Int} {r : Row} {rows : List Row} {y ya ya' yb yb' : Int}
    {hadA hadB : Bool}

theorem SegmentsOk.tail₂ {a b : Int} (h : SegmentsOk (a :: b :: segs)) : SegmentsOk segs := by
  refine ⟨(pairwise_cons.mp (pairwise_cons.mp h.1).2).2, ?_⟩
  have := h.2
  simp at this
  omega

theorem inside_cons₂ {a b : Int} (h : SegmentsOk (a :: b :: segs)) (x : Int) :
    inside (a :: b :: segs) x = true ↔ (a ≤ x ∧ x < b) ∨ inside segs x = true := by
  obtain ⟨ha, hs⟩ := pairwise_cons.mp h.1
  obtain ⟨hb, -⟩ := pairwise_cons.mp hs
  have hab := ha b (by simp)
  rw [inside_cons, inside_cons]
  by_cases hbx : b ≤ x
  · have hax : a ≤ x := hab.le.trans hbx
    simp [hax, hbx]
  · have hrest : inside segs x = false := inside_of_lt fun c hc => (not_le.mp hbx).trans (hb c hc)
    simp [hbx, hrest, not_le.mp hbx]

theorem compareSegments_ne_true (as bs : List Int) :
    compareSegments CompareContainsOperation as bs ≠ some true := by
  fun_induction compareSegments CompareContainsOperation as bs with
  | case1 aX aMaxX as bX bMaxX bs ih1 ih2 ih3 =>
    simp only [CompareContainsOperation, hookIf_none, none_or] at ih1 ih2 ih3 ⊢
    cases hc : decide (bX < aX) with
    | true => simp [hookIf]
    | false =>
      rw [hookIf, if_neg (by simp), none_or]
      split_ifs
      · exact ih1
      · exact ih2
      · exact ih3
  | case2 as bs hno =>
    simp only [CompareContainsOperation, hookIf_none, none_or]
    cases bs <;> simp [hookIf]

theorem compareSegments_sound (as bs : List Int) :
    SegmentsOk as → SegmentsOk bs → compareSegments CompareContainsOperation as bs = none →
      ∀ x, inside bs x = true → inside as x = true := by
  fun_induction compareSegments CompareContainsOperation as bs with
  | case1 aX aMaxX as bX bMaxX bs ih1 ih2 ih3 =>
    intro ha hb hrun x hx
    simp only [CompareContainsOperation, hookIf_none, none_or, or_eq_none_iff,
      hookIf_some_eq_none, decide_eq_false_iff_not] at hrun
    obtain ⟨hle, hrun⟩ := hrun
    rcases lt_trichotomy aMaxX bMaxX with hlt | heq | hgt
    · rw [if_pos hlt] at hrun
      exact (inside_cons₂ ha x).mpr (Or.inr (ih1 ha.tail₂ hb hrun x hx))
    · rw [if_neg (by omega), if_neg (by omega)] at hrun
      rcases (inside_cons₂ hb x).mp hx with hx | hx
      · exact (inside_cons₂ ha x).mpr (Or.inl (by omega))
      · exact (inside_cons₂ ha x).mpr (Or.inr (ih3 ha.tail₂ hb.tail₂ hrun x hx))
    · rw [if_neg (by omega), if_pos hgt] at hrun
      rcases (inside_cons₂ hb x).mp hx with hx | hx
      · exact (inside_cons₂ ha x).mpr (Or.inl (by omega))
      · exact ih2 ha hb.tail₂ hrun x hx
  | case2 as bs hno =>
    intro ha hb hrun x hx
    simp only [CompareContainsOperation, hookIf_none, none_or, hookIf_some_eq_none,
      Bool.not_eq_false', List.isEmpty_iff] at hrun
    rw [hrun] at hx
    exact absurd hx (by simp)

/-! ## Rounds -/

variable (op : CompareOperation) {y' : Int}

/-- The tests of one round: the current rows are `sa` from `ya` on and `sb` from `yb` on, and they
    end at `ya'` and `yb'`. -/
def compareRound (ya ya' : Int) (sa : List Int) (yb yb' : Int)
    (sb : List Int) (hadA hadB : Bool) : Option Bool :=
  (hookIf (ya < yb && !hadB && !sa.isEmpty) op.aOutsideB).or <|
  (hookIf (yb < ya && !hadA && !sb.isEmpty) op.bOutsideA).or <|
  if yb' > ya && yb < ya' then compareSegments op sa sb else none

/-- `compareSpans` with the rows in the place of the iterators. -/
def compareRows (op : CompareOperation) : List Row → List Row → Bool → Bool → Bool
  | (ya, sa) :: (ya', sa') :: as, (yb, sb) :: (yb', sb') :: bs, hadA, hadB =>
    match compareRound op ya ya' sa yb yb' sb hadA hadB with
    | some result => result
    | none =>
      if ya' < yb' then
        compareRows op ((ya', sa') :: as) ((yb, sb) :: (yb', sb') :: bs) (!sa.isEmpty)
          (!sb.isEmpty)
      else if yb' < ya' then
        compareRows op ((ya, sa) :: (ya', sa') :: as) ((yb', sb') :: bs) (!sa.isEmpty)
          (!sb.isEmpty)
      else compareRows op ((ya', sa') :: as) ((yb', sb') :: bs) (!sa.isEmpty) (!sb.isEmpty)
  | as, bs, _, _ =>
    ((hookIf (as.length ≥ 2) op.aOutsideB).or (hookIf (bs.length ≥ 2) op.bOutsideA)).getD
      op.defaultResult
  termination_by as bs => as.length + bs.length

theorem compareSpans_round (beforeA beforeB as bs : List Row)
    (ya ya' : Int) (sa sa' : List Int) (yb yb' : Int) (sb sb' : List Int) (hadA hadB : Bool) :
    let aShape := ofRows (beforeA ++ (ya, sa) :: (ya', sa') :: as)
    let bShape := ofRows (beforeB ++ (yb, sb) :: (yb', sb') :: bs)
    let aSpans := itAt beforeA ((ya, sa) :: (ya', sa') :: as)
    let bSpans := itAt beforeB ((yb, sb) :: (yb', sb') :: bs)
    compareSpans op aShape bShape aSpans bSpans hadA hadB = (compareRound op ya ya' sa yb yb' sb hadA hadB).getD
        (compareSpans op aShape bShape (if yb' < ya' then aSpans else itAt (beforeA ++ [(ya, sa)]) ((ya', sa') :: as))
          (if ya' < yb' then bSpans else itAt (beforeB ++ [(yb, sb)]) ((yb', sb') :: bs))
          (!sa.isEmpty) (!sb.isEmpty)) := by
  have hsa := segmentsOf_itAt beforeA ya sa ((ya', sa') :: as) (by simp)
  have hsb := segmentsOf_itAt beforeB yb sb ((yb', sb') :: bs) (by simp)
  simp only [itAt_cons] at hsa hsb ⊢
  rw [compareSpans]
  rw [hsa, hsb, ← compareRound]
  cases compareRound op ya ya' sa yb yb' sb hadA hadB with
  | some result => rfl
  | none =>
    dsimp only [getD_none]
    rcases lt_trichotomy ya' yb' with hlt | rfl | hgt
    · rw [if_pos hlt, if_neg (by omega), if_pos hlt]
    · simp
    · rw [if_neg (by omega), if_pos hgt, if_pos hgt, if_neg (by omega)]

/-- **The scan sees the rows, not how they are packed.** -/
theorem compareSpans_ofRows (beforeA as beforeB bs : List Row) (hadA hadB : Bool) :
    compareSpans op (ofRows (beforeA ++ as)) (ofRows (beforeB ++ bs)) (itAt beforeA as)
      (itAt beforeB bs) hadA hadB = compareRows op as bs hadA hadB := by
  fun_induction compareRows op as bs hadA hadB generalizing beforeA beforeB with
  | case1 ya sa ya' sa' as yb sb yb' sb' bs hadA hadB result hstop =>
    rw [compareSpans_round, hstop, getD_some]
  | case2 ya sa ya' sa' as yb sb yb' sb' bs hadA hadB hstop hlt ih =>
    have hrec := ih (beforeA ++ [(ya, sa)]) beforeB
    simp only [append_assoc, singleton_append] at hrec
    rw [compareSpans_round, hstop, getD_none, if_neg (by omega), if_pos hlt, hrec]
  | case3 ya sa ya' sa' as yb sb yb' sb' bs hadA hadB hstop hlt hgt ih =>
    have hrec := ih beforeA (beforeB ++ [(yb, sb)])
    simp only [append_assoc, singleton_append] at hrec
    rw [compareSpans_round, hstop, getD_none, if_pos hgt, if_neg hlt, hrec]
  | case4 ya sa ya' sa' as yb sb yb' sb' bs hadA hadB hstop hlt hgt ih =>
    have hrec := ih (beforeA ++ [(ya, sa)]) (beforeB ++ [(yb, sb)])
    simp only [append_assoc, singleton_append] at hrec
    rw [compareSpans_round, hstop, getD_none, if_neg hgt, if_neg hlt, hrec]
  | case5 as bs hadA hadB hno =>
    rw [compareSpans]
    · rw [itAt, itAt, spansFrom_length, spansFrom_length]
    · intro aSpan aNext as' bSpan bNext bs' ha hb
      have hla : as.length = (itAt beforeA as).length := by rw [itAt, spansFrom_length]
      have hlb : bs.length = (itAt beforeB bs).length := by rw [itAt, spansFrom_length]
      rw [ha, length_cons, length_cons] at hla
      rw [hb, length_cons, length_cons] at hlb
      match as, bs, hla, hlb, hno with
      | (ya, sa) :: (ya', sa') :: as, (yb, sb) :: (yb', sb') :: bs, _, _, hno =>
        exact hno ya sa ya' sa' as yb sb yb' sb' bs rfl rfl

/-- **On packed rows, `compareShapes` is the scan of the rows.** -/
theorem compareShapes_ofRows (as bs : List Row) :
    compareShapes op (ofRows as) (ofRows bs) = compareRows op as bs false false :=
  compareSpans_ofRows op [] as [] bs false false

/-! ## Rows -/

def startsBy (rows : List Row) (y : Int) : Prop := ∀ r, rows.head? = some r → r.1 ≤ y

theorem startsBy_cons : startsBy (r :: rows) y ↔ r.1 ≤ y := by
  constructor
  · intro h
    exact h r rfl
  · intro h r' hr'
    obtain rfl : r = r' := by simpa using hr'
    exact h

theorem stepAt_first (h : y' ≤ y) (hlt : y < r.1) : stepAt [] ((y', segs) :: r :: rows) y = segs := by
  obtain ⟨y'', segs''⟩ := r
  rw [stepAt_cons_of_le h, stepAt_cons_of_lt hlt]

theorem stepAt_skip {r' : Row} (h : StepSorted (r :: r' :: rows))
    (hle : r'.1 ≤ y) : stepAt [] (r :: r' :: rows) y = stepAt [] (r' :: rows) y := by
  obtain ⟨y', segs⟩ := r
  have hlt : y' < r'.1 := h.head_lt (by simp)
  rw [stepAt_cons_of_le (hlt.le.trans hle), stepAt_default hle]

theorem spansOverlap_of_mem (ha : ya ≤ y ∧ y < ya') (hb : yb ≤ y ∧ y < yb') :
    (decide (yb' > ya) && decide (yb < ya')) = true := by
  simp
  omega

theorem compareRound_ne_true : compareRound CompareContainsOperation ya ya' sa yb yb' sb hadA hadB ≠ some true := by
  intro hstop
  rw [compareRound] at hstop
  change (hookIf _ none).or ((hookIf _ (some false)).or _) = some true at hstop
  rw [hookIf_none, none_or] at hstop
  cases hc : (decide (yb < ya) && !hadA && !sb.isEmpty) with
  | true => rw [hc] at hstop; simp [hookIf] at hstop
  | false =>
    rw [hc, hookIf, if_neg (by simp), none_or] at hstop
    split at hstop
    · exact compareSegments_ne_true sa sb hstop
    · exact absurd hstop (by simp)

/-- The rows from the first of `rows` on, where `f` gives every row. -/
def GoesOn (f : Int → List Int) (rows : List Row) : Prop :=
  ∀ y, startsBy rows y → f y = stepAt [] rows y

section Common

variable {f fA fB : Int → List Int} {r' : Row} {as bs : List Row} {sa' sb' : List Int} {op : CompareOperation}

theorem RowsOk.head_lt {segs' : List Int} (h : RowsOk ((y, segs) :: (y', segs') :: rows)) : y < y' :=
  (pairwise_cons.mp h.sorted).1 (y', segs') (by simp)

theorem GoesOn.tail
    (h : GoesOn f (r :: r' :: rows)) (hs : StepSorted (r :: r' :: rows)) : GoesOn f (r' :: rows) := by
  intro y hy
  have hle : r'.1 ≤ y := startsBy_cons.mp hy
  have hlt : r.1 < r'.1 := hs.head_lt (by simp)
  rw [h y (startsBy_cons.mpr (hlt.le.trans hle)), stepAt_skip hs hle]

theorem GoesOn.first (h : GoesOn f ((y', segs) :: r :: rows)) (hy : y' ≤ y ∧ y < r.1) : f y = segs := by
  rw [h y (startsBy_cons.mpr hy.1), stepAt_first hy.1 hy.2]

theorem GoesOn.compareSegments_of_round (hfA : GoesOn fA ((ya, sa) :: (ya', sa') :: as))
    (hfB : GoesOn fB ((yb, sb) :: (yb', sb') :: bs)) (hstop : compareRound op ya ya' sa yb yb' sb hadA hadB = none)
    (hya : startsBy ((ya, sa) :: (ya', sa') :: as) y) (hyb : startsBy ((yb, sb) :: (yb', sb') :: bs) y)
    (ha : y < ya') (hb : y < yb') : compareSegments op (fA y) (fB y) = none := by
  rw [startsBy_cons] at hya hyb
  rw [hfA.first ⟨hya, ha⟩, hfB.first ⟨hyb, hb⟩]
  rw [compareRound, spansOverlap_of_mem ⟨hya, ha⟩ ⟨hyb, hb⟩, if_pos rfl, or_eq_none_iff,
    or_eq_none_iff] at hstop
  exact hstop.2.2

theorem GoesOn.last (h : GoesOn f rows) (hok : RowsOk rows) (hlen : rows.length < 2) (hy : startsBy rows y) :
    f y = [] := by
  rw [h y hy]
  rcases rows with _ | ⟨⟨y', s⟩, _ | ⟨r, rows⟩⟩
  · rw [stepAt_nil]
  · obtain rfl : s = [] := hok.closed_head rfl
    rw [stepAt_cons_of_le (startsBy_cons.mp hy), stepAt_nil]
  · simp at hlen

/-- **What an answer of the scan comes from**: a round that stops, on a row of both shapes if their
    spans overlap, or the end of one shape, once every row the two have has been compared. -/
theorem compareRows_cases {result : Bool} (as bs : List Row) (hadA hadB : Bool) :
    RowsOk as → RowsOk bs → GoesOn fA as → GoesOn fB bs → compareRows op as bs hadA hadB = result →
    (∃ ya ya' sa yb yb' sb hadA hadB, compareRound op ya ya' sa yb yb' sb hadA hadB = some result ∧
      (ya < yb' → yb < ya' → ∃ y, fA y = sa ∧ fB y = sb)) ∨
    ∃ a b, ((hookIf a op.aOutsideB).or (hookIf b op.bOutsideA)).getD op.defaultResult = result ∧
      ∀ y, startsBy as y → startsBy bs y → compareSegments op (fA y) (fB y) = none ∨
        (a = false ∨ b = false) ∧ (a = false → fA y = []) ∧ (b = false → fB y = []) := by
  fun_induction compareRows op as bs hadA hadB with
  | case1 ya sa ya' sa' as yb sb yb' sb' bs hadA hadB result' hstop =>
    rintro ha hb hfA hfB rfl
    have hya : ya < ya' := ha.head_lt
    have hyb : yb < yb' := hb.head_lt
    exact .inl ⟨_, _, _, _, _, _, _, _, hstop, fun _ _ =>
      ⟨max ya yb, hfA.first (by dsimp only; omega), hfB.first (by dsimp only; omega)⟩⟩
  | case2 ya sa ya' sa' as yb sb yb' sb' bs hadA hadB hstop hlt ih =>
    intro ha hb hfA hfB hrun
    refine (ih ha.tail hb (hfA.tail ha.sorted) hfB hrun).imp_right fun ⟨a, b, hend, hrest⟩ =>
      ⟨a, b, hend, fun y hya hyb => ?_⟩
    by_cases hcur : y < ya'
    · exact .inl (hfA.compareSegments_of_round hfB hstop hya hyb hcur (hcur.trans hlt))
    · exact hrest y (startsBy_cons.mpr (not_lt.mp hcur)) hyb
  | case3 ya sa ya' sa' as yb sb yb' sb' bs hadA hadB hstop hlt hgt ih =>
    intro ha hb hfA hfB hrun
    refine (ih ha hb.tail hfA (hfB.tail hb.sorted) hrun).imp_right fun ⟨a, b, hend, hrest⟩ =>
      ⟨a, b, hend, fun y hya hyb => ?_⟩
    by_cases hcur : y < yb'
    · exact .inl (hfA.compareSegments_of_round hfB hstop hya hyb (hcur.trans hgt) hcur)
    · exact hrest y hya (startsBy_cons.mpr (not_lt.mp hcur))
  | case4 ya sa ya' sa' as yb sb yb' sb' bs hadA hadB hstop hlt hgt ih =>
    intro ha hb hfA hfB hrun
    refine (ih ha.tail hb.tail (hfA.tail ha.sorted) (hfB.tail hb.sorted) hrun).imp_right
      fun ⟨a, b, hend, hrest⟩ => ⟨a, b, hend, fun y hya hyb => ?_⟩
    obtain rfl : ya' = yb' := by omega
    by_cases hcur : y < ya'
    · exact .inl (hfA.compareSegments_of_round hfB hstop hya hyb hcur hcur)
    · have hle := not_lt.mp hcur
      exact hrest y (startsBy_cons.mpr hle) (startsBy_cons.mpr hle)
  | case5 as bs hadA hadB hno =>
    intro ha hb hfA hfB hrun
    refine .inr ⟨_, _, hrun, fun y hya hyb => .inr ⟨?_, fun h => hfA.last ha (by simpa using h) hya,
      fun h => hfB.last hb (by simpa using h) hyb⟩⟩
    rcases as with _ | ⟨⟨ya, sa⟩, _ | ⟨⟨ya', sa'⟩, as⟩⟩ <;> rcases bs with _ | ⟨⟨yb, sb⟩, _ | ⟨⟨yb', sb'⟩, bs⟩⟩
      <;> simp
    exact hno ya sa ya' sa' as yb sb yb' sb' bs rfl rfl

end Common

/-- **A comparison of spans that answers `true` has found the second shape inside the first**,
    at and below the spans both start with. -/
theorem compareRows_sound (as bs : List Row) (hadA hadB : Bool) (ha : RowsOk as) (hb : RowsOk bs)
    (hrun : compareRows CompareContainsOperation as bs hadA hadB = true) (p : IntPoint)
    (hpa : startsBy as p.y) (hpb : startsBy bs p.y) (hp : pixelIn bs p = true) : pixelIn as p = true := by
  rcases compareRows_cases as bs hadA hadB ha hb (fun _ _ => rfl) (fun _ _ => rfl) hrun with
    ⟨_, _, _, _, _, _, _, _, hstop, -⟩ | ⟨a, b, hend, hrest⟩
  · exact absurd hstop compareRound_ne_true
  · rcases hrest p.y hpa hpb with hnone | ⟨-, -, hblank⟩
    · exact compareSegments_sound _ _ (ha.stepAt_segments _) (hb.stepAt_segments _) hnone p.x hp
    · have hb : b = false := by
        cases b with
        | false => rfl
        | true => simp [CompareContainsOperation, hookIf] at hend
      exact absurd hp (by simp [pixelIn, hblank hb])

end WebV8
