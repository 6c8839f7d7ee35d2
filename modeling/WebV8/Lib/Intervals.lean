import Mathlib

/-! # Sets of points as lists of separated intervals

A finite union of half-open intervals has one list of intervals that are in order and do not touch. `merge` puts
an interval into such a list, and takes those it touches into one.
-/

namespace WebV8.Lib

open List

variable {T : Type*}

/-- The interval from `start` up to, and without, `stop`. -/
structure Segment (T : Type*) where
  start : T
  stop : T
deriving DecidableEq

variable [LinearOrder T]

namespace Segment

def points (r : Segment T) : Set T := Set.Ico r.start r.stop

def Touches (r r' : Segment T) : Prop := r'.start ≤ r.stop ∧ r.start ≤ r'.stop

instance (r r' : Segment T) : Decidable (r.Touches r') := inferInstanceAs (Decidable (_ ∧ _))

def hull (r r' : Segment T) : Segment T := ⟨min r.start r'.start, max r.stop r'.stop⟩

variable {r r' : Segment T}

theorem mem_points {x : T} : x ∈ r.points ↔ r.start ≤ x ∧ x < r.stop := Iff.rfl

theorem points_hull (h : r.Touches r') : (r.hull r').points = r.points ∪ r'.points :=
  (Set.Ico_union_Ico' h.1 h.2).symm

theorem hull_ordered (h : r.start ≤ r.stop) : (r.hull r').start ≤ (r.hull r').stop :=
  (min_le_left _ _).trans (h.trans (le_max_left _ _))

theorem touches_hull {s : Segment T} (h : r.Touches r') (hs : s.start ≤ s.stop) :
    (r.hull r').Touches s ↔ r.Touches s ∨ r'.Touches s := by
  obtain ⟨h₁, h₂⟩ := h
  simp only [Touches, hull, min_le_iff, le_max_iff]
  constructor
  · rintro ⟨hst | hst, hstop | hstop⟩
    · exact Or.inl ⟨hst, hstop⟩
    · rcases le_total s.start r'.stop with h | h
      · exact Or.inr ⟨h, hstop⟩
      · exact Or.inl ⟨hst, h₂.trans (h.trans hs)⟩
    · rcases le_total s.start r.stop with h | h
      · exact Or.inl ⟨h, hstop⟩
      · exact Or.inr ⟨hst, h₁.trans (h.trans hs)⟩
    · exact Or.inr ⟨hst, hstop⟩
  · rintro (⟨hst, hstop⟩ | ⟨hst, hstop⟩)
    · exact ⟨Or.inl hst, Or.inl hstop⟩
    · exact ⟨Or.inr hst, Or.inr hstop⟩

theorem not_touches : ¬r.Touches r' ↔ r.stop < r'.start ∨ r'.stop < r.start := by
  rw [Touches, not_and_or, not_le, not_le]

end Segment

open Segment

/-- Intervals in order, with a distance between one and the next. -/
structure Separated (rs : List (Segment T)) : Prop where
  ordered : ∀ r ∈ rs, r.start ≤ r.stop
  pairwise : rs.Pairwise fun r r' => r.stop < r'.start

def points (rs : List (Segment T)) : Set T := {x | ∃ r ∈ rs, x ∈ r.points}

theorem points_nil : points ([] : List (Segment T)) = ∅ := by
  ext x
  simp [points]

theorem points_cons (r : Segment T) (rs : List (Segment T)) : points (r :: rs) = r.points ∪ points rs := by
  ext x
  simp [points]

theorem separated_nil : Separated ([] : List (Segment T)) := ⟨nofun, List.Pairwise.nil⟩

variable {r : Segment T} {rs bs : List (Segment T)}

theorem separated_cons :
    Separated (r :: rs) ↔ r.start ≤ r.stop ∧ (∀ r' ∈ rs, r.stop < r'.start) ∧ Separated rs := by
  constructor
  · intro h
    have hp := pairwise_cons.mp h.pairwise
    exact ⟨h.ordered r mem_cons_self, hp.1, fun r' hr' => h.ordered r' (mem_cons_of_mem _ hr'), hp.2⟩
  · rintro ⟨hr, hlt, h⟩
    exact ⟨forall_mem_cons.mpr ⟨hr, h.ordered⟩, pairwise_cons.mpr ⟨hlt, h.pairwise⟩⟩

theorem Separated.sublist {rs rs' : List (Segment T)} (h : Separated rs) (hsub : rs'.Sublist rs) : Separated rs' :=
  ⟨fun r hr => h.ordered r (hsub.subset hr), h.pairwise.sublist hsub⟩

/-! ## Merging -/

/-- Put an interval in its place, joined with those that it touches. -/
def merge (r : Segment T) : List (Segment T) → List (Segment T)
  | [] => [r]
  | r' :: rs =>
    if r.Touches r' then merge (r.hull r') rs
    else if r'.stop < r.start then r' :: merge r rs
    else r :: r' :: rs

theorem points_merge (r : Segment T) (rs : List (Segment T)) : points (merge r rs) = r.points ∪ points rs := by
  induction rs generalizing r with
  | nil => rw [merge, points_cons]
  | cons r' rs ih =>
    rw [merge]
    split_ifs with htou hbef
    · rw [ih, points_hull htou, points_cons, Set.union_assoc]
    · rw [points_cons, ih, points_cons, Set.union_left_comm]
    · rw [points_cons]

theorem start_of_mem_merge {a : T} (hr : a < r.start)
    (hrs : ∀ r' ∈ rs, a < r'.start) : ∀ r' ∈ merge r rs, a < r'.start := by
  induction rs generalizing r with
  | nil =>
    exact forall_mem_singleton.mpr hr
  | cons r' rs ih =>
    obtain ⟨hr', hrest⟩ := forall_mem_cons.mp hrs
    rw [merge]
    split_ifs
    · exact ih (lt_min hr hr') hrest
    · exact forall_mem_cons.mpr ⟨hr', ih hr hrest⟩
    · exact forall_mem_cons.mpr ⟨hr, hrs⟩

theorem Separated.merge {r : Segment T} {rs : List (Segment T)} (h : Separated rs) (hr : r.start ≤ r.stop) :
    Separated (merge r rs) := by
  induction rs generalizing r with
  | nil => exact separated_cons.mpr ⟨hr, nofun, separated_nil⟩
  | cons r' rs ih =>
    obtain ⟨hr', hlt, hrs⟩ := separated_cons.mp h
    rw [Lib.merge]
    split_ifs with htou hbef
    · exact ih hrs (hull_ordered hr)
    · exact separated_cons.mpr ⟨hr', start_of_mem_merge hbef hlt, ih hrs hr⟩
    · have haft : r.stop < r'.start := (not_touches.mp htou).resolve_right hbef
      refine separated_cons.mpr ⟨hr, forall_mem_cons.mpr ⟨haft, fun s hs => ?_⟩, h⟩
      exact haft.trans_le (hr'.trans (hlt s hs).le)

/-- **Merging** leaves the intervals before and those after as they are, and makes one of all the others. -/
theorem merge_eq (h : Separated rs) (hr : r.start ≤ r.stop) : merge r rs =
      rs.filter (fun s => s.stop < r.start) ++ (rs.filter fun s => r.Touches s).foldl hull r ::
        rs.filter (fun s => r.stop < s.start) := by
  induction rs generalizing r with
  | nil => rfl
  | cons r' rs ih =>
    obtain ⟨hr', hlt, hrs⟩ := separated_cons.mp h
    rw [merge]
    split_ifs with htou hbef
    · -- the rest starts after `r'`, so it touches the hull where it touches `r`
      have hrest : ∀ s ∈ rs, (r.hull r').Touches s ↔ r.Touches s := by
        intro s hs
        rw [touches_hull htou (hrs.ordered s hs)]
        refine or_iff_left fun htou' => ?_
        exact absurd htou'.1 (not_le.mpr (hlt s hs))
      have hpast : ∀ s ∈ rs, ¬s.stop < r.start := by
        intro s hs
        exact not_lt.mpr (htou.2.trans ((hlt s hs).le.trans (hrs.ordered s hs)))
      have hbef : ¬r'.stop < r.start := not_lt.mpr htou.2
      have haft : ¬r.stop < r'.start := not_lt.mpr htou.1
      rw [ih hrs (hull_ordered hr), filter_cons_of_neg (by simpa using hbef),
        filter_cons_of_pos (by simpa using htou), filter_cons_of_neg (by simpa using haft),
        foldl_cons]
      congr 1
      · refine filter_congr fun s hs => decide_eq_decide.mpr (iff_of_false ?_ (hpast s hs))
        exact fun h => hpast s hs (h.trans_le (min_le_left _ _))
      · congr 1
        · rw [filter_congr fun s hs => decide_eq_decide.mpr (hrest s hs)]
        · refine filter_congr fun s hs => decide_eq_decide.mpr ?_
          exact max_lt_iff.trans (and_iff_left (hlt s hs))
    · have haft : ¬r.stop < r'.start := not_lt.mpr (hr'.trans (hbef.le.trans hr))
      rw [ih hrs hr, filter_cons_of_pos (by simpa using hbef),
        filter_cons_of_neg (by simpa using htou), filter_cons_of_neg (by simpa using haft),
        cons_append]
    · have haft : r.stop < r'.start := (not_touches.mp htou).resolve_right hbef
      have hall : ∀ s ∈ r' :: rs, r.stop < s.start :=
        forall_mem_cons.mpr ⟨haft, fun s hs => haft.trans_le (hr'.trans (hlt s hs).le)⟩
      have hnone : ∀ s ∈ r' :: rs, ¬s.stop < r.start := by
        intro s hs
        exact not_lt.mpr (hr.trans ((hall s hs).le.trans (h.ordered s hs)))
      rw [filter_eq_nil_iff.mpr fun s hs => by simpa using hnone s hs,
        filter_eq_nil_iff.mpr fun s hs => by simpa using not_touches.mpr (Or.inl (hall s hs)),
        filter_eq_self.mpr fun s hs => by simpa using hall s hs]
      rfl

/-! ## Covering -/

/-- Each interval lies within one of the others, its ends included. -/
def Covered (rs bs : List (Segment T)) : Prop := ∀ r ∈ rs, ∃ b ∈ bs, b.start ≤ r.start ∧ r.stop ≤ b.stop

theorem Covered.refl (rs : List (Segment T)) : Covered rs rs := fun r hr => ⟨r, hr, le_rfl, le_rfl⟩

theorem Covered.trans {cs : List (Segment T)} (h : Covered rs bs) (h' : Covered bs cs) : Covered rs cs := by
  intro r hr
  obtain ⟨b, hb, hst, hstop⟩ := h r hr
  obtain ⟨c, hc, hst', hstop'⟩ := h' b hb
  exact ⟨c, hc, hst'.trans hst, hstop.trans hstop'⟩

theorem covered_cons : Covered (r :: rs) bs ↔ (∃ b ∈ bs, b.start ≤ r.start ∧ r.stop ≤ b.stop) ∧ Covered rs bs :=
  forall_mem_cons

theorem covered_merge (r : Segment T) (rs : List (Segment T)) : Covered (r :: rs) (merge r rs) := by
  induction rs generalizing r with
  | nil => exact .refl _
  | cons r' rs ih =>
    rw [merge]
    split_ifs
    · obtain ⟨⟨b, hb, hst, hstop⟩, hrest⟩ := covered_cons.mp (ih (r.hull r'))
      obtain ⟨⟨hr, hr'⟩, hs, hs'⟩ := And.intro (le_min_iff.mp hst) (max_le_iff.mp hstop)
      exact covered_cons.mpr ⟨⟨b, hb, hr, hs⟩, covered_cons.mpr ⟨⟨b, hb, hr', hs'⟩, hrest⟩⟩
    · have hcons : Covered (r :: rs) (r' :: merge r rs) := (ih r).trans fun b hb => Covered.refl _ b (.tail _ hb)
      rw [covered_cons] at hcons
      exact covered_cons.mpr ⟨hcons.1, covered_cons.mpr ⟨Covered.refl _ r' mem_cons_self, hcons.2⟩⟩
    · exact .refl _

theorem Separated.eq_of_touches (h : Separated rs) {r s : Segment T} (hr : r ∈ rs) (hs : s ∈ rs)
    (htou : r.Touches s) : r = s := by
  by_contra hne
  have hapa : rs.Pairwise fun r s => ¬r.Touches s := h.pairwise.imp fun hlt => not_touches.mpr (.inl hlt)
  have : Std.Symm fun r s : Segment T => ¬r.Touches s := ⟨fun r s h h' => h h'.symm⟩
  exact hapa.forall hr hs hne htou

theorem Covered.merge (hbs : Separated bs) (h : Covered (r :: rs) bs) : Covered (merge r rs) bs := by
  induction rs generalizing r with
  | nil => exact h
  | cons r' rs ih =>
    obtain ⟨⟨b, hb, hst, hstop⟩, hrest⟩ := covered_cons.mp h
    obtain ⟨⟨b', hb', hst', hstop'⟩, hrest'⟩ := covered_cons.mp hrest
    rw [Lib.merge]
    split_ifs with htou
    · obtain rfl := hbs.eq_of_touches hb hb' ⟨hst'.trans (htou.1.trans hstop), hst.trans (htou.2.trans hstop')⟩
      exact ih (covered_cons.mpr ⟨⟨b, hb, le_min hst hst', max_le hstop hstop'⟩, hrest'⟩)
    · exact covered_cons.mpr ⟨⟨b', hb', hst', hstop'⟩, ih (covered_cons.mpr ⟨⟨b, hb, hst, hstop⟩, hrest'⟩)⟩
    · exact h

theorem Covered.subset (hrs : Separated rs) (h : Covered rs bs) (h' : Covered bs rs) : rs ⊆ bs := by
  intro r hr
  have hord := hrs.ordered r hr
  obtain ⟨b, hb, hst, hstop⟩ := h r hr
  obtain ⟨r', hr', hst', hstop'⟩ := h' b hb
  obtain rfl := hrs.eq_of_touches hr hr'
    ⟨hst'.trans (hst.trans hord), hord.trans (hstop.trans hstop')⟩
  have heq : r = b := by
    exact congrArg₂ Segment.mk (le_antisymm hst' hst) (le_antisymm hstop hstop')
  rwa [heq]

/-- Separated intervals that cover each other are the same. -/
theorem Covered.antisymm (hrs : Separated rs) (hbs : Separated bs) (h : Covered rs bs) (h' : Covered bs rs) :
    rs = bs := by
  have hsrt : ∀ {rs : List (Segment T)}, Separated rs → rs.Pairwise fun r s => r.start < s.start := fun h =>
    h.pairwise.imp_of_mem fun hr _ hlt => (h.ordered _ hr).trans_lt hlt
  exact List.Subset.antisymm_of_pairwise (hsrt hrs) (hsrt hbs) (h.subset hrs h') (h'.subset hbs h)

/-! ## Gaps -/

/-- The points from `a` on that are in none of the intervals, as pieces that end where the next interval starts. -/
theorem compl_points_cons [OrderTop T] {a : T} (h : Separated (r :: rs)) (ha : a ≤ r.start) :
    Set.Ico a ⊤ \ points (r :: rs) = Set.Ico a r.start ∪ Set.Ico r.stop ⊤ \ points rs := by
  obtain ⟨hr, hlt, hrs⟩ := separated_cons.mp h
  rw [points_cons]
  ext x
  simp only [Set.mem_sdiff, Set.mem_Ico, Set.mem_union, mem_points, not_or, not_and, not_lt]
  constructor
  · rintro ⟨⟨hax, hx⟩, hout, hrest⟩
    rcases lt_or_ge x r.start with hxr | hxr
    · exact Or.inl ⟨hax, hxr⟩
    · exact Or.inr ⟨⟨hout hxr, hx⟩, hrest⟩
  · rintro (⟨hax, hxr⟩ | ⟨⟨hxr, hx⟩, hrest⟩)
    · refine ⟨⟨hax, hxr.trans_le le_top⟩, fun hle => absurd hxr (not_lt.mpr hle), ?_⟩
      rintro ⟨s, hs, hsx, -⟩
      exact absurd (hxr.trans_le (hr.trans ((hlt s hs).le.trans hsx))) (lt_irrefl x)
    · exact ⟨⟨ha.trans (hr.trans hxr), hx⟩, fun _ => hxr, hrest⟩

end WebV8.Lib
