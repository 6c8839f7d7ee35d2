import Mathlib

/-!
# Extents of memory, and indices of them

An extent is a start and a size. Extents that are cut, joined or passed on are best followed by how
often each address is covered: cutting and joining does not change that, and a collection of extents is
disjoint exactly if no address is covered twice. The sum of the sizes then is at most the size of
the memory.

An index finds the entries of a collection by a key that no two of them share, such as the start or the
stop of disjoint extents.
-/

namespace WebV8.Lib

open Multiset

structure Extent where
  start : Nat
  size : Nat
deriving DecidableEq, Repr

namespace Extent

def stop (r : Extent) : Nat := r.start + r.size

def covers (r : Extent) (a : Nat) : Nat := if r.start ≤ a ∧ a < r.stop then 1 else 0

theorem covers_join {r s : Extent} (h : r.stop = s.start) (a : Nat) :
    covers ⟨r.start, r.size + s.size⟩ a = r.covers a + s.covers a := by
  simp only [covers, stop] at h ⊢
  grind

theorem covers_start {r : Extent} (h : 0 < r.size) : r.covers r.start = 1 :=
  if_pos ⟨le_rfl, by unfold stop; omega⟩

theorem covers_last {r : Extent} (h : 0 < r.size) : r.covers (r.stop - 1) = 1 :=
  if_pos (by unfold stop; omega)

theorem covers_le (r : Extent) (a : Nat) : r.covers a ≤ 1 := by
  unfold covers
  split_ifs <;> omega

theorem mem_of_covers (r : Extent) {a : Nat} (h : r.covers a ≠ 0) : r.start ≤ a ∧ a < r.stop := by
  by_contra hnot
  exact h (if_neg hnot)

def Apart (r s : Extent) : Prop := ∀ a, ¬(r.start ≤ a ∧ a < r.stop ∧ s.start ≤ a ∧ a < s.stop)

end Extent

open Extent

/-! ## Coverage -/

def coverage (R : Multiset Extent) (a : Nat) : Nat := (R.map fun r => r.covers a).sum

def totalSize (R : Multiset Extent) : Nat := (R.map Extent.size).sum

variable {R S : Multiset Extent} {r s : Extent} {M : Nat}

@[simp] theorem coverage_zero (a : Nat) : coverage 0 a = 0 := rfl

@[simp] theorem coverage_cons (r : Extent) (R : Multiset Extent) (a : Nat) :
    coverage (r ::ₘ R) a = r.covers a + coverage R a := by
  simp [coverage]

theorem coverage_singleton (r : Extent) (a : Nat) : coverage {r} a = r.covers a := by
  simp [coverage]

@[simp] theorem coverage_add (R S : Multiset Extent) (a : Nat) :
    coverage (R + S) a = coverage R a + coverage S a := by
  simp [coverage]

@[simp] theorem totalSize_zero : totalSize 0 = 0 := rfl

@[simp] theorem totalSize_cons (r : Extent) (R : Multiset Extent) : totalSize (r ::ₘ R) = r.size + totalSize R := by
  simp [totalSize]

@[simp] theorem totalSize_add (R S : Multiset Extent) : totalSize (R + S) = totalSize R + totalSize S := by
  simp [totalSize]

theorem covers_le_coverage (h : r ∈ R) (a : Nat) : r.covers a ≤ coverage R a := by
  obtain ⟨R, rfl⟩ := exists_cons_of_mem h
  rw [coverage_cons]
  exact Nat.le_add_right _ _

theorem coverage_eq_zero (h : ∀ s ∈ R, s.Apart r) {a : Nat} (ha : r.covers a ≠ 0) : coverage R a = 0 := by
  refine sum_eq_zero fun n hn => ?_
  obtain ⟨s, hs, rfl⟩ := mem_map.mp hn
  obtain ⟨h₁, h₂⟩ := r.mem_of_covers ha
  exact if_neg fun hsa => h s hs a ⟨hsa.1, hsa.2, h₁, h₂⟩

def NoOverlap (R : Multiset Extent) : Prop := ∀ a, coverage R a ≤ 1

theorem NoOverlap.keys_ne (h : NoOverlap (r ::ₘ R)) (hs : s ∈ R) (hr : 0 < r.size) (hs' : 0 < s.size) :
    s.start ≠ r.start ∧ s.stop ≠ r.stop := by
  constructor
  · intro heq
    have hcov := h r.start
    have hle := covers_le_coverage hs r.start
    rw [coverage_cons, covers_start hr] at hcov
    rw [← heq, covers_start hs', heq] at hle
    omega
  · intro heq
    have hcov := h (r.stop - 1)
    have hle := covers_le_coverage hs (r.stop - 1)
    rw [coverage_cons, covers_last hr] at hcov
    rw [← heq, covers_last hs', heq] at hle
    omega

theorem NoOverlap.mono (h : NoOverlap R) (hle : ∀ a, coverage S a ≤ coverage R a) : NoOverlap S :=
  fun a => (hle a).trans (h a)

theorem NoOverlap.apart (h : NoOverlap (r ::ₘ R)) (hs : s ∈ R) : Apart r s := by
  rintro a ⟨h₁, h₂, h₃, h₄⟩
  have hcov := h a
  have hle := covers_le_coverage hs a
  have hr : r.covers a = 1 := if_pos ⟨h₁, h₂⟩
  have hs : s.covers a = 1 := if_pos ⟨h₃, h₄⟩
  rw [coverage_cons] at hcov
  omega

theorem NoOverlap.pairwise : ∀ {l : List Extent}, NoOverlap (l : Multiset Extent) → l.Pairwise Apart
  | [], _ => .nil
  | r :: l, h => by
    have hl : NoOverlap (l : Multiset Extent) := h.mono fun a => by
      rw [← cons_coe, coverage_cons]
      exact Nat.le_add_left _ _
    rw [← cons_coe] at h
    exact .cons (fun s hs => h.apart (mem_coe.mpr hs)) hl.pairwise

/-- Every covered address is positive and below `M`. -/
def Within (R : Multiset Extent) (M : Nat) : Prop := ∀ a, coverage R a ≠ 0 → 0 < a ∧ a < M

theorem Within.bounds (h : Within R M) (hr : r ∈ R) (hpos : 0 < r.size) : 0 < r.start ∧ r.stop ≤ M := by
  have hfst := covers_le_coverage hr r.start
  have hlast := covers_le_coverage hr (r.stop - 1)
  rw [covers_start hpos] at hfst
  rw [covers_last hpos] at hlast
  have h₁ := (h r.start (by omega)).1
  have h₂ := (h (r.stop - 1) (by omega)).2
  exact ⟨h₁, by omega⟩

theorem Within.mono (h : Within R M) (hle : ∀ a, coverage S a ≤ coverage R a) : Within S M :=
  fun a ha => h a (by have := hle a; omega)

theorem sum_covers (r : Extent) (h : 0 < r.size → r.stop ≤ M) :
    ∑ a ∈ Finset.range M, r.covers a = r.size := by
  have hfil : (Finset.range M).filter (fun a => r.start ≤ a ∧ a < r.stop) = Finset.Ico r.start r.stop := by
    ext a
    rw [Finset.mem_filter, Finset.mem_range, Finset.mem_Ico]
    unfold stop at h ⊢
    omega
  simp only [covers, Finset.sum_boole, hfil, Nat.card_Ico]
  exact Nat.add_sub_cancel_left r.start r.size

theorem Within.sum_coverage (h : Within R M) : ∑ a ∈ Finset.range M, coverage R a = totalSize R := by
  induction R using Multiset.induction with
  | empty => simp
  | cons r R ih =>
    have hr : 0 < r.size → r.stop ≤ M := fun hpos => (h.bounds (mem_cons_self _ _) hpos).2
    have hR := ih (h.mono fun a => by simp)
    simp only [coverage_cons, Finset.sum_add_distrib, totalSize_cons, sum_covers r hr, hR]

theorem NoOverlap.totalSize_le (h : NoOverlap R) (hM : Within R M) : totalSize R ≤ M := by
  rw [← hM.sum_coverage]
  calc ∑ a ∈ Finset.range M, coverage R a ≤ ∑ _a ∈ Finset.range M, 1 := Finset.sum_le_sum fun a _ => h a
    _ = M := by simp

theorem card_le_totalSize (h : ∀ r ∈ R, 0 < r.size) : R.card ≤ totalSize R := by
  induction R using Multiset.induction with
  | empty => simp
  | cons r R ih =>
    rw [forall_mem_cons] at h
    have hR := ih h.2
    rw [card_cons, totalSize_cons]
    omega

/-! ## Indices -/

section index

variable {K ι β : Type} [DecidableEq K]

def Index (key : β → K) (m : K → Option ι) (N : Multiset (ι × β)) : Prop :=
  ∀ k x, m k = some x ↔ ∃ v, (x, v) ∈ N ∧ key v = k

variable {key : β → K} {m : K → Option ι} {N : Multiset (ι × β)} {x : ι} {v w : β}

section

omit [DecidableEq K]

theorem index_empty (key : β → K) : Index key (fun _ => (none : Option ι)) 0 := by
  intro k x
  refine iff_of_false nofun ?_
  rintro ⟨v, hmem, -⟩
  exact notMem_zero _ hmem

theorem Index.find (h : Index key m N) (hmem : (x, v) ∈ N) : m (key v) = some x :=
  (h _ _).mpr ⟨v, hmem, rfl⟩

theorem Index.eq_none (h : Index key m N) {k : K} (hk : ∀ e ∈ N, key e.2 ≠ k) : m k = none := by
  cases hm : m k with
  | none => rfl
  | some x =>
    obtain ⟨v, hmem, hv⟩ := (h k x).mp hm
    exact absurd hv (hk _ hmem)

theorem Index.ne_of_none (h : Index key m N) {k : K} (hk : m k = none) : ∀ e ∈ N, key e.2 ≠ k := by
  intro e he heq
  have hfou := h.find he
  rw [heq, hk] at hfou
  cases hfou

end

theorem Index.erase (h : Index key m ((x, v) ::ₘ N)) (hkeys : ∀ e ∈ N, key e.2 ≠ key v) :
    Index key (Function.update m (key v) none) N := by
  intro k y
  by_cases hk : k = key v
  · rw [hk, Function.update_self]
    refine iff_of_false nofun ?_
    rintro ⟨w, hmem, hw⟩
    exact hkeys _ hmem hw
  · rw [Function.update_of_ne hk, h k y]
    constructor
    · rintro ⟨w, hmem, hw⟩
      rcases mem_cons.mp hmem with heq | hmem
      · obtain ⟨-, rfl⟩ := Prod.mk.inj heq
        exact absurd hw.symm hk
      · exact ⟨w, hmem, hw⟩
    · rintro ⟨w, hmem, hw⟩
      exact ⟨w, mem_cons_of_mem hmem, hw⟩

theorem Index.insert (h : Index key m N) (hkeys : ∀ e ∈ N, key e.2 ≠ key v) (x : ι) :
    Index key (Function.update m (key v) (some x)) ((x, v) ::ₘ N) := by
  intro k y
  by_cases hk : k = key v
  · rw [hk, Function.update_self, Option.some_inj]
    constructor
    · rintro rfl
      exact ⟨v, mem_cons_self _ _, rfl⟩
    · rintro ⟨w, hmem, hw⟩
      rcases mem_cons.mp hmem with heq | hmem
      · exact (Prod.mk.inj heq).1.symm
      · exact absurd hw (hkeys _ hmem)
  · rw [Function.update_of_ne hk, h k y]
    constructor
    · rintro ⟨w, hmem, hw⟩
      exact ⟨w, mem_cons_of_mem hmem, hw⟩
    · rintro ⟨w, hmem, hw⟩
      rcases mem_cons.mp hmem with heq | hmem
      · obtain ⟨-, rfl⟩ := Prod.mk.inj heq
        exact absurd hw.symm hk
      · exact ⟨w, hmem, hw⟩

omit [DecidableEq K] in
theorem Index.replace (h : Index key m ((x, v) ::ₘ N)) (hkey : key w = key v) : Index key m ((x, w) ::ₘ N) := by
  intro k y
  rw [h k y]
  constructor
  · rintro ⟨u, hmem, hu⟩
    rcases mem_cons.mp hmem with heq | hmem
    · obtain ⟨rfl, rfl⟩ := Prod.mk.inj heq
      exact ⟨w, mem_cons_self _ _, hkey.trans hu⟩
    · exact ⟨u, mem_cons_of_mem hmem, hu⟩
  · rintro ⟨u, hmem, hu⟩
    rcases mem_cons.mp hmem with heq | hmem
    · obtain ⟨rfl, rfl⟩ := Prod.mk.inj heq
      exact ⟨v, mem_cons_self _ _, hkey.symm.trans hu⟩
    · exact ⟨u, mem_cons_of_mem hmem, hu⟩

end index

end WebV8.Lib
