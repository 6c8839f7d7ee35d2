import WebV8.WTF.MetaAllocatorPages

/-!
# Moves of extents in a `MetaAllocator`

Every operation moves extents between three places: the free space, the handles, and the hands of
the operation itself. `Holding cfg s R N c` is the invariant while the operation holds the extents
`R`; between operations it holds none. Each part of an operation is a lemma about one move.

The counts `c` of the pages may be larger than the number of handles on them, because a handle that
shrinks to nothing can leave a page behind. That is kept apart (`occupied`), so that the accounting of
space does not depend on it.
-/

namespace WebV8

open Lib RedBlackTree List Multiset

namespace MetaAllocator

open FreeSpaceMaps

variable {ι : Type} [DecidableEq ι] (cfg : Config)

def limit : Nat := 2 ^ 64 - 1 - cfg.pageSize

/-- The invariant, while extents `R` are neither free nor in a handle. -/
structure Holding (s : MetaAllocator ι) (R : Multiset Extent) (N : Multiset (ι × Extent))
    (c : Nat → Nat) : Prop where
  free : FreeOk s.toFreeSpaceMaps N
  noOverlap : NoOverlap (R + ((s.handles : Multiset Extent) + extents N))
  within : Within (R + ((s.handles : Multiset Extent) + extents N)) (limit cfg)
  allocated : s.bytesAllocated = totalSize (s.handles : Multiset Extent)
  reserved : s.bytesReserved =
    totalSize R + (totalSize (s.handles : Multiset Extent) + totalSize (extents N))
  granules : ∀ r ∈ s.handles, cfg.allocationGranule ∣ r.size
  counted : Counted cfg s.toPageOccupancy c
  occupied : ∀ page, occupancy cfg s.handles page ≤ c page

variable {cfg} {s : MetaAllocator ι} {R : Multiset Extent} {N : Multiset (ι × Extent)} {c : Nat → Nat}
  {r : Extent} {new : ι} {i : Nat} {handles : List Extent}

theorem pageSize_lt (cfg : Config) : cfg.pageSize < 2 ^ 32 :=
  Nat.pow_lt_pow_right (by decide) cfg.page_lt

omit [DecidableEq ι] in
theorem Holding.total_le (h : Holding cfg s R N c) :
    totalSize R + (totalSize (s.handles : Multiset Extent) + totalSize (extents N)) ≤ limit cfg := by
  have hle := h.noOverlap.totalSize_le h.within
  rwa [totalSize_add, totalSize_add] at hle

theorem limit_lt (cfg : Config) : limit cfg < 2 ^ 64 := by
  unfold limit
  omega

/-! ## Moves -/

omit [DecidableEq ι] in
/-- **A move** covers the same addresses as before, and so keeps the size of all the extents. -/
theorem Holding.move {s' : MetaAllocator ι} {R' : Multiset Extent} {N' : Multiset (ι × Extent)}
    {c' : Nat → Nat} (h : Holding cfg s R N c)
    (hcov : ∀ a, coverage (R' + ((s'.handles : Multiset Extent) + extents N')) a =
      coverage (R + ((s.handles : Multiset Extent) + extents N)) a)
    (hfree : FreeOk s'.toFreeSpaceMaps N')
    (halo : s'.bytesAllocated = totalSize (s'.handles : Multiset Extent))
    (hrsv : s'.bytesReserved = s.bytesReserved)
    (hgra : ∀ r ∈ s'.handles, cfg.allocationGranule ∣ r.size)
    (hcou : Counted cfg s'.toPageOccupancy c')
    (hocc : ∀ page, occupancy cfg s'.handles page ≤ c' page) : Holding cfg s' R' N' c' := by
  have hwit := h.within.mono fun a => (hcov a).le
  refine ⟨hfree, h.noOverlap.mono fun a => (hcov a).le, hwit, halo, ?_, hgra, hcou, hocc⟩
  rw [hrsv, h.reserved]
  simp only [← totalSize_add]
  rw [← hwit.sum_coverage, ← h.within.sum_coverage]
  exact Finset.sum_congr rfl fun a _ => (hcov a).symm

theorem Holding.addFreeSpace (h : Holding cfg s (r ::ₘ R) N c) (hpos : 0 < r.size)
    (hnew : ¬s.freeSpaceSizeMap.InUse new) : ∃ f N', s.toFreeSpaceMaps.addFreeSpace r.start r.size new = some f ∧
      Holding cfg { s with toFreeSpaceMaps := f } R N' c := by
  have hsub : ∀ a, coverage (r ::ₘ extents N) a ≤
      coverage (r ::ₘ R + ((s.handles : Multiset Extent) + extents N)) a := by
    intro a
    simp only [coverage_cons, coverage_add]
    omega
  have hnew' : new ∉ N.map Prod.fst := fun hin => hnew (h.free.sizes.inUse hin)
  obtain ⟨f, N', hadd, hfree, hcov⟩ := addFreeSpace_spec hpos (limit_lt cfg) h.free
    (h.noOverlap.mono hsub) (h.within.mono hsub) hnew'
  refine ⟨f, N', hadd, h.move (fun a => ?_) hfree h.allocated rfl h.granules h.counted h.occupied⟩
  simp only [coverage_cons, coverage_add, hcov]
  omega

theorem Holding.find (h : Holding cfg s 0 N c) {sizeInBytes : Nat} (hpos : 0 < sizeInBytes) :
    (s.toFreeSpaceMaps.findAndRemoveFreeSpace cfg sizeInBytes = some (s.toFreeSpaceMaps, 0) ∧
      ∀ e ∈ N, e.2.size < sizeInBytes) ∨
    ∃ f N' start, s.toFreeSpaceMaps.findAndRemoveFreeSpace cfg sizeInBytes = some (f, start) ∧
      start ≠ 0 ∧ Holding cfg { s with toFreeSpaceMaps := f } {⟨start, sizeInBytes⟩} N' c := by
  have hsub : ∀ a, coverage (extents N) a ≤
      coverage (0 + ((s.handles : Multiset Extent) + extents N)) a := by
    intro a
    simp only [coverage_add]
    omega
  rcases findAndRemoveFreeSpace_spec cfg hpos (limit_lt cfg) h.free (h.noOverlap.mono hsub)
    (h.within.mono hsub) with hnone | ⟨f, N', start, hfind, hst, hfree, hcov⟩
  · exact .inl hnone
  · refine .inr ⟨f, N', start, hfind, hst, h.move (fun a => ?_) hfree h.allocated rfl h.granules h.counted
      h.occupied⟩
    rw [coverage_add, coverage_add, coverage_singleton, Nat.add_left_comm, hcov, zero_add, coverage_add]

section

omit [DecidableEq ι]

theorem Holding.fresh (h : Holding cfg s 0 N c) (hr : FreshRange cfg s r) :
    Holding cfg { s with bytesReserved := word (s.bytesReserved + r.size) } {r} N c := by
  have hfree : ∀ v ∈ extents N, v.Apart r := by
    intro v hv
    obtain ⟨⟨x, v⟩, hmem, rfl⟩ := mem_map.mp hv
    have hin : s.freeSpaceSizeMap.InUse x := h.free.sizes.inUse (mem_map_of_mem _ hmem)
    have hapa := hr.free x hin
    rwa [show s.node x = v from h.free.sizes.data_eq hmem] at hapa
  have hapa : ∀ v ∈ (s.handles : Multiset Extent) + extents N, v.Apart r := by
    intro v hv
    rcases mem_add.mp hv with hv | hv
    · exact hr.handles v hv
    · exact hfree v hv
  have hnoOv : NoOverlap ({r} + ((s.handles : Multiset Extent) + extents N)) := by
    intro a
    have hold := h.noOverlap a
    rw [zero_add] at hold
    rw [singleton_add, coverage_cons]
    by_cases ha : r.covers a = 0
    · omega
    · have hzero := coverage_eq_zero hapa ha
      have hone := r.covers_le a
      omega
  have hwit : Within ({r} + ((s.handles : Multiset Extent) + extents N)) (limit cfg) := by
    intro a ha
    rw [singleton_add, coverage_cons] at ha
    by_cases hra : r.covers a = 0
    · refine h.within a ?_
      rw [zero_add]
      omega
    · obtain ⟨h₁, h₂⟩ := r.mem_of_covers hra
      have hst := hr.start_pos
      have hstop := hr.stop_le
      unfold limit
      omega
  refine ⟨h.free, hnoOv, hwit, h.allocated, ?_, h.granules, h.counted, h.occupied⟩
  have htot := hnoOv.totalSize_le hwit
  have hlim := limit_lt cfg
  rw [singleton_add, totalSize_cons, totalSize_add] at htot
  have hrsv := h.reserved
  rw [totalSize_zero] at hrsv
  rw [← cons_zero, totalSize_cons, totalSize_zero]
  dsimp only
  rw [word_eq (by omega), hrsv]
  omega

theorem Holding.cut {p q : Extent} (h : Holding cfg s {r} N c) (hr : r = ⟨p.start, p.size + q.size⟩)
    (hcut : p.stop = q.start) : Holding cfg s (q ::ₘ {p}) N c := by
  subst hr
  refine h.move (fun a => ?_) h.free h.allocated rfl h.granules h.counted h.occupied
  simp only [coverage_singleton, coverage_cons, coverage_add, Extent.covers_join hcut]
  omega

theorem Holding.handOut (h : Holding cfg s {r} N c) (hpos : 0 < r.size)
    (hgra : cfg.allocationGranule ∣ r.size) :
    Holding cfg
      { s with
        toPageOccupancy := s.toPageOccupancy.incrementPageOccupancy cfg r.start r.size
        bytesAllocated := word (s.bytesAllocated + r.size)
        handles := r :: s.handles }
      0 N (fun page => c page + if OnPage cfg page r then 1 else 0) := by
  have hmem : r ∈ {r} + ((s.handles : Multiset Extent) + extents N) := by simp
  have hstop := (h.within.bounds hmem hpos).2
  have hlim : r.stop + cfg.pageSize < 2 ^ 64 := by
    have hpage := pageSize_lt cfg
    unfold limit at hstop
    omega
  have htot := h.total_le
  have hlim' := limit_lt cfg
  simp only [← cons_zero, totalSize_cons, totalSize_zero] at htot
  have hword : word (s.bytesAllocated + r.size) = s.bytesAllocated + r.size := by
    rw [h.allocated]
    exact word_eq (by omega)
  refine h.move (fun a => ?_) h.free ?_ rfl ?_ (incrementPageOccupancy_counted h.counted hpos hlim) ?_
  · simp only [← cons_coe, coverage_singleton, coverage_cons, coverage_add, coverage_zero]
    omega
  · rw [hword, h.allocated, ← cons_coe, totalSize_cons, Nat.add_comm]
  · exact forall_mem_cons.mpr ⟨hgra, h.granules⟩
  · intro page
    have hold := h.occupied page
    rw [occupancy_cons]
    omega

end

theorem handles_eq (hi : handles[i]? = some r) :
    (r :: handles.eraseIdx i).Perm handles := by
  obtain ⟨hlt, hget⟩ := List.getElem?_eq_some_iff.mp hi
  rw [← hget]
  exact getElem_cons_eraseIdx_perm hlt

theorem handles_coe (hi : handles[i]? = some r) :
    (handles : Multiset Extent) = r ::ₘ (handles.eraseIdx i : List Extent) := by
  rw [cons_coe]
  exact (coe_eq_coe.mpr (handles_eq hi)).symm

theorem occupancy_perm {l l' : List Extent} (h : l.Perm l') (page : Nat) :
    occupancy cfg l page = occupancy cfg l' page := h.countP_eq _

section

omit [DecidableEq ι]

theorem Holding.release (h : Holding cfg s 0 N c) (hi : s.handles[i]? = some r)
    (hpos : 0 < r.size) :
    ∃ o, s.toPageOccupancy.decrementPageOccupancy cfg r.start r.size = some o ∧ Holding cfg
        { s with
          toPageOccupancy := o
          bytesAllocated := wordSub s.bytesAllocated r.size
          handles := s.handles.eraseIdx i }
        {r} N (fun page => c page - if OnPage cfg page r then 1 else 0) := by
  have hcoe := handles_coe hi
  have hocc : ∀ page, occupancy cfg s.handles page =
      occupancy cfg (s.handles.eraseIdx i) page + if OnPage cfg page r then 1 else 0 := by
    intro page
    rw [← occupancy_perm (handles_eq hi), occupancy_cons]
  have hmem : r ∈ 0 + ((s.handles : Multiset Extent) + extents N) := by
    rw [hcoe]
    simp
  have hstop := (h.within.bounds hmem hpos).2
  have hlim := limit_lt cfg
  have hcnt : ∀ page, OnPage cfg page r → c page ≠ 0 := by
    intro page hon
    have hle := h.occupied page
    rw [hocc, if_pos hon] at hle
    omega
  obtain ⟨o, hdec, hcou⟩ := decrementPageOccupancy_counted h.counted hpos (by omega) hcnt
  have htot := h.total_le
  have halo := h.allocated
  simp only [hcoe, totalSize_cons, totalSize_zero] at htot halo
  refine ⟨o, hdec, h.move (fun a => ?_) h.free ?_ rfl
    (fun v hv => h.granules v (mem_of_mem_eraseIdx hv)) hcou fun page => ?_⟩
  · simp only [hcoe, coverage_singleton, coverage_cons, coverage_add, coverage_zero]
    omega
  · rw [halo, wordSub_eq (by omega) (Nat.le_add_right _ _), Nat.add_sub_cancel_left]
  · have hle := h.occupied page
    rw [hocc] at hle
    dsimp only
    omega

theorem Holding.drop (h : Holding cfg s 0 N c) (hi : s.handles[i]? = some r)
    (hzero : r.size = 0) : Holding cfg { s with handles := s.handles.eraseIdx i } 0 N c := by
  have hcoe := handles_coe hi
  have halo := h.allocated
  rw [hcoe, totalSize_cons, hzero, Nat.zero_add] at halo
  refine h.move (fun a => ?_) h.free halo rfl (fun v hv => h.granules v (mem_of_mem_eraseIdx hv))
    h.counted fun page => ?_
  · have hcov : r.covers a = 0 := if_neg (by unfold Extent.stop; omega)
    simp only [hcoe, coverage_cons, coverage_add]
    omega
  · have hle := h.occupied page
    rw [← occupancy_perm (handles_eq hi), occupancy_cons] at hle
    dsimp only
    omega

theorem Holding.shrink (h : Holding cfg s 0 N c) {newSize : Nat} (hi : s.handles[i]? = some r)
    (hlt : newSize < r.size) (hgra : cfg.allocationGranule ∣ newSize) :
    ∃ o, s.toPageOccupancy.decrementFreedPages cfg (r.start + newSize) (r.size - newSize) = some o ∧ Holding cfg
        { s with
          toPageOccupancy := o
          bytesAllocated := wordSub s.bytesAllocated (r.size - newSize)
          handles := s.handles.set i ⟨r.start, newSize⟩ }
        {⟨r.start + newSize, r.size - newSize⟩} N
        (fun page => c page - if BeginsIn cfg page ⟨r.start + newSize, r.size - newSize⟩ then 1 else 0) ∧
      ∀ page, occupancy cfg s.handles page = occupancy cfg (s.handles.set i ⟨r.start, newSize⟩) page +
          (if BeginsIn cfg page ⟨r.start + newSize, r.size - newSize⟩ then 1 else 0) +
          if LeftBehind cfg page r.start newSize then 1 else 0 := by
  have hperm := handles_eq hi
  obtain ⟨hilt, -⟩ := List.getElem?_eq_some_iff.mp hi
  have hperm' := set_perm_cons_eraseIdx hilt (⟨r.start, newSize⟩ : Extent)
  have hcoe := handles_coe hi
  have hcoe' : (s.handles.set i ⟨r.start, newSize⟩ : Multiset Extent) =
      ⟨r.start, newSize⟩ ::ₘ (s.handles.eraseIdx i : List Extent) := by
    rw [cons_coe]
    exact coe_eq_coe.mpr hperm'
  obtain ⟨q, hq⟩ : ∃ q : Extent, q = ⟨r.start + newSize, r.size - newSize⟩ := ⟨_, rfl⟩
  have hqsi : newSize + q.size = r.size := by
    rw [hq]
    exact Nat.add_sub_cancel' hlt.le
  have hcov : ∀ a, r.covers a = (⟨r.start, newSize⟩ : Extent).covers a + q.covers a := by
    intro a
    rw [← Extent.covers_join (r := ⟨r.start, newSize⟩) (by rw [hq]; rfl), hqsi]
  have hocc : ∀ page, occupancy cfg s.handles page = occupancy cfg (s.handles.set i ⟨r.start, newSize⟩) page +
        (if BeginsIn cfg page q then 1 else 0) + if LeftBehind cfg page r.start newSize then 1 else 0 := by
    intro page
    have hpage : (if OnPage cfg page r then 1 else 0) = (if OnPage cfg page ⟨r.start, newSize⟩ then 1 else 0) +
          (if BeginsIn cfg page ⟨r.start + newSize, r.size - newSize⟩ then 1 else 0) +
          if LeftBehind cfg page r.start newSize then 1 else 0 := onPage_shrink hlt page
    rw [← occupancy_perm hperm, occupancy_perm hperm', occupancy_cons, occupancy_cons, hq]
    omega
  have hmem : r ∈ 0 + ((s.handles : Multiset Extent) + extents N) := by
    rw [hcoe]
    simp
  have hstop := (h.within.bounds hmem (Nat.zero_lt_of_lt hlt)).2
  have hqst : q.stop + cfg.pageSize < 2 ^ 64 := by
    have hst : q.start = r.start + newSize := by rw [hq]
    simp only [limit, Extent.stop] at hstop ⊢
    omega
  have hcnt : ∀ page, BeginsIn cfg page q → c page ≠ 0 := by
    intro page hbeg
    have hle := h.occupied page
    rw [hocc, if_pos hbeg] at hle
    omega
  obtain ⟨o, hdec, hcou⟩ := decrementFreedPages_counted h.counted hqst hcnt
  have htot := h.total_le
  have hlim := limit_lt cfg
  have halo := h.allocated
  simp only [hcoe, totalSize_cons, totalSize_zero] at htot halo
  rw [hq] at hdec hocc hcou
  refine ⟨o, hdec, ?_, hocc⟩
  rw [← hq] at hcou hocc ⊢
  have hfre : r.size - newSize = q.size := by rw [hq]
  rw [hfre]
  refine h.move (fun a => ?_) h.free ?_ rfl (fun v hv => ?_) hcou fun page => ?_
  · simp only [hcoe, hcoe', hcov, coverage_singleton, coverage_cons, coverage_add, coverage_zero]
    omega
  · rw [halo, wordSub_eq (by omega) (by omega), hcoe', totalSize_cons]
    dsimp only
    omega
  · rcases mem_or_eq_of_mem_set hv with hv | rfl
    · exact h.granules v hv
    · exact hgra
  · have hle := h.occupied page
    rw [hocc] at hle
    dsimp only
    omega

end

end MetaAllocator

end WebV8
