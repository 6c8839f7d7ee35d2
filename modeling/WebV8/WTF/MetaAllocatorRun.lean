import WebV8.WTF.MetaAllocatorMoves

/-!
# Runs of a `MetaAllocator`

The operations, put together from moves, and any sequence of them. Two things go wrong.

The number of pages that `allocate` requests is computed in a `size_t` and overflows for a size within
a page of the largest one. `allocateNewSpace` is then asked for no pages, and a handle is made
that is larger than what it got.

A handle that shrinks to nothing in the middle of a page is not counted on that page any more, but
the page is not told: only pages that are completely free are.
-/

namespace WebV8

open Lib RedBlackTree Option Multiset Nat LinkedTree

namespace MetaAllocator

open FreeSpaceMaps

variable {ι : Type} [DecidableEq ι] {cfg : Config} {s s' : MetaAllocator ι} {N : Multiset (ι × Extent)}
  {c : Nat → Nat} {r : Extent} {new : ι}

/-! ## Rounding -/

theorem granule_pos (cfg : Config) : 0 < cfg.allocationGranule := Nat.two_pow_pos _

variable {n start sizeInBytes : Nat} {space : Nat → Nat × Nat}

theorem roundUp_spec {m : Nat} (h : roundUp cfg n = some m) : n ≤ m ∧ cfg.allocationGranule ∣ m ∧ m < 2 ^ 64 ∧
      ∀ z, cfg.allocationGranule ∣ z → n ≤ z → m ≤ z := by
  have hg := granule_pos cfg
  unfold roundUp at h
  split_ifs at h with hcra
  obtain rfl := Option.some.inj h
  have hlt : n + cfg.allocationGranule - 1 < 2 ^ 64 := by omega
  have heq : maskBelow (word (n + cfg.allocationGranule - 1)) cfg.allocationGranule =
      (n + cfg.allocationGranule - 1) / cfg.allocationGranule * cfg.allocationGranule := by
    rw [word_eq hlt]
    exact maskBelow_eq hlt (lt_trans cfg.granule_lt (by decide))
  rw [heq]
  have hmod := div_add_mod' (n + cfg.allocationGranule - 1) cfg.allocationGranule
  have hrest := mod_lt (n + cfg.allocationGranule - 1) hg
  refine ⟨by omega, dvd_mul_left _ _, by omega, ?_⟩
  rintro z ⟨k, rfl⟩ hle
  have hk : (n + cfg.allocationGranule - 1) / cfg.allocationGranule ≤ k := by
    rw [← Nat.lt_add_one_iff, div_lt_iff_lt_mul hg, add_one_mul, mul_comm k]
    omega
  rw [mul_comm cfg.allocationGranule]
  exact mul_le_mul_right _ hk

theorem roundUp_eq_zero {m : Nat} (h : roundUp cfg n = some m) : m = 0 ↔ n = 0 := by
  obtain ⟨hle, -, -, hlea⟩ := roundUp_spec h
  constructor
  · intro hm
    omega
  · intro hn
    have := hlea 0 (dvd_zero _) hn.le
    omega

theorem le_requestedNumberOfPages (h : n + cfg.pageSize ≤ 2 ^ 64) :
    n ≤ requestedNumberOfPages cfg n * cfg.pageSize := by
  have hword : word (n + cfg.pageSize - 1) = n + cfg.pageSize - 1 := word_eq (by omega)
  rw [requestedNumberOfPages, hword, shiftRight_eq_div_pow]
  exact (le_page_iff n _).mp le_rfl

/-! ## Conditions -/

/-- The condition on sizes: the number of pages requested does not overflow, or nothing is got. -/
def RequestFits (cfg : Config) : MetaAllocatorOp ι → Prop
  | .allocate sizeInBytes space _ => ∀ rounded, roundUp cfg sizeInBytes = some rounded →
    (space (requestedNumberOfPages cfg rounded)).1 = 0 ∨ rounded + cfg.pageSize ≤ 2 ^ 64
  | _ => True

/-- The condition on shrinking: a handle shrinks to nothing only if it starts with a page. -/
def ShrinkFits (cfg : Config) (s : MetaAllocator ι) : MetaAllocatorOp ι → Prop
  | .shrink i newSizeInBytes _ => ∀ r, s.handles[i]? = some r → 0 < r.size → newSizeInBytes = 0 →
    cfg.pageSize ∣ r.start
  | _ => True

def leak (cfg : Config) (s : MetaAllocator ι) (page : Nat) : MetaAllocatorOp ι → Nat
  | .shrink i newSizeInBytes _ =>
    (s.handles[i]?).elim 0 fun r =>
      if 0 < r.size then if LeftBehind cfg page r.start newSizeInBytes then 1 else 0 else 0
  | _ => 0

/-! ## Operations -/

/-- What an operation leaves: the invariant, and counts that are too large only by what has leaked. -/
def Leaves (cfg : Config) (s : MetaAllocator ι) (c : Nat → Nat) (lost : Nat → Nat)
    (s' : MetaAllocator ι) : Prop :=
  ∃ N' c', Holding cfg s' 0 N' c' ∧
    ∀ page, c' page + occupancy cfg s.handles page =
      c page + occupancy cfg s'.handles page + lost page

omit [DecidableEq ι] in
theorem leaves_self (h : Holding cfg s 0 N c) : Leaves cfg s c (fun _ => 0) s :=
  ⟨N, c, h, fun _ => rfl⟩

omit [DecidableEq ι] in
theorem handOut_leaves (h : Holding cfg s {r} N c) (hpos : 0 < r.size) (hgra : cfg.allocationGranule ∣ r.size) :
    Leaves cfg s c (fun _ => 0) (handOut cfg s r.start r.size).1 := by
  refine ⟨N, _, h.handOut hpos hgra, fun page => ?_⟩
  change _ = c page + occupancy cfg (r :: s.handles) page + 0
  rw [occupancy_cons]
  omega

variable (h : Holding cfg s 0 N c)
include h

theorem allocateFrom_leaves {size numberOfPages : Nat}
    (hpos : 0 < size) (hgra : cfg.allocationGranule ∣ size) (hsize : size + cfg.pageSize ≤ 2 ^ 64)
    (hpag : requestedNumberOfPages cfg size ≤ numberOfPages)
    (hfre : FreshRange cfg s ⟨start, numberOfPages * cfg.pageSize⟩) (hnew : ¬s.freeSpaceSizeMap.InUse new) :
    ∃ s' handle, allocateFrom cfg s size start numberOfPages new = some (s', some handle) ∧
      Leaves cfg s c (fun _ => 0) s' := by
  have hstop := hfre.stop_le
  simp only [Extent.stop] at hstop
  have hrou : word (numberOfPages <<< cfg.logPageSize) = numberOfPages * cfg.pageSize := by
    rw [shiftLeft_eq]
    exact word_eq (n := numberOfPages * cfg.pageSize) (by omega)
  have heno : size ≤ numberOfPages * cfg.pageSize :=
    (le_requestedNumberOfPages hsize).trans (mul_le_mul_right _ hpag)
  have h₁ := h.fresh hfre
  simp only [allocateFrom, hrou]
  by_cases hlt : numberOfPages * cfg.pageSize > size
  · -- what is left over is free space
    rw [if_pos hlt]
    obtain ⟨p, hp⟩ : ∃ p : Extent, p = ⟨start, size⟩ := ⟨_, rfl⟩
    obtain ⟨q, hq⟩ : ∃ q : Extent, q = ⟨start + size, numberOfPages * cfg.pageSize - size⟩ := ⟨_, rfl⟩
    have hcut : p.stop = q.start := by rw [hp, hq]; rfl
    have hjoin : (⟨start, numberOfPages * cfg.pageSize⟩ : Extent) = ⟨p.start, p.size + q.size⟩ := by
      rw [hp, hq]
      exact congrArg (Extent.mk start) (Nat.add_sub_cancel' heno).symm
    have hqpos : 0 < q.size := by
      rw [hq]
      exact Nat.sub_pos_of_lt hlt
    obtain ⟨f, N', hadd, h₂⟩ := (h₁.cut hjoin hcut).addFreeSpace hqpos hnew
    have hst : word (start + size) = q.start := by
      rw [hq]
      exact word_eq (by omega)
    have hrest : wordSub (numberOfPages * cfg.pageSize) size = q.size := by
      rw [hq]
      exact wordSub_eq (by omega) heno
    have hlea := handOut_leaves h₂ (by rwa [hp]) (by rwa [hp])
    rw [hp] at hlea
    refine ⟨_, ⟨start, size⟩, ?_, hlea⟩
    rw [hst, hrest]
    exact (congrArg (Option.bind · _) hadd).trans rfl
  · rw [if_neg hlt]
    have heq : numberOfPages * cfg.pageSize = size := by omega
    rw [heq] at h₁ ⊢
    exact ⟨_, ⟨start, size⟩, rfl, handOut_leaves h₁ hpos hgra⟩

theorem allocate_leaves (hok : AllocatorCallOk cfg s (.allocate sizeInBytes space new))
    (hfits : RequestFits cfg (.allocate sizeInBytes space new)) :
    ∃ s' handle, s.allocate cfg sizeInBytes space new = some (s', handle) ∧ Leaves cfg s c (fun _ => 0) s' := by
  obtain ⟨hcra, hnew, hspa⟩ := hok
  unfold allocate
  by_cases hzero : sizeInBytes = 0
  · rw [if_pos hzero]
    exact ⟨s, none, rfl, leaves_self h⟩
  rw [if_neg hzero]
  obtain ⟨size, hrnd⟩ := ne_none_iff_exists'.mp (hcra.resolve_left hzero)
  obtain ⟨-, hgra, -, -⟩ := roundUp_spec hrnd
  have hpos : 0 < size := pos_of_ne_zero fun h => hzero ((roundUp_eq_zero hrnd).mp h)
  rcases h.find hpos with ⟨hfind, -⟩ | ⟨f, N', start, hfind, hst, h'⟩
  · simp only [hrnd, hfind, bind_eq_bind, bind_some, if_true]
    obtain ⟨⟨start, numberOfPages⟩, hgot⟩ : ∃ got, space (requestedNumberOfPages cfg size) = got := ⟨_, rfl⟩
    simp only [hgot]
    by_cases hst : start = 0
    · rw [if_pos hst]
      exact ⟨s, none, rfl, leaves_self h⟩
    · rw [if_neg hst]
      obtain ⟨hpag, -, hfre⟩ := hspa _ _ _ hrnd hgot hst
      have hsize := (hfits size hrnd).resolve_left (by rwa [hgot])
      obtain ⟨s', handle, hfrom, hlea⟩ := allocateFrom_leaves h hpos hgra hsize hpag hfre hnew
      exact ⟨s', some handle, hfrom, hlea⟩
  · simp only [hrnd, hfind, bind_eq_bind, bind_some, if_neg hst]
    exact ⟨_, some ⟨start, size⟩, rfl, handOut_leaves h' hpos hgra⟩

theorem allocate_null
    (hnull : s.allocate cfg sizeInBytes space new = some (s', none)) : s' = s := by
  unfold allocate at hnull
  split_ifs at hnull with hzero
  · exact (congrArg Prod.fst (Option.some.inj hnull)).symm
  cases hrnd : roundUp cfg sizeInBytes with
  | none =>
    rw [hrnd] at hnull
    cases hnull
  | some size =>
    have hpos : 0 < size := pos_of_ne_zero fun h => hzero ((roundUp_eq_zero hrnd).mp h)
    rcases h.find hpos with ⟨hfind, -⟩ | ⟨f, N', start, hfind, hst, -⟩
    · simp only [hrnd, hfind, bind_eq_bind, bind_some, if_true] at hnull
      split_ifs at hnull with hst
      · exact (congrArg Prod.fst (Option.some.inj hnull)).symm
      · unfold allocateFrom at hnull
        dsimp only at hnull
        split_ifs at hnull with hlt
        · obtain ⟨f, -, hnull⟩ := bind_eq_some_iff.mp hnull
          cases congrArg Prod.snd (Option.some.inj hnull)
        · cases congrArg Prod.snd (Option.some.inj hnull)
    · simp only [hrnd, hfind, bind_eq_bind, bind_some, if_neg hst] at hnull
      cases congrArg Prod.snd (Option.some.inj hnull)

theorem release_leaves {i : Nat} (hi : i < s.handles.length)
    (hnew : ¬s.freeSpaceSizeMap.InUse new) :
    ∃ s', s.release cfg i new = some s' ∧ Leaves cfg s c (fun _ => 0) s' := by
  obtain ⟨r, hr⟩ : ∃ r, s.handles[i]? = some r := ⟨_, List.getElem?_eq_getElem hi⟩
  have hocc : ∀ page, occupancy cfg s.handles page =
      occupancy cfg (s.handles.eraseIdx i) page + if OnPage cfg page r then 1 else 0 := by
    intro page
    rw [← occupancy_perm (handles_eq hr), occupancy_cons]
  simp only [release, hr, bind_eq_bind, bind_some]
  by_cases hsize : r.size = 0
  · rw [if_neg (not_not.mpr hsize)]
    refine ⟨_, rfl, N, c, h.drop hr hsize, fun page => ?_⟩
    have hnot : ¬OnPage cfg page r := fun hon => by
      have := ((onPage_iff ..).mp hon).1
      omega
    rw [hocc, if_neg hnot]
    rfl
  · rw [if_pos hsize]
    obtain ⟨o, hdec, h₁⟩ := h.release hr (pos_of_ne_zero hsize)
    obtain ⟨f, N', hadd, h₂⟩ := Holding.addFreeSpace (R := 0) h₁ (pos_of_ne_zero hsize) hnew
    refine ⟨_, ?_, N', _, h₂, fun page => ?_⟩
    · rw [hdec]
      exact (congrArg (Option.bind · _) hadd).trans rfl
    · have hle := h.occupied page
      rw [hocc] at hle ⊢
      dsimp only
      omega

theorem shrink_leaves {i newSizeInBytes : Nat}
    (hok : AllocatorCallOk cfg s (.shrink i newSizeInBytes new)) :
    ∃ s', s.shrink cfg i newSizeInBytes new = some s' ∧
      Leaves cfg s c (fun page => leak cfg s page (.shrink i newSizeInBytes new)) s' := by
  obtain ⟨⟨r, hr, hle⟩, hcra, hnew⟩ := hok
  obtain ⟨size, hrnd⟩ := ne_none_iff_exists'.mp hcra
  obtain ⟨-, hgra, -, hlea⟩ := roundUp_spec hrnd
  have hrmem : r ∈ s.handles := List.mem_of_getElem? hr
  have hsize : size ≤ r.size := hlea _ (h.granules r hrmem) hle
  simp only [shrink, hr, hrnd, bind_eq_bind, bind_some]
  by_cases heq : size = r.size
  · rw [if_pos heq]
    refine ⟨s, rfl, N, c, h, fun page => ?_⟩
    have hzero : leak cfg s page (.shrink i newSizeInBytes new) = 0 := by
      simp only [leak, hr, elim_some]
      split_ifs with hpos hleft
      · have := (roundUp_eq_zero hrnd).mpr hleft.1
        omega
      · rfl
      · rfl
    simp [hzero]
  · rw [if_neg heq]
    have hlt : size < r.size := lt_of_le_of_ne hsize heq
    have hpos : 0 < r.size := zero_lt_of_lt hlt
    have hmem : r ∈ 0 + ((s.handles : Multiset Extent) + extents N) := by simp [hrmem]
    have hstop := (h.within.bounds hmem hpos).2
    have hlim := limit_lt cfg
    simp only [Extent.stop] at hstop
    have hst : word (r.start + size) = r.start + size := word_eq (by omega)
    have hrest : wordSub r.size size = r.size - size := wordSub_eq (by omega) hsize
    obtain ⟨o, hdec, h₁, hocc⟩ := h.shrink hr hlt hgra
    have hfre : 0 < r.size - size := Nat.sub_pos_of_lt hlt
    obtain ⟨f, N', hadd, h₂⟩ := Holding.addFreeSpace (R := 0) h₁ hfre hnew
    refine ⟨_, ?_, N', _, h₂, fun page => ?_⟩
    · rw [hst, hrest, hdec]
      simp only [Option.bind_some, addFreeSpaceFromReleasedHandle, Option.bind_eq_bind, Option.bind_assoc]
      exact (congrArg (Option.bind · _) hadd).trans rfl
    · have hlost : leak cfg s page (.shrink i newSizeInBytes new) =
          if LeftBehind cfg page r.start size then 1 else 0 := by
        have hiff : LeftBehind cfg page r.start newSizeInBytes ↔ LeftBehind cfg page r.start size :=
          and_congr_left' (roundUp_eq_zero hrnd).symm
        simp only [leak, hr, elim_some, if_pos hpos, hiff]
      have hle := h.occupied page
      rw [hocc] at hle
      simp only [hocc page, hlost]
      omega

theorem addFreshFreeSpace_leaves
    (hok : AllocatorCallOk cfg s (.addFreshFreeSpace start sizeInBytes new)) :
    ∃ s', s.addFreshFreeSpace start sizeInBytes new = some s' ∧ Leaves cfg s c (fun _ => 0) s' := by
  obtain ⟨hpos, hnew, hfre⟩ := hok
  obtain ⟨f, N', hadd, h'⟩ := Holding.addFreeSpace (R := 0) (h.fresh hfre) hpos hnew
  refine ⟨_, ?_, N', c, h', fun page => rfl⟩
  exact (congrArg (Option.bind · _) hadd).trans rfl

/-- **Every operation** that requests a number of pages that fits leaves the invariant. -/
theorem step_leaves {o : MetaAllocatorOp ι} (hok : AllocatorCallOk cfg s o)
    (hfits : RequestFits cfg o) :
    ∃ s', metaAllocatorStep cfg s o = some s' ∧ Leaves cfg s c (fun page => leak cfg s page o) s' := by
  cases o with
  | allocate sizeInBytes space new =>
    obtain ⟨s', handle, hstep, hlea⟩ := allocate_leaves h hok hfits
    exact ⟨s', by rw [metaAllocatorStep, hstep]; rfl, hlea⟩
  | release i new => exact release_leaves h hok.1 hok.2
  | shrink i newSizeInBytes new => exact shrink_leaves h hok
  | addFreshFreeSpace start sizeInBytes new => exact addFreshFreeSpace_leaves h hok

end MetaAllocator

open MetaAllocator FreeSpaceMaps

variable {ι : Type} [DecidableEq ι] {cfg : Config} {s s' : MetaAllocator ι} {N : Multiset (ι × Extent)}
  {c : Nat → Nat}

/-! ## Accounting of space -/

/-- The three indices have the same free nodes, the nodes and the handles are disjoint, no two nodes are
    adjacent, and the sums are right. -/
structure Accounted (s : MetaAllocator ι) : Prop where
  allocated : s.bytesAllocated = totalSize (s.handles : Multiset Extent)
  free : ∃ N : Multiset (ι × Extent), Stored Extent.size s.freeSpaceSizeMap N ∧
    Index Extent.start s.freeSpaceStartAddressMap N ∧ Index Extent.stop s.freeSpaceEndAddressMap N ∧
    ((s.handles : Multiset Extent) + N.map Prod.snd).Pairwise Extent.Apart ∧
    (∀ e ∈ N, ∀ e' ∈ N, e.2.stop ≠ e'.2.start) ∧
    s.bytesReserved = s.bytesAllocated + totalSize (N.map Prod.snd)

/-- An `allocate` that returns null changes nothing. -/
def NullKeeps (cfg : Config) (s : MetaAllocator ι) : Prop :=
  ∀ sizeInBytes space new s', s.allocate cfg sizeInBytes space new = some (s', none) → s' = s

omit [DecidableEq ι] in
theorem MetaAllocator.Holding.accounted (h : Holding cfg s 0 N c) : Accounted s := by
  refine ⟨h.allocated, N, h.free.sizes, h.free.starts, h.free.stops, ?_, h.free.separate.notAdjacent, ?_⟩
  · have hnoOv := h.noOverlap
    rw [zero_add] at hnoOv
    obtain ⟨l, hl⟩ := Quot.exists_rep ((s.handles : Multiset Extent) + extents N)
    rw [← hl] at hnoOv
    exact ⟨l, hl.symm, hnoOv.pairwise⟩
  · rw [h.reserved, h.allocated, totalSize_zero, zero_add]
    rfl

variable {o : MetaAllocatorOp ι}

/-- If the number of pages requested overflows and something is got, the handle is larger than that. -/
theorem overflow_step (h : Holding cfg s 0 N c) (hok : AllocatorCallOk cfg s o)
    (hfits : ¬RequestFits cfg o) :
    ∃ start size got, metaAllocatorStep cfg s o =
        some (handOut cfg { s with bytesReserved := word (s.bytesReserved + got) } start size).1 ∧
      Holding cfg { s with bytesReserved := word (s.bytesReserved + got) } {⟨start, got⟩} N c ∧
      0 < start ∧ start + cfg.pageSize < 2 ^ 64 ∧ cfg.pageSize ∣ start ∧
      2 ^ 64 < size + cfg.pageSize ∧ size < 2 ^ 64 := by
  have hpage := pageSize_lt cfg
  cases o with
  | release i new
  | shrink i newSizeInBytes new
  | addFreshFreeSpace start sizeInBytes new => exact absurd trivial hfits
  | allocate sizeInBytes space new =>
    obtain ⟨-, -, hspa⟩ := hok
    simp only [RequestFits, not_forall, not_or, not_le] at hfits
    obtain ⟨size, hrnd, hgot, hsize⟩ := hfits
    obtain ⟨-, -, hlt, -⟩ := roundUp_spec hrnd
    have hzero : sizeInBytes ≠ 0 := fun hzero => by
      have := (roundUp_eq_zero hrnd).mpr hzero
      omega
    have hpos : 0 < size := by omega
    have hfind : s.toFreeSpaceMaps.findAndRemoveFreeSpace cfg size = some (s.toFreeSpaceMaps, 0) := by
      rcases h.find hpos with ⟨hfind, -⟩ | ⟨f, N', start, -, -, h'⟩
      · exact hfind
      · -- no free node is that large
        have hstop := (h'.within.bounds (r := ⟨start, size⟩) (by simp) hpos).2
        simp only [limit, Extent.stop] at hstop
        omega
    obtain ⟨⟨start, numberOfPages⟩, hnew⟩ : ∃ got, space (requestedNumberOfPages cfg size) = got := ⟨_, rfl⟩
    rw [hnew] at hgot
    obtain ⟨-, hdvd, hfre⟩ := hspa _ _ _ hrnd hnew hgot
    have hstop := hfre.stop_le
    simp only [Extent.stop] at hstop
    have hrou : word (numberOfPages <<< cfg.logPageSize) = numberOfPages * cfg.pageSize := by
      rw [shiftLeft_eq]
      exact word_eq (n := numberOfPages * cfg.pageSize) (by omega)
    have hsma : ¬numberOfPages * cfg.pageSize > size := by omega
    refine ⟨start, size, numberOfPages * cfg.pageSize, ?_, h.fresh hfre, pos_of_ne_zero hgot,
      by omega, hdvd, hsize, hlt⟩
    simp only [metaAllocatorStep, allocate, if_neg hzero, hrnd, hfind, bind_eq_bind,
      bind_some, if_true, hnew, if_neg hgot, allocateFrom, hrou, if_neg hsma]
    rfl

theorem not_accounted_of_overflow (h : Holding cfg s 0 N c)
    (hok : AllocatorCallOk cfg s o) (hfits : ¬RequestFits cfg o) :
    ∃ s', metaAllocatorStep cfg s o = some s' ∧ ¬Accounted s' := by
  obtain ⟨start, size, got, hstep, h', -, -, -, hsize, -⟩ := overflow_step h hok hfits
  refine ⟨_, hstep, ?_⟩
  rintro ⟨halo, N', -, -, -, -, -, hrsv⟩
  have hlim := h'.total_le
  rw [← h'.reserved] at hlim
  change word (s.bytesAllocated + size) =
    totalSize ((⟨start, size⟩ :: s.handles : List Extent) : Multiset Extent) at halo
  change word (s.bytesReserved + got) = word (s.bytesAllocated + size) + totalSize (N'.map Prod.snd) at hrsv
  rw [← cons_coe, totalSize_cons] at halo
  have hpage := pageSize_lt cfg
  simp only [limit] at hlim halo
  omega

omit [DecidableEq ι] in
theorem holding_init (cfg : Config) (mem : ι → LinkedNode ι Extent) :
    Holding cfg (MetaAllocator.init mem) 0 0 fun _ => 0 := by
  constructor
  case free =>
    refine ⟨stored_empty _ mem, index_empty _, index_empty _, ⟨?_, ?_⟩⟩
    · exact fun e he => absurd he (notMem_zero e)
    · exact fun e he => absurd he (notMem_zero e)
  case noOverlap => exact fun a => zero_le 1
  case within => exact fun a ha => absurd rfl ha
  case allocated => rfl
  case reserved => rfl
  case granules => exact fun r hr => absurd hr (List.not_mem_nil)
  case counted => exact ⟨fun _ => rfl, fun _ h => absurd rfl h, ⟨∅, by simp, rfl⟩, fun _ => rfl⟩
  case occupied => exact fun _ => le_rfl

/-- **The accounting is right throughout exactly those runs in which no number of pages requested
    overflows** and is then met by some. -/
theorem metaAllocator_accounting (cfg : Config) (mem : ι → LinkedNode ι Extent) (ops : List (MetaAllocatorOp ι))
    (hok : EachStep (metaAllocatorStep cfg) (AllocatorCallOk cfg) (MetaAllocator.init mem) ops) :
    Along (metaAllocatorStep cfg) (fun s => Accounted s ∧ NullKeeps cfg s) (MetaAllocator.init mem) ops ↔
      EachStep (metaAllocatorStep cfg) (fun _ => RequestFits cfg) (MetaAllocator.init mem) ops := by
  have hgood : ∀ {s : MetaAllocator ι} {N c}, Holding cfg s 0 N c → Accounted s ∧ NullKeeps cfg s :=
    fun h => ⟨h.accounted, fun _ _ _ _ hnull => allocate_null h hnull⟩
  have hinit := holding_init cfg mem
  have hstep : ∀ (s : MetaAllocator ι) o, (Accounted s → ∃ N c, Holding cfg s 0 N c) →
      (Accounted s ∧ NullKeeps cfg s) → AllocatorCallOk cfg s o →
      ∃ s', metaAllocatorStep cfg s o = some s' ∧ (Accounted s' → ∃ N c, Holding cfg s' 0 N c) ∧
        ((Accounted s' ∧ NullKeeps cfg s') ↔ RequestFits cfg o) := by
    intro s o hinv hgood' hok
    obtain ⟨N, c, h⟩ := hinv hgood'.1
    by_cases hfits : RequestFits cfg o
    · obtain ⟨s', hstep, N', c', h', -⟩ := step_leaves h hok hfits
      exact ⟨s', hstep, fun _ => ⟨N', c', h'⟩, iff_of_true (hgood h') hfits⟩
    · obtain ⟨s', hstep, hnot⟩ := not_accounted_of_overflow h hok hfits
      exact ⟨s', hstep, fun h => absurd h hnot, iff_of_false (fun h => hnot h.1) hfits⟩
  exact along_iff_eachStep hstep ops (fun _ => ⟨_, _, hinit⟩) (hgood hinit) hok

omit [DecidableEq ι] in
theorem freshRange_init {mem : ι → LinkedNode ι Extent} {r : Extent} (hst : 0 < r.start)
    (hstop : r.stop + cfg.pageSize < 2 ^ 64) : FreshRange cfg (MetaAllocator.init mem) r :=
  ⟨hst, hstop, fun _ h => absurd h List.not_mem_nil, fun x h => absurd h (not_inUse rfl x)⟩

def granule32Page4096 : Config := ⟨5, 12, by decide, by decide⟩

/-- One page of new space for a handle of 100 bytes. -/
theorem metaAllocator_accounting_one_page : Along (metaAllocatorStep granule32Page4096)
        (fun s => Accounted s ∧ NullKeeps granule32Page4096 s)
        (MetaAllocator.init fun _ : Unit => ⟨none, none, none, .red, ⟨0, 0⟩⟩)
        [.allocate 100 (fun pages => (65536, pages)) ()] ↔ EachStep (metaAllocatorStep granule32Page4096)
        (fun _ => RequestFits granule32Page4096)
        (MetaAllocator.init fun _ : Unit => ⟨none, none, none, .red, ⟨0, 0⟩⟩)
        [.allocate 100 (fun pages => (65536, pages)) ()] := by
  refine metaAllocator_accounting _ _ _ ⟨⟨.inr (by decide), not_inUse rfl _, ?_⟩, fun _ _ => trivial⟩
  rintro rounded start numberOfPages hround ⟨⟩ -
  obtain rfl : 128 = rounded := Option.some.inj hround
  exact ⟨le_rfl, by decide, freshRange_init (by decide) (by decide)⟩

/-- With granules of 32 bytes and pages of 4096, a request of 2 ^ 64 - 4000 bytes asks for no pages. If
    it gets one, the handle has more bytes than are reserved. -/
theorem metaAllocator_accounting_overflow : AllocatorCallOk granule32Page4096
        (MetaAllocator.init fun _ : Unit => ⟨none, none, none, .red, ⟨0, 0⟩⟩)
        (.allocate (2 ^ 64 - 4000) (fun _ => (65536, 1)) ()) ∧ ∃ s, metaAllocatorStep granule32Page4096
          (MetaAllocator.init fun _ : Unit => ⟨none, none, none, .red, ⟨0, 0⟩⟩)
          (.allocate (2 ^ 64 - 4000) (fun _ => (65536, 1)) ()) = some s ∧ ¬Accounted s := by
  have hround : roundUp granule32Page4096 (2 ^ 64 - 4000) = some (2 ^ 64 - 4000) := by
    decide +kernel
  have hok : AllocatorCallOk granule32Page4096 (MetaAllocator.init fun _ : Unit => ⟨none, none, none, .red, ⟨0, 0⟩⟩)
      (.allocate (2 ^ 64 - 4000) (fun _ => (65536, 1)) ()) := by
    refine ⟨.inr (by rw [hround]; nofun), not_inUse rfl _, ?_⟩
    rintro rounded start numberOfPages hround' ⟨⟩ -
    rw [hround] at hround'
    obtain rfl := Option.some.inj hround'
    exact ⟨by decide +kernel, by decide, freshRange_init (by decide) (by decide)⟩
  refine ⟨hok, not_accounted_of_overflow (holding_init _ _) hok fun hfits => ?_⟩
  rcases hfits _ hround with hnull | hle
  · exact absurd hnull (by decide)
  · exact absurd hle (by decide)

/-! ## Page occupancy -/

/-- The page map counts the handles on each page, the committed bytes are those of the pages in it, and
    for each page the notifications have alternated, the last one saying whether the page is in use. -/
structure Occupied (cfg : Config) (s : MetaAllocator ι) : Prop where
  counts : ∀ page, s.pageOccupancyMap page =
    if occupancy cfg s.handles page = 0 then none else some (occupancy cfg s.handles page)
  committed : ∃ S : Finset Nat, (∀ page, page ∈ S ↔ s.pageOccupancyMap page ≠ none) ∧
    s.bytesCommitted = cfg.pageSize * S.card
  alternate : ∀ page, run pageStep false (history s.notified page) =
    some (decide (s.pageOccupancyMap page ≠ none))

omit [DecidableEq ι] in
theorem MetaAllocator.Holding.occupied_iff (h : Holding cfg s 0 N c) :
    Occupied cfg s ↔ ∀ page, c page = occupancy cfg s.handles page := by
  have hmap : ∀ page, s.pageOccupancyMap page ≠ none ↔ c page ≠ 0 := by
    intro page
    rw [h.counted.map_eq]
    split_ifs with hzero
    · simp [hzero]
    · simp [hzero]
  constructor
  · intro hocc page
    have hcou := hocc.counts page
    rw [h.counted.map_eq] at hcou
    split_ifs at hcou with h₁ h₂ h₂
    · rw [h₁, h₂]
    · exact Option.some.inj hcou
  · intro hc
    obtain ⟨S, hS, hbs⟩ := h.counted.committed
    refine ⟨fun page => ?_, ⟨S, fun page => (hS page).trans (hmap page).symm, hbs⟩, fun page => ?_⟩
    · rw [h.counted.map_eq, hc]
    · rw [h.counted.alternate, decide_eq_decide.mpr (hmap page)]

omit [DecidableEq ι] in
theorem leak_eq_zero_iff (cfg : Config) (s : MetaAllocator ι) (o : MetaAllocatorOp ι) :
    (∀ page, leak cfg s page o = 0) ↔ ShrinkFits cfg s o := by
  cases o with
  | allocate sizeInBytes space new
  | release i new
  | addFreshFreeSpace start sizeInBytes new => exact iff_of_true (fun _ => rfl) trivial
  | shrink i newSizeInBytes new =>
    have hP := pageSize_pos cfg
    cases hr : s.handles[i]? with
    | none => simp [leak, ShrinkFits, hr]
    | some r =>
      simp only [leak, ShrinkFits, hr, elim_some, some_inj, forall_eq']
      have hmod := div_add_mod' r.start cfg.pageSize
      have hlt := mod_lt r.start hP
      constructor
      · intro hnone hpos hzero
        have hpage := hnone (r.start / cfg.pageSize)
        rw [if_pos hpos] at hpage
        by_contra hdvd
        rw [if_pos ⟨hzero, by omega, by rw [add_one_mul]; omega⟩] at hpage
        cases hpage
      · intro hfits page
        split_ifs with hpos hleft
        · obtain ⟨hzero, h₁, h₂⟩ := hleft
          obtain ⟨k, hk⟩ := hfits hpos hzero
          rw [hk, Nat.mul_comm, Nat.mul_lt_mul_left hP] at h₁
          rw [hk, Nat.mul_comm, Nat.mul_lt_mul_right hP] at h₂
          omega
        · rfl
        · rfl

/-- The loop over the pages of a handle that is too large does nothing: its end has overflowed. -/
theorem pages_of_overflow {start size : Nat} (hst : 0 < start) (hlt : start + cfg.pageSize < 2 ^ 64)
    (hdvd : cfg.pageSize ∣ start) (hsize : 2 ^ 64 < size + cfg.pageSize) (hsize' : size < 2 ^ 64) :
    pages cfg start size = [] := by
  have hP := pageSize_pos cfg
  obtain ⟨k, rfl⟩ := hdvd
  have hk : 0 < k := Nat.pos_of_mul_pos_left hst
  have hle : cfg.pageSize ≤ cfg.pageSize * k := Nat.le_mul_of_pos_right _ hk
  have hlast : wordSub (word (cfg.pageSize * k + size)) 1 = cfg.pageSize * k + size - 2 ^ 64 - 1 := by
    unfold wordSub word
    omega
  have hfst : (cfg.pageSize * k) >>> cfg.logPageSize = k := by
    rw [shiftRight_eq_div_pow]
    exact Nat.mul_div_cancel_left k hP
  have hpage : (cfg.pageSize * k + size - 2 ^ 64 - 1) >>> cfg.logPageSize < k := by
    rw [shiftRight_eq_div_pow, div_lt_iff_lt_mul (Nat.two_pow_pos _)]
    change _ < k * cfg.pageSize
    rw [mul_comm k]
    omega
  simp only [pages, hlast, hfst]
  rw [Nat.sub_eq_zero_of_le (succ_le_of_lt hpage)]
  rfl

theorem not_occupied_of_overflow (h : Holding cfg s 0 N c) (hocc : Occupied cfg s)
    (hok : AllocatorCallOk cfg s o) (hfits : ¬RequestFits cfg o) :
    ∃ s', metaAllocatorStep cfg s o = some s' ∧ ¬Occupied cfg s' := by
  obtain ⟨start, size, got, hstep, -, hst, hlt, hdvd, hsize, hsize'⟩ := overflow_step h hok hfits
  refine ⟨_, hstep, fun hocc' => ?_⟩
  have hold := hocc.counts (start / cfg.pageSize)
  have hnew := hocc'.counts (start / cfg.pageSize)
  have hmap : (handOut cfg { s with bytesReserved := word (s.bytesReserved + got) } start
      size).1.pageOccupancyMap = s.pageOccupancyMap := by
    simp [handOut, PageOccupancy.incrementPageOccupancy, pages_of_overflow hst hlt hdvd hsize hsize']
  have hpos : 0 < size := by
    omega
  have hon : OnPage cfg (start / cfg.pageSize) ⟨start, size⟩ := ⟨start, le_rfl, Nat.lt_add_of_pos_right hpos, rfl⟩
  have hcnt : occupancy cfg (handOut cfg { s with bytesReserved := word (s.bytesReserved + got) } start
      size).1.handles (start / cfg.pageSize) = occupancy cfg s.handles (start / cfg.pageSize) + 1 := by
    change occupancy cfg (⟨start, size⟩ :: s.handles) _ = _
    rw [occupancy_cons, if_pos hon]
  rw [hmap, hold, hcnt, if_neg (succ_ne_zero _)] at hnew
  split_ifs at hnew
  exact absurd (Option.some.inj hnew) (Nat.ne_of_lt (Nat.lt_succ_self _))

/-- **The page map is right throughout exactly those runs in which** no number of pages requested
    overflows and is then met by some, and **no handle shrinks to nothing in the middle of a page**. -/
theorem metaAllocator_occupancy (cfg : Config) (mem : ι → LinkedNode ι Extent) (ops : List (MetaAllocatorOp ι))
    (hok : EachStep (metaAllocatorStep cfg) (AllocatorCallOk cfg) (MetaAllocator.init mem) ops) :
    Along (metaAllocatorStep cfg) (Occupied cfg) (MetaAllocator.init mem) ops ↔
      EachStep (metaAllocatorStep cfg) (fun s o => RequestFits cfg o ∧ ShrinkFits cfg s o)
        (MetaAllocator.init mem) ops := by
  have hinit := holding_init cfg mem
  have hstep : ∀ (s : MetaAllocator ι) o, (Occupied cfg s → ∃ N c, Holding cfg s 0 N c) →
      Occupied cfg s → AllocatorCallOk cfg s o →
      ∃ s', metaAllocatorStep cfg s o = some s' ∧ (Occupied cfg s' → ∃ N c, Holding cfg s' 0 N c) ∧
        (Occupied cfg s' ↔ RequestFits cfg o ∧ ShrinkFits cfg s o) := by
    intro s o hinv hocc hok
    obtain ⟨N, c, h⟩ := hinv hocc
    by_cases hfits : RequestFits cfg o
    · obtain ⟨s', hstep, N', c', h', hlost⟩ := step_leaves h hok hfits
      refine ⟨s', hstep, fun _ => ⟨N', c', h'⟩, ?_⟩
      have hc := h.occupied_iff.mp hocc
      rw [h'.occupied_iff, and_iff_right hfits, ← leak_eq_zero_iff]
      refine forall_congr' fun page => ?_
      have hlost := hlost page
      have hc := hc page
      dsimp only at hlost
      omega
    · obtain ⟨s', hstep, hnot⟩ := not_occupied_of_overflow h hocc hok hfits
      exact ⟨s', hstep, fun h => absurd h hnot, iff_of_false hnot fun h => hfits h.1⟩
  exact along_iff_eachStep hstep ops (fun _ => ⟨_, _, hinit⟩) (hinit.occupied_iff.mpr fun _ => rfl) hok

/-- One page of new space for a handle of 100 bytes. -/
theorem metaAllocator_occupancy_one_page : Along (metaAllocatorStep granule32Page4096) (Occupied granule32Page4096)
        (MetaAllocator.init fun _ : Unit => ⟨none, none, none, .red, ⟨0, 0⟩⟩)
        [.allocate 100 (fun pages => (65536, pages)) ()] ↔ EachStep (metaAllocatorStep granule32Page4096)
        (fun s o => RequestFits granule32Page4096 o ∧ ShrinkFits granule32Page4096 s o)
        (MetaAllocator.init fun _ : Unit => ⟨none, none, none, .red, ⟨0, 0⟩⟩)
        [.allocate 100 (fun pages => (65536, pages)) ()] := by
  refine metaAllocator_occupancy _ _ _ ⟨⟨.inr (by decide), not_inUse rfl _, ?_⟩, fun _ _ => trivial⟩
  rintro rounded start numberOfPages hround ⟨⟩ -
  obtain rfl : 128 = rounded := Option.some.inj hround
  exact ⟨le_rfl, by decide, freshRange_init (by decide) (by decide)⟩

/-- Free space of 32 bytes from address 65568 is allocated, and the handle shrinks to nothing. Page 16
    stays in the map, with no handle on it. -/
theorem metaAllocator_occupancy_left_behind : EachStep (metaAllocatorStep granule32Page4096)
        (AllocatorCallOk granule32Page4096) (MetaAllocator.init fun _ : Fin 2 => ⟨none, none, none, .red, ⟨0, 0⟩⟩)
        [.addFreshFreeSpace 65568 32 0, .allocate 32 (fun _ => (0, 0)) 1, .shrink 0 0 1] ∧
      ∃ s, run (metaAllocatorStep granule32Page4096)
          (MetaAllocator.init fun _ : Fin 2 => ⟨none, none, none, .red, ⟨0, 0⟩⟩)
          [.addFreshFreeSpace 65568 32 0, .allocate 32 (fun _ => (0, 0)) 1, .shrink 0 0 1] = some s ∧
        ¬Occupied granule32Page4096 s := by
  -- one node after the first step, none after the second
  have h₁ : (metaAllocatorStep granule32Page4096
      (MetaAllocator.init fun _ : Fin 2 => ⟨none, none, none, .red, ⟨0, 0⟩⟩)
      (.addFreshFreeSpace 65568 32 0)).map (fun s => (s.freeSpaceSizeMap.root,
        (s.freeSpaceSizeMap.node 0).left, (s.freeSpaceSizeMap.node 0).right)) =
      some (some 0, none, none) := by
    decide +kernel
  have h₂ : (run (metaAllocatorStep granule32Page4096)
      (MetaAllocator.init fun _ : Fin 2 => ⟨none, none, none, .red, ⟨0, 0⟩⟩)
      [.addFreshFreeSpace 65568 32 0, .allocate 32 (fun _ => (0, 0)) 1]).map (fun s =>
        (s.freeSpaceSizeMap.root, s.handles[0]?)) = some (none, some ⟨65568, 32⟩) := by
    decide +kernel
  have h₃ : (run (metaAllocatorStep granule32Page4096)
      (MetaAllocator.init fun _ : Fin 2 => ⟨none, none, none, .red, ⟨0, 0⟩⟩)
      [.addFreshFreeSpace 65568 32 0, .allocate 32 (fun _ => (0, 0)) 1, .shrink 0 0 1]).map (fun s =>
        (s.handles, s.pageOccupancyMap 16)) = some ([⟨65568, 0⟩], some 1) := by
    decide +kernel
  constructor
  · refine ⟨⟨by decide, not_inUse rfl _, freshRange_init (by decide) (by decide)⟩,
      fun s₁ hs₁ => ⟨⟨.inr (by decide +kernel), fun hin => ?_, ?_⟩, fun s₂ hs₂ => ⟨⟨?_, ?_, ?_⟩, fun _ _ => trivial⟩⟩⟩
    · rw [hs₁] at h₁
      obtain ⟨hroot, hleft, hright⟩ := by simpa using h₁
      exact absurd (LinkedTree.InUse.eq_root hin hroot hleft hright) (by decide)
    · rintro rounded start numberOfPages - ⟨⟩ hne
      exact absurd rfl hne
    · rw [run_cons hs₁, run_cons hs₂] at h₂
      obtain ⟨-, hhandle⟩ := by simpa using h₂
      exact ⟨_, hhandle, zero_le _⟩
    · decide +kernel
    · rw [run_cons hs₁, run_cons hs₂] at h₂
      obtain ⟨hroot, -⟩ := by simpa using h₂
      exact not_inUse hroot _
  · obtain ⟨s, hs, hstate⟩ := map_eq_some_iff.mp h₃
    obtain ⟨hhandles, hmap⟩ := Prod.mk.inj hstate
    refine ⟨s, hs, fun hocc => ?_⟩
    have hcounts := hocc.counts 16
    rw [hmap, hhandles, if_pos (by decide +kernel)] at hcounts
    cases hcounts

end WebV8
