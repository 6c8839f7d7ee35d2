import WebV8.Lib.Words
import WebV8.WTF.MetaAllocator

/-!
# The free space of a `MetaAllocator`

`FreeOk f N`: the size map and the two address maps have the same nodes `N`, and no two of them are
adjacent. Adding free space and finding free space keep that. What they do to the space itself
is said by how often each address is covered, so that it does not matter which node has been joined
with which, or from which side an extent has been cut.
-/

namespace WebV8

open Lib RedBlackTree Option Multiset Nat Extent

namespace MetaAllocator

/-! ## Words -/

theorem word_eq {n : Nat} (h : n < 2 ^ 64) : word n = n := mod_eq_of_lt h

theorem wordSub_eq {a b : Nat} (ha : a < 2 ^ 64) (hb : b ≤ a) : wordSub a b = a - b := by
  unfold wordSub
  omega

theorem maskBelow_eq {x k : Nat} (hx : x < 2 ^ 64) (hk : k < 64) :
    maskBelow x (2 ^ k) = x / 2 ^ k * 2 ^ k := and_highBits hx hk.le

variable {ι : Type} [DecidableEq ι]

namespace FreeSpaceMaps

/-! ## Indices -/

def extents (N : Multiset (ι × Extent)) : Multiset Extent := N.map Prod.snd

omit [DecidableEq ι] in
@[simp] theorem extents_cons (e : ι × Extent) (N : Multiset (ι × Extent)) :
    extents (e ::ₘ N) = e.2 ::ₘ extents N := map_cons ..

structure Separate (N : Multiset (ι × Extent)) : Prop where
  pos : ∀ e ∈ N, 0 < e.2.size
  notAdjacent : ∀ e ∈ N, ∀ e' ∈ N, e.2.stop ≠ e'.2.start

/-- The three indices have the same nodes, which are separate. -/
structure FreeOk (f : FreeSpaceMaps ι) (N : Multiset (ι × Extent)) : Prop where
  sizes : Stored Extent.size f.freeSpaceSizeMap N
  starts : Index Extent.start f.freeSpaceStartAddressMap N
  stops : Index Extent.stop f.freeSpaceEndAddressMap N
  separate : Separate N

variable {f : FreeSpaceMaps ι} {N A : Multiset (ι × Extent)} {x y : ι} {r v w : Extent} {M : Nat}

omit [DecidableEq ι] in
theorem addEntry_index {key : Extent → Nat} {m : Nat → Option ι} (h : Index key m N)
    (hkeys : ∀ e ∈ N, key e.2 ≠ key v) (x : ι) : Index key (addEntry m (key v) x) ((x, v) ::ₘ N) := by
  rw [addEntry, if_pos (h.eq_none hkeys)]
  exact h.insert hkeys x

theorem removeFromSizeMap_spec (h : Stored Extent.size f.freeSpaceSizeMap ((x, v) ::ₘ A))
    (hlen : A.card + 1 < 2 ^ 64) :
    ∃ t, f.removeFromSizeMap x = some { f with freeSpaceSizeMap := t } ∧ Stored Extent.size t A ∧
      ∀ a, (t.node a).data = f.node a := by
  obtain ⟨t, hrem, hsto, hdata⟩ := h.remove hlen
  exact ⟨t, by rw [removeFromSizeMap, rounds, hrem]; rfl, hsto, hdata⟩

theorem insertIntoSizeMap_spec (h : Stored Extent.size f.freeSpaceSizeMap A) (hx : x ∉ A.map Prod.fst)
    (hlen : A.card < 2 ^ 64) (v : Extent) :
    ∃ t, (f.setNode x v).insertIntoSizeMap x = some { f with freeSpaceSizeMap := t } ∧
      Stored Extent.size t ((x, v) ::ₘ A) := by
  obtain ⟨t, hins, hsto⟩ := h.insert hx hlen v
  exact ⟨t, by rw [insertIntoSizeMap, rounds, setNode, hins]; rfl, hsto⟩

section

omit [DecidableEq ι]

theorem Separate.tail {e : ι × Extent} (h : Separate (e ::ₘ N)) : Separate N where
  pos e' he := h.pos e' (mem_cons_of_mem he)
  notAdjacent e₁ h₁ e₂ h₂ := h.notAdjacent e₁ (mem_cons_of_mem h₁) e₂ (mem_cons_of_mem h₂)

theorem Separate.cons (h : Separate N) (hpos : 0 < v.size) (hleft : ∀ e ∈ N, e.2.stop ≠ v.start)
    (hrig : ∀ e ∈ N, v.stop ≠ e.2.start) : Separate ((x, v) ::ₘ N) where
  pos := by
    rw [forall_mem_cons]
    exact ⟨hpos, h.pos⟩
  notAdjacent := by
    simp only [forall_mem_cons]
    refine ⟨⟨?_, hrig⟩, fun e he => ⟨hleft e he, h.notAdjacent e he⟩⟩
    unfold Extent.stop
    omega

theorem Separate.head (h : Separate ((x, v) ::ₘ N)) : (∀ e ∈ N, e.2.stop ≠ v.start) ∧ ∀ e ∈ N, v.stop ≠ e.2.start :=
  ⟨fun e he => h.notAdjacent e (mem_cons_of_mem he) _ (mem_cons_self _ _),
    fun e he => h.notAdjacent _ (mem_cons_self _ _) e (mem_cons_of_mem he)⟩

theorem Separate.pos_extents (h : Separate N) : ∀ r ∈ extents N, 0 < r.size := by
  intro r hr
  obtain ⟨e, he, rfl⟩ := mem_map.mp hr
  exact h.pos e he

theorem Separate.card_le (h : Separate N) (hR : NoOverlap (extents N)) (hM : Within (extents N) M) :
    N.card ≤ M := by
  have hcard := card_le_totalSize h.pos_extents
  rw [extents, card_map] at hcard
  exact hcard.trans (hR.totalSize_le hM)

theorem keys_ne (hR : NoOverlap (v ::ₘ extents N)) (hpos : 0 < v.size) (h : Separate N) :
    (∀ e ∈ N, e.2.start ≠ v.start) ∧ ∀ e ∈ N, e.2.stop ≠ v.stop :=
  ⟨fun e he => (hR.keys_ne (mem_map_of_mem _ he) hpos (h.pos e he)).1,
    fun e he => (hR.keys_ne (mem_map_of_mem _ he) hpos (h.pos e he)).2⟩

theorem FreeOk.head (h : FreeOk f ((x, v) ::ₘ A)) : 0 < v.size ∧ f.node x = v ∧
    f.freeSpaceStartAddressMap v.start = some x ∧ f.freeSpaceEndAddressMap v.stop = some x :=
  have hmem := mem_cons_self (x, v) A
  ⟨h.separate.pos _ hmem, h.sizes.data_eq hmem, h.starts.find hmem, h.stops.find hmem⟩

theorem Separate.card_lt (h : Separate ((x, v) ::ₘ A)) (hR : NoOverlap (r ::ₘ v ::ₘ extents A))
    (hW : Within (r ::ₘ v ::ₘ extents A) M) : A.card + 1 ≤ M := by
  rw [← card_cons (x, v) A]
  exact h.card_le (hR.mono fun a => by simp) (hW.mono fun a => by simp)

end

theorem word_stop (hM : M < 2 ^ 64) (hv : v.stop ≤ M) : word (v.start + v.size) = v.stop :=
  word_eq (hv.trans_lt hM)

/-! ## Adding free space -/

section add

variable {new : ι} (hr : 0 < r.size) (hM : M < 2 ^ 64)
include hr hM

theorem addFreeSpace_left (h : FreeOk f ((x, v) ::ₘ A)) (hv : v.stop = r.start)
    (hnone : f.freeSpaceStartAddressMap r.stop = none) (hR : NoOverlap (r ::ₘ v ::ₘ extents A))
    (hW : Within (r ::ₘ v ::ₘ extents A) M) : ∃ f', f.addFreeSpace r.start r.size new = some f' ∧
      FreeOk f' ((x, ⟨v.start, v.size + r.size⟩) ::ₘ A) := by
  obtain ⟨hvpos, hnode, -, hfind⟩ := h.head
  rw [hv] at hfind
  have hstop := (hW.bounds (mem_cons_self _ _) hr).2
  have hlen := h.separate.card_lt hR hW
  have hjoin : (⟨v.start, v.size + r.size⟩ : Extent).stop = r.stop := by
    simp only [Extent.stop] at hv ⊢
    omega
  have hvke := keys_ne (hR.mono fun a => by simp) hvpos h.separate.tail
  have hrke := keys_ne (hR.mono fun a => by simp) hr h.separate.tail
  have hrig := h.starts.ne_of_none hnone
  rw [forall_mem_cons] at hrig
  obtain ⟨t₁, hrem, hsiz₁, -⟩ := removeFromSizeMap_spec h.sizes (by omega)
  obtain ⟨t₂, hins, hsiz₂⟩ := insertIntoSizeMap_spec
    (f := removeEnd { f with freeSpaceSizeMap := t₁ } v.stop) hsiz₁ h.sizes.notMem (by omega)
    ⟨v.start, v.size + r.size⟩
  have hend := word_stop (v := v) hM (by simp only [Extent.stop] at *; omega)
  have hsize : word (v.size + r.size) = v.size + r.size := word_eq (by simp only [Extent.stop] at *; omega)
  have hrst := word_stop hM hstop
  refine ⟨⟨t₂, f.freeSpaceStartAddressMap,
    addEntry (Function.update f.freeSpaceEndAddressMap v.stop none) r.stop x⟩, ?_, hsiz₂,
    h.starts.replace rfl, ?_, h.separate.tail.cons (Nat.add_pos_left hvpos _) ?_ ?_⟩
  · simp only [addFreeSpace, hrst, hfind, hnone, hnode, hrem, hend, hsize, hins,
      bind_eq_bind, bind_some]
    rfl
  · rw [← hjoin]
    exact addEntry_index (h.stops.erase hvke.2) (fun e he => hjoin ▸ hrke.2 e he) x
  · exact h.separate.head.1
  · rw [hjoin]
    exact fun e he => (hrig.2 e he).symm

theorem addFreeSpace_right (h : FreeOk f ((x, v) ::ₘ A)) (hv : r.stop = v.start)
    (hnone : f.freeSpaceEndAddressMap r.start = none) (hR : NoOverlap (r ::ₘ v ::ₘ extents A))
    (hW : Within (r ::ₘ v ::ₘ extents A) M) : ∃ f', f.addFreeSpace r.start r.size new = some f' ∧
      FreeOk f' ((x, ⟨r.start, r.size + v.size⟩) ::ₘ A) := by
  obtain ⟨hvpos, hnode, hfind, -⟩ := h.head
  rw [← hv] at hfind
  have hvmem : v ∈ r ::ₘ v ::ₘ extents A := mem_cons_of_mem (mem_cons_self _ _)
  have hstop := (hW.bounds hvmem hvpos).2
  have hlen := h.separate.card_lt hR hW
  have hjoin : (⟨r.start, r.size + v.size⟩ : Extent).stop = v.stop := by
    simp only [Extent.stop] at hv ⊢
    omega
  have hvke := keys_ne (hR.mono fun a => by simp) hvpos h.separate.tail
  have hrke := keys_ne (hR.mono fun a => by simp) hr h.separate.tail
  have hleft := h.stops.ne_of_none hnone
  rw [forall_mem_cons] at hleft
  obtain ⟨t₁, hrem, hsiz₁, -⟩ := removeFromSizeMap_spec h.sizes (by omega)
  obtain ⟨t₂, hins, hsiz₂⟩ := insertIntoSizeMap_spec
    (f := removeStart { f with freeSpaceSizeMap := t₁ } r.stop) hsiz₁ h.sizes.notMem (by omega)
    ⟨r.start, r.size + v.size⟩
  have hsize : word (v.size + r.size) = r.size + v.size := by
    rw [add_comm v.size]
    exact word_eq (by simp only [Extent.stop] at *; omega)
  have hrst := word_stop (v := r) hM (by simp only [Extent.stop] at *; omega)
  refine ⟨⟨t₂, addEntry (Function.update f.freeSpaceStartAddressMap r.stop none) r.start x,
    f.freeSpaceEndAddressMap⟩, ?_, hsiz₂, ?_, h.stops.replace hjoin,
    h.separate.tail.cons (Nat.add_pos_left hr _) ?_ ?_⟩
  · simp only [addFreeSpace, hrst, hfind, hnone, hnode, hrem, hsize, hins,
      bind_eq_bind, bind_some]
    rfl
  · have hsta := h.starts.erase hvke.1
    rw [← hv] at hsta
    exact (addEntry_index hsta hrke.1 x).replace rfl
  · exact hleft.2
  · rw [hjoin]
    exact h.separate.head.2

theorem addFreeSpace_both (h : FreeOk f ((x, v) ::ₘ (y, w) ::ₘ A)) (hv : v.stop = r.start)
    (hw : r.stop = w.start) (hR : NoOverlap (r ::ₘ v ::ₘ w ::ₘ extents A))
    (hW : Within (r ::ₘ v ::ₘ w ::ₘ extents A) M) : ∃ f', f.addFreeSpace r.start r.size new = some f' ∧
      FreeOk f' ((x, ⟨v.start, v.size + (r.size + w.size)⟩) ::ₘ A) := by
  have h' : FreeOk f ((y, w) ::ₘ (x, v) ::ₘ A) := by rwa [cons_swap]
  obtain ⟨hvpos, hnod, -, hfin⟩ := h.head
  obtain ⟨hwpos, hnode', hfind, -⟩ := h'.head
  rw [hv] at hfin
  rw [← hw] at hfind
  have hwmem : w ∈ r ::ₘ v ::ₘ w ::ₘ extents A := by simp
  have hstop := (hW.bounds hwmem hwpos).2
  have hlen : A.card + 1 + 1 ≤ M := by
    rw [← card_cons (y, w) A, ← card_cons (x, v)]
    exact h.separate.card_le (hR.mono fun a => by simp) (hW.mono fun a => by simp)
  have hjoin : (⟨v.start, v.size + (r.size + w.size)⟩ : Extent).stop = w.stop := by
    simp only [Extent.stop] at hv hw ⊢
    omega
  -- the other nodes have neither the start nor the stop of one of the two
  have hvke := keys_ne (N := (y, w) ::ₘ A) (hR.mono fun a => by simp) hvpos h.separate.tail
  have hwke := keys_ne (N := (x, v) ::ₘ A) (hR.mono fun a => by simp; omega) hwpos h'.separate.tail
  obtain ⟨t₁, hrem₁, hsiz₁, hdata₁⟩ := removeFromSizeMap_spec h.sizes (by rw [card_cons]; omega)
  obtain ⟨t₂, hrem₂, hsiz₂, -⟩ := removeFromSizeMap_spec
    (f := removeEnd { f with freeSpaceSizeMap := t₁ } v.stop) hsiz₁ (by omega)
  have hx : x ∉ A.map Prod.fst := fun hx => h.sizes.notMem (by
    rw [map_cons]
    exact mem_cons_of_mem hx)
  have hnode : (removeEnd { f with freeSpaceSizeMap := t₁ } v.stop).node y = w := (hdata₁ y).trans hnode'
  obtain ⟨t₃, hins, hsiz₃⟩ := insertIntoSizeMap_spec
    (f := ⟨t₂, Function.update f.freeSpaceStartAddressMap r.stop none,
      Function.update (Function.update f.freeSpaceEndAddressMap v.stop none) w.stop none⟩)
    hsiz₂ hx (by omega) ⟨v.start, v.size + (r.size + w.size)⟩
  have hend := word_stop (v := v) hM (by simp only [Extent.stop] at *; omega)
  have hwend : word (r.stop + w.size) = w.stop := hw ▸ word_stop hM hstop
  have hsize : word (v.size + word (r.size + w.size)) = v.size + (r.size + w.size) := by
    rw [word_eq (n := r.size + w.size) (by simp only [Extent.stop] at *; omega)]
    exact word_eq (by simp only [Extent.stop] at *; omega)
  have hrst := word_stop (v := r) hM (by simp only [Extent.stop] at *; omega)
  refine ⟨⟨t₃, Function.update f.freeSpaceStartAddressMap r.stop none, addEntry (Function.update
    (Function.update f.freeSpaceEndAddressMap v.stop none) w.stop none) w.stop x⟩, ?_, hsiz₃, ?_, ?_,
    h.separate.tail.tail.cons (Nat.add_pos_left hvpos _) ?_ ?_⟩
  · simp only [addFreeSpace, hrst, hfin, hfind, hnod, hrem₁, hend, hnode, hrem₂, hwend,
      hsize, bind_eq_bind, bind_some]
    exact (congrArg (Option.bind · _) hins).trans rfl
  · have hsta := h'.starts.erase hwke.1
    rw [← hw] at hsta
    exact hsta.replace rfl
  · have hwke' : ∀ e ∈ A, e.2.stop ≠ w.stop := fun e he => hwke.2 e (mem_cons_of_mem he)
    rw [← hjoin]
    exact addEntry_index (hjoin ▸ (h.stops.erase hvke.2).erase hwke') (hjoin ▸ hwke') x
  · exact fun e he => h.separate.head.1 e (mem_cons_of_mem he)
  · rw [hjoin]
    exact fun e he => h'.separate.head.2 e (mem_cons_of_mem he)

theorem addFreeSpace_new (h : FreeOk f A) (hleft : f.freeSpaceEndAddressMap r.start = none)
    (hrig : f.freeSpaceStartAddressMap r.stop = none) (hR : NoOverlap (r ::ₘ extents A))
    (hW : Within (r ::ₘ extents A) M) (hnew : new ∉ A.map Prod.fst) :
    ∃ f', f.addFreeSpace r.start r.size new = some f' ∧ FreeOk f' ((new, r) ::ₘ A) := by
  have hstop := (hW.bounds (mem_cons_self _ _) hr).2
  have hlen : A.card ≤ M := h.separate.card_le (hR.mono fun a => by simp) (hW.mono fun a => by simp)
  have hrke := keys_ne hR hr h.separate
  obtain ⟨t, hins, hsiz⟩ := insertIntoSizeMap_spec h.sizes hnew (by omega) r
  have hrst := word_stop hM hstop
  refine ⟨⟨t, addEntry f.freeSpaceStartAddressMap r.start new,
    addEntry f.freeSpaceEndAddressMap r.stop new⟩, ?_, hsiz, addEntry_index h.starts hrke.1 new,
    addEntry_index h.stops hrke.2 new, h.separate.cons hr (h.stops.ne_of_none hleft) ?_⟩
  · simp only [addFreeSpace, hrst, hleft, hrig, hins, bind_eq_bind, bind_some]
    rfl
  · exact fun e he => (h.starts.ne_of_none hrig e he).symm

/-- **Adding free space** adds exactly it, in whatever nodes. -/
theorem addFreeSpace_spec (h : FreeOk f N) (hR : NoOverlap (r ::ₘ extents N))
    (hW : Within (r ::ₘ extents N) M) (hnew : new ∉ N.map Prod.fst) :
    ∃ f' N', f.addFreeSpace r.start r.size new = some f' ∧ FreeOk f' N' ∧
      ∀ a, coverage (extents N') a = r.covers a + coverage (extents N) a := by
  cases hleft : f.freeSpaceEndAddressMap r.start with
  | none =>
    cases hrig : f.freeSpaceStartAddressMap r.stop with
    | none =>
      obtain ⟨f', hadd, hok⟩ := addFreeSpace_new hr hM h hleft hrig hR hW hnew
      exact ⟨f', _, hadd, hok, fun a => by simp⟩
    | some y =>
      obtain ⟨w, hmem, hw⟩ := (h.starts _ _).mp hrig
      obtain ⟨A, rfl⟩ := exists_cons_of_mem hmem
      rw [extents_cons] at hR hW
      obtain ⟨f', hadd, hok⟩ := addFreeSpace_right hr hM h hw.symm hleft hR hW
      refine ⟨f', _, hadd, hok, fun a => ?_⟩
      simp only [extents_cons, coverage_cons, covers_join hw.symm]
      omega
  | some x =>
    obtain ⟨v, hmem, hv⟩ := (h.stops _ _).mp hleft
    obtain ⟨A, rfl⟩ := exists_cons_of_mem hmem
    cases hrig : f.freeSpaceStartAddressMap r.stop with
    | none =>
      rw [extents_cons] at hR hW
      obtain ⟨f', hadd, hok⟩ := addFreeSpace_left hr hM h hv hrig hR hW
      refine ⟨f', _, hadd, hok, fun a => ?_⟩
      simp only [extents_cons, coverage_cons, covers_join hv]
      omega
    | some y =>
      obtain ⟨w, hmem, hw⟩ := (h.starts _ _).mp hrig
      -- the two neighbours are not the same node: one ends where the other has not begun
      have hne : (y, w) ≠ (x, v) := by
        rintro ⟨⟩
        simp only [Extent.stop] at hv hw
        omega
      obtain ⟨A, rfl⟩ := exists_cons_of_mem ((mem_cons.mp hmem).resolve_left hne)
      simp only [extents_cons] at hR hW
      obtain ⟨f', hadd, hok⟩ := addFreeSpace_both hr hM h hv hw.symm hR hW
      refine ⟨f', _, hadd, hok, fun a => ?_⟩
      have hjoin := covers_join (s := ⟨r.start, r.size + w.size⟩) hv a
      simp only [extents_cons, coverage_cons, hjoin, covers_join hw.symm]
      omega

end add

/-! ## Finding free space -/

section find

variable (cfg : Config) {sizeInBytes : Nat} (hpos : 0 < sizeInBytes) (hM : M < 2 ^ 64)
include hpos hM

omit hpos hM [DecidableEq ι] in
theorem keys_ne_of_cut {p q : Extent} (hcut : p.stop = q.start) (hp : 0 < p.size) (hq : 0 < q.size)
    (hR : NoOverlap (⟨p.start, p.size + q.size⟩ ::ₘ extents A)) (h : Separate A) :
    (∀ e ∈ A, e.2.start ≠ q.start) ∧ ∀ e ∈ A, e.2.stop ≠ p.stop := by
  have hcov := covers_join hcut
  constructor
  · exact (keys_ne (hR.mono fun a => by simp [hcov]) hq h).1
  · exact (keys_ne (hR.mono fun a => by simp [hcov]) hp h).2

theorem takeFrom_spec {t : LinkedTree ι Extent} (h : FreeOk f ((x, v) ::ₘ A))
    (hR : NoOverlap (v ::ₘ extents A)) (hW : Within (v ::ₘ extents A) M)
    (hsiz : Stored Extent.size t A) (hsize : sizeInBytes ≤ v.size) : ∃ f' N' start,
      takeFrom cfg ⟨t, f.freeSpaceStartAddressMap, f.freeSpaceEndAddressMap⟩ x v sizeInBytes =
        some (f', start) ∧ start ≠ 0 ∧ FreeOk f' N' ∧
      ∀ a, (⟨start, sizeInBytes⟩ : Extent).covers a + coverage (extents N') a =
        v.covers a + coverage (extents A) a := by
  obtain ⟨hvpos, -⟩ := h.head
  obtain ⟨hst, hstop⟩ := hW.bounds (mem_cons_self _ _) hvpos
  have hcard : A.card ≤ M := h.separate.tail.card_le (hR.mono fun a => by simp) (hW.mono fun a => by simp)
  have hvke := keys_ne hR hvpos h.separate.tail
  have hend := word_stop hM hstop
  have hrest : wordSub v.size sizeInBytes = v.size - sizeInBytes :=
    wordSub_eq (by simp only [Extent.stop] at *; omega) hsize
  by_cases heq : v.size = sizeInBytes
  · -- easy case: perfect fit
    refine ⟨⟨t, Function.update f.freeSpaceStartAddressMap v.start none,
      Function.update f.freeSpaceEndAddressMap v.stop none⟩, A, v.start, ?_, hst.ne', ⟨hsiz,
      h.starts.erase hvke.1, h.stops.erase hvke.2, h.separate.tail⟩, fun a => by rw [← heq]⟩
    rw [takeFrom, if_pos heq, hend]
    rfl
  · have hlt : sizeInBytes < v.size := lt_of_le_of_ne hsize (Ne.symm heq)
    by_cases hpre : preferLeft cfg v sizeInBytes = true
    · -- allocate in the left side, and slide the node to the right
      obtain ⟨p, hp⟩ : ∃ p : Extent, p = ⟨v.start, sizeInBytes⟩ := ⟨_, rfl⟩
      obtain ⟨q, hq⟩ : ∃ q : Extent, q = ⟨v.start + sizeInBytes, v.size - sizeInBytes⟩ := ⟨_, rfl⟩
      have hcut : p.stop = q.start := by rw [hp, hq]; rfl
      have hqpos : 0 < q.size := by rw [hq]; exact Nat.sub_pos_of_lt hlt
      have hv : v = ⟨p.start, p.size + q.size⟩ := by
        rw [hp, hq]
        exact congrArg (Extent.mk v.start) (Nat.add_sub_cancel' hsize).symm
      have hqst : q.stop = v.stop := by
        rw [hv]
        simp only [Extent.stop] at hcut ⊢
        omega
      have hkeys := keys_ne_of_cut hcut (hp ▸ hpos) hqpos (hv ▸ hR) h.separate.tail
      obtain ⟨t₂, hins, hsiz₂⟩ := insertIntoSizeMap_spec
        (f := ⟨t, Function.update f.freeSpaceStartAddressMap v.start none, f.freeSpaceEndAddressMap⟩)
        hsiz h.sizes.notMem (by omega) q
      have hst' : word (v.start + sizeInBytes) = v.start + sizeInBytes :=
        word_eq (by simp only [Extent.stop] at *; omega)
      refine ⟨⟨t₂, addEntry (Function.update f.freeSpaceStartAddressMap v.start none) q.start x,
        f.freeSpaceEndAddressMap⟩, (x, q) ::ₘ A, v.start, ?_, hst.ne', ⟨hsiz₂,
        addEntry_index (h.starts.erase hvke.1) hkeys.1 x, h.stops.replace hqst,
        h.separate.tail.cons hqpos (hcut ▸ hkeys.2) (hqst ▸ h.separate.head.2)⟩, fun a => ?_⟩
      · simp only [takeFrom, if_neg heq, if_pos hpre, hst', hrest, ← hq]
        exact (congrArg (Option.bind · _) hins).trans (by rw [hq]; rfl)
      · rw [← hp, extents_cons, coverage_cons, hv, covers_join hcut, add_assoc]
    · -- allocate in the right side, and slide the node to the left
      obtain ⟨p, hp⟩ : ∃ p : Extent, p = ⟨v.start, v.size - sizeInBytes⟩ := ⟨_, rfl⟩
      obtain ⟨q, hq⟩ : ∃ q : Extent, q = ⟨v.stop - sizeInBytes, sizeInBytes⟩ := ⟨_, rfl⟩
      have hcut : p.stop = q.start := by
        rw [hp, hq]
        simp only [Extent.stop]
        omega
      have hppos : 0 < p.size := by rw [hp]; exact Nat.sub_pos_of_lt hlt
      have hv : v = ⟨p.start, p.size + q.size⟩ := by
        rw [hp, hq]
        exact congrArg (Extent.mk v.start) (Nat.sub_add_cancel hsize).symm
      have hkeys := keys_ne_of_cut hcut hppos (hq ▸ hpos) (hv ▸ hR) h.separate.tail
      obtain ⟨t₂, hins, hsiz₂⟩ := insertIntoSizeMap_spec
        (f := ⟨t, f.freeSpaceStartAddressMap, Function.update f.freeSpaceEndAddressMap v.stop none⟩)
        hsiz h.sizes.notMem (by omega) p
      have hres : wordSub v.stop sizeInBytes = p.stop := by
        rw [hcut, hq]
        exact wordSub_eq (by omega) (by simp only [Extent.stop]; omega)
      refine ⟨⟨t₂, f.freeSpaceStartAddressMap,
        addEntry (Function.update f.freeSpaceEndAddressMap v.stop none) p.stop x⟩, (x, p) ::ₘ A, p.stop,
        ?_, ?_, ⟨hsiz₂, h.starts.replace (by rw [hp]), addEntry_index (h.stops.erase hvke.2) hkeys.2 x,
        h.separate.tail.cons hppos (by rw [hp]; exact h.separate.head.1) ?_⟩, fun a => ?_⟩
      · simp only [takeFrom, if_neg heq, if_neg hpre, hend, hres, hrest, ← hp]
        exact (congrArg (Option.bind · _) hins).trans rfl
      · rw [hp]
        simp only [Extent.stop]
        omega
      · rw [hcut]
        exact fun e he => (hkeys.1 e he).symm
      · have hq' : (⟨p.stop, sizeInBytes⟩ : Extent) = q := by rw [hcut, hq]
        rw [hq', extents_cons, coverage_cons, hv, covers_join hcut, add_assoc, add_left_comm]

/-- **Finding free space** takes an extent of the size out of the free space; if there is none that is
    large enough, nothing changes. -/
theorem findAndRemoveFreeSpace_spec (h : FreeOk f N) (hR : NoOverlap (extents N)) (hW : Within (extents N) M) :
    (f.findAndRemoveFreeSpace cfg sizeInBytes = some (f, 0) ∧ ∀ e ∈ N, e.2.size < sizeInBytes) ∨
    ∃ f' N' start, f.findAndRemoveFreeSpace cfg sizeInBytes = some (f', start) ∧ start ≠ 0 ∧ FreeOk f' N' ∧
      ∀ a, (⟨start, sizeInBytes⟩ : Extent).covers a + coverage (extents N') a = coverage (extents N) a := by
  have hcard := h.separate.card_le hR hW
  obtain ⟨found, hfind, hfou⟩ := (h.sizes.correct (lt_of_le_of_lt hcard hM)).findLeast sizeInBytes
  cases found with
  | none =>
    refine .inl ⟨?_, hfou⟩
    simp only [findAndRemoveFreeSpace, rounds, hfind, bind_eq_bind, bind_some]
    rfl
  | some x =>
    refine .inr ?_
    obtain ⟨v, hmem, hsize, -⟩ := hfou
    obtain ⟨A, rfl⟩ := exists_cons_of_mem hmem
    rw [extents_cons] at hR hW
    rw [card_cons] at hcard
    obtain ⟨t, hrem, hsiz, hdata⟩ := removeFromSizeMap_spec h.sizes (by omega)
    have hnode : FreeSpaceMaps.node { f with freeSpaceSizeMap := t } x = v := (hdata x).trans (h.sizes.data_eq hmem)
    simp only [findAndRemoveFreeSpace, rounds, hfind, hrem, hnode, bind_eq_bind,
      bind_some, extents_cons, coverage_cons]
    exact takeFrom_spec cfg hpos hM h hR hW hsiz hsize

end find

end FreeSpaceMaps

end MetaAllocator

end WebV8
