import WebV8.WTF.MetaAllocatorSpace

/-!
# The pages of a `MetaAllocator`

`Counted cfg o c`: the page map counts `c`, a page is in the map exactly if it is counted, the
committed bytes are those of the pages in the map, and for each page the notifications have alternated.
Walking over pages adds to the counts or takes from them.

The pages that `shrink` takes from are those that begin in the extent it frees. Those are the pages
that the handle was on and is not on any more, except in one case: when the handle shrinks to nothing
and does not start at the start of a page, it leaves its first page without being taken off it.
-/

namespace WebV8

open Lib List Finset Nat

namespace MetaAllocator

variable (cfg : Config)

/-! ## Extents on pages -/

def OnPage (page : Nat) (r : Extent) : Prop :=
  ∃ a, r.start ≤ a ∧ a < r.stop ∧ a / cfg.pageSize = page

theorem pageSize_pos : 0 < cfg.pageSize := Nat.two_pow_pos _

theorem onPage_iff (page : Nat) (r : Extent) : OnPage cfg page r ↔
    0 < r.size ∧ page * cfg.pageSize < r.stop ∧ r.start < (page + 1) * cfg.pageSize := by
  have hP := pageSize_pos cfg
  have hdiv : ∀ a, a / cfg.pageSize = page ↔
      page * cfg.pageSize ≤ a ∧ a < (page + 1) * cfg.pageSize := fun a => by
    rw [Nat.div_eq_iff hP]
    have := Nat.add_one_mul page cfg.pageSize
    omega
  have hnext := Nat.add_one_mul page cfg.pageSize
  simp only [OnPage, hdiv]
  constructor
  · rintro ⟨a, h₁, h₂, h₃, h₄⟩
    simp only [Extent.stop] at h₂ ⊢
    omega
  · rintro ⟨hsize, h₁, h₂⟩
    refine ⟨max r.start (page * cfg.pageSize), ?_⟩
    simp only [Extent.stop] at h₁ ⊢
    omega

instance (page : Nat) (r : Extent) : Decidable (OnPage cfg page r) :=
  decidable_of_iff _ (onPage_iff cfg page r).symm

def occupancy (handles : List Extent) (page : Nat) : Nat :=
  handles.countP fun r => decide (OnPage cfg page r)

theorem occupancy_cons (r : Extent) (handles : List Extent) (page : Nat) : occupancy cfg (r :: handles) page =
      occupancy cfg handles page + if OnPage cfg page r then 1 else 0 := by
  simp only [occupancy, countP_cons, decide_eq_true_eq]

/-! ## Counting -/

/-- Whether a page is committed, after one more notification about it. -/
def pageStep (committed : Bool) : PageEvent → Option Bool
  | .needPage => if committed then none else some true
  | .pageIsFree => if committed then some false else none

def history (notified : List (Nat × PageEvent)) (page : Nat) : List PageEvent :=
  (notified.filter fun e => e.1 = page).map Prod.snd

theorem history_append (l : List (Nat × PageEvent)) (page : Nat) (e : PageEvent) (q : Nat) :
    history (l ++ [(page, e)]) q = history l q ++ if page = q then [e] else [] := by
  by_cases h : page = q
  · simp [history, h]
  · simp [history, h]

/-- The pages in the map are those that are counted, and what has been notified agrees. -/
structure Counted (o : PageOccupancy) (c : Nat → Nat) : Prop where
  map_eq : ∀ page, o.pageOccupancyMap page = if c page = 0 then none else some (c page)
  inMemory : ∀ page, c page ≠ 0 → (page + 1) * cfg.pageSize < 2 ^ 64
  committed : ∃ S : Finset Nat, (∀ page, page ∈ S ↔ c page ≠ 0) ∧
    o.bytesCommitted = cfg.pageSize * S.card
  alternate : ∀ page, run pageStep false (history o.notified page) = some (decide (c page ≠ 0))

variable {cfg} {o : PageOccupancy} {c : Nat → Nat} {page : Nat} {S : Finset Nat}

theorem card_pages_lt (h : ∀ page ∈ S, (page + 1) * cfg.pageSize < 2 ^ 64) :
    cfg.pageSize * S.card < 2 ^ 64 := by
  have hP := pageSize_pos cfg
  have hsub : S ⊆ Finset.range ((2 ^ 64 - 1) / cfg.pageSize) := by
    intro page hpage
    have hlt := h page hpage
    rw [Finset.mem_range, Nat.lt_iff_add_one_le, Nat.le_div_iff_mul_le hP]
    omega
  have hcard := card_le_card hsub
  rw [card_range] at hcard
  have hmul := mul_div_le (2 ^ 64 - 1) cfg.pageSize
  calc cfg.pageSize * S.card ≤ cfg.pageSize * ((2 ^ 64 - 1) / cfg.pageSize) := mul_le_mul_left _ hcard
    _ < 2 ^ 64 := by omega

variable (h : Counted cfg o c) {r : Extent}
include h

/-- The count of one page is set to `n`: its entry of the map is, and the rest agrees. -/
theorem Counted.update {n : Nat} {o' : PageOccupancy} (hmem : n ≠ 0 → (page + 1) * cfg.pageSize < 2 ^ 64)
    (hmap : o'.pageOccupancyMap = Function.update o.pageOccupancyMap page (if n = 0 then none else some n))
    (hS : ∀ q, q ∈ S ↔ Function.update c page n q ≠ 0)
    (hbs : (∀ q ∈ S, (q + 1) * cfg.pageSize < 2 ^ 64) → o'.bytesCommitted = cfg.pageSize * S.card)
    (hoth : ∀ q, q ≠ page → history o'.notified q = history o.notified q)
    (hthis : run pageStep false (history o'.notified page) = some (decide (n ≠ 0))) :
    Counted cfg o' (Function.update c page n) := by
  have hbd : ∀ q, Function.update c page n q ≠ 0 → (q + 1) * cfg.pageSize < 2 ^ 64 := by
    intro q hq
    by_cases hpage : q = page
    · rw [hpage, Function.update_self] at hq
      rw [hpage]
      exact hmem hq
    · rw [Function.update_of_ne hpage] at hq
      exact h.inMemory q hq
  refine ⟨fun q => ?_, hbd, ⟨S, hS, hbs fun q hq => hbd q ((hS q).mp hq)⟩, fun q => ?_⟩
  · by_cases hpage : q = page
    · simp [hmap, hpage]
    · simp [hmap, hpage, h.map_eq]
  · by_cases hpage : q = page
    · rw [hpage, hthis, Function.update_self]
    · rw [hoth q hpage, h.alternate, Function.update_of_ne hpage]

/-- A count that stays positive changes nothing else. -/
theorem Counted.recount {n : Nat} (hc : c page ≠ 0) (hn : n ≠ 0) :
    Counted cfg { o with pageOccupancyMap := Function.update o.pageOccupancyMap page (some n) }
      (Function.update c page n) := by
  obtain ⟨S, hS, hbs⟩ := h.committed
  refine h.update (fun _ => h.inMemory page hc) (by rw [if_neg hn]) (fun q => ?_) (fun _ => hbs) (fun _ _ => rfl) ?_
  · rw [hS]
    by_cases hpage : q = page
    · simp [hpage, hc, hn]
    · simp [hpage]
  · simp [h.alternate, hc, hn]

theorem incrementPage_counted (hmem : (page + 1) * cfg.pageSize < 2 ^ 64) :
    Counted cfg (o.incrementPage cfg page) (Function.update c page (c page + 1)) := by
  by_cases hc : c page = 0
  · obtain ⟨S, hS, hbs⟩ := h.committed
    have hnot : page ∉ S := fun hin => (hS page).mp hin hc
    simp only [PageOccupancy.incrementPage, h.map_eq, if_pos hc]
    refine h.update (S := insert page S) (fun _ => hmem) (by simp [hc]) (fun q => ?_) (fun hin => ?_) (fun q hq => ?_) ?_
    · rw [mem_insert, hS]
      by_cases hpage : q = page
      · simp [hpage]
      · simp [hpage]
    · have hcard := card_pages_lt hin
      rw [card_insert_of_notMem hnot] at hcard ⊢
      rw [hbs]
      exact word_eq hcard
    · rw [history_append, if_neg (Ne.symm hq), append_nil]
    · rw [history_append, if_pos rfl, run_concat, h.alternate]
      simp [hc, pageStep]
  · simp only [PageOccupancy.incrementPage, h.map_eq, if_neg hc]
    exact h.recount hc (succ_ne_zero _)

theorem decrementPage_counted (hc : c page ≠ 0) : ∃ o', o.decrementPage cfg page = some o' ∧
      Counted cfg o' (Function.update c page (c page - 1)) := by
  simp only [PageOccupancy.decrementPage, h.map_eq, if_neg hc]
  by_cases hone : c page = 1
  · obtain ⟨S, hS, hbs⟩ := h.committed
    have hin : page ∈ S := (hS page).mpr hc
    have hcard := card_pages_lt fun q hq => h.inMemory q ((hS q).mp hq)
    rw [if_pos hone]
    refine ⟨_, rfl, h.update (S := S.erase page) (fun _ => h.inMemory page hc) (by simp [hone]) (fun q => ?_)
      (fun _ => ?_) (fun q hq => ?_) ?_⟩
    · rw [mem_erase, hS]
      by_cases hpage : q = page
      · simp [hpage, hone]
      · simp [hpage]
    · rw [card_erase_of_mem hin, hbs, mul_sub_one]
      exact wordSub_eq hcard (Nat.le_mul_of_pos_right _ (card_pos.mpr ⟨page, hin⟩))
    · rw [history_append, if_neg (Ne.symm hq), append_nil]
    · rw [history_append, if_pos rfl, run_concat, h.alternate]
      simp [hone, pageStep]
  · rw [if_neg hone]
    exact ⟨_, rfl, h.recount hc (by omega)⟩

/-! ## Walking over pages -/

omit h in
theorem incrementPages_counted : ∀ (l : List Nat) {o : PageOccupancy} {c : Nat → Nat},
    Counted cfg o c → (∀ page ∈ l, (page + 1) * cfg.pageSize < 2 ^ 64) →
    Counted cfg (l.foldl (PageOccupancy.incrementPage cfg) o) (fun page => c page + l.count page) := by
  intro l
  induction l with
  | nil => exact fun h _ => h
  | cons q l ih =>
    intro o c h hmem
    have h' := ih (incrementPage_counted h (hmem q (mem_cons_self ..)))
      fun page hpage => hmem page (mem_cons_of_mem q hpage)
    rw [foldl_cons]
    convert h' using 2 with page
    rw [count_cons]
    by_cases hpage : page = q
    · simp [hpage]
      omega
    · simp [hpage, Ne.symm hpage]

omit h in
theorem decrementPages_counted : ∀ (l : List Nat) {o : PageOccupancy} {c : Nat → Nat},
    Counted cfg o c → (∀ page, l.count page ≤ c page) → ∃ o', run (PageOccupancy.decrementPage cfg) o l = some o' ∧
      Counted cfg o' (fun page => c page - l.count page) := by
  intro l
  induction l with
  | nil => exact fun h _ => ⟨_, rfl, h⟩
  | cons q l ih =>
    intro o c h hle
    have hq := hle q
    rw [count_cons_self] at hq
    have hcq : c q ≠ 0 := by omega
    obtain ⟨o₁, hstep, h₁⟩ := decrementPage_counted h hcq
    have hle₁ : ∀ page, l.count page ≤ Function.update c q (c q - 1) page := by
      intro page
      have hpage := hle page
      rw [count_cons] at hpage
      by_cases heq : page = q
      · rw [heq, Function.update_self]
        omega
      · rw [Function.update_of_ne heq]
        omega
    obtain ⟨o', hrun, h'⟩ := ih h₁ hle₁
    refine ⟨o', by rw [run_cons hstep, hrun], ?_⟩
    convert h' using 2 with page
    rw [count_cons]
    by_cases heq : page = q
    · simp [heq]
      omega
    · simp [heq, Ne.symm heq]

omit h in
theorem count_pages (hpos : 0 < r.size) (hstop : r.stop < 2 ^ 64) (page : Nat) :
    (pages cfg r.start r.size).count page = if OnPage cfg page r then 1 else 0 := by
  have hP := pageSize_pos cfg
  have hlast : wordSub (word (r.start + r.size)) 1 = r.stop - 1 := by
    have hpos' : 1 ≤ r.stop := by
      simp only [Extent.stop]
      omega
    rw [show r.start + r.size = r.stop from rfl, word_eq hstop, wordSub_eq hstop hpos']
  have hmem : page ∈ pages cfg r.start r.size ↔ OnPage cfg page r := by
    have hfst : r.start / cfg.pageSize ≤ page ↔ r.start < (page + 1) * cfg.pageSize := by
      rw [← Nat.lt_add_one_iff, div_lt_iff_lt_mul hP]
    have hlast' : page ≤ (r.stop - 1) / cfg.pageSize ↔ page * cfg.pageSize ≤ r.stop - 1 := le_div_iff_mul_le hP
    simp only [pages, hlast, shiftRight_eq_div_pow, mem_range'_1, onPage_iff]
    simp only [Config.pageSize] at hfst hlast' ⊢
    have hstop' : 0 < r.stop := by
      simp only [Extent.stop]
      omega
    omega
  have hnod : (pages cfg r.start r.size).Nodup := nodup_range'
  rw [hnod.count]
  simp only [hmem]

theorem incrementPageOccupancy_counted (hpos : 0 < r.size)
    (hstop : r.stop + cfg.pageSize < 2 ^ 64) : Counted cfg (o.incrementPageOccupancy cfg r.start r.size)
      (fun page => c page + if OnPage cfg page r then 1 else 0) := by
  have hcnt : ∀ page, (pages cfg r.start r.size).count page = if OnPage cfg page r then 1 else 0 :=
    count_pages hpos (lt_of_le_of_lt (le_add_right _ _) hstop)
  simp only [← hcnt]
  refine incrementPages_counted _ h fun page hpage => ?_
  have hon : OnPage cfg page r := by
    by_contra hnot
    have := count_pos_iff.mpr hpage
    rw [hcnt, if_neg hnot] at this
    omega
  have hon := ((onPage_iff ..).mp hon).2.1
  have hnext := Nat.add_one_mul page cfg.pageSize
  omega

theorem decrementPageOccupancy_counted (hpos : 0 < r.size)
    (hstop : r.stop < 2 ^ 64) (hc : ∀ page, OnPage cfg page r → c page ≠ 0) :
    ∃ o', o.decrementPageOccupancy cfg r.start r.size = some o' ∧
      Counted cfg o' (fun page => c page - if OnPage cfg page r then 1 else 0) := by
  have hcnt : ∀ page, (pages cfg r.start r.size).count page = if OnPage cfg page r then 1 else 0 :=
    count_pages hpos hstop
  simp only [← hcnt]
  refine decrementPages_counted _ h fun page => ?_
  rw [hcnt]
  split_ifs with hon
  · exact one_le_iff_ne_zero.mpr (hc page hon)
  · exact zero_le _

/-! ## Shrinking -/

def BeginsIn (cfg : Config) (page : Nat) (r : Extent) : Prop :=
  r.start ≤ page * cfg.pageSize ∧ page * cfg.pageSize < r.stop

instance (page : Nat) (r : Extent) : Decidable (BeginsIn cfg page r) :=
  inferInstanceAs (Decidable (_ ∧ _))

omit h in
theorem le_page_iff (start page : Nat) :
    (start + cfg.pageSize - 1) / cfg.pageSize * cfg.pageSize ≤ page * cfg.pageSize ↔
      start ≤ page * cfg.pageSize := by
  have hP := pageSize_pos cfg
  have hnext := Nat.add_one_mul page cfg.pageSize
  rw [Nat.mul_le_mul_right_iff hP, ← Nat.lt_add_one_iff, div_lt_iff_lt_mul hP]
  omega

theorem decrementFreedPages_counted
    (hstop : r.stop + cfg.pageSize < 2 ^ 64) (hc : ∀ page, BeginsIn cfg page r → c page ≠ 0) :
    ∃ o', o.decrementFreedPages cfg r.start r.size = some o' ∧
      Counted cfg o' (fun page => c page - if BeginsIn cfg page r then 1 else 0) := by
  have hP := pageSize_pos cfg
  have hle : r.start ≤ r.stop := le_add_right _ _
  have hend : word (r.start + r.size) = r.stop := word_eq (by simp only [Extent.stop] at *; omega)
  have hfst : maskBelow (word (r.start + cfg.pageSize - 1)) cfg.pageSize =
      (r.start + cfg.pageSize - 1) / cfg.pageSize * cfg.pageSize := by
    rw [word_eq (by omega)]
    exact maskBelow_eq (by omega) (lt_trans cfg.page_lt (by decide))
  have hrnd : r.start ≤ (r.start + cfg.pageSize - 1) / cfg.pageSize * cfg.pageSize :=
    (le_page_iff r.start _).mp le_rfl
  simp only [PageOccupancy.decrementFreedPages, hend, hfst]
  split_ifs with hlt
  · have hsize : wordSub r.size (wordSub ((r.start + cfg.pageSize - 1) / cfg.pageSize * cfg.pageSize)
        r.start) = r.stop - (r.start + cfg.pageSize - 1) / cfg.pageSize * cfg.pageSize := by
      rw [wordSub_eq (by omega) hrnd, wordSub_eq (by simp only [Extent.stop] at *; omega)
        (by simp only [Extent.stop] at *; omega)]
      simp only [Extent.stop]
      omega
    obtain ⟨q, hq⟩ : ∃ q : Extent, q = ⟨(r.start + cfg.pageSize - 1) / cfg.pageSize * cfg.pageSize,
      r.stop - (r.start + cfg.pageSize - 1) / cfg.pageSize * cfg.pageSize⟩ := ⟨_, rfl⟩
    have hqsto : q.stop = r.stop := by
      rw [hq]
      exact Nat.add_sub_cancel' hlt.le
    have hon : ∀ page, OnPage cfg page q ↔ BeginsIn cfg page r := by
      intro page
      have hmul : q.start < (page + 1) * cfg.pageSize ↔ q.start ≤ page * cfg.pageSize := by
        rw [hq, Nat.mul_lt_mul_right hP, Nat.lt_add_one_iff, Nat.mul_le_mul_right_iff hP]
      have hqst : q.start ≤ page * cfg.pageSize ↔ r.start ≤ page * cfg.pageSize := by
        rw [hq]
        exact le_page_iff r.start page
      have hqpos : 0 < q.size := by
        rw [hq]
        exact Nat.sub_pos_of_lt hlt
      rw [onPage_iff, hmul, hqst, hqsto, BeginsIn]
      omega
    rw [hsize]
    have hqpos : 0 < q.size := by
      rw [hq]
      exact Nat.sub_pos_of_lt hlt
    have hdec := decrementPageOccupancy_counted h hqpos (by omega) fun page hpage => hc page ((hon page).mp hpage)
    simp only [hon] at hdec
    rwa [hq] at hdec
  · have hnone : ∀ page, ¬BeginsIn cfg page r := by
      rintro page ⟨h₁, h₂⟩
      have := (le_page_iff r.start page).mpr h₁
      omega
    refine ⟨o, rfl, ?_⟩
    simp only [if_neg (hnone _), Nat.sub_zero]
    exact h

omit h

/-- The handle shrinks to nothing in the middle of the page. -/
def LeftBehind (cfg : Config) (page start newSize : Nat) : Prop :=
  newSize = 0 ∧ page * cfg.pageSize < start ∧ start < (page + 1) * cfg.pageSize

instance (page start newSize : Nat) : Decidable (LeftBehind cfg page start newSize) :=
  inferInstanceAs (Decidable (_ ∧ _))

/-- **The pages a handle leaves when it shrinks**: those that begin in the extent it frees, and its first
    page if it shrinks to nothing in the middle of that. -/
theorem onPage_shrink {start size newSize : Nat} (hlt : newSize < size) (page : Nat) :
    (if OnPage cfg page ⟨start, size⟩ then 1 else 0) = (if OnPage cfg page ⟨start, newSize⟩ then 1 else 0) +
        (if BeginsIn cfg page ⟨start + newSize, size - newSize⟩ then 1 else 0) +
        if LeftBehind cfg page start newSize then 1 else 0 := by
  have hP := pageSize_pos cfg
  have hnext := Nat.add_one_mul page cfg.pageSize
  have hold := onPage_iff cfg page ⟨start, size⟩
  have hnew := onPage_iff cfg page ⟨start, newSize⟩
  simp only [Extent.stop] at hold hnew
  have hfre : BeginsIn cfg page ⟨start + newSize, size - newSize⟩ ↔ start + newSize ≤ page * cfg.pageSize ∧
        page * cfg.pageSize < start + newSize + (size - newSize) := Iff.rfl
  have hleft : LeftBehind cfg page start newSize ↔
      newSize = 0 ∧ page * cfg.pageSize < start ∧ start < (page + 1) * cfg.pageSize := Iff.rfl
  by_cases h₁ : OnPage cfg page ⟨start, size⟩ <;> by_cases h₂ : OnPage cfg page ⟨start, newSize⟩ <;>
    by_cases h₃ : BeginsIn cfg page ⟨start + newSize, size - newSize⟩ <;>
    by_cases h₄ : LeftBehind cfg page start newSize <;>
    simp only [h₁, h₂, h₃, h₄, if_true, if_false] <;>
    rw [hold] at h₁ <;> rw [hnew] at h₂ <;> rw [hfre] at h₃ <;> rw [hleft] at h₄ <;> omega

end MetaAllocator

end WebV8
