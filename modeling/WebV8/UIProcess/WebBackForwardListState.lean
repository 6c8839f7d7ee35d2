import WebV8.UIProcess.WebBackForwardList

/-! # The state of a back/forward list

A list is saved without the entries that a filter rejects, and restored with new identifiers. The loop that saves it counts the
current index down at a rejected entry, and compares the index of the next one with what is left of it; so it stops
counting too early if many entries before the current one are rejected.
-/

namespace WebV8.BackForwardList

open List Option Bool Nat

variable {α γ : Type}

/-- What is saved of an entry. -/
structure ItemState (γ : Type) where
  identifier : Nat
  contents : γ

/-- `BackForwardListState`. -/
structure ListState (α : Type) where
  items : List α
  currentIndex : Option Nat

/-- `--` on a `uint32_t`. -/
def decrement (i : Nat) : Nat := if i = 0 then 2 ^ 32 - 1 else i - 1

/-- Without a filter all entries are kept. -/
def keeps (filter : Option (α → Bool)) (entry : α) : Bool := filter.elim true fun filter => filter entry

/-- The loop over the entries, from index `i` on. -/
def stateLoop (filter : Option (α → Bool)) : List α → (i : Nat) → ListState α → ListState α
  | [], _, state => state
  | entry :: entries, i, state =>
    if keeps filter entry then stateLoop filter entries (i + 1) { state with items := state.items ++ [entry] }
    else if state.currentIndex.any (i ≤ ·) then
      stateLoop filter entries (i + 1) { state with currentIndex := state.currentIndex.map decrement }
    else stateLoop filter entries (i + 1) state

variable (l : BackForwardList α)

def backForwardListState (filter : Option (α → Bool)) : ListState α :=
  stateLoop filter l.entries 0 ⟨[], if l.hasCurrentIndex then some l.currentIndex else none⟩

def generateWebBackForwardItemID (uniqueHistoryItemID : Nat) : Nat := (uniqueHistoryItemID + 2) % 2 ^ 64

/-- The loop that makes new entries. -/
def createItems : List (ItemState γ) → (uniqueHistoryItemID : Nat) → List (ItemState γ)
  | [], _ => []
  | item :: items, uniqueHistoryItemID =>
    let identifier := generateWebBackForwardItemID uniqueHistoryItemID
    { item with identifier } :: createItems items identifier

def restoreFromState (l : BackForwardList (ItemState γ)) (uniqueHistoryItemID : Nat) (state : ListState (ItemState γ)) :
    BackForwardList (ItemState γ) :=
  { l with
    hasCurrentIndex := state.currentIndex.isSome
    currentIndex := state.currentIndex.getD 0
    entries := createItems state.items uniqueHistoryItemID }

/-! ## What is counted -/

/-- What the class asserts, and the size of a `Vector`. -/
structure Indexed (l : BackForwardList α) : Prop where
  index : l.hasCurrentIndex = true → l.currentIndex < l.entries.length
  size : l.entries.length < 2 ^ 32

/-- The rejected entries at which the index is counted down: the index of the entry and the number of rejected
    entries before it are together at most the current index. -/
def counted (keep : α → Bool) (currentIndex : Nat) : List α → (i rejected : Nat) → Nat
  | [], _, _ => 0
  | entry :: entries, i, rejected =>
    if keep entry then counted keep currentIndex entries (i + 1) rejected
    else (if i + rejected ≤ currentIndex then 1 else 0) + counted keep currentIndex entries (i + 1) (rejected + 1)

/-- What the loop makes of the current index. -/
def countDown (keep : α → Bool) : List α → (i currentIndex : Nat) → Nat
  | [], _, currentIndex => currentIndex
  | entry :: entries, i, currentIndex =>
    countDown keep entries (i + 1) (if keep entry = false ∧ i ≤ currentIndex then decrement currentIndex else currentIndex)

variable {keep : α → Bool} {xs : List α} {i c n : Nat}

theorem stateLoop_eq (filter : Option (α → Bool)) (xs : List α) (i : Nat) (s : ListState α) :
    stateLoop filter xs i s =
      ⟨s.items ++ xs.filter (keeps filter), s.currentIndex.map (countDown (keeps filter) xs i)⟩ := by
  induction xs generalizing i s with
  | nil => simp [stateLoop, countDown]
  | cons x xs ih =>
    obtain ⟨items, index⟩ := s
    rw [stateLoop]
    cases index with
    | none => cases hkeep : keeps filter x <;> simp [ih, hkeep]
    | some c =>
      cases hkeep : keeps filter x with
      | true => simp [ih, hkeep, countDown]
      | false =>
        by_cases hle : i ≤ c
        · simp [ih, hkeep, countDown, hle]
        · simp [ih, hkeep, countDown, hle]

theorem countDown_append (xs ys : List α) (i c : Nat) :
    countDown keep (xs ++ ys) i c = countDown keep ys (i + xs.length) (countDown keep xs i c) := by
  induction xs generalizing i c with
  | nil => rfl
  | cons x xs ih => rw [cons_append, countDown, ih, countDown, length_cons, add_right_comm, add_assoc]

/-- Behind the current index nothing is counted. -/
theorem countDown_behind (h : c < i) : countDown keep xs i c = c := by
  induction xs generalizing i with
  | nil => rfl
  | cons x xs ih => rw [countDown, if_neg (by omega), ih (by omega)]

theorem le_countDown (h : xs.length ≤ c) : c + xs.countP keep ≤ countDown keep xs i c + xs.length := by
  induction xs generalizing i c with
  | nil => exact le_rfl
  | cons x xs ih =>
    rw [length_cons] at h ⊢
    rw [countDown]
    split_ifs with hcnt
    · have hrest := ih (i := i + 1) (c := c - 1) (by omega)
      rw [decrement, if_neg (by omega), countP_cons_of_neg (by simp [hcnt.1])]
      omega
    · have hrest := ih (i := i + 1) (c := c) (by omega)
      have hle : (x :: xs).countP keep ≤ xs.countP keep + 1 := by
        rw [countP_cons]
        split_ifs <;> omega
      omega

/-- Before the current index, either all rejected entries have been counted or no more will be. -/
theorem countDown_before {r : Nat} (hi : i + xs.length ≤ c) (hn : n ≤ r) (hrej : r ≤ i)
    (hstop : n = r ∨ c < i + n) :
    countDown keep xs i (c - n) = c - (n + counted keep c xs i r) ∧
      n + counted keep c xs i r + xs.countP keep ≤ r + xs.length := by
  induction xs generalizing i n r with
  | nil => exact ⟨rfl, hn⟩
  | cons x xs ih =>
    rw [length_cons] at hi ⊢
    rw [countDown, counted, countP_cons]
    cases hkeep : keep x with
    | true =>
      rw [if_neg (by simp), if_pos rfl, if_pos rfl]
      have hrest := ih (i := i + 1) (by omega) hn (by omega) (by omega)
      exact ⟨hrest.1, by omega⟩
    | false =>
      rw [if_neg Bool.false_ne_true, if_neg Bool.false_ne_true]
      by_cases hcnt : i + r ≤ c
      · obtain rfl : n = r := by omega
        rw [if_pos ⟨rfl, by omega⟩, decrement, if_neg (by omega), if_pos hcnt, Nat.sub_sub]
        have hrest := ih (n := n + 1) (r := n + 1) (i := i + 1) (by omega) le_rfl (by omega) (Or.inl rfl)
        exact ⟨by rw [hrest.1]; omega, by omega⟩
      · rw [if_neg (by omega), if_neg hcnt, zero_add]
        have hrest := ih (n := n) (r := r + 1) (i := i + 1) (by omega) (by omega) (by omega) (by omega)
        exact ⟨hrest.1, by omega⟩

/-- The first rejected entry before the current one is counted. -/
theorem countP_of_counted (hi : i + xs.length ≤ c) (h : counted keep c xs i 0 = 0) : xs.countP keep = xs.length := by
  induction xs generalizing i with
  | nil => rfl
  | cons x xs ih =>
    rw [length_cons] at hi
    rw [counted, if_pos (show i + 0 ≤ c by omega)] at h
    split_ifs at h with hkeep
    · rw [countP_cons_of_pos hkeep, ih (by omega) h, length_cons]
    · omega

/-! ## The current entry -/

/-- If the current entry is kept, the index is its place among the kept entries; and the index is one of an item. -/
structure Follows (l : BackForwardList α) (keep : α → Bool) (state : ListState α) : Prop where
  current : ∀ back current forward, l.entries = back ++ current :: forward → l.hasCurrentIndex = true →
    back.length = l.currentIndex → keep current = true → state.currentIndex = some (back.countP keep)
  within : ∀ j, state.currentIndex = some j → j < state.items.length

/-- If the current entry is kept, all entries before it are kept or counted; if not, it is not the first entry, and
    nothing before it is rejected or so many are counted that the index is one of an item. -/
def CountsAll (keep : α → Bool) : Prop :=
  let back := l.entries.take l.currentIndex
  let count := counted keep l.currentIndex back 0 0
  if (l.entries[l.currentIndex]?).any keep then count + back.countP keep = back.length
  else l.currentIndex ≠ 0 ∧ (count = 0 ∨ l.currentIndex < l.entries.countP keep + count)

section

variable {l : BackForwardList α} {back forward : List α} {current : α}

theorem follows_some {items : List α} (hspl : l.entries = back ++ current :: forward)
    (hback : back.length = l.currentIndex) (hcur : l.hasCurrentIndex = true) :
    l.Follows keep ⟨items, some i⟩ ↔ (keep current = true → i = back.countP keep) ∧ i < items.length := by
  constructor
  · intro h
    exact ⟨fun hkeep => Option.some.inj (h.current back current forward hspl hcur hback hkeep), h.within i rfl⟩
  · rintro ⟨hpla, hwit⟩
    refine ⟨fun back' current' forward' hspl' _ hback' hkeep => ?_, fun j hj => Option.some.inj hj ▸ hwit⟩
    obtain ⟨rfl, hrest⟩ := append_inj (hspl.symm.trans hspl') (hback.trans hback'.symm)
    obtain ⟨rfl, -⟩ := List.cons.inj hrest
    rw [hpla hkeep]

/-- At the current entry the index is counted down only if nothing has been rejected before. -/
theorem countDown_entries (current : α) (forward : List α) (hback : back.length = c) (hn : counted keep c back 0 0 = n) :
    n + back.countP keep ≤ back.length ∧
    (keep current = true ∨ n ≠ 0 → countDown keep (back ++ current :: forward) 0 c = c - n) ∧
    (keep current = false → n = 0 → back.countP keep = back.length ∧
      countDown keep (back ++ current :: forward) 0 c = countDown keep forward (c + 1) (decrement c)) := by
  obtain ⟨hloop, hcnt⟩ : countDown keep back 0 (c - 0) = c - (0 + counted keep c back 0 0) ∧
      0 + counted keep c back 0 0 + back.countP keep ≤ 0 + back.length :=
    countDown_before (by omega) le_rfl le_rfl (Or.inl rfl)
  rw [zero_add, hn] at hloop hcnt
  rw [countDown_append, show countDown keep back 0 c = c - n from hloop, countDown, zero_add, hback]
  refine ⟨by omega, fun hcase => ?_, fun hkeep hzero => ?_⟩
  · rw [if_neg, countDown_behind (by omega)]
    rintro ⟨hkeep, hle⟩
    rw [hkeep] at hcase
    have := hcase.resolve_left false_ne_true
    omega
  · rw [if_pos ⟨hkeep, by omega⟩, hzero]
    exact ⟨hback ▸ countP_of_counted (by omega) (hn.trans hzero), rfl⟩

end

theorem follows_iff (filter : Option (α → Bool)) (h : l.Indexed) :
    l.Follows (keeps filter) (l.backForwardListState filter) ↔ (l.hasCurrentIndex = true → l.CountsAll (keeps filter)) := by
  rw [backForwardListState, stateLoop_eq, nil_append]
  generalize keeps filter = keep
  cases hcur : l.hasCurrentIndex with
  | false => exact iff_of_true ⟨fun _ _ _ _ hidx => (nomatch hcur.symm.trans hidx), nofun⟩ nofun
  | true =>
    have hlt := h.index hcur
    obtain ⟨back, current, forward, hspl, hback⟩ :
        ∃ back current forward, l.entries = back ++ current :: forward ∧ back.length = l.currentIndex :=
      ⟨l.entries.take l.currentIndex, l.entries[l.currentIndex], l.entries.drop (l.currentIndex + 1), by simp,
        length_take_of_le hlt.le⟩
    have hsize := h.size
    obtain ⟨n, hn⟩ : ∃ n, counted keep l.currentIndex back 0 0 = n := ⟨_, rfl⟩
    obtain ⟨hcnt, hsame, hdown⟩ := countDown_entries current forward hback hn
    rw [if_pos rfl, map_some, follows_some hspl hback hcur, ← countP_eq_length_filter, CountsAll, hspl,
      ← hback, List.take_left, List.getElem?_append_right le_rfl, Nat.sub_self, List.getElem?_cons_zero, Option.any_some,
      hback, hn, countP_append, countP_cons, imp_iff_right rfl]
    rw [hspl, length_append, length_cons] at hsize
    cases hkeep : keep current with
    | true =>
      rw [hsame (Or.inl hkeep), if_pos rfl, if_pos rfl, imp_iff_right rfl]
      omega
    | false =>
      rw [if_neg Bool.false_ne_true, if_neg Bool.false_ne_true]
      by_cases hzero : n = 0
      · obtain ⟨hnone, hidx⟩ := hdown hkeep hzero
        rw [hidx, decrement]
        split_ifs with hfst
        · -- The index wraps around and is past all items.
          have hge : 2 ^ 32 - 1 + forward.countP keep ≤ countDown keep forward (l.currentIndex + 1) (2 ^ 32 - 1) +
              forward.length := le_countDown (by omega)
          generalize countDown keep forward _ (2 ^ 32 - 1) = j at hge ⊢
          simp
          omega
        · rw [countDown_behind (by omega)]
          simp
          omega
      · rw [hsame (Or.inr hzero)]
        simp
        omega

/-! ## Restoring -/

theorem map_createItems (items : List (ItemState γ)) (uniqueHistoryItemID : Nat) :
    (createItems items uniqueHistoryItemID).map ItemState.contents = items.map ItemState.contents := by
  induction items generalizing uniqueHistoryItemID with
  | nil => rfl
  | cons item items ih => rw [createItems, map_cons, ih, map_cons]

theorem length_createItems (items : List (ItemState γ)) (uniqueHistoryItemID : Nat) :
    (createItems items uniqueHistoryItemID).length = items.length := by
  simpa using congrArg List.length (map_createItems items uniqueHistoryItemID)

theorem countDown_none (xs : List α) (i c : Nat) : countDown (keeps none) xs i c = c := by
  induction xs generalizing i with
  | nil => rfl
  | cons x xs ih => rw [countDown, if_neg (by simp [keeps]), ih]

/-- **Saving and restoring**: the kept entries are saved in order, and without a filter the same items and position are
    restored; the index follows the current entry, and the restored list has a current entry, exactly if all
    rejected entries are counted. -/
theorem backForwardListState_iff (l : BackForwardList (ItemState γ)) (filter : Option (ItemState γ → Bool))
    (uniqueHistoryItemID : Nat) (h : l.Indexed) :
    (l.backForwardListState filter).items = l.entries.filter (keeps filter) ∧
    (l.Follows (keeps filter) (l.backForwardListState filter) ↔
      (l.hasCurrentIndex = true → l.CountsAll (keeps filter))) ∧
    (l.Follows (keeps filter) (l.backForwardListState filter) →
      (l.restoreFromState uniqueHistoryItemID (l.backForwardListState filter)).Indexed) ∧
    let restored := l.restoreFromState uniqueHistoryItemID (l.backForwardListState none)
    restored.entries.map ItemState.contents = l.entries.map ItemState.contents ∧
      restored.hasCurrentIndex = l.hasCurrentIndex ∧
      (l.hasCurrentIndex = true → restored.currentIndex = l.currentIndex) := by
  have hstate : l.backForwardListState none = ⟨l.entries, if l.hasCurrentIndex then some l.currentIndex else none⟩ := by
    rw [backForwardListState, stateLoop_eq, List.nil_append, funext (countDown_none l.entries 0), Option.map_id']
    simp [keeps]
  have hitems : (l.backForwardListState filter).items = l.entries.filter (keeps filter) := by
    rw [backForwardListState, stateLoop_eq, nil_append]
  refine ⟨hitems, follows_iff l filter h, fun hfollows => ⟨fun hcurrent => ?_, ?_⟩, ?_⟩
  · obtain ⟨j, hj⟩ := isSome_iff_exists.mp hcurrent
    have hwithin := hfollows.within j hj
    rw [restoreFromState, hj, length_createItems]
    exact hwithin
  · rw [restoreFromState, length_createItems, hitems]
    exact (length_filter_le _ _).trans_lt h.size
  · rw [hstate]
    refine ⟨map_createItems _ _, ?_, fun hcurrent => ?_⟩
    · cases hcurrent : l.hasCurrentIndex <;> simp [restoreFromState]
    · simp [restoreFromState, hcurrent]

/-- The second entry is current and kept, and the first one is not. -/
theorem backForwardListState_iff_second : ∃ l : BackForwardList (ItemState Nat), l.currentIndex = 1 ∧
    l.entries.countP (keeps (some fun entry => entry.contents = 1)) = 1 ∧
    l.Follows (keeps (some fun entry => entry.contents = 1))
      (l.backForwardListState (some fun entry => entry.contents = 1)) := by
  have h : (⟨true, true, 1, 100, [⟨2, 0⟩, ⟨4, 1⟩]⟩ : BackForwardList (ItemState Nat)).Indexed := ⟨by decide, by decide⟩
  refine ⟨_, rfl, ?_, (backForwardListState_iff _ _ 0 h).2.1.mpr fun _ => ?_⟩
  · decide
  · simp [CountsAll, counted, keeps]

/-- The fourth entry is current and the only one that is kept; its index becomes 1. -/
theorem rejected_entries_uncounted :
    let l : BackForwardList (ItemState Nat) := ⟨true, true, 3, 100, [⟨2, 0⟩, ⟨4, 0⟩, ⟨6, 0⟩, ⟨8, 1⟩]⟩
    let state := l.backForwardListState (some fun entry => entry.contents = 1)
    l.Indexed ∧ state.items.length = 1 ∧ state.currentIndex = some 1 :=
  ⟨⟨by decide, by decide⟩, by decide, by decide⟩

end WebV8.BackForwardList
