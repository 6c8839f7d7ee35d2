import WebV8.UIProcess.WebBackForwardList

/-! # Runs of a back/forward list

A call takes items off the list on several paths, and `change` sorts them: those on the paths that report to the
page, and the current item that the client refuses to keep, which `addItem` and `goToItem` take away without a
report. Whatever is said about the notices of a call follows from that. As long as no item is added a second
time, the reports of a run are right exactly if the client never refuses an item that would then be gone.
-/

namespace WebV8.BackForwardList

open Lib List

variable {α : Type} [DecidableEq α] {l l' : BackForwardList α} {n : Notices α}

/-! ## What a call changes -/

/-- The entries that leave on a path with a report, those that the client refuses, and the list afterwards. -/
structure Change (α : Type) where
  tossed : List α
  refused : List α
  rest : List α

def Change.none (l : BackForwardList α) : Change α := ⟨[], [], l.entries⟩

def change (l : BackForwardList α) : Call α → Change α
  | .addItem (some item) keeps =>
    if l.capacity = 0 ∨ l.page = false then .none l
    else ⟨l.makeRoom.2, l.replaced keeps, l.kept keeps ++ [item]⟩
  | .addItem .none _ => .none l
  | .goToItem (some item) keeps =>
    if l.page = false ∨ item ∉ l.entries then .none l else ⟨[], l.left item keeps, l.staying item keeps⟩
  | .goToItem .none _ => .none l
  | .clear =>
    if l.page = false ∨ l.entries.length ≤ 1 then .none l
    else
      let current := l.entries[l.currentIndex]?.toList
      ⟨l.entries.filter (· ∉ current), [], current⟩
  | .removeAllItems => ⟨l.entries, [], []⟩
  | .pageClosed => ⟨l.entries, [], []⟩

def Open (l : BackForwardList α) (c : Call α) : Prop :=
  match c with
  | .removeAllItems => l.page = true
  | _ => True

/-- The result of a call, in terms of its `change`. -/
structure Yields (l : BackForwardList α) (c : Call α) (l' : BackForwardList α) (n : Notices α) : Prop where
  placed : l'.Placed
  capacity : l'.capacity = l.capacity
  page : c ≠ .pageClosed → l'.page = l.page
  entries : l'.entries = (l.change c).rest
  removed : n.removed = (l.change c).tossed
  didChange : l.entries.Nodup → ∀ item removedItems, n.didChange = some (item, removedItems) →
    removedItems.Perm ((l.change c).tossed ++ (l.change c).refused)
  silent : n.didChange = none → l'.entries = l.entries ∨ c = .pageClosed

variable {c : Call α} {xs : List α}

theorem Placed.yields_ignore (h : l.Placed) (hc : l.change c = .none l) :
    ∃ l' n, l.ignore = some (l', n) ∧ Yields l c l' n :=
  ⟨l, ⟨[], none⟩, rfl, h, rfl, fun _ => rfl, by rw [hc]; rfl, by rw [hc]; rfl, nofun, fun _ => Or.inl rfl⟩

omit [DecidableEq α] in
theorem lt_length_of_getElem? {i : Nat} {a : α} (h : xs[i]? = some a) : i < xs.length :=
  (List.getElem?_eq_some_iff.mp h).1

/-- Without repetition, the entries other than the one at an index are those that differ from it. -/
theorem perm_filter_ne_getElem (hnd : xs.Nodup) {i : Nat} (hi : i < xs.length) :
    (xs.eraseIdx i).Perm (xs.filter (· ≠ xs[i])) := by
  have hperm := getElem_cons_eraseIdx_perm hi
  have hnd' := nodup_cons.mp (hperm.nodup_iff.mpr hnd)
  refine (perm_ext_iff_of_nodup hnd'.2 (hnd.filter _)).mpr fun x => ?_
  rw [mem_filter, ← hperm.mem_iff, mem_cons]
  constructor
  · intro hx
    refine ⟨Or.inr hx, decide_eq_true fun heq => hnd'.1 (heq ▸ hx)⟩
  · rintro ⟨heq | hx, hne⟩
    · exact absurd heq (of_decide_eq_true hne)
    · exact hx

theorem change_clear (hact : ¬(l.page = false ∨ l.entries.length ≤ 1))
    (hlt : l.currentIndex < l.entries.length) : l.change .clear =
      ⟨l.entries.filter (· ≠ l.entries[l.currentIndex]), [], [l.entries[l.currentIndex]]⟩ := by
  rw [change, if_neg hact, List.getElem?_eq_getElem hlt]
  simp

/-- **Every call on an open page** succeeds and changes the list as `change` says. -/
theorem perform_spec (h : l.Placed) (hopen : l.Open c) : ∃ l' n, l.perform c = some (l', n) ∧ Yields l c l' n := by
  cases c with
  | addItem newItem keeps =>
    cases newItem with
    | none => exact h.yields_ignore rfl
    | some item =>
      by_cases hskip : l.capacity = 0 ∨ l.page = false
      · have hgua : (decide (l.capacity = 0) || !l.page) = true := by simpa using hskip
        rw [perform, addItem, if_pos hgua]
        exact h.yields_ignore (if_pos hskip)
      · obtain ⟨hcap, hpage⟩ := not_or.mp hskip
        have hlen := length_behind_lt h hcap
        have hkept : (l.kept keeps).length ≤ l.behind.length := by
          rw [← kept_append_replaced keeps, length_append]
          omega
        have hope : l.page = true := by simpa using hpage
        rw [perform, addItem_spec h hope hcap]
        refine ⟨_, _, rfl, ?_⟩
        refine ⟨Placed.of_lt (by simp) (by simp; omega), rfl, fun _ => hope.symm, ?_, ?_, ?_, by simp⟩
        · rw [change, if_neg hskip]
        · rw [change, if_neg hskip]
        · rintro - _ _ ⟨⟩
          rw [change, if_neg hskip]
  | goToItem item keeps =>
    cases item with
    | none => exact h.yields_ignore rfl
    | some item =>
      by_cases hskip : l.page = false ∨ item ∉ l.entries
      · rw [perform, goToItem_ignored hskip]
        exact h.yields_ignore (if_pos hskip)
      · obtain ⟨hpage, hmem⟩ := not_or.mp hskip
        have hope : l.page = true := by simpa using hpage
        obtain ⟨i, hgo, hat⟩ := goToItem_spec h hope (Classical.not_not.mp hmem) keeps
        rw [perform, hgo]
        refine ⟨_, _, rfl, ?_⟩
        refine ⟨Placed.of_lt (lt_length_of_getElem? hat)
          ((staying_sublist item keeps).length_le.trans h.size), rfl, fun _ => hope.symm, ?_, ?_, ?_, by simp⟩
        · rw [change, if_neg hskip]
        · rw [change, if_neg hskip]
        · rintro - _ _ ⟨⟩
          rw [change, if_neg hskip]
          exact List.Perm.refl _
  | clear =>
    by_cases hskip : l.page = false ∨ l.entries.length ≤ 1
    · rw [perform, clear_ignored hskip]
      exact h.yields_ignore (if_pos hskip)
    · obtain ⟨hpage, hlen⟩ := not_or.mp hskip
      have hope : l.page = true := by simpa using hpage
      obtain ⟨hlt, hcle⟩ := clear_spec h hope (by omega)
      rw [perform, hcle]
      refine ⟨_, _, rfl, ?_⟩
      have hcha := change_clear hskip hlt
      have hcap := h.size
      refine ⟨Placed.of_lt (by simp) (by simp; omega), rfl, fun _ => hope.symm, ?_, ?_, ?_, by simp⟩
      · rw [hcha]
      · rw [hcha]
      · rintro hnd _ _ ⟨⟩
        rw [hcha, append_nil]
        exact perm_filter_ne_getElem hnd hlt
  | removeAllItems =>
    have hpage : l.page = true := hopen
    have hper : l.perform .removeAllItems =
        some (⟨true, false, l.currentIndex, l.capacity, []⟩, ⟨l.entries, some (none, l.entries)⟩) := by
      rw [perform, removeAllItems, hpage]
      rfl
    refine ⟨_, _, hper, Placed.of_nil, rfl, fun _ => hpage.symm, rfl, rfl, ?_, by simp⟩
    rintro - _ _ ⟨⟩
    rw [change, append_nil]
  | pageClosed =>
    refine ⟨_, _, rfl, Placed.of_nil, rfl, fun hne => absurd rfl hne, rfl, ?_, by simp, fun _ => Or.inr rfl⟩
    cases hpage : l.page with
    | false => exact (h.closed hpage).symm
    | true => rfl

theorem perform_closed (hclo : ¬l.Open c) : l.perform c = none := by
  cases c with
  | removeAllItems =>
    have hpage : l.page = false := by simpa [Open] using hclo
    rw [perform, removeAllItems, hpage]
    rfl
  | addItem newItem keeps | goToItem item keeps | clear | pageClosed => exact absurd trivial hclo

def Fresh (l : BackForwardList α) (c : Call α) : Prop :=
  match c with
  | .addItem (some item) _ => item ∉ l.entries
  | _ => True

/-- The entries are what a call tosses, what the client refuses, and what stays; only a new item is added. -/
structure Splits (l : BackForwardList α) (c : Call α) (stays added : List α) : Prop where
  rest : (l.change c).rest = stays ++ added
  nodup : added.Nodup
  fresh : l.Fresh c → ∀ x ∈ added, x ∉ l.entries
  mem_iff : ∀ x, x ∈ l.entries ↔ x ∈ (l.change c).tossed ∨ x ∈ (l.change c).refused ∨ x ∈ stays
  perm : l.entries.Nodup → l.entries.Perm ((l.change c).tossed ++ ((l.change c).refused ++ stays))

theorem Splits.of_perm {stays added : List α} (hrest : (l.change c).rest = stays ++ added)
    (hnd : added.Nodup) (hfre : l.Fresh c → ∀ x ∈ added, x ∉ l.entries)
    (hperm : l.entries.Perm ((l.change c).tossed ++ ((l.change c).refused ++ stays))) : Splits l c stays added where
  rest := hrest
  nodup := hnd
  fresh := hfre
  mem_iff := fun x => by rw [hperm.mem_iff, mem_append, mem_append]
  perm := fun _ => hperm

theorem Splits.of_none (hc : l.change c = .none l) : Splits l c l.entries [] := by
  refine Splits.of_perm ?_ nodup_nil (fun _ => nofun) ?_
  · rw [hc, append_nil]
    rfl
  · rw [hc]
    exact List.Perm.refl _

theorem exists_splits (h : l.Placed) (c : Call α) : ∃ stays added, Splits l c stays added := by
  cases c with
  | addItem newItem keeps =>
    cases newItem with
    | none => exact ⟨_, _, Splits.of_none rfl⟩
    | some item =>
      by_cases hskip : l.capacity = 0 ∨ l.page = false
      · exact ⟨_, _, Splits.of_none (if_pos hskip)⟩
      · obtain ⟨removedItems, i, hroom, -, hperm⟩ := makeRoom_spec h
        have hcha : l.change (.addItem (some item) keeps) =
            ⟨removedItems, l.replaced keeps, l.kept keeps ++ [item]⟩ := by
          rw [change, if_neg hskip, hroom]
        refine ⟨l.kept keeps, [item], Splits.of_perm ?_ (nodup_singleton _) ?_ ?_⟩
        · rw [hcha]
        · intro hfre x hx
          rw [mem_singleton.mp hx]
          exact hfre
        · rw [hcha]
          refine hperm.trans (List.Perm.append_left _ ?_)
          rw [← kept_append_replaced keeps]
          exact perm_append_comm
  | goToItem item keeps =>
    cases item with
    | none => exact ⟨_, _, Splits.of_none rfl⟩
    | some item =>
      by_cases hskip : l.page = false ∨ item ∉ l.entries
      · exact ⟨_, _, Splits.of_none (if_pos hskip)⟩
      · have hmem : item ∈ l.entries := by
          simpa using (not_or.mp hskip).2
        refine ⟨l.staying item keeps, [], Splits.of_perm ?_ nodup_nil (fun _ => nofun) ?_⟩
        · rw [change, if_neg hskip, append_nil]
        · rw [change, if_neg hskip]
          exact perm_left_append_staying h hmem keeps
  | clear =>
    by_cases hskip : l.page = false ∨ l.entries.length ≤ 1
    · exact ⟨_, _, Splits.of_none (if_pos hskip)⟩
    · have hlt : l.currentIndex < l.entries.length := h.index (h.current.mpr (ne_nil_of_length_pos (by omega)))
      have hcha := change_clear hskip hlt
      refine ⟨[l.entries[l.currentIndex]], [], ?_, nodup_nil, fun _ => nofun, fun x => ?_, fun hnd => ?_⟩
      · rw [hcha]
        rfl
      · rw [hcha]
        by_cases hx : x = l.entries[l.currentIndex]
        · simp [hx]
        · simp [hx]
      · rw [hcha]
        refine (getElem_cons_eraseIdx_perm hlt).symm.trans ?_
        exact (perm_append_singleton _ _).symm.trans (List.Perm.append_right _ (perm_filter_ne_getElem hnd hlt))
  | removeAllItems | pageClosed =>
    exact ⟨[], [], Splits.of_perm rfl nodup_nil (fun _ => nofun) (by simp [change])⟩

/-! ## Navigation -/

structure Steady (l : BackForwardList α) : Prop where
  placed : l.Placed
  nodup : l.entries.Nodup

theorem left_iff (h : l.Steady) (hfre : l.Fresh c) (x : α) :
    x ∈ (l.change c).tossed ++ (l.change c).refused ↔ x ∈ l.entries ∧ x ∉ (l.change c).rest := by
  obtain ⟨stays, added, hs⟩ := exists_splits h.placed c
  have hnd := (hs.perm h.nodup).nodup_iff.mp h.nodup
  rw [← append_assoc] at hnd
  have hdisj := disjoint_of_nodup_append hnd
  rw [hs.rest, hs.mem_iff, mem_append]
  constructor
  · intro hx
    refine ⟨hx.imp_right Or.inl, fun hrest => ?_⟩
    rcases mem_append.mp hrest with hstay | hadd
    · exact hdisj (mem_append.mpr hx) hstay
    · exact hs.fresh hfre x hadd ((hs.mem_iff x).mpr (hx.imp_right Or.inl))
  · rintro ⟨htos | href | hstay, hrest⟩
    · exact Or.inl htos
    · exact Or.inr href
    · exact absurd (mem_append.mpr (Or.inl hstay)) hrest

theorem nodup_rest (h : l.Steady) (hfre : l.Fresh c) : (l.change c).rest.Nodup := by
  obtain ⟨stays, added, hs⟩ := exists_splits h.placed c
  have hnd := (hs.perm h.nodup).nodup_iff.mp h.nodup
  rw [hs.rest, nodup_append']
  refine ⟨(nodup_append'.mp (nodup_append'.mp hnd).2.1).2.1, hs.nodup, fun x hx hadd => ?_⟩
  exact hs.fresh hfre x hadd ((hs.mem_iff x).mpr (Or.inr (Or.inr hx)))

theorem nodup_tossed_append_refused (h : l.Steady) (c : Call α) :
    ((l.change c).tossed ++ (l.change c).refused).Nodup := by
  obtain ⟨stays, added, hs⟩ := exists_splits h.placed c
  have hnd := (hs.perm h.nodup).nodup_iff.mp h.nodup
  rw [← append_assoc] at hnd
  exact (nodup_append'.mp hnd).1

/-- What a call on the open page does to the list: `addItem` puts the new item last and current, and before it
    leaves the back list, less the oldest entry of a full one and the item that is refused; `goToItem` makes its
    target current and keeps the order. -/
def Effect (l l' : BackForwardList α) : Call α → Prop
  | .addItem (some item) keeps =>
    l'.entries = l.kept keeps ++ [item] ∧ l'.hasCurrentIndex = true ∧ l'.currentIndex = (l.kept keeps).length
  | .goToItem (some item) _ =>
    l'.entries.Sublist l.entries ∧
      (item ∈ l.entries → l'.hasCurrentIndex = true ∧ l'.entries[l'.currentIndex]? = some item)
  | _ => True

/-- The items removed are those that left the list, and without a notice nothing changed. -/
def Removes (l l' : BackForwardList α) (n : Notices α) : Prop :=
  match n.didChange with
  | some (_, removedItems) => removedItems.Perm (l.entries.filter (· ∉ l'.entries))
  | none => l'.entries = l.entries

def Navigates (l : BackForwardList α) (c : Call α) : Prop :=
  ∃ l' n, l.perform c = some (l', n) ∧ l.Effect l' c ∧ l.Removes l' n

/-- A new item is not in the list yet, and the page is not closed. -/
def Admissible (l : BackForwardList α) (c : Call α) : Prop := l.Fresh c ∧ c ≠ .pageClosed

theorem perform_effect (h : l.Placed) (hpage : l.page = true) (hcap : l.capacity ≠ 0)
    (hc : l.perform c = some (l', n)) : l.Effect l' c := by
  cases c with
  | addItem newItem keeps =>
    cases newItem with
    | none => trivial
    | some item =>
      rw [perform, addItem_spec h hpage hcap] at hc
      cases hc
      exact ⟨rfl, rfl, rfl⟩
  | goToItem item keeps =>
    cases item with
    | none => trivial
    | some item =>
      by_cases hmem : item ∈ l.entries
      · obtain ⟨i, hgo, hat⟩ := goToItem_spec h hpage hmem keeps
        rw [perform, hgo] at hc
        cases hc
        exact ⟨staying_sublist item keeps, fun _ => ⟨rfl, hat⟩⟩
      · rw [perform, goToItem_ignored (Or.inr hmem)] at hc
        cases hc
        exact ⟨List.Sublist.refl _, fun h => absurd h hmem⟩
  | clear => trivial
  | removeAllItems => trivial
  | pageClosed => trivial

theorem Yields.removes (h : l.Steady) (hc : l.Admissible c) (hy : Yields l c l' n) : l.Removes l' n := by
  rw [Removes]
  split
  · rename_i item removedItems hcha
    have hperm := hy.didChange h.nodup item removedItems hcha
    have hnd := nodup_tossed_append_refused h c
    refine (perm_ext_iff_of_nodup (hperm.nodup_iff.mpr hnd) (h.nodup.filter _)).mpr fun x => ?_
    rw [hperm.mem_iff, left_iff h hc.1, mem_filter, hy.entries, decide_eq_true_iff]
  · rename_i hcha
    exact (hy.silent hcha).resolve_right hc.2

/-- **The list through any navigation**: from an empty one of capacity at least one, with new items that are not
    in the list yet, and whatever the client answers, there is a current item exactly if there are items, the
    list stays within its capacity and without repetition, and each call does to it and tells of it what it
    should. -/
theorem navigation_consistent (capacity : Nat) (hcap : 1 ≤ capacity) (calls : List (Call α))
    (hcalls : EachStep step Admissible (empty capacity) calls) :
    Along step Steady (empty capacity) calls ∧ EachStep step Navigates (empty capacity) calls := by
  have hstep : ∀ (l : BackForwardList α) (c : Call α), (l.Steady ∧ l.page = true ∧ l.capacity ≠ 0) →
      l.Admissible c → l.Navigates c ∧
        ∃ l', l.step c = some l' ∧ l'.Steady ∧ l'.page = true ∧ l'.capacity ≠ 0 := by
    rintro l c ⟨hl, hpage, hne⟩ hc
    have hopen : l.Open c := by
      cases c with
      | removeAllItems => exact hpage
      | _ => trivial
    obtain ⟨l', n, hperf, hy⟩ := perform_spec hl.placed hopen
    refine ⟨⟨l', n, hperf, perform_effect hl.placed hpage hne hperf, hy.removes hl hc⟩, l', ?_, ⟨hy.placed, ?_⟩,
      (hy.page hc.2).trans hpage, ?_⟩
    · rw [step, hperf]
      rfl
    · rw [hy.entries]
      exact nodup_rest hl hc.1
    · rw [hy.capacity]
      exact hne
  have hinit : (empty capacity : BackForwardList α).Steady := ⟨placed_empty capacity, nodup_nil⟩
  have hzero : capacity ≠ 0 := by omega
  obtain ⟨halong, hsteps⟩ := along_and_eachStep hstep calls ⟨hinit, rfl, hzero⟩ hcalls
  exact ⟨halong.mono fun _ h => h.1, hsteps⟩

theorem navigation_consistent_replace :
    Along step Steady (empty 2) [Call.addItem (some 0) true, .addItem (some 1) false] ∧
      EachStep step Navigates (empty 2) [Call.addItem (some 0) true, .addItem (some 1) false] :=
  navigation_consistent 2 (by decide) _
    ⟨⟨not_mem_nil, nofun⟩, fun l' h => by
      obtain rfl := Option.some.inj h
      exact ⟨⟨show 1 ∉ [0] by decide, nofun⟩, fun _ _ => trivial⟩⟩

/-! ## Reports -/

/-- The items reported to the page are those that leave the list in this call, each once. -/
def Reports (l : BackForwardList α) (c : Call α) : Prop :=
  ∃ l' n, l.perform c = some (l', n) ∧ n.removed.Nodup ∧ ∀ x, x ∈ n.removed ↔ x ∈ l.entries ∧ x ∉ l'.entries

/-- The page is there, no entry that is tossed has a copy, and what the client refuses has one. -/
def Announced (l : BackForwardList α) (c : Call α) : Prop :=
  l.Open c ∧ (l.change c).tossed.Nodup ∧ (∀ x ∈ (l.change c).tossed, x ∉ (l.change c).rest) ∧
    ∀ x ∈ (l.change c).refused, x ∈ (l.change c).tossed ∨ x ∈ (l.change c).rest

/-- The page is there, and no item leaves because the client refuses it. -/
def Accepts (l : BackForwardList α) (c : Call α) : Prop := l.Open c ∧ (l.change c).refused = []

theorem reports_iff_announced (h : l.Placed) (c : Call α) : l.Reports c ↔ l.Announced c := by
  by_cases hopen : l.Open c
  · obtain ⟨l', n, hperf, hy⟩ := perform_spec h hopen
    obtain ⟨stays, added, hs⟩ := exists_splits h c
    constructor
    · rintro ⟨l₁, n₁, hperf₁, hnd, hiff⟩
      obtain ⟨rfl, rfl⟩ : l' = l₁ ∧ n = n₁ := by simpa [hperf] using hperf₁
      rw [hy.removed, hy.entries] at hiff
      rw [hy.removed] at hnd
      refine ⟨hopen, hnd, fun x hx => ((hiff x).mp hx).2, fun x hx => ?_⟩
      by_contra hnei
      obtain ⟨htos, hrest⟩ := not_or.mp hnei
      exact htos ((hiff x).mpr ⟨(hs.mem_iff x).mpr (Or.inr (Or.inl hx)), hrest⟩)
    · rintro ⟨-, hnd, hgone, hcopy⟩
      refine ⟨l', n, hperf, hy.removed ▸ hnd, fun x => ?_⟩
      rw [hy.removed, hy.entries]
      refine ⟨fun hx => ⟨(hs.mem_iff x).mpr (Or.inl hx), hgone x hx⟩, ?_⟩
      rintro ⟨hx, hrest⟩
      rcases (hs.mem_iff x).mp hx with htos | href | hstay
      · exact htos
      · exact (hcopy x href).resolve_right hrest
      · exact absurd (hs.rest ▸ mem_append_left added hstay) hrest
  · refine iff_of_false ?_ fun hann => hopen hann.1
    rintro ⟨l', n, hperf, -⟩
    rw [perform_closed hopen] at hperf
    cases hperf

theorem announced_iff_accepts (h : l.Steady) (hfre : l.Fresh c) : l.Announced c ↔ l.Accepts c := by
  have hnd := nodup_append'.mp (nodup_tossed_append_refused h c)
  have hleft := left_iff h hfre
  constructor
  · rintro ⟨hopen, -, -, hcopy⟩
    refine ⟨hopen, eq_nil_iff_forall_not_mem.mpr fun x hx => ?_⟩
    rcases hcopy x hx with htos | hrest
    · exact hnd.2.2 htos hx
    · exact ((hleft x).mp (mem_append_right _ hx)).2 hrest
  · rintro ⟨hopen, hnone⟩
    refine ⟨hopen, hnd.1, fun x hx => ((hleft x).mp (mem_append_left _ hx)).2, ?_⟩
    rw [hnone]
    nofun

theorem yields_of_step (h : l.Placed) (hstep : l.step c = some l') : ∃ n, Yields l c l' n := by
  by_cases hopen : l.Open c
  · obtain ⟨l₁, n, hperf, hy⟩ := perform_spec h hopen
    rw [step, hperf] at hstep
    obtain rfl := Option.some.inj hstep
    exact ⟨n, hy⟩
  · rw [step, perform_closed hopen] at hstep
    cases hstep

/-- **The reports of a run**: each call reports the items that leave the list in it, once each and no other,
    exactly if every call is announced. When no item is added while it is in the list, that is exactly if no
    call drops an item because the client refuses it, and none removes all items of a closed page. -/
theorem reports_iff (capacity : Nat) (calls : List (Call α)) :
    (EachStep step Reports (empty capacity) calls ↔ EachStep step Announced (empty capacity) calls) ∧
    (EachStep step Fresh (empty capacity) calls →
      (EachStep step Reports (empty capacity) calls ↔ EachStep step Accepts (empty capacity) calls)) := by
  have hinit := placed_empty (α := α) capacity
  constructor
  · refine eachStep_congr (fun l c l' hl _ _ hstep => ?_)
      (fun l c hl _ => reports_iff_announced hl c) calls hinit (eachStep_of_forall (fun _ _ => trivial) _ _)
    obtain ⟨n, hy⟩ := yields_of_step hl hstep
    exact hy.placed
  · intro hfresh
    refine eachStep_congr (fun (l : BackForwardList α) c l' (hl : l.Steady) hc _ hstep => ?_)
      (fun l c hl hc => (reports_iff_announced hl.placed c).trans (announced_iff_accepts hl hc)) calls
      ⟨hinit, nodup_nil⟩ hfresh
    obtain ⟨n, hy⟩ := yields_of_step hl.placed hstep
    exact ⟨hy.placed, hy.entries ▸ nodup_rest hl hc⟩

/-- Two items go to the list, and the first is kept. -/
theorem reports_iff_keep : (EachStep step Reports (empty 2) [Call.addItem (some 0) true, .addItem (some 1) true] ↔
      EachStep step Accepts (empty 2) [Call.addItem (some 0) true, .addItem (some 1) true]) :=
  (reports_iff 2 _).2 ⟨not_mem_nil, fun l' h => by
    obtain rfl := Option.some.inj h
    exact ⟨show 1 ∉ [0] by decide, fun _ _ => trivial⟩⟩

/-- An item that the client refuses is gone from the list, and the page has no report of it. -/
theorem refused_item_unreported : (((empty 2).addItem (some 0) true).bind fun r => r.1.addItem (some 1) false).map
        (fun r => (r.1.entries, r.2.removed, r.2.didChange)) = some ([1], [], some (some 1, [0])) ∧
      ¬EachStep step Reports (empty 2) [Call.addItem (some 0) true, .addItem (some 1) false] := by
  refine ⟨by decide +kernel, fun hreports => ?_⟩
  obtain ⟨l', n, hperf, -, hiff⟩ := (hreports.2 ⟨true, true, 0, 2, [0]⟩ rfl).1
  have hreplace : (⟨true, true, 0, 2, [0]⟩ : BackForwardList Nat).perform (.addItem (some 1) false) =
      some (⟨true, true, 0, 2, [1]⟩, ⟨[], some (some 1, [0])⟩) := by
    simp [perform, addItem, makeRoom, tossForward]
  obtain ⟨rfl, rfl⟩ : (⟨true, true, 0, 2, [1]⟩ : BackForwardList Nat) = l' ∧ ⟨[], some (some 1, [0])⟩ = n := by
    simpa [hreplace] using hperf
  exact absurd ((hiff 0).mpr ⟨mem_singleton_self 0, by decide⟩) not_mem_nil

end WebV8.BackForwardList
