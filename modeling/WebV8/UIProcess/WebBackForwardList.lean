import WebV8.Lib.Run

/-! # WebBackForwardList

The pages a view has visited, with a current one, up to a capacity. The client may refuse to keep the current
item when another one becomes current. The page is told about changes in two ways: each item that is gone is to
be reported with `backForwardRemovedItem`, so that the web process can forget it, and a change as a whole goes to
`didChangeBackForwardList`, with the items removed in it.
-/

namespace WebV8

open Lib List Option Bool Nat

variable {α : Type}

/-- `page` is false once the page is closed. -/
structure BackForwardList (α : Type) where
  page : Bool
  hasCurrentIndex : Bool
  currentIndex : Nat
  capacity : Nat
  entries : List α

namespace BackForwardList

/-- What a call tells the page: the items given to `backForwardRemovedItem`, and the arguments of
    `didChangeBackForwardList`. -/
structure Notices (α : Type) where
  removed : List α
  didChange : Option (Option α × List α)

def empty (capacity : Nat) : BackForwardList α := ⟨true, false, 0, capacity, []⟩

section

variable (l : BackForwardList α)

def ignore : Option (BackForwardList α × Notices α) := some (l, ⟨[], none⟩)

/-! ## Calls

A call answers `none` where it would read past the end of the entries or call into a closed page. -/

def tossForward (targetSize : Nat) (entries removedItems : List α) : List α × List α :=
  if h : targetSize < entries.length then
    tossForward targetSize entries.dropLast
      (removedItems ++ [entries.getLast (ne_nil_of_length_pos (zero_lt_of_lt h))])
  else (entries, removedItems)
termination_by entries.length
decreasing_by
  rw [length_dropLast]
  omega

/-- The first half of `addItem`: the forward list is tossed, and the first item if the list gets too big. -/
def makeRoom : BackForwardList α × List α :=
  if l.hasCurrentIndex then
    let (entries, removedItems) := tossForward (l.currentIndex + 1) l.entries []
    if entries.length = l.capacity && (l.currentIndex ≠ 0 || l.capacity = 1) then
      let rest := entries.tail
      ({ l with
          entries := rest
          hasCurrentIndex := !rest.isEmpty
          currentIndex := if rest.isEmpty then l.currentIndex else l.currentIndex - 1 },
        removedItems ++ entries.take 1)
    else ({ l with entries }, removedItems)
  else ({ l with entries := [] }, l.entries)

/-- `keeps` is the answer of the client, if it is asked. -/
def addItem (newItem : Option α) (keeps : Bool) :
    Option (BackForwardList α × Notices α) :=
  match newItem with
  | none => l.ignore
  | some item =>
    if l.capacity = 0 || !l.page then l.ignore
    else
      let (l, removedItems) := l.makeRoom
      if !l.hasCurrentIndex then
        some ({ l with currentIndex := 0, hasCurrentIndex := true, entries := l.entries.insertIdx 0 item },
          ⟨removedItems, some (some item, removedItems)⟩)
      else do
        let current ← l.entries[l.currentIndex]?
        if keeps then
          some ({ l with
              currentIndex := l.currentIndex + 1
              entries :=
                if l.currentIndex + 1 ≤ l.entries.length then l.entries.insertIdx (l.currentIndex + 1) item
                else l.entries },
            ⟨removedItems, some (some item, removedItems)⟩)
        else
          -- no `backForwardRemovedItem` for the current item
          some ({ l with entries := l.entries.set l.currentIndex item },
            ⟨removedItems, some (some item, removedItems ++ [current])⟩)

def removeAllItems : Option (BackForwardList α × Notices α) :=
  if !l.page then none
  else some ({ l with entries := [], hasCurrentIndex := false }, ⟨l.entries, some (none, l.entries)⟩)

def pageClosed : Option (BackForwardList α × Notices α) :=
  some ({ l with page := false, entries := [], hasCurrentIndex := false },
    ⟨if l.page then l.entries else [], none⟩)

end

section

variable [DecidableEq α] (l : BackForwardList α)

def goToItem (item : Option α) (keeps : Bool) : Option (BackForwardList α × Notices α) :=
  match item with
  | none => l.ignore
  | some item =>
    if l.entries.isEmpty || !l.page || !l.hasCurrentIndex then l.ignore
    else
      match l.entries.idxOf? item with
      | none => l.ignore
      | some targetIndex => do
        let current ← l.entries[l.currentIndex]?
        if current = item || keeps then some ({ l with currentIndex := targetIndex }, ⟨[], some (none, [])⟩)
        else
          let entries := l.entries.eraseIdx l.currentIndex
          let targetIndex ← entries.idxOf? item
          some ({ l with entries, currentIndex := targetIndex }, ⟨[], some (none, [current])⟩)

def clear : Option (BackForwardList α × Notices α) :=
  if !l.page || l.entries.length ≤ 1 then l.ignore
  else if !l.hasCurrentIndex then
    some ({ l with entries := [], hasCurrentIndex := false }, ⟨l.entries, some (none, l.entries)⟩)
  else do
    let current ← l.entries[l.currentIndex]?
    some ({ l with entries := [current], currentIndex := 0 },
      ⟨l.entries.filter (· ≠ current), some (none, l.entries.eraseIdx l.currentIndex)⟩)

inductive Call (α : Type) where
  | addItem (newItem : Option α) (keeps : Bool)
  | goToItem (item : Option α) (keeps : Bool)
  | clear
  | removeAllItems
  | pageClosed

def perform : Call α → Option (BackForwardList α × Notices α)
  | .addItem newItem keeps => l.addItem newItem keeps
  | .goToItem item keeps => l.goToItem item keeps
  | .clear => l.clear
  | .removeAllItems => l.removeAllItems
  | .pageClosed => l.pageClosed

def step (c : Call α) : Option (BackForwardList α) := (l.perform c).map Prod.fst

end

/-! ## States -/

/-- There is a current item exactly if there are items, and the list is within its capacity. -/
structure Placed (l : BackForwardList α) : Prop where
  current : l.hasCurrentIndex = true ↔ l.entries ≠ []
  index : l.hasCurrentIndex = true → l.currentIndex < l.entries.length
  size : l.entries.length ≤ l.capacity
  closed : l.page = false → l.entries = []

/-- The back list with the current item, without the oldest entry if the list is full. -/
def behind (l : BackForwardList α) : List α :=
  let back := l.entries.take (l.currentIndex + 1)
  if back.length = l.capacity then back.tail else back

/-- What `addItem` leaves before the new item. -/
def kept (l : BackForwardList α) (keeps : Bool) : List α := if keeps then l.behind else l.behind.dropLast

def replaced (l : BackForwardList α) (keeps : Bool) : List α := if keeps then [] else l.behind.getLast?.toList

theorem placed_empty (capacity : Nat) : (empty capacity : BackForwardList α).Placed where
  current := iff_of_false false_ne_true fun h => h rfl
  index := nofun
  size := zero_le _
  closed := fun _ => rfl

theorem Placed.of_lt {capacity i : Nat} {entries : List α} (hi : i < entries.length)
    (hsize : entries.length ≤ capacity) : (⟨true, true, i, capacity, entries⟩ : BackForwardList α).Placed where
  current := iff_of_true rfl (ne_nil_of_length_pos (zero_lt_of_lt hi))
  index := fun _ => hi
  size := hsize
  closed := nofun

theorem Placed.of_nil {page : Bool} {capacity i : Nat} :
    (⟨page, false, i, capacity, []⟩ : BackForwardList α).Placed where
  current := iff_of_false false_ne_true fun h => h rfl
  index := nofun
  size := zero_le _
  closed := fun _ => rfl

theorem tossForward_eq (targetSize : Nat) (entries removedItems : List α) :
    tossForward targetSize entries removedItems =
      (entries.take targetSize, removedItems ++ (entries.drop targetSize).reverse) := by
  fun_induction tossForward targetSize entries removedItems with
  | case1 entries removedItems h ih =>
    have hne : entries ≠ [] := ne_nil_of_length_pos (by omega)
    have hspl : entries = entries.dropLast ++ [entries.getLast hne] := (dropLast_append_getLast hne).symm
    have hlen : targetSize ≤ entries.dropLast.length := by
      rw [length_dropLast]
      omega
    rw [ih]
    conv_rhs => rw [hspl]
    rw [take_append_of_le_length hlen, drop_append_of_le_length hlen, reverse_append]
    simp
  | case2 entries removedItems h =>
    rw [take_of_length_le (by omega), drop_eq_nil_of_le (by omega)]
    simp

variable {l l' : BackForwardList α} {item : α}

theorem makeRoom_spec (h : l.Placed) :
    ∃ removedItems i, l.makeRoom = (⟨l.page, !l.behind.isEmpty, i, l.capacity, l.behind⟩, removedItems) ∧
      (l.behind ≠ [] → i + 1 = l.behind.length) ∧ l.entries.Perm (removedItems ++ l.behind) := by
  rw [makeRoom]
  by_cases hcur : l.hasCurrentIndex = true
  · have hlt := h.index hcur
    have hlen : (l.entries.take (l.currentIndex + 1)).length = l.currentIndex + 1 := by
      rw [length_take]
      omega
    have hperm : l.entries.Perm ((l.entries.drop (l.currentIndex + 1)).reverse ++
        l.entries.take (l.currentIndex + 1)) := by
      conv_lhs => rw [← take_append_drop (l.currentIndex + 1) l.entries]
      exact perm_append_comm.trans (List.Perm.append_right _ (reverse_perm _).symm)
    simp only [hcur, if_true, tossForward_eq, nil_append, hlen]
    by_cases hfull : l.currentIndex + 1 = l.capacity
    · have hbeh : l.behind = (l.entries.take (l.currentIndex + 1)).tail := by
        rw [behind]
        exact if_pos (hlen.trans hfull)
      have hcond : (decide (l.currentIndex + 1 = l.capacity) &&
          (decide (l.currentIndex ≠ 0) || decide (l.capacity = 1))) = true := by
        simp [hfull]
        omega
      rw [if_pos hcond, ← hbeh]
      refine ⟨_, _, rfl, ?_, ?_⟩
      · intro hne
        have hlen' : l.behind.length = l.currentIndex := by
          rw [hbeh, length_tail, hlen]
          rfl
        have hpos := length_pos_of_ne_nil hne
        simp [hne]
        omega
      · rw [append_assoc, hbeh, ← drop_one, take_append_drop]
        exact hperm
    · have hbeh : l.behind = l.entries.take (l.currentIndex + 1) := by
        rw [behind]
        exact if_neg (by rw [hlen]; exact hfull)
      have hne : l.behind ≠ [] := by
        rw [hbeh]
        exact ne_nil_of_length_pos (by rw [hlen]; omega)
      have hcond : ¬(decide (l.currentIndex + 1 = l.capacity) &&
          (decide (l.currentIndex ≠ 0) || decide (l.capacity = 1))) = true := by
        simp [hfull]
      rw [if_neg hcond, ← hbeh]
      have hemp : l.behind.isEmpty = false := by
        simpa [List.isEmpty_iff] using hne
      rw [← hbeh] at hperm hlen
      exact ⟨_, l.currentIndex, by rw [hemp]; rfl, fun _ => hlen.symm, hperm⟩
  · have hnil : l.entries = [] := by
      by_contra hne
      exact hcur (h.current.mpr hne)
    have hbeh : l.behind = [] := by
      simp [behind, hnil]
    have hfal : l.hasCurrentIndex = false := by simpa using hcur
    simp only [hfal, false_eq_true, if_false]
    refine ⟨l.entries, l.currentIndex, ?_, fun hne => absurd hbeh hne, ?_⟩
    · simp [hbeh]
    · simp [hbeh]

theorem length_behind_lt (h : l.Placed) (hcap : l.capacity ≠ 0) : l.behind.length < l.capacity := by
  have hle : (l.entries.take (l.currentIndex + 1)).length ≤ l.capacity := (length_take_le' _ _).trans h.size
  rw [behind]
  split
  · rw [length_tail]
    omega
  · omega

theorem kept_append_replaced (keeps : Bool) : l.kept keeps ++ l.replaced keeps = l.behind := by
  cases keeps with
  | true => exact append_nil _
  | false =>
    rcases eq_nil_or_concat l.behind with hnil | ⟨back, current, hback⟩
    · simp [kept, replaced, hnil]
    · simp [kept, replaced, hback]

/-- Between `makeRoom` and the new item, `addItem` takes away the current item if the client refuses it. -/
theorem addItem_spec (h : l.Placed) (hpage : l.page = true) (hcap : l.capacity ≠ 0) (item : α) (keeps : Bool) :
    l.addItem (some item) keeps = some (⟨true, true, (l.kept keeps).length, l.capacity, l.kept keeps ++ [item]⟩,
        ⟨l.makeRoom.2, some (some item, l.makeRoom.2 ++ l.replaced keeps)⟩) := by
  obtain ⟨removedItems, i, hroom, hi, -⟩ := makeRoom_spec h
  have hgua : ¬((decide (l.capacity = 0) || !l.page) = true) := by simp [hcap, hpage]
  rw [addItem, if_neg hgua, hroom, hpage]
  by_cases hnil : l.behind = []
  · simp [hnil, kept, replaced]
  · have hlen := hi hnil
    obtain ⟨back, current, hback⟩ : ∃ back current, l.behind = back ++ [current] :=
      ⟨_, _, (dropLast_append_getLast hnil).symm⟩
    have hlast : i = back.length := by
      rw [hback, length_append, length_singleton] at hlen
      omega
    cases keeps with
    | true =>
      have hins : (back ++ [current]).insertIdx (back.length + 1) item = back ++ [current, item] := by
        simpa using (insertIdx_length_self : (back ++ [current]).insertIdx (back ++ [current]).length item = _)
      simp [hback, hlast, hins, kept, replaced]
    | false => simp [hback, hlast, kept, replaced]

theorem Placed.hasCurrentIndex (h : l.Placed) (hmem : item ∈ l.entries) : l.hasCurrentIndex = true :=
  h.current.mpr (ne_nil_of_mem hmem)

theorem Placed.exists_current (h : l.Placed) (hmem : item ∈ l.entries) :
    ∃ hi : l.currentIndex < l.entries.length, l.entries[l.currentIndex]? = some l.entries[l.currentIndex] :=
  ⟨h.index (h.hasCurrentIndex hmem), List.getElem?_eq_getElem _⟩

variable [DecidableEq α] {xs : List α}

theorem getElem?_of_idxOf? {a : α} {i : Nat} (h : xs.idxOf? a = some i) : xs[i]? = some a := by
  obtain ⟨hi, heq, -⟩ := List.findIdx?_eq_some_iff_getElem.mp h
  rw [List.getElem?_eq_getElem hi, eq_of_beq heq]

theorem exists_idxOf? {a : α} (h : a ∈ xs) : ∃ i, xs.idxOf? a = some i ∧ xs[i]? = some a := by
  obtain ⟨i, hi⟩ : ∃ i, xs.idxOf? a = some i :=
    ne_none_iff_exists'.mp fun hnone => List.idxOf?_eq_none_iff.mp hnone h
  exact ⟨i, hi, getElem?_of_idxOf? hi⟩

/-- The current item, if `goToItem` takes it away. -/
def left (l : BackForwardList α) (item : α) (keeps : Bool) : List α :=
  if keeps then [] else (l.entries[l.currentIndex]?.filter (· ≠ item)).toList

/-- What `goToItem` leaves. -/
def staying (l : BackForwardList α) (item : α) (keeps : Bool) : List α :=
  if l.left item keeps = [] then l.entries else l.entries.eraseIdx l.currentIndex

theorem goToItem_ignored (h : l.page = false ∨ item ∉ l.entries) (keeps : Bool) :
    l.goToItem (some item) keeps = l.ignore := by
  rw [goToItem]
  split
  · rfl
  · rename_i hgua
    have hmem : item ∉ l.entries := by
      rcases h with hpage | hmem
      · simp [hpage] at hgua
      · exact hmem
    rw [List.idxOf?_eq_none_iff.mpr hmem]

theorem goToItem_spec (h : l.Placed) (hpage : l.page = true) (hmem : item ∈ l.entries) (keeps : Bool) :
    ∃ i, l.goToItem (some item) keeps =
        some (⟨true, true, i, l.capacity, l.staying item keeps⟩, ⟨[], some (none, l.left item keeps)⟩) ∧
      (l.staying item keeps)[i]? = some item := by
  have hcur := h.hasCurrentIndex hmem
  obtain ⟨hlt, hget⟩ := h.exists_current hmem
  obtain ⟨i, hi, hat⟩ := exists_idxOf? hmem
  have hgua : ¬((l.entries.isEmpty || !l.page || !l.hasCurrentIndex) = true) := by
    simp [hpage, hcur, ne_nil_of_mem hmem]
  rw [goToItem, if_neg hgua, hi]
  simp only [hget, bind_eq_bind, bind_some, hpage, hcur]
  by_cases hkeep : (decide (l.entries[l.currentIndex] = item) || keeps) = true
  · have hleft : l.left item keeps = [] := by
      rw [left, hget]
      rcases or_eq_true _ _ ▸ hkeep with heq | rfl
      · simp [of_decide_eq_true heq]
      · rfl
    rw [if_pos hkeep, staying, if_pos hleft, hleft]
    exact ⟨i, rfl, hat⟩
  · obtain ⟨hne, rfl⟩ : l.entries[l.currentIndex] ≠ item ∧ keeps = false := by
      simpa using hkeep
    have hleft : l.left item false = [l.entries[l.currentIndex]] := by
      simp [left, hget, hne]
    have hsti : item ∈ l.entries.eraseIdx l.currentIndex := by
      have hperm := (getElem_cons_eraseIdx_perm hlt).mem_iff.mpr hmem
      exact (mem_cons.mp hperm).resolve_left (Ne.symm hne)
    obtain ⟨j, hj, hat'⟩ := exists_idxOf? hsti
    rw [if_neg hkeep, staying, if_neg (by rw [hleft]; exact cons_ne_nil _ _), hleft, hj]
    exact ⟨j, rfl, hat'⟩

theorem perm_left_append_staying (h : l.Placed) (hmem : item ∈ l.entries) (keeps : Bool) :
    l.entries.Perm (l.left item keeps ++ l.staying item keeps) := by
  obtain ⟨hlt, hget⟩ := h.exists_current hmem
  by_cases hleft : l.left item keeps = []
  · rw [staying, if_pos hleft, hleft]
    exact List.Perm.refl _
  · have hone : l.left item keeps = [l.entries[l.currentIndex]] := by
      revert hleft
      rw [left, hget]
      cases keeps with
      | true => exact fun hne => absurd rfl hne
      | false =>
        by_cases heq : l.entries[l.currentIndex] = item
        · simp [heq]
        · simp [heq]
    rw [staying, if_neg hleft, hone]
    exact (getElem_cons_eraseIdx_perm hlt).symm

theorem staying_sublist (item : α) (keeps : Bool) : (l.staying item keeps).Sublist l.entries := by
  rw [staying]
  split
  · exact List.Sublist.refl _
  · exact eraseIdx_sublist _ _

theorem clear_ignored (h : l.page = false ∨ l.entries.length ≤ 1) : l.clear = l.ignore := by
  rw [clear, if_pos (by simpa using h)]

theorem clear_spec (h : l.Placed) (hpage : l.page = true) (hlen : 1 < l.entries.length) :
    ∃ hlt : l.currentIndex < l.entries.length, l.clear =
      some (⟨true, true, 0, l.capacity, [l.entries[l.currentIndex]]⟩,
        ⟨l.entries.filter (· ≠ l.entries[l.currentIndex]), some (none, l.entries.eraseIdx l.currentIndex)⟩) := by
  have hcur : l.hasCurrentIndex = true := h.current.mpr (ne_nil_of_length_pos (by omega))
  have hlt := h.index hcur
  have hgua : ¬((!l.page || decide (l.entries.length ≤ 1)) = true) := by
    simp [hpage]
    omega
  refine ⟨hlt, ?_⟩
  rw [clear, if_neg hgua, List.getElem?_eq_getElem hlt]
  simp [hcur, hpage]

end BackForwardList

end WebV8
