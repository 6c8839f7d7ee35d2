import Mathlib

/-! # Ordered maps kept in slots

An ordered map is a list of pairs, in the order in which their keys came. It is kept in an array of slots: a
new pair goes to the end, a slot is emptied when its pair is removed, and the empty slots are squeezed out
from time to time. `live` reads the map off the slots, and each operation on the slots is an operation on the
map. The hypothesis throughout is that a key is held by one slot.
-/

namespace WebV8.Lib

open List

variable {K V : Type*}

/-! ## Ordered maps -/

section OrderedMap

variable [DecidableEq K]

/-- A new key goes to the end, an old one keeps its place. -/
def OrderedMap.insert (a : List (K × V)) (k : K) (v : V) : List (K × V) :=
  if (a.lookup k).isSome then a.map fun p => if p.1 = k then (k, v) else p else a ++ [(k, v)]

def OrderedMap.erase (a : List (K × V)) (k : K) : List (K × V) := a.filter fun p => p.1 ≠ k

end OrderedMap

/-! ## Slots -/

abbrev live (l : List (Option (K × V))) : List (K × V) := l.reduceOption

/-- The slot `i` holds the key. -/
def HoldsAt (l : List (Option (K × V))) (i : Nat) (k : K) : Prop := ∃ v, l[i]? = some (some (k, v))

variable {l : List (Option (K × V))} {i : Nat} {k : K} {p : K × V}

theorem HoldsAt.lt_length (h : HoldsAt l i k) : i < l.length := by
  obtain ⟨v, hv⟩ := h
  exact (List.getElem?_eq_some_iff.mp hv).1

def KeysDistinct (l : List (Option (K × V))) : Prop :=
  ∀ i j k, HoldsAt l i k → HoldsAt l j k → i = j

theorem not_holdsAt_iff : (∀ i, ¬HoldsAt l i k) ↔ ∀ p ∈ live l, p.1 ≠ k := by
  constructor
  · rintro h ⟨k', v⟩ hp rfl
    obtain ⟨i, hi⟩ := mem_iff_getElem?.mp (reduceOption_mem_iff.mp hp)
    exact h i ⟨v, hi⟩
  · rintro h i ⟨v, hi⟩
    exact h (k, v) (reduceOption_mem_iff.mpr (mem_of_getElem? hi)) rfl

theorem exists_split (h : l[i]? = some (some p)) :
    ∃ before after, l = before ++ some p :: after ∧ before.length = i := by
  obtain ⟨hi, hget⟩ := List.getElem?_eq_some_iff.mp h
  refine ⟨l.take i, l.drop (i + 1), ?_, ?_⟩
  · rw [← hget, ← drop_eq_getElem_cons hi, take_append_drop]
  · rw [length_take]
    omega

theorem live_append_cons (before after : List (Option (K × V))) (p : K × V) :
    live (before ++ some p :: after) = live before ++ p :: live after := by
  rw [live, reduceOption_append, reduceOption_cons_of_some]

theorem set_append_cons {α : Type*} (before after : List α) (a b : α) :
    (before ++ a :: after).set before.length b = before ++ b :: after := by
  rw [set_append_right _ _ le_rfl, Nat.sub_self, set_cons_zero]

theorem KeysDistinct.split {before after : List (Option (K × V))} {v : V}
    (h : KeysDistinct (before ++ some (k, v) :: after)) :
    (∀ p ∈ live before, p.1 ≠ k) ∧ ∀ p ∈ live after, p.1 ≠ k := by
  have hself : HoldsAt (before ++ some (k, v) :: after) before.length k := ⟨v, by simp⟩
  simp only [← not_holdsAt_iff]
  constructor
  · rintro i ⟨w, hw⟩
    have hlt := (List.getElem?_eq_some_iff.mp hw).1
    have := h i _ k ⟨w, by rwa [List.getElem?_append_left hlt]⟩ hself
    omega
  · rintro i ⟨w, hw⟩
    have := h (before.length + (i + 1)) _ k ⟨w, by rwa [List.getElem?_append_right (by omega), Nat.add_sub_cancel_left]⟩
      hself
    omega

section

variable [DecidableEq K] {l : List (Option (K × V))} {k : K} {v : V} {i : Nat}

theorem lookup_eq_none {a : List (K × V)} (h : ∀ p ∈ a, p.1 ≠ k) : a.lookup k = none := by
  rw [lookup_eq_none_iff]
  intro p hp
  simpa using (h p hp).symm

theorem lookup_live (hd : KeysDistinct l) (h : l[i]? = some (some (k, v))) : (live l).lookup k = some v := by
  obtain ⟨before, after, rfl, -⟩ := exists_split h
  rw [live_append_cons, lookup_append, lookup_eq_none hd.split.1, Option.none_or, lookup_cons_self]

theorem live_set_none (hd : KeysDistinct l) (h : l[i]? = some (some (k, v))) :
    live (l.set i none) = OrderedMap.erase (live l) k := by
  obtain ⟨before, after, rfl, rfl⟩ := exists_split h
  have hkeep : ∀ {a : List (K × V)}, (∀ p ∈ a, p.1 ≠ k) → a.filter (fun p => p.1 ≠ k) = a :=
    fun ha => filter_eq_self.mpr fun p hp => by simpa using ha p hp
  rw [set_append_cons, live_append_cons, OrderedMap.erase, filter_append, filter_cons_of_neg (by simp),
    hkeep hd.split.1, hkeep hd.split.2, live, reduceOption_append, reduceOption_cons_of_none]

omit [DecidableEq K] in
theorem length_live_set_none (h : l[i]? = some (some p)) :
    (live (l.set i none)).length + 1 = (live l).length := by
  obtain ⟨before, after, rfl, rfl⟩ := exists_split h
  rw [set_append_cons, live_append_cons, live, reduceOption_append, reduceOption_cons_of_none,
    length_append, length_append, length_cons, Nat.add_assoc]

theorem live_set_some (hd : KeysDistinct l) (h : l[i]? = some (some (k, v))) (v' : V) :
    live (l.set i (some (k, v'))) = OrderedMap.insert (live l) k v' := by
  rw [OrderedMap.insert, if_pos (by rw [lookup_live hd h]; rfl)]
  obtain ⟨before, after, rfl, rfl⟩ := exists_split h
  have hkeep : ∀ {a : List (K × V)}, (∀ p ∈ a, p.1 ≠ k) → a.map (fun p => if p.1 = k then (k, v') else p) = a :=
    fun ha => (map_congr_left fun p hp => if_neg (ha p hp)).trans (map_id' _)
  rw [set_append_cons, live_append_cons, live_append_cons, map_append, map_cons, hkeep hd.split.1,
    hkeep hd.split.2, if_pos rfl]

theorem live_concat (h : ∀ i, ¬HoldsAt l i k) (v : V) :
    live (l ++ [some (k, v)]) = OrderedMap.insert (live l) k v := by
  rw [OrderedMap.insert, if_neg (by rw [lookup_eq_none (not_holdsAt_iff.mp h)]; simp), live, reduceOption_append]
  rfl

end

/-! ## Squeezing out the empty slots -/

/-- The number of slots before `i` that are not empty, and so the place of `i` once the others are gone. -/
def rank (l : List (Option (K × V))) (i : Nat) : Nat := (live (l.take i)).length

theorem rank_eq_iff (hi : i ≤ l.length) : rank l i = i ↔ none ∉ l.take i := by
  have hlen : (l.take i).length = i := by
    rw [length_take]
    omega
  rw [rank, live]
  constructor
  · intro h hmem
    have := reduceOption_length_lt_iff (l := l.take i) |>.mpr hmem
    omega
  · intro h
    have := reduceOption_length_eq_iff (l := l.take i) |>.mpr (fun x hx => by
      cases x with
      | none => exact absurd hx h
      | some p => rfl)
    omega

theorem getElem?_live (h : l[i]? = some (some p)) : (live l)[rank l i]? = some p := by
  obtain ⟨before, after, rfl, rfl⟩ := exists_split h
  rw [live_append_cons, rank, take_left' rfl, List.getElem?_append_right le_rfl, Nat.sub_self]
  rfl

theorem exists_rank_eq {j : Nat} (h : (live l)[j]? = some p) :
    ∃ i, l[i]? = some (some p) ∧ rank l i = j := by
  induction l generalizing j with
  | nil => simp at h
  | cons x l ih =>
    cases x with
    | none =>
      obtain ⟨i, hi, hrank⟩ := ih (by simpa using h)
      exact ⟨i + 1, hi, by simpa [rank] using hrank⟩
    | some q =>
      rw [live, reduceOption_cons_of_some] at h
      cases j with
      | zero =>
        simp only [List.getElem?_cons_zero, Option.some.injEq] at h
        exact ⟨0, by rw [h]; rfl, rfl⟩
      | succ j =>
        obtain ⟨i, hi, hrank⟩ := ih (by simpa using h)
        exact ⟨i + 1, hi, by simpa [rank] using hrank⟩

theorem holdsAt_map_some_live {j : Nat} : HoldsAt ((live l).map some) j k ↔ ∃ i, HoldsAt l i k ∧ rank l i = j := by
  constructor
  · rintro ⟨v, hv⟩
    rw [List.getElem?_map, Option.map_eq_some_iff] at hv
    obtain ⟨p, hp, hpv⟩ := hv
    cases hpv
    obtain ⟨i, hi, hrank⟩ := exists_rank_eq hp
    exact ⟨i, ⟨v, hi⟩, hrank⟩
  · rintro ⟨i, ⟨v, hv⟩, rfl⟩
    refine ⟨v, ?_⟩
    rw [List.getElem?_map, getElem?_live hv]
    rfl

theorem live_map_some (a : List (K × V)) : live (a.map some) = a := by
  rw [live, List.reduceOption, filterMap_map]
  exact filterMap_some

end WebV8.Lib
