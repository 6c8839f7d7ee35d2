import Mathlib

/-! # Arrays that are rearranged in place

An algorithm that sorts in place works on a part of an array. `Cut` gives the part s a list, with what is before and
behind it, so that what is known about the part is said about a list, and a part of a part is a part of an append.
-/

namespace WebV8.Lib

variable {α : Type*}

/-- From index `i` up to index `j`, the elements of the array are those of `blk`. -/
structure Cut (pre blk post : List α) (i j : Nat) (xs : Array α) : Prop where
  toList_eq : xs.toList = pre ++ blk ++ post
  start : i = pre.length
  stop : j = i + blk.length

namespace Cut

variable {pre blk s r post : List α} {x : α} {i j : Nat} {xs : Array α}

theorem left (h : Cut pre (s ++ r) post i j xs) : Cut pre s (r ++ post) i (i + s.length) xs :=
  ⟨by simp [h.toList_eq], h.start, rfl⟩

theorem right (h : Cut pre (s ++ r) post i j xs) : Cut (pre ++ s) r post (i + s.length) j xs :=
  ⟨by simp [h.toList_eq], by simp [h.start], by simp [h.stop, Nat.add_assoc]⟩

theorem join (h : Cut (pre ++ s) r post (i + s.length) j xs) : Cut pre (s ++ r) post i j xs := by
  have hst := h.start
  rw [List.length_append] at hst
  exact ⟨by simp [h.toList_eq], by omega, by simp [h.stop, Nat.add_assoc]⟩

theorem getElem? (h : Cut pre (s ++ x :: r) post i j xs) : xs[i + s.length]? = some x := by
  rw [← Array.getElem?_toList, h.toList_eq, h.start, ← List.length_append,
    show pre ++ (s ++ x :: r) ++ post = pre ++ s ++ x :: (r ++ post) by simp, List.getElem?_append_right le_rfl,
    Nat.sub_self, List.getElem?_cons_zero]

theorem map_getD (h : Cut pre blk post i j xs) (d : α) :
    (List.range' i (j - i)).map (fun k => xs.getD k d) = blk := by
  induction blk generalizing pre i with
  | nil =>
    rw [h.stop, List.length_nil, Nat.add_zero, Nat.sub_self]
    rfl
  | cons x blk ih =>
    have hhead : xs[i]? = some x := h.getElem? (s := [])
    have htail := ih (h.right (s := [x]))
    have hcnt : j - i = j - (i + 1) + 1 := by
      rw [h.stop, List.length_cons]
      omega
    rw [hcnt, List.range'_succ, List.map_cons, Array.getD_eq_getD_getElem?, hhead, Option.getD_some]
    exact congrArg _ htail

/-- An element is exchanged with the first one. -/
theorem swap (h : Cut pre (s ++ x :: r) post i j xs) :
    ∃ u, u.Perm s ∧ Cut pre (x :: (u ++ r)) post i j (xs.swapIfInBounds (i + s.length) i) := by
  obtain rfl : xs = (pre ++ (s ++ x :: r) ++ post).toArray := by rw [← h.toList_eq]
  obtain rfl := h.start
  have hstop := h.stop
  rw [List.length_append] at hstop
  rw [Array.swapIfInBounds_def, dif_pos (by simp), dif_pos (by simp)]
  cases s with
  | nil => exact ⟨[], .rfl, by simp [Array.swap_def], rfl, by simpa using hstop⟩
  | cons y ys =>
    refine ⟨ys ++ [y], List.perm_append_singleton y ys, by simp [Array.swap_def], rfl, ?_⟩
    simp at hstop ⊢
    omega

end Cut

end WebV8.Lib
