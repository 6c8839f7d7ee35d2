import Mathlib

/-!
# Memory in separate cells

A memory is a function from addresses to contents. `Cells m mem S` says that `mem` has the cells of
the multiset `S`, at addresses all different, and is `m` everywhere else. The cells of a data
structure are added up with `+`, so that the parts of a sum are at different addresses without a word
about it: writing to one cell leaves the others, and what is outside of all of them, as they are.
-/

namespace WebV8.Lib

open Multiset

variable {ι β : Type*}

/-- The memory has the cells of `S`, and outside of them it is `m`. -/
structure Cells (m mem : ι → β) (S : Multiset (ι × β)) : Prop where
  nodup : (S.map Prod.fst).Nodup
  holds : ∀ e ∈ S, mem e.1 = e.2
  outside : ∀ a, a ∉ S.map Prod.fst → mem a = m a

namespace Cells

variable {m mem : ι → β} {S : Multiset (ι × β)} {x : ι} {b : β}

theorem empty (mem : ι → β) : Cells mem mem 0 :=
  ⟨nodup_zero, nofun, fun _ _ => rfl⟩

theorem read (h : Cells m mem ({(x, b)} + S)) : mem x = b :=
  h.holds (x, b) (by simp)

theorem notMem (h : Cells m mem ({(x, b)} + S)) : x ∉ S.map Prod.fst := by
  have hnod := h.nodup
  rw [singleton_add, map_cons, nodup_cons] at hnod
  exact hnod.1

theorem disjoint {S' : Multiset (ι × β)} {a : ι} (h : Cells m mem (S + S'))
    (ha : a ∈ S.map Prod.fst) : a ∉ S'.map Prod.fst := by
  have hnod := h.nodup
  rw [map_add, nodup_add] at hnod
  exact fun ha' => disjoint_left.mp hnod.2.2 ha ha'

theorem take (h : Cells m mem S) (hx : x ∉ S.map Prod.fst) : Cells m mem ({(x, mem x)} + S) := by
  refine ⟨?_, ?_, ?_⟩
  · rw [singleton_add, map_cons, nodup_cons]
    exact ⟨hx, h.nodup⟩
  · intro e he
    rcases mem_add.mp he with he | he
    · obtain rfl := mem_singleton.mp he
      rfl
    · exact h.holds e he
  · intro a ha
    refine h.outside a fun hmem => ha ?_
    rw [map_add]
    exact mem_add.mpr (.inr hmem)

theorem second {S₁ S₂ : Multiset (ι × β)} (h : Cells m mem (S₁ + (S₂ + S))) : Cells m mem (S₂ + (S₁ + S)) :=
  add_left_comm S₁ S₂ S ▸ h

theorem third {S₁ S₂ S₃ : Multiset (ι × β)} (h : Cells m mem (S₁ + (S₂ + (S₃ + S)))) :
    Cells m mem (S₃ + (S₁ + (S₂ + S))) := by
  rw [add_left_comm S₂, add_left_comm S₁] at h
  exact h

variable [DecidableEq ι]

theorem write (h : Cells m mem ({(x, b)} + S)) (b' : β) : Cells m (Function.update mem x b') ({(x, b')} + S) := by
  have hx := h.notMem
  refine ⟨?_, ?_, ?_⟩
  · simpa using h.nodup
  · intro e he
    rcases mem_add.mp he with he | he
    · obtain rfl := mem_singleton.mp he
      exact Function.update_self ..
    · have hne : e.1 ≠ x := fun heq => hx (heq ▸ mem_map_of_mem _ he)
      rw [Function.update_of_ne hne]
      exact h.holds e (mem_add.mpr (.inr he))
  · intro a ha
    have hne : a ≠ x := fun heq => ha (by simp [heq])
    rw [Function.update_of_ne hne]
    exact h.outside a (by simpa using ha)

theorem leave (h : Cells m mem ({(x, b)} + S)) : Cells (Function.update m x b) mem S := by
  refine ⟨?_, fun e he => h.holds e (mem_add.mpr (.inr he)), ?_⟩
  · have hnod := h.nodup
    rw [singleton_add, map_cons, nodup_cons] at hnod
    exact hnod.2
  · intro a ha
    by_cases hax : a = x
    · rw [hax, Function.update_self]
      exact h.read
    · rw [Function.update_of_ne hax]
      refine h.outside a ?_
      rw [map_add, mem_add]
      rintro (hmem | hmem)
      · exact hax (by simpa using hmem)
      · exact ha hmem

end Cells

end WebV8.Lib
