import Mathlib

/-!
# Probe sequences of open addressing

A table of `size` slots is searched along the slots `start`, `start + step`, `start + 2 * step`, …,
taken modulo the size. When the step is coprime to the size the first `size` of them are all the
slots (`exists_slot_eq`), so a search for a slot with some property that some slot has stops, and
stops at a first one (`exists_first_slot`).

A slot is *reachable* when every slot before it on the sequence is occupied. Occupying more slots
keeps every slot reachable that was: the whole reason why open addressing leaves a mark in place of
an entry it deletes.
-/

namespace WebV8.Lib

/-- The slot that a search looks at after `n` others. -/
def slot (start step size n : Nat) : Nat := (start + n * step) % size

theorem slot_lt {size : Nat} (hsize : 0 < size) (start step n : Nat) : slot start step size n < size :=
  Nat.mod_lt _ hsize

theorem slot_zero (start step size : Nat) : slot start step size 0 = start % size := by
  rw [slot, Nat.zero_mul, Nat.add_zero]

theorem slot_succ (start step size n : Nat) :
    slot start step size (n + 1) = (slot start step size n + step) % size := by
  rw [slot, slot, Nat.mod_add_mod, Nat.succ_mul, Nat.add_assoc]

section Coprime

variable (start : Nat) {step size : Nat}

theorem slot_injOn (hc : Nat.Coprime step size) : Set.InjOn (slot start step size) (Finset.range size) := by
  intro a ha b hb hab
  have ha' : a < size := by simpa using ha
  have hb' : b < size := by simpa using hb
  have hmod : a * step ≡ b * step [MOD size] := Nat.ModEq.add_left_cancel' start hab
  have hcan : a ≡ b [MOD size] := Nat.ModEq.cancel_right_of_coprime (by rwa [Nat.coprime_comm] at hc) hmod
  rwa [Nat.ModEq, Nat.mod_eq_of_lt ha', Nat.mod_eq_of_lt hb'] at hcan

theorem exists_slot_eq (hc : Nat.Coprime step size) {j : Nat} (hj : j < size) :
    ∃ n < size, slot start step size n = j := by
  have hsize : 0 < size := Nat.zero_lt_of_lt hj
  have hmaps : Set.MapsTo (slot start step size) (Finset.range size) (Finset.range size) := by
    intro n _
    simpa using slot_lt hsize start step n
  have hsurj := Finset.surjOn_of_injOn_of_card_le (slot start step size) hmaps (slot_injOn start hc) le_rfl
  have hmem : j ∈ ((Finset.range size : Finset Nat) : Set Nat) := by simpa using hj
  obtain ⟨n, hn, heq⟩ := hsurj hmem
  exact ⟨n, by simpa using hn, heq⟩

/-- **A search ends**: if some slot has a property, the sequence meets a first one that has it, and
    within `size` slots. -/
theorem exists_first_slot (hc : Nat.Coprime step size) {p : Nat → Prop} {j : Nat} (hj : j < size) (hp : p j) :
    ∃ n < size, p (slot start step size n) ∧ ∀ n' < n, ¬ p (slot start step size n') := by
  classical
  obtain ⟨m, hm, rfl⟩ := exists_slot_eq start hc hj
  have hex : ∃ n, p (slot start step size n) := ⟨m, hp⟩
  refine ⟨Nat.find hex, lt_of_le_of_lt (Nat.find_min' hex hp) hm, Nat.find_spec hex, ?_⟩
  intro n' hn'
  exact Nat.find_min hex hn'

end Coprime

/-- Every slot before `p` on the sequence is occupied. -/
def Reachable (occupied : Nat → Prop) (start step size p : Nat) : Prop :=
  ∃ n, slot start step size n = p ∧ ∀ n' < n, occupied (slot start step size n')

theorem Reachable.mono {occ occ' : Nat → Prop} {start step size p : Nat}
    (h : Reachable occ start step size p) (hocc : ∀ q, occ q → occ' q) : Reachable occ' start step size p := by
  obtain ⟨n, hn, hbef⟩ := h
  exact ⟨n, hn, fun n' hn' => hocc _ (hbef n' hn')⟩

theorem coprime_two_pow {step : Nat} (hodd : step % 2 = 1) (m : Nat) : Nat.Coprime step (2 ^ m) := by
  apply Nat.Coprime.pow_right
  rw [Nat.coprime_two_right]
  exact Nat.odd_iff.mpr hodd

end WebV8.Lib
