import Mathlib

/-! # BloomFilter

A counting Bloom filter: each hash has two slots, which may be one and the same, and each slot an 8-bit counter. A
counter that has reached its maximum stays there.
-/

namespace WebV8

/-- `m_table` -/
abbrev BloomFilter (keyBits : Nat) := Fin (2 ^ keyBits) → UInt8

namespace BloomFilter

variable {keyBits : Nat}

def maximumCount : UInt8 := 255

/-- `hash & keyMask` -/
def firstSlot (hash : UInt32) : Fin (2 ^ keyBits) := ⟨hash.toNat % 2 ^ keyBits, Nat.mod_lt _ (Nat.two_pow_pos keyBits)⟩

/-- `(hash >> 16) & keyMask` -/
def secondSlot (hash : UInt32) : Fin (2 ^ keyBits) :=
  ⟨(hash >>> 16).toNat % 2 ^ keyBits, Nat.mod_lt _ (Nat.two_pow_pos keyBits)⟩

def clear : BloomFilter keyBits := fun _ => 0

section

variable (filter : BloomFilter keyBits)

def increment (slot : Fin (2 ^ keyBits)) : BloomFilter keyBits :=
  if filter slot < maximumCount then Function.update filter slot (filter slot + 1) else filter

def decrement (slot : Fin (2 ^ keyBits)) : BloomFilter keyBits :=
  if filter slot < maximumCount then Function.update filter slot (filter slot - 1) else filter

def add (hash : UInt32) : BloomFilter keyBits :=
  (filter.increment (firstSlot hash)).increment (secondSlot hash)

def remove (hash : UInt32) : BloomFilter keyBits :=
  (filter.decrement (firstSlot hash)).decrement (secondSlot hash)

def mayContain (hash : UInt32) : Bool :=
  filter (firstSlot hash) ≠ 0 && filter (secondSlot hash) ≠ 0

/-! ## Counters -/

/-- A counter shows how often its slot occurs, or is stuck. -/
def Counts (slots : Multiset (Fin (2 ^ keyBits))) : Prop :=
  ∀ slot, filter slot = maximumCount ∨ (filter slot).toNat = slots.count slot

end

variable {filter : BloomFilter keyBits} {slots : Multiset (Fin (2 ^ keyBits))} {hashe : List UInt32}
  {slot : Fin (2 ^ keyBits)} {hash : UInt32}

theorem eq_maximumCount {count : UInt8} (h : ¬count < maximumCount) : count = maximumCount :=
  UInt8.le_antisymm (UInt8.le_iff_toNat_le.mpr (Nat.le_of_lt_succ count.toNat_lt)) (UInt8.not_lt.mp h)

theorem Counts.toNat_eq (h : Counts filter slots) (hfull : filter slot < maximumCount) :
    (filter slot).toNat = slots.count slot := by
  refine (h slot).resolve_left fun hmax => ?_
  rw [hmax] at hfull
  exact absurd hfull (by decide)

theorem Counts.increment (h : Counts filter slots) (slot : Fin (2 ^ keyBits)) :
    Counts (filter.increment slot) (slot ::ₘ slots) := by
  intro other
  rw [BloomFilter.increment]
  by_cases hfull : filter slot < maximumCount
  · rw [if_pos hfull]
    by_cases heq : other = slot
    · subst heq
      have hlt : (filter other).toNat < 255 := UInt8.lt_iff_toNat_lt.mp hfull
      right
      rw [Function.update_self, Multiset.count_cons_self, ← h.toNat_eq hfull, UInt8.toNat_add]
      exact Nat.mod_eq_of_lt (Nat.succ_lt_succ hlt)
    · rw [Function.update_of_ne heq, Multiset.count_cons_of_ne heq]
      exact h other
  · rw [if_neg hfull]
    by_cases heq : other = slot
    · subst heq
      exact Or.inl (eq_maximumCount hfull)
    · rw [Multiset.count_cons_of_ne heq]
      exact h other

theorem Counts.decrement (h : Counts filter (slot ::ₘ slots)) :
    Counts (filter.decrement slot) slots := by
  intro other
  rw [BloomFilter.decrement]
  have hoth := h other
  by_cases hfull : filter slot < maximumCount
  · rw [if_pos hfull]
    by_cases heq : other = slot
    · subst heq
      have hcnt := h.toNat_eq hfull
      rw [Multiset.count_cons_self] at hcnt
      have hone : (1 : UInt8) ≤ filter other := by
        rw [UInt8.le_iff_toNat_le, hcnt]
        exact Nat.le_add_left 1 _
      right
      rw [Function.update_self, UInt8.toNat_sub_of_le _ _ hone, hcnt]
      exact Nat.add_sub_cancel _ _
    · rw [Function.update_of_ne heq]
      rwa [Multiset.count_cons_of_ne heq] at hoth
  · rw [if_neg hfull]
    by_cases heq : other = slot
    · subst heq
      exact Or.inl (eq_maximumCount hfull)
    · rwa [Multiset.count_cons_of_ne heq] at hoth

/-! ## Hashes -/

def slotsOf (hashes : List UInt32) : Multiset (Fin (2 ^ keyBits)) :=
  (hashes.map fun hash => ({firstSlot hash, secondSlot hash} : Multiset (Fin (2 ^ keyBits)))).sum

def Holds (filter : BloomFilter keyBits) (hashes : List UInt32) : Prop := Counts filter (slotsOf hashes)

theorem slotsOf_cons (hash : UInt32) (hashe : List UInt32) :
    (slotsOf (hash :: hashe) : Multiset (Fin (2 ^ keyBits))) =
      firstSlot hash ::ₘ secondSlot hash ::ₘ slotsOf hashe := by
  rw [slotsOf, List.map_cons, List.sum_cons, slotsOf, Multiset.insert_eq_cons, Multiset.cons_add,
    Multiset.singleton_add]

theorem holds_clear : Holds (clear : BloomFilter keyBits) [] := fun _ => Or.inr rfl

theorem Holds.add (h : Holds filter hashe) (hash : UInt32) :
    Holds (filter.add hash) (hash :: hashe) := by
  rw [Holds, slotsOf_cons, Multiset.cons_swap]
  exact (Counts.increment h (firstSlot hash)).increment (secondSlot hash)

theorem Holds.remove (h : Holds filter (hash :: hashe)) :
    Holds (filter.remove hash) hashe := by
  rw [Holds, slotsOf_cons] at h
  exact h.decrement.decrement

theorem Holds.perm {hash' : List UInt32} (h : Holds filter hashe) (hperm : hashe.Perm hash') :
    Holds filter hash' := by
  rw [Holds, slotsOf, ← (hperm.map _).sum_eq]
  exact h

/-- **No false negatives.** -/
theorem Holds.mayContain (h : Holds filter hashe) (hmem : hash ∈ hashe) :
    filter.mayContain hash = true := by
  have hle : ({firstSlot hash, secondSlot hash} : Multiset (Fin (2 ^ keyBits))) ≤ slotsOf hashe :=
    List.single_le_sum (fun _ _ => Multiset.zero_le _) _ (List.mem_map_of_mem hmem)
  have hne : ∀ slot ∈ ({firstSlot hash, secondSlot hash} : Multiset (Fin (2 ^ keyBits))), filter slot ≠ 0 := by
    intro slot hslot hzero
    rcases h slot with hmax | hcnt
    · rw [hzero] at hmax
      exact absurd hmax (by decide)
    · rw [hzero] at hcnt
      have hpos := Multiset.count_pos.mpr (Multiset.mem_of_le hle hslot)
      rw [← hcnt] at hpos
      exact absurd hpos (by decide)
  rw [BloomFilter.mayContain, Bool.and_eq_true, decide_eq_true_iff, decide_eq_true_iff]
  exact ⟨hne _ (Multiset.mem_cons_self _ _), hne _ (Multiset.mem_cons_of_mem (Multiset.mem_singleton_self _))⟩

end BloomFilter

end WebV8
