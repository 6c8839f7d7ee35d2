import Mathlib

/-! # Lists in blocks of one width

A long list is kept as a front part and blocks of one width, of which the last may be filled only in part. The
rest of the last block is slack, and all positions behind the front are found by a division.
-/

namespace WebV8.Lib

open List

variable {α : Type*} {w : Nat} {bs : List (List α)} {xs : List α}

/-- Cut a list into blocks, the last of which is filled up. -/
def toBlocks (w : Nat) (pad : α) (xs : List α) : List (List α) :=
  if _h : w < xs.length ∧ 0 < w then xs.take w :: toBlocks w pad (xs.drop w)
  else [xs ++ List.replicate (w - xs.length) pad]
termination_by xs.length
decreasing_by
  rw [length_drop]
  omega

theorem length_of_mem_toBlocks {pad : α} (hw : 0 < w) :
    ∀ b ∈ toBlocks w pad xs, b.length = w := by
  fun_induction toBlocks w pad xs with
  | case1 xs h ih =>
    refine forall_mem_cons.mpr ⟨?_, ih⟩
    rw [length_take]
    omega
  | case2 xs h =>
    refine forall_mem_singleton.mpr ?_
    rw [length_append, length_replicate]
    omega

theorem exists_flatten_toBlocks (pad : α) (hw : 0 < w) (hxs : xs ≠ []) :
    ∃ slack, (toBlocks w pad xs).flatten = xs ++ slack ∧ slack.length < w := by
  fun_induction toBlocks w pad xs with
  | case1 xs h ih =>
    have hrest : xs.drop w ≠ [] := by
      rw [Ne, drop_eq_nil_iff]
      omega
    obtain ⟨slack, hsla, hlt⟩ := ih hrest
    refine ⟨slack, ?_, hlt⟩
    rw [flatten_cons, hsla, ← append_assoc, take_append_drop]
  | case2 xs h =>
    have hpos := length_pos_of_ne_nil hxs
    refine ⟨List.replicate (w - xs.length) pad, by simp, ?_⟩
    rw [length_replicate]
    omega

def Wide (w : Nat) (bs : List (List α)) : Prop := ∀ b ∈ bs, b.length = w

theorem Wide.length_flatten (h : Wide w bs) : bs.flatten.length = bs.length * w := by
  induction bs with
  | nil => simp
  | cons b bs ih =>
    obtain ⟨hb, hbs⟩ := forall_mem_cons.mp h
    rw [flatten_cons, length_append, hb, ih hbs, length_cons, Nat.add_mul, Nat.one_mul, Nat.add_comm]

theorem Wide.append {bs' : List (List α)} (h : Wide w bs) (h' : Wide w bs') : Wide w (bs ++ bs') :=
  forall_mem_append.mpr ⟨h, h'⟩

/-- From a place in the `i`-th block on, there is the rest of that block, and the blocks behind it. -/
theorem Wide.drop_flatten (h : Wide w bs) {i o : Nat} {b : List α}
    (hi : bs[i]? = some b) (ho : o ≤ w) : bs.flatten.drop (i * w + o) = b.drop o ++ (bs.drop (i + 1)).flatten := by
  induction bs generalizing i with
  | nil => simp at hi
  | cons b' bs ih =>
    obtain ⟨hb', hbs⟩ := forall_mem_cons.mp h
    cases i with
    | zero =>
      obtain rfl : b' = b := by simpa using hi
      rw [Nat.zero_mul, Nat.zero_add, flatten_cons, drop_append_of_le_length (by omega)]
      rfl
    | succ i =>
      have hsum : (i + 1) * w + o = b'.length + (i * w + o) := by
        rw [hb', Nat.add_mul, Nat.one_mul]
        omega
      rw [flatten_cons, hsum, drop_length_add_append]
      exact ih hbs (by simpa using hi)

end WebV8.Lib
