import WebV8.Graphics.RegionRows

/-!
# `shapeOperation` merges step functions pointwise

`shapeOperation` is one algorithm for three operations. What an operation's constants have to do
with the set operation it is meant to compute is said once, in `Denotes`: toggling the two flag
bits crosses the operation's code exactly where the Boolean function of the two bits changes, and
what is left of one operand is kept exactly when the function is that operand once the other one
is over. Everything else is proved for any operation that denotes a function:

* the segment loop (`mergeRow`) describes, pixel by pixel, the function of its two rows;
* the span loop (`mergeSpans`) builds the canonical rows of the pointwise merge.
-/

namespace WebV8

open Lib Shape List

/-! ## What the constants of an operation mean -/

/-- The flag of the segment loop: bit 0 is set inside the first operand, bit 1 in the second. -/
def flagOf (a b : Bool) : Nat := (if a then 1 else 0) + (if b then 2 else 0)

/-- The constants of `op` describe the Boolean function `f` of being inside either operand. -/
structure Denotes (op : Operation) (f : Bool → Bool → Bool) : Prop where
  crosses : ∀ a b a' b', (a, b) ≠ (a', b') →
    ((flagOf a' b' = op.opCode ∨ flagOf a b = op.opCode) ↔ (f a' b' ^^ f a b) = true)
  remaining1 : ∀ a, f a false = (op.shouldAddRemainingSegmentsFromSpan1 && a)
  remaining2 : ∀ b, f false b = (op.shouldAddRemainingSegmentsFromSpan2 && b)
  spans1 : op.shouldAddRemainingSpansFromShape1 = op.shouldAddRemainingSegmentsFromSpan1
  spans2 : op.shouldAddRemainingSpansFromShape2 = op.shouldAddRemainingSegmentsFromSpan2

theorem denotes_union : Denotes UnionOperation (fun a b => a || b) := by
  refine ⟨by decide, by decide, by decide, rfl, rfl⟩

theorem denotes_intersect : Denotes IntersectOperation (fun a b => a && b) := by
  refine ⟨by decide, by decide, by decide, rfl, rfl⟩

theorem denotes_subtract : Denotes SubtractOperation (fun a b => a && !b) := by
  refine ⟨by decide, by decide, by decide, rfl, rfl⟩

theorem flagOf_xor_one (a b : Bool) : flagOf a b ^^^ 1 = flagOf (!a) b := by
  cases a <;> cases b <;> rfl

theorem flagOf_xor_two (a b : Bool) : flagOf a b ^^^ 2 = flagOf a (!b) := by
  cases a <;> cases b <;> rfl

/-! ## The segment loop -/

variable {op : Operation} {f : Bool → Bool → Bool}

/-- What the segment loop produces from the segments that are left when the flag has the bits `a`
    and `b`: the places where the value of `f` changes from now on. -/
structure MergeSpec (f : Bool → Bool → Bool) (a b : Bool) (s1 s2 out : List Int) : Prop where
  points : ∀ x, inside out x = (f (a ^^ inside s1 x) (b ^^ inside s2 x) ^^ f a b)
  sorted : out.Pairwise (· < ·)
  mem : ∀ x ∈ out, x ∈ s1 ∨ x ∈ s2
  parity : decide (out.length % 2 = 1) = f a b

/-- One operand moves past the edge `x`: either `x` was its next edge, and its bit toggles, or
    nothing happens to it. Afterwards all its edges lie after `x`. -/
def Passes (x : Int) (s : List Int) (a : Bool) (s' : List Int) (a' : Bool) : Prop :=
  ((s = x :: s' ∧ a' = !a) ∨ (s = s' ∧ a' = a)) ∧ ∀ c ∈ s', x < c

variable {x t y : Int} {s s' s1 s2 c c' c1 c2 segs : List Int} {a a' : Bool}
    {rows rows' rows1 rows2 : List Row}

theorem Passes.toggled (h : Passes x s a s' a') (ht : x ≤ t) : (a ^^ inside s t) = (a' ^^ inside s' t) := by
  obtain ⟨⟨rfl, rfl⟩ | ⟨rfl, rfl⟩, -⟩ := h
  · rw [inside_cons, decide_eq_true ht]
    cases a <;> cases inside s' t <;> rfl
  · rfl

theorem Passes.before (h : Passes x s a s' a') (ht : t < x) : inside s t = false ∧ inside s' t = false := by
  obtain ⟨hs, hlt⟩ := h
  have hs' : inside s' t = false := inside_of_lt fun c hc => ht.trans (hlt c hc)
  refine ⟨?_, hs'⟩
  obtain ⟨rfl, -⟩ | ⟨rfl, -⟩ := hs
  · rw [inside_cons, hs', decide_eq_false (not_le.mpr ht)]; rfl
  · exact hs'

theorem Passes.mem (h : Passes x s a s' a') {c : Int} (hc : c ∈ s') : c ∈ s := by
  obtain ⟨⟨rfl, -⟩ | ⟨rfl, -⟩, -⟩ := h
  · exact mem_cons_of_mem _ hc
  · exact hc

theorem odd_length_cons (x : Int) (s : List Int) :
    decide ((x :: s).length % 2 = 1) = !decide (s.length % 2 = 1) := by
  rw [length_cons, Bool.eq_iff_iff]
  simp
  omega

theorem MergeSpec.step (hop : Denotes op f) {s1' s2' out : List Int}
    {b b' : Bool} (h1 : Passes x s1 a s1' a') (h2 : Passes x s2 b s2' b')
    (hne : (a, b) ≠ (a', b')) (hx : x ∈ s1 ∨ x ∈ s2) (ih : MergeSpec f a' b' s1' s2' out) :
    MergeSpec f a b s1 s2 (appendAtFlag op.opCode (flagOf a' b') (flagOf a b) [] x ++ out) := by
  have hout : ∀ c ∈ out, x < c := fun c hc =>
    (ih.mem c hc).elim (h1.2 c) (h2.2 c)
  have hmem : ∀ c ∈ out, c ∈ s1 ∨ c ∈ s2 := fun c hc =>
    (ih.mem c hc).imp h1.mem h2.mem
  have hins : ∀ t, (inside out t ^^ (decide (x ≤ t) && (f a' b' ^^ f a b)))
      = (f (a ^^ inside s1 t) (b ^^ inside s2 t) ^^ f a b) := by
    intro t
    rw [ih.points t]
    by_cases ht : x ≤ t
    · rw [h1.toggled ht, h2.toggled ht, decide_eq_true ht]
      cases f (a' ^^ inside s1' t) (b' ^^ inside s2' t) <;> cases f a' b' <;> cases f a b <;> rfl
    · have ht' := not_le.mp ht
      rw [(h1.before ht').1, (h1.before ht').2, (h2.before ht').1, (h2.before ht').2]
      simp [ht]
  by_cases hk : flagOf a' b' = op.opCode ∨ flagOf a b = op.opCode
  · have hf : (f a' b' ^^ f a b) = true := (hop.crosses a b a' b' hne).mp hk
    rw [appendAtFlag, if_pos hk, nil_append, singleton_append]
    refine ⟨fun t => ?_, pairwise_cons.mpr ⟨hout, ih.sorted⟩, fun c hc => ?_, ?_⟩
    · rw [← hins t, hf, inside_cons, Bool.and_true, Bool.xor_comm]
    · rcases mem_cons.mp hc with rfl | hc
      · exact hx
      · exact hmem c hc
    · rw [odd_length_cons, ih.parity]
      revert hf
      cases f a' b' <;> cases f a b <;> simp
  · have hf : (f a' b' ^^ f a b) = false := by
      rw [← Bool.not_eq_true]
      exact fun hc => hk ((hop.crosses a b a' b' hne).mpr hc)
    rw [appendAtFlag, if_neg hk, nil_append]
    refine ⟨fun t => ?_, ih.sorted, hmem, ?_⟩
    · rw [← hins t, hf, Bool.and_false, Bool.xor_false]
    · rw [ih.parity]
      revert hf
      cases f a' b' <;> cases f a b <;> simp

theorem appendAtFlag_append (opCode flag oldFlag : Nat) (acc : List Int) (x : Int) :
    appendAtFlag opCode flag oldFlag acc x = acc ++ appendAtFlag opCode flag oldFlag [] x := by
  unfold appendAtFlag
  split <;> simp

theorem one_nil_of_no_pair (h : ∀ x t1 y t2, s1 = x :: t1 → s2 = y :: t2 → False) : s1 = [] ∨ s2 = [] := by
  cases s1 with
  | nil => exact Or.inl rfl
  | cons x t1 =>
    cases s2 with
    | nil => exact Or.inr rfl
    | cons y t2 => exact (h x t1 y t2 rfl rfl).elim

variable (hop : Denotes op f) {rows : List Row} {c : List Int}
include hop

theorem MergeSpec.remaining1 (s1 : List Int)
    (hadd : op.shouldAddRemainingSegmentsFromSpan1 = true) (hs : s1.Pairwise (· < ·)) :
    MergeSpec f (decide (s1.length % 2 = 1)) false s1 [] s1 where
  points x := by
    simp only [inside_nil, Bool.xor_false, hop.remaining1, hadd, Bool.true_and]
    cases decide (s1.length % 2 = 1) <;> cases inside s1 x <;> rfl
  sorted := hs
  mem _ hx := Or.inl hx
  parity := by rw [hop.remaining1, hadd, Bool.true_and]

theorem MergeSpec.remaining2 (s2 : List Int)
    (hadd : op.shouldAddRemainingSegmentsFromSpan2 = true) (hs : s2.Pairwise (· < ·)) :
    MergeSpec f false (decide (s2.length % 2 = 1)) [] s2 s2 where
  points x := by
    simp only [inside_nil, Bool.xor_false, hop.remaining2, hadd, Bool.true_and]
    cases decide (s2.length % 2 = 1) <;> cases inside s2 x <;> rfl
  sorted := hs
  mem _ hx := Or.inr hx
  parity := by rw [hop.remaining2, hadd, Bool.true_and]

omit hop in
theorem MergeSpec.nothing {b : Bool} (hab : f a b = false)
    (h : ∀ x, f (a ^^ inside s1 x) (b ^^ inside s2 x) = false) : MergeSpec f a b s1 s2 [] where
  points x := by rw [h x, hab]; rfl
  sorted := List.Pairwise.nil
  mem _ hx := absurd hx (by simp)
  parity := by rw [hab]; rfl

/-- **The segment loop emits the places where the value of the operation changes.** The flag
    holds the parities of the segments that are left, since every row has an even number. -/
theorem mergeSegments_spec (s1 s2 : List Int) (flag : Nat)
    (acc : List Int) : ∀ a b, flag = flagOf a b → s1.Pairwise (· < ·) → s2.Pairwise (· < ·) →
      decide (s1.length % 2 = 1) = a → decide (s2.length % 2 = 1) = b →
      ∃ out, mergeSegments op s1 s2 flag acc = acc ++ out ∧ MergeSpec f a b s1 s2 out := by
  fun_induction mergeSegments op s1 s2 flag acc with
  | case1 x s1 y s2 flag acc hlt flag' ih =>
    rintro a b rfl h1 h2 ha hb
    obtain ⟨hx1, h1'⟩ := pairwise_cons.mp h1
    have hflag : flag' = flagOf (!a) b := flagOf_xor_one a b
    rw [odd_length_cons] at ha
    obtain ⟨out, he, hm⟩ := ih (!a) b hflag h1' h2 (by rw [← ha, Bool.not_not]) hb
    refine ⟨appendAtFlag op.opCode flag' (flagOf a b) [] x ++ out, ?_, ?_⟩
    · rw [he, appendAtFlag_append, append_assoc]
    · have hx2 : ∀ c ∈ y :: s2, x < c := by
        intro c hc
        rcases mem_cons.mp hc with rfl | hc
        · exact hlt
        · exact hlt.trans ((pairwise_cons.mp h2).1 c hc)
      rw [hflag]
      exact hm.step hop ⟨Or.inl ⟨rfl, rfl⟩, hx1⟩ ⟨Or.inr ⟨rfl, rfl⟩, hx2⟩ (by cases a <;> simp) (Or.inl (by simp))
  | case2 x s1 y s2 flag acc hnlt hlt flag' ih =>
    rintro a b rfl h1 h2 ha hb
    obtain ⟨hy2, h2'⟩ := pairwise_cons.mp h2
    have hflag : flag' = flagOf a (!b) := flagOf_xor_two a b
    rw [odd_length_cons] at hb
    obtain ⟨out, he, hm⟩ := ih a (!b) hflag h1 h2' ha (by rw [← hb, Bool.not_not])
    refine ⟨appendAtFlag op.opCode flag' (flagOf a b) [] y ++ out, ?_, ?_⟩
    · rw [he, appendAtFlag_append, append_assoc]
    · have hy1 : ∀ c ∈ x :: s1, y < c := by
        intro c hc
        rcases mem_cons.mp hc with rfl | hc
        · exact hlt
        · exact hlt.trans ((pairwise_cons.mp h1).1 c hc)
      rw [hflag]
      exact hm.step hop ⟨Or.inr ⟨rfl, rfl⟩, hy1⟩ ⟨Or.inl ⟨rfl, rfl⟩, hy2⟩ (by cases b <;> simp) (Or.inr (by simp))
  | case3 x s1 y s2 flag acc hnlt hngt flag' ih =>
    rintro a b rfl h1 h2 ha hb
    obtain rfl : x = y := le_antisymm (not_lt.mp hngt) (not_lt.mp hnlt)
    obtain ⟨hx1, h1'⟩ := pairwise_cons.mp h1
    obtain ⟨hx2, h2'⟩ := pairwise_cons.mp h2
    have hflag : flag' = flagOf (!a) (!b) := by
      rw [← flagOf_xor_two, ← flagOf_xor_one]
    rw [odd_length_cons] at ha hb
    obtain ⟨out, he, hm⟩ := ih (!a) (!b) hflag h1' h2' (by rw [← ha, Bool.not_not]) (by rw [← hb, Bool.not_not])
    refine ⟨appendAtFlag op.opCode flag' (flagOf a b) [] x ++ out, ?_, ?_⟩
    · rw [he, appendAtFlag_append, append_assoc]
    · rw [hflag]
      exact hm.step hop ⟨Or.inl ⟨rfl, rfl⟩, hx1⟩ ⟨Or.inl ⟨rfl, rfl⟩, hx2⟩ (by cases a <;> simp) (Or.inl (by simp))
  | case4 s1 s2 flag acc hno hadd =>
    rintro a b rfl h1 h2 ha hb
    simp only [Bool.and_eq_true, Bool.not_eq_true', isEmpty_eq_false_iff] at hadd
    obtain rfl : s2 = [] := (one_nil_of_no_pair hno).resolve_left hadd.2
    subst ha
    obtain rfl : b = false := hb.symm
    exact ⟨s1, rfl, MergeSpec.remaining1 hop s1 hadd.1 h1⟩
  | case5 s1 s2 flag acc hno hadd1 hadd2 =>
    rintro a b rfl h1 h2 ha hb
    simp only [Bool.and_eq_true, Bool.not_eq_true', isEmpty_eq_false_iff] at hadd2
    obtain rfl : s1 = [] := (one_nil_of_no_pair hno).resolve_right hadd2.2
    subst hb
    obtain rfl : a = false := ha.symm
    exact ⟨s2, rfl, MergeSpec.remaining2 hop s2 hadd2.1 h2⟩
  | case6 s1 s2 flag acc hno hadd1 hadd2 =>
    rintro a b rfl h1 h2 ha hb
    refine ⟨[], (append_nil acc).symm, ?_⟩
    simp only [Bool.and_eq_true, Bool.not_eq_true', isEmpty_eq_false_iff, not_and, not_not] at hadd1 hadd2
    rcases one_nil_of_no_pair hno with rfl | rfl
    · obtain rfl : a = false := ha.symm
      cases hk : op.shouldAddRemainingSegmentsFromSpan2 with
      | true =>
        obtain rfl := hadd2 hk
        obtain rfl : b = false := hb.symm
        exact .nothing (by rw [hop.remaining2, Bool.and_false]) fun x => by simp [hop.remaining2]
      | false =>
        exact .nothing (by rw [hop.remaining2, hk, Bool.false_and]) fun x => by simp [hop.remaining2, hk]
    · obtain rfl : b = false := hb.symm
      cases hk : op.shouldAddRemainingSegmentsFromSpan1 with
      | true =>
        obtain rfl := hadd1 hk
        obtain rfl : a = false := ha.symm
        exact .nothing (by rw [hop.remaining1, Bool.and_false]) fun x => by simp [hop.remaining1]
      | false =>
        exact .nothing (by rw [hop.remaining1, hk, Bool.false_and]) fun x => by simp [hop.remaining1, hk]

def mergeRow (op : Operation) (s1 s2 : List Int) : List Int := mergeSegments op s1 s2 0 []

theorem Denotes.false_false : f false false = false := by
  rw [hop.remaining1, Bool.and_false]

theorem mergeRow_spec (h1 : SegmentsOk s1)
    (h2 : SegmentsOk s2) : MergeSpec f false false s1 s2 (mergeRow op s1 s2) := by
  obtain ⟨out, he, hm⟩ := mergeSegments_spec hop s1 s2 0 [] false false rfl h1.1 h2.1
    (by simp [h1.2]) (by simp [h2.2])
  rw [mergeRow, he, nil_append]
  exact hm

theorem mergeRow_ok (h1 : SegmentsOk s1)
    (h2 : SegmentsOk s2) : SegmentsOk (mergeRow op s1 s2) := by
  have hm := mergeRow_spec hop h1 h2
  refine ⟨hm.sorted, ?_⟩
  have hp := hm.parity
  rw [hop.false_false, decide_eq_false_iff_not] at hp
  omega

theorem inside_mergeRow (h1 : SegmentsOk s1) (h2 : SegmentsOk s2) (x : Int) :
    inside (mergeRow op s1 s2) x = f (inside s1 x) (inside s2 x) := by
  rw [(mergeRow_spec hop h1 h2).points x, hop.false_false]
  simp

omit hop

theorem mergeRow_nil_right (op : Operation) (s1 : List Int) :
    mergeRow op s1 [] = if op.shouldAddRemainingSegmentsFromSpan1 then s1 else [] := by
  rw [mergeRow, mergeSegments]
  · cases s1 <;> simp
  · intro _ _ _ _ _ h
    simp at h

theorem mergeRow_nil_left (op : Operation) (s2 : List Int) :
    mergeRow op [] s2 = if op.shouldAddRemainingSegmentsFromSpan2 then s2 else [] := by
  rw [mergeRow, mergeSegments]
  · cases s2 <;> simp
  · intro _ _ _ _ h _
    simp at h

/-! ## The span loop -/

def lastSegments (rows : List Row) : List Int := (rows.getLast?.map Prod.snd).getD []

@[simp] theorem lastSegments_nil : lastSegments [] = [] := rfl

@[simp] theorem lastSegments_concat (rows : List Row) (r : Row) : lastSegments (rows ++ [r]) = r.2 := by
  simp [lastSegments]

/-- One round adds its row unless it repeats what the result ends with; an empty result ends
    with the empty row, which is why an empty span is never added at the top. -/
theorem addSpan_ofRows (op : Operation) (rows : List Row) (y : Int) (s1 s2 : List Int) :
    addSpan op (ofRows rows) y s1 s2 = ofRows (if mergeRow op s1 s2 = lastSegments rows then rows
          else rows ++ [(y, mergeRow op s1 s2)]) := by
  unfold addSpan
  rw [show mergeSegments op s1 s2 0 [] = mergeRow op s1 s2 from rfl]
  rcases eq_nil_or_concat' rows with rfl | ⟨init, last, rfl⟩
  · cases hm : mergeRow op s1 s2 with
    | nil => simp [Shape.isEmpty, Shape.ofRows]
    | cons x segs =>
      rw [if_pos (by simp), appendSpanSegments_ofRows]
      simp [pushRow]
  · have hne : (ofRows (init ++ [last])).isEmpty = false := by
      simp [Shape.isEmpty, Shape.ofRows]
    rw [hne, if_pos (by simp), appendSpanSegments_ofRows, lastSegments_concat]
    simp only [pushRow, List.getLast?_concat]
    by_cases hl : last.2 = mergeRow op s1 s2
    · rw [if_pos hl, if_pos hl.symm]
    · rw [if_neg hl, if_neg fun he => hl he.symm]

theorem pushRows_of_tight {new : List Row} (h : StepTight (lastSegments rows) new) :
    pushRows rows new = rows ++ new := by
  induction new generalizing rows with
  | nil => simp [pushRows]
  | cons r new ih =>
    have hr : pushRow rows r = rows ++ [r] := by
      rcases eq_nil_or_concat' rows with rfl | ⟨init, last, rfl⟩
      · rfl
      · have hne := h.head_ne
        rw [lastSegments_concat] at hne
        simp only [pushRow, List.getLast?_concat]
        rw [if_neg fun he => hne he.symm]
    have ht : StepTight (lastSegments (rows ++ [r])) new := by
      rw [lastSegments_concat]; exact h.tail
    calc pushRows rows (r :: new) = pushRows (pushRow rows r) new := rfl
      _ = (rows ++ [r]) ++ new := by rw [hr, ih ht]
      _ = rows ++ r :: new := by simp

/-- What the span loop adds to a result that ends with the merge of the rows last passed: the
    steps of the pointwise merge from there on. -/
structure SpansSpec (op : Operation) (c1 c2 : List Int) (rows1 rows2 out : List Row) : Prop where
  points : ∀ y, stepAt (mergeRow op c1 c2) out y
    = mergeRow op (stepAt c1 rows1 y) (stepAt c2 rows2 y)
  sorted : StepSorted out
  tight : StepTight (mergeRow op c1 c2) out
  mem : ∀ r ∈ out, (∃ r1 ∈ rows1, r1.1 = r.1) ∨ ∃ r2 ∈ rows2, r2.1 = r.1

/-- One operand moves past the place `y`: either its next row starts there and becomes the row
    last passed, or nothing happens to it. Afterwards all its rows start after `y`. -/
def PassesRow (y : Int) (c : List Int) (rows : List Row) (c' : List Int) (rows' : List Row) :
    Prop :=
  (rows = (y, c') :: rows' ∨ (rows = rows' ∧ c = c')) ∧ ∀ r ∈ rows', y < r.1

section

variable (h : PassesRow y c rows c' rows')
include h

theorem PassesRow.at_or_after (ht : y ≤ t) :
    stepAt c rows t = stepAt c' rows' t := by
  obtain ⟨rfl | ⟨rfl, rfl⟩, -⟩ := h
  · exact stepAt_cons_of_le ht
  · rfl

theorem PassesRow.before (ht : t < y) : stepAt c rows t = c := by
  obtain ⟨rfl | ⟨rfl, rfl⟩, hlt⟩ := h
  · exact stepAt_cons_of_lt ht
  · exact stepAt_of_lt fun r hr => ht.trans (hlt r hr)

theorem PassesRow.mem {z : Int} (hz : ∃ r ∈ rows', r.1 = z) :
    ∃ r ∈ rows, r.1 = z := by
  obtain ⟨r, hr, rfl⟩ := hz
  obtain ⟨rfl | ⟨rfl, rfl⟩, -⟩ := h
  · exact ⟨r, by simp [hr], rfl⟩
  · exact ⟨r, hr, rfl⟩

end

/-- The row of one round followed by what the later rounds add. -/
def consRow (op : Operation) (y : Int) (c1 c2 c1' c2' : List Int) (out : List Row) : List Row :=
  if mergeRow op c1' c2' = mergeRow op c1 c2 then out else (y, mergeRow op c1' c2') :: out

theorem SpansSpec.step {c1' c2' : List Int} {rows1' rows2' out : List Row}
    (h1 : PassesRow y c1 rows1 c1' rows1') (h2 : PassesRow y c2 rows2 c2' rows2')
    (hy : (∃ r ∈ rows1, r.1 = y) ∨ ∃ r ∈ rows2, r.1 = y) (ih : SpansSpec op c1' c2' rows1' rows2' out) :
    SpansSpec op c1 c2 rows1 rows2 (consRow op y c1 c2 c1' c2' out) := by
  have hout : ∀ r ∈ out, y < r.1 := by
    intro r hr
    rcases ih.mem r hr with ⟨r', hr', he⟩ | ⟨r', hr', he⟩
    · rw [← he]; exact h1.2 r' hr'
    · rw [← he]; exact h2.2 r' hr'
  have hmem : ∀ r ∈ out, (∃ r1 ∈ rows1, r1.1 = r.1) ∨ ∃ r2 ∈ rows2, r2.1 = r.1 := fun r hr =>
    (ih.mem r hr).imp h1.mem h2.mem
  by_cases hm : mergeRow op c1' c2' = mergeRow op c1 c2
  · rw [consRow, if_pos hm]
    refine ⟨fun t => ?_, ih.sorted, hm ▸ ih.tight, hmem⟩
    by_cases ht : y ≤ t
    · rw [← hm, ih.points t, h1.at_or_after ht, h2.at_or_after ht]
    · have ht' := not_le.mp ht
      rw [stepAt_of_lt fun r hr => ht'.trans (hout r hr), h1.before ht', h2.before ht']
  · rw [consRow, if_neg hm]
    refine ⟨fun t => ?_, pairwise_cons.mpr ⟨hout, ih.sorted⟩, ?_, fun r hr => ?_⟩
    · by_cases ht : y ≤ t
      · rw [stepAt_cons_of_le ht, ih.points t, h1.at_or_after ht, h2.at_or_after ht]
      · have ht' := not_le.mp ht
        rw [stepAt_cons_of_lt ht', h1.before ht', h2.before ht']
    · simp only [StepTight, map_cons, isChain_cons_cons]
      exact ⟨fun he => hm he.symm, ih.tight⟩
    · rcases mem_cons.mp hr with rfl | hr
      · exact hy
      · exact hmem r hr

/-- The rows an operand of the span loop has left, after the row `c` was last passed. -/
structure Operand (c : List Int) (rows : List Row) : Prop extends RowsOk rows where
  tight : StepTight c rows
  finished : rows = [] → c = []

theorem Operand.tail {r : Row} (h : Operand c (r :: rows)) :
    Operand r.2 rows where
  toRowsOk := h.toRowsOk.tail
  tight := h.tight.tail
  finished hn := h.closed_head hn

theorem Operand.passesHead (h : Operand c ((y, segs) :: rows)) : PassesRow y c ((y, segs) :: rows) segs rows :=
  ⟨Or.inl rfl, fun _ hr => h.sorted.head_lt hr⟩

theorem Operand.passesBefore {y' : Int} (h : Operand c ((y, segs) :: rows)) (hlt : y' < y) :
    PassesRow y' c ((y, segs) :: rows) c ((y, segs) :: rows) := by
  refine ⟨Or.inr ⟨rfl, rfl⟩, fun r hr => ?_⟩
  rcases mem_cons.mp hr with rfl | hr
  · exact hlt
  · exact hlt.trans (h.sorted.head_lt hr)

theorem addSpan_append (y : Int) (c1' c2' : List Int) (hlast : lastSegments rows = mergeRow op c1 c2) :
    ∃ rows', addSpan op (ofRows rows) y c1' c2' = ofRows rows' ∧ lastSegments rows' = mergeRow op c1' c2' ∧
      ∀ out, rows' ++ out = rows ++ consRow op y c1 c2 c1' c2' out := by
  rw [addSpan_ofRows, hlast]
  by_cases hm : mergeRow op c1' c2' = mergeRow op c1 c2
  · refine ⟨rows, by rw [if_pos hm], by rw [hlast, hm], fun out => ?_⟩
    rw [consRow, if_pos hm]
  · refine ⟨rows ++ [(y, mergeRow op c1' c2')], by rw [if_neg hm], by simp, fun out => ?_⟩
    rw [consRow, if_neg hm]
    simp

theorem SpansSpec.remaining2 (h2 : Operand c2 rows2) : SpansSpec op [] c2 [] rows2
      (if op.shouldAddRemainingSegmentsFromSpan2 then rows2 else []) := by
  cases hk : op.shouldAddRemainingSegmentsFromSpan2 with
  | true =>
    refine ⟨fun y => ?_, h2.sorted, ?_, fun r hr => Or.inr ⟨r, hr, rfl⟩⟩
    · rw [mergeRow_nil_left, stepAt_nil, mergeRow_nil_left, hk]; rfl
    · rw [mergeRow_nil_left, hk]; exact h2.tight
  | false =>
    refine ⟨fun y => ?_, List.Pairwise.nil, by simp [StepTight], fun r hr => absurd hr (by simp)⟩
    rw [mergeRow_nil_left, stepAt_nil, mergeRow_nil_left, hk]; rfl

theorem SpansSpec.remaining1 (h1 : Operand c1 rows1) : SpansSpec op c1 [] rows1 []
      (if op.shouldAddRemainingSegmentsFromSpan1 then rows1 else []) := by
  cases hk : op.shouldAddRemainingSegmentsFromSpan1 with
  | true =>
    refine ⟨fun y => ?_, h1.sorted, ?_, fun r hr => Or.inl ⟨r, hr, rfl⟩⟩
    · rw [mergeRow_nil_right, stepAt_nil, mergeRow_nil_right, hk]; rfl
    · rw [mergeRow_nil_right, hk]; exact h1.tight
  | false =>
    refine ⟨fun y => ?_, List.Pairwise.nil, by simp [StepTight], fun r hr => absurd hr (by simp)⟩
    rw [mergeRow_nil_right, stepAt_nil, mergeRow_nil_right, hk]; rfl

theorem Operand.segmentsOf {y : Int} {segs : List Int}
    (h : Operand c ((y, segs) :: rows)) (before : List Row) : (ofRows (before ++ (y, segs) :: rows)).segmentsOf
      (⟨y, (flatSegments before).length⟩ :: itAt (before ++ [(y, segs)]) rows) = segs := by
  rw [← itAt_cons]
  exact segmentsOf_itAt before y segs rows h.closed_head

/-- **The span loop adds the steps of the pointwise merge to its result.** The induction is on
    the rows both operands have left; each round is `SpansSpec.step`. -/
theorem mergeSpans_spec (hop : Denotes op f) :
    ∀ (b1 rows1 b2 rows2 : List Row) (c1 c2 : List Int) (res : List Row),
      Operand c1 rows1 → Operand c2 rows2 → lastSegments res = mergeRow op c1 c2 →
      ∃ out, mergeSpans op (ofRows (b1 ++ rows1)) (ofRows (b2 ++ rows2)) (itAt b1 rows1)
          (itAt b2 rows2) c1 c2 (ofRows res) = ofRows (res ++ out) ∧
        SpansSpec op c1 c2 rows1 rows2 out
  | b1, (y1, s1) :: rows1, b2, (y2, s2) :: rows2, c1, c2, res, h1, h2, hlast => by
    have hs1 := h1.segmentsOf b1
    have hs2 := h2.segmentsOf b2
    rw [itAt_cons, itAt_cons, mergeSpans]
    dsimp only
    rw [hs1, hs2]
    rcases lt_trichotomy y1 y2 with hlt | rfl | hgt
    · rw [if_pos hlt]
      obtain ⟨res', he, hl, happ⟩ := addSpan_append y1 s1 c2 hlast
      obtain ⟨out, hrun, hout⟩ :=
        mergeSpans_spec hop (b1 ++ [(y1, s1)]) rows1 b2 ((y2, s2) :: rows2) s1 c2 res' h1.tail h2 hl
      rw [append_assoc, singleton_append, itAt_cons] at hrun
      refine ⟨consRow op y1 c1 c2 s1 c2 out, by rw [he, hrun, happ], ?_⟩
      exact hout.step h1.passesHead (h2.passesBefore hlt) (Or.inl ⟨(y1, s1), by simp, rfl⟩)
    · rw [if_neg (lt_irrefl y1), if_neg (lt_irrefl y1)]
      obtain ⟨res', he, hl, happ⟩ := addSpan_append y1 s1 s2 hlast
      obtain ⟨out, hrun, hout⟩ :=
        mergeSpans_spec hop (b1 ++ [(y1, s1)]) rows1 (b2 ++ [(y1, s2)]) rows2 s1 s2 res' h1.tail h2.tail hl
      rw [append_assoc, append_assoc, singleton_append, singleton_append] at hrun
      refine ⟨consRow op y1 c1 c2 s1 s2 out, by rw [he, hrun, happ], ?_⟩
      exact hout.step h1.passesHead h2.passesHead (Or.inl ⟨(y1, s1), by simp, rfl⟩)
    · rw [if_neg (not_lt.mpr hgt.le), if_pos hgt]
      obtain ⟨res', he, hl, happ⟩ := addSpan_append y2 c1 s2 hlast
      obtain ⟨out, hrun, hout⟩ :=
        mergeSpans_spec hop b1 ((y1, s1) :: rows1) (b2 ++ [(y2, s2)]) rows2 c1 s2 res' h1 h2.tail hl
      rw [append_assoc, singleton_append, itAt_cons] at hrun
      refine ⟨consRow op y2 c1 c2 c1 s2 out, by rw [he, hrun, happ], ?_⟩
      exact hout.step (h1.passesBefore hgt) h2.passesHead (Or.inr ⟨(y2, s2), by simp, rfl⟩)
  | b1, [], b2, rows2, c1, c2, res, h1, h2, hlast => by
    obtain rfl : c1 = [] := h1.finished rfl
    refine ⟨_, ?_, SpansSpec.remaining2 h2⟩
    rw [itAt_nil, mergeSpans]
    · rw [hop.spans2]
      cases hk : op.shouldAddRemainingSegmentsFromSpan2 with
      | false => simp
      | true =>
        cases rows2 with
        | nil => simp
        | cons r rows2 =>
          rw [mergeRow_nil_left, hk, if_pos rfl] at hlast
          rw [if_neg (by simp), if_pos (by obtain ⟨y, s⟩ := r; simp [itAt]), if_pos rfl,
            appendSpans_ofRows _ _ _ h2.closed, pushRows_of_tight (hlast ▸ h2.tight)]
    · intro _ _ _ _ h _
      simp at h
  | b1, r :: rows1, b2, [], c1, c2, res, h1, h2, hlast => by
    obtain rfl : c2 = [] := h2.finished rfl
    refine ⟨_, ?_, SpansSpec.remaining1 h1⟩
    rw [itAt_nil, mergeSpans]
    · rw [hop.spans1]
      cases hk : op.shouldAddRemainingSegmentsFromSpan1 with
      | false => simp
      | true =>
        rw [mergeRow_nil_right, hk, if_pos rfl] at hlast
        rw [if_pos (by obtain ⟨y, s⟩ := r; simp [itAt]), if_pos rfl,
          appendSpans_ofRows _ _ _ h1.closed, pushRows_of_tight (hlast ▸ h1.tight)]
    · intro _ _ _ _ _ h
      simp at h
  termination_by _ rows1 _ rows2 => rows1.length + rows2.length

theorem Canonical.operand (h : Canonical rows) : Operand [] rows :=
  ⟨h.toRowsOk, h.tight, fun _ => rfl⟩

theorem RowsOk.stepAt_end (h : RowsOk rows) (hy : ∀ r ∈ rows, r.1 ≤ y) : stepAt [] rows y = [] := by
  rcases eq_nil_or_concat' rows with rfl | ⟨init, last, rfl⟩
  · rfl
  · have hlt : ∀ r ∈ init, r.1 < last.1 := fun r hr =>
      (pairwise_append.mp h.sorted).2.2 r hr last (by simp)
    rw [show last = (last.1, last.2) from rfl, stepAt_concat hlt, if_pos (hy last (by simp))]
    exact h.closed last (by simp)

theorem stepAt_self {d : List Int} (h : StepSorted rows) {r : Row} (hr : r ∈ rows) : stepAt d rows r.1 = r.2 := by
  induction rows generalizing d with
  | nil => exact absurd hr (by simp)
  | cons r' rows ih =>
    rcases mem_cons.mp hr with rfl | hr
    · rw [show r :: rows = (r.1, r.2) :: rows from rfl, stepAt_cons_of_le le_rfl,
        stepAt_of_lt fun r' hr' => h.head_lt hr']
    · rw [show r' :: rows = (r'.1, r'.2) :: rows from rfl, stepAt_cons_of_le (h.head_lt hr).le, ih h.tail hr]

/-- **The merge of two canonical shapes is canonical and is their pointwise merge.** -/
theorem mergeSpans_canonical (hop : Denotes op f) (h1 : Canonical rows1)
    (h2 : Canonical rows2) : ∃ rows, mergeSpans op (ofRows rows1) (ofRows rows2)
        (ofRows rows1).spans (ofRows rows2).spans [] [] empty = ofRows rows ∧ Canonical rows ∧
      (∀ p, pixelIn rows p = f (pixelIn rows1 p) (pixelIn rows2 p)) ∧
      (∀ r ∈ rows, (∃ r1 ∈ rows1, r1.1 = r.1) ∨ ∃ r2 ∈ rows2, r2.1 = r.1) ∧
      ∀ x ∈ flatSegments rows, x ∈ flatSegments rows1 ∨ x ∈ flatSegments rows2 := by
  have hnil : mergeRow op [] [] = [] := by rw [mergeRow_nil_right]; simp
  obtain ⟨rows, hrun, hout⟩ := mergeSpans_spec hop [] rows1 [] rows2 [] [] [] h1.operand h2.operand hnil.symm
  have hpt : ∀ y, stepAt [] rows y = mergeRow op (stepAt [] rows1 y) (stepAt [] rows2 y) := by
    intro y
    have := hout.points y
    rwa [hnil] at this
  have hrow : ∀ r ∈ rows, r.2 = mergeRow op (stepAt [] rows1 r.1) (stepAt [] rows2 r.1) :=
    fun r hr => by rw [← hpt, stepAt_self hout.sorted hr]
  have hcan : Canonical rows := by
    refine ⟨⟨hout.sorted, fun r hr => ?_, fun r hr => ?_⟩, hnil ▸ hout.tight⟩
    · -- Past every place both operands are over, and so is the merge.
      obtain ⟨init, rfl⟩ := List.getLast?_eq_some_iff.mp hr
      obtain ⟨y, hy⟩ : ∃ y, r.1 ≤ y ∧ (∀ r' ∈ rows1, r'.1 ≤ y) ∧ ∀ r' ∈ rows2, r'.1 ≤ y := by
        obtain ⟨m1, hm1⟩ := (rows1.map Prod.fst).toFinset.exists_le
        obtain ⟨m2, hm2⟩ := (rows2.map Prod.fst).toFinset.exists_le
        refine ⟨max r.1 (max m1 m2), le_max_left _ _, fun r' hr' => ?_, fun r' hr' => ?_⟩
        · exact (hm1 r'.1 (by simpa using ⟨r'.2, hr'⟩)).trans ((le_max_left m1 m2).trans (le_max_right _ _))
        · exact (hm2 r'.1 (by simpa using ⟨r'.2, hr'⟩)).trans ((le_max_right m1 m2).trans (le_max_right _ _))
      have hlt : ∀ r' ∈ init, r'.1 < r.1 := fun r' hr' =>
        (pairwise_append.mp hout.sorted).2.2 r' hr' r (by simp)
      have hend : stepAt [] (init ++ [r]) y = r.2 := by
        rw [show r = (r.1, r.2) from rfl, stepAt_concat hlt, if_pos hy.1]
      rw [← hend, hpt y, h1.stepAt_end hy.2.1, h2.stepAt_end hy.2.2, hnil]
    · rw [hrow r hr]
      exact mergeRow_ok hop (h1.stepAt_segments r.1) (h2.stepAt_segments r.1)
  refine ⟨rows, hrun, hcan, fun p => ?_, hout.mem, fun x hx => ?_⟩
  · rw [pixelIn, hpt, inside_mergeRow hop (h1.stepAt_segments p.y) (h2.stepAt_segments p.y)]
    rfl
  · obtain ⟨r, hr, hxr⟩ := mem_flatMap.mp hx
    rw [hrow r hr] at hxr
    have hmem := (mergeRow_spec hop (h1.stepAt_segments r.1) (h2.stepAt_segments r.1)).mem x hxr
    exact hmem.imp mem_flatSegments mem_flatSegments

end WebV8
