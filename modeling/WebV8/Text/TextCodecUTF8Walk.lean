import WebV8.Lib.Utf8
import WebV8.Text.TextCodecUTF8

/-!
# The walk of a call of `decode`

`feed flush q s` is what a call of `decode` comes to when the partial sequence holds `q` and the
chunk is `s`: the events, in order, and the partial sequence that is left. It has one loop where
the code has six, knows nothing of destinations, alignment or the width of the buffer, and keeps
one peculiarity of the code: a character decoded out of the partial sequence is taken off its
*end* (`takeOff`), because `m_partialSequenceSize -= count` does not move the rest to the front.

`TextCodecUTF8.decode_refines` says that the code computes `feed`.
-/

namespace WebV8

open Lib Lib.Utf8 List

/-! ## Sequences -/

theorem nonASCIISequenceLength_eq (b : UInt8) :
    nonASCIISequenceLength b = if b.toNat < 0x80 then 0 else if b.toNat < 0xE0 then 2
      else if b.toNat < 0xF0 then 3 else if b.toNat < 0xF5 then 4 else 0 := by
  have h : ∀ n : Fin 256, sequenceLengths.getD n 0 = if n.val < 0x80 then 0
      else if n.val < 0xE0 then 2 else if n.val < 0xF0 then 3 else if n.val < 0xF5 then 4
      else 0 := by decide +kernel
  exact h ⟨b.toNat, b.toNat_lt⟩

theorem nonASCIISequenceLength_le (b : UInt8) : nonASCIISequenceLength b ≤ 4 := by
  rw [nonASCIISequenceLength_eq]
  split_ifs <;> omega

variable {b : UInt8} {bs l q s t : List UInt8} {n v : Nat} {flush : Bool} {e : Option Nat}

theorem isASCII_iff : isASCII b = true ↔ b.toNat < 0x80 := by simp [isASCII]

theorem not_isASCII_iff : ¬ isASCII b ↔ 0x80 ≤ b.toNat := by simp [isASCII]

theorem nonASCIISequenceLength_of_isASCII (h : isASCII b) : nonASCIISequenceLength b = 0 := by
  rw [nonASCIISequenceLength_eq, if_pos (isASCII_iff.mp h)]

def characterOf (v : Option Nat) : Int :=
  match v with
  | some v => v
  | none => nonCharacter

theorem eq_none_of_characterOf {c : Int} (hc : c = characterOf e) (h : c = nonCharacter) : e = none := by
  cases e with
  | none => rfl
  | some v => simp [h, characterOf, nonCharacter] at hc

theorem eq_some_of_characterOf {c : Int} (hc : c = characterOf e) (h : ¬ c = nonCharacter) :
    ∃ v : Nat, e = some v ∧ c = v := by
  cases e with
  | none => exact absurd hc h
  | some v => exact ⟨v, rfl, hc⟩

/-- **`decodeNonASCIISequence` decodes the well-formed sequences.** -/
theorem decodeNonASCIISequence_eq (hb : ¬ isASCII b) (hn : nonASCIISequenceLength b = n) (h0 : n ≠ 0)
    (hlen : n ≤ (b :: bs).length) :
    decodeNonASCIISequence (b :: bs) n = characterOf (scalar ((b :: bs).take n)) := by
  rw [not_isASCII_iff] at hb
  rw [nonASCIISequenceLength_eq, if_neg (by omega)] at hn
  split_ifs at hn with h1 h2 h3
  · subst hn
    obtain ⟨c, bs, rfl⟩ := exists_cons_of_length_pos (l := bs) (by simp at hlen; omega)
    simp only [take_succ_cons, take_zero, scalar, isSecond_iff,
      decodeNonASCIISequence, getD_cons_zero, getD_cons_succ, Nat.shiftLeft_eq, reduceIte]
    split_ifs <;> simp only [characterOf, nonCharacter, Bool.or_eq_true, decide_eq_true_eq] at * <;> omega
  · subst hn
    rcases bs with _ | ⟨c, _ | ⟨d, bs⟩⟩
    iterate 2 simp at hlen
    simp only [take_succ_cons, take_zero, scalar, isSecond_iff, isTail_iff,
      decodeNonASCIISequence, getD_cons_zero, getD_cons_succ, Nat.shiftLeft_eq,
      reduceIte, Nat.reduceEqDiff]
    split_ifs <;> simp only [characterOf, nonCharacter, Bool.or_eq_true, decide_eq_true_eq] at * <;> omega
  · subst hn
    rcases bs with _ | ⟨c, _ | ⟨d, _ | ⟨e, bs⟩⟩⟩
    iterate 3 simp at hlen
    simp only [take_succ_cons, take_zero, scalar, isSecond_iff, isTail_iff,
      decodeNonASCIISequence, getD_cons_zero, getD_cons_succ, Nat.shiftLeft_eq,
      reduceIte, Nat.reduceEqDiff]
    split_ifs <;> simp only [characterOf, nonCharacter, Bool.or_eq_true, decide_eq_true_eq] at * <;> omega
  · exact absurd hn.symm h0

theorem sequenceCharacter_eq (hl : l = b :: bs) (hb : ¬ isASCII b) (hlen : nonASCIISequenceLength b ≤ l.length) :
    sequenceCharacter l (nonASCIISequenceLength b) = characterOf (scalar (l.take (nonASCIISequenceLength b))) := by
  subst hl
  unfold sequenceCharacter
  split_ifs with h0
  · rw [h0]
    rfl
  · exact decodeNonASCIISequence_eq hb rfl h0 hlen

theorem nonASCIISequenceLength_eq_leadLength (hb : ¬ isASCII b) : scalar ((b :: bs).take (leadLength b)) =
      scalar ((b :: bs).take (nonASCIISequenceLength b)) := by
  rw [not_isASCII_iff] at hb
  by_cases h : b.toNat < 0xF5
  · have : leadLength b = nonASCIISequenceLength b := by
      rw [nonASCIISequenceLength_eq, leadLength]
      split_ifs <;> omega
    rw [this]
  · have h0 : nonASCIISequenceLength b = 0 := by
      rw [nonASCIISequenceLength_eq]
      split_ifs <;> omega
    rw [h0, take_zero, scalar_nil]
    cases hv : scalar ((b :: bs).take (leadLength b)) with
    | none => rfl
    | some v =>
      have hl : leadLength b = 4 := by
        rw [leadLength]
        split_ifs <;> omega
      rw [hl] at hv
      rcases bs with _ | ⟨c, _ | ⟨d, _ | ⟨e, bs⟩⟩⟩ <;> simp [scalar] at hv <;> omega

/-! ## Code units -/

theorem appendCharacter_eq (destination : List UInt16) (v : Nat) :
    appendCharacter destination v = destination ++ utf16 v := by
  unfold appendCharacter utf16
  by_cases h : v < 0x10000
  · rw [if_pos (by omega), if_pos h]
    rfl
  · have hlead : u16Lead v = (0xD800 + (v - 0x10000) / 0x400).toUInt16 := by
      have hdiv : v / 2 ^ 10 + 0xD7C0 = 0xD800 + (v - 0x10000) / 0x400 := by omega
      rw [u16Lead, Int.toNat_natCast, Nat.shiftRight_eq_div_pow, hdiv]
    have htra : u16Trail v = (0xDC00 + (v - 0x10000) % 0x400).toUInt16 := by
      have hand : v &&& 0x3FF = v % 0x400 := Nat.and_two_pow_sub_one_eq_mod v 10
      have hor : v % 0x400 ||| 0xDC00 = 0xDC00 + v % 0x400 := by
        rw [Nat.lor_comm]
        exact (Nat.two_pow_add_eq_or_of_lt (i := 10) (by omega) 55).symm
      have hmod : v % 0x400 = (v - 0x10000) % 0x400 := by omega
      rw [u16Trail, Int.toNat_natCast, hand, hor, hmod]
    rw [if_neg (by omega), if_neg h, hlead, htra]

theorem utf16_of_le (h : v ≤ 0xFF) : utf16 v = [v.toUInt8.toUInt16] := by
  rw [utf16, if_pos (by omega)]
  congr 1
  apply UInt16.toNat_inj.mp
  simp
  omega

theorem utf16_ascii (b : UInt8) : utf16 b.toNat = [b.toUInt16] := by
  rw [utf16_of_le (by have := b.toNat_lt; omega)]
  simp

theorem length_utf16_le {seq : List UInt8} (h : scalar seq = some v) : (utf16 v).length ≤ seq.length := by
  unfold utf16
  split_ifs with hv
  · cases seq with
    | nil => exact absurd h (by simp [scalar])
    | cons => simp
  · -- Shorter sequences have values below `10000`.
    rcases seq with _ | ⟨a, _ | ⟨b, seq⟩⟩
    · exact absurd h (by simp [scalar])
    · simp [scalar] at h
      omega
    · simp

/-! ## Turns -/

/-- Complete a partial sequence that has begun to `n` bytes. -/
def fillUp (n : Nat) (q s : List UInt8) : List UInt8 × List UInt8 :=
  if q = [] then ([], s) else (q ++ s.take (n - q.length), s.drop (n - q.length))

def dropOne : List UInt8 → List UInt8 → List UInt8 × List UInt8
  | [], s => ([], s.tail)
  | _ :: q, s => (q, s)

/-- Take off the `n` bytes of a character. In the partial sequence the bytes that stay are the
    first ones, whichever were decoded. -/
def takeOff (n : Nat) (q s : List UInt8) : List UInt8 × List UInt8 :=
  if q = [] then ([], s.drop n) else (q.take (q.length - n), s)

/-- What the decoder does at the byte `b` when the sequence `b` starts is not cut off: the event,
    and the partial sequence and chunk after it. -/
def turn (b : UInt8) (q s : List UInt8) : Option Nat × List UInt8 × List UInt8 :=
  if isASCII b then (some b.toNat, dropOne q s)
  else
    let n := nonASCIISequenceLength b
    let f := fillUp n q s
    match scalar ((q ++ s).take n) with
    | some v => (some v, takeOff n f.1 f.2)
    | none => (none, dropOne f.1 f.2)

/-- Consume one byte of a sequence that is cut off by the end of the last chunk. The code has moved
    the rest of the chunk to the partial sequence before, unless there was one already. -/
def dropCut (q s : List UInt8) : List UInt8 × List UInt8 :=
  if q = [] then (s.tail, []) else (q.tail, s)

section Turn

variable {b : UInt8} {q s : List UInt8}

theorem turn_ascii (hasc : isASCII b) : turn b q s = (some b.toNat, dropOne q s) :=
  if_pos hasc

theorem turn_error (hasc : ¬ isASCII b) (hv : scalar ((q ++ s).take (nonASCIISequenceLength b)) = none) :
    turn b q s = (none, dropOne (fillUp (nonASCIISequenceLength b) q s).1
      (fillUp (nonASCIISequenceLength b) q s).2) := by
  rw [turn, if_neg hasc]
  dsimp only
  rw [hv]

theorem turn_character (hasc : ¬ isASCII b) {v : Nat}
    (hv : scalar ((q ++ s).take (nonASCIISequenceLength b)) = some v) :
    turn b q s = (some v, takeOff (nonASCIISequenceLength b)
      (fillUp (nonASCIISequenceLength b) q s).1 (fillUp (nonASCIISequenceLength b) q s).2) := by
  rw [turn, if_neg hasc]
  dsimp only
  rw [hv]

end Turn

@[simp] theorem fillUp_nil (n : Nat) (s : List UInt8) : fillUp n [] s = ([], s) := if_pos rfl

theorem fillUp_append (n : Nat) (q s : List UInt8) : (fillUp n q s).1 ++ (fillUp n q s).2 = q ++ s := by
  unfold fillUp
  split_ifs with h
  · rw [h]
  · simp

theorem fillUp_length (hq : q ≠ []) (h : n ≤ (q ++ s).length) : (fillUp n q s).1.length = max q.length n := by
  rw [fillUp, if_neg hq]
  simp at h ⊢
  omega

theorem fillUp_ne_nil (hq : q ≠ []) : (fillUp n q s).1 ≠ [] := by
  rw [fillUp, if_neg hq]
  simp [hq]

theorem dropOne_append (h : q ++ s = b :: t) : (dropOne q s).1 ++ (dropOne q s).2 = t := by
  cases q with
  | nil => rw [dropOne, nil_append]; rw [nil_append] at h; rw [h]; rfl
  | cons a q => rw [dropOne]; exact (List.cons.inj h).2

/-- The length of a partial sequence and a chunk, weighted as in `DecodeState.work`. -/
def weight (q s : List UInt8) : Nat := q.length + 2 * s.length

/-- From the partial sequence `q` and the chunk `s` to `p`, at least `k` bytes are used up, and none
    are put back into the chunk. -/
structure Uses (k : Nat) (q s : List UInt8) (p : List UInt8 × List UInt8) : Prop where
  total : p.1.length + p.2.length + k ≤ q.length + s.length
  chunk : p.2.length ≤ s.length

theorem Uses.weight_lt {p : List UInt8 × List UInt8} (h : Uses n q s p) (hn : 0 < n) :
    weight p.1 p.2 < weight q s := by
  have htotal := h.total
  have hchunk := h.chunk
  unfold weight
  omega

theorem uses_dropOne (h : q ++ s = b :: t) : Uses 1 q s (dropOne q s) := by
  cases q with
  | nil =>
    rw [nil_append] at h
    constructor <;> simp [dropOne, h]
  | cons a q => constructor <;> simp [dropOne]

theorem uses_dropCut (h : q ++ s = b :: t) : Uses 1 q s (dropCut q s) := by
  cases q with
  | nil =>
    rw [nil_append] at h
    constructor <;> simp [dropCut, h]
  | cons a q => constructor <;> simp [dropCut]

theorem uses_fillUp (n : Nat) (q s : List UInt8) : Uses 0 q s (fillUp n q s) := by
  unfold fillUp
  split_ifs with h
  · exact ⟨by simp, le_rfl⟩
  · constructor <;> simp
    omega

theorem Uses.trans {p r : List UInt8 × List UInt8} (h : Uses 0 q s p) (h' : Uses n p.1 p.2 r) : Uses n q s r :=
  ⟨h'.total.trans h.total, h'.chunk.trans h.chunk⟩

theorem pos_of_scalar_take (h : scalar (l.take n) = some v) : 0 < n := by
  rcases Nat.eq_zero_or_pos n with rfl | hn
  · exact absurd h (by simp [scalar])
  · exact hn

theorem uses_turn (h : q ++ s = b :: t) (hlen : nonASCIISequenceLength b ≤ (q ++ s).length) :
    Uses (eventUnits (turn b q s).1).length q s (turn b q s).2 := by
  by_cases hasc : isASCII b
  · rw [turn_ascii hasc, eventUnits, utf16_ascii]
    exact uses_dropOne h
  have hfill := uses_fillUp (nonASCIISequenceLength b) q s
  cases hv : scalar ((q ++ s).take (nonASCIISequenceLength b)) with
  | none =>
    rw [turn_error hasc hv]
    exact hfill.trans (uses_dropOne ((fillUp_append ..).trans h))
  | some v =>
    have hle := length_utf16_le hv
    rw [length_take, Nat.min_eq_left hlen] at hle
    rw [turn_character hasc hv]
    refine hfill.trans ?_
    simp only [eventUnits, takeOff]
    split_ifs with hf
    · rw [← fillUp_append (nonASCIISequenceLength b), hf, nil_append] at hlen
      constructor <;> simp
      omega
    · have hq : q ≠ [] := by
        rintro rfl
        exact hf (by rw [fillUp_nil])
      have := fillUp_length hq hlen
      refine ⟨?_, le_rfl⟩
      dsimp only
      rw [length_take]
      omega

theorem weight_turn (h : q ++ s = b :: t) (hlen : nonASCIISequenceLength b ≤ (q ++ s).length) :
    weight (turn b q s).2.1 (turn b q s).2.2 < weight q s :=
  (uses_turn h hlen).weight_lt (eventUnits_length_pos _)

/-! ## The walk of a call -/

/-- The events of a call and the partial sequence it leaves. -/
structure Fed where
  events : List (Option Nat)
  pending : List UInt8

def Fed.after (e : Option Nat) (f : Fed) : Fed := ⟨e :: f.events, f.pending⟩

/-- A call of `decode` with the partial sequence `q` and the chunk `s`. -/
def feed (flush : Bool) (q s : List UInt8) : Fed :=
  match _h : q ++ s with
  | [] => ⟨[], []⟩
  | b :: _ =>
    if nonASCIISequenceLength b > (q ++ s).length then
      -- The sequence is cut off: it waits for the next chunk or is an error.
      if flush then .after none (feed flush (dropCut q s).1 (dropCut q s).2) else ⟨[], q ++ s⟩
    else .after (turn b q s).1 (feed flush (turn b q s).2.1 (turn b q s).2.2)
termination_by weight q s
decreasing_by
  · exact (uses_dropCut _h).weight_lt Nat.one_pos
  · exact weight_turn _h (not_lt.mp ‹_›)

theorem feed_nil (flush : Bool) : feed flush [] [] = ⟨[], []⟩ := by rw [feed]; rfl

theorem feed_turn (h : q ++ s = b :: t) (hlen : nonASCIISequenceLength b ≤ (q ++ s).length) :
    feed flush q s = .after (turn b q s).1 (feed flush (turn b q s).2.1 (turn b q s).2.2) := by
  rw [feed]
  split
  case _ h' => rw [h'] at h; exact absurd h (by simp)
  case _ b' t' h' =>
    obtain ⟨rfl, rfl⟩ := List.cons.inj (h.symm.trans h')
    rw [if_neg (by omega)]

theorem feed_cut (h : q ++ s = b :: t) (hlen : (q ++ s).length < nonASCIISequenceLength b) :
    feed flush q s = if flush then .after none (feed flush (dropCut q s).1 (dropCut q s).2) else ⟨[], q ++ s⟩ := by
  rw [feed]
  split
  case _ h' => rw [h'] at h; exact absurd h (by simp)
  case _ b' t' h' =>
    obtain ⟨rfl, rfl⟩ := List.cons.inj (h.symm.trans h')
    rw [if_pos hlen]

theorem feed_cut_move (h : s = b :: t)
    (hlen : s.length < nonASCIISequenceLength b) : feed flush [] s = feed flush s [] := by
  have hs : s ++ [] = b :: t := by rw [append_nil, h]
  rw [feed_cut (q := []) h hlen, feed_cut (q := s) hs (by rw [append_nil]; exact hlen)]
  simp [dropCut, h]

theorem feed_fillUp (h : q = b :: t) (hlen : nonASCIISequenceLength b ≤ (q ++ s).length) :
    feed flush (fillUp (nonASCIISequenceLength b) q s).1 (fillUp (nonASCIISequenceLength b) q s).2
      = feed flush q s := by
  have hq : q ≠ [] := by rw [h]; simp
  have happ := fillUp_append (nonASCIISequenceLength b) q s
  have hl := fillUp_length hq hlen
  have hne := fillUp_ne_nil (n := nonASCIISequenceLength b) (s := s) hq
  generalize hf : fillUp (nonASCIISequenceLength b) q s = f at *
  have hcons : q ++ s = b :: (t ++ s) := by rw [h]; rfl
  -- The completed sequence is not completed any further.
  have haga : fillUp (nonASCIISequenceLength b) f.1 f.2 = f := by
    have h0 : nonASCIISequenceLength b - f.1.length = 0 := by omega
    rw [fillUp, if_neg hne, h0]
    simp
  rw [feed_turn (happ.trans hcons) (by rw [happ]; exact hlen), feed_turn hcons hlen]
  by_cases hasc : isASCII b
  · have : f = (q, s) := by rw [← hf, nonASCIISequenceLength_of_isASCII hasc, fillUp, if_neg hq]; simp
    rw [this]
  · have : turn b f.1 f.2 = turn b q s := by
      simp only [turn, if_neg hasc, happ, haga, hf]
    rw [this]

end WebV8
