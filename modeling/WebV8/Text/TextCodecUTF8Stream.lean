import WebV8.Text.TextCodecUTF8Decode

/-!
# Streaming

A byte string arrives in chunks, the last of them with `flush`. `stream` is the walk over all
chunks together; the calls of `decode` compute it (`decodeChunks_refines`).

It is the walk `Utf8.decode` over the whole string, with one exception. Four bytes in the partial
sequence may turn out to be an error byte, a character of two bytes, and one byte more. When the
character is taken off, the code goes on with the *first* byte of the character in the place of the
last of the four (`lostByte`). A lost byte does no harm if it is the same byte, or if both would be
errors (`LossHarmless`); the text is right exactly when no lost byte does harm.
-/

namespace WebV8

open Lib Lib.Utf8 List Option

/-! ## The walk over all chunks -/

def restWeight (rest : List (List UInt8)) : Nat := (rest.map fun c => 2 * c.length + 1).sum

/-- The next chunk begins. -/
theorem weight_next (q s c : List UInt8) (rest : List (List UInt8)) :
    weight (q ++ s) c + restWeight rest < weight q s + restWeight (c :: rest) := by
  simp only [restWeight, weight, map_cons, sum_cons, length_append]
  omega

/-- The walk with the partial sequence `q`, the chunk `s` and the chunks to come. -/
def stream (q s : List UInt8) (rest : List (List UInt8)) : List (Option Nat) :=
  match _h : q ++ s with
  | [] =>
    match rest with
    | [] => []
    | c :: rest => stream [] c rest
  | b :: _ =>
    if nonASCIISequenceLength b > (q ++ s).length then
      match rest with
      | [] => none :: stream (dropCut q s).1 (dropCut q s).2 []
      | c :: rest => stream (q ++ s) c rest
    else (turn b q s).1 :: stream (turn b q s).2.1 (turn b q s).2.2 rest
termination_by weight q s + restWeight rest
decreasing_by
  · exact _h ▸ weight_next q s c rest
  · exact Nat.add_lt_add_right ((uses_dropCut _h).weight_lt Nat.one_pos) _
  · exact weight_next q s c rest
  · exact Nat.add_lt_add_right (weight_turn _h (not_lt.mp ‹_›)) _

section Equations

variable {b : UInt8} {t q s : List UInt8} {rest : List (List UInt8)}

theorem stream_turn (h : q ++ s = b :: t) (hlen : nonASCIISequenceLength b ≤ (q ++ s).length) :
    stream q s rest = (turn b q s).1 :: stream (turn b q s).2.1 (turn b q s).2.2 rest := by
  rw [stream.eq_def]
  split
  case _ h' => rw [h'] at h; exact absurd h (by simp)
  case _ b' t' h' =>
    obtain ⟨rfl, rfl⟩ := List.cons.inj (h.symm.trans h')
    rw [if_neg (by omega)]

theorem stream_cut (h : q ++ s = b :: t) (hlen : (q ++ s).length < nonASCIISequenceLength b)
    (c : List UInt8) : stream q s (c :: rest) = stream (q ++ s) c rest := by
  rw [stream]
  split
  case _ h' => rw [h'] at h; exact absurd h (by simp)
  case _ b' t' h' =>
    obtain ⟨rfl, rfl⟩ := List.cons.inj (h.symm.trans h')
    rw [if_pos hlen]

theorem stream_cut_last (h : q ++ s = b :: t) (hlen : (q ++ s).length < nonASCIISequenceLength b) :
    stream q s [] = none :: stream (dropCut q s).1 (dropCut q s).2 [] := by
  rw [stream]
  split
  case _ h' => rw [h'] at h; exact absurd h (by simp)
  case _ b' t' h' =>
    obtain ⟨rfl, rfl⟩ := List.cons.inj (h.symm.trans h')
    rw [if_pos hlen]

theorem stream_nil : stream [] [] [] = [] := by rw [stream]; rfl

theorem stream_next (c : List UInt8) : stream [] [] (c :: rest) = stream [] c rest := by
  rw [stream]
  rfl

end Equations

theorem stream_last (q s : List UInt8) : stream q s [] = (feed true q s).events := by
  generalize hf : true = flush
  fun_induction feed flush q s with
  | case1 q s h =>
    obtain ⟨rfl, rfl⟩ := append_eq_nil_iff.mp h
    exact stream_nil
  | case2 q s b t h hcut hflu ih => rw [stream_cut_last h hcut, ih]; rfl
  | case3 q s b t h hcut hflu => exact absurd hf.symm hflu
  | case4 q s b t h hcut ih => rw [stream_turn h (by omega), ih]; rfl

theorem stream_call (q s c : List UInt8) (rest : List (List UInt8)) : stream q s (c :: rest)
      = (feed false q s).events ++ stream (feed false q s).pending c rest := by
  generalize hf : false = flush
  fun_induction feed flush q s with
  | case1 q s h =>
    obtain ⟨rfl, rfl⟩ := append_eq_nil_iff.mp h
    exact stream_next c
  | case2 q s b t h hcut hflu ih => rw [← hf] at hflu; exact absurd hflu (by simp)
  | case3 q s b t h hcut hflu => exact stream_cut h hcut c
  | case4 q s b t h hcut ih => rw [stream_turn h (by omega), ih]; rfl

/-! ## Calls of `decode` -/

structure Chunk where
  address : Nat
  bytes : List UInt8
  deriving DecidableEq, Repr

/-- The calls for the chunks of a string, the last one with `flush`. -/
def decodeChunks (w : MachineWord) (codec : TextCodecUTF8) (sawError : Bool) :
    List Chunk → Chunk → List Decoded
  | [], last => [codec.decode w last.address last.bytes true false sawError]
  | chunk :: chunks, last =>
    let d := codec.decode w chunk.address chunk.bytes false false sawError
    d :: decodeChunks w d.codec d.sawError chunks last

def decodedText (ds : List Decoded) : List UInt16 := ds.flatMap Decoded.string

/-- `sawError` after the last call. -/
def decodedError (ds : List Decoded) : Bool := (ds.getLast?.map Decoded.sawError).getD false

theorem fresh_pending (q s : List UInt8) : Fresh (feed false q s).pending := by
  generalize hf : false = flush
  fun_induction feed flush q s with
  | case1 q s h => exact Fresh.nil
  | case2 q s b t h hcut hflu ih => exact ih
  | case3 q s b t h hcut hflu => exact Fresh.of_cut h hcut
  | case4 q s b t h hcut ih => exact ih

theorem decodedError_cons (d : Decoded) {ds : List Decoded} (h : ds ≠ []) :
    decodedError (d :: ds) = decodedError ds := by
  cases ds with
  | nil => exact absurd rfl h
  | cons d' ds => simp [decodedError]

theorem decodeChunks_ne_nil (w : MachineWord) (codec : TextCodecUTF8) (sawError : Bool)
    (chunks : List Chunk) (last : Chunk) : decodeChunks w codec sawError chunks last ≠ [] := by
  cases chunks <;> simp [decodeChunks]

/-- **The calls compute the walk over all chunks**, and no call writes outside its buffers. -/
theorem decodeChunks_refines (w : MachineWord) (last : Chunk) : ∀ (chunks : List Chunk)
    (codec : TextCodecUTF8) (sawError : Bool), codec.Ok → Fresh codec.pending →
    let ds := decodeChunks w codec sawError chunks last
    ∀ first rest, chunks.map Chunk.bytes ++ [last.bytes] = first :: rest →
      decodedText ds = units (stream codec.pending first rest) ∧
      decodedError ds = (sawError || (stream codec.pending first rest).contains none) ∧
      ∀ d ∈ ds, d.InBounds
  | [], codec, sawError, hok, hfre => by
    intro ds first rest hspl
    obtain ⟨rfl, rfl⟩ := List.cons.inj hspl
    obtain ⟨hs, he, -, -, hb⟩ := codec.decode_refines w last.address last.bytes true sawError hok hfre
    rw [stream_last]
    refine ⟨?_, ?_, ?_⟩
    · simpa [ds, decodeChunks, decodedText] using hs
    · simpa [ds, decodeChunks, decodedError] using he
    · simpa [ds, decodeChunks] using hb
  | chunk :: chunks, codec, sawError, hok, hfre => by
    intro ds first rest hspl
    rw [map_cons, cons_append] at hspl
    obtain ⟨rfl, rfl⟩ := List.cons.inj hspl
    obtain ⟨hs, he, hok', hp, hb⟩ := codec.decode_refines w chunk.address chunk.bytes false sawError hok hfre
    have hfre' : Fresh (feed false codec.pending chunk.bytes).pending := fresh_pending _ _
    generalize hd : codec.decode w chunk.address chunk.bytes false false sawError = d at *
    rw [← hp] at hfre'
    have hds : ds = d :: decodeChunks w d.codec d.sawError chunks last := by
      simp only [ds, decodeChunks, hd]
    obtain ⟨c, cs, hcs⟩ : ∃ c cs, chunks.map Chunk.bytes ++ [last.bytes] = c :: cs :=
      exists_cons_of_ne_nil (by simp)
    obtain ⟨ht, hes, hbs⟩ := decodeChunks_refines w last chunks d.codec d.sawError hok' hfre' c cs hcs
    rw [hds, hcs, stream_call, ← hp]
    refine ⟨?_, ?_, ?_⟩
    · rw [units_append, ← ht, ← hs]
      rfl
    · rw [decodedError_cons _ (decodeChunks_ne_nil _ _ _ _ _), hes, he, contains_append, Bool.or_assoc]
    · intro x hx
      rcases mem_cons.mp hx with rfl | hx
      · exact hb
      · exact hbs x hx

/-! ## Against the walk over the whole string -/

/-- Three bytes are in the partial sequence and the first two are a character: the third one is
    lost, and the code goes on with the first one in its place. -/
def lostByte : List UInt8 → Option UInt8
  | [a, b, x] => if scalar [a, b] = none then none else some x
  | _ => none

/-- The walk over the whole string finds the same text with `a` in the place of `x`. -/
def LossHarmless (a x : UInt8) (later : List UInt8) : Prop :=
  x = a ∨ (0x80 ≤ x.toNat ∧ ∀ y ∈ later.head?, isTail y = false)

/-- A byte lost on the way, the byte found in its place, and the bytes after it. -/
structure Loss where
  found : UInt8
  lost : UInt8
  later : List UInt8

def Loss.Harmless (l : Loss) : Prop := LossHarmless l.found l.lost l.later

def losses (q s : List UInt8) (rest : List (List UInt8)) : List Loss :=
  match _h : q ++ s with
  | [] =>
    match rest with
    | [] => []
    | c :: rest => losses [] c rest
  | b :: _ =>
    if nonASCIISequenceLength b > (q ++ s).length then
      match rest with
      | [] => losses (dropCut q s).1 (dropCut q s).2 []
      | c :: rest => losses (q ++ s) c rest
    else
      (lostByte q).toList.map (fun x => ⟨b, x, s ++ rest.flatten⟩) ++
        losses (turn b q s).2.1 (turn b q s).2.2 rest
termination_by weight q s + restWeight rest
decreasing_by
  · exact _h ▸ weight_next q s c rest
  · exact Nat.add_lt_add_right ((uses_dropCut _h).weight_lt Nat.one_pos) _
  · exact weight_next q s c rest
  · exact Nat.add_lt_add_right (weight_turn _h (not_lt.mp ‹_›)) _

def consumed (b : UInt8) (l : List UInt8) : Nat :=
  if isASCII b ∨ scalar (l.take (nonASCIISequenceLength b)) = none then 1
  else nonASCIISequenceLength b

variable {x : UInt8}

section Turn

variable {b : UInt8} {t q s : List UInt8}

theorem leadLength_of_pos (h : 0 < nonASCIISequenceLength b) : leadLength b = nonASCIISequenceLength b := by
  rw [nonASCIISequenceLength_eq] at h ⊢
  rw [leadLength]
  split_ifs at h ⊢ <;> omega

section

variable (h : q ++ s = b :: t)
include h

theorem decode_turn (hlen : nonASCIISequenceLength b ≤ (q ++ s).length)
    (r : List UInt8) : decode (q ++ s ++ r)
      = (turn b q s).1 :: decode ((q ++ s).drop (consumed b (q ++ s)) ++ r) := by
  unfold consumed
  by_cases hasc : isASCII b
  · have hl : leadLength b = 1 := if_pos (isASCII_iff.mp hasc)
    have hv : scalar ((b :: (t ++ r)).take (leadLength b)) = some b.toNat := by
      rw [hl]
      exact scalar_ascii (isASCII_iff.mp hasc)
    rw [turn_ascii hasc, if_pos (Or.inl hasc), h, cons_append, decode_cons_some hv, hl]
    rfl
  · have hsame : scalar ((b :: (t ++ r)).take (leadLength b))
        = scalar ((q ++ s).take (nonASCIISequenceLength b)) := by
      rw [nonASCIISequenceLength_eq_leadLength hasc, ← cons_append, ← h, take_append_of_le_length hlen]
    cases hv : scalar ((q ++ s).take (nonASCIISequenceLength b)) with
    | none =>
      rw [hv] at hsame
      rw [turn_error hasc hv, if_pos (Or.inr rfl), h, cons_append, decode_cons_none hsame]
      rfl
    | some v =>
      rw [hv] at hsame
      have hl : leadLength b = nonASCIISequenceLength b := leadLength_of_pos (pos_of_scalar_take hv)
      rw [turn_character hasc hv, if_neg (by simpa using hasc), h, cons_append, decode_cons_some hsame,
        hl, ← cons_append, ← h, drop_append_of_le_length hlen]

theorem decode_cut (hlen : (q ++ s).length < nonASCIISequenceLength b) :
    decode (q ++ s) = none :: decode t := by
  have hasc : ¬ isASCII b := by
    intro hasc
    rw [nonASCIISequenceLength_of_isASCII hasc] at hlen
    exact Nat.not_lt_zero _ hlen
  rw [h] at hlen ⊢
  refine decode_cons_none ?_
  rw [nonASCIISequenceLength_eq_leadLength hasc]
  cases hv : scalar ((b :: t).take (nonASCIISequenceLength b)) with
  | none => rfl
  | some v =>
    rw [take_of_length_le hlen.le] at hv
    have hl := length_of_scalar hv
    have hlead : leadLength b = nonASCIISequenceLength b := leadLength_of_pos (by omega)
    omega

theorem dropCut_append : (dropCut q s).1 ++ (dropCut q s).2 = t := by
  unfold dropCut
  split_ifs with hq
  · rw [hq, nil_append] at h
    rw [h, append_nil, tail_cons]
  · cases q with
    | nil => exact absurd rfl hq
    | cons a q => exact (List.cons.inj h).2

theorem turn_append (hlen : nonASCIISequenceLength b ≤ (q ++ s).length)
    (hq : q.length ≤ 3) (hlost : lostByte q = none) :
    (turn b q s).2.1 ++ (turn b q s).2.2 = (q ++ s).drop (consumed b (q ++ s)) := by
  have htail : t = (q ++ s).drop 1 := by rw [h]; rfl
  unfold consumed
  by_cases hasc : isASCII b
  · rw [turn_ascii hasc, if_pos (Or.inl hasc), ← htail]
    exact dropOne_append h
  · have happ := fillUp_append (nonASCIISequenceLength b) q s
    cases hv : scalar ((q ++ s).take (nonASCIISequenceLength b)) with
    | none =>
      rw [turn_error hasc hv, if_pos (Or.inr rfl), ← htail]
      exact dropOne_append (happ.trans h)
    | some v =>
      rw [turn_character hasc hv, if_neg (by simpa using hasc), ← happ]
      simp only [takeOff]
      split_ifs with hf
      · simp [hf]
      · have hne : q ≠ [] := by
          rintro rfl
          exact hf (by rw [fillUp_nil])
        have hfl := fillUp_length hne hlen
        by_cases hlong : q.length ≤ nonASCIISequenceLength b
        · have hfl' : (fillUp (nonASCIISequenceLength b) q s).1.length = nonASCIISequenceLength b := by omega
          rw [hfl', Nat.sub_self, take_zero, nil_append, drop_left' hfl']
        · -- A character of two bytes with one more: exactly what `lostByte` excludes.
          have h2 : nonASCIISequenceLength b = 2 := by
            have hpos := pos_of_scalar_take hv
            rw [nonASCIISequenceLength_eq] at hlong hpos ⊢
            split_ifs at hlong hpos ⊢ <;> omega
          rw [h2] at hlong hv
          obtain ⟨a, c, x, rfl⟩ := length_eq_three.mp (show q.length = 3 by omega)
          simp only [lostByte, ite_eq_left_iff, reduceCtorEq, imp_false, not_not] at hlost
          exact absurd hlost (by rw [show scalar [a, c] = some v from hv]; simp)

end

theorem lead_of_pair {c : UInt8} {v : Nat} (h : scalar [b, c] = some v) :
    (0xC2 ≤ b.toNat ∧ b.toNat ≤ 0xDF) ∧ isTail c = true ∧ v = (b.toNat - 0xC0) * 0x40 + (c.toNat - 0x80) := by
  simp only [scalar, ite_none_right_eq_some, Option.some.injEq] at h
  obtain ⟨⟨hb, hs⟩, hv⟩ := h
  rw [isSecond_of_lt (by omega)] at hs
  exact ⟨hb, hs, hv.symm⟩

theorem lead_facts (h : 0xC2 ≤ b.toNat ∧ b.toNat ≤ 0xDF) : ¬ isASCII b ∧ nonASCIISequenceLength b = 2 := by
  refine ⟨not_isASCII_iff.mpr (by omega), ?_⟩
  rw [nonASCIISequenceLength_eq]
  split_ifs <;> omega

theorem turn_lost (h : q ++ s = b :: t) (hlost : lostByte q = some x) :
    (∃ c, q = [b, c, x]) ∧ (0xC2 ≤ b.toNat ∧ b.toNat ≤ 0xDF) ∧
      (turn b q s).2 = ([b], s) ∧ (q ++ s).drop (consumed b (q ++ s)) = x :: s := by
  match q, hlost with
  | [a, c, y], hlost =>
    simp only [lostByte, ite_none_left_eq_some, Option.some.injEq] at hlost
    obtain ⟨hne, rfl⟩ := hlost
    obtain ⟨v, hv⟩ := ne_none_iff_exists'.mp hne
    obtain rfl : a = b := (List.cons.inj h).1
    obtain ⟨hb, -, -⟩ := lead_of_pair hv
    obtain ⟨hasc, h2⟩ := lead_facts hb
    have hv' : scalar (([a, c, y] ++ s).take (nonASCIISequenceLength a)) = some v := by
      rw [h2]
      exact hv
    refine ⟨⟨c, rfl⟩, hb, ?_, ?_⟩
    · rw [turn_character hasc hv', h2]
      rfl
    · rw [consumed, hv', if_neg (by simpa using hasc), h2]
      rfl

end Turn

/-! ## Lost bytes -/

variable {a b : UInt8} {later q s : List UInt8} {v : Nat} {e : Option Nat} {es : List (Option Nat)}

theorem decode_error (ha : 0x80 ≤ a.toNat)
    (h : ∀ y ∈ later.head?, isTail y = false) : decode (a :: later) = none :: decode later := by
  refine decode_cons_none ?_
  have hlead : 2 ≤ leadLength a := by
    rw [leadLength]
    split_ifs <;> omega
  cases hv : scalar ((a :: later).take (leadLength a)) with
  | none => rfl
  | some v =>
    exfalso
    obtain ⟨n, hn⟩ : ∃ n, leadLength a = n + 2 := ⟨leadLength a - 2, by omega⟩
    rw [hn] at hv
    cases later with
    | nil =>
      simp [scalar] at hv
      omega
    | cons y later =>
      have hy := h y rfl
      -- Every row of the table asks for a second byte in `80..BF`.
      have hsec : isSecond a y = false := by
        rw [← Bool.not_eq_true, isTail_iff] at hy
        rw [← Bool.not_eq_true, isSecond_iff]
        exact fun hs => hy hs.1
      rw [take_succ_cons, take_succ_cons] at hv
      generalize later.take n = rest at hv
      rcases rest with _ | ⟨_, _ | ⟨_, _ | ⟨_, rest⟩⟩⟩ <;> simp [scalar, hsec] at hv

theorem decode_of_lossHarmless (ha : 0x80 ≤ a.toNat)
    (h : LossHarmless a x later) : decode (x :: later) = decode (a :: later) := by
  rcases h with rfl | ⟨hx, hy⟩
  · rfl
  · rw [decode_error hx hy, decode_error ha hy]

def firstUnit (e : Option Nat) : Option UInt16 := (eventUnits e).head?

theorem head_units (e : Option Nat) (es : List (Option Nat)) : (units (e :: es)).head? = firstUnit e := by
  rw [units_cons, List.head?_append_of_ne_nil _ (length_pos_iff.mp (eventUnits_length_pos e)), firstUnit]

theorem stream_head (q s : List UInt8) (rest : List (List UInt8)) :
    (stream q s rest).head? = (decode (q ++ s ++ rest.flatten)).head? := by
  fun_induction stream q s rest with
  | case1 q s h =>
    rw [h]
    simp
  | case2 q s h c rest ih =>
    rw [ih, h]
    simp
  | case3 q s b t h hcut ih =>
    rw [flatten_nil, append_nil, decode_cut h hcut]
    rfl
  | case4 q s b t h hcut c rest ih =>
    rw [ih]
    simp
  | case5 q s rest b t h hcut ih =>
    rw [decode_turn h (by omega)]
    rfl

theorem decode_head (a : UInt8) (l : List UInt8) :
    (decode (a :: l)).head? = some (scalar ((a :: l).take (leadLength a))) := by
  cases hv : scalar ((a :: l).take (leadLength a)) with
  | none => rw [decode_cons_none hv]; rfl
  | some v => rw [decode_cons_some hv]; rfl

def firstUnitValue (e : Option Nat) : Nat := ((firstUnit e).map UInt16.toNat).getD 0

theorem firstUnitValue_none : firstUnitValue none = 0xFFFD := by decide

theorem firstUnitValue_of_lt (h : v < 0x10000) : firstUnitValue (some v) = v := by
  have hunit : firstUnit (some v) = some v.toUInt16 := by
    rw [firstUnit, eventUnits, utf16, if_pos h, List.head?_cons]
  rw [firstUnitValue, hunit, map_some, getD_some]
  exact UInt16.toNat_ofNat_of_lt' h

theorem firstUnitValue_ge (h : 0x800 ≤ v) (h' : v ≤ 0x10FFFF) : 0x800 ≤ firstUnitValue (some v) := by
  by_cases hv : v < 0x10000
  · rw [firstUnitValue_of_lt hv]
    exact h
  · have hunit : firstUnit (some v) = some (0xD800 + (v - 0x10000) / 0x400).toUInt16 := by
      rw [firstUnit, eventUnits, utf16, if_neg hv, List.head?_cons]
    have hlt : 0xD800 + (v - 0x10000) / 0x400 < UInt16.size := by
      rw [show UInt16.size = 65536 from rfl]
      omega
    rw [firstUnitValue, hunit, map_some, getD_some]
    exact (UInt16.toNat_ofNat_of_lt' hlt).symm ▸ (by omega)

theorem scalar_ge {c : UInt8} {l : List UInt8} (h : scalar (a :: b :: c :: l) = some v) :
    0x800 ≤ v ∧ v ≤ 0x10FFFF := by
  match l, h with
  | [], h =>
    simp only [scalar, isSecond_iff, isTail_iff, ite_none_right_eq_some, Option.some.injEq] at h
    omega
  | [d], h =>
    simp only [scalar, isSecond_iff, isTail_iff, ite_none_right_eq_some, Option.some.injEq] at h
    omega
  | _ :: _ :: _, h => exact absurd h (by simp [scalar])

theorem first_of_lead (later : List UInt8) (ha : 0xC2 ≤ a.toNat ∧ a.toNat ≤ 0xDF) :
    let e := scalar ((a :: later).take (leadLength a))
    (e = none ∧ ∀ y ∈ later.head?, isTail y = false) ∨
      ∃ y ∈ later.head?, isTail y = true ∧ e = some ((a.toNat - 0xC0) * 0x40 + (y.toNat - 0x80)) := by
  obtain ⟨-, h2⟩ := lead_facts ha
  have hl : leadLength a = 2 := by rw [leadLength_of_pos (by omega), h2]
  rw [hl]
  cases later with
  | nil =>
    refine Or.inl ⟨?_, by simp⟩
    simp only [take_succ_cons, take_nil, scalar]
    rw [if_neg (by omega)]
  | cons y later =>
    have hs : isSecond a y = isTail y := isSecond_of_lt (by omega)
    simp only [take_succ_cons, take_zero, scalar, hs, List.head?_cons]
    cases hy : isTail y with
    | true => exact Or.inr ⟨y, rfl, hy, by rw [if_pos ⟨ha, rfl⟩]⟩
    | false => exact Or.inl ⟨by rw [if_neg (by simp)], fun z hz => by cases hz; exact hy⟩

/-- **A harmful loss shows in the next code unit.** -/
theorem firstUnitValue_ne_of_harm (ha : 0xC2 ≤ a.toNat ∧ a.toNat ≤ 0xDF) (h : ¬ LossHarmless a x later) :
    firstUnitValue (scalar ((a :: later).take (leadLength a)))
      ≠ firstUnitValue (scalar ((x :: later).take (leadLength x))) := by
  rw [LossHarmless, not_or, not_and_or, not_le] at h
  obtain ⟨hne, hx⟩ := h
  have hval : x.toNat ≠ a.toNat := fun he => hne (UInt8.toNat_inj.mp he)
  by_cases hasc : x.toNat < 0x80
  · -- The byte itself is the code unit that is missing.
    have hlx : leadLength x = 1 := if_pos hasc
    have hex : scalar ((x :: later).take (leadLength x)) = some x.toNat := by
      rw [hlx]
      exact scalar_ascii hasc
    rw [hex, firstUnitValue_of_lt (by omega)]
    rcases first_of_lead later ha with ⟨he, -⟩ | ⟨y, -, hy, he⟩
    · rw [he, firstUnitValue_none]
      omega
    · have := y.toNat_lt
      rw [he, firstUnitValue_of_lt (by omega)]
      omega
  · rcases hx with hx | hx
    · exact absurd hx hasc
    rcases first_of_lead later ha with ⟨-, hy⟩ | ⟨y, hmem, hy, he⟩
    · exact absurd hy hx
    -- The next byte makes a character with `a`, and another one or none with `x`.
    have hy' := hy
    rw [isTail_iff] at hy'
    rw [he, firstUnitValue_of_lt (by omega)]
    cases hex : scalar ((x :: later).take (leadLength x)) with
    | none =>
      rw [firstUnitValue_none]
      omega
    | some v =>
      by_cases hlead : 0xC2 ≤ x.toNat ∧ x.toNat ≤ 0xDF
      · rcases first_of_lead later hlead with ⟨hn, -⟩ | ⟨z, hz, hz', hev⟩
        · rw [hn] at hex
          exact absurd hex (by simp)
        · obtain rfl : y = z := mem_unique hmem hz
          rw [← hex, hev, firstUnitValue_of_lt (by omega)]
          omega
      · have hbig : 0x800 ≤ v ∧ v ≤ 0x10FFFF := by
          obtain ⟨n, hn⟩ : ∃ n, leadLength x = n + 1 := Nat.exists_eq_succ_of_ne_zero (leadLength_pos x).ne'
          rw [hn, take_succ_cons] at hex
          generalize later.take n = rest at hex
          rcases rest with _ | ⟨c, _ | ⟨d, rest⟩⟩
          · simp [scalar] at hex
            omega
          · exact absurd (lead_of_pair hex).1 hlead
          · exact scalar_ge hex
        have := firstUnitValue_ge hbig.1 hbig.2
        omega

/-! ## The text and the error flag -/

theorem lostByte_of_length (h : q.length ≤ 2) : lostByte q = none := by
  match q, h with
  | [], _ => rfl
  | [_], _ => rfl
  | [_, _], _ => rfl

theorem dropOne_length_le (q s : List UInt8) : (dropOne q s).1.length ≤ q.length - 1 := by
  cases q <;> simp [dropOne]

theorem turn_length_le (hlen : nonASCIISequenceLength b ≤ (q ++ s).length) (hq : q.length ≤ 3) :
    (turn b q s).2.1.length ≤ if (turn b q s).1 = none then 3 else 2 := by
  have hfill : (fillUp (nonASCIISequenceLength b) q s).1.length ≤ 4 := by
    have := nonASCIISequenceLength_le b
    by_cases hn : q = []
    · simp [hn]
    · rw [fillUp_length hn hlen]
      omega
  by_cases hasc : isASCII b
  · rw [turn_ascii hasc, if_neg (by simp)]
    exact (dropOne_length_le q s).trans (by omega)
  · cases hv : scalar ((q ++ s).take (nonASCIISequenceLength b)) with
    | none =>
      rw [turn_error hasc hv, if_pos rfl]
      exact (dropOne_length_le _ _).trans (by omega)
    | some v =>
      have hpos := pos_of_scalar_take hv
      have h2 : 2 ≤ nonASCIISequenceLength b := by
        rw [nonASCIISequenceLength_eq] at hpos ⊢
        split_ifs at hpos ⊢ <;> omega
      rw [turn_character hasc hv, if_neg (by simp)]
      unfold takeOff
      split_ifs
      · simp
      · simp
        omega

theorem dropCut_length_le {t : List UInt8} (h : q ++ s = b :: t)
    (hlen : (q ++ s).length < nonASCIISequenceLength b) : (dropCut q s).1.length ≤ 3 := by
  have hle := nonASCIISequenceLength_le b
  have hd := congrArg List.length (dropCut_append h)
  rw [h] at hlen
  simp at hd hlen
  omega

theorem units_cons_inj {es' : List (Option Nat)} : units (e :: es) = units (e :: es') ↔ units es = units es' := by
  rw [units_cons, units_cons, append_right_inj]

theorem head_units_of_head (h : es.head? = some e) : (units es).head? = firstUnit e := by
  cases es with
  | nil => exact absurd h (by simp)
  | cons e' es =>
    obtain rfl : e' = e := by simpa using h
    exact head_units e' es

/-- **The text of a walk is right exactly when its losses are harmless.** -/
theorem units_stream_iff (q s : List UInt8) (rest : List (List UInt8)) (hq : q.length ≤ 3) :
    units (stream q s rest) = units (decode (q ++ s ++ rest.flatten)) ↔ ∀ l ∈ losses q s rest, l.Harmless := by
  fun_induction losses q s rest with
  | case1 q s h =>
    obtain ⟨rfl, rfl⟩ := append_eq_nil_iff.mp h
    simp [stream_nil]
  | case2 q s h c rest ih =>
    obtain ⟨rfl, rfl⟩ := append_eq_nil_iff.mp h
    rw [stream_next, ← ih (by simp)]
    simp
  | case3 q s b t h hcut ih =>
    rw [stream_cut_last h hcut, ← ih (dropCut_length_le h hcut), dropCut_append h,
      flatten_nil, append_nil, append_nil, decode_cut h hcut, units_cons_inj]
  | case4 q s b t h hcut c rest ih =>
    have hle := nonASCIISequenceLength_le b
    rw [stream_cut h hcut, ← ih (by omega)]
    simp
  | case5 q s rest b t h hcut ih =>
    have hlen : nonASCIISequenceLength b ≤ (q ++ s).length := by omega
    rw [stream_turn h hlen, decode_turn h hlen, units_cons_inj]
    cases hlost : lostByte q with
    | none =>
      rw [← turn_append h hlen hq hlost, ih ((turn_length_le hlen hq).trans (by split_ifs <;> omega))]
      simp
    | some x =>
      obtain ⟨-, hb, hturn, hdrop⟩ := turn_lost h hlost
      rw [hturn] at ih ⊢
      rw [hdrop]
      simp only [toList_some, map_cons, map_nil, singleton_append,
        forall_mem_cons, Loss.Harmless]
      by_cases hharm : LossHarmless b x (s ++ rest.flatten)
      · have hih := ih (by simp)
        rw [append_assoc] at hih
        rw [cons_append, decode_of_lossHarmless (by omega) hharm]
        simp only [hharm, true_and]
        exact hih
      · simp only [hharm, false_and, iff_false]
        -- The walk goes on with the right event for the byte it has found.
        intro he
        have h1 := head_units_of_head ((stream_head [b] s rest).trans (by
          rw [append_assoc]
          exact decode_head b (s ++ rest.flatten)))
        have h2 := head_units_of_head (decode_head x (s ++ rest.flatten))
        rw [he, cons_append, h2] at h1
        exact firstUnitValue_ne_of_harm hb hharm (by rw [firstUnitValue, firstUnitValue, h1])

theorem contains_stream (q s : List UInt8) (rest : List (List UInt8)) (hq : q.length ≤ 3)
    (hlost : lostByte q = none) :
    (stream q s rest).contains none = (decode (q ++ s ++ rest.flatten)).contains none := by
  fun_induction stream q s rest with
  | case1 q s h =>
    rw [h]
    simp
  | case2 q s h c rest ih =>
    rw [ih (by simp) rfl, h]
    simp
  | case3 q s b t h hcut ih =>
    rw [flatten_nil, append_nil, decode_cut h hcut]
    simp
  | case4 q s b t h hcut c rest ih =>
    have hle := nonASCIISequenceLength_le b
    have hn : lostByte (q ++ s) = none := by
      cases hx : lostByte (q ++ s) with
      | none => rfl
      | some x =>
        obtain ⟨⟨y, hy⟩, hb, -⟩ := turn_lost (q := q ++ s) (s := []) (t := t) (by simpa using h) hx
        rw [hy, (lead_facts hb).2] at hcut
        exact absurd hcut (by simp)
    rw [ih (by omega) hn]
    simp
  | case5 q s rest b t h hcut ih =>
    have hlen : nonASCIISequenceLength b ≤ (q ++ s).length := by omega
    have hle := turn_length_le hlen hq
    rw [decode_turn h hlen, ← turn_append h hlen hq hlost, contains_cons, contains_cons]
    cases he : (turn b q s).1 with
    | none => simp
    | some v =>
      rw [he, if_neg (by simp)] at hle
      rw [ih (by omega) (lostByte_of_length hle)]

theorem turn_nil (b : UInt8) (s : List UInt8) : (turn b [] s).2.1 = [] := by
  unfold turn
  split_ifs
  · rfl
  · dsimp only
    split <;> simp [takeOff, dropOne]

theorem turn_of_nil (b : UInt8) (q : List UInt8) : (turn b q []).2.2 = [] := by
  have hdrop : ∀ q : List UInt8, (dropOne q []).2 = [] := by
    intro q
    cases q <;> rfl
  have hfill : (fillUp (nonASCIISequenceLength b) q []).2 = [] := by
    unfold fillUp
    split_ifs <;> simp
  unfold turn
  split_ifs
  · exact hdrop q
  · dsimp only
    rw [hfill]
    split
    · unfold takeOff
      split_ifs <;> simp
    · exact hdrop _

/-- The walk over a string in one piece is the walk over the whole string: a cut-off sequence at its
    end leaves too few bytes for a loss. -/
theorem stream_single (q s : List UInt8) (hq : q = [] ∨ q.length ≤ 2 ∧ s = []) :
    stream q s [] = decode (q ++ s) := by
  generalize hr : ([] : List (List UInt8)) = rest
  fun_induction stream q s rest with
  | case1 q s h => rw [h, decode_nil]
  | case2 q s h c rest ih => exact absurd hr (by simp)
  | case3 q s b t h hcut ih =>
    rw [decode_cut h hcut, ih ?_ rfl, dropCut_append h]
    have hle := nonASCIISequenceLength_le b
    have hd := congrArg List.length (dropCut_append h)
    rw [h] at hcut
    simp only [length_append, length_cons] at hd hcut
    refine Or.inr ⟨by omega, ?_⟩
    rcases hq with rfl | ⟨-, rfl⟩
    · rfl
    · unfold dropCut
      split_ifs <;> rfl
  | case4 q s b t h hcut c rest ih => exact absurd hr (by simp)
  | case5 q s rest b t h hcut ih =>
    subst hr
    have hlen : nonASCIISequenceLength b ≤ (q ++ s).length := by omega
    have hq3 : q.length ≤ 2 := by rcases hq with rfl | ⟨hq, -⟩ <;> simp_all
    rw [ih ?_ rfl, turn_append h hlen (by omega) (lostByte_of_length hq3)]
    · have := decode_turn h hlen []
      rw [append_nil, append_nil] at this
      exact this.symm
    · rcases hq with rfl | ⟨hq, rfl⟩
      · exact Or.inl (turn_nil b s)
      · have := (uses_turn h hlen).total
        rw [length_nil] at this
        exact Or.inr ⟨by omega, turn_of_nil b q⟩

end WebV8
