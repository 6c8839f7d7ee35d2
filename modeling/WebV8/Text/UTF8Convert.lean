import WebV8.Text.UTF8
import WebV8.Text.TextCodecUTF8Stream

/-!
# The converter and the codec

`isLegalUTF8` replaces its lower bound for the second byte by a special one after `E0` and `F0`, and
by an upper bound after `ED` and `F4`, where the lower bound is then missing. So besides the
well-formed sequences it accepts `ED` and `F4` followed by a byte below `80` (`overreadValue`).
`convertUTF8ToUTF16` agrees with the table of well-formed sequences, and with `TextCodecUTF8`,
exactly on the strings where no such sequence decides the outcome.
-/

namespace WebV8

open Lib Lib.Utf8 List Option

/-! ## Sequences -/

theorem inlineUTF8SequenceLength_eq (b : UInt8) :
    inlineUTF8SequenceLength b = if b.toNat < 0x80 then 1 else if b.toNat < 0xC0 then 0
      else if b.toNat < 0xE0 then 2 else if b.toNat < 0xF0 then 3 else if b.toNat < 0xF8 then 4 else 0 := by
  have h : ∀ n : Fin 256, (if decide (n.val < 0x80) then 1
      else if n.val &&& 0xC0 ≠ 0xC0 then 0 else if n.val &&& 0xE0 = 0xC0 then 2
      else if n.val &&& 0xF0 = 0xE0 then 3 else if n.val &&& 0xF8 = 0xF0 then 4 else 0) =
      if n.val < 0x80 then 1 else if n.val < 0xC0 then 0 else if n.val < 0xE0 then 2
      else if n.val < 0xF0 then 3 else if n.val < 0xF8 then 4 else 0 := by decide +kernel
  exact h ⟨b.toNat, b.toNat_lt⟩

/-- The value read from a sequence with a missing lower bound. -/
def overreadValue : List UInt8 → Option Nat
  | [a, b, c] =>
    if a.toNat = 0xED ∧ b.toNat < 0x80 ∧ isTail c then
      some (0xB000 + b.toNat * 0x40 + (c.toNat - 0x80))
    else none
  | [a, b, c, d] =>
    if a.toNat = 0xF4 ∧ b.toNat < 0x80 ∧ isTail c ∧ isTail d then
      some (0x80000 + b.toNat * 0x1000 + (c.toNat - 0x80) * 0x40 + (d.toNat - 0x80))
    else none
  | _ => none

def acceptedValue (seq : List UInt8) : Option Nat := (scalar seq).or (overreadValue seq)

/-- What `isLegalUTF8` and `readUTF8Sequence` make of a sequence. -/
structure Reads (source : List UInt8) (n : Nat) (v : Nat) : Prop where
  legal : isLegalUTF8 source n = true
  value : readUTF8Sequence source n = v
  scalar : v < 0xD800 ∨ 0xE000 ≤ v ∧ v ≤ 0x10FFFF

variable {a b : UInt8} {t seq bytes source : List UInt8} {v : Nat} {vs : List Nat} {target : List UInt16}
  {c : Conversion}

theorem reads_of_value {n w : Nat} {P : Prop} [Decidable P]
    (hv : acceptedValue seq = if P then some w else none) (hleg : isLegalUTF8 source n = true ↔ P)
    (hread : P → readUTF8Sequence source n = w ∧ (w < 0xD800 ∨ 0xE000 ≤ w ∧ w ≤ 0x10FFFF)) :
    match acceptedValue seq with
    | some v => Reads source n v
    | none => isLegalUTF8 source n = false := by
  rw [hv]
  split_ifs with h
  · exact ⟨hleg.mpr h, (hread h).1, (hread h).2⟩
  · rw [← Bool.not_eq_true, hleg]
    exact h

theorem reads_two (ha : 0xC0 ≤ a.toNat) (ha' : a.toNat < 0xE0) :
    match acceptedValue [a, b] with
    | some v => Reads (a :: b :: t) 2 v
    | none => isLegalUTF8 (a :: b :: t) 2 = false := by
  have hs : isSecond a b = isTail b := isSecond_of_lt ha'
  refine reads_of_value (P := (0xC2 ≤ a.toNat ∧ a.toNat ≤ 0xDF) ∧ isTail b = true)
    (w := (a.toNat - 0xC0) * 0x40 + (b.toNat - 0x80)) ?_ ?_ ?_
  · simp [acceptedValue, Utf8.scalar, overreadValue, hs]
  · simp only [isLegalUTF8, getD_cons_zero, getD_cons_succ, isTail]
    rw [if_neg (by omega : ¬ a.toNat = 0xE0), if_neg (by omega : ¬ a.toNat = 0xED),
      if_neg (by omega : ¬ a.toNat = 0xF0), if_neg (by omega : ¬ a.toNat = 0xF4)]
    simp
    omega
  · rintro ⟨-, hb⟩
    rw [isTail_iff] at hb
    simp only [readUTF8Sequence, take_succ_cons, take_zero, foldl_cons, foldl_nil,
      Nat.shiftLeft_eq, offsetsFromUTF8, Nat.reduceSub, getD_cons_succ, getD_cons_zero]
    omega

theorem reads_three {c : UInt8} (ha : 0xE0 ≤ a.toNat) (ha' : a.toNat < 0xF0) :
    match acceptedValue [a, b, c] with
    | some v => Reads (a :: b :: c :: t) 3 v
    | none => isLegalUTF8 (a :: b :: c :: t) 3 = false := by
  refine reads_of_value (P := isTail c = true ∧ (isSecond a b = true ∨ a.toNat = 0xED ∧ b.toNat < 0x80))
    (w := (a.toNat - 0xE0) * 0x1000 + b.toNat * 0x40 + (c.toNat - 0x80) - 0x2000) ?_ ?_ ?_
  · simp only [acceptedValue, Utf8.scalar, overreadValue, isSecond_iff, isTail_iff]
    split_ifs <;> simp only [some_or, none_or, Option.some.injEq, reduceCtorEq] <;> omega
  · simp only [isLegalUTF8, getD_cons_zero, getD_cons_succ, isSecond_iff, isTail_iff]
    rw [if_neg (by omega : ¬ a.toNat = 0xF0), if_neg (by omega : ¬ a.toNat = 0xF4)]
    split_ifs <;> simp only [Bool.or_eq_true, Bool.and_eq_true, Bool.not_eq_true',
      decide_eq_false_iff_not, decide_eq_true_eq, false_iff] at * <;> omega
  · simp only [isSecond_iff, isTail_iff, readUTF8Sequence, take_succ_cons, take_zero,
      foldl_cons, foldl_nil, Nat.shiftLeft_eq, offsetsFromUTF8, Nat.reduceSub, getD_cons_succ,
      getD_cons_zero]
    omega

theorem reads_four {c d : UInt8} (ha : 0xF0 ≤ a.toNat) :
    match acceptedValue [a, b, c, d] with
    | some v => Reads (a :: b :: c :: d :: t) 4 v
    | none => isLegalUTF8 (a :: b :: c :: d :: t) 4 = false := by
  refine reads_of_value (P := (isTail c = true ∧ isTail d = true) ∧
      (a.toNat ≤ 0xF4 ∧ isSecond a b = true ∨ a.toNat = 0xF4 ∧ b.toNat < 0x80))
    (w := (a.toNat - 0xF0) * 0x40000 + b.toNat * 0x1000 + (c.toNat - 0x80) * 0x40 + (d.toNat - 0x80) - 0x80000) ?_ ?_ ?_
  · simp only [acceptedValue, Utf8.scalar, overreadValue, isSecond_iff, isTail_iff]
    split_ifs <;> simp only [some_or, none_or, Option.some.injEq, reduceCtorEq] <;> omega
  · simp only [isLegalUTF8, getD_cons_zero, getD_cons_succ, isSecond_iff, isTail_iff]
    rw [if_neg (by omega : ¬ a.toNat = 0xE0), if_neg (by omega : ¬ a.toNat = 0xED)]
    split_ifs <;> simp only [Bool.or_eq_true, Bool.and_eq_true, Bool.not_eq_true',
      decide_eq_false_iff_not, decide_eq_true_eq, false_iff] at * <;> omega
  · simp only [isSecond_iff, isTail_iff, readUTF8Sequence, take_succ_cons, take_zero,
      foldl_cons, foldl_nil, Nat.shiftLeft_eq, offsetsFromUTF8, Nat.reduceSub, getD_cons_succ,
      getD_cons_zero]
    omega

/-- **The converter accepts the sequences that have a value.** -/
theorem reads_spec
    (hlen : inlineUTF8SequenceLength b ≤ (b :: t).length) :
    match acceptedValue ((b :: t).take (inlineUTF8SequenceLength b)) with
    | some v => Reads (b :: t) (inlineUTF8SequenceLength b) v
    | none => isLegalUTF8 (b :: t) (inlineUTF8SequenceLength b) = false := by
  generalize hn : inlineUTF8SequenceLength b = n at *
  rw [inlineUTF8SequenceLength_eq] at hn
  split_ifs at hn with h1 h2 h3 h4 h5
  · subst hn
    have hv : acceptedValue ((b :: t).take 1) = some b.toNat := by
      rw [acceptedValue, take_succ_cons, take_zero, scalar_ascii h1]
      rfl
    rw [hv]
    refine ⟨?_, ?_, Or.inl (by omega)⟩
    · simp only [isLegalUTF8, getD_cons_zero]
      rw [if_neg (by simp only [Bool.and_eq_true, decide_eq_true_eq]; omega)]
      simp
      omega
    · simp [readUTF8Sequence, offsetsFromUTF8]
  · subst hn
    rfl
  · subst hn
    rcases t with _ | ⟨c, t⟩
    · simp at hlen
    · exact reads_two (by omega) (by omega)
  · subst hn
    rcases t with _ | ⟨c, _ | ⟨d, t⟩⟩
    iterate 2 simp at hlen
    exact reads_three (by omega) (by omega)
  · subst hn
    rcases t with _ | ⟨c, _ | ⟨d, _ | ⟨e, t⟩⟩⟩
    iterate 3 simp at hlen
    exact reads_four (by omega)
  · subst hn
    rfl

theorem length_of_acceptedValue (h : acceptedValue (b :: t) = some v) :
    (b :: t).length = inlineUTF8SequenceLength b ∧ (b :: t).length = leadLength b := by
  rw [acceptedValue, or_eq_some_iff] at h
  have hover : overreadValue (b :: t) = some v →
      (b.toNat = 0xED ∧ t.length = 2) ∨ (b.toNat = 0xF4 ∧ t.length = 3) := by
    intro h
    rcases t with _ | ⟨_, _ | ⟨_, _ | ⟨_, _ | ⟨_, t⟩⟩⟩⟩ <;>
      simp [overreadValue] at h
    · exact Or.inl ⟨h.1.1, rfl⟩
    · exact Or.inr ⟨h.1.1, rfl⟩
  have hlead : (b :: t).length = leadLength b := by
    rcases h with h | ⟨-, h⟩
    · exact length_of_scalar h
    · rw [leadLength, length_cons]
      rcases hover h with h | h
      · rw [if_neg (by omega), if_neg (by omega), if_pos (by omega), h.2]
      · rw [if_neg (by omega), if_neg (by omega), if_neg (by omega), h.2]
  refine ⟨?_, hlead⟩
  -- The two length functions differ on lead bytes without sequences only.
  have hleg : ∀ w, scalar (b :: t) = some w → 0x80 ≤ b.toNat →
      0xC2 ≤ b.toNat ∧ b.toNat ≤ 0xF4 := by
    intro w hw hb
    rcases t with _ | ⟨_, _ | ⟨_, _ | ⟨_, _ | ⟨_, t⟩⟩⟩⟩ <;>
      simp only [scalar, ite_none_right_eq_some, reduceCtorEq] at hw <;> omega
  have hran : 0x80 ≤ b.toNat → 0xC2 ≤ b.toNat ∧ b.toNat ≤ 0xF4 := by
    intro hb
    rcases h with h | ⟨-, h⟩
    · exact hleg v h hb
    · have := hover h
      omega
  rw [hlead, leadLength, inlineUTF8SequenceLength_eq]
  split_ifs <;> omega

/-! ## The converter -/

/-- The byte string splits into sequences the converter accepts, with these values. -/
inductive Accepts : List UInt8 → List Nat → Prop where
  | nil : Accepts [] []
  | cons {seq bytes : List UInt8} {v : Nat} {vs : List Nat} :
      acceptedValue seq = some v → Accepts bytes vs → Accepts (seq ++ bytes) (v :: vs)

theorem acceptedValue_nil : acceptedValue [] = none := rfl

theorem Accepts.cons_inv (h : Accepts (b :: t) vs) : ∃ v vs', vs = v :: vs' ∧
      inlineUTF8SequenceLength b ≤ (b :: t).length ∧
      acceptedValue ((b :: t).take (inlineUTF8SequenceLength b)) = some v ∧
      Accepts ((b :: t).drop (inlineUTF8SequenceLength b)) vs' := by
  generalize hbt : b :: t = l at h
  cases h with
  | nil => exact absurd hbt (by simp)
  | @cons seq bytes v vs hv hrest =>
    cases seq with
    | nil => exact absurd hv (by simp [acceptedValue_nil])
    | cons b' seq =>
      obtain ⟨rfl, rfl⟩ := List.cons.inj hbt
      have hl := (length_of_acceptedValue hv).1
      refine ⟨v, vs, rfl, ?_, ?_, ?_⟩
      · rw [← hl, length_append]
        omega
      · rw [take_left' hl, hv]
      · rw [drop_left' hl]
        exact hrest

theorem utf16_of_bmp (h : v ≤ 0xFFFF) : utf16 v = [v.toUInt16] := by
  rw [utf16, if_pos (by omega)]

theorem utf16_of_supplementary (h : 0x10000 ≤ v) : [u16Lead v, u16Trail v] = utf16 v := by
  have := appendCharacter_eq [] v
  rw [appendCharacter, if_neg (by omega)] at this
  simpa using this

theorem reads_of_legal (hlen : ¬ (b :: t).length < inlineUTF8SequenceLength b)
    (hleg : isLegalUTF8 (b :: t) (inlineUTF8SequenceLength b) = true) :
    ∃ v, acceptedValue ((b :: t).take (inlineUTF8SequenceLength b)) = some v ∧
      Reads (b :: t) (inlineUTF8SequenceLength b) v := by
  have h := reads_spec (t := t) (not_lt.mp hlen)
  cases hv : acceptedValue ((b :: t).take (inlineUTF8SequenceLength b)) with
  | some v => rw [hv] at h; exact ⟨v, rfl, h⟩
  | none => rw [hv, hleg] at h; exact absurd h (by simp)

/-- What the converter is to do with a string: the values to write, if it is to succeed. -/
structure Converts16 (source : List UInt8) (target : List UInt16) (c : Conversion) : Prop where
  accepted : ∀ vs, Accepts source vs →
    c.result = .conversionOK ∧ c.target = target ++ vs.flatMap utf16
  ok : c.result = .conversionOK → ∃ vs, Accepts source vs

theorem Converts16.fail (hc : c.result ≠ .conversionOK) (h : ∀ vs, ¬ Accepts source vs) :
    Converts16 source target c := ⟨fun vs hvs => absurd hvs (h vs), fun he => absurd he hc⟩

theorem Converts16.cons {b : UInt8} {t : List UInt8}
    {v : Nat} (hv : acceptedValue ((b :: t).take (inlineUTF8SequenceLength b)) = some v)
    (h : Converts16 ((b :: t).drop (inlineUTF8SequenceLength b)) (target ++ utf16 v) c) :
    Converts16 (b :: t) target c where
  accepted vs hvs := by
    obtain ⟨v', vs', rfl, -, hv', hrest⟩ := hvs.cons_inv
    obtain rfl : v = v' := Option.some.inj (hv.symm.trans hv')
    obtain ⟨hok, ht⟩ := h.accepted vs' hrest
    exact ⟨hok, by rw [ht]; simp⟩
  ok he := by
    obtain ⟨vs, hvs⟩ := h.ok he
    have := Accepts.cons hv hvs
    rw [take_append_drop] at this
    exact ⟨v :: vs, this⟩

theorem Accepts.nil_inv (h : Accepts [] vs) : vs = [] := by
  generalize hl : ([] : List UInt8) = l at h
  cases h with
  | nil => rfl
  | @cons seq bytes v vs hv _ =>
    cases seq with
    | nil => exact absurd hv (by simp [acceptedValue_nil])
    | cons => exact absurd hl (by simp)

theorem writeCharacter_spec (targetEnd : Nat) (strict : Bool) (target : List UInt16)
    (orAllData : UInt16) (hv : v < 0xD800 ∨ 0xE000 ≤ v ∧ v ≤ 0x10FFFF) :
    match writeCharacter targetEnd strict v target orAllData with
    | .error result => result = .targetExhausted ∧ targetEnd < target.length + (utf16 v).length
    | .ok written => written.1 = target ++ utf16 v := by
  unfold writeCharacter
  by_cases hbmp : v ≤ 0xFFFF
  · rw [utf16_of_bmp hbmp]
    by_cases hroom : target.length ≥ targetEnd
    · rw [if_pos hroom]
      exact ⟨rfl, by simpa using Nat.lt_succ_of_le hroom⟩
    · rw [if_neg hroom, if_pos (by omega), if_neg (by omega), Int.toNat_natCast]
  · rw [← utf16_of_supplementary (by omega)]
    by_cases hroom : target.length + 1 ≥ targetEnd
    · have hsho : targetEnd < target.length + [u16Lead v, u16Trail v].length := by
        simp
        omega
      split_ifs
      · exact ⟨rfl, hsho⟩
      · omega
      · omega
      · omega
      · exact ⟨rfl, hsho⟩
      · omega
      · omega
    · rw [if_neg (by omega), if_neg (by omega), if_pos (by omega), if_neg hroom]

/-- **The strict converter**, as long as the target does not run out: it succeeds on the strings that
    split into accepted sequences, and writes their values. -/
theorem convertLoop_spec (targetEnd : Nat) (source : List UInt8) (target : List UInt16)
    (orAllData : UInt16) :
    let c := convertLoop targetEnd true source target orAllData
    c.result ≠ .targetExhausted → Converts16 source target c := by
  fun_induction convertLoop targetEnd true source target orAllData with
  | case1 target orAllData =>
    intro c _
    refine ⟨fun vs hvs => ?_, fun _ => ⟨[], .nil⟩⟩
    rw [hvs.nil_inv]
    exact ⟨rfl, by simp [c]⟩
  | case2 b bs target orAllData source n hlen =>
    intro c _
    refine .fail (by simp [c]) fun vs hvs => ?_
    obtain ⟨-, -, -, hle, -⟩ := hvs.cons_inv
    exact absurd hle (not_le.mpr hlen)
  | case3 b bs target orAllData source n hlen hleg result hw =>
    obtain ⟨v, -, hr⟩ := reads_of_legal hlen hleg
    have h := writeCharacter_spec targetEnd true target orAllData hr.scalar
    rw [show readUTF8Sequence source n = _ from hr.value] at hw
    rw [hw] at h
    intro c hc
    exact absurd h.1 hc
  | case4 b bs target orAllData source n hlen hleg written hw ih =>
    obtain ⟨v, hv, hr⟩ := reads_of_legal hlen hleg
    have h := writeCharacter_spec targetEnd true target orAllData hr.scalar
    rw [show readUTF8Sequence source n = _ from hr.value] at hw
    rw [hw] at h
    intro c hc
    refine .cons hv ?_
    rw [← h]
    exact ih hc
  | case5 b bs target orAllData source n hlen hleg =>
    intro c _
    refine .fail (by simp [c]) fun vs hvs => ?_
    obtain ⟨v, vs', -, hle, hv, -⟩ := hvs.cons_inv
    have h := reads_spec hle
    rw [hv] at h
    exact absurd h.legal hleg

/-! ## Against the table and the codec -/

/-- The string splits into accepted sequences, and one of them is not well-formed. -/
def Overaccepted (bytes : List UInt8) : Prop :=
  ∃ seqs : List (List UInt8), bytes = seqs.flatten ∧
    (∀ seq ∈ seqs, scalar seq ≠ none ∨ overreadValue seq ≠ none) ∧
    ∃ seq ∈ seqs, overreadValue seq ≠ none

theorem scalar_of_overread (h : overreadValue seq ≠ none) : scalar seq = none := by
  match seq, h with
  | [a, b, c], h =>
    simp only [overreadValue, ne_eq, ite_eq_right_iff, reduceCtorEq, imp_false, not_not] at h
    rw [scalar, if_neg]
    rw [isSecond_iff]
    omega
  | [a, b, c, d], h =>
    simp only [overreadValue, ne_eq, ite_eq_right_iff, reduceCtorEq, imp_false, not_not] at h
    rw [scalar, if_neg]
    rw [isSecond_iff]
    omega

theorem acceptedValue_ne_none : acceptedValue seq ≠ none ↔ scalar seq ≠ none ∨ overreadValue seq ≠ none := by
  rw [acceptedValue, ne_eq, or_eq_none_iff, not_and_or]

theorem accepts_iff_split : (∃ vs, Accepts bytes vs) ↔
    ∃ seqs : List (List UInt8), bytes = seqs.flatten ∧ ∀ seq ∈ seqs, acceptedValue seq ≠ none := by
  constructor
  · rintro ⟨vs, h⟩
    induction h with
    | nil => exact ⟨[], rfl, by simp⟩
    | @cons seq bytes v vs hv _ ih =>
      obtain ⟨seqs, rfl, hall⟩ := ih
      refine ⟨seq :: seqs, rfl, ?_⟩
      rw [forall_mem_cons]
      exact ⟨by rw [hv]; simp, hall⟩
  · rintro ⟨seqs, rfl, hall⟩
    induction seqs with
    | nil => exact ⟨[], .nil⟩
    | cons seq seqs ih =>
      obtain ⟨v, hv⟩ := ne_none_iff_exists'.mp (hall seq (by simp))
      obtain ⟨vs, hvs⟩ := ih fun s hs => hall s (by simp [hs])
      exact ⟨v :: vs, .cons hv hvs⟩

theorem accepts_of_wellFormed (h : Utf8.WellFormed bytes) :
    ∃ vs, Accepts bytes vs ∧ vs.map some = decode bytes := by
  obtain ⟨seqs, rfl, hall⟩ := h
  induction seqs with
  | nil => exact ⟨[], .nil, by simp⟩
  | cons seq seqs ih =>
    obtain ⟨v, hv⟩ := ne_none_iff_exists'.mp (hall seq (by simp))
    obtain ⟨vs, hvs, hmap⟩ := ih fun s hs => hall s (by simp [hs])
    refine ⟨v :: vs, .cons (by rw [acceptedValue, hv]; rfl) hvs, ?_⟩
    rw [flatten_cons, decode_append hv, ← hmap]
    rfl

theorem not_wellFormed_of_overaccepted (h : Overaccepted bytes) : ¬ Utf8.WellFormed bytes := by
  obtain ⟨seqs, rfl, hall, hbad⟩ := h
  rw [wellFormed_iff, not_not]
  induction seqs with
  | nil => simp at hbad
  | cons seq seqs ih =>
    rw [flatten_cons]
    by_cases hseq : overreadValue seq = none
    · obtain ⟨v, hv⟩ := ne_none_iff_exists'.mp ((hall seq (by simp)).resolve_right (not_not.mpr hseq))
      have hbad' : ∃ s ∈ seqs, overreadValue s ≠ none := by
        obtain ⟨s, hs, hne⟩ := hbad
        rcases mem_cons.mp hs with rfl | hs
        · exact absurd hseq hne
        · exact ⟨s, hs, hne⟩
      rw [decode_append hv]
      exact mem_cons_of_mem _ (ih (fun s hs => hall s (by simp [hs])) hbad')
    · obtain ⟨v, hv⟩ := ne_none_iff_exists'.mp hseq
      cases seq with
      | nil => exact absurd hv (by simp [overreadValue])
      | cons b seq =>
        have hnone := scalar_of_overread hseq
        have hacc : acceptedValue (b :: seq) = some v := by rw [acceptedValue, hnone, hv]; rfl
        have hl := (length_of_acceptedValue hacc).2
        rw [cons_append, decode_cons_none]
        · simp
        · rw [← cons_append, take_left' hl, hnone]

/-- What the converter should do: succeed exactly on well-formed strings, with their text, and
    agree with a call of `decode`. -/
structure ConversionCorrect (bytes : List UInt8) (c : Conversion) (d : Decoded) : Prop where
  ok_iff : c.result = .conversionOK ↔ Utf8.WellFormed bytes
  text : c.result = .conversionOK → c.target = units (decode bytes)
  codec_iff : c.result = .conversionOK ↔ d.sawError = false
  codec_text : c.result = .conversionOK → c.target = d.string

theorem decode_whole (w : MachineWord) {array : List UInt8} (harr : array.length = 4)
    (address : Nat) (bytes : List UInt8) :
    let d := TextCodecUTF8.decode w ⟨0, array⟩ address bytes true false false
    d.string = units (decode bytes) ∧ (d.sawError = false ↔ Utf8.WellFormed bytes) := by
  have hok : TextCodecUTF8.Ok ⟨0, array⟩ := ⟨harr, by simp⟩
  have hp : TextCodecUTF8.pending ⟨0, array⟩ = [] := TextCodecUTF8.pending_eq_nil rfl
  obtain ⟨hs, he, -⟩ := TextCodecUTF8.decode_refines w ⟨0, array⟩ address bytes true false hok
    (by rw [hp]; exact Fresh.nil)
  rw [hp, ← stream_last, stream_single [] bytes (Or.inl rfl), nil_append] at hs he
  refine ⟨hs, ?_⟩
  rw [he, wellFormed_iff, Bool.false_or]
  simp

end WebV8
