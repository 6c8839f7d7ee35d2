import WebV8.Text.TextCodecUTF8Walk

/-!
# `decode` computes the walk

The loops of `decode` are followed one iteration at a time. Every iteration is a turn of the walk,
which `Advances` records: what the state still has to decode, what it has written and whether it
has seen an error fit together as before. The 8-bit loops and the 16-bit loops differ in the
character type only, so `Advances` takes the conversion of a character to a code unit.
-/

namespace WebV8

open Lib Lib.Utf8 DecodeState List TextCodecUTF8

/-! ## The partial sequence -/

variable {b : UInt8} {t : List UInt8}

namespace TextCodecUTF8

def pending (codec : TextCodecUTF8) : List UInt8 :=
  codec.partialSequence.take codec.partialSequenceSize

/-- The array has its four bytes and the size counts some of them. -/
structure Ok (codec : TextCodecUTF8) : Prop where
  length : codec.partialSequence.length = 4
  size : codec.partialSequenceSize ≤ 4

variable {codec : TextCodecUTF8}

theorem Ok.pending_length (h : codec.Ok) : codec.pending.length = codec.partialSequenceSize := by
  have := h.length
  have := h.size
  simp [pending]
  omega

theorem pending_eq_nil (h : codec.partialSequenceSize = 0) : codec.pending = [] := by
  rw [pending, h, take_zero]

theorem Ok.pending_ne_nil (h : codec.Ok) (hs : codec.partialSequenceSize ≠ 0) : codec.pending ≠ [] := by
  intro hn
  have := h.pending_length
  rw [hn] at this
  exact hs this.symm

theorem partialSequence_eq (codec : TextCodecUTF8) :
    codec.partialSequence = codec.pending ++ codec.partialSequence.drop codec.partialSequenceSize :=
  (take_append_drop _ _).symm

theorem firstByte_eq (h : codec.pending = b :: t) : codec.firstByte = b := by
  rw [firstByte, partialSequence_eq, h]
  rfl

theorem Ok.consume (h : codec.Ok) : codec.consumePartialSequenceByte.Ok ∧
      codec.consumePartialSequenceByte.pending = codec.pending.tail := by
  have hl := h.length
  have hsz := h.size
  refine ⟨⟨?_, ?_⟩, ?_⟩
  · simp [consumePartialSequenceByte]
    omega
  · simp only [consumePartialSequenceByte]
    omega
  · have hlen : ((codec.partialSequence.drop 1).take (codec.partialSequenceSize - 1)).length
        = codec.partialSequenceSize - 1 := by
      simp
      omega
    simp only [pending, consumePartialSequenceByte]
    rw [take_left' hlen, ← drop_one, drop_take]

theorem Ok.appendBytes (h : codec.Ok) (bytes : List UInt8) (hb : codec.partialSequenceSize + bytes.length ≤ 4) :
    (codec.appendBytes bytes).Ok ∧ (codec.appendBytes bytes).pending = codec.pending ++ bytes := by
  have hl := h.length
  refine ⟨⟨?_, hb⟩, ?_⟩
  · simp [TextCodecUTF8.appendBytes]
    omega
  · simp only [pending, TextCodecUTF8.appendBytes]
    apply take_left'
    simp
    omega

theorem Ok.dropCount (h : codec.Ok) (count : Nat) : (codec.dropCount count).Ok ∧
    (codec.dropCount count).pending = codec.pending.take (codec.pending.length - count) := by
  refine ⟨⟨h.length, ?_⟩, ?_⟩
  · have := h.size
    simp only [TextCodecUTF8.dropCount]
    omega
  · rw [h.pending_length]
    simp only [pending, TextCodecUTF8.dropCount, take_take]
    congr 1
    omega

end TextCodecUTF8

/-! ## Progress of the loops -/

/-- The pointer is inside the chunk that ends at `stop`. -/
def Source.EndsAt (source : Source) (stop : Nat) : Prop :=
  source.address + source.bytes.length = stop

variable {stop : Nat} {source : Source}

theorem Source.EndsAt.advance {n : Nat} (h : source.EndsAt stop)
    (hn : n ≤ source.bytes.length) : (source.advance n).EndsAt stop := by
  simp [Source.EndsAt, Source.advance_address, Source.advance_bytes] at *
  omega

def Fed.afterAll (es : List (Option Nat)) (f : Fed) : Fed := ⟨es ++ f.events, f.pending⟩

theorem Fed.afterAll_append (es es' : List (Option Nat)) (f : Fed) :
    f.afterAll (es ++ es') = (f.afterAll es').afterAll es := by
  simp [Fed.afterAll]

section Advances

variable {α : Type}

def DecodeState.rest (flush : Bool) (st : DecodeState α) : Fed :=
  feed flush st.codec.pending st.source.bytes

/-- The events `es` lie between the two states, which point into the same chunk. -/
structure Writes (view : α → UInt16) (es : List (Option Nat)) (st st' : DecodeState α) : Prop where
  ok : st'.codec.Ok
  destination : st'.destination.map view = st.destination.map view ++ units es
  sawError : st'.sawError = (st.sawError || es.contains none)
  endsAt : ∀ {stop}, st.source.EndsAt stop → st'.source.EndsAt stop

variable (view : α → UInt16)

def Advances (flush : Bool) (st st' : DecodeState α) : Prop :=
  ∃ es, Writes view es st st' ∧ st.rest flush = (st'.rest flush).afterAll es

def Finishes (flush : Bool) (st st' : DecodeState α) : Prop :=
  ∃ es, Writes view es st st' ∧ st.rest flush = ⟨es, st'.codec.pending⟩

/-- The partial sequence is used up, or the walk is over. -/
def HandsOn (flush : Bool) (st st' : DecodeState α) : Prop :=
  (st'.size = 0 → Advances view flush st st') ∧ (st'.size ≠ 0 → Finishes view flush st st')

variable {view : α → UInt16} {flush : Bool} {st st₁ st₂ : DecodeState α}

theorem Writes.refl (h : st.codec.Ok) : Writes view [] st st := ⟨h, by simp, by simp, id⟩

theorem Writes.trans {es es' : List (Option Nat)} (h : Writes view es st st₁)
    (h' : Writes view es' st₁ st₂) : Writes view (es ++ es') st st₂ where
  ok := h'.ok
  destination := by rw [h'.destination, h.destination, units_append, append_assoc]
  sawError := by
    rw [h'.sawError, h.sawError, Bool.or_assoc]
    congr 1
    simp
  endsAt hend := h'.endsAt (h.endsAt hend)

theorem Advances.refl (h : st.codec.Ok) : Advances view flush st st :=
  ⟨[], .refl h, by simp [Fed.afterAll]⟩

variable (h : Advances view flush st st₁)
include h

theorem Advances.trans (h' : Advances view flush st₁ st₂) :
    Advances view flush st st₂ := by
  obtain ⟨es, hw, he⟩ := h
  obtain ⟨es', hw', he'⟩ := h'
  exact ⟨es ++ es', hw.trans hw', by rw [he, he', Fed.afterAll_append]⟩

theorem Advances.finishes (h' : Finishes view flush st₁ st₂) :
    Finishes view flush st st₂ := by
  obtain ⟨es, hw, he⟩ := h
  obtain ⟨es', hw', he'⟩ := h'
  exact ⟨es ++ es', hw.trans hw', by rw [he, he', Fed.afterAll]⟩

theorem Advances.handsOn (h' : HandsOn view flush st₁ st₂) :
    HandsOn view flush st st₂ := ⟨fun h0 => h.trans (h'.1 h0), fun h0 => h.finishes (h'.2 h0)⟩

theorem Advances.finish
    (hr : st₁.rest flush = ⟨[], st₁.codec.pending⟩) : Finishes view flush st st₁ := by
  obtain ⟨es, hw, he⟩ := h
  exact ⟨es, hw, by rw [he, hr, Fed.afterAll, append_nil]⟩

theorem Advances.ok : st₁.codec.Ok :=
  let ⟨_, hw, _⟩ := h
  hw.ok

theorem Advances.endsAt (hend : st.source.EndsAt stop) :
    st₁.source.EndsAt stop :=
  let ⟨_, hw, _⟩ := h
  hw.endsAt hend

omit h

/-- **One turn of the walk.** -/
theorem Advances.turn (hb : st.codec.pending ++ st.source.bytes = b :: t)
    (hlen : nonASCIISequenceLength b ≤ (st.codec.pending ++ st.source.bytes).length)
    (hw : Writes view [(turn b st.codec.pending st.source.bytes).1] st st₁)
    (hrest : (st₁.codec.pending, st₁.source.bytes)
      = (WebV8.turn b st.codec.pending st.source.bytes).2) : Advances view flush st st₁ := by
  refine ⟨_, hw, ?_⟩
  rw [rest, feed_turn hb hlen, ← hrest]
  rfl

end Advances

/-! ## Iterations over the partial sequence -/

section Partial

variable {α : Type} {view : α → UInt16} {flush : Bool} {st : DecodeState α}

variable {n : Nat}

theorem complete_eq (hok : st.codec.Ok) (hs : st.size ≠ 0) (hn : n ≤ 4)
    (hlen : n ≤ (st.codec.pending ++ st.source.bytes).length) : (st.complete n).codec.Ok ∧
      ((st.complete n).codec.pending, (st.complete n).source.bytes)
        = fillUp n st.codec.pending st.source.bytes := by
  have hl : st.codec.pending.length = st.size := hok.pending_length
  have hne := hok.pending_ne_nil hs
  rw [length_append, hl] at hlen
  rw [fillUp, if_neg hne, hl]
  unfold complete
  split_ifs with h
  · have hbs : (st.source.bytes.take (n - st.size)).length = n - st.size := by
      rw [length_take]
      omega
    have := hok.appendBytes (st.source.bytes.take (n - st.size)) (by
      rw [hbs]
      simp only [size] at h ⊢
      omega)
    exact ⟨this.1, Prod.ext this.2 rfl⟩
  · have h0 : n - st.size = 0 := by omega
    rw [h0]
    exact ⟨hok, by simp⟩

theorem complete_endsAt (hok : st.codec.Ok) (hlen : n ≤ (st.codec.pending ++ st.source.bytes).length)
    (hend : st.source.EndsAt stop) : (st.complete n).source.EndsAt stop := by
  have hl : st.codec.pending.length = st.size := hok.pending_length
  rw [length_append, hl] at hlen
  unfold complete
  split_ifs
  · exact hend.advance (by omega)
  · exact hend

theorem complete_size_ne (hs : st.size ≠ 0) (n : Nat) : (st.complete n).size ≠ 0 := by
  have := size_complete st n
  omega

theorem complete_destination (n : Nat) : (st.complete n).destination = st.destination := by
  unfold complete
  split <;> rfl

theorem complete_sawError (n : Nat) : (st.complete n).sawError = st.sawError := by
  unfold complete
  split <;> rfl

theorem pending_cons (hok : st.codec.Ok) (hs : st.size ≠ 0) : ∃ t, st.codec.pending = st.codec.firstByte :: t := by
  cases hp : st.codec.pending with
  | nil => exact absurd hp (hok.pending_ne_nil hs)
  | cons b t => exact ⟨t, by rw [firstByte_eq hp]⟩

theorem pending_append (hok : st.codec.Ok) (hs : st.size ≠ 0) :
    ∃ t, st.codec.pending ++ st.source.bytes = st.codec.firstByte :: t := by
  obtain ⟨t, ht⟩ := pending_cons hok hs
  exact ⟨t ++ st.source.bytes, by rw [ht]; rfl⟩

theorem dropOne_of_ne_nil {q : List UInt8} (hq : q ≠ []) (s : List UInt8) : dropOne q s = (q.tail, s) := by
  cases q with
  | nil => exact absurd rfl hq
  | cons => rfl

theorem decode_complete (hok : st.codec.Ok) (hs : st.size ≠ 0) (hasc : ¬ isASCII st.codec.firstByte)
    (h0 : nonASCIISequenceLength st.codec.firstByte ≠ 0) (hlen : nonASCIISequenceLength st.codec.firstByte
      ≤ (st.codec.pending ++ st.source.bytes).length) : decodeNonASCIISequence
        (st.complete (nonASCIISequenceLength st.codec.firstByte)).codec.partialSequence
        (nonASCIISequenceLength st.codec.firstByte) =
      characterOf (scalar ((st.codec.pending ++ st.source.bytes).take
        (nonASCIISequenceLength st.codec.firstByte))) := by
  obtain ⟨t, ht⟩ := pending_cons hok hs
  generalize hb : st.codec.firstByte = b at *
  have hne : st.codec.pending ≠ [] := by rw [ht]; simp
  obtain ⟨hok', hfill⟩ := complete_eq hok hs (nonASCIISequenceLength_le b) hlen
  have hpend : (st.complete (nonASCIISequenceLength b)).codec.pending
      = (fillUp (nonASCIISequenceLength b) st.codec.pending st.source.bytes).1 :=
    congrArg Prod.fst hfill
  have hlong : nonASCIISequenceLength b ≤
      (st.complete (nonASCIISequenceLength b)).codec.pending.length := by
    rw [hpend, fillUp_length hne hlen]
    exact le_max_right _ _
  have htake : (st.complete (nonASCIISequenceLength b)).codec.partialSequence.take (nonASCIISequenceLength b)
        = (st.codec.pending ++ st.source.bytes).take (nonASCIISequenceLength b) := by
    rw [partialSequence_eq, take_append_of_le_length hlong,
      ← fillUp_append (nonASCIISequenceLength b), ← hfill, take_append_of_le_length hlong]
  have hcons : ∃ u, (st.complete (nonASCIISequenceLength b)).codec.partialSequence = b :: u := by
    rw [partialSequence_eq, hpend, fillUp, if_neg hne, ht]
    exact ⟨_, rfl⟩
  obtain ⟨u, hu⟩ := hcons
  rw [← htake, hu]
  refine decodeNonASCIISequence_eq hasc rfl h0 ?_
  rw [← hu, hok'.length]
  exact nonASCIISequenceLength_le b

theorem advances_ascii {c : α} (hok : st.codec.Ok) (hs : st.size ≠ 0)
    (hasc : isASCII st.codec.firstByte) (hc : view c = st.codec.firstByte.toUInt16) :
    Advances view flush st (st.consume c) := by
  obtain ⟨t, ht⟩ := pending_append hok hs
  have hn := nonASCIISequenceLength_of_isASCII hasc
  refine Advances.turn ht (by omega) ⟨hok.consume.1, ?_, ?_, id⟩ ?_
  · simp [turn, hasc, consume, hc, eventUnits, utf16_ascii]
  · simp [turn, hasc, consume]
  · rw [turn_ascii hasc, dropOne_of_ne_nil (hok.pending_ne_nil hs)]
    exact Prod.ext hok.consume.2 rfl

theorem advances_error {st : DecodeState UInt16} (hok : st.codec.Ok) (hs : st.size ≠ 0)
    (hasc : ¬ isASCII st.codec.firstByte) (hn : nonASCIISequenceLength st.codec.firstByte = n)
    (hlen : n ≤ (st.codec.pending ++ st.source.bytes).length)
    (hv : scalar ((st.codec.pending ++ st.source.bytes).take n) = none) :
    Advances id flush st (handleError (st.complete n) false) := by
  obtain ⟨t, ht⟩ := pending_append hok hs
  obtain ⟨hok', hfill⟩ := complete_eq hok hs (hn ▸ nonASCIISequenceLength_le _) hlen
  subst hn
  have hturn := turn_error hasc hv
  refine Advances.turn ht hlen ⟨hok'.consume.1, ?_, ?_, complete_endsAt hok hlen⟩ ?_
  · rw [hturn]
    simp [handleError, consume, complete_destination, eventUnits, replacement, replacementCharacter]
  · rw [hturn]
    simp [handleError]
  · rw [hturn, ← hfill, dropOne_of_ne_nil (hok'.pending_ne_nil (complete_size_ne hs _))]
    exact Prod.ext hok'.consume.2 rfl

theorem advances_character {written : List α} (hok : st.codec.Ok) (hs : st.size ≠ 0)
    (hasc : ¬ isASCII st.codec.firstByte) {v : Nat} (hn : nonASCIISequenceLength st.codec.firstByte = n)
    (hlen : n ≤ (st.codec.pending ++ st.source.bytes).length)
    (hv : scalar ((st.codec.pending ++ st.source.bytes).take n) = some v)
    (hw : written.map view = st.destination.map view ++ utf16 v) :
    Advances view flush st ((st.complete n).take n written) := by
  obtain ⟨t, ht⟩ := pending_append hok hs
  obtain ⟨hok', hfill⟩ := complete_eq hok hs (hn ▸ nonASCIISequenceLength_le _) hlen
  subst hn
  have hturn := turn_character hasc hv
  refine Advances.turn ht hlen ⟨(hok'.dropCount _).1, ?_, ?_, complete_endsAt hok hlen⟩ ?_
  · rw [hturn]
    simpa [DecodeState.take, eventUnits] using hw
  · rw [hturn]
    simp [DecodeState.take, complete_sawError]
  · rw [hturn, ← hfill, takeOff, if_neg (hok'.pending_ne_nil (complete_size_ne hs _))]
    exact Prod.ext (hok'.dropCount _).2 rfl

theorem advances_cut_error {st : DecodeState UInt16} (hok : st.codec.Ok) (hs : st.size ≠ 0)
    (hcut : (st.codec.pending ++ st.source.bytes).length < nonASCIISequenceLength st.codec.firstByte) :
    Advances id true st (handleError st false) := by
  obtain ⟨t, ht⟩ := pending_append hok hs
  refine ⟨[none], ⟨hok.consume.1, ?_, ?_, id⟩, ?_⟩
  · simp [handleError, consume, eventUnits, replacement, replacementCharacter]
  · simp [handleError]
  · rw [rest, feed_cut ht hcut, if_pos rfl, rest]
    have hp : (handleError st false).codec.pending = st.codec.pending.tail := hok.consume.2
    rw [hp, dropCut, if_neg (hok.pending_ne_nil hs)]
    rfl

theorem finishes_keep (hok : st.codec.Ok) (hs : st.size ≠ 0) (hcut : (st.codec.pending ++ st.source.bytes).length
      < nonASCIISequenceLength st.codec.firstByte) : Finishes view false st st.keep := by
  obtain ⟨t, ht⟩ := pending_append hok hs
  have hle := nonASCIISequenceLength_le st.codec.firstByte
  have happ := hok.appendBytes st.source.bytes (by
    rw [← hok.pending_length, ← length_append]
    omega)
  refine ⟨[], ⟨happ.1, by simp [keep], by simp [keep], id⟩, ?_⟩
  rw [rest, feed_cut ht hcut, if_neg (by simp)]
  exact congrArg _ happ.2.symm

end Partial

variable {α : Type} {st st' : DecodeState UInt8} {w : MachineWord} {stop : Nat} {q : List UInt8}
    {flush : Bool}

theorem cut_iff {st : DecodeState α} (hok : st.codec.Ok) {n : Nat} :
    (n > st.size ∧ n - st.size > st.source.bytes.length) ↔ (st.codec.pending ++ st.source.bytes).length < n := by
  have hl : st.codec.pending.length = st.size := hok.pending_length
  rw [length_append, hl]
  omega

theorem keep_size_ne {st : DecodeState α} (hs : st.size ≠ 0) : st.keep.size ≠ 0 := by
  simp only [size, keep, TextCodecUTF8.appendBytes] at *
  omega

/-- **`handlePartialSequence<UChar>`**: it either uses the partial sequence up or has to keep the
    whole chunk. -/
theorem handlePartialSequence16_spec (flush : Bool) (st : DecodeState UInt16) (hok : st.codec.Ok) :
    HandsOn id flush st (handlePartialSequence16 flush false st) := by
  fun_induction handlePartialSequence16 flush false st with
  | case1 st hs => exact ⟨fun _ => .refl hok, fun hne => absurd hs hne⟩
  | case2 st hs hasc ih =>
    have hadv : Advances id flush st _ := advances_ascii hok hs hasc rfl
    exact hadv.handsOn (ih hadv.ok)
  | case3 st hs hasc count hc hstop => exact absurd hstop (by simp)
  | case4 st hs hasc count hc _ ih =>
    have hadv : Advances id flush st (handleError (st.complete 0) false) :=
      advances_error hok hs hasc hc (Nat.zero_le _) rfl
    have h0 : st.complete 0 = st := if_neg (by omega)
    exact hadv.handsOn (ih hadv.ok)
  | case5 st hs hasc count hc hcut hflu hstop => exact absurd hstop (by simp)
  | case6 st hs hasc count hc hcut hflu _ ih =>
    subst hflu
    have hadv : Advances id true st _ := advances_cut_error hok hs ((cut_iff hok).mp hcut)
    exact hadv.handsOn (ih hadv.ok)
  | case7 st hs hasc count hc hcut hflu =>
    obtain rfl : flush = false := by simpa using hflu
    exact ⟨fun h0 => absurd h0 (keep_size_ne hs), fun _ => finishes_keep hok hs ((cut_iff hok).mp hcut)⟩
  | case8 st hs hasc count hc heno character hn hstop => exact absurd hstop (by simp)
  | case9 st hs hasc count hc heno character hn _ ih =>
    rw [cut_iff hok, not_lt] at heno
    have hv := eq_none_of_characterOf (decode_complete hok hs hasc hc heno) hn
    have hadv : Advances id flush st _ := advances_error hok hs hasc rfl heno hv
    exact hadv.handsOn (ih hadv.ok)
  | case10 st hs hasc count hc heno character hn ih =>
    rw [cut_iff hok, not_lt] at heno
    obtain ⟨v, hv, hchar⟩ := eq_some_of_characterOf (decode_complete hok hs hasc hc heno) hn
    have hadv : Advances id flush st ((st.complete count).take count
        (appendCharacter (st.complete count).destination character)) := by
      refine advances_character hok hs hasc rfl heno hv ?_
      rw [show character = _ from hchar, complete_destination]
      simp [appendCharacter_eq]
    exact hadv.handsOn (ih hadv.ok)

/-! ## Machine words -/

/-- The high bits of `n` bytes. -/
def highBits : Nat → Nat
  | 0 => 0
  | n + 1 => 0x80 + 0x100 * highBits n

theorem nonASCIIMask_eq (w : MachineWord) : w.nonASCIIMask = highBits w.size := by
  cases w <;> decide

theorem byte_and_highBit : ∀ b : Fin 256, b.val &&& 0x80 = 0 ↔ b.val < 0x80 := by decide +kernel

theorem loadWord_and_highBits (word : List UInt8) :
    MachineWord.loadWord word &&& highBits word.length = 0 ↔ ∀ b ∈ word, isASCII b = true := by
  induction word with
  | nil => simp [MachineWord.loadWord, highBits]
  | cons b word ih =>
    rw [MachineWord.loadWord, length_cons, highBits]
    generalize hx : MachineWord.loadWord word = x at *
    generalize hm : highBits word.length = m at *
    have hb := b.toNat_lt
    have hmod : (b.toNat + 0x100 * x &&& 0x80 + 0x100 * m) % 0x100 = b.toNat &&& 0x80 := by
      rw [show (0x100 : Nat) = 2 ^ 8 from rfl, Nat.and_mod_two_pow]
      congr 1
      · omega
      · omega
    have hdiv : (b.toNat + 0x100 * x &&& 0x80 + 0x100 * m) / 0x100 = x &&& m := by
      rw [show (0x100 : Nat) = 2 ^ 8 from rfl, Nat.and_div_two_pow]
      congr 1
      · omega
      · omega
    rw [forall_mem_cons, ← ih, isASCII_iff, ← byte_and_highBit ⟨b.toNat, hb⟩]
    dsimp only
    omega

theorem isAllASCII_loadWord {word : List UInt8} (h : word.length = w.size) :
    w.isAllASCII (MachineWord.loadWord word) = true ↔ ∀ b ∈ word, isASCII b = true := by
  rw [MachineWord.isAllASCII, decide_eq_true_eq, nonASCIIMask_eq, ← h, loadWord_and_highBits]

theorem word_le_of_aligned (h : source.EndsAt stop) (ha : source.address % w.size = 0)
    (hlt : source.address < w.alignToMachineWord stop) : w.size ≤ source.bytes.length := by
  rw [MachineWord.alignToMachineWord] at hlt
  simp only [Source.EndsAt] at h
  by_contra hsho
  -- Otherwise the chunk ends in the word of the pointer, and its end is aligned to the pointer.
  have hstop : stop % w.size = source.bytes.length := by
    rw [← h, Nat.add_mod, ha, Nat.zero_add, Nat.mod_mod, Nat.mod_eq_of_lt (by omega)]
  omega

/-- **The word loop copies ASCII characters.** -/
theorem copyASCIIMachineWords_spec (w : MachineWord) (lift : UInt8 → α) (stop : Nat)
    (source : Source) (destination : List α) (hend : source.EndsAt stop)
    (ha : source.address % w.size = 0) :
    let r := copyASCIIMachineWords w lift (w.alignToMachineWord stop) source destination
    ∃ copied, source.bytes = copied ++ r.1.bytes ∧ (∀ b ∈ copied, isASCII b = true) ∧
      r.2 = destination ++ copied.map lift ∧ r.1.EndsAt stop := by
  fun_induction copyASCIIMachineWords w lift (w.alignToMachineWord stop) source destination with
  | case1 source destination hlt word hword ih =>
    have hle := word_le_of_aligned hend ha hlt
    have hlen : word.length = w.size := by
      rw [length_take]
      omega
    obtain ⟨copied, hspl, hasc, hdest, hend'⟩ := ih (hend.advance hle)
      (by rw [Source.advance_address, Nat.add_mod_right, ha])
    refine ⟨word ++ copied, ?_, ?_, ?_, hend'⟩
    · rw [append_assoc, ← hspl, Source.advance_bytes, take_append_drop]
    · intro b hb
      rcases mem_append.mp hb with hb | hb
      · exact (isAllASCII_loadWord hlen).mp hword b hb
      · exact hasc b hb
    · rw [hdest, map_append, append_assoc]
  | case2 source destination hlt word hword
  | case3 source destination hlt => exact ⟨[], rfl, by simp, by simp, hend⟩

/-! ## Iterations over the chunk -/

section Chunk

variable {α : Type} {view : α → UInt16} {flush : Bool} {st st' : DecodeState α}

variable {copied bs : List UInt8} {lift : UInt8 → α} {b : UInt8}

theorem feed_ascii (h : ∀ b ∈ copied, isASCII b = true) (s : List UInt8) : feed flush [] (copied ++ s)
      = (feed flush [] s).afterAll (copied.map fun b => some b.toNat) := by
  induction copied with
  | nil => rfl
  | cons b copied ih =>
    have hb := h b (by simp)
    have hn := nonASCIISequenceLength_of_isASCII hb
    rw [feed_turn (b := b) (t := copied ++ s) rfl (by omega), turn_ascii hb]
    exact congrArg (Fed.after (some b.toNat)) (ih fun c hc => h c (by simp [hc]))

theorem units_ascii : units (copied.map fun b => some b.toNat) = copied.map UInt8.toUInt16 := by
  induction copied with
  | nil => rfl
  | cons b copied ih => simp [eventUnits, utf16_ascii, ih]

theorem advances_copied (hlift : ∀ b, view (lift b) = b.toUInt16)
    (hok : st.codec.Ok) (hp : st.codec.pending = []) (hend : st.source.EndsAt stop)
    (hend' : source.EndsAt stop)
    (hspl : st.source.bytes = copied ++ source.bytes) (hasc : ∀ b ∈ copied, isASCII b = true) :
    Advances view flush st { st with source := source, destination := st.destination ++ copied.map lift } := by
  refine ⟨copied.map fun b => some b.toNat, ⟨hok, ?_, ?_, fun h => hend.symm.trans h ▸ hend'⟩, ?_⟩
  · simp [units_ascii, hlift]
  · simp
  · rw [rest, hp, hspl, feed_ascii hasc, rest]
    rw [hp]

/-- **An ASCII character of the chunk, with or without the fast path.** -/
theorem decodeASCII_spec (flush : Bool) {w : MachineWord}
    (hlift : ∀ b, view (lift b) = b.toUInt16) (hok : st.codec.Ok) (hp : st.codec.pending = [])
    (hend : st.source.EndsAt stop) (hb : st.source.bytes = b :: bs) (hasc : isASCII b = true) :
    let st' := decodeASCII w lift (w.alignToMachineWord stop) st b
    Advances view flush st st' ∧ st'.destination.length + st'.source.bytes.length
        = st.destination.length + st.source.bytes.length := by
  -- In every case some ASCII characters have been copied.
  have hcop : ∃ copied source, decodeASCII w lift (w.alignToMachineWord stop) st b
        = { st with source := source, destination := st.destination ++ copied.map lift } ∧
      st.source.bytes = copied ++ source.bytes ∧ (∀ c ∈ copied, isASCII c = true) ∧
      source.EndsAt stop := by
    unfold decodeASCII
    split_ifs with ha
    · obtain ⟨copied, hspl, hall, hdest, hend'⟩ := copyASCIIMachineWords_spec w lift stop
        st.source st.destination hend (by simpa [MachineWord.isAlignedToMachineWord] using ha)
      generalize copyASCIIMachineWords w lift (w.alignToMachineWord stop) st.source st.destination = r at *
      dsimp only
      split
      case _ hn => exact ⟨copied, r.1, by rw [hdest], hspl, hall, hend'⟩
      case _ b' bs' hb' =>
        split_ifs with hasc'
        · refine ⟨copied ++ [b'], r.1.advance 1, ?_, ?_, ?_, hend'.advance (by simp [hb'])⟩
          · rw [hdest]
            simp
          · simp [hspl, hb']
          · intro c hc
            rcases mem_append.mp hc with hc | hc
            · exact hall c hc
            · rw [mem_singleton.mp hc]
              exact hasc'
        · exact ⟨copied, r.1, by rw [hdest], hspl, hall, hend'⟩
    · refine ⟨[b], st.source.advance 1, rfl, ?_, ?_, hend.advance (by simp [hb])⟩
      · simp [hb]
      · intro c hc
        rw [mem_singleton.mp hc]
        exact hasc
  obtain ⟨copied, source, he, hspl, hall, hend'⟩ := hcop
  rw [he]
  refine ⟨advances_copied hlift hok hp hend hend' hspl hall, ?_⟩
  rw [hspl]
  simp
  omega

theorem advances_chunk_error {st : DecodeState UInt16} (hok : st.codec.Ok) (hp : st.codec.pending = [])
    (hb : st.source.bytes = b :: bs) (hasc : ¬ isASCII b)
    (hlen : nonASCIISequenceLength b ≤ st.source.bytes.length)
    (hv : scalar (st.source.bytes.take (nonASCIISequenceLength b)) = none) :
    Advances id flush st
      { st with
        sawError := true
        source := st.source.advance 1
        destination := st.destination ++ [replacementCharacter] } := by
  refine Advances.turn (b := b) (t := bs) (by rw [hp, hb]; rfl) (by rw [hp]; exact hlen)
    ⟨hok, ?_, ?_, fun hend => hend.advance (by simp [hb])⟩ ?_
  all_goals rw [hp, turn_error (q := []) hasc hv]
  · simp [eventUnits, replacement, replacementCharacter]
  · simp
  · simp [dropOne]

theorem advances_chunk_character {written : List α} {v : Nat} (hok : st.codec.Ok) (hp : st.codec.pending = [])
    (hb : st.source.bytes = b :: bs) (hasc : ¬ isASCII b)
    (hlen : nonASCIISequenceLength b ≤ st.source.bytes.length)
    (hv : scalar (st.source.bytes.take (nonASCIISequenceLength b)) = some v)
    (hw : written.map view = st.destination.map view ++ utf16 v) :
    Advances view flush st
      { st with source := st.source.advance (nonASCIISequenceLength b), destination := written } := by
  refine Advances.turn (b := b) (t := bs) (by rw [hp, hb]; rfl) (by rw [hp]; exact hlen)
    ⟨hok, ?_, ?_, fun hend => hend.advance hlen⟩ ?_
  all_goals rw [hp, turn_character (q := []) hasc hv]
  · simpa [eventUnits] using hw
  · simp
  · simp [takeOff]

theorem advances_keepRest (hok : st.codec.Ok) (hp : st.codec.pending = []) (hb : st.source.bytes = b :: bs)
    (hcut : st.source.bytes.length < nonASCIISequenceLength b) :
    Advances view flush st st.keepRest ∧ st.keepRest.codec.pending = st.source.bytes ∧
      st.keepRest.source.bytes = [] := by
  have hle := nonASCIISequenceLength_le b
  have hemp : ({ st.codec with partialSequenceSize := 0 } : TextCodecUTF8).Ok := ⟨hok.length, by simp⟩
  have happ := hemp.appendBytes st.source.bytes (by simp only; omega)
  have hnone : ({ st.codec with partialSequenceSize := 0 } : TextCodecUTF8).pending = [] :=
    TextCodecUTF8.pending_eq_nil rfl
  have hpend : st.keepRest.codec.pending = st.source.bytes := by
    have := happ.2
    rwa [hnone, nil_append] at this
  have hsrc : st.keepRest.source.bytes = [] := by simp [keepRest]
  refine ⟨⟨[], ⟨happ.1, by simp [keepRest], by simp [keepRest], fun hend => hend.advance le_rfl⟩, ?_⟩, hpend, hsrc⟩
  rw [rest, rest, hp, hpend, hsrc, feed_cut_move hb hcut]
  rfl

end Chunk

/-! ## The loops over the chunk -/

/-- The bytes are the beginning of a sequence that is not complete. -/
def Fresh (q : List UInt8) : Prop := ∀ b t, q = b :: t → q.length < nonASCIISequenceLength b

theorem Fresh.nil : Fresh [] := fun _ _ h => absurd h (by simp)

theorem Fresh.of_cut (h : q = b :: t) (hcut : q.length < nonASCIISequenceLength b) : Fresh q := by
  intro b' t' h'
  obtain ⟨rfl, rfl⟩ := List.cons.inj (h.symm.trans h')
  exact hcut

theorem Fresh.feed_eq (h : Fresh q) : feed false q [] = ⟨[], q⟩ := by
  cases q with
  | nil => exact feed_nil false
  | cons b t =>
    rw [feed_cut (b := b) (t := t) (by simp) (by simpa using h b t rfl), if_neg (by simp)]
    simp

structure AtEnd {α : Type} (st : DecodeState α) : Prop where
  source : st.source.bytes = []
  fresh : Fresh st.codec.pending

theorem AtEnd.rest {α : Type} {st : DecodeState α} (h : AtEnd st) {flush : Bool}
    (hf : ¬ (flush = true ∧ st.size ≠ 0)) : st.rest flush = ⟨[], st.codec.pending⟩ := by
  rw [DecodeState.rest, h.source]
  cases flush with
  | false => exact h.fresh.feed_eq
  | true =>
    have hs : st.size = 0 := by simpa using hf
    rw [TextCodecUTF8.pending_eq_nil hs, feed_nil]

/-- **The loop over the chunk on the 16-bit path.** -/
theorem decodeLoop16_spec (flush : Bool) (st : DecodeState UInt16)
    (hok : st.codec.Ok) (hp : st.codec.pending = []) (hend : st.source.EndsAt stop) :
    let st' := decodeLoop16 w false (w.alignToMachineWord stop) st
    Advances id flush st st' ∧ AtEnd st' := by
  fun_induction decodeLoop16 w false (w.alignToMachineWord stop) st with
  | case1 st hb => exact ⟨.refl hok, ⟨hb, hp ▸ Fresh.nil⟩⟩
  | case2 st b bs hb hasc ih =>
    obtain ⟨hadv, -⟩ := decodeASCII_spec flush (fun _ => rfl : ∀ b : UInt8, id b.toUInt16 = b.toUInt16) hok hp
        hend hb hasc
    have hcod := decodeASCII_codec w UInt8.toUInt16 (w.alignToMachineWord stop) st b
    obtain ⟨hadv', hat⟩ := ih hadv.ok (by rw [hcod, hp]) (hadv.endsAt hend)
    exact ⟨hadv.trans hadv', hat⟩
  | case3 st b bs hb hasc count hcut =>
    obtain ⟨hadv, hpend, hsrc⟩ := advances_keepRest hok hp hb hcut
    exact ⟨hadv, hsrc, hpend ▸ Fresh.of_cut hb hcut⟩
  | case4 st b bs hb hasc count hcut character hn hstop => exact absurd hstop (by simp)
  | case5 st b bs hb hasc count hcut character hn _ ih =>
    rw [not_lt] at hcut
    have hv := eq_none_of_characterOf (sequenceCharacter_eq hb hasc hcut) hn
    obtain ⟨hadv, hat⟩ := ih hok hp (hend.advance (by simp [hb]))
    exact ⟨(advances_chunk_error hok hp hb hasc hcut hv).trans hadv, hat⟩
  | case6 st b bs hb hasc count hcut character hn ih =>
    rw [not_lt] at hcut
    obtain ⟨v, hv, hchar⟩ := eq_some_of_characterOf (sequenceCharacter_eq hb hasc hcut) hn
    have hw : (appendCharacter st.destination character).map id = st.destination.map id ++ utf16 v := by
      rw [show character = _ from hchar]
      simp [appendCharacter_eq]
    obtain ⟨hadv, hat⟩ := ih hok hp (hend.advance hcut)
    exact ⟨(advances_chunk_character hok hp hb hasc hcut hv hw).trans hadv, hat⟩

/-- **The 16-bit path goes the whole walk.** -/
theorem decode16_spec (flush : Bool) (st : DecodeState UInt16) (hok : st.codec.Ok) (hend : st.source.EndsAt stop) :
    Finishes id flush st (decode16 w flush false (w.alignToMachineWord stop) st) := by
  fun_induction decode16 w flush false (w.alignToMachineWord stop) st with
  | case1 st st₁ h => exact (handlePartialSequence16_spec flush st hok).2 h
  | case2 st st₁ h st₂ haga ih =>
    have hadv := (handlePartialSequence16_spec flush st hok).1 (not_not.mp h)
    have hadv' := hadv.trans (decodeLoop16_spec (w := w) flush st₁ hadv.ok
      (TextCodecUTF8.pending_eq_nil (not_not.mp h)) (hadv.endsAt hend)).1
    exact hadv'.finishes (ih hadv'.ok (hadv'.endsAt hend))
  | case3 st st₁ h st₂ haga =>
    have hadv := (handlePartialSequence16_spec flush st hok).1 (not_not.mp h)
    obtain ⟨hadv', hat⟩ := decodeLoop16_spec (w := w) flush st₁ hadv.ok
      (TextCodecUTF8.pending_eq_nil (not_not.mp h)) (hadv.endsAt hend)
    exact (hadv.trans hadv').finish (hat.rest haga)

/-! ## The 8-bit path -/

/-- The characters written and the bytes of the chunk that are left, together: what bounds the
    16-bit buffer. -/
def DecodeState.room (st : DecodeState UInt8) : Nat :=
  st.destination.length + st.source.bytes.length

/-- The state the 16-bit path has to go on from. The 8-bit path may have reported an error that is
    the next event. -/
structure Converts (flush : Bool) (st st' : DecodeState UInt8) : Prop where
  advances : ∃ e, Advances UInt8.toUInt16 flush st { st' with sawError := e } ∧
    (st'.sawError = e ∨ (st'.sawError = true ∧ none ∈ (st'.rest flush).events))
  room : st'.room ≤ st.room

/-- A part of the 8-bit path. -/
structure Proceeds (flush : Bool) (st st' : DecodeState UInt8) : Prop where
  advances : Advances UInt8.toUInt16 flush st st'
  room : st'.room ≤ st.room

/-- The loop over the chunk asks for the 16-bit path, or ends with the chunk. -/
def Loops (flush : Bool) (st : DecodeState UInt8) (r : Bool × DecodeState UInt8) : Prop :=
  (r.1 = true → Converts flush st r.2) ∧ (¬ r.1 = true → Proceeds flush st r.2 ∧ AtEnd r.2)

section Proceeds

variable {st₁ : DecodeState UInt8}

theorem Proceeds.refl (h : st.codec.Ok) : Proceeds flush st st := ⟨.refl h, le_rfl⟩

variable (h : Proceeds flush st st₁)
include h

theorem Proceeds.trans (h' : Proceeds flush st₁ st') : Proceeds flush st st' :=
  ⟨h.advances.trans h'.advances, h'.room.trans h.room⟩

theorem Proceeds.converts : Converts flush st st₁ := ⟨⟨st₁.sawError, h.advances, Or.inl rfl⟩, h.room⟩

theorem Proceeds.before (h' : Converts flush st₁ st') : Converts flush st st' := by
  obtain ⟨e, hadv, he⟩ := h'.advances
  exact ⟨⟨e, h.advances.trans hadv, he⟩, h'.room.trans h.room⟩

theorem Proceeds.loops {r : Bool × DecodeState UInt8} (h' : Loops flush st₁ r) : Loops flush st r :=
  ⟨fun hr => h.before (h'.1 hr), fun hr => ⟨h.trans (h'.2 hr).1, (h'.2 hr).2⟩⟩

end Proceeds

theorem length_le_of_room (h : st'.room ≤ st.room) : st'.destination.length ≤ st.room := by
  rw [room] at h
  omega

theorem room_complete (n : Nat) : (st.complete n).room ≤ st.room := by
  simp only [room, complete_destination]
  have := complete_source_le st n
  omega

theorem advances_complete {view : α → UInt16} {st : DecodeState α} (hok : st.codec.Ok) (hs : st.size ≠ 0)
    (hlen : nonASCIISequenceLength st.codec.firstByte ≤ (st.codec.pending ++ st.source.bytes).length) :
    Advances view flush st (st.complete (nonASCIISequenceLength st.codec.firstByte)) := by
  obtain ⟨t, ht⟩ := pending_cons hok hs
  obtain ⟨hok', hfill⟩ := complete_eq hok hs (nonASCIISequenceLength_le _) hlen
  refine ⟨[], ⟨hok', by simp [complete_destination], by simp [complete_sawError], complete_endsAt hok hlen⟩, ?_⟩
  have hfst := congrArg Prod.fst hfill
  have hsnd := congrArg Prod.snd hfill
  dsimp only at hfst hsnd
  rw [rest, rest, hfst, hsnd, feed_fillUp ht hlen]
  rfl

/-- **`handlePartialSequence<LChar>`** on the beginning of a sequence: it asks for the 16-bit path
    before it has written anything, uses the partial sequence up, or has to keep the chunk. -/
theorem handlePartialSequence8_spec (flush : Bool) (st : DecodeState UInt8)
    (hok : st.codec.Ok) (hfre : Fresh st.codec.pending) :
    let r := handlePartialSequence8 flush st
    r.2.room ≤ st.room ∧
      (r.1 = true → Advances UInt8.toUInt16 flush st r.2 ∧ r.2.destination = st.destination) ∧
      (¬ r.1 = true → HandsOn UInt8.toUInt16 flush st r.2) := by
  by_cases hs : st.size = 0
  · rw [handlePartialSequence8, if_pos hs]
    exact ⟨le_rfl, by simp, fun _ => ⟨fun _ => .refl hok, fun hne => absurd hs hne⟩⟩
  obtain ⟨t, ht⟩ := pending_cons hok hs
  have hlt : st.size < nonASCIISequenceLength st.codec.firstByte := by
    have := hfre _ _ ht
    rwa [hok.pending_length] at this
  have hasc : ¬ isASCII st.codec.firstByte := fun hasc =>
    Nat.not_lt_zero _ (nonASCIISequenceLength_of_isASCII hasc ▸ hlt)
  rw [handlePartialSequence8, if_neg hs, if_neg hasc]
  dsimp only
  rw [if_neg (by omega)]
  by_cases hcut : nonASCIISequenceLength st.codec.firstByte > st.size ∧
      nonASCIISequenceLength st.codec.firstByte - st.size > st.source.bytes.length
  · rw [if_pos hcut]
    cases flush with
    | true => exact ⟨le_rfl, fun _ => ⟨.refl hok, rfl⟩, by simp⟩
    | false =>
      exact ⟨le_rfl, by simp, fun _ => ⟨fun h0 => absurd h0 (keep_size_ne hs),
        fun _ => finishes_keep hok hs ((cut_iff hok).mp hcut)⟩⟩
  · have hlen := not_lt.mp ((cut_iff hok).not.mp hcut)
    split_ifs with hn
    · exact ⟨room_complete _, fun _ => ⟨advances_complete hok hs hlen, complete_destination _⟩, by simp⟩
    · -- The character fills the partial sequence, so the loop is over.
      rw [not_or] at hn
      obtain ⟨v, hv, hchar⟩ := eq_some_of_characterOf (decode_complete hok hs hasc (by omega) hlen) hn.1
      have hsma : v ≤ 0xFF := by
        omega
      generalize hc : nonASCIISequenceLength st.codec.firstByte = n at *
      have hadv : Advances UInt8.toUInt16 flush st ((st.complete n).take n
          ((st.complete n).destination ++ [v.toUInt8])) := by
        refine advances_character hok hs hasc hc hlen hv ?_
        rw [complete_destination, utf16_of_le hsma]
        simp
      have hsize : (st.complete n).size = n := by
        rw [complete, if_pos (by omega)]
        simp [size, fill, TextCodecUTF8.appendBytes] at *
        omega
      have hzero : ((st.complete n).take n
          ((st.complete n).destination ++ [v.toUInt8])).size = 0 := by
        have hsub : ((st.complete n).take n
          ((st.complete n).destination ++ [v.toUInt8])).size = (st.complete n).size - n := rfl
        omega
      rw [hchar, Int.toNat_natCast, handlePartialSequence8, if_pos hzero]
      refine ⟨?_, by simp, fun _ => ⟨fun _ => hadv, fun hne => absurd hzero hne⟩⟩
      -- One character more, and at least one byte less.
      have hsho : (st.complete n).source.bytes.length + (n - st.size)
          = st.source.bytes.length := by
        rw [complete, if_pos (by omega)]
        simp [fill, Source.advance_bytes]
        omega
      simp [room, DecodeState.take, complete_destination]
      omega

theorem none_mem_rest (hp : st.codec.pending = [])
    {bs : List UInt8} (hb : st.source.bytes = b :: bs) (hasc : ¬ isASCII b)
    (hlen : nonASCIISequenceLength b ≤ st.source.bytes.length)
    (hv : scalar (st.source.bytes.take (nonASCIISequenceLength b)) = none) : none ∈ (st.rest flush).events := by
  have hturn : (turn b [] st.source.bytes).1 = none := by rw [turn_error (q := []) hasc hv]
  rw [rest, hp, feed_turn (q := []) (b := b) (t := bs) hb hlen, hturn]
  simp [Fed.after]

/-- **The loop over the chunk on the 8-bit path.** -/
theorem decodeLoop8_spec (flush : Bool) (st : DecodeState UInt8)
    (hok : st.codec.Ok) (hp : st.codec.pending = []) (hend : st.source.EndsAt stop) :
    Loops flush st (decodeLoop8 w false (w.alignToMachineWord stop) st) := by
  fun_induction decodeLoop8 w false (w.alignToMachineWord stop) st with
  | case1 st hb => exact ⟨by simp, fun _ => ⟨.refl hok, ⟨hb, hp ▸ Fresh.nil⟩⟩⟩
  | case2 st b bs hb hasc ih =>
    obtain ⟨hadv, hroom⟩ :=
      decodeASCII_spec flush (w := w) (fun _ => rfl : ∀ b : UInt8, (id b).toUInt16 = b.toUInt16) hok hp hend hb hasc
    have hcod := decodeASCII_codec w id (w.alignToMachineWord stop) st b
    exact Proceeds.loops ⟨hadv, hroom.le⟩ (ih hadv.ok (by rw [hcod, hp]) (hadv.endsAt hend))
  | case3 st b bs hb hasc count hcut =>
    obtain ⟨hadv, hpend, hsrc⟩ := advances_keepRest hok hp hb hcut
    exact ⟨by simp, fun _ => ⟨⟨hadv, by simp [room, keepRest]⟩, hsrc, hpend ▸ Fresh.of_cut hb hcut⟩⟩
  | case4 st b bs hb hasc count hcut character hn =>
    rw [not_lt] at hcut
    have hv := eq_none_of_characterOf (sequenceCharacter_eq hb hasc hcut) hn
    refine ⟨fun _ => ⟨⟨st.sawError, .refl hok, Or.inr ⟨rfl, ?_⟩⟩, le_rfl⟩, by simp⟩
    exact none_mem_rest hp hb hasc hcut hv
  | case5 st b bs hb hasc count hcut character hn hbig => exact ⟨fun _ => (Proceeds.refl hok).converts, by simp⟩
  | case6 st b bs hb hasc count hcut character hn hbig ih =>
    have hpos : 0 < count := count_pos_of_character hn
    rw [not_lt] at hcut
    obtain ⟨v, hv, hchar⟩ := eq_some_of_characterOf (sequenceCharacter_eq hb hasc hcut) hn
    have hsma : v ≤ 0xFF := by
      rw [show character = _ from hchar] at hbig
      omega
    have hw : (st.destination ++ [character.toNat.toUInt8]).map UInt8.toUInt16 =
        st.destination.map UInt8.toUInt16 ++ utf16 v := by
      rw [show character = _ from hchar, utf16_of_le hsma]
      simp
    refine Proceeds.loops ⟨advances_chunk_character hok hp hb hasc hcut hv hw, ?_⟩ (ih hok hp (hend.advance hcut))
    simp [room, Source.advance_bytes]
    omega

/-- The loop over the chunk begins when the partial sequence is used up. -/
theorem loops_rest (hok : st.codec.Ok) (hfre : Fresh st.codec.pending) (hend : st.source.EndsAt stop)
    (hr : ¬ (handlePartialSequence8 flush st).1 = true) (hs : (handlePartialSequence8 flush st).2.size = 0) :
    Loops flush st (decodeLoop8 w false (w.alignToMachineWord stop) (handlePartialSequence8 flush st).2) := by
  obtain ⟨hroom, -, hgoes⟩ := handlePartialSequence8_spec flush st hok hfre
  have hadv := (hgoes hr).1 hs
  exact Proceeds.loops ⟨hadv, hroom⟩ (decodeLoop8_spec flush _ hadv.ok (TextCodecUTF8.pending_eq_nil hs)
    (hadv.endsAt hend))

/-- **The 8-bit path goes the whole walk or hands over to the 16-bit path.** -/
theorem decode8_spec (flush : Bool) (st : DecodeState UInt8)
    (hok : st.codec.Ok) (hfre : Fresh st.codec.pending) (hend : st.source.EndsAt stop) :
    let r := decode8 w flush false (w.alignToMachineWord stop) st
    r.2.2.length ≤ st.room ∧ (r.1 = true → Converts flush st r.2.1) ∧
      (¬ r.1 = true → Finishes UInt8.toUInt16 flush st r.2.1 ∧ r.2.1.destination.length ≤ st.room) := by
  fun_induction decode8 w flush false (w.alignToMachineWord stop) st with
  | case1 st r hr =>
    obtain ⟨hroom, hconv, -⟩ := handlePartialSequence8_spec flush st hok hfre
    obtain ⟨hadv, hdest⟩ := hconv hr
    refine ⟨length_le_of_room hroom, fun _ => ?_, by simp⟩
    have hsame : ({ r.2 with destination := st.destination } : DecodeState UInt8) = r.2 := by
      rw [← hdest]
    rw [hsame]
    exact Proceeds.converts ⟨hadv, hroom⟩
  | case2 st r hr hs =>
    obtain ⟨hroom, -, hgoes⟩ := handlePartialSequence8_spec flush st hok hfre
    exact ⟨length_le_of_room hroom, by simp, fun _ => ⟨(hgoes hr).2 hs, length_le_of_room hroom⟩⟩
  | case3 st r hr hs r' hr' =>
    have hconv := (loops_rest hok hfre hend hr (not_not.mp hs)).1 hr'
    exact ⟨length_le_of_room hconv.room, fun _ => hconv, by simp⟩
  | case4 st r hr hs r' hr' haga ih =>
    obtain ⟨hgo, hat⟩ := (loops_rest hok hfre hend hr (not_not.mp hs)).2 hr'
    obtain ⟨hlen, hconv, hfin⟩ := ih hgo.advances.ok hat.fresh (hgo.advances.endsAt hend)
    exact ⟨hlen.trans hgo.room, fun hr => hgo.before (hconv hr),
      fun hr => ⟨hgo.advances.finishes (hfin hr).1, (hfin hr).2.trans hgo.room⟩⟩
  | case5 st r hr hs r' hr' haga =>
    obtain ⟨hgo, hat⟩ := (loops_rest hok hfre hend hr (not_not.mp hs)).2 hr'
    have hle := length_le_of_room hgo.room
    exact ⟨hle, by simp, fun _ => ⟨hgo.advances.finish (hat.rest haga), hle⟩⟩

/-! ## `decode` -/

theorem length_feed (flush : Bool) (q s : List UInt8) :
    (units (feed flush q s).events).length ≤ q.length + s.length := by
  fun_induction feed flush q s with
  | case1 q s h => simp
  | case2 q s b t h hcut hflu ih =>
    have := (uses_dropCut h).total
    simp [Fed.after, units_cons, eventUnits]
    omega
  | case3 q s b t h hcut hflu => simp
  | case4 q s b t h hcut ih =>
    have := (uses_turn h (by omega)).total
    simp [Fed.after, units_cons]
    omega

/-- **A call of `decode` computes the walk** of the pending bytes and its chunk, whatever the
    alignment, and writes inside its buffers. -/
theorem TextCodecUTF8.decode_refines (w : MachineWord) (codec : TextCodecUTF8) (address : Nat)
    (bytes : List UInt8) (flush sawError : Bool) (hok : codec.Ok) (hfre : Fresh codec.pending) :
    let d := codec.decode w address bytes flush false sawError
    let f := feed flush codec.pending bytes
    d.string = units f.events ∧ d.sawError = (sawError || f.events.contains none) ∧
      d.codec.Ok ∧ d.codec.pending = f.pending ∧ d.InBounds := by
  intro d f
  have hend : Source.EndsAt ⟨address, bytes⟩ (address + bytes.length) := rfl
  obtain ⟨hwr, hconv, hfin⟩ := decode8_spec (w := w) flush ⟨codec, ⟨address, bytes⟩, [], sawError⟩ hok hfre hend
  simp only [room, length_nil, Nat.zero_add] at hwr hfin
  simp only [d, TextCodecUTF8.decode]
  generalize decode8 w flush false (w.alignToMachineWord (address + bytes.length))
    ⟨codec, ⟨address, bytes⟩, [], sawError⟩ = r at *
  by_cases hr : r.1 = true
  · rw [if_pos hr]
    obtain ⟨e, ⟨es, hw, he⟩, herr⟩ := (hconv hr).advances
    have hroom := (hconv hr).room
    simp only [room, length_nil, Nat.zero_add] at hroom
    have hok' : r.2.1.codec.Ok := hw.ok
    obtain ⟨es', hw', he'⟩ := decode16_spec (w := w) flush
      ⟨r.2.1.codec, r.2.1.source, r.2.1.destination.map UInt8.toUInt16, r.2.1.sawError⟩ hok' (hw.endsAt hend)
    generalize decode16 w flush false (w.alignToMachineWord (address + bytes.length))
      ⟨r.2.1.codec, r.2.1.source, r.2.1.destination.map UInt8.toUInt16, r.2.1.sawError⟩ = st16 at *
    have hrest : r.2.1.rest flush = ⟨es', st16.codec.pending⟩ := he'
    have hfed : f = ⟨es ++ es', st16.codec.pending⟩ := by
      change f = (r.2.1.rest flush).afterAll es at he
      rw [he, hrest, Fed.afterAll]
    have hdest : st16.destination = r.2.1.destination.map UInt8.toUInt16 ++ units es' := by
      simpa using hw'.destination
    have huni : r.2.1.destination.map UInt8.toUInt16 = units es := by
      simpa using hw.destination
    rw [hfed]
    refine ⟨?_, ?_, hw'.ok, rfl, hwr.trans (Nat.le_add_left _ _), ?_⟩
    · rw [Decoded.string, units_append, hdest, huni]
    · have hs := hw.sawError
      have hs' := hw'.sawError
      rw [hs', contains_append, ← Bool.or_assoc, ← hs]
      rcases herr with herr | ⟨htrue, hmem⟩
      · rw [herr]
      · rw [hrest] at hmem
        have : es'.contains none = true := by simpa using hmem
        rw [this, Bool.or_true, Bool.or_true]
    · intro b hb
      obtain rfl : _ = b := Option.mem_some.mp hb
      have hle := length_feed flush r.2.1.codec.pending r.2.1.source.bytes
      rw [show feed flush r.2.1.codec.pending r.2.1.source.bytes = _ from hrest, hok'.pending_length] at hle
      simp only [StringBuffer.InBounds, size, hdest, length_append, length_map]
      dsimp only at hle
      omega
  · rw [if_neg hr]
    obtain ⟨⟨es, hw, he⟩, hlen⟩ := hfin hr
    have hfed : f = ⟨es, r.2.1.codec.pending⟩ := he
    rw [hfed]
    refine ⟨?_, hw.sawError, hw.ok, rfl, ?_, by simp⟩
    · simpa [Decoded.string] using hw.destination
    · simp only [StringBuffer.InBounds]
      omega

end WebV8
