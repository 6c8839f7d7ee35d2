import WebV8.WTF.StringBuilderAppend

/-! # Strings and capacities of a StringBuilder

The functions that change how a builder keeps its characters, and the strings that leave it. A builder that gets
shorter would write to characters that a string still sees, so the memory must then be its own.
-/

namespace WebV8

open Lib List Nat

namespace Strings

variable {ι : Type} {s : Strings ι} {c : Contents ι} {limit : Bool → Nat} {this : ι}

/-! ## Strings -/

theorem guarded_emptyString (s : Strings ι) : s.Guarded emptyString := fun _ _ => zero_le _

variable (h : Sound s c) {string : StringRef} {is8Bit : Bool}
include h

theorem Sound.valid_emptyString : s.Valid emptyString := ⟨h.nonempty, zero_le _⟩

omit h in
theorem characters_emptyString (s : Strings ι) : s.characters emptyString = [] := take_zero

theorem Sound.hold (hval : s.Valid string) (hgua : s.Guarded string) :
    Sound { s with strings := s.strings ++ [string] } { c with strings := c.strings ++ [s.characters string] } := by
  refine h.extend ⟨le_rfl, fun _ => rfl⟩ rfl h.narrow
    (rel_append h.strings (List.Forall₂.cons ⟨hval, rfl⟩ List.Forall₂.nil)) fun string' hmem => ?_
  rcases mem_append.mp hmem with hold | hnew
  · exact h.guarded (Or.inl hold)
  · obtain rfl := mem_singleton.mp hnew
    exact hgua

omit h in
theorem forall₂_eraseIdx {α β : Type} {R : α → β → Prop} {xs : List α} {ys : List β} (h : List.Forall₂ R xs ys) (k : Nat) :
    List.Forall₂ R (xs.eraseIdx k) (ys.eraseIdx k) := by
  induction h generalizing k with
  | nil => exact List.Forall₂.nil
  | cons hhead htail ih =>
    cases k with
    | zero => exact htail
    | succ k => exact List.Forall₂.cons hhead (ih k)

theorem Sound.forget (k : Nat) :
    Sound { s with strings := s.strings.eraseIdx k } { c with strings := c.strings.eraseIdx k } :=
  h.extend ⟨le_rfl, fun _ => rfl⟩ rfl h.narrow (forall₂_eraseIdx h.strings k)
    fun _ hmem => h.guarded (Or.inl (mem_of_mem_eraseIdx hmem))

theorem Sound.substring (hval : s.Valid string) (hgua : s.Guarded string)
    {offset length : Nat} (hran : offset + length ≤ string.length) :
    s.Valid (createSubstringSharingImpl string offset length) ∧
      s.Guarded (createSubstringSharingImpl string offset length) ∧
      s.characters (createSubstringSharingImpl string offset length) =
        ((s.characters string).drop offset).take length := by
  rw [createSubstringSharingImpl]
  split_ifs with hzero
  · rw [hzero, take_zero]
    exact ⟨h.valid_emptyString, guarded_emptyString s, characters_emptyString s⟩
  · have hstop := hval.stop
    refine ⟨⟨hval.impl, ?_⟩, fun i hi => ?_, ?_⟩
    · show string.offset + offset + length ≤ (s.impl string.impl).characters.length
      omega
    · have hend := hgua i hi
      show string.offset + offset + length ≤ _
      omega
    · show ((s.impl string.impl).characters.drop (string.offset + offset)).take length =
        ((((s.impl string.impl).characters.drop string.offset).take string.length).drop offset).take length
      rw [drop_take, drop_drop, take_take, min_eq_left (by omega)]

def createString (limit : Bool → Nat) (is8Bit : Bool) (content : List UInt16) (s : Strings ι) :
    Except Stop (Strings ι) := do
  let (address, s) ← create limit is8Bit content content.length s
  pure { s with strings := s.strings ++ [s.whole address] }

theorem Sound.createString {content : List UInt16}
    (hnar : is8Bit = true → ∀ x ∈ content, x < 256) :
    Ends (createString limit is8Bit content s) fun s' => Sound s' { c with strings := c.strings ++ [content] } := by
  rw [Strings.createString]
  by_cases hnil : content = []
  · have hwho : s.whole 0 = emptyString := by rw [whole, h.zero, emptyString, length_nil]
    have hhold := h.hold h.valid_emptyString (guarded_emptyString s)
    rw [characters_emptyString, ← hwho] at hhold
    rw [hnil, create, if_pos length_nil]
    exact hhold
  · refine (create_spec limit s is8Bit content fun hzero => hnil (eq_nil_of_length_eq_zero hzero)).bind
      fun r hr => ?_
    rw [List.take_length, List.rightpad, Nat.sub_self, List.replicate_zero, List.append_nil] at hr
    subst hr
    have hhold := (h.alloc ⟨is8Bit, content⟩ hnar).hold
      (⟨?_, ?_⟩ : Valid _ ((s.addImpl ⟨is8Bit, content⟩).whole s.heap.length)) fun i hi => ?_
    · rw [characters_whole, impl_addImpl] at hhold
      exact hhold
    · show s.heap.length < (s.heap ++ [_]).length
      rw [length_append]
      exact lt_succ_self _
    · exact (zero_add _).le
    · exact absurd ((h.builders i).buffer _ hi).1 (lt_irrefl _)

/-- The builder has only a buffer, and no string sees it. -/
structure OwnBuffer (s : Strings ι) (this : ι) : Prop where
  string : (s.builders this).string = none
  buffer : ∃ buffer, (s.builders this).buffer = some buffer ∧ ∀ string, s.Live string → string.impl ≠ buffer

omit h in
theorem FreshBuffer.own {length : Nat} (h : FreshBuffer s this is8Bit length) : OwnBuffer s this := by
  obtain ⟨hstr, buffer, hbuf, -, -, hfre⟩ := h
  exact ⟨hstr, buffer, hbuf, hfre⟩

variable [DecidableEq ι]

theorem Sound.setString (hval : s.Valid string) (hgua : s.Guarded string)
    (hchs : s.characters string = c.builders this)
    (hwid : c.builders this ≠ [] → s.is8Bit string = (s.builders this).is8Bit)
    (hemp : c.builders this = [] → string.impl = 0) :
    Sound (s.setBuilder this { s.builders this with string := some string }) c := by
  have hsto := h.builders this
  rw [← Contents.set_self c this]
  refine h.replace ⟨hsto.length, fun string' hstr => ?_, hsto.buffer, fun hnone => nomatch hnone⟩
    (fun a ha => ⟨fun j hj hja => hj (h.distinct hja ha), h.behind ha⟩) fun string' hstr => ?_
  · obtain rfl : string = string' := Option.some.inj hstr
    exact ⟨hval, hchs, hwid, hemp⟩
  · obtain rfl : string = string' := Option.some.inj hstr
    exact ⟨hgua this, fun j _ => hgua j⟩

theorem Sound.reifyString :
    Ends (reifyString this s) fun s' => Sound s' c ∧ ∃ string, (s'.builders this).string = some string := by
  have hsto := h.builders this
  rw [Strings.reifyString]
  split_ifs with hstr hzero
  · exact ⟨h, Option.ne_none_iff_exists'.mp hstr⟩
  · have hnil := h.nil_of_length hzero
    refine ⟨h.setString h.valid_emptyString (guarded_emptyString s) ?_ (fun hne => absurd hnil hne) fun _ => rfl,
      emptyString, ?_⟩
    · rw [hnil, characters_emptyString]
    · rw [builders_setBuilder]
  · have hne := h.ne_nil_of_length hzero
    cases hbuf : (s.builders this).buffer with
    | none => exact absurd (hsto.present (not_not.mp hstr) hbuf) hne
    | some buffer =>
      obtain ⟨hlt, hwid, hst⟩ := hsto.buffer buffer hbuf
      have hlen := hst.length_le
      -- Both forms of the string are the same range of the buffer.
      have hboth : (if (s.builders this).length = (s.impl buffer).characters.length then s.whole buffer
          else createSubstringSharingImpl (s.whole buffer) 0 (s.builders this).length) =
          ⟨buffer, 0, (s.builders this).length⟩ := by
        split_ifs with hfull
        · rw [whole, hfull]
        · rw [createSubstringSharingImpl, if_neg hzero, whole]
      dsimp only
      rw [hboth, ← hbuf]
      refine ⟨h.setString ⟨hlt, ?_⟩ (fun i hi => ?_) ?_ (fun _ => ?_) fun hnil => absurd hnil hne,
        ⟨buffer, 0, (s.builders this).length⟩, ?_⟩
      · rw [zero_add, hsto.length]
        exact hlen
      · rw [h.distinct hi hbuf, zero_add]
      · rw [characters, drop_zero, hsto.length, ← prefix_iff_eq_take.mp hst]
      · exact hwid
      · rw [builders_setBuilder]

theorem Sound.returnString :
    Ends (returnString this s) fun s' => Sound s' { c with strings := c.strings ++ [c.builders this] } := by
  refine h.reifyString.bind fun s' hs' => ?_
  obtain ⟨hs', string, hstr⟩ := hs'
  obtain ⟨hval, hchs, -⟩ := (hs'.builders this).string string hstr
  have hhold := hs'.hold hval (hs'.guarded (Or.inr ⟨this, hstr⟩))
  rw [hchs] at hhold
  rw [hstr]
  exact hhold

/-! ## Capacities -/

theorem Sound.shorten (hown : OwnBuffer s this) {n : Nat} (hn : n ≤ (c.builders this).length) :
    Sound (s.setBuilder this { s.builders this with length := n }) (c.set this ((c.builders this).take n)) := by
  obtain ⟨hstr, buffer, hbuf, hfre⟩ := hown
  refine h.replace ⟨(length_take_of_le hn).symm, fun string hs => ?_, fun a ha => ?_, fun _ hnone => ?_⟩
    (fun a ha => ⟨fun j hj hja => hj (h.distinct hja ha), fun hlive himpl => ?_⟩) fun string hs => ?_
  · exact nomatch hstr.symm.trans hs
  · obtain ⟨hlt, hwid, hst⟩ := (h.builders this).buffer a ha
    exact ⟨hlt, hwid, ( take_prefix _ _).trans hst⟩
  · exact nomatch hbuf.symm.trans hnone
  · obtain rfl : buffer = a := Option.some.inj (hbuf.symm.trans ha)
    exact absurd himpl (hfre _ hlive)
  · exact nomatch hstr.symm.trans hs

theorem Sound.clear : Sound (clear this s) (c.set this []) :=
  h.replace ⟨rfl, nofun, nofun, fun _ _ => rfl⟩ nofun nofun

variable [Fintype ι] {buffer : Nat}

theorem Sound.unshareBuffer (hstr : (s.builders this).string = none)
    (hbuf : (s.builders this).buffer = some buffer) (hcap : (s.impl buffer).characters.length ≠ 0) :
    Ends (unshareBuffer limit this buffer s) fun s' => Sound s' c ∧ OwnBuffer s' this := by
  obtain ⟨hlt, hwid, hst⟩ := (h.builders this).buffer buffer hbuf
  rw [Strings.unshareBuffer]
  split_ifs with hone
  · obtain ⟨-, hbui, hstrs⟩ := hasOneRef_iff.mp hone
    refine ⟨h, hstr, buffer, hbuf, fun string hlive => ?_⟩
    rcases hlive with hmem | ⟨j, hj⟩
    · exact hstrs string hmem
    · exact hbui j string hj
  · exact (h.allocateBuffer hwid.symm hst (h.narrow _ (mem_heap hlt)) hcap hst.length_le).mono
      fun s' hs' => ⟨hs'.1, hs'.2.own⟩

theorem Sound.resize {n : Nat} (hn : n ≤ (c.builders this).length) :
    Ends (resize limit this n s) fun s' => Sound s' (c.set this ((c.builders this).take n)) := by
  have hsto := h.builders this
  rw [Strings.resize, if_neg (by rw [hsto.length]; exact not_lt.mpr hn)]
  split_ifs with hsame
  · rw [hsame, hsto.length, take_length, Contents.set_self]
    exact h
  · have hlt : n < (c.builders this).length := lt_of_le_of_ne hn (hsto.length ▸ hsame)
    cases hbuf : (s.builders this).buffer with
    | some buffer =>
      obtain ⟨-, -, hst⟩ := hsto.buffer buffer hbuf
      have hcap : (s.impl buffer).characters.length ≠ 0 := ((zero_le n).trans_lt hlt |>.trans_le hst.length_le).ne'
      refine ((h.dropString hbuf).unshareBuffer ?_ ?_ hcap).bind fun s' hs' => hs'.1.shorten hs'.2 hn
      · rw [builders_dropString]
      · rw [builders_dropString, hbuf]
    | none =>
      have hne : c.builders this ≠ [] := ne_nil_of_length_pos ((zero_le n).trans_lt hlt)
      cases hstr : (s.builders this).string with
      | none => exact absurd (hsto.present hstr hbuf) hne
      | some string =>
        obtain ⟨hval, hchs, hwid, -⟩ := hsto.string string hstr
        have hlive : s.Live string := Or.inr ⟨this, hstr⟩
        have hran : 0 + n ≤ string.length := by
          rw [zero_add, ← h.length_characters hlive, hchs]
          exact hn
        obtain ⟨hval', hgua, hsub⟩ := h.substring hval (h.guarded hlive) hran
        rw [hchs, drop_zero] at hsub
        refine h.putString rfl hbuf (length_take_of_le hn).symm hval' hsub (fun j _ => hgua j)
          (fun hsome => ?_) fun hnil => ?_
        · rw [createSubstringSharingImpl, if_neg fun hzero => hsome (by rw [hzero, take_zero])]
          exact hwid hne
        · rw [createSubstringSharingImpl, if_pos]
          · rfl
          · exact (take_eq_nil_iff.mp hnil).resolve_right hne

/-- An empty builder that once was of 16 bits gets a buffer of 8 bits. -/
def Narrows (limit : Bool → Nat) (s : Strings ι) (this : ι) (newCapacity : Nat) : Prop :=
  (s.builders this).buffer = none ∧ (s.builders this).length = 0 ∧ 0 < newCapacity ∧ newCapacity ≤ limit true ∧
    (s.builders this).is8Bit = false

theorem Sound.reserveCapacity {newCapacity : Nat} (hwid : ¬ Narrows limit s this newCapacity) :
    Ends (reserveCapacity limit this newCapacity s) fun s' => Sound s' c := by
  have hsto := h.builders this
  rw [Strings.reserveCapacity]
  cases hbuf : (s.builders this).buffer with
  | some buffer =>
    obtain ⟨-, hbufWi, hst⟩ := hsto.buffer buffer hbuf
    dsimp only
    split_ifs with hlong
    · exact (h.reallocateBuffer hbufWi.symm hbuf (ne_zero_of_lt hlong)
        (hst.length_le.trans hlong.le)).mono fun s' hs' => hs'.1
    · exact h
  | none =>
    split_ifs with hlong hzero
    · have hnil := h.nil_of_length hzero
      cases hbui : (s.builders this).is8Bit with
      | true =>
        refine (h.allocateBuffer hbui (hnil ▸ nil_prefix) (fun _ x hx => ?_) (ne_zero_of_lt hlong)
          (hnil ▸ zero_le _)).mono fun s' hs' => hs'.1
        exact absurd hx not_mem_nil
      | false =>
        have htooLo : ¬ newCapacity ≤ limit true := fun hle =>
          hwid ⟨hbuf, hzero, zero_lt_of_lt hlong, hle, hbui⟩
        rw [Strings.allocateBuffer, create, if_neg (ne_zero_of_lt hlong), if_pos (Nat.lt_of_not_le htooLo)]
        exact Ends.crash
    · have hne := h.ne_nil_of_length hzero
      cases hstr : (s.builders this).string with
      | none => exact absurd (hsto.present hstr hbuf) hne
      | some string =>
        obtain ⟨hval, hchs, hstrWi, -⟩ := hsto.string string hstr
        exact (h.allocateBuffer (hstrWi hne).symm (hchs ▸ prefix_rfl)
          (h.narrow_characters hval) (ne_zero_of_lt hlong) (hsto.length ▸ hlong.le)).mono fun s' hs' => hs'.1
    · exact h

theorem Sound.reallocateBuffer_zero (hbuf : (s.builders this).buffer = some buffer) :
    Strings.reallocateBuffer limit this (s.builders this).is8Bit 0 s =
      pure (s.setBuilder this { s.builders this with string := none, buffer := some 0 }) := by
  obtain ⟨-, hwid, -⟩ := (h.builders this).buffer buffer hbuf
  have hcre : ∀ is8Bit content (s : Strings ι), create limit is8Bit content 0 s = pure (0, s) := by
    intro is8Bit content s
    rw [create, if_pos rfl]
  rw [Strings.reallocateBuffer, builders_dropString, hbuf]
  dsimp only
  rw [if_neg (not_not.mpr (show ((s.dropString this).impl buffer).is8Bit = _ from hwid))]
  split_ifs with hone
  · rw [reallocate, hcre]
    show (pure ((s.dropString this).setBuilder this
      { (s.dropString this).builders this with buffer := some 0 }) : Except Stop (Strings ι)) = _
    rw [builders_dropString, Strings.dropString, setBuilder_setBuilder]
  · rw [Strings.allocateBuffer, hcre]
    show (pure ((s.dropString this).setBuilder this
      { (s.dropString this).builders this with buffer := some 0, string := none }) : Except Stop (Strings ι)) = _
    rw [builders_dropString, Strings.dropString, setBuilder_setBuilder]

theorem Sound.shrinkToFit : Ends (shrinkToFit limit this s) fun s' => Sound s' c := by
  have hsto := h.builders this
  rw [Strings.shrinkToFit]
  split_ifs with hshr
  · obtain ⟨buffer, hbuf⟩ : ∃ buffer, (s.builders this).buffer = some buffer := by
      rw [canShrink] at hshr
      cases hbuf : (s.builders this).buffer with
      | none => exact nomatch hbuf ▸ hshr
      | some buffer => exact ⟨buffer, rfl⟩
    by_cases hzero : (s.builders this).length = 0
    · have hnil := h.nil_of_length hzero
      have hwho : s.whole 0 = emptyString := by rw [whole, h.zero, emptyString, length_nil]
      rw [hzero, h.reallocateBuffer_zero hbuf, pure_bind, builders_setBuilder]
      dsimp only
      rw [setBuilder_setBuilder]
      show Sound (s.setBuilder this { s.builders this with string := some (s.whole 0), buffer := none }) c
      rw [hwho, ← Contents.set_self c this]
      refine h.putString rfl rfl hsto.length h.valid_emptyString ?_ (fun j _ => guarded_emptyString s j)
        (fun hne => absurd hnil hne) fun _ => rfl
      rw [hnil, characters_emptyString]
    · have hne := h.ne_nil_of_length hzero
      refine (h.reallocateBuffer rfl hbuf hzero hsto.length.ge).bind fun s' hs' => ?_
      obtain ⟨hs', hnone, fresh, hfre, hwid, hlen, -⟩ := hs'
      obtain ⟨hlt, hfreWi, hst⟩ := (hs'.builders this).buffer fresh hfre
      rw [hfre, ← Contents.set_self c this]
      refine hs'.putString rfl rfl (hs'.builders this).length ⟨hlt, (zero_add _).le⟩ ?_
        (fun j hj hja => absurd (hs'.distinct hja hfre) hj) (fun _ => hfreWi) fun hnil => absurd hnil hne
      rw [characters_whole]
      exact (hst.eq_of_length (hsto.length.symm.trans hlen.symm)).symm
  · exact h

theorem Sound.toString :
    Ends (toString limit this s) fun s' => Sound s' { c with strings := c.strings ++ [c.builders this] } :=
  h.shrinkToFit.bind fun _ hs' => hs'.returnString

end Strings

end WebV8
