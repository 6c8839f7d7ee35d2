import WebV8.WTF.StringBuilder

/-! # What a StringBuilder holds

The invariant of a program with builders: a builder's string and buffer hold its characters in its width, no two
builders have the same buffer, and of a buffer all strings see only what is before the end of the builder. Each
function is the composition of a few changes, and each change keeps the invariant.
-/

namespace WebV8

open Lib List Nat

namespace Strings

variable {ι : Type}

structure Contents (ι : Type) where
  builders : ι → List UInt16
  strings : List (List UInt16)

structure Valid (s : Strings ι) (string : StringRef) : Prop where
  impl : string.impl < s.heap.length
  stop : string.offset + string.length ≤ (s.impl string.impl).characters.length

structure Stored (s : Strings ι) (builder : StringBuilder) (contents : List UInt16) : Prop where
  length : builder.length = contents.length
  string : ∀ string ∈ builder.string, s.Valid string ∧ s.characters string = contents ∧
    (contents ≠ [] → s.is8Bit string = builder.is8Bit) ∧ (contents = [] → string.impl = 0)
  buffer : ∀ buffer ∈ builder.buffer, buffer < s.heap.length ∧ (s.impl buffer).is8Bit = builder.is8Bit ∧
    contents <+: (s.impl buffer).characters
  present : builder.string = none → builder.buffer = none → contents = []

def Live (s : Strings ι) (string : StringRef) : Prop :=
  string ∈ s.strings ∨ ∃ i, (s.builders i).string = some string

structure Sound (s : Strings ι) (c : Contents ι) : Prop where
  nonempty : 0 < s.heap.length
  zero : s.impl 0 = ⟨true, []⟩
  narrow : ∀ impl ∈ s.heap, impl.is8Bit = true → ∀ x ∈ impl.characters, x < 256
  builders : ∀ i, s.Stored (s.builders i) (c.builders i)
  strings : List.Forall₂ (fun string contents => s.Valid string ∧ s.characters string = contents) s.strings c.strings
  distinct : ∀ {i j a}, (s.builders i).buffer = some a → (s.builders j).buffer = some a → i = j
  behind : ∀ {i a}, (s.builders i).buffer = some a → ∀ {string}, s.Live string → string.impl = a →
    string.offset + string.length ≤ (s.builders i).length

variable {s s' : Strings ι} {c : Contents ι} {string : StringRef} {contents : List UInt16}

/-! ## Memory that stays the same -/

/-- All memory of the first program is also that of the second one. -/
structure Extends (s s' : Strings ι) : Prop where
  length : s.heap.length ≤ s'.heap.length
  impl : ∀ {a}, a < s.heap.length → s'.impl a = s.impl a

theorem Extends.valid (h : Extends s s') (hval : s.Valid string) :
    s'.Valid string ∧ s'.characters string = s.characters string ∧ s'.is8Bit string = s.is8Bit string := by
  have himpl := h.impl hval.impl
  refine ⟨⟨hval.impl.trans_le h.length, ?_⟩, ?_, ?_⟩
  · rw [himpl]
    exact hval.stop
  · rw [characters, characters, himpl]
  · rw [is8Bit, is8Bit, himpl]

theorem Extends.stored (h : Extends s s') {builder : StringBuilder}
    (hsto : s.Stored builder contents) : s'.Stored builder contents := by
  refine ⟨hsto.length, fun string hstr => ?_, fun buffer hbuf => ?_, hsto.present⟩
  · obtain ⟨hval, hchs, hwid, hemp⟩ := hsto.string string hstr
    obtain ⟨hval', hchs', hwid'⟩ := h.valid hval
    exact ⟨hval', hchs'.trans hchs, fun hne => hwid'.trans (hwid hne), hemp⟩
  · obtain ⟨hlt, hwid, hst⟩ := hsto.buffer buffer hbuf
    rw [h.impl hlt]
    exact ⟨hlt.trans_le h.length, hwid, hst⟩

theorem Sound.valid (h : Sound s c) (hlive : s.Live string) : s.Valid string := by
  rcases hlive with hmem | ⟨i, hi⟩
  · obtain ⟨k, hk, rfl⟩ := mem_iff_getElem.mp hmem
    obtain ⟨hlen, hall⟩ := forall₂_iff_get.mp h.strings
    exact (hall k hk (hlen ▸ hk)).1
  · exact ((h.builders i).string string hi).1

/-- A string that a program may hold: it sees no more of a buffer than the builder has. -/
def Guarded (s : Strings ι) (string : StringRef) : Prop :=
  ∀ i, (s.builders i).buffer = some string.impl → string.offset + string.length ≤ (s.builders i).length

theorem Sound.guarded (h : Sound s c) (hlive : s.Live string) : s.Guarded string :=
  fun _ hi => h.behind hi hlive rfl

/-- There may be more memory, and the program may hold other strings. -/
theorem Sound.extend {contents : List (List UInt16)} (h : Sound s c) (hext : Extends s s')
    (hbuil : s'.builders = s.builders)
    (hnar : ∀ impl ∈ s'.heap, impl.is8Bit = true → ∀ x ∈ impl.characters, x < 256)
    (hstrs : List.Forall₂ (fun string content => s.Valid string ∧ s.characters string = content) s'.strings contents)
    (hgua : ∀ string ∈ s'.strings, s.Guarded string) : Sound s' { c with strings := contents } := by
  refine ⟨h.nonempty.trans_le hext.length, (hext.impl h.nonempty).trans h.zero, hnar, fun i => ?_, ?_, ?_,
    fun {i a} hi {string} hlive himpl => ?_⟩
  · rw [hbuil]
    exact hext.stored (h.builders i)
  · refine hstrs.imp fun string content hstr => ?_
    obtain ⟨hval, hchs, -⟩ := hext.valid hstr.1
    exact ⟨hval, hchs.trans hstr.2⟩
  · rw [hbuil]
    exact h.distinct
  · rw [Live, hbuil] at hlive
    rw [hbuil] at hi ⊢
    rcases hlive with hmem | hbui
    · exact hgua string hmem i (himpl ▸ hi)
    · exact h.behind hi (Or.inr hbui) himpl

theorem Sound.alloc (h : Sound s c) (impl : StringImpl) (hnar : impl.is8Bit = true → ∀ x ∈ impl.characters, x < 256) :
    Sound (s.addImpl impl) c := by
  have hext : Extends s (s.addImpl impl) := by
    refine ⟨?_, fun {a} ha => ?_⟩
    · rw [addImpl, length_append]
      exact le_add_right _ _
    · exact getD_append _ _ _ _ ha
  refine h.extend hext rfl (fun impl' hmem => ?_) h.strings fun _ hmem => h.guarded (Or.inl hmem)
  rcases mem_append.mp hmem with hold | hnew
  · exact h.narrow impl' hold
  · obtain rfl := mem_singleton.mp hnew
    exact hnar

variable {this : ι} {is8Bit : Bool} {buffer length : Nat} {impl : StringImpl}

theorem take_drop_of_start {p xs ys : List UInt16} (hx : p <+: xs) (hy : p <+: ys) {o l : Nat} (h : o + l ≤ p.length) :
    (xs.drop o).take l = (ys.drop o).take l := by
  obtain ⟨xs', rfl⟩ := hx
  obtain ⟨ys', rfl⟩ := hy
  have hst : ∀ zs : List UInt16, ((p ++ zs).drop o).take l = (p.drop o).take l := by
    intro zs
    rw [drop_append_of_le_length (by omega), take_append_of_le_length]
    rw [length_drop]
    omega
  rw [hst, hst]

theorem impl_addImpl (s : Strings ι) (impl : StringImpl) : (s.addImpl impl).impl s.heap.length = impl := by
  simp [Strings.impl, addImpl]

theorem impl_setImpl (h : buffer < s.heap.length) (impl : StringImpl) (a : Nat) :
    (s.setImpl buffer impl).impl a = if a = buffer then impl else s.impl a := by
  rw [Strings.impl, Strings.impl, Strings.setImpl, getD_eq_getElem?_getD, getD_eq_getElem?_getD]
  split_ifs with heq
  · rw [heq, List.getElem?_set_self h]
    rfl
  · rw [List.getElem?_set_ne (Ne.symm heq)]

theorem mem_heap {a : Nat} (h : a < s.heap.length) : s.impl a ∈ s.heap := by
  rw [Strings.impl, getD_eq_getElem _ _ h]
  exact getElem_mem h

theorem Sound.read_setImpl (h : Sound s c) (hbuf : (s.builders this).buffer = some buffer)
    (hwid : impl.is8Bit = (s.impl buffer).is8Bit) (hst : c.builders this <+: impl.characters)
    (hlen : (s.impl buffer).characters.length ≤ impl.characters.length) (hlive : s.Live string) :
    (s.setImpl buffer impl).Valid string ∧ (s.setImpl buffer impl).characters string = s.characters string ∧
      (s.setImpl buffer impl).is8Bit string = s.is8Bit string := by
  obtain ⟨hlt, -, hold⟩ := (h.builders this).buffer buffer hbuf
  have hval := h.valid hlive
  have hstop := hval.stop
  have himpl := impl_setImpl hlt impl string.impl
  have hheap : string.impl < (s.setImpl buffer impl).heap.length := by
    rw [Strings.setImpl, length_set]
    exact hval.impl
  refine ⟨⟨hheap, ?_⟩, ?_, ?_⟩
  · rw [himpl]
    split_ifs with heq
    · exact (heq ▸ hstop).trans hlen
    · exact hstop
  · rw [characters, characters, himpl]
    split_ifs with heq
    · rw [heq]
      exact take_drop_of_start hst hold ((h.builders this).length ▸ h.behind hbuf hlive heq)
    · rfl
  · rw [is8Bit, is8Bit, himpl]
    split_ifs with heq
    · rw [heq, hwid]
    · rfl

/-- The memory of a builder may be written behind the end of the builder. -/
theorem Sound.setImpl (h : Sound s c) (hbuf : (s.builders this).buffer = some buffer) (hzero : buffer ≠ 0)
    (hwid : impl.is8Bit = (s.impl buffer).is8Bit) (hst : c.builders this <+: impl.characters)
    (hlen : (s.impl buffer).characters.length ≤ impl.characters.length)
    (hnar : impl.is8Bit = true → ∀ x ∈ impl.characters, x < 256) : Sound (s.setImpl buffer impl) c := by
  obtain ⟨hlt, -, -⟩ := (h.builders this).buffer buffer hbuf
  have hheap : (s.setImpl buffer impl).heap.length = s.heap.length := length_set
  refine ⟨hheap ▸ h.nonempty, ?_, fun impl' hmem => ?_, fun i => ?_, ?_, h.distinct, h.behind⟩
  · rw [impl_setImpl hlt, if_neg (Ne.symm hzero)]
    exact h.zero
  · rcases mem_or_eq_of_mem_set hmem with hold | rfl
    · exact h.narrow impl' hold
    · exact hnar
  · have hsto := h.builders i
    refine ⟨hsto.length, fun string hs => ?_, fun a ha => ?_, hsto.present⟩
    · obtain ⟨-, hold, holdWi, hemp⟩ := hsto.string string hs
      obtain ⟨hval, hcha, hsamWi⟩ := h.read_setImpl hbuf hwid hst hlen (Or.inr ⟨i, hs⟩)
      exact ⟨hval, hcha.trans hold, fun hne => hsamWi.trans (holdWi hne), hemp⟩
    · rw [hheap, impl_setImpl hlt]
      obtain ⟨hlt', hold, hold'⟩ := hsto.buffer a ha
      split_ifs with heq
      · obtain rfl := h.distinct (heq ▸ ha) hbuf
        exact ⟨hlt', hwid.trans (heq ▸ hold), hst⟩
      · exact ⟨hlt', hold, hold'⟩
  · have hstrs := h.strings
    rw [forall₂_iff_get] at hstrs ⊢
    refine ⟨hstrs.1, fun k hk hk' => ?_⟩
    obtain ⟨hval, hcha, -⟩ :=
      h.read_setImpl hbuf hwid hst hlen (Or.inl (get_mem s.strings ⟨k, hk⟩))
    exact ⟨hval, hcha.trans (hstrs.2 k hk hk').2⟩

/-- The builder has only a buffer, with room for more characters. -/
structure Room (s : Strings ι) (this : ι) (is8Bit : Bool) (n : Nat) : Prop where
  string : (s.builders this).string = none
  buffer : ∃ buffer, (s.builders this).buffer = some buffer ∧ (s.impl buffer).is8Bit = is8Bit ∧
    (s.builders this).length + n ≤ (s.impl buffer).characters.length

/-- The builder has only a buffer of this length, and nobody else refers to it. -/
structure FreshBuffer (s : Strings ι) (this : ι) (is8Bit : Bool) (length : Nat) : Prop where
  string : (s.builders this).string = none
  buffer : ∃ buffer, (s.builders this).buffer = some buffer ∧ (s.impl buffer).is8Bit = is8Bit ∧
    (s.impl buffer).characters.length = length ∧ ∀ string, s.Live string → string.impl ≠ buffer

theorem FreshBuffer.room {n : Nat} (h : FreshBuffer s this is8Bit length)
    (hn : (s.builders this).length + n ≤ length) : Room s this is8Bit n := by
  obtain ⟨hstr, buffer, hbuf, hwid, hlen, -⟩ := h
  exact ⟨hstr, buffer, hbuf, hwid, hlen ▸ hn⟩

theorem create_spec (limit : Bool → Nat) (s : Strings ι) (is8Bit : Bool) (content : List UInt16)
    (h : length ≠ 0) : Ends (create limit is8Bit content length s) fun r =>
      r = (s.heap.length, s.addImpl ⟨is8Bit, (content.take length).rightpad length 0⟩) := by
  rw [create, if_neg h]
  split_ifs
  · exact Ends.crash
  · exact rfl

variable [DecidableEq ι] (b : StringBuilder)

@[simp] theorem heap_setBuilder : (s.setBuilder this b).heap = s.heap := rfl
@[simp] theorem strings_setBuilder : (s.setBuilder this b).strings = s.strings := rfl
@[simp] theorem impl_setBuilder (a : Nat) : (s.setBuilder this b).impl a = s.impl a := rfl
@[simp] theorem builders_setBuilder : (s.setBuilder this b).builders this = b := by
  simp [setBuilder]

theorem builders_setBuilder_apply (i : ι) :
    (s.setBuilder this b).builders i = if i = this then b else s.builders i :=
  Function.update_apply _ _ _ _

theorem live_of_setBuilder {b : StringBuilder} (h : (s.setBuilder this b).Live string) :
    s.Live string ∨ b.string = some string := by
  rcases h with hmem | ⟨j, hj⟩
  · exact Or.inl (Or.inl hmem)
  · rw [builders_setBuilder_apply] at hj
    split_ifs at hj
    · exact Or.inr hj
    · exact Or.inl (Or.inr ⟨j, hj⟩)

def Contents.set (c : Contents ι) (this : ι) (contents : List UInt16) : Contents ι :=
  { c with builders := Function.update c.builders this contents }

theorem Contents.builders_set_apply (contents : List UInt16) (i : ι) :
    (c.set this contents).builders i = if i = this then contents else c.builders i :=
  Function.update_apply _ _ _ _

theorem Contents.set_self (c : Contents ι) (this : ι) : c.set this (c.builders this) = c := by
  rw [Contents.set, Function.update_eq_self]

theorem extends_setBuilder : Extends s (s.setBuilder this b) := ⟨le_rfl, fun _ => rfl⟩

/-- A builder is replaced by one whose buffer is nobody else's, and whose strings see no more than they may. -/
theorem Sound.replace (h : Sound s c) {b : StringBuilder} (hsto : s.Stored b contents)
    (hbuf : ∀ a ∈ b.buffer, (∀ j, j ≠ this → (s.builders j).buffer ≠ some a) ∧
      ∀ {string}, s.Live string → string.impl = a → string.offset + string.length ≤ b.length)
    (hstr : ∀ string ∈ b.string, (b.buffer = some string.impl → string.offset + string.length ≤ b.length) ∧
      ∀ j, j ≠ this → (s.builders j).buffer = some string.impl → string.offset + string.length ≤ (s.builders j).length) :
    Sound (s.setBuilder this b) (c.set this contents) := by
  refine ⟨h.nonempty, h.zero, h.narrow, fun i => ?_, ?_, fun {i j a} hi hj => ?_,
    fun {i a} hi {string} hlive himpl => ?_⟩
  · apply (extends_setBuilder b).stored
    rw [builders_setBuilder_apply, Contents.builders_set_apply]
    split_ifs
    · exact hsto
    · exact h.builders i
  · refine h.strings.imp fun string contents hstr => ?_
    obtain ⟨hval, hchs, -⟩ := (extends_setBuilder b).valid hstr.1
    exact ⟨hval, hchs.trans hstr.2⟩
  · rw [builders_setBuilder_apply] at hi hj
    split_ifs at hi hj with hith hjth hjth
    · exact hith.trans hjth.symm
    · exact absurd hj ((hbuf a hi).1 j hjth)
    · exact absurd hi ((hbuf a hj).1 i hith)
    · exact h.distinct hi hj
  · rw [builders_setBuilder_apply] at hi ⊢
    -- Whose string is it?
    rcases live_of_setBuilder hlive with hold | hb
    · split_ifs at hi ⊢
      · exact (hbuf a hi).2 hold himpl
      · exact h.behind hi hold himpl
    · split_ifs at hi ⊢ with hith
      · exact (hstr string hb).1 (himpl ▸ hi)
      · exact (hstr string hb).2 i hith (himpl ▸ hi)

/-! ## Buffers -/

/-- New memory as the buffer of a builder. -/
theorem Sound.createBuffer (h : Sound s c) {limit : Bool → Nat} {content : List UInt16}
    (hcon : c.builders this <+: content) (hnar : is8Bit = true → ∀ x ∈ content, x < 256)
    (hne : length ≠ 0) (hlen : (c.builders this).length ≤ length) :
    Ends (create limit is8Bit content length s) fun r => r.2.builders this = s.builders this ∧
      ∀ b, b = { s.builders this with buffer := some r.1, string := none, is8Bit } →
        Sound (r.2.setBuilder this b) c ∧ FreshBuffer (r.2.setBuilder this b) this is8Bit length := by
  refine (create_spec limit s is8Bit content hne).mono fun r hr => ?_
  subst hr
  refine ⟨rfl, fun b hb => ?_⟩
  subst hb
  obtain ⟨impl, himpl⟩ : ∃ impl : StringImpl, impl = ⟨is8Bit, (content.take length).rightpad length 0⟩ := ⟨_, rfl⟩
  have hchs : c.builders this <+: impl.characters := by
    rw [himpl]
    refine List.IsPrefix.trans ?_ (prefix_append _ _)
    exact prefix_take_iff.mpr ⟨hcon, by omega⟩
  have hcap : impl.characters.length = length := by
    rw [himpl, List.rightpad, length_append, length_replicate, length_take]
    omega
  have hwid : impl.is8Bit = is8Bit := by rw [himpl]
  have hnar' : impl.is8Bit = true → ∀ x ∈ impl.characters, x < 256 := by
    intro hnarWi x hx
    rw [himpl] at hx
    rcases mem_append.mp hx with hold | hpad
    · exact hnar (hwid ▸ hnarWi) x (mem_of_mem_take hold)
    · rw [eq_of_mem_replicate hpad]
      decide
  rw [← himpl]
  have hsou := h.alloc impl hnar'
  -- No string is in the new memory.
  have hfre : ∀ {string}, s.Live string → string.impl ≠ s.heap.length := fun hlive => (h.valid hlive).impl.ne
  constructor
  · rw [← Contents.set_self c this]
    refine hsou.replace ⟨(h.builders this).length, nofun, fun buffer hbuf => ?_, fun _ hnone => nomatch hnone⟩
      (fun a ha => ⟨fun j _ hj => ?_, fun hlive himpl' => ?_⟩) nofun
    · obtain rfl : s.heap.length = buffer := Option.some.inj hbuf
      rw [impl_addImpl]
      refine ⟨?_, hwid, hchs⟩
      rw [addImpl, length_append]
      exact lt_succ_self _
    · obtain rfl : s.heap.length = a := Option.some.inj ha
      exact absurd ((h.builders j).buffer _ hj).1 (lt_irrefl _)
    · obtain rfl : s.heap.length = a := Option.some.inj ha
      exact absurd himpl' (hfre hlive)
  · refine ⟨by rw [builders_setBuilder], s.heap.length, by rw [builders_setBuilder], ?_, ?_, fun string hlive => ?_⟩
    · rw [impl_setBuilder, impl_addImpl, hwid]
    · rw [impl_setBuilder, impl_addImpl, hcap]
    · rcases live_of_setBuilder hlive with hold | hnew
      · exact hfre hold
      · exact nomatch hnew

theorem Sound.store [Fintype ι] (h : Sound s c) {characters : List UInt16} (hne : characters ≠ [])
    (hroom : Room s this is8Bit characters.length) (hnar : is8Bit = true → ∀ x ∈ characters, x < 256) :
    Ends (store this is8Bit characters s) fun s' => Sound s' (c.set this (c.builders this ++ characters)) := by
  obtain ⟨hstr, buffer, hbuf, hwid, hcap⟩ := hroom
  obtain ⟨hlt, hbuiWi, hst⟩ := (h.builders this).buffer buffer hbuf
  have hlen := (h.builders this).length
  have hpos := length_pos_iff.mpr hne
  have hchs : (s.impl buffer).characters.take (s.builders this).length = c.builders this := by
    rw [hlen, ← prefix_iff_eq_take.mp hst]
  obtain ⟨impl, himpl⟩ : ∃ impl : StringImpl, impl = ⟨(s.impl buffer).is8Bit, c.builders this ++ characters ++
    (s.impl buffer).characters.drop ((s.builders this).length + characters.length)⟩ := ⟨_, rfl⟩
  have hsto : Strings.store this is8Bit characters s = pure ((s.setImpl buffer impl).setBuilder this
      { s.builders this with length := (s.builders this).length + characters.length }) := by
    rw [Strings.store, hbuf]
    dsimp only
    rw [if_pos ⟨hwid, hcap⟩, hchs, ← hbuf, himpl]
  have hwid' : impl.is8Bit = (s.impl buffer).is8Bit := by rw [himpl]
  have hst' : c.builders this ++ characters <+: impl.characters := himpl ▸ prefix_append _ _
  have hsou : Sound (s.setImpl buffer impl) c := by
    refine h.setImpl hbuf ?_ hwid' ((prefix_append _ _).trans hst') ?_ fun hnarWi x hx => ?_
    · rintro rfl
      rw [h.zero, length_nil] at hcap
      omega
    · rw [himpl, length_append, length_append, length_drop]
      omega
    · have hold := h.narrow _ (mem_heap hlt) (hwid' ▸ hnarWi)
      rw [himpl] at hx
      rcases mem_append.mp hx with hx | hx
      · rcases mem_append.mp hx with hx | hx
        · exact hold x (hst.subset hx)
        · exact hnar (hwid ▸ hwid' ▸ hnarWi) x hx
      · exact hold x (mem_of_mem_drop hx)
  rw [hsto]
  refine hsou.replace ⟨?_, fun string hs => ?_, fun a ha => ?_, fun _ hnone => ?_⟩
    (fun a ha => ⟨fun j hj hja => hj (h.distinct hja ha), fun hlive himpl' => ?_⟩) fun string hs => ?_
  · rw [length_append, hlen]
  · exact nomatch hstr.symm.trans hs
  · obtain rfl : buffer = a := Option.some.inj (hbuf.symm.trans ha)
    obtain ⟨hlt', -, -⟩ := (hsou.builders this).buffer buffer hbuf
    rw [impl_setImpl hlt, if_pos rfl]
    exact ⟨hlt', hwid'.trans hbuiWi, hst'⟩
  · exact nomatch hbuf.symm.trans hnone
  · exact (h.behind ha hlive himpl').trans (le_add_right _ _)
  · exact nomatch hstr.symm.trans hs

end Strings

end WebV8
