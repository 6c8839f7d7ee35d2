import WebV8.Lib.Run
import WebV8.WTF.StringBuilderResize

/-! # Programs with StringBuilders

A program uses its builders in any order, and makes, shares and drops strings in between. Beside the memory, the
machine records what the builders and the strings are meant to hold. `along_correct_iff` says that they do, and that
the width of a builder is that of its storage, until one of two calls sets the storage without the width: a builder
that retains the string of another builder, and a capacity that is reserved for an empty builder of 16 bits.
-/

namespace WebV8

open Lib List

namespace Strings

inductive Operation (ι : Type) where
  | append8 (this : ι) (characters : List UInt8)
  | append16 (this : ι) (characters : List UInt16)
  | appendLChar (this : ι) (c : UInt8)
  | appendUChar (this : ι) (c : UInt16)
  | appendString (this : ι) (k : Nat)
  | appendBuilder (this other : ι)
  | resize (this : ι) (newSize : Nat)
  | reserveCapacity (this : ι) (newCapacity : Nat)
  | shrinkToFit (this : ι)
  | toString (this : ι)
  | toStringPreserveCapacity (this : ι)
  | clear (this : ι)
  | createString8 (content : List UInt8)
  | createString16 (content : List UInt16)
  | substring (k offset length : Nat)
  | forget (k : Nat)

/-- A program that runs, with what its memory is meant to hold, or one that has crashed on purpose. -/
inductive Machine (ι : Type) where
  | running (s : Strings ι) (c : Contents ι)
  | crashed

variable {ι : Type}

def stringAt (s : Strings ι) (k : Nat) : StringRef := s.strings.getD k emptyString

/-- What the builder shows is what it is meant to hold, and so are the strings. -/
structure Represents (s : Strings ι) (c : Contents ι) : Prop where
  length : ∀ i, (s.builders i).length = (c.builders i).length
  characters : ∀ i k, k < (c.builders i).length → characterAt i k s = (c.builders i)[k]?
  strings : s.strings.map s.characters = c.strings
  bufferWidth : ∀ i, ∀ buffer ∈ (s.builders i).buffer, (s.impl buffer).is8Bit = (s.builders i).is8Bit
  stringWidth : ∀ i, ∀ string ∈ (s.builders i).string, string.length ≠ 0 → s.is8Bit string = (s.builders i).is8Bit

def Correct : Machine ι → Prop
  | .running s c => s.Represents c
  | .crashed => True

def Allowed : Machine ι → Operation ι → Prop
  | .running s _, .appendString _ k => k < s.strings.length
  | .running _ _, .appendBuilder this other => this ≠ other
  | .running s _, .resize this newSize => newSize ≤ (s.builders this).length
  | .running s _, .substring k offset length => k < s.strings.length ∧ offset + length ≤ (s.stringAt k).length
  | _, _ => True

def Harmless (limit : Bool → Nat) : Machine ι → Operation ι → Prop
  | .running s _, .appendBuilder this other =>
    s.Retains this other → (s.builders this).is8Bit = (s.builders other).is8Bit
  | .running s _, .reserveCapacity this newCapacity => ¬ Narrows limit s this newCapacity
  | _, _ => True

def start : Machine ι := .running ⟨[⟨true, []⟩], fun _ => {}, []⟩ ⟨fun _ => [], []⟩

variable {s : Strings ι} {c : Contents ι} {k : Nat}

theorem Sound.characterAt (h : Sound s c) {this : ι} (hk : k < (c.builders this).length) :
    characterAt this k s = (c.builders this)[k]? := by
  obtain ⟨characters, hread, ⟨rest, rfl⟩, -⟩ := h.builderCharacters (ne_nil_of_length_pos (Nat.zero_lt_of_lt hk))
  rw [Strings.characterAt, hread]
  exact List.getElem?_append_left hk

theorem Sound.represents (h : Sound s c) : s.Represents c := by
  refine ⟨fun i => (h.builders i).length, fun i k hk => h.characterAt hk, ?_, fun i buffer hbuf => ?_,
    fun i string hstr hne => ?_⟩
  · have hstrs := h.strings.imp fun string contents hstr => hstr.2
    rw [← forall₂_map_left_iff] at hstrs
    exact forall₂_eq_eq_eq ▸ hstrs
  · exact ((h.builders i).buffer buffer hbuf).2.1
  · obtain ⟨-, hchs, hwid, -⟩ := (h.builders i).string string hstr
    refine hwid fun hnil => hne ?_
    rw [← h.length_characters (Or.inr ⟨i, hstr⟩), hchs, hnil, length_nil]

theorem sound_start : Sound (ι := ι) ⟨[⟨true, []⟩], fun _ => {}, []⟩ ⟨fun _ => [], []⟩ := by
  refine ⟨Nat.one_pos, rfl, fun impl hmem _ x hx => ?_, fun _ => ⟨rfl, nofun, nofun, fun _ _ => rfl⟩,
    List.Forall₂.nil, nofun, nofun⟩
  obtain rfl := mem_singleton.mp hmem
  exact absurd hx not_mem_nil

theorem live_stringAt (s : Strings ι) (hk : k < s.strings.length) : s.Live (s.stringAt k) := by
  rw [stringAt, getD_eq_getElem _ _ hk]
  exact Or.inl (getElem_mem hk)

theorem Sound.characters_stringAt (h : Sound s c) (hk : k < s.strings.length) :
    s.characters (s.stringAt k) = c.strings.getD k [] := by
  rw [stringAt, getD_eq_getElem _ _ hk, ← h.represents.strings, getD_eq_getElem _ _ (by simpa using hk),
    getElem_map]

variable [DecidableEq ι]

def intend (op : Operation ι) (c : Contents ι) : Contents ι :=
  match op with
  | .append8 this characters => c.set this (c.builders this ++ characters.map UInt8.toUInt16)
  | .append16 this characters => c.set this (c.builders this ++ characters)
  | .appendLChar this x => c.set this (c.builders this ++ [x.toUInt16])
  | .appendUChar this x => c.set this (c.builders this ++ [x])
  | .appendString this k => c.set this (c.builders this ++ c.strings.getD k [])
  | .appendBuilder this other => c.set this (c.builders this ++ c.builders other)
  | .resize this newSize => c.set this ((c.builders this).take newSize)
  | .reserveCapacity _ _ => c
  | .shrinkToFit _ => c
  | .toString this => { c with strings := c.strings ++ [c.builders this] }
  | .toStringPreserveCapacity this => { c with strings := c.strings ++ [c.builders this] }
  | .clear this => c.set this []
  | .createString8 content => { c with strings := c.strings ++ [content.map UInt8.toUInt16] }
  | .createString16 content => { c with strings := c.strings ++ [content] }
  | .substring k offset length => { c with strings := c.strings ++ [((c.strings.getD k []).drop offset).take length] }
  | .forget k => { c with strings := c.strings.eraseIdx k }

variable [Fintype ι]

def perform (limit : Bool → Nat) (op : Operation ι) (s : Strings ι) : Except Stop (Strings ι) :=
  match op with
  | .append8 this characters => append8 limit this characters s
  | .append16 this characters => append16 limit this characters s
  | .appendLChar this x => appendLChar limit this x s
  | .appendUChar this x => appendUChar limit this x s
  | .appendString this k => appendString limit this (s.stringAt k) s
  | .appendBuilder this other => appendBuilder limit this other s
  | .resize this newSize => resize limit this newSize s
  | .reserveCapacity this newCapacity => reserveCapacity limit this newCapacity s
  | .shrinkToFit this => shrinkToFit limit this s
  | .toString this => toString limit this s
  | .toStringPreserveCapacity this => returnString this s
  | .clear this => pure (clear this s)
  | .createString8 content => createString limit true (content.map UInt8.toUInt16) s
  | .createString16 content => createString limit false content s
  | .substring k offset length =>
    pure { s with strings := s.strings ++ [createSubstringSharingImpl (s.stringAt k) offset length] }
  | .forget k => pure { s with strings := s.strings.eraseIdx k }

/-- A crash is an end; after undefined behaviour there is no state. -/
def step (limit : Bool → Nat) (m : Machine ι) (op : Operation ι) : Option (Machine ι) :=
  match m with
  | .crashed => some .crashed
  | .running s c =>
    match perform limit op s with
    | .ok s' => some (.running s' (intend op c))
    | .error .crash => some .crashed
    | .error .undefined => none

variable {limit : Bool → Nat} {op : Operation ι}

theorem narrow_map (characters : List UInt8) : ∀ x ∈ characters.map UInt8.toUInt16, x < 256 := by
  intro x hx
  obtain ⟨x, -, rfl⟩ := mem_map.mp hx
  exact UInt16.lt_iff_toNat_lt.mpr x.toNat_lt

/-- **The step lemma**: a harmless call does what it is for. -/
theorem Sound.perform (h : Sound s c) (hok : Allowed (.running s c) op)
    (hhar : Harmless limit (.running s c) op) :
    Ends (perform limit op s) fun s' => Sound s' (intend op c) := by
  cases op with
  | append8 this characters => exact h.append8 characters
  | append16 this characters => exact h.append16 characters
  | appendLChar this x => exact h.appendLChar x
  | appendUChar this x => exact h.appendUChar x
  | appendString this k =>
    rw [intend, ← h.characters_stringAt hok]
    exact h.appendString (live_stringAt s hok)
  | appendBuilder this other => exact h.appendBuilder hhar
  | resize this newSize => exact h.resize ((h.builders this).length ▸ hok)
  | reserveCapacity this newCapacity => exact h.reserveCapacity hhar
  | shrinkToFit this => exact h.shrinkToFit
  | toString this => exact h.toString
  | toStringPreserveCapacity this => exact h.returnString
  | clear this => exact h.clear
  | createString8 content => exact h.createString fun _ => narrow_map content
  | createString16 content => exact h.createString nofun
  | substring k offset length =>
    have hlive := live_stringAt s hok.1
    obtain ⟨hval, hgua, hchs⟩ := h.substring (h.valid hlive) (h.guarded hlive) hok.2
    rw [intend, ← h.characters_stringAt hok.1, ← hchs]
    exact h.hold hval hgua
  | forget k => exact h.forget k

theorem not_represents_of_harm (h : Sound s c) (hharm : ¬ Harmless limit (.running s c) op) :
    ∃ s', perform limit op s = .ok s' ∧ ∀ c', ¬ s'.Represents c' := by
  cases op with
  | appendBuilder this other =>
    obtain ⟨⟨hemp, hret⟩, hwid⟩ := Classical.not_imp.mp hharm
    obtain ⟨string, hstr⟩ := Option.ne_none_iff_exists'.mp hret.2.2
    have hne : string.length ≠ 0 := by
      obtain ⟨-, hchs, -⟩ := (h.builders other).string string hstr
      rw [← h.length_characters (Or.inr ⟨other, hstr⟩), hchs, ← (h.builders other).length]
      exact hemp
    refine ⟨s.setBuilder this
      { s.builders this with string := (s.builders other).string, length := (s.builders other).length }, ?_,
      fun c' hc' => hwid ?_⟩
    · rw [Strings.perform, appendBuilder, if_neg hemp, if_pos hret]
      rfl
    · have hkept := hc'.stringWidth this string
      rw [builders_setBuilder] at hkept
      exact (hkept hstr hne).symm.trans (h.represents.stringWidth other string hstr hne)
  | reserveCapacity this newCapacity =>
    obtain ⟨hbuf, hzero, hpos, hlim, hwid⟩ := not_not.mp hharm
    refine ⟨(s.addImpl ⟨true, (([] : List UInt16).take newCapacity).rightpad newCapacity 0⟩).setBuilder this
      { s.builders this with buffer := some s.heap.length, string := none }, ?_, fun c' hc' => ?_⟩
    · rw [Strings.perform, reserveCapacity, hbuf]
      rw [if_pos (hzero ▸ hpos), if_pos hzero, allocateBuffer,
        take_nil, create, if_neg hpos.ne', if_neg (Nat.not_lt.mpr hlim)]
      rfl
    · have hkept := hc'.bufferWidth this s.heap.length
      rw [builders_setBuilder, impl_setBuilder, impl_addImpl] at hkept
      cases hwid.symm.trans (hkept rfl).symm
  | _ => exact absurd trivial hharm

def Invariant : Machine ι → Prop
  | .running s c => Sound s c
  | .crashed => True

/-- **Builders and strings**: every builder and every string of a program holds what it is meant to hold at all times,
    and a builder has the width of its storage, exactly if no call sets the storage of a builder without its width. -/
theorem along_correct_iff (limit : Bool → Nat) (ops : List (Operation ι)) (hok : EachStep (step limit) Allowed start ops) :
    Along (step limit) Correct start ops ↔ EachStep (step limit) (Harmless limit) start ops := by
  -- What is seen of a state does not determine it, so the invariant speaks of the states that are right so far.
  have hstep : ∀ (m : Machine ι) (op : Operation ι), (Correct m → Invariant m) → Correct m → Allowed m op →
      ∃ m', step limit m op = some m' ∧ (Correct m' → Invariant m') ∧ (Correct m' ↔ Harmless limit m op) := by
    intro m op hinv hcorrect hallowed
    cases m with
    | crashed => exact ⟨.crashed, rfl, fun _ => trivial, iff_of_true trivial trivial⟩
    | running s c =>
      have hsound : Sound s c := hinv hcorrect
      by_cases hharmless : Harmless limit (.running s c) op
      · have hends := hsound.perform hallowed hharmless
        cases hperform : perform limit op s with
        | ok s' =>
          rw [hperform] at hends
          exact ⟨.running s' (intend op c), by rw [step, hperform], fun _ => hends,
            iff_of_true hends.represents hharmless⟩
        | error stop =>
          rw [hperform] at hends
          cases stop with
          | crash => exact ⟨.crashed, by rw [step, hperform], fun _ => trivial, iff_of_true trivial hharmless⟩
          | undefined => exact hends.elim
      · obtain ⟨s', hperform, hnot⟩ := not_represents_of_harm hsound hharmless
        exact ⟨.running s' (intend op c), by rw [step, hperform], fun hright => absurd hright (hnot _),
          iff_of_false (hnot _) hharmless⟩
  exact along_iff_eachStep hstep ops (fun _ => sound_start) sound_start.represents hok

/-- Two characters, one of them of 16 bits, come back as a string. -/
theorem along_correct_iff_wide :
    Along (step (fun _ => 100)) Correct (start) [.append16 () [0x61, 0x100], .toString ()] :=
  (along_correct_iff (fun _ => 100) [.append16 () [0x61, 0x100], .toString ()]
    ⟨trivial, fun m _ => ⟨by cases m <;> trivial, fun _ _ => trivial⟩⟩).mpr
    ⟨trivial, fun m _ => ⟨by cases m <;> trivial, fun _ _ => trivial⟩⟩

/-- A builder that retains the 16-bit string of another one still counts as 8-bit. -/
theorem retained_string_has_other_width :
    EachStep (step (fun _ => 100)) Allowed (start (ι := Fin 2))
        [.createString16 [0x100], .appendString 0 0, .appendBuilder 1 0] ∧
      ¬ Along (step (fun _ => 100)) Correct (start (ι := Fin 2))
        [.createString16 [0x100], .appendString 0 0, .appendBuilder 1 0] := by
  refine ⟨⟨trivial, ?_⟩, ?_⟩
  · rintro _ ⟨⟩
    refine ⟨Nat.one_pos, ?_⟩
    rintro _ ⟨⟩
    exact ⟨(one_ne_zero : (1 : Fin 2) ≠ 0), fun _ _ => trivial⟩
  · rintro ⟨-, _, ⟨⟩, -, _, ⟨⟩, -, _, ⟨⟩, hcorrect⟩
    exact nomatch hcorrect.stringWidth 1 ⟨1, 0, 1⟩ rfl Nat.one_ne_zero

end Strings

end WebV8
