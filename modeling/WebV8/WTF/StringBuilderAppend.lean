import WebV8.WTF.StringBuilderState

/-! # The functions of a StringBuilder

One specification for each function: it keeps the invariant, and does to the contents what it is for. The two functions
that set a width without regard to the one they find are excluded here.
-/

namespace WebV8

open Lib List

namespace Strings

variable {ι : Type} {s : Strings ι} {c : Contents ι} {limit : Bool → Nat} {this : ι}

variable (h : Sound s c) {string : StringRef}
include h

theorem Sound.narrow_characters (hval : s.Valid string)
    (hwid : s.is8Bit string = true) : ∀ x ∈ s.characters string, x < 256 := by
  intro x hx
  exact h.narrow _ (mem_heap hval.impl) hwid x (mem_of_mem_drop (mem_of_mem_take hx))

/-! ## Reading -/

theorem Sound.nil_of_length (hzero : (s.builders this).length = 0) : c.builders this = [] :=
  eq_nil_of_length_eq_zero ((h.builders this).length.symm.trans hzero)

theorem Sound.ne_nil_of_length (hne : (s.builders this).length ≠ 0) : c.builders this ≠ [] :=
  fun hnil => hne ((h.builders this).length.trans (hnil ▸ length_nil))

omit h in
theorem characters_whole (s : Strings ι) (a : Nat) : s.characters (s.whole a) = (s.impl a).characters := by
  rw [characters, whole, drop_zero, take_length]

theorem Sound.currentCharacters (hbuf : (s.builders this).buffer = none) :
    Ends (currentCharacters this (s.builders this).is8Bit s) fun current => current = c.builders this ∧
      ((s.builders this).is8Bit = true → ∀ x ∈ current, x < 256) := by
  have hsto := h.builders this
  rw [Strings.currentCharacters]
  by_cases hzero : (s.builders this).length = 0
  · rw [if_pos hzero, h.nil_of_length hzero]
    exact ⟨rfl, nofun⟩
  · have hne := h.ne_nil_of_length hzero
    rw [if_neg hzero]
    cases hstr : (s.builders this).string with
    | none => exact absurd (hsto.present hstr hbuf) hne
    | some string =>
      obtain ⟨hval, hchs, hwid, -⟩ := hsto.string string hstr
      dsimp only
      rw [charactersAs, if_pos (hwid hne)]
      exact ⟨hchs, fun hnar => h.narrow_characters hval ((hwid hne).trans hnar)⟩

theorem Sound.currentCharacters8 (hwid : (s.builders this).is8Bit = true) :
    Ends (currentCharacters8 this s) fun current => c.builders this <+: current := by
  have hsto := h.builders this
  rw [Strings.currentCharacters8]
  cases hbuf : (s.builders this).buffer with
  | some buffer =>
    obtain ⟨-, hbufWi, hst⟩ := hsto.buffer buffer hbuf
    dsimp only
    rw [charactersAs, if_pos (show s.is8Bit (s.whole buffer) = true from hbufWi.trans hwid)]
    rw [characters_whole]
    exact hst
  | none =>
    cases hstr : (s.builders this).string with
    | none =>
      rw [hsto.present hstr hbuf]
      exact nil_prefix
    | some string =>
      obtain ⟨-, hchs, hstrWi, hemp⟩ := hsto.string string hstr
      dsimp only
      rw [charactersAs, if_pos]
      · exact hchs ▸ prefix_rfl
      · by_cases hnil : c.builders this = []
        · rw [is8Bit, hemp hnil, h.zero]
        · exact (hstrWi hnil).trans hwid

theorem Sound.length_characters (hlive : s.Live string) :
    (s.characters string).length = string.length := by
  have hstop := (h.valid hlive).stop
  rw [characters, length_take, length_drop]
  omega

theorem Sound.builderCharacters (hne : c.builders this ≠ []) :
    ∃ characters, builderCharacters this s = pure characters ∧ c.builders this <+: characters ∧
      ((s.builders this).is8Bit = true → ∀ x ∈ characters, x < 256) := by
  have hsto := h.builders this
  rw [Strings.builderCharacters]
  cases hstr : (s.builders this).string with
  | some string =>
    obtain ⟨hval, hchs, hwid, -⟩ := hsto.string string hstr
    dsimp only
    rw [charactersAs, if_pos (hwid hne)]
    exact ⟨_, rfl, hchs ▸ prefix_rfl,
      fun hnar => h.narrow_characters hval ((hwid hne).trans hnar)⟩
  | none =>
    cases hbuf : (s.builders this).buffer with
    | none => exact absurd (hsto.present hstr hbuf) hne
    | some buffer =>
      obtain ⟨hlt, hwid, hst⟩ := hsto.buffer buffer hbuf
      dsimp only
      rw [charactersAs, if_pos (show s.is8Bit (s.whole buffer) = _ from hwid), characters_whole]
      exact ⟨_, rfl, hst, fun hnar => h.narrow _ (mem_heap hlt) (hwid.trans hnar)⟩

theorem Sound.room_of_hasRoom (hroom : hasRoom this s = true) :
    Room s this (s.builders this).is8Bit 1 := by
  rw [hasRoom] at hroom
  cases hbuf : (s.builders this).buffer with
  | none => exact nomatch hbuf ▸ hroom
  | some buffer =>
    rw [hbuf] at hroom
    obtain ⟨hlt, hnone⟩ := Bool.and_eq_true_iff.mp hroom
    exact ⟨Option.isNone_iff_eq_none.mp hnone, buffer, hbuf, ((h.builders this).buffer buffer hbuf).2.1,
      of_decide_eq_true hlt⟩

/-! ## Allocation -/

omit h in
theorem le_expandedCapacity (capacity required : Nat) : required ≤ expandedCapacity capacity required :=
  Nat.le_max_left _ _

omit h in
theorem expandedCapacity_ne_zero (capacity required : Nat) : expandedCapacity capacity required ≠ 0 := by
  rw [expandedCapacity]
  omega

theorem Sound.le_expandedCapacity (capacity n : Nat) :
    (c.builders this).length ≤ expandedCapacity capacity ((s.builders this).length + n) := by
  rw [← (h.builders this).length]
  exact (Nat.le_add_right _ _).trans (Strings.le_expandedCapacity _ _)

variable [DecidableEq ι] {is8Bit : Bool} {required buffer : Nat} {current : List UInt16}

omit h in
theorem setBuilder_setBuilder (b b' : StringBuilder) :
    (s.setBuilder this b).setBuilder this b' = s.setBuilder this b' := by
  simp [setBuilder]

omit h in
@[simp] theorem builders_dropString : (s.dropString this).builders this = { s.builders this with string := none } :=
  builders_setBuilder _

theorem Sound.dropString (hbuf : (s.builders this).buffer = some buffer) :
    Sound (s.dropString this) c := by
  have hsto := h.builders this
  rw [← Contents.set_self c this]
  refine h.replace ⟨hsto.length, nofun, hsto.buffer, fun _ hnone => ?_⟩
    (fun a ha => ⟨fun j hj hja => hj (h.distinct hja ha), h.behind ha⟩) nofun
  exact nomatch hbuf.symm.trans hnone

/-- A builder that has only a string. -/
theorem Sound.putString {b : StringBuilder} {contents : List UInt16}
    (hstr : b.string = some string) (hbuf : b.buffer = none) (hlen : b.length = contents.length)
    (hval : s.Valid string) (hchs : s.characters string = contents)
    (hgua : ∀ j, j ≠ this → (s.builders j).buffer = some string.impl →
      string.offset + string.length ≤ (s.builders j).length)
    (hwid : contents ≠ [] → s.is8Bit string = b.is8Bit) (hemp : contents = [] → string.impl = 0) :
    Sound (s.setBuilder this b) (c.set this contents) := by
  have hnone : ∀ a, a ∉ b.buffer := fun a ha => nomatch hbuf.symm.trans ha
  refine h.replace ⟨hlen, fun string' hs => ?_, fun a ha => absurd ha (hnone a), fun hnil => ?_⟩
    (fun a ha => absurd ha (hnone a)) fun string' hs => ⟨fun ha => absurd ha (hnone _), ?_⟩
  · obtain rfl : string = string' := Option.some.inj (hstr.symm.trans hs)
    exact ⟨hval, hchs, hwid, hemp⟩
  · exact nomatch hstr.symm.trans hnil
  · obtain rfl : string = string' := Option.some.inj (hstr.symm.trans hs)
    exact hgua

theorem Sound.retain (hbuf : (s.builders this).buffer = none)
    (hlive : s.Live string) (hne : string.length ≠ 0) (is8Bit : Bool) (hwid : s.is8Bit string = is8Bit) :
    Sound (s.setBuilder this { s.builders this with string := some string, length := string.length, is8Bit })
      (c.set this (s.characters string)) := by
  have hlen := h.length_characters hlive
  have hcon : s.characters string ≠ [] := fun hnil => hne (hlen.symm.trans (hnil ▸ length_nil))
  exact h.putString rfl hbuf hlen.symm (h.valid hlive) rfl (fun j _ => h.guarded hlive j) (fun _ => hwid)
    fun hnil => absurd hnil hcon

theorem Sound.allocateBuffer (hwid : (s.builders this).is8Bit = is8Bit)
    (hcur : c.builders this <+: current) (hnar : is8Bit = true → ∀ x ∈ current, x < 256)
    (hreq : required ≠ 0) (hlen : (c.builders this).length ≤ required) :
    Ends (allocateBuffer limit this is8Bit current required s) fun s' =>
      Sound s' c ∧ FreshBuffer s' this is8Bit required := by
  have hcon : c.builders this <+: current.take (s.builders this).length :=
    prefix_take_iff.mpr ⟨hcur, (h.builders this).length.ge⟩
  refine (h.createBuffer hcon (fun hw x hx => hnar hw x (mem_of_mem_take hx)) hreq hlen).bind
    fun r hr => hr.2 _ ?_
  rw [hr.1, ← hwid]

theorem Sound.allocateBufferUpConvert (hcur : c.builders this <+: current)
    (hreq : required ≠ 0) (hlen : (c.builders this).length ≤ required) :
    Ends (allocateBufferUpConvert limit this current required s) fun s' =>
      Sound s' c ∧ FreshBuffer s' this false required := by
  have hcon : c.builders this <+: current.take (s.builders this).length :=
    prefix_take_iff.mpr ⟨hcur, (h.builders this).length.ge⟩
  rw [Strings.allocateBufferUpConvert, Strings.allocateBuffer, bind_assoc]
  refine (h.createBuffer hcon (by simp) hreq hlen).bind fun r hr => ?_
  rw [pure_bind, builders_setBuilder, setBuilder_setBuilder, hr.1]
  exact hr.2 _ rfl

variable [Fintype ι] {characters : List UInt16}

omit h in
theorem hasOneRef_iff {a : Nat} :
    hasOneRef this s a = true ↔ (∀ other, other ≠ this → (s.builders other).buffer ≠ some a) ∧
      (∀ other, ∀ string ∈ (s.builders other).string, string.impl ≠ a) ∧ ∀ string ∈ s.strings, string.impl ≠ a := by
  simp [hasOneRef, and_assoc, Option.any_eq_false]

theorem Sound.reallocateBuffer (hwid : (s.builders this).is8Bit = is8Bit)
    (hbuf : (s.builders this).buffer = some buffer) (hreq : required ≠ 0)
    (hlen : (c.builders this).length ≤ required) : Ends (reallocateBuffer limit this is8Bit required s) fun s' =>
      Sound s' c ∧ FreshBuffer s' this is8Bit required := by
  have hdrop := h.dropString hbuf
  obtain ⟨hlt, hbufWi, hst⟩ := (h.builders this).buffer buffer hbuf
  have hnar := h.narrow _ (mem_heap hlt)
  rw [hbufWi, hwid] at hnar
  have hwid' : ((s.dropString this).builders this).is8Bit = is8Bit := by rw [builders_dropString, hwid]
  have himpl : (s.dropString this).impl buffer = s.impl buffer := rfl
  rw [Strings.reallocateBuffer, builders_dropString, hbuf]
  dsimp only
  rw [himpl, if_neg (not_not.mpr (hbufWi.trans hwid))]
  split_ifs with hone
  · refine (hdrop.createBuffer hst hnar hreq hlen).bind fun r hr => hr.2 _ ?_
    rw [hr.1, builders_dropString, ← hwid]
  · exact hdrop.allocateBuffer hwid' hst hnar hreq hlen

/-! ## Appending -/

/-- The buffer was made long enough for the characters. -/
theorem Sound.store_fresh {s' : Strings ι} {capacity : Nat}
    (hs' : Sound s' c ∧ FreshBuffer s' this is8Bit
      (expandedCapacity capacity ((s.builders this).length + characters.length)))
    (hne : characters ≠ []) (hnar : is8Bit = true → ∀ x ∈ characters, x < 256) :
    Ends (Strings.store this is8Bit characters s') fun s' => Sound s' (c.set this (c.builders this ++ characters)) := by
  refine hs'.1.store hne (hs'.2.room ?_) hnar
  rw [(hs'.1.builders this).length, ← (h.builders this).length]
  exact Strings.le_expandedCapacity _ _

variable {characters : List UInt16}

theorem Sound.appendCharacters (hne : characters ≠ [])
    (hnar : (s.builders this).is8Bit = true → ∀ x ∈ characters, x < 256) :
    Ends (appendCharacters limit this (s.builders this).is8Bit characters s) fun s' =>
      Sound s' (c.set this (c.builders this ++ characters)) := by
  rw [Strings.appendCharacters]
  split_ifs with hlong
  · exact Ends.crash
  · cases hbuf : (s.builders this).buffer with
    | some buffer =>
      dsimp only
      obtain ⟨-, hbufWi, -⟩ := (h.builders this).buffer buffer hbuf
      split_ifs with hfits
      · -- There is room in the buffer, which may be shared.
        refine (h.dropString hbuf).store hne ⟨?_, buffer, ?_, hbufWi, ?_⟩ hnar
        · rw [builders_dropString]
        · rw [builders_dropString, hbuf]
        · rw [builders_dropString]
          exact hfits
      · exact (h.reallocateBuffer rfl hbuf (expandedCapacity_ne_zero _ _) (h.le_expandedCapacity _ _)).bind
          fun s' hs' => h.store_fresh hs' hne hnar
    | none =>
      refine (h.currentCharacters hbuf).bind fun current hcur => ?_
      exact (h.allocateBuffer rfl (hcur.1 ▸ prefix_rfl) hcur.2 (expandedCapacity_ne_zero _ _)
        (h.le_expandedCapacity _ _)).bind fun s' hs' => h.store_fresh hs' hne hnar

theorem Sound.append8 (characters : List UInt8) : Ends (append8 limit this characters s) fun s' =>
      Sound s' (c.set this (c.builders this ++ characters.map UInt8.toUInt16)) := by
  rw [Strings.append8]
  split_ifs with hnil
  · rw [hnil, map_nil, append_nil, Contents.set_self]
    exact h
  · refine h.appendCharacters (fun hmap => hnil (map_eq_nil_iff.mp hmap)) fun _ x hx => ?_
    obtain ⟨x, -, rfl⟩ := mem_map.mp hx
    exact UInt16.lt_iff_toNat_lt.mpr x.toNat_lt

omit h in
theorem map_of_single8 {x : UInt8} (h : single8 characters = some x) :
    [x].map UInt8.toUInt16 = characters := by
  match characters, h with
  | [y], h =>
    obtain ⟨hnar, hx⟩ := Option.ite_none_right_eq_some.mp h
    obtain rfl := Option.some.inj hx
    rw [map_singleton]
    congr 1
    apply UInt16.toNat_inj.mp
    rw [UInt8.toNat_toUInt16, UInt16.toNat_toUInt8]
    exact Nat.mod_eq_of_lt (UInt16.lt_iff_toNat_lt.mp hnar)

theorem Sound.appendUpConverted (hne : characters ≠ [])
    (hwid : (s.builders this).is8Bit = true) : Ends (appendUpConverted limit this characters s) fun s' =>
      Sound s' (c.set this (c.builders this ++ characters)) := by
  rw [Strings.appendUpConverted]
  split_ifs with hlong
  · exact Ends.crash
  · refine (h.currentCharacters8 hwid).bind fun current hcur => ?_
    exact (h.allocateBufferUpConvert hcur (expandedCapacity_ne_zero _ _) (h.le_expandedCapacity _ _)).bind
      fun s' hs' => h.store_fresh hs' hne nofun

theorem Sound.append16 (characters : List UInt16) :
    Ends (append16 limit this characters s) fun s' => Sound s' (c.set this (c.builders this ++ characters)) := by
  rw [Strings.append16]
  split_ifs with hnil hwid
  · rw [hnil, append_nil, Contents.set_self]
    exact h
  · cases hsin : single8 characters with
    | some x =>
      rw [← map_of_single8 hsin]
      exact h.append8 [x]
    | none => exact h.appendUpConverted hnil hwid
  · have hfal : (s.builders this).is8Bit = false := Bool.eq_false_of_not_eq_true hwid
    rw [← hfal]
    exact h.appendCharacters hnil fun htrue => absurd htrue hwid

omit h in
theorem map_toUInt8 (hnar : ∀ x ∈ characters, x < 256) :
    (characters.map UInt16.toUInt8).map UInt8.toUInt16 = characters := by
  rw [map_map]
  refine (map_congr_left fun x hx => ?_).trans (map_id characters)
  apply UInt16.toNat_inj.mp
  rw [id, Function.comp_apply, UInt8.toNat_toUInt16, UInt16.toNat_toUInt8]
  exact Nat.mod_eq_of_lt (UInt16.lt_iff_toNat_lt.mp (hnar x hx))

theorem Sound.appendRun (hnar : is8Bit = true → ∀ x ∈ characters, x < 256) :
    Ends (appendRun limit this is8Bit characters s) fun s' =>
      Sound s' (c.set this (c.builders this ++ characters)) := by
  rw [Strings.appendRun]
  split_ifs with hwid
  · have happ : Ends (Strings.append8 limit this (characters.map UInt16.toUInt8) s) _ := h.append8 _
    rw [map_toUInt8 (hnar hwid)] at happ
    exact happ
  · exact h.append16 characters

theorem Sound.appendString (hlive : s.Live string) :
    Ends (appendString limit this string s) fun s' =>
      Sound s' (c.set this (c.builders this ++ s.characters string)) := by
  rw [Strings.appendString]
  split_ifs with hemp hret
  · have hnil : s.characters string = [] := eq_nil_of_length_eq_zero ((h.length_characters hlive).trans hemp)
    rw [hnil, append_nil, Contents.set_self]
    exact h
  · rw [h.nil_of_length hret.1]
    exact h.retain hret.2 hlive hemp _ rfl
  · exact h.appendRun fun hwid => h.narrow_characters (h.valid hlive) hwid

def Retains (s : Strings ι) (this other : ι) : Prop :=
  (s.builders other).length ≠ 0 ∧ (s.builders this).length = 0 ∧ (s.builders this).buffer = none ∧
    (s.builders other).string ≠ none

theorem Sound.appendBuilder {other : ι}
    (hwid : s.Retains this other → (s.builders this).is8Bit = (s.builders other).is8Bit) :
    Ends (appendBuilder limit this other s) fun s' =>
      Sound s' (c.set this (c.builders this ++ c.builders other)) := by
  have hlen := (h.builders other).length
  rw [Strings.appendBuilder]
  split_ifs with hemp hret
  · rw [h.nil_of_length hemp, append_nil, Contents.set_self]
    exact h
  · have hne := h.ne_nil_of_length hemp
    obtain ⟨string, hstr⟩ := Option.ne_none_iff_exists'.mp hret.2.2
    obtain ⟨-, hchs, hstrWi, -⟩ := (h.builders other).string string hstr
    have hlive : s.Live string := Or.inr ⟨other, hstr⟩
    have hsame : (s.builders other).length = string.length := by
      rw [hlen, ← hchs, h.length_characters hlive]
    have hsou := h.retain hret.2.1 hlive (hsame ▸ hemp) (s.builders this).is8Bit
      ((hstrWi hne).trans (hwid ⟨hemp, hret⟩).symm)
    rw [hchs, ← hsame, ← hstr] at hsou
    rw [h.nil_of_length hret.1]
    exact hsou
  · obtain ⟨characters, hread, hst, hnar⟩ := h.builderCharacters (h.ne_nil_of_length hemp)
    have htake : characters.take (s.builders other).length = c.builders other := by
      rw [hlen, ← prefix_iff_eq_take.mp hst]
    rw [hread, pure_bind, htake]
    exact h.appendRun fun hwid x hx => hnar hwid x (hst.subset hx)

theorem Sound.appendLChar (x : UInt8) :
    Ends (appendLChar limit this x s) fun s' => Sound s' (c.set this (c.builders this ++ [x.toUInt16])) := by
  rw [Strings.appendLChar]
  split_ifs with hroom
  · refine h.store (cons_ne_nil _ _) (h.room_of_hasRoom hroom) fun _ y hy => ?_
    obtain rfl := mem_singleton.mp hy
    exact UInt16.lt_iff_toNat_lt.mpr x.toNat_lt
  · exact h.append8 [x]

theorem Sound.appendUChar (x : UInt16) :
    Ends (appendUChar limit this x s) fun s' => Sound s' (c.set this (c.builders this ++ [x])) := by
  rw [Strings.appendUChar]
  split_ifs with hroom
  · refine h.store (cons_ne_nil _ _) (h.room_of_hasRoom hroom.1) fun hnar y hy => ?_
    obtain rfl := mem_singleton.mp hy
    exact hroom.2.resolve_left fun hfal => nomatch hnar.symm.trans hfal
  · exact h.append16 [x]

end Strings

end WebV8
