import WebV8.IPC.ArgumentRoundTrip

/-!
# Decoding hostile bytes

Whatever the bytes are, a decoder reads only its block, allocates only for bytes that are there, and
asks for no more elements than there are bytes. The count works with a credit: what has been asked for
so far, plus the bytes that are left. A call that succeeds uses up some of it, and a call that fails has
not asked for more than the credit allowed (`Outcome`).

One thing is missing. A key is handed to the hash table as it was decoded, and the hash function for
strings follows the pointer of a null string. `Schema.hashesString` says for which types that can happen,
and for each of them there is a message that makes it happen.
-/

namespace WebV8.IPC

open Lib Decode List Bool Nat ArgumentCoder

variable {α β T U K : Type} {d : ArgumentDecoder} {alignment : Nat} {f : α → Decode β}

/-! ## What a call may do -/

namespace ArgumentDecoder

def remaining (d : ArgumentDecoder) : Nat := d.bufferEnd - d.bufferPos

/-- How many elements can have been asked for in the end. -/
def credit (d : ArgumentDecoder) : Nat := d.elementDecodes + d.remaining

/-- The position is in the block or is the mark of an invalid decoder, and nothing outside the block has
    been touched. -/
structure Contained (d : ArgumentDecoder) : Prop where
  lower : d.block.address ≤ d.bufferPos
  upper : d.bufferPos ≤ d.bufferEnd + 1
  reads : ∀ r ∈ d.reads, d.block.Covers r
  allocations : ∀ r ∈ d.allocations, d.block.Covers r

theorem Contained.bufferPos_le (h : d.Contained) : d.bufferPos ≤ 2 ^ 63 + 1 := by
  have hend := d.bufferEnd_le
  have hupp := h.upper
  omega

theorem Contained.new (block : Block) : (ArgumentDecoder.new block).Contained where
  lower := le_rfl
  upper := by
    rw [bufferEnd_eq]
    change block.address ≤ block.address + block.bytes.length + 1
    omega
  reads := nofun
  allocations := nofun

theorem Contained.markInvalid (h : d.Contained) : d.markInvalid.Contained where
  lower := by
    rw [bufferPos_markInvalid, bufferEnd_eq, block_markInvalid]
    omega
  upper := by rw [bufferPos_markInvalid, bufferEnd_markInvalid]
  reads := h.reads
  allocations := h.allocations

end ArgumentDecoder

open ArgumentDecoder

/-- The outcome of a call on `d`. On success at least `n` of the credit is used up. Otherwise not more
    than the credit and `s` elements were asked for. A crash can happen only if `P`. -/
structure Outcome (P : Prop) (n s : Nat) (d : ArgumentDecoder) (r : Except Stop α × ArgumentDecoder) :
    Prop where
  block : r.2.block = d.block
  contained : r.2.Contained
  elements : d.elementDecodes ≤ r.2.elementDecodes
  forward : ∀ a, r.1 = .ok a → d.bufferPos ≤ r.2.bufferPos
  valid : ∀ a, r.1 = .ok a → r.2.isInvalid = true → d.isInvalid = true
  spent : ∀ a, r.1 = .ok a → r.2.credit + n ≤ d.credit
  within : ∀ e, r.1 = .error e → r.2.elementDecodes ≤ d.credit + s
  failed : r.1 = .error .failed → r.2.isInvalid = true
  crashed : r.1 = .error .crashed → P

def Guarded (P : Prop) (n s : Nat) (x : Decode α) : Prop := ∀ d, d.Contained → Outcome P n s d (x.on d)

def FailsInvalid (x : Decode α) : Prop :=
  ∀ d, d.Contained → d.isInvalid = true → ∃ d', x.on d = (.error .failed, d') ∧ d'.isInvalid = true

namespace Guarded

variable {P Q : Prop} {n m s t : Nat} {x : Decode α}

theorem mono (h : Guarded P n s x) (hP : P → Q) (hn : m ≤ n) (hs : s ≤ t) : Guarded Q m t x := by
  intro d hd
  have ho := h d hd
  exact { ho with
    spent := fun a ha => by have := ho.spent a ha; omega
    within := fun e he => by have := ho.within e he; omega
    crashed := fun hc => hP (ho.crashed hc) }

theorem pure (a : α) : Guarded P 0 0 (Pure.pure a : Decode α) := by
  intro d hd
  exact ⟨rfl, hd, le_rfl, fun _ _ => le_rfl, fun _ _ h => h, fun _ _ => le_rfl, nofun, nofun, nofun⟩

theorem invalidate : Guarded P 0 0 (Decode.invalidate : Decode α) := by
  intro d hd
  exact ⟨rfl, hd.markInvalid, le_rfl, nofun, nofun, nofun, fun _ _ => le_add_right _ _,
    fun _ => d.isInvalid_markInvalid, nofun⟩

theorem crash (hP : P) : Guarded P 0 0 (throw .crashed : Decode α) := by
  intro d hd
  exact ⟨rfl, hd, le_rfl, nofun, nofun, nofun, fun _ _ => le_add_right _ _, nofun, fun _ => hP⟩

theorem bind (hx : Guarded P n s x) (hf : ∀ a, Guarded P m t (f a)) (ht : t ≤ n + s) :
    Guarded P (n + m) s (x >>= f) := by
  intro d hd
  have h₁ := hx d hd
  obtain ⟨⟨r, d₁⟩, hon⟩ : ∃ r, r = x.on d := ⟨_, rfl⟩
  rw [← hon] at h₁
  cases r with
  | error e =>
    rw [on_bind_error hon.symm]
    exact ⟨h₁.block, h₁.contained, h₁.elements, nofun, nofun, nofun, fun _ _ => h₁.within e rfl,
      fun hr => h₁.failed (congrArg Except.error (Except.error.inj hr)),
      fun hr => h₁.crashed (congrArg Except.error (Except.error.inj hr))⟩
  | ok a =>
    rw [on_bind_ok hon.symm]
    have h₂ := hf a d₁ h₁.contained
    have hspe : d₁.credit + n ≤ d.credit := h₁.spent a rfl
    exact {
      block := h₂.block.trans h₁.block
      contained := h₂.contained
      elements := h₁.elements.trans h₂.elements
      forward := fun b hb => (h₁.forward a rfl).trans (h₂.forward b hb)
      valid := fun b hb hv => h₁.valid a rfl (h₂.valid b hb hv)
      spent := fun b hb => by have := h₂.spent b hb; omega
      within := fun e he => by have := h₂.within e he; omega
      failed := h₂.failed
      crashed := h₂.crashed }

theorem decodeFixedLengthData (size : Nat) (ha : alignment ∣ 8) :
    Guarded P size 0 (Decode.decodeFixedLengthData size alignment) := by
  intro d hd
  have hpos : 0 < alignment := pos_of_dvd_of_pos ha (by decide)
  have hrnd := le_roundUp hpos d.bufferPos
  have hlow := hd.lower
  rw [on_decodeFixedLengthData hd.bufferPos_le ha]
  split
  next hfit =>
    have hend := d.bufferEnd_eq
    exact {
      block := rfl
      contained := {
        lower := show d.block.address ≤ roundUp d.bufferPos alignment + size by omega
        upper := show roundUp d.bufferPos alignment + size ≤ d.bufferEnd + 1 by omega
        reads := by
          intro r hr
          rcases mem_append.mp hr with hr | hr
          · exact hd.reads r hr
          · cases mem_singleton.mp hr
            exact ⟨hlow.trans hrnd, hend ▸ hfit⟩
        allocations := hd.allocations }
      elements := le_rfl
      forward := fun _ _ => show d.bufferPos ≤ roundUp d.bufferPos alignment + size by omega
      valid := fun _ _ hv => by
        rw [isInvalid_iff] at hv
        exact absurd (show d.bufferEnd < roundUp d.bufferPos alignment + size from hv) (by omega)
      spent := fun _ _ => by
        change d.elementDecodes + (d.bufferEnd - (roundUp d.bufferPos alignment + size)) + size ≤
          d.elementDecodes + (d.bufferEnd - d.bufferPos)
        omega
      within := nofun
      failed := nofun
      crashed := nofun }
  next hfit =>
    exact ⟨rfl, hd.markInvalid, le_rfl, nofun, nofun, nofun, fun _ _ => le_add_right _ _,
      fun _ => d.isInvalid_markInvalid, nofun⟩

theorem decode (a : Arithmetic) : Guarded P a.size 0 (Decode.decode a) := by
  rw [Decode.decode_eq]
  exact (Guarded.decodeFixedLengthData a.size a.size_dvd).bind (fun _ => Guarded.pure _) (zero_le _)

theorem allocate (a : Arithmetic) (numElements : Nat) : Guarded P 0 0 (Decode.allocate a numElements) := by
  intro d hd
  have hrnd := le_roundUp a.size_pos d.bufferPos
  rw [on_allocate hd.bufferPos_le]
  split
  next hfit =>
    refine ⟨rfl, ⟨hd.lower, hd.upper, hd.reads, ?_⟩, le_rfl, fun _ _ => le_rfl, fun _ _ h => h,
      fun _ _ => le_rfl, nofun, nofun, nofun⟩
    intro r hr
    rcases mem_append.mp hr with hr | hr
    · exact hd.allocations r hr
    · cases mem_singleton.mp hr
      exact ⟨hd.lower.trans hrnd, d.bufferEnd_eq ▸ hfit⟩
  next hfit =>
    exact ⟨rfl, hd.markInvalid, le_rfl, nofun, nofun, nofun, fun _ _ => le_add_right _ _,
      fun _ => d.isInvalid_markInvalid, nofun⟩

theorem element (hx : Guarded P (n + 1) s x) : Guarded P n (s + 1) (Decode.element x) := by
  intro d hd
  have hd' : ({ d with elementDecodes := d.elementDecodes + 1 } : ArgumentDecoder).Contained :=
    ⟨hd.lower, hd.upper, hd.reads, hd.allocations⟩
  have ho := hx _ hd'
  have hcre : ({ d with elementDecodes := d.elementDecodes + 1 } : ArgumentDecoder).credit =
      d.credit + 1 := by
    change d.elementDecodes + 1 + (d.bufferEnd - d.bufferPos) = d.elementDecodes + (d.bufferEnd - d.bufferPos) + 1
    omega
  rw [Decode.element, on_bind_ok (on_modify _ _)]
  exact { ho with
    elements := (le_succ _).trans ho.elements
    spent := fun a ha => by have := ho.spent a ha; omega
    within := fun e he => by have := ho.within e he; omega }

end Guarded

namespace FailsInvalid

variable {x : Decode α}

theorem bind (h : FailsInvalid x) : FailsInvalid (x >>= f) := by
  intro d hd hinv
  obtain ⟨d', hon, hd'⟩ := h d hd hinv
  exact ⟨d', on_bind_error hon, hd'⟩

theorem decodeFixedLengthData (size : Nat) (ha : alignment ∣ 8) :
    FailsInvalid (Decode.decodeFixedLengthData size alignment) := by
  intro d hd hinv
  have hrnd := le_roundUp (pos_of_dvd_of_pos ha (by decide)) d.bufferPos
  rw [isInvalid_iff] at hinv
  exact ⟨_, by rw [on_decodeFixedLengthData hd.bufferPos_le ha, if_neg (by omega)], d.isInvalid_markInvalid⟩

theorem decode (a : Arithmetic) : FailsInvalid (Decode.decode a) := by
  rw [Decode.decode_eq]
  exact (FailsInvalid.decodeFixedLengthData a.size a.size_dvd).bind

end FailsInvalid

/-! ## Containers -/

variable {P : Prop} {x : Decode α} {x : Decode T}

/-- What holds of the decoding of every type: it takes at least one byte, and none from an invalid
    decoder. -/
structure Sound (P : Prop) (x : Decode α) : Prop where
  guarded : Guarded P 1 0 x
  failsInvalid : FailsInvalid x

theorem FailsInvalid.element (h : FailsInvalid x) : FailsInvalid (Decode.element x) := by
  intro d hd hinv
  rw [Decode.element, on_bind_ok (on_modify _ _)]
  exact h _ ⟨hd.lower, hd.upper, hd.reads, hd.allocations⟩ hinv

theorem Sound.element (h : Sound P x) : Guarded P 0 1 (Decode.element x) := h.guarded.element

theorem Sound.appended (h : Sound P x) : Guarded P 0 1 (Decode.appended x) := by
  intro d hd
  have ho := h.element d hd
  rw [Decode.appended, on_bind_ok (on_get d)]
  obtain ⟨⟨r, d'⟩, hon⟩ : ∃ r, r = (Decode.element x).on d := ⟨_, rfl⟩
  rw [← hon] at ho
  cases r with
  | error e =>
    rw [on_bind_error hon.symm]
    refine ⟨ho.block, ho.contained, ho.elements, ?_, ?_, ?_, fun _ _ => ho.within e rfl,
      fun hr => ho.failed (congrArg Except.error (Except.error.inj hr)),
      fun hr => ho.crashed (congrArg Except.error (Except.error.inj hr))⟩
    all_goals rintro _ ⟨⟩
  | ok a =>
    rw [on_bind_ok hon.symm, on_bind_ok (on_modify _ _), on_pure]
    have hfor : d.bufferPos ≤ d'.bufferPos := ho.forward a rfl
    -- a decoder that was invalid would not have got this far
    have hval : d'.bufferPos ≤ d'.bufferEnd := by
      by_contra hlt
      have hinv := ho.valid a rfl ((isInvalid_iff d').mpr (by omega))
      obtain ⟨d'', hfail, -⟩ := h.failsInvalid.element d hd hinv
      rw [hfail] at hon
      cases hon
    have hblo : d'.block = d.block := ho.block
    refine { ho with
      contained := ⟨ho.contained.lower, ho.contained.upper, ho.contained.reads, ?_⟩
      within := fun _ h => by cases h
      failed := fun h => by cases h
      crashed := fun h => by cases h
      forward := fun _ _ => hfor
      valid := fun _ _ hv => ho.valid a rfl hv
      spent := fun _ _ => ho.spent a rfl }
    intro r hr
    rcases mem_append.mp hr with hr | hr
    · exact ho.contained.allocations r hr
    · cases mem_singleton.mp hr
      have hlow := hd.lower
      rw [d'.bufferEnd_eq] at hval
      constructor
      · change d'.block.address ≤ d.bufferPos
        rw [hblo]
        exact hlow
      · change d.bufferPos + (d'.bufferPos - d.bufferPos) ≤ d'.block.address + d'.block.bytes.length
        omega

namespace ArgumentCoder

theorem guarded_decodeElements (h : Sound P x) (n : Nat) (tmp : List T) :
    Guarded P 0 1 (decodeElements x n tmp) := by
  induction n generalizing tmp with
  | zero => exact (Guarded.pure tmp).mono id le_rfl (zero_le _)
  | succ n ih => exact h.appended.bind (fun t => ih (tmp ++ [t])) le_rfl

variable {t : KeyTraits K}

theorem guarded_addEach {table : TableAnswers t} {key : T → K}
    (hx : Guarded P 0 1 x) (hP : ∀ k, t.hashDereferencesNull k = true → P) (n : Nat) (added : List T) :
    Guarded P 0 1 (addEach table x key n added) := by
  induction n generalizing added with
  | zero => exact (Guarded.pure _).mono id le_rfl (zero_le _)
  | succ n ih =>
    refine hx.bind (m := 0) (fun entry => ?_) le_rfl
    split
    next hnull => exact (Guarded.crash (hP _ hnull)).mono id le_rfl (zero_le _)
    next =>
      split
      next => exact ih (added ++ [entry])
      next => exact Guarded.invalidate.mono id le_rfl (zero_le _)

theorem sound_sized {k : Arithmetic.Value .uint64 → Decode T} (hk : ∀ size, Guarded P 0 1 (k size)) :
    Sound P (Decode.decode .uint64 >>= k) where
  guarded := ((Guarded.decode .uint64).bind hk (by decide)).mono id (by decide) le_rfl
  failsInvalid := (FailsInvalid.decode .uint64).bind

/-! ## Each coder -/

theorem sound_arithmetic (a : Arithmetic) : Sound P (arithmetic a).decode where
  guarded := (Guarded.decode a).mono id a.size_pos le_rfl
  failsInvalid := FailsInvalid.decode a

theorem sound_simple {size : Nat} (hs : 0 < size) (ha : alignment ∣ 8) :
    Sound P (simple size alignment).decode where
  guarded := ((Guarded.decodeFixedLengthData size ha).bind (fun _ => Guarded.pure _) (zero_le _)).mono id
    hs le_rfl
  failsInvalid := (FailsInvalid.decodeFixedLengthData size ha).bind

theorem sound_dataReference : Sound P dataReference.decode :=
  sound_sized fun size =>
    (Guarded.decodeFixedLengthData (UInt64.toNat size) (one_dvd 8)).mono id (zero_le _) (zero_le _)

theorem sound_cstring : Sound P cstring.decode where
  guarded := by
    refine ((Guarded.decode .uint32).bind (m := 0) (fun length => ?_) (zero_le _)).mono id
      (by decide) le_rfl
    split
    next => exact Guarded.pure none
    next =>
      refine (Guarded.allocate .uint8 _).bind (m := 0) (fun _ => ?_) le_rfl
      exact ((Guarded.decodeFixedLengthData _ (one_dvd 8)).bind (fun _ => Guarded.pure _)
        (zero_le _)).mono id (zero_le _) le_rfl
  failsInvalid := (FailsInvalid.decode .uint32).bind

theorem guarded_decodeStringText (c : Arithmetic) (length : Nat) : Guarded P 0 0 (decodeStringText c length) := by
  refine (Guarded.allocate c length).bind (m := 0) (fun _ => ?_) le_rfl
  exact ((Guarded.decodeFixedLengthData _ c.size_dvd).bind (fun _ => Guarded.pure _)
    (zero_le _)).mono id (zero_le _) le_rfl

theorem sound_string : Sound P string.decode where
  guarded := by
    refine ((Guarded.decode .uint32).bind (m := 0) (fun length => ?_) (zero_le _)).mono id
      (by decide) le_rfl
    split
    next => exact Guarded.pure _
    next =>
      refine ((Guarded.decode .bool).bind (m := 0) (fun is8Bit => ?_) (zero_le _)).mono id
        (zero_le _) le_rfl
      split
      next => exact (guarded_decodeStringText .uint8 _).bind (fun _ => Guarded.pure _) le_rfl
      next => exact (guarded_decodeStringText .uint16 _).bind (fun _ => Guarded.pure _) le_rfl
  failsInvalid := (FailsInvalid.decode .uint32).bind

variable {c : ArgumentCoder T} {c : ArgumentCoder K}

theorem sound_optional (h : Sound P c.decode) : Sound P (optional c).decode where
  guarded := by
    refine ((Guarded.decode .bool).bind (m := 0) (fun isEngaged => ?_) (zero_le _)).mono id
      (by decide) le_rfl
    split
    next => exact (h.guarded.bind (fun _ => Guarded.pure _) (zero_le _)).mono id (zero_le _) le_rfl
    next => exact Guarded.pure none
  failsInvalid := (FailsInvalid.decode .bool).bind

theorem sound_pair {c' : ArgumentCoder U} (h : Sound P c.decode)
    (h' : Sound P c'.decode) : Sound P (pair c c').decode where
  guarded := by
    refine (h.guarded.bind (m := 0) (fun first => ?_) (zero_le _))
    exact (h'.guarded.bind (fun _ => Guarded.pure _) (zero_le _)).mono id (zero_le _) le_rfl
  failsInvalid := h.failsInvalid.bind

theorem sound_vector (h : Sound P c.decode) : Sound P (vector c).decode :=
  sound_sized fun _ => guarded_decodeElements h _ []

theorem on_allocate_orElse (hd : d.Contained) (a : Arithmetic) (n : Nat)
    (k : List UInt8 → Decode T) :
    (do allocate a n; let temp ← orElse (decodeFixedLengthData (wrap (n * a.size)) a.size) []; k temp :
        Decode T).on d =
      (do allocate a n; let temp ← decodeFixedLengthData (n * a.size) a.size; k temp : Decode T).on d := by
  have hall := on_allocate hd.bufferPos_le a n
  by_cases hfit : roundUp d.bufferPos a.size + n * a.size ≤ d.bufferEnd
  · have hend := d.bufferEnd_le
    have hwrap : wrap (n * a.size) = n * a.size := mod_eq_of_lt (by omega)
    rw [if_pos hfit] at hall
    rw [on_bind_ok hall, on_bind_ok hall, hwrap]
    obtain ⟨d₁, hd₁⟩ : ∃ d₁ : ArgumentDecoder, d₁ = { d with
      allocations := d.allocations ++ [⟨roundUp d.bufferPos a.size, n * a.size⟩] } := ⟨_, rfl⟩
    rw [← hd₁]
    have hread : (decodeFixedLengthData (n * a.size) a.size).on d₁ = _ :=
      on_decodeFixedLengthData (hd₁ ▸ hd.bufferPos_le) a.size_dvd
    rw [if_pos (hd₁ ▸ hfit)] at hread
    have hign := on_orElse d₁ (decodeFixedLengthData (n * a.size) a.size) []
    rw [hread] at hign
    rw [on_bind_ok hread, on_bind_ok hign]
  · rw [if_neg hfit] at hall
    rw [on_bind_error hall, on_bind_error hall]

theorem sound_vectorOfArithmetic (a : Arithmetic) : Sound P (vectorOfArithmetic a).decode := by
  refine sound_sized fun size => ?_
  have hread : Guarded P 0 1 (do
      allocate a (UInt64.toNat size)
      let temp ← decodeFixedLengthData (UInt64.toNat size * a.size) a.size
      return a.ofArrayBytes (UInt64.toNat size) temp) := by
    refine ((Guarded.allocate a _).bind (m := 0) (fun _ => ?_) le_rfl).mono id le_rfl (zero_le _)
    exact ((Guarded.decodeFixedLengthData _ a.size_dvd).bind (fun _ => Guarded.pure _)
      (zero_le _)).mono id (zero_le _) le_rfl
  intro d hd
  rw [on_allocate_orElse hd]
  exact hread d hd

theorem sound_hashMap (table : TableAnswers t) {c' : ArgumentCoder T}
    (h : Sound P c.decode) (h' : Sound P c'.decode) (hP : ∀ k, t.hashDereferencesNull k = true → P) :
    Sound P (hashMap table c c').decode := by
  refine sound_sized fun _ => guarded_addEach ?_ hP _ []
  refine h.element.bind (m := 0) (fun key => ?_) le_rfl
  exact h'.element.bind (fun _ => Guarded.pure _) (zero_le _)

theorem sound_hashSet (table : TableAnswers t) (h : Sound P c.decode)
    (hP : ∀ k, t.hashDereferencesNull k = true → P) : Sound P (hashSet table c).decode :=
  sound_sized fun _ => guarded_addEach h.element hP _ []

end ArgumentCoder

/-! ## Every type -/

def KeySchema.hashesString : KeySchema → Bool
  | .integer _ _ => false
  | .cstring => false
  | .string => true
  | .pair k l => k.hashesString || l.hashesString

def Schema.hashesString : Schema → Bool
  | .arithmetic _ => false
  | .simple _ _ _ _ => false
  | .dataReference => false
  | .cstring => false
  | .string => false
  | .optional s => s.hashesString
  | .pair s t => s.hashesString || t.hashesString
  | .vector s => s.hashesString
  | .hashMap k s => k.hashesString || s.hashesString
  | .hashSet k => k.hashesString

theorem KeySchema.hashesString_of_null {k : KeySchema} {v : k.Value}
    (h : k.traits.hashDereferencesNull v = true) : k.hashesString = true := by
  induction k with
  | integer _ _ => cases h
  | cstring => cases h
  | string => rfl
  | pair k l ihk ihl =>
    rw [KeySchema.hashesString, or_eq_true]
    rcases or_eq_true_iff.mp h with h | h
    · exact .inl (ihk h)
    · exact .inr (ihl h)

theorem KeySchema.sound (k : KeySchema) : Sound P k.coder.decode := by
  induction k with
  | integer a _ => exact sound_arithmetic a
  | cstring => exact sound_cstring
  | string => exact sound_string
  | pair k l ihk ihl => exact sound_pair ihk ihl

theorem Schema.sound_vectorCoder (s : Schema) {c : ArgumentCoder s.Value} (h : Sound P c.decode) :
    Sound P (s.vectorCoder c).decode := by
  cases s with
  | arithmetic a => exact sound_vectorOfArithmetic a
  | _ => exact sound_vector h

theorem Schema.sound (tables : Schema.Tables) (s : Schema) (hP : s.hashesString = true → P) :
    Sound P (s.coder tables).decode := by
  induction s with
  | arithmetic a => exact sound_arithmetic a
  | simple size alignment hs ha => exact sound_simple hs ha
  | dataReference => exact sound_dataReference
  | cstring => exact sound_cstring
  | string => exact sound_string
  | optional s ih => exact sound_optional (ih hP)
  | pair s t ihs iht =>
    rw [Schema.hashesString, or_eq_true] at hP
    exact sound_pair (ihs fun h => hP (.inl h)) (iht fun h => hP (.inr h))
  | vector s ih => exact s.sound_vectorCoder (ih hP)
  | hashMap k s ih =>
    rw [Schema.hashesString, or_eq_true] at hP
    exact sound_hashMap (tables k) k.sound (ih fun h => hP (.inr h))
      fun _ h => hP (.inl (k.hashesString_of_null h))
  | hashSet k =>
    exact sound_hashSet (tables k) k.sound fun _ h => hP (k.hashesString_of_null h)

end WebV8.IPC
