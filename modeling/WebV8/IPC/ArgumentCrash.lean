import WebV8.IPC.ArgumentSafety

/-!
# The message that crashes its receiver

For every type with a hash table whose keys are or contain strings there is a message that makes the
decoder hash a null string. It is what the encoder would write for a table with such a key.
-/

namespace WebV8.IPC

open Lib Decode ArgumentDecoder List Bool Nat ArgumentEncoder ArgumentCoder

variable {α β T U K : Type}

/-! ## How much an encoder writes -/

/-- At most `n` bytes are appended. -/
def Appends (f : ArgumentEncoder → ArgumentEncoder) (n : Nat) : Prop :=
  ∀ e, (f e).bufferSize ≤ e.bufferSize + n

namespace Appends

variable {f g : ArgumentEncoder → ArgumentEncoder} {n m : Nat}

theorem comp (hf : Appends f n) (hg : Appends g m) : Appends (g ∘ f) (n + m) := by
  intro e
  have h₁ := hf e
  have h₂ := hg (f e)
  rw [Function.comp_apply]
  omega

theorem mono (hf : Appends f n) (h : n ≤ m) : Appends f m := fun e => (hf e).trans (by omega)

theorem encodeFixedLengthData (data : List UInt8) {alignment : Nat} (ha : alignment ∣ 8) :
    Appends (ArgumentEncoder.encodeFixedLengthData data alignment) (8 + data.length) := by
  intro e
  have hpos : 0 < alignment := pos_of_dvd_of_pos ha (by decide)
  have hrnd := roundUp_lt hpos e.bufferSize
  have hle : alignment ≤ 8 := le_of_dvd (by decide) ha
  have hlen := e.length_fresh hpos
  rw [bufferSize, buffer_encodeFixedLengthData data hpos, length_append, hlen]
  omega

theorem encode (a : Arithmetic) (n : a.Value) : Appends (ArgumentEncoder.encode a n) 16 := by
  have h := encodeFixedLengthData (a.bytes n) a.size_dvd
  have hle : a.size ≤ 8 := le_of_dvd (by decide) a.size_dvd
  rw [funext (encode_eq a n)]
  exact h.mono (by rw [a.length_bytes]; omega)

end Appends

def KeySchema.footprint : KeySchema → Nat
  | .integer _ _ | .cstring | .string => 16
  | .pair k l => k.footprint + l.footprint

def Schema.footprint : Schema → Nat
  | .arithmetic _ | .cstring | .string => 16
  | .simple size _ _ _ => 8 + size
  | .dataReference => 16 + 8
  | .optional s => 16 + s.footprint
  | .pair s t => s.footprint + t.footprint
  | .vector s => 16 + (8 + s.footprint)
  | .hashMap k s => 16 + (k.footprint + s.footprint)
  | .hashSet k => 16 + k.footprint

def KeySchema.nullKey : (k : KeySchema) → k.Value
  | .integer a _ => a.ofBytes []
  | .cstring => none
  | .string => WTFString.null
  | .pair k l => (k.nullKey, l.nullKey)

namespace KeySchema

theorem sendable_nullKey (k : KeySchema) : k.Sendable k.nullKey := by
  induction k with
  | integer _ _ => exact trivial
  | cstring => exact nofun
  | string => exact (show WTFString.null.Sendable by decide)
  | pair k l ihk ihl => exact ⟨ihk, ihl⟩

theorem hashDereferencesNull_nullKey {k : KeySchema} (h : k.hashesString = true) :
    k.traits.hashDereferencesNull k.nullKey = true := by
  induction k with
  | integer _ _ => cases h
  | cstring => cases h
  | string => rfl
  | pair k l ihk ihl =>
    refine or_eq_true_iff.mpr ?_
    rcases or_eq_true_iff.mp h with h | h
    · exact .inl (ihk h)
    · exact .inr (ihl h)

theorem appends_nullKey (k : KeySchema) : Appends (k.coder.encode k.nullKey) k.footprint := by
  induction k with
  | integer a _ => exact Appends.encode a _
  | cstring | string => exact Appends.encode .uint32 _
  | pair k l ihk ihl => exact ihk.comp ihl

end KeySchema

/-! ## A plain value of every type -/

variable (tables : Schema.Tables)

theorem Schema.exists_sendable (s : Schema) :
    ∃ v, s.Sendable v ∧ Appends ((s.coder tables).encode v) s.footprint := by
  induction s with
  | arithmetic a => exact ⟨a.ofBytes [], trivial, Appends.encode a _⟩
  | simple size alignment hs ha =>
    refine ⟨⟨List.replicate size 0, length_replicate⟩, trivial, ?_⟩
    have h := Appends.encodeFixedLengthData (List.replicate size 0) ha
    rw [length_replicate] at h
    exact h
  | dataReference =>
    refine ⟨[], (show 0 < 2 ^ 64 by decide), ?_⟩
    exact (Appends.encode .uint64 _).comp (Appends.encodeFixedLengthData [] (one_dvd 8))
  | cstring => exact ⟨none, nofun, Appends.encode .uint32 _⟩
  | string => exact ⟨WTFString.null, (show WTFString.null.Sendable by decide), Appends.encode .uint32 _⟩
  | optional s ih => exact ⟨none, nofun, (Appends.encode .bool _).mono (le_add_right _ _)⟩
  | pair s t ihs iht =>
    obtain ⟨v, hv, hs⟩ := ihs
    obtain ⟨w, hw, ht⟩ := iht
    exact ⟨(v, w), ⟨hv, hw⟩, hs.comp ht⟩
  | vector s ih =>
    refine ⟨[], ⟨(show 0 < 2 ^ 64 by decide), nofun⟩, ?_⟩
    have hsize := Appends.encode .uint64 (UInt64.ofNat 0)
    cases s with
    | arithmetic a =>
      have h := hsize.comp (Appends.encodeFixedLengthData (a.arrayBytes []) a.size_dvd)
      exact h.mono (Nat.add_le_add_left (Nat.add_le_add_left (Nat.zero_le _) _) _)
    | _ => exact hsize.mono (le_add_right _ _)
  | hashMap k s ih | hashSet k =>
    refine ⟨[], ⟨(show 0 < 2 ^ 64 by decide), nofun, List.Pairwise.nil⟩, ?_⟩
    exact (Appends.encode .uint64 _).mono (le_add_right _ _)

/-! ## Crashing -/

/-- What `f` writes crashes `x`. -/
structure Crashes (f : ArgumentEncoder → ArgumentEncoder) (x : Decode α) : Prop where
  extend : ∀ e, e.buffer <+: (f e).buffer
  read : ∀ {e : ArgumentEncoder} {d : ArgumentDecoder}, Follows d e → (f e).buffer <+: d.block.bytes →
    ∃ d', x.on d = (.error .crashed, d')

namespace Crashes

variable {f g : ArgumentEncoder → ArgumentEncoder} {x : Decode α} {a : α}

theorem throw : Crashes id (MonadExcept.throw .crashed : Decode α) where
  extend _ := prefix_rfl
  read _ _ := ⟨_, rfl⟩

variable {k : α → Decode β}

theorem after (hx : ReadsBack f x a) (hk : Crashes g (k a)) :
    Crashes (g ∘ f) (x >>= k) where
  extend e := (hx.extend e).trans (hk.extend (f e))
  read := by
    intro e d hd hw
    obtain ⟨d₁, hon₁, hblo₁, hd₁⟩ := hx.read hd ((hk.extend (f e)).trans hw)
    obtain ⟨d₂, hon₂⟩ := hk.read hd₁ (hblo₁ ▸ hw)
    exact ⟨d₂, by rw [on_bind_ok hon₁, hon₂]⟩

theorem first (hx : Crashes f x) (hg : ∀ e, e.buffer <+: (g e).buffer) :
    Crashes (g ∘ f) (x >>= k) where
  extend e := (hx.extend e).trans (hg (f e))
  read := by
    intro e d hd hw
    obtain ⟨d₁, hon₁⟩ := hx.read hd ((hg (f e)).trans hw)
    exact ⟨d₁, on_bind_error hon₁⟩

theorem bind (hx : Crashes f x) : Crashes f (x >>= k) := by
  have h := hx.first (k := k) (g := id) fun _ => prefix_rfl
  exact h

theorem element (hx : Crashes f x) : Crashes f (Decode.element x) where
  extend := hx.extend
  read := by
    intro e d hd hw
    have hask : Follows { d with elementDecodes := d.elementDecodes + 1 } e := hd.of_eq rfl rfl
    obtain ⟨d', hon⟩ := hx.read hask hw
    exact ⟨d', by rw [Decode.element, on_bind_ok (on_modify _ _), hon]⟩

theorem appended (hx : Crashes f x) : Crashes f (Decode.appended x) where
  extend := hx.extend
  read := by
    intro e d hd hw
    obtain ⟨d', hon⟩ := hx.element.read hd hw
    exact ⟨d', by rw [Decode.appended, on_bind_ok (on_get d), on_bind_error hon]⟩

end Crashes

theorem toNat_one : UInt64.toNat (UInt64.ofNat 1) = 1 := by decide

namespace ArgumentCoder

variable {t : KeyTraits K} {c : ArgumentCoder K} {c' : ArgumentCoder T} {key : K} {v : T} (table : TableAnswers t)

theorem crashes_hashMap_key (hkey : c.RoundTrips key) (hv : c'.RoundTrips v)
    (hnull : t.hashDereferencesNull key = true) :
    Crashes ((hashMap table c c').encode [(key, v)]) (hashMap table c c').decode := by
  change Crashes (((id ∘ c'.encode v) ∘ c.encode key) ∘ ArgumentEncoder.encode .uint64 (UInt64.ofNat 1))
    (Decode.decode .uint64 >>= _)
  refine Crashes.after (ReadsBack.decode .uint64 _) ?_
  simp only [toNat_one, addEach, bind_assoc, pure_bind]
  refine Crashes.after (ReadsBack.element hkey) (Crashes.after (ReadsBack.element hv) ?_)
  simp only [hnull, if_true]
  exact Crashes.throw

theorem crashes_hashMap_mapped (hkey : c.RoundTrips key)
    (hv : Crashes (c'.encode v) c'.decode) :
    Crashes ((hashMap table c c').encode [(key, v)]) (hashMap table c c').decode := by
  change Crashes ((c'.encode v ∘ c.encode key) ∘ ArgumentEncoder.encode .uint64 (UInt64.ofNat 1))
    (Decode.decode .uint64 >>= _)
  refine Crashes.after (ReadsBack.decode .uint64 _) ?_
  simp only [toNat_one, addEach, bind_assoc, pure_bind]
  exact Crashes.after (ReadsBack.element hkey) (Crashes.element hv).bind

theorem crashes_hashSet (hkey : c.RoundTrips key) (hnull : t.hashDereferencesNull key = true) :
    Crashes ((hashSet table c).encode [key]) (hashSet table c).decode := by
  change Crashes ((id ∘ c.encode key) ∘ ArgumentEncoder.encode .uint64 (UInt64.ofNat 1)) (Decode.decode .uint64 >>= _)
  refine Crashes.after (ReadsBack.decode .uint64 _) ?_
  refine Crashes.after (ReadsBack.element hkey) ?_
  simp only [id, hnull, if_true]
  exact Crashes.throw

theorem crashes_vector {c : ArgumentCoder T} (hv : Crashes (c.encode v) c.decode) :
    Crashes ((vector c).encode [v]) (vector c).decode := by
  change Crashes (c.encode v ∘ ArgumentEncoder.encode .uint64 (UInt64.ofNat 1)) (Decode.decode .uint64 >>= _)
  refine Crashes.after (ReadsBack.decode .uint64 _) ?_
  exact (Crashes.appended hv).bind

end ArgumentCoder

theorem Schema.exists_crashes (s : Schema) (h : s.hashesString = true) :
    ∃ v, Crashes ((s.coder tables).encode v) (s.coder tables).decode ∧
      Appends ((s.coder tables).encode v) s.footprint := by
  induction s with
  | arithmetic a => cases h
  | simple _ _ _ _ => cases h
  | dataReference => cases h
  | cstring => cases h
  | string => cases h
  | optional s ih =>
    obtain ⟨v, hcra, happ⟩ := ih h
    refine ⟨some v, ?_, (Appends.encode .bool _).comp happ⟩
    change Crashes ((s.coder tables).encode v ∘ ArgumentEncoder.encode .bool true) (Decode.decode .bool >>= _)
    exact Crashes.after (ReadsBack.decode .bool _) hcra.bind
  | pair s t ihs iht =>
    rcases or_eq_true_iff.mp h with h | h
    · obtain ⟨v, hcra, happ⟩ := ihs h
      obtain ⟨w, hw, happ'⟩ := t.exists_sendable tables
      refine ⟨(v, w), ?_, happ.comp happ'⟩
      exact hcra.first (t.roundTrips tables w hw).extend
    · obtain ⟨w, hcra, happ'⟩ := iht h
      obtain ⟨v, hv, happ⟩ := s.exists_sendable tables
      refine ⟨(v, w), ?_, happ.comp happ'⟩
      change Crashes ((t.coder tables).encode w ∘ (s.coder tables).encode v) ((s.coder tables).decode >>= _)
      exact Crashes.after (s.roundTrips tables v hv) hcra.bind
  | vector s ih =>
    obtain ⟨v, hcra, happ⟩ := ih h
    have happ' := (Appends.encode .uint64 (UInt64.ofNat 1)).comp happ
    cases s with
    | arithmetic a => cases h
    | _ =>
      exact ⟨[v], crashes_vector hcra, happ'.mono (Nat.add_le_add_left (Nat.le_add_left _ _) _)⟩
  | hashMap k s ih =>
    have hkey := k.roundTrips k.nullKey k.sendable_nullKey
    rcases or_eq_true_iff.mp h with h | h
    · obtain ⟨v, hv, happ⟩ := s.exists_sendable tables
      exact ⟨[(k.nullKey, v)], crashes_hashMap_key (tables k) hkey (s.roundTrips tables v hv)
          (KeySchema.hashDereferencesNull_nullKey h),
        (Appends.encode .uint64 _).comp (k.appends_nullKey.comp happ)⟩
    · obtain ⟨v, hcra, happ⟩ := ih h
      exact ⟨[(k.nullKey, v)], crashes_hashMap_mapped (tables k) hkey hcra,
        (Appends.encode .uint64 _).comp (k.appends_nullKey.comp happ)⟩
  | hashSet k =>
    have hkey := k.roundTrips k.nullKey k.sendable_nullKey
    exact ⟨[k.nullKey], crashes_hashSet (tables k) hkey (KeySchema.hashDereferencesNull_nullKey h),
      (Appends.encode .uint64 _).comp k.appends_nullKey⟩

/-! ## Runs -/

def Reply.Failed (r : Reply) : Prop := r.2 = .error .failed

theorem decodeAll_spec (requests : List Schema) {d : ArgumentDecoder} (hd : d.Contained) :
    (decodeAll tables requests d).2.Contained ∧ (decodeAll tables requests d).2.block = d.block ∧
      ((d.isInvalid = true ∨ ∃ r ∈ (decodeAll tables requests d).1, Reply.Failed r) →
        (decodeAll tables requests d).2.isInvalid = true) := by
  induction requests generalizing d with
  | nil =>
    refine ⟨hd, rfl, fun h => ?_⟩
    rcases h with h | ⟨r, hr, -⟩
    · exact h
    · cases hr
  | cons s requests ih =>
    have hsou := s.sound (P := True) tables fun _ => trivial
    have ho := hsou.guarded d hd
    have hinv := hsou.failsInvalid d hd
    obtain ⟨⟨r, d'⟩, hon⟩ : ∃ r, r = (s.coder tables).decode.on d := ⟨_, rfl⟩
    rw [← hon] at ho hinv
    rw [decodeAll, ← hon]
    have hgo : (d.isInvalid = true ∨ Reply.Failed ⟨s, r⟩) → d'.isInvalid = true := by
      rintro (h | h)
      · obtain ⟨d'', heq, hd''⟩ := hinv h
        cases heq
        exact hd''
      · exact ho.failed h
    obtain ⟨hcon, hblo, hrest⟩ := ih ho.contained
    have hcons : ∀ rest : List Reply, (d.isInvalid = true ∨ ∃ q ∈ (⟨s, r⟩ : Reply) :: rest, Reply.Failed q) →
        d'.isInvalid = true ∨ ∃ q ∈ rest, Reply.Failed q := by
      rintro rest (h | ⟨q, hq, hfail⟩)
      · exact .inl (hgo (.inl h))
      · rcases mem_cons.mp hq with rfl | hq
        · exact .inl (hgo (.inr hfail))
        · exact .inr ⟨q, hq, hfail⟩
    cases r with
    | ok a => exact ⟨hcon, hblo.trans ho.block, fun h => hrest (hcons _ h)⟩
    | error e =>
      cases e with
      | failed => exact ⟨hcon, hblo.trans ho.block, fun h => hrest (hcons _ h)⟩
      | crashed =>
        refine ⟨ho.contained, ho.block, fun h => ?_⟩
        rcases hcons [] h with h | ⟨q, hq, -⟩
        · exact h
        · cases hq

/-- What holds of a call on a decoder that has been through `history`. -/
structure CallSafe (tables : Schema.Tables) (block : Block) (history : List Schema) (s : Schema) : Prop where
  /-- Nothing outside the block is read. -/
  reads : ∀ r ∈ ((s.coder tables).decode.on (decodeAll tables history (.new block)).2).2.reads, block.Covers r
  /-- Strings and vectors are allocated for bytes that are there. -/
  allocations : ∀ r ∈ ((s.coder tables).decode.on (decodeAll tables history (.new block)).2).2.allocations,
    block.Covers r
  /-- The call asks for at most as many elements as there are bytes. -/
  elements : ((s.coder tables).decode.on (decodeAll tables history (.new block)).2).2.elementDecodes ≤
    (decodeAll tables history (.new block)).2.elementDecodes + block.bytes.length
  /-- After a failure this call fails, and so does every read of a fixed size. -/
  sticky : (∃ r ∈ (decodeAll tables history (.new block)).1, Reply.Failed r) →
    (decodeAll tables history (.new block)).2.isInvalid = true ∧
    ((s.coder tables).decode.on (decodeAll tables history (.new block)).2).1 = .error .failed ∧
    ((s.coder tables).decode.on (decodeAll tables history (.new block)).2).2.isInvalid = true ∧
    ∀ size alignment, alignment ∣ 8 →
      ((decodeFixedLengthData size alignment).on (decodeAll tables history (.new block)).2).1 = .error .failed

theorem callSafe (block : Block) (history : List Schema) (s : Schema) :
    CallSafe tables block history s := by
  obtain ⟨hcon, hblo, hfai⟩ := decodeAll_spec tables history (Contained.new block)
  have hsou := s.sound (P := True) tables fun _ => trivial
  obtain ⟨d, hd⟩ : ∃ d, d = (decodeAll tables history (.new block)).2 := ⟨_, rfl⟩
  rw [← hd] at hcon hblo hfai
  have ho := hsou.guarded d hcon
  have hsame : ((s.coder tables).decode.on d).2.block = block := ho.block.trans hblo
  refine ⟨?_, ?_, ?_, ?_⟩ <;> rw [← hd]
  · intro r hr
    exact hsame ▸ ho.contained.reads r hr
  · intro r hr
    exact hsame ▸ ho.contained.allocations r hr
  · have hend := d.bufferEnd_eq
    have hlow := hcon.lower
    have hcre : d.credit ≤ d.elementDecodes + block.bytes.length := by
      rw [credit, remaining, hend, hblo]
      rw [hblo] at hlow
      change block.address ≤ _ at hlow
      change d.elementDecodes + (block.address + block.bytes.length - d.bufferPos) ≤ _
      omega
    cases hr : ((s.coder tables).decode.on d).1 with
    | ok a =>
      have hspe := ho.spent a hr
      have hle : ((s.coder tables).decode.on d).2.elementDecodes ≤ ((s.coder tables).decode.on d).2.credit :=
        le_add_right _ _
      omega
    | error e => exact (ho.within e hr).trans hcre
  · intro hfail
    have hinv := hfai (.inr hfail)
    obtain ⟨d', hon, hd'⟩ := hsou.failsInvalid d hcon hinv
    refine ⟨hinv, by rw [hon], by rw [hon]; exact hd', fun size alignment ha => ?_⟩
    obtain ⟨d'', hon', -⟩ := FailsInvalid.decodeFixedLengthData size ha d hcon hinv
    rw [hon']

/-- **Decoding any bytes is safe, but for null strings as keys.** After any requests, a call is safe in
    the sense of `CallSafe`, and it returns unless its type has a hash table with strings in its keys.
    For each such type (whose messages fit into memory at all) some message does crash its receiver. -/
theorem decode_any_bytes (tables : Schema.Tables) (s : Schema) : (∀ (block : Block) (history : List Schema),
      CallSafe tables block history s ∧
      (((s.coder tables).decode.on (decodeAll tables history (.new block)).2).1 = .error .crashed →
        s.hashesString = true)) ∧ (s.footprint ≤ 2 ^ 63 →
      ((∀ block : Block, ((s.coder tables).decode.on (.new block)).1 ≠ .error .crashed) ↔
        s.hashesString = false)) := by
  have hcrash : ∀ d : ArgumentDecoder, d.Contained →
      ((s.coder tables).decode.on d).1 = .error .crashed → s.hashesString = true := fun d hd h =>
    ((s.sound tables id).guarded d hd).crashed h
  refine ⟨fun block history => ⟨callSafe tables block history s,
    hcrash _ (decodeAll_spec tables history (Contained.new block)).1⟩, fun hfit => ⟨fun h => ?_, fun h block hc => ?_⟩⟩
  · by_contra hne
    obtain ⟨v, hv, happ⟩ := s.exists_crashes tables (by simpa using hne)
    have hsize := happ (.new fun _ => 0)
    rw [show (ArgumentEncoder.new fun _ => 0).bufferSize = 0 from rfl] at hsize
    let block : Block := {
        address := 0
        bytes := ((s.coder tables).encode v (.new fun _ => 0)).buffer
        aligned := dvd_zero 8
        inUserSpace := by
          rw [bufferSize] at hsize
          omega }
    have hd : Follows (.new block) (.new fun _ => 0) := ⟨ nil_prefix, rfl⟩
    obtain ⟨d', hon⟩ := hv.read hd prefix_rfl
    exact h block (by rw [hon])
  · rw [hcrash _ (Contained.new block) hc] at h
    cases h

def nullMember : Block where
  address := 0
  bytes := [1, 0, 0, 0, 0, 0, 0, 0, 0xff, 0xff, 0xff, 0xff]
  aligned := dvd_zero 8
  inUserSpace := by decide

theorem decode_nullMember_crashes :
    (((Schema.hashSet .string).coder fun _ => .exact).decode.on (.new nullMember)).1 = .error .crashed := by
  rfl

end WebV8.IPC
