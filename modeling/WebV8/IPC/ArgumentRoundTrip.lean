import WebV8.IPC.ArgumentCoders

/-!
# What was encoded is decoded

`ReadsBack f x a`: a decoder that stands where an encoder stood before `f` wrote, reads `a` with `x`
and stands where the encoder stood afterwards. The encoder rounds offsets and the decoder rounds
pointers; in an aligned block these are the same positions. Each coder reads back what it writes, and
a list of arguments is read back one by one.
-/

namespace WebV8.IPC

open Lib Decode List Nat ArgumentCoder ArgumentEncoder WTFString

variable {α β T U K : Type} {alignment n : Nat} {data : List UInt8}

/-! ## Positions -/

structure Follows (d : ArgumentDecoder) (e : ArgumentEncoder) : Prop where
  written : e.buffer <+: d.block.bytes
  bufferPos : d.bufferPos = d.block.address + e.bufferSize

namespace Follows

variable {d : ArgumentDecoder} {e : ArgumentEncoder}

theorem bufferPos_le (h : Follows d e) : d.bufferPos ≤ 2 ^ 63 + 1 := by
  have hlen := h.written.length_le
  have hblo := d.block.inUserSpace
  have hpos := h.bufferPos
  rw [bufferSize] at hpos
  omega

theorem roundUp_bufferPos (h : Follows d e) (ha : alignment ∣ 8) :
    roundUp d.bufferPos alignment = d.block.address + roundUp e.bufferSize alignment := by
  have hpos : 0 < alignment := pos_of_dvd_of_pos ha (by decide)
  rw [h.bufferPos, roundUp_add hpos (ha.trans d.block.aligned)]

theorem of_eq {d' : ArgumentDecoder} (h : Follows d e) (hblo : d'.block = d.block)
    (hpos : d'.bufferPos = d.bufferPos) : Follows d' e :=
  ⟨hblo ▸ h.written, by rw [hpos, hblo, h.bufferPos]⟩

end Follows

theorem Block.loads_eq {b : Block} {before : List UInt8} (h : before ++ data <+: b.bytes) :
    b.loads (b.address + before.length) data.length = data := by
  obtain ⟨after, hbs⟩ := h
  apply ext_getElem
  · simp [Block.loads]
  · intro i h₁ h₂
    have hoff : b.address + before.length + 1 * i - b.address = before.length + i := by omega
    simp only [Block.loads, getElem_map, getElem_range', Block.load, hoff]
    rw [← hbs, List.append_assoc, List.getD_append_right _ _ _ _ (by omega), Nat.add_sub_cancel_left,
      getD_append _ _ _ _ h₂, getD_eq_getElem _ _ h₂]

/-! ## Reading back -/

/-- `x` reads back as `a` what `f` writes. -/
structure ReadsBack (f : ArgumentEncoder → ArgumentEncoder) (x : Decode α) (a : α) : Prop where
  extend : ∀ e, e.buffer <+: (f e).buffer
  read : ∀ {e : ArgumentEncoder} {d : ArgumentDecoder}, Follows d e → (f e).buffer <+: d.block.bytes →
    ∃ d', x.on d = (.ok a, d') ∧ d'.block = d.block ∧ Follows d' (f e)

namespace ReadsBack

variable {f g : ArgumentEncoder → ArgumentEncoder} {x : Decode α} {a : α} {b : β}

theorem pure (a : α) : ReadsBack id (Pure.pure a : Decode α) a where
  extend _ := prefix_rfl
  read hd _ := ⟨_, rfl, rfl, hd⟩

theorem bind {k : α → Decode β} (hx : ReadsBack f x a) (hk : ReadsBack g (k a) b) :
    ReadsBack (g ∘ f) (x >>= k) b where
  extend e := (hx.extend e).trans (hk.extend (f e))
  read := by
    intro e d hd hw
    obtain ⟨d₁, hon₁, hblo₁, hd₁⟩ := hx.read hd ((hk.extend (f e)).trans hw)
    obtain ⟨d₂, hon₂, hblo₂, hd₂⟩ := hk.read hd₁ (hblo₁ ▸ hw)
    exact ⟨d₂, by rw [on_bind_ok hon₁, hon₂], hblo₂.trans hblo₁, hd₂⟩

theorem map (h : α → β) (hx : ReadsBack f x a) : ReadsBack f (x >>= fun a => Pure.pure (h a)) (h a) := by
  have hmap := hx.bind (k := fun a => Pure.pure (h a)) (ReadsBack.pure (h a))
  exact hmap

theorem after {y : Decode β} (hx : ReadsBack f x a)
    (hy : ∀ {e : ArgumentEncoder} {d : ArgumentDecoder}, Follows d e → (f e).buffer <+: d.block.bytes →
      ∃ d' b, y.on d = (.ok b, d') ∧ d'.block = d.block ∧ d'.bufferPos = d.bufferPos) :
    ReadsBack f (y >>= fun _ => x) a where
  extend := hx.extend
  read := by
    intro e d hd hw
    obtain ⟨d₁, b, hon₁, hblo₁, hpos₁⟩ := hy hd hw
    obtain ⟨d₂, hon₂, hblo₂, hd₂⟩ := hx.read (hd.of_eq hblo₁ hpos₁) (hblo₁ ▸ hw)
    exact ⟨d₂, by rw [on_bind_ok hon₁, hon₂], hblo₂.trans hblo₁, hd₂⟩

theorem orElse (hx : ReadsBack f x a) (unchanged : α) : ReadsBack f (Decode.orElse x unchanged) a where
  extend := hx.extend
  read := by
    intro e d hd hw
    obtain ⟨d', hon, hblo, hd'⟩ := hx.read hd hw
    exact ⟨d', by rw [on_orElse, hon], hblo, hd'⟩

theorem element (hx : ReadsBack f x a) : ReadsBack f (Decode.element x) a :=
  hx.after fun _ _ => ⟨_, _, on_modify _ _, rfl, rfl⟩

theorem appended (hx : ReadsBack f x a) : ReadsBack f (Decode.appended x) a where
  extend := hx.extend
  read := by
    intro e d hd hw
    obtain ⟨d', hon, hblo, hd'⟩ := hx.element.read hd hw
    refine ⟨{ d' with allocations := d'.allocations ++ [⟨d.bufferPos, d'.bufferPos - d.bufferPos⟩] },
      ?_, hblo, hd'.of_eq rfl rfl⟩
    rw [Decode.appended, on_bind_ok (on_get d), on_bind_ok hon, on_bind_ok (on_modify _ _), on_pure]

/-! ### Data of fixed length -/

theorem decodeFixedLengthData (data : List UInt8) (ha : alignment ∣ 8) :
    ReadsBack (ArgumentEncoder.encodeFixedLengthData data alignment)
      (Decode.decodeFixedLengthData data.length alignment) data := by
  have hpos : 0 < alignment := pos_of_dvd_of_pos ha (by decide)
  constructor
  · intro e
    rw [buffer_encodeFixedLengthData data hpos, append_assoc]
    exact prefix_append _ _
  · intro e d hd hw
    have hst := e.length_fresh hpos
    have hrnd := hd.roundUp_bufferPos ha
    have hbuf := buffer_encodeFixedLengthData data hpos e
    have hlen : (e.encodeFixedLengthData data alignment).bufferSize =
        roundUp e.bufferSize alignment + data.length := by
      rw [bufferSize, hbuf, length_append, hst]
    have hfit : roundUp d.bufferPos alignment + data.length ≤ d.bufferEnd := by
      have hle := hw.length_le
      rw [bufferSize] at hlen
      rw [hrnd, d.bufferEnd_eq]
      omega
    have hload : d.block.loads (roundUp d.bufferPos alignment) data.length = data := by
      rw [hrnd, ← hst]
      exact Block.loads_eq (hbuf ▸ hw)
    have hon : (Decode.decodeFixedLengthData data.length alignment).on d = _ :=
      on_decodeFixedLengthData hd.bufferPos_le ha
    rw [if_pos hfit, hload] at hon
    refine ⟨_, hon, rfl, hw, ?_⟩
    rw [hrnd, hlen, add_assoc]

theorem decode (a : Arithmetic) (n : a.Value) : ReadsBack (ArgumentEncoder.encode a n) (Decode.decode a) n := by
  have hdata := ReadsBack.decodeFixedLengthData (a.bytes n) a.size_dvd
  rw [a.length_bytes] at hdata
  have h := hdata.map a.ofBytes
  rw [a.ofBytes_bytes] at h
  rw [Decode.decode_eq, funext (encode_eq a n)]
  exact h

theorem allocate {c : Arithmetic} (hn : data.length = n * c.size)
    (hx : ReadsBack (ArgumentEncoder.encodeFixedLengthData data c.size) x a) :
    ReadsBack (ArgumentEncoder.encodeFixedLengthData data c.size) (Decode.allocate c n >>= fun _ => x) a := by
  refine hx.after fun {e d} hd hw => ?_
  have hbuf := buffer_encodeFixedLengthData data c.size_pos e
  have hfit : roundUp d.bufferPos c.size + n * c.size ≤ d.bufferEnd := by
    have hle := hw.length_le
    rw [hbuf, length_append, e.length_fresh c.size_pos, hn] at hle
    rw [hd.roundUp_bufferPos c.size_dvd, d.bufferEnd_eq]
    omega
  have hon := on_allocate hd.bufferPos_le c n
  rw [if_pos hfit] at hon
  exact ⟨_, (), hon, rfl, rfl⟩

theorem of_length_lt (ha : alignment ∣ 8)
    (h : data.length < 2 ^ 64 → ReadsBack (ArgumentEncoder.encodeFixedLengthData data alignment) x a) :
    ReadsBack (ArgumentEncoder.encodeFixedLengthData data alignment) x a where
  extend := (ReadsBack.decodeFixedLengthData data ha).extend
  read := by
    intro e d hd hw
    have hpos : 0 < alignment := pos_of_dvd_of_pos ha (by decide)
    have hle := hw.length_le
    have hblo := d.block.inUserSpace
    rw [buffer_encodeFixedLengthData data hpos, length_append] at hle
    exact (h (by omega)).read hd hw

end ReadsBack

/-! ## Values that can be sent -/

/-- The length is told apart from the mark of a null string. -/
def CString.Sendable (s : CString) : Prop := ∀ data ∈ s, data.length < 2 ^ 32 - 1

def WTFString.Sendable (s : WTFString) : Prop := s.characters.length < 2 ^ 32 - 1

instance (s : WTFString) : Decidable s.Sendable := inferInstanceAs (Decidable (_ < _))

def KeySchema.Sendable : (k : KeySchema) → k.Value → Prop
  | .integer _ _, _ => True
  | .cstring, s => CString.Sendable s
  | .string, s => WTFString.Sendable s
  | .pair k l, v => k.Sendable v.1 ∧ l.Sendable v.2

/-- A value as the program can hold it: sizes fit a word, the lengths of strings are below the mark of
    a null string, and the keys of a hash table are proper and different from each other. -/
def Schema.Sendable : (s : Schema) → s.Value → Prop
  | .arithmetic _, _ => True
  | .simple _ _ _ _, _ => True
  | .dataReference, v => List.length v < 2 ^ 64
  | .cstring, s => CString.Sendable s
  | .string, s => WTFString.Sendable s
  | .optional s, v => ∀ t : s.Value, v = some t → s.Sendable t
  | .pair s t, v => s.Sendable v.1 ∧ t.Sendable v.2
  | .vector s, v => List.length v < 2 ^ 64 ∧ ∀ t : s.Value, List.Mem t v → s.Sendable t
  | .hashMap k s, v =>
    List.length v < 2 ^ 64 ∧
      (∀ (key : k.Value) (mapped : s.Value), List.Mem (key, mapped) v →
        k.Sendable key ∧ k.traits.IsKey key ∧ s.Sendable mapped) ∧
      List.Pairwise (fun x y => k.traits.equal (Prod.fst x) (Prod.fst y) = false) v
  | .hashSet k, v =>
    List.length v < 2 ^ 64 ∧
      (∀ key : k.Value, List.Mem key v → k.Sendable key ∧ k.traits.IsKey key) ∧
      List.Pairwise (fun x y => k.traits.equal x y = false) v

/-! ## Each coder reads back what it writes -/

def ArgumentCoder.RoundTrips (c : ArgumentCoder T) (t : T) : Prop := ReadsBack (c.encode t) c.decode t

/-- What follows a length that fits a word. -/
theorem ReadsBack.sized {g : ArgumentEncoder → ArgumentEncoder} {k : UInt64 → Decode α} {a : α}
    (h : n < 2 ^ 64) (hk : ∀ m : UInt64, m.toNat = n → ReadsBack g (k m) a) :
    ReadsBack (g ∘ ArgumentEncoder.encode .uint64 (UInt64.ofNat n)) (Decode.decode .uint64 >>= k) a :=
  (ReadsBack.decode .uint64 _).bind (hk _ (UInt64.toNat_ofNat_of_lt' h))

theorem length_ne_nullLength (h : n < 2 ^ 32 - 1) :
    (UInt32.ofNat n).toNat = n ∧ UInt32.ofNat n ≠ nullLength := by
  have hn : (UInt32.ofNat n).toNat = n := UInt32.toNat_ofNat_of_lt' (show n < 2 ^ 32 by omega)
  refine ⟨hn, fun heq => ?_⟩
  have hnull : nullLength.toNat = 2 ^ 32 - 1 := by decide
  rw [heq, hnull] at hn
  omega

namespace ArgumentCoder

theorem roundTrips_arithmetic (a : Arithmetic) (n : a.Value) : (arithmetic a).RoundTrips n :=
  ReadsBack.decode a n

theorem roundTrips_simple {size : Nat} (ha : alignment ∣ 8)
    (t : { bytes : List UInt8 // bytes.length = size }) : (simple size alignment).RoundTrips t := by
  obtain ⟨bytes, rfl⟩ := t
  have h := (ReadsBack.decodeFixedLengthData bytes ha).map fun bs =>
    (⟨bs.takeD bytes.length 0, takeD_length ..⟩ : { bs : List UInt8 // bs.length = bytes.length })
  have hall : bytes.takeD bytes.length 0 = bytes := by
    rw [takeD_eq_take _ le_rfl, take_length]
  simp only [hall] at h
  exact h

theorem roundTrips_dataReference (h : data.length < 2 ^ 64) :
    dataReference.RoundTrips data := by
  have hdata := ReadsBack.decodeFixedLengthData data (one_dvd 8)
  exact ReadsBack.sized h fun m hm => hm ▸ hdata

theorem roundTrips_cstring {s : CString} (h : s.Sendable) : cstring.RoundTrips s := by
  cases s with
  | none =>
    change ReadsBack (id ∘ ArgumentEncoder.encode .uint32 nullLength) (Decode.decode .uint32 >>= _) none
    refine (ReadsBack.decode .uint32 _).bind ?_
    exact ReadsBack.pure none
  | some data =>
    obtain ⟨hlen, hne⟩ := length_ne_nullLength (h data rfl)
    have hdata := ((ReadsBack.decodeFixedLengthData data (one_dvd 8)).map some).allocate (c := .uint8)
      (n := data.length) (mul_one _).symm
    change ReadsBack (ArgumentEncoder.encodeFixedLengthData data 1 ∘
      ArgumentEncoder.encode .uint32 (UInt32.ofNat data.length)) (Decode.decode .uint32 >>= _) (some data)
    refine (ReadsBack.decode .uint32 _).bind ?_
    simp only [if_neg hne, hlen]
    exact hdata

theorem readsBack_stringText (c : Arithmetic) (cs : List c.Value) :
    ReadsBack (ArgumentEncoder.encodeFixedLengthData (c.arrayBytes cs) c.size)
      (decodeStringText c cs.length) cs := by
  have hlen := c.length_arrayBytes cs
  have hdata := ReadsBack.decodeFixedLengthData (c.arrayBytes cs) c.size_dvd
  rw [hlen] at hdata
  have h := (hdata.map (c.ofArrayBytes cs.length)).allocate hlen
  rw [c.ofArrayBytes_arrayBytes] at h
  exact h

theorem roundTrips_string {s : WTFString} (h : s.Sendable) : string.RoundTrips s := by
  cases s with
  | null =>
    change ReadsBack (id ∘ ArgumentEncoder.encode .uint32 nullLength) (Decode.decode .uint32 >>= _) _
    refine (ReadsBack.decode .uint32 _).bind ?_
    exact ReadsBack.pure null
  | narrow cs =>
    have hcs : cs.length < 2 ^ 32 - 1 := by
      simpa only [WTFString.Sendable, WTFString.characters, length_map] using h
    obtain ⟨hlen, hne⟩ := length_ne_nullLength hcs
    have htext := (readsBack_stringText .uint8 cs).map WTFString.narrow
    change ReadsBack ((ArgumentEncoder.encodeFixedLengthData (Arithmetic.arrayBytes .uint8 cs) 1 ∘
      ArgumentEncoder.encode .bool true) ∘ ArgumentEncoder.encode .uint32 (UInt32.ofNat cs.length))
      (Decode.decode .uint32 >>= _) _
    refine (ReadsBack.decode .uint32 _).bind ?_
    simp only [if_neg hne, hlen]
    exact (ReadsBack.decode .bool true).bind htext
  | wide cs hcs0 =>
    obtain ⟨hlen, hne⟩ := length_ne_nullLength (show cs.length < 2 ^ 32 - 1 from h)
    have htext := (readsBack_stringText .uint16 cs).map ofCharacters16
    rw [ofCharacters16, dif_neg hcs0] at htext
    change ReadsBack ((ArgumentEncoder.encodeFixedLengthData (Arithmetic.arrayBytes .uint16 cs) 2 ∘
      ArgumentEncoder.encode .bool false) ∘ ArgumentEncoder.encode .uint32 (UInt32.ofNat cs.length))
      (Decode.decode .uint32 >>= _) _
    refine (ReadsBack.decode .uint32 _).bind ?_
    simp only [if_neg hne, hlen]
    exact (ReadsBack.decode .bool false).bind htext

variable {c : ArgumentCoder T} {t : KeyTraits K}

theorem roundTrips_optional {v : Option T} (h : ∀ t, v = some t → c.RoundTrips t) : (optional c).RoundTrips v := by
  cases v with
  | none =>
    change ReadsBack (id ∘ ArgumentEncoder.encode .bool false) (Decode.decode .bool >>= _) _
    refine (ReadsBack.decode .bool _).bind ?_
    exact ReadsBack.pure none
  | some t =>
    refine (ReadsBack.decode .bool _).bind ?_
    exact ReadsBack.map some (h t rfl)

theorem roundTrips_pair {c' : ArgumentCoder U} {p : T × U} (h : c.RoundTrips p.1)
    (h' : c'.RoundTrips p.2) : (pair c c').RoundTrips p := by
  change ReadsBack (c'.encode p.2 ∘ c.encode p.1) (c.decode >>= _) _
  exact ReadsBack.bind h (ReadsBack.map (fun second => (p.1, second)) h')

/-! ### Containers -/

theorem encodeEach_cons (c : ArgumentCoder T) (t : T) (l : List T) :
    c.encodeEach (t :: l) = c.encodeEach l ∘ c.encode t := rfl

theorem readsBack_elements (l tmp : List T) (h : ∀ t ∈ l, c.RoundTrips t) :
    ReadsBack (c.encodeEach l) (decodeElements c.decode l.length tmp) (tmp ++ l) := by
  induction l generalizing tmp with
  | nil =>
    rw [append_nil]
    exact ReadsBack.pure tmp
  | cons t l ih =>
    have hrest := ih (tmp ++ [t]) fun t' ht' => h t' (mem_cons_of_mem _ ht')
    rw [append_assoc, singleton_append] at hrest
    rw [encodeEach_cons]
    exact (ReadsBack.appended (h t mem_cons_self)).bind hrest

theorem roundTrips_vector {l : List T} (hlen : l.length < 2 ^ 64)
    (h : ∀ t ∈ l, c.RoundTrips t) : (vector c).RoundTrips l := by
  refine ReadsBack.sized (g := c.encodeEach l) hlen fun m hm => ?_
  simp only [hm]
  exact readsBack_elements l [] h

theorem roundTrips_vectorOfArithmetic (a : Arithmetic) {l : List a.Value} (hlen : l.length < 2 ^ 64) :
    (vectorOfArithmetic a).RoundTrips l := by
  have hbs := a.length_arrayBytes l
  have hdata := ReadsBack.decodeFixedLengthData (a.arrayBytes l) a.size_dvd
  rw [hbs] at hdata
  have htext := ((hdata.orElse []).map (a.ofArrayBytes l.length)).allocate hbs
  rw [a.ofArrayBytes_arrayBytes] at htext
  refine ReadsBack.sized hlen fun m hm => ReadsBack.of_length_lt a.size_dvd fun hlt => ?_
  have hwrap : wrap (l.length * a.size) = l.length * a.size := mod_eq_of_lt (hbs ▸ hlt)
  simp only [hm, hwrap]
  exact htext

/-- The keys still to be added are proper, and differ from each other and from those in the table. -/
theorem readsBack_addEach {table : TableAnswers t} {x : Decode T}
    {key : T → K} (l added : List T) (hx : ∀ entry ∈ l, ReadsBack (c.encode entry) x entry)
    (hkeys : ∀ entry ∈ added ++ l, t.IsKey (key entry))
    (hdis : (added ++ l).Pairwise fun a b => t.equal (key a) (key b) = false) :
    ReadsBack (c.encodeEach l) (addEach table x key l.length added) (added ++ l) := by
  induction l generalizing added with
  | nil =>
    rw [append_nil] at hkeys ⊢
    have hall : added.filter (fun entry => !t.isEmptyOrDeleted (key entry)) = added := by
      rw [filter_eq_self]
      intro entry hmem
      rw [(hkeys entry hmem).2]
      rfl
    have h := ReadsBack.pure (added.filter fun entry => !t.isEmptyOrDeleted (key entry))
    rw [hall] at h
    simp only [length_nil, addEach, hall]
    exact h
  | cons entry l ih =>
    have hkey := hkeys entry (mem_append_right _ mem_cons_self)
    have hnew : table.isNewEntry (added.map key) (key entry) = true := by
      rw [table.isNewEntry_eq ?_ hkey]
      · rw [pairwise_append] at hdis
        simp only [any_map, Bool.not_eq_true', any_eq_false, Function.comp_apply]
        intro a ha
        simp [hdis.2.2 a ha entry mem_cons_self]
      · intro k hk
        obtain ⟨a, ha, rfl⟩ := mem_map.mp hk
        exact hkeys a (mem_append_left _ ha)
    have hass : added ++ entry :: l = (added ++ [entry]) ++ l := by simp
    have hrest := ih (added ++ [entry]) (fun e he => hx e (mem_cons_of_mem _ he)) (hass ▸ hkeys)
      (hass ▸ hdis)
    rw [encodeEach_cons, hass, length_cons, addEach]
    refine (hx entry mem_cons_self).bind ?_
    simp only [hkey.1, hnew, if_true]
    exact hrest

theorem roundTrips_hashMap (table : TableAnswers t) {c : ArgumentCoder K}
    {c' : ArgumentCoder T} {l : List (K × T)} (hlen : l.length < 2 ^ 64)
    (h : ∀ entry ∈ l, c.RoundTrips entry.1 ∧ t.IsKey entry.1 ∧ c'.RoundTrips entry.2)
    (hdis : l.Pairwise fun x y => t.equal x.1 y.1 = false) : (hashMap table c c').RoundTrips l := by
  have hent : ∀ entry ∈ l, ReadsBack ((pair c c').encode entry) (do
      let key ← element c.decode
      let value ← element c'.decode
      return (key, value)) entry := by
    intro entry hmem
    obtain ⟨hkey, -, hval⟩ := h entry hmem
    exact (ReadsBack.element hkey).bind ((ReadsBack.element hval).map fun value => (entry.1, value))
  refine ReadsBack.sized (g := (pair c c').encodeEach l) hlen fun m hm => ?_
  simp only [hm]
  exact readsBack_addEach l [] hent (fun entry hmem => (h entry hmem).2.1) hdis

theorem roundTrips_hashSet (table : TableAnswers t) {c : ArgumentCoder K} {l : List K}
    (hlen : l.length < 2 ^ 64) (h : ∀ key ∈ l, c.RoundTrips key ∧ t.IsKey key)
    (hdis : l.Pairwise fun x y => t.equal x y = false) : (hashSet table c).RoundTrips l := by
  refine ReadsBack.sized (g := c.encodeEach l) hlen fun m hm => ?_
  simp only [hm]
  exact readsBack_addEach l [] (fun key hmem => (h key hmem).1.element) (fun key hmem => (h key hmem).2) hdis

end ArgumentCoder

/-! ## Every type -/

theorem KeySchema.roundTrips (k : KeySchema) (v : k.Value) (h : k.Sendable v) : k.coder.RoundTrips v := by
  induction k with
  | integer a _ => exact roundTrips_arithmetic a v
  | cstring => exact roundTrips_cstring h
  | string => exact roundTrips_string h
  | pair k l ihk ihl => exact roundTrips_pair (ihk v.1 h.1) (ihl v.2 h.2)

theorem Schema.roundTrips_vectorCoder (s : Schema) {c : ArgumentCoder s.Value} {l : List s.Value}
    (hlen : l.length < 2 ^ 64) (h : ∀ t ∈ l, c.RoundTrips t) : (s.vectorCoder c).RoundTrips l := by
  cases s with
  | arithmetic a => exact roundTrips_vectorOfArithmetic a hlen
  | _ => exact roundTrips_vector hlen h

variable (tables : Schema.Tables)

theorem Schema.roundTrips (s : Schema) (v : s.Value) (h : s.Sendable v) :
    (s.coder tables).RoundTrips v := by
  induction s with
  | arithmetic a => exact roundTrips_arithmetic a v
  | simple size alignment _ ha => exact roundTrips_simple ha v
  | dataReference => exact roundTrips_dataReference h
  | cstring => exact roundTrips_cstring h
  | string => exact roundTrips_string h
  | optional s ih => exact roundTrips_optional fun t ht => ih t (h t ht)
  | pair s t ihs iht => exact roundTrips_pair (ihs v.1 h.1) (iht v.2 h.2)
  | vector s ih => exact s.roundTrips_vectorCoder h.1 fun t ht => ih t (h.2 t ht)
  | hashMap k s ih =>
    refine roundTrips_hashMap (tables k) h.1 (fun entry hmem => ?_) h.2.2
    obtain ⟨hkey, hpro, hmap⟩ := h.2.1 entry.1 entry.2 hmem
    exact ⟨k.roundTrips entry.1 hkey, hpro, ih entry.2 hmap⟩
  | hashSet k =>
    refine roundTrips_hashSet (tables k) h.1 (fun key hmem => ?_) h.2.2
    obtain ⟨hkey, hpro⟩ := h.2.1 key hmem
    exact ⟨k.roundTrips key hkey, hpro⟩

/-! ## Messages -/

theorem encodeAll_cons (a : Argument) (arguments : List Argument) (e : ArgumentEncoder) :
    encodeAll tables (a :: arguments) e = encodeAll tables arguments ((a.1.coder tables).encode a.2 e) := rfl

theorem encodeAll_extends (arguments : List Argument)
    (h : ∀ a ∈ arguments, a.1.Sendable a.2) (e : ArgumentEncoder) :
    e.buffer <+: (encodeAll tables arguments e).buffer := by
  induction arguments generalizing e with
  | nil => exact prefix_rfl
  | cons a arguments ih =>
    have hfst := (a.1.roundTrips tables a.2 (h a mem_cons_self)).extend e
    exact hfst.trans (ih (fun b hb => h b (mem_cons_of_mem _ hb)) _)

theorem decodeAll_follows (arguments : List Argument)
    (h : ∀ a ∈ arguments, a.1.Sendable a.2) {e : ArgumentEncoder} {d : ArgumentDecoder} (hd : Follows d e)
    (hw : (encodeAll tables arguments e).buffer <+: d.block.bytes) :
    ∃ d', decodeAll tables (arguments.map Sigma.fst) d = (arguments.map fun a => ⟨a.1, .ok a.2⟩, d') ∧
      d'.block = d.block ∧ Follows d' (encodeAll tables arguments e) := by
  induction arguments generalizing e d with
  | nil => exact ⟨d, rfl, rfl, hd⟩
  | cons a arguments ih =>
    have hrest : ∀ b ∈ arguments, b.1.Sendable b.2 := fun b hb => h b (mem_cons_of_mem _ hb)
    have hfst := a.1.roundTrips tables a.2 (h a mem_cons_self)
    rw [encodeAll_cons] at hw ⊢
    obtain ⟨d₁, hon, hblo₁, hd₁⟩ := hfst.read hd ((encodeAll_extends tables arguments hrest _).trans hw)
    obtain ⟨d₂, hall, hblo₂, hd₂⟩ := ih hrest hd₁ (hblo₁ ▸ hw)
    refine ⟨d₂, ?_, hblo₂.trans hblo₁, hd₂⟩
    rw [map_cons, decodeAll, hon]
    simp [hall]

/-- **What an encoder wrote, a decoder over its bytes reads back**: every request is answered with
    the value that was written, and the decoder ends at the end of its block. -/
theorem decodeAll_encodeAll (tables : Schema.Tables) (arguments : List Argument)
    (h : ∀ a ∈ arguments, a.1.Sendable a.2) (uninitialized : Nat → UInt8) (block : Block)
    (hblock : block.bytes = (encodeAll tables arguments (.new uninitialized)).buffer) :
    ∃ d, decodeAll tables (arguments.map Sigma.fst) (.new block) = (arguments.map fun a => ⟨a.1, .ok a.2⟩, d) ∧
      d.bufferPos = d.bufferEnd ∧ d.block = block := by
  have hd : Follows (.new block) (.new uninitialized) := ⟨ nil_prefix, rfl⟩
  obtain ⟨d, hall, hsame, hd'⟩ := decodeAll_follows tables arguments h hd (hblock ▸ prefix_rfl)
  refine ⟨d, hall, ?_, hsame⟩
  rw [hd'.bufferPos, d.bufferEnd_eq, hsame]
  exact congrArg (block.address + ·.length) hblock.symm

def TableAnswers.exact {t : KeyTraits K} : TableAnswers t where
  isNewEntry added key := !added.any fun k => t.equal k key
  isNewEntry_eq _ _ := rfl

/-- A byte, then strings of every kind, then a set that holds one. -/
def sampleArguments : List Argument :=
  [⟨.arithmetic .uint8, (7 : UInt8)⟩,
    ⟨.vector .string, [null, .narrow [], .wide [0x263a] (by decide)]⟩,
    ⟨.hashSet .string, [WTFString.narrow [0x61]]⟩]

theorem decodeAll_encodeAll_sample : ∃ (block : Block) (d : ArgumentDecoder),
      decodeAll (fun _ => .exact) [.arithmetic .uint8, .vector .string, .hashSet .string] (.new block) =
        (sampleArguments.map fun a => ⟨a.1, .ok a.2⟩, d) ∧ d.bufferPos = d.bufferEnd ∧ d.block = block := by
  let block : Block := {
      address := 0
      bytes := (encodeAll (fun _ => .exact) sampleArguments (.new fun _ => 0)).buffer
      aligned := by decide
      inUserSpace := by decide }
  refine ⟨block, decodeAll_encodeAll (fun _ => .exact) sampleArguments ?_ (fun _ => 0) block rfl⟩
  have hstrings : ∀ s ∈ [null, .narrow [], .wide [0x263a] (by decide)], WTFString.Sendable s := by
    intro s hs
    simp only [mem_cons, not_mem_nil, or_false] at hs
    rcases hs with rfl | rfl | rfl <;> decide
  intro a ha
  simp only [sampleArguments, mem_cons, not_mem_nil, or_false] at ha
  rcases ha with rfl | rfl | rfl
  · exact trivial
  · exact ⟨by decide, hstrings⟩
  · refine ⟨by decide, fun key hkey => ?_, pairwise_singleton _ _⟩
    cases mem_singleton.mp hkey
    exact ⟨show WTFString.Sendable _ by decide, show KeyTraits.string.IsKey _ by decide⟩

end WebV8.IPC
