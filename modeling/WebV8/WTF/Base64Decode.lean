import WebV8.WTF.Base64RoundTrip

/-! # What the Base64 decoder accepts

The round trip is about texts that the encoder has written. Here the decoder gets any text: what it returns for an
accepted text has to be the bytes of the alphabet characters, and under the strict policies there may be nothing but
these and the padding at the end.
-/

open List Option

namespace WebV8.Base64

/-- The octets of a list of numbers less than 64; the bits that do not fill an octet are dropped. -/
def octets : List Nat → List Nat
  | a :: b :: c :: d :: rest => (a * 4 + b / 16) :: (b % 16 * 16 + c / 4) :: (c % 4 * 64 + d) :: octets rest
  | [a, b, c] => [a * 4 + b / 16, b % 16 * 16 + c / 4]
  | [a, b] => [a * 4 + b / 16]
  | _ => []

/-- The value of a character of the alphabet. -/
def letter (decodeMap : List CChar) (ch : Nat) : Option CChar :=
  if decodeMap.getD ch nonAlphabet = nonAlphabet then none else some (decodeMap.getD ch nonAlphabet)

def letters (decodeMap : List CChar) (data : List Nat) : List CChar := data.filterMap (letter decodeMap)

/-- Characters of the alphabet and then the padding, as much of it as the policy allows. -/
def Strict (policy : DecodePolicy) (decodeMap : List CChar) (data : List Nat) : Prop :=
  ∃ body n, data = body ++ replicate n 0x3d ∧ (∀ ch ∈ body, letter decodeMap ch ≠ none) ∧
    (policy = .failOnInvalidCharacterOrExcessPadding → n ≠ 0 → data.length % 4 = 0 ∧ n ≤ 2)

/-- What an accepted text and the contents of the vector have to be. -/
structure Decoded (policy : DecodePolicy) (decodeMap : List CChar) (data : List Nat) (out : List CChar) : Prop where
  bytes : out.map BitVec.toNat = octets ((letters decodeMap data).map BitVec.toNat)
  length : out.length = 3 * (letters decodeMap data).length / 4
  whole : (letters decodeMap data).length % 4 ≠ 1
  strict : policy = .failOnInvalidCharacterOrExcessPadding ∨ policy = .failOnInvalidCharacter →
    Strict policy decodeMap data

theorem toNat_packed {vs : List CChar} (h : ∀ v ∈ vs, v.toNat < 64) :
    (packed vs).map BitVec.toNat = octets (vs.map BitVec.toNat) := by
  fun_induction packed vs with
  | case1 a b c d vs ih =>
    simp only [mem_cons, forall_eq_or_imp] at h
    obtain ⟨ha, hb, hc, hd, hvs⟩ := h
    simp only [map_cons, octets, ih hvs, toNat_firstByte, toNat_secondByte, toNat_thirdByte]
    congr 3 <;> omega
  | case2 a b c =>
    simp only [mem_cons, forall_eq_or_imp] at h
    simp only [map_cons, map_nil, octets, toNat_firstByte, toNat_secondByte]
    congr 2 <;> omega
  | case3 a b =>
    simp only [mem_cons, forall_eq_or_imp] at h
    simp only [map_cons, map_nil, octets, toNat_firstByte]
    congr 1
    omega
  | case4 vs h4 h3 h2 =>
    rcases vs with _ | ⟨a, _ | ⟨b, _ | ⟨c, _ | ⟨d, vs⟩⟩⟩⟩
    · rfl
    · rfl
    · exact absurd rfl (h2 a b)
    · exact absurd rfl (h3 a b c)
    · exact absurd rfl (h4 a b c d vs)

section

variable {isWhiteSpaceNeutral : Nat → Bool} {policy : DecodePolicy} {decodeMap : List CChar} {length n m k : Nat}
  {data : List Nat} {stored free out : List CChar}

/-- What the loop has stored, and what it has passed under a strict policy: after an equals sign nothing but such
    signs. -/
theorem decodeLoop_ok (hpad : letter decodeMap 0x3d = none)
    (h : decodeLoop isWhiteSpaceNeutral policy decodeMap length data n stored.length (stored ++ free) = .ok (m, k, out))
    (hroom : data.length ≤ free.length) :
    k = stored.length + (letters decodeMap data).length ∧
    out = stored ++ (letters decodeMap data ++ free.drop (letters decodeMap data).length) ∧
    (policy = .failOnInvalidCharacterOrExcessPadding ∨ policy = .failOnInvalidCharacter →
      ∃ body i, data = body ++ replicate i 0x3d ∧ (∀ ch ∈ body, letter decodeMap ch ≠ none) ∧ (n ≠ 0 → body = []) ∧
        (policy = .failOnInvalidCharacterOrExcessPadding → i ≠ 0 → length % 4 = 0 ∧ n + i ≤ 2)) := by
  induction data generalizing n stored free with
  | nil =>
    rw [decodeLoop] at h
    cases h
    exact ⟨rfl, rfl, fun _ => ⟨[], 0, rfl, by simp, fun _ => rfl, fun _ hne => absurd rfl hne⟩⟩
  | cons ch data ih =>
    rw [length_cons] at hroom
    rw [decodeLoop] at h
    split_ifs at h with heq hexc hlet hpos hbad
    · subst heq
      obtain ⟨hk, hout, hstrict⟩ := ih h (by omega)
      rw [letters, filterMap_cons_none hpad]
      refine ⟨hk, hout, fun hpol => ?_⟩
      obtain ⟨body, i, rfl, -, hbody, hi⟩ := hstrict hpol
      obtain rfl := hbody (Nat.succ_ne_zero n)
      refine ⟨[], i + 1, rfl, by simp, fun _ => rfl, fun hpol' _ => ?_⟩
      have := not_and.mp hexc hpol'
      have := hi hpol'
      omega
    · obtain ⟨y, free, rfl⟩ := exists_cons_of_length_pos (Nat.lt_of_lt_of_le (Nat.succ_pos _) hroom)
      have hsome : letter decodeMap ch = some (decodeMap.getD ch nonAlphabet) := if_neg hlet
      rw [set_append_cons, show stored.length + 1 = (stored ++ [decodeMap.getD ch nonAlphabet]).length by simp] at h
      obtain ⟨hk, hout, hstrict⟩ := ih h (Nat.le_of_succ_le_succ hroom)
      rw [letters, filterMap_cons_some hsome, ← letters]
      refine ⟨by simpa [Nat.add_assoc, Nat.add_comm 1] using hk, by simpa using hout, fun hpol => ?_⟩
      obtain ⟨body, i, rfl, hbody, -, hi⟩ := hstrict hpol
      refine ⟨ch :: body, i, rfl, ?_, fun hne => absurd hne hpos, hi⟩
      simpa [hsome] using hbody
    · have hnone : letter decodeMap ch = none := if_pos (not_not.mp hlet)
      obtain ⟨hk, hout, -⟩ := ih h (by omega)
      rw [letters, filterMap_cons_none hnone]
      exact ⟨hk, hout, fun hpol => absurd hpol (by tauto)⟩

theorem Decoded.of_letters (hmap : ∀ ch v, letter decodeMap ch = some v → v.toNat < 64)
    (hmod : (letters decodeMap data).length % 4 ≠ 1)
    (hstrict : policy = .failOnInvalidCharacterOrExcessPadding ∨ policy = .failOnInvalidCharacter →
      Strict policy decodeMap data) : Decoded policy decodeMap data (packed (letters decodeMap data)) := by
  refine ⟨toNat_packed fun v hv => ?_, ?_, hmod, hstrict⟩
  · obtain ⟨ch, -, hch⟩ := mem_filterMap.mp hv
    exact hmap ch v hch
  · rw [length_packed]
    omega

theorem decodes_iff (hpad : letter decodeMap 0x3d = none) (hmap : ∀ ch v, letter decodeMap ch = some v → v.toNat < 64)
    {result : Bool × List CChar} (hres : base64DecodeInternal isWhiteSpaceNeutral data policy decodeMap = result) :
    (result.1 = true → Decoded policy decodeMap data result.2) ↔
      (result.1 = true → data = [] ∨ letters decodeMap data ≠ []) := by
  subst hres
  rw [base64DecodeInternal]
  split_ifs with hne
  · subst hne
    exact ⟨fun _ _ => .inl rfl, fun _ _ => .of_letters hmap Nat.zero_ne_one fun _ =>
      ⟨[], 0, rfl, by simp, fun _ h => absurd rfl h⟩⟩
  · generalize hloop : decodeLoop isWhiteSpaceNeutral policy decodeMap data.length data 0 0 (replicate data.length 0) = loop
    cases loop with
    | error out => simp
    | ok loop =>
      obtain ⟨m, k, out⟩ := loop
      obtain ⟨hk, hout, hstrict⟩ := @decodeLoop_ok _ _ _ _ _ _ _ _ [] _ _ hpad hloop length_replicate.ge
      rw [nil_append] at hout
      rw [length_nil, Nat.zero_add] at hk
      subst hk hout
      dsimp only
      split_ifs with hnil
      · rw [length_eq_zero_iff] at hnil
        have hnot : ¬ Decoded policy decodeMap data (letters decodeMap data ++
            drop (letters decodeMap data).length (replicate data.length 0)) := by
          intro hdec
          have hlen := hdec.length
          rw [hnil, nil_append, length_nil, drop_zero, length_replicate] at hlen
          exact hne (length_eq_zero_iff.mp hlen)
        exact imp_congr_right fun _ => iff_of_false hnot (by simp [hne, hnil])
      · by_cases hmod : (letters decodeMap data).length % 4 = 1
        · rw [pack, if_pos hmod]
          simp
        · rw [pack_eq (by simpa using hnil) hmod]
          refine iff_of_true (fun _ => .of_letters hmap hmod fun hpol => ?_) fun _ => .inr (by simpa using hnil)
          obtain ⟨body, i, hdata, hbody, -, hi⟩ := hstrict hpol
          exact ⟨body, i, hdata, hbody, by simpa using hi⟩

end

/-- The decode map of `base64Decode` or of `base64URLDecode`. -/
def decMap (url : Bool) : List CChar := if url then base64URLDecMap else base64DecMap

/-- **An accepted text is decoded** if it is empty or has a character of the alphabet: an accepted text of ignored
    characters only leaves the vector as long as the text. -/
theorem base64DecodeInternal_decodes_iff (isWhiteSpaceNeutral : Nat → Bool) (data : List Nat) (policy : DecodePolicy)
    (url : Bool) :
    ((base64DecodeInternal isWhiteSpaceNeutral data policy (decMap url)).1 = true → Decoded policy (decMap url) data
      (base64DecodeInternal isWhiteSpaceNeutral data policy (decMap url)).2) ↔
    ((base64DecodeInternal isWhiteSpaceNeutral data policy (decMap url)).1 = true →
      data = [] ∨ letters (decMap url) data ≠ []) := by
  have hmap : ∀ v ∈ decMap url, v ≠ nonAlphabet → v.toNat < 64 := by cases url <;> decide
  refine decodes_iff (by cases url <;> rfl) (fun ch v hv => ?_) rfl
  obtain ⟨hne, rfl⟩ : (decMap url).getD ch nonAlphabet ≠ nonAlphabet ∧ (decMap url).getD ch nonAlphabet = v := by
    simpa [letter] using hv
  rw [getD_eq_getElem?_getD] at hne ⊢
  cases hget : (decMap url)[ch]? with
  | none => simp [hget] at hne
  | some v =>
    rw [hget] at hne
    exact hmap v (mem_of_getElem? hget) hne

/-- Two spaces are accepted, and the vector is as long as the text. -/
theorem base64Decode_spaces : base64Decode (fun _ => false) [0x20, 0x20] .ignoreWhitespace = (true, [0, 0]) ∧
    ¬ Decoded .ignoreWhitespace base64DecMap [0x20, 0x20] [0, 0] :=
  ⟨by decide, fun h => absurd h.length (by decide)⟩

end WebV8.Base64
