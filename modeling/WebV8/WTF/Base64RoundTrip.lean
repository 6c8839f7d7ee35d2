import WebV8.WTF.Base64

/-! # Base64 is decoded to what was encoded

Three bytes are four numbers of six bits. The encoder writes a character for each number, and the decoder stores the numbers,
skips line feeds and padding, and packs them again. Since the bytes are never ahead of the numbers in the buffer, a number is
read before it is overwritten.
-/

namespace WebV8.Base64

open List Option

/-! ## Six bits at a time -/

def sextets : List CChar → List Nat
  | a :: b :: c :: rest =>
    a.toNat / 4 :: (a.toNat % 4 * 16 + b.toNat / 16) :: (b.toNat % 16 * 4 + c.toNat / 64) :: c.toNat % 64 :: sextets rest
  | [a, b] => [a.toNat / 4, a.toNat % 4 * 16 + b.toNat / 16, b.toNat % 16 * 4]
  | [a] => [a.toNat / 4, a.toNat % 4 * 16]
  | [] => []

theorem toNat_or {x y : BitVec 32} {i u v : Nat} (hx : x.toNat = v) (hv : v < 2 ^ i) (hy : y.toNat = u * 2 ^ i) :
    (x ||| y).toNat = u * 2 ^ i + v := by
  rw [BitVec.toNat_or, hx, hy, Nat.or_comm, Nat.mul_comm, ← Nat.two_pow_add_eq_or_of_lt hv]

variable {i k j : Nat} {m : BitVec 32} {gs : List (List CChar)}
    {data out xs encodeMap cs : List CChar} {x : CChar} {feeds : Bool}

section

variable (a : CChar)

theorem getLsbD_int (hi : i < 8) : (int a).getLsbD i = a.getLsbD i := by
  rw [int, BitVec.getLsbD_signExtend, if_pos hi, decide_eq_true (by omega), Bool.true_and]

theorem and_mask {x : BitVec 32} (hm : m.toNat = 2 ^ k - 1) : (x &&& m).toNat = x.toNat % 2 ^ k := by
  rw [BitVec.toNat_and, hm, Nat.and_two_pow_sub_one_eq_mod]

theorem shr_and (i k : Nat) (hm : m.toNat = 2 ^ k - 1) (hk : i + k ≤ 8) :
    ((int a).sshiftRight i &&& m).toNat = a.toNat / 2 ^ i % 2 ^ k := by
  rw [and_mask hm]
  apply Nat.eq_of_testBit_eq
  intro j
  rw [Nat.testBit_mod_two_pow, Nat.testBit_mod_two_pow, Nat.testBit_div_two_pow, BitVec.testBit_toNat, BitVec.testBit_toNat]
  by_cases hj : j < k
  · rw [BitVec.getLsbD_sshiftRight, if_pos (by omega), getLsbD_int a (by omega), decide_eq_false (show ¬ 32 ≤ j by omega),
      Bool.not_false, Bool.true_and, Nat.add_comm]
  · rw [decide_eq_false hj, Bool.false_and, Bool.false_and]

theorem int_mod (hk : k ≤ 8) : (int a).toNat % 2 ^ k = a.toNat % 2 ^ k := by
  apply Nat.eq_of_testBit_eq
  intro j
  rw [Nat.testBit_mod_two_pow, Nat.testBit_mod_two_pow, BitVec.testBit_toNat, BitVec.testBit_toNat]
  by_cases hj : j < k
  · rw [getLsbD_int a (by omega)]
  · rw [decide_eq_false hj, Bool.false_and, Bool.false_and]

theorem shl_and (i k : Nat) (hm : m.toNat = 2 ^ k - 1) (hk : k ≤ 8) :
    (int a <<< i &&& m).toNat = a.toNat * 2 ^ i % 2 ^ k := by
  rw [and_mask hm, BitVec.toNat_shiftLeft, Nat.shiftLeft_eq, Nat.mod_mod_of_dvd _ (Nat.pow_dvd_pow 2 (by omega)),
    Nat.mul_mod, int_mod a hk, ← Nat.mul_mod]

theorem shr_2_and : ((int a).sshiftRight 2 &&& 0o77#32).toNat = a.toNat / 4 :=
  (shr_and a 2 6 rfl (by decide)).trans (by omega)

theorem shr_4_and (b : CChar) : ((int b).sshiftRight 4 &&& 0o17#32).toNat = b.toNat / 16 :=
  (shr_and b 4 4 rfl (by decide)).trans (by omega)

theorem shr_6_and (c : CChar) : ((int c).sshiftRight 6 &&& 0o3#32).toNat = c.toNat / 64 :=
  (shr_and c 6 2 rfl (by decide)).trans (by omega)

theorem and_63 (c : CChar) : (int c &&& 0o77#32).toNat = c.toNat % 64 :=
  (and_mask (k := 6) rfl).trans (int_mod c (by decide))

theorem shl_4_and_63 : (int a <<< 4 &&& 0o77#32).toNat = a.toNat % 4 * 16 :=
  (shl_and a 4 6 rfl (by decide)).trans (by omega)

end

theorem shl_2_and_63 (b : CChar) : (int b <<< 2 &&& 0o77#32).toNat = b.toNat % 16 * 4 :=
  (shl_and b 2 6 rfl (by decide)).trans (by omega)

theorem second_sextet (a b : CChar) :
    ((int b).sshiftRight 4 &&& 0o17#32 ||| int a <<< 4 &&& 0o77#32).toNat = a.toNat % 4 * 16 + b.toNat / 16 :=
  toNat_or (i := 4) (shr_4_and b) (by omega) (shl_4_and_63 a)

theorem third_sextet (b c : CChar) :
    ((int c).sshiftRight 6 &&& 0o3#32 ||| int b <<< 2 &&& 0o77#32).toNat = b.toNat % 16 * 4 + c.toNat / 64 :=
  toNat_or (i := 2) (shr_6_and c) (by omega) (shl_2_and_63 b)

theorem toNat_byte {x y : BitVec 32} {u v : Nat} (hx : x.toNat = u * 2 ^ i) (hy : y.toNat = v) (hv : v < 2 ^ i)
    (h : u * 2 ^ i + v < 256) : ((x ||| y).setWidth 8).toNat = u * 2 ^ i + v := by
  rw [BitVec.toNat_setWidth, BitVec.or_comm, toNat_or hy hv hx, Nat.mod_eq_of_lt h]

theorem toNat_firstByte (a b : CChar) : (firstByte a b).toNat = a.toNat % 64 * 4 + b.toNat / 16 % 4 :=
  toNat_byte (i := 2) ((shl_and a 2 8 rfl (by decide)).trans (by omega)) (shr_and b 4 2 rfl (by decide)) (by omega)
    (by omega)

theorem toNat_secondByte (b c : CChar) : (secondByte b c).toNat = b.toNat % 16 * 16 + c.toNat / 4 % 16 :=
  toNat_byte (i := 4) ((shl_and b 4 8 rfl (by decide)).trans (by omega)) (shr_and c 2 4 rfl (by decide)) (by omega)
    (by omega)

theorem toNat_thirdByte (c d : CChar) : (thirdByte c d).toNat = c.toNat % 4 * 64 + d.toNat % 64 :=
  toNat_byte (i := 6) ((shl_and c 6 8 rfl (by decide)).trans (by omega)) (and_63 d) (by omega) (by omega)

def value (i : Nat) : CChar := BitVec.ofNat 8 i

theorem toNat_value (h : i < 64) : (value i).toNat = i := by
  rw [value, BitVec.toNat_ofNat]
  omega

theorem firstByte_value {a : CChar} (hj : j / 16 = a.toNat % 4) (hj' : j < 64) :
    firstByte (value (a.toNat / 4)) (value j) = a := by
  apply BitVec.eq_of_toNat_eq
  rw [toNat_firstByte, toNat_value (by omega), toNat_value hj']
  omega

theorem secondByte_value {a b : CChar} (hj : j / 4 = b.toNat % 16) (hj' : j < 64) :
    secondByte (value (a.toNat % 4 * 16 + b.toNat / 16)) (value j) = b := by
  apply BitVec.eq_of_toNat_eq
  rw [toNat_secondByte, toNat_value (by omega), toNat_value hj']
  omega

theorem thirdByte_value (b c : CChar) :
    thirdByte (value (b.toNat % 16 * 4 + c.toNat / 64)) (value (c.toNat % 64)) = c := by
  apply BitVec.eq_of_toNat_eq
  rw [toNat_thirdByte, toNat_value (by omega), toNat_value (by omega)]
  omega

theorem sextets_lt (data : List CChar) : ∀ i ∈ sextets data, i < 64 := by
  fun_induction sextets data with
  | case1 a b c rest ih =>
    simp only [mem_cons]
    rintro i (rfl | rfl | rfl | rfl | hi)
    · omega
    · omega
    · omega
    · omega
    · exact ih i hi
  | case2 a b =>
    simp only [mem_cons, not_mem_nil, or_false]
    rintro i (rfl | rfl | rfl) <;> omega
  | case3 a =>
    simp only [mem_cons, not_mem_nil, or_false]
    rintro i (rfl | rfl) <;> omega
  | case4 => nofun

/-! ## What the encoder writes -/

theorem length_sextets (data : List CChar) : (sextets data).length = data.length + (data.length + 2) / 3 := by
  fun_induction sextets data with
  | case1 a b c rest ih =>
    simp [ih]
    omega
  | case2 a b => simp
  | case3 a => simp
  | case4 => rfl

section

variable (encodeMap : List CChar) (insertLFs : Bool)

def encodeChar (i : Nat) : CChar := encodeMap.getD i 0

def plain (data : List CChar) : List CChar := (sextets data).map (encodeChar encodeMap)

theorem length_plain (data : List CChar) : (plain encodeMap data).length = data.length + (data.length + 2) / 3 := by
  rw [plain, length_map, length_sextets]

theorem encodeGroup_eq (a b c : CChar) : encodeGroup encodeMap a b c = plain encodeMap [a, b, c] := by
  simp only [encodeGroup, encodeSextet, shr_2_and, second_sextet, third_sextet, and_63, plain, sextets, map_cons,
    map_nil, encodeChar]

theorem encodeTail_pair (a b : CChar) : encodeTail encodeMap a [b] = plain encodeMap [a, b] := by
  simp only [encodeTail, encodeSextet, shr_2_and, second_sextet, shl_2_and_63, plain, sextets, map_cons,
    map_nil, encodeChar]

theorem encodeTail_single (a : CChar) : encodeTail encodeMap a [] = plain encodeMap [a] := by
  simp only [encodeTail, encodeSextet, shr_2_and, shl_4_and_63, plain, sextets, map_cons, map_nil, encodeChar]

def lineFeedAt (count : Nat) : List CChar := if insertLFs && count != 0 && count % 76 == 0 then [lineFeed] else []

/-- The characters from position `count` on, with the line feeds before them. -/
def wrapped : Nat → List CChar → List CChar
  | _, [] => []
  | count, c :: cs => lineFeedAt insertLFs count ++ c :: wrapped (count + 1) cs

variable {insertLFs} {out : Out} {count : Nat} {cs : List CChar}

theorem lineFeedAt_eq_nil (h : insertLFs = true → count % 76 = 0 → count = 0) : lineFeedAt insertLFs count = [] := by
  rw [lineFeedAt, if_neg]
  simp only [Bool.and_eq_true_iff, bne_iff_ne, beq_iff_eq]
  rintro ⟨⟨hfee, hne⟩, hmod⟩
  exact hne (h hfee hmod)

theorem wrapped_append (cs ds : List CChar) (count : Nat) :
    wrapped insertLFs count (cs ++ ds) = wrapped insertLFs count cs ++ wrapped insertLFs (count + cs.length) ds := by
  induction cs generalizing count with
  | nil => rfl
  | cons c cs ih => simp [wrapped, ih, Nat.add_assoc, Nat.add_comm 1]

theorem wrapped_eq_self
    (h : ∀ i < cs.length, insertLFs = true → (count + i) % 76 = 0 → count + i = 0) : wrapped insertLFs count cs = cs := by
  induction cs generalizing count with
  | nil => rfl
  | cons c cs ih =>
    have hrest : wrapped insertLFs (count + 1) cs = cs := ih fun i hi => by
      rw [Nat.add_assoc, Nat.add_comm 1]
      exact h (i + 1) (Nat.succ_lt_succ hi)
    rw [wrapped, show lineFeedAt insertLFs count = [] from lineFeedAt_eq_nil (h 0 (Nat.succ_pos _)), hrest, nil_append]

theorem wrapped_false (count : Nat) (cs : List CChar) : wrapped false count cs = cs := wrapped_eq_self fun _ _ => nofun

/-- A group of at most four characters has no line feed inside. -/
theorem wrapped_group {c : CChar} (hcnt : insertLFs = true → count % 4 = 0) (hlen : cs.length < 4) :
    wrapped insertLFs count (c :: cs) = lineFeedAt insertLFs count ++ c :: cs := by
  rw [wrapped, wrapped_eq_self]
  intro i hi hfee hmod
  have := hcnt hfee
  omega

theorem length_wrapped (count : Nat) (cs : List CChar) :
    (wrapped true count cs).length + (count - 1) / 76 = cs.length + (count + cs.length - 1) / 76 := by
  induction cs generalizing count with
  | nil => simp [wrapped]
  | cons c cs ih =>
    have hrest := ih (count + 1)
    rw [wrapped, lineFeedAt, length_append, length_cons, length_cons]
    split_ifs with hfeed
    · simp at hfeed ⊢
      omega
    · simp at hfeed ⊢
      omega

theorem putAll_eq (h : out.written.length + cs.length ≤ out.size) :
    out.putAll cs = some ⟨out.size, out.written ++ cs⟩ := by
  induction cs generalizing out with
  | nil => rw [Out.putAll, append_nil]
  | cons c cs ih =>
    rw [length_cons] at h
    rw [Out.putAll, Out.put, if_pos (by omega), bind_some, ih]
    · rw [append_assoc, singleton_append]
    · show (out.written ++ [c]).length + cs.length ≤ out.size
      rw [length_append, length_singleton]
      omega

/-- A line feed if there is one, and then a group. -/
theorem putGroup_eq {g : List CChar} (h : out.written.length + (lineFeedAt insertLFs count ++ g).length ≤ out.size) :
    ((putLineFeed insertLFs count out).bind fun out => out.putAll g) =
      some ⟨out.size, out.written ++ (lineFeedAt insertLFs count ++ g)⟩ := by
  have hfeed : putLineFeed insertLFs count out = out.putAll (lineFeedAt insertLFs count) := by
    rw [putLineFeed, lineFeedAt]
    split_ifs
    · exact (bind_fun_some _).symm
    · rfl
  rw [length_append] at h
  rw [hfeed, putAll_eq (by omega), bind_some, putAll_eq, append_assoc]
  show (out.written ++ _).length + _ ≤ out.size
  rw [length_append]
  omega

theorem encode_eq_wrapped (data : List CChar) (count : Nat) (out : Out) (hcnt : insertLFs = true → count % 4 = 0)
    (h : out.written.length + (wrapped insertLFs count (plain encodeMap data)).length ≤ out.size) :
    ((encodeLoop encodeMap insertLFs data count out).bind fun r => encodeRest encodeMap insertLFs r.1 r.2.1 r.2.2) =
      some ⟨out.size, out.written ++ wrapped insertLFs count (plain encodeMap data)⟩ := by
  fun_induction sextets data generalizing count out with
  | case1 a b c rest ih =>
    have hnext : wrapped insertLFs (count + 4) (plain encodeMap rest) =
        wrapped insertLFs (if insertLFs then count + 4 else count) (plain encodeMap rest) := by
      cases insertLFs with
      | true => rfl
      | false => rw [wrapped_false, wrapped_false]
    have hspl : wrapped insertLFs count (plain encodeMap (a :: b :: c :: rest)) =
        lineFeedAt insertLFs count ++ plain encodeMap [a, b, c] ++
          wrapped insertLFs (if insertLFs then count + 4 else count) (plain encodeMap rest) := by
      rw [← hnext, show plain encodeMap (a :: b :: c :: rest) = plain encodeMap [a, b, c] ++ plain encodeMap rest from rfl,
        wrapped_append]
      exact congrArg (· ++ _) (wrapped_group hcnt (show 3 < 4 by decide))
    rw [hspl, length_append] at h
    rw [hspl, encodeLoop, Option.bind_eq_bind, ← Option.bind_assoc (putLineFeed insertLFs count out), encodeGroup_eq,
      putGroup_eq (by omega), bind_some, ih]
    · rw [append_assoc]
    · intro hfee
      have := hcnt hfee
      rw [if_pos hfee]
      omega
    · simp only [length_append] at h ⊢
      omega
  | case2 a b =>
    rw [show wrapped insertLFs count (plain encodeMap [a, b]) = _ from wrapped_group hcnt (show 2 < 4 by decide)] at h ⊢
    rw [encodeLoop, bind_some, encodeRest, encodeTail_pair]
    · exact putGroup_eq h
    · nofun
  | case3 a =>
    rw [show wrapped insertLFs count (plain encodeMap [a]) = _ from wrapped_group hcnt (show 1 < 4 by decide)] at h ⊢
    rw [encodeLoop, bind_some, encodeRest, encodeTail_single]
    · exact putGroup_eq h
    · nofun
  | case4 =>
    rw [encodeLoop, bind_some, encodeRest, plain, sextets, map_nil, wrapped, append_nil]
    nofun

end

/-! ## Lines -/

/-- A line feed after every 76 characters, and none at the end. -/
def withLineFeeds (cs : List CChar) : List CChar :=
  if cs.length ≤ 76 then cs else cs.take 76 ++ lineFeed :: withLineFeeds (cs.drop 76)
termination_by cs.length
decreasing_by
  rw [length_drop]
  omega

theorem wrapped_line (cs : List CChar) (hk : k ≠ 0) : wrapped true (76 + k) cs = wrapped true k cs := by
  induction cs generalizing k with
  | nil => rfl
  | cons c cs ih => simp [wrapped, lineFeedAt, hk, Nat.add_assoc, ih (Nat.succ_ne_zero k)]

theorem wrapped_true (cs : List CChar) : wrapped true 0 cs = withLineFeeds cs := by
  fun_induction withLineFeeds cs with
  | case1 cs hsho => exact wrapped_eq_self fun i hi _ hmod => by omega
  | case2 cs hlong ih =>
    -- The first line, a line feed, and the other lines.
    have hline : (cs.take 76).length = 76 := by
      rw [length_take]
      omega
    have hfst : wrapped true 0 (cs.take 76) = cs.take 76 := wrapped_eq_self fun i hi _ hmod => by omega
    have hnext : wrapped true 76 (cs.drop 76) = lineFeed :: wrapped true 0 (cs.drop 76) := by
      cases hrest : cs.drop 76 with
      | nil => exact absurd (drop_eq_nil_iff.mp hrest) hlong
      | cons d ds =>
        rw [wrapped, wrapped, wrapped_line ds Nat.one_ne_zero]
        rfl
    calc wrapped true 0 cs = wrapped true 0 (cs.take 76 ++ cs.drop 76) := by rw [take_append_drop]
      _ = cs.take 76 ++ wrapped true 76 (cs.drop 76) := by rw [wrapped_append, hfst, hline]
      _ = cs.take 76 ++ lineFeed :: withLineFeeds (cs.drop 76) := by rw [hnext, ih]

/-! ## The encoded text -/

def paddingLength (len : Nat) : Nat := (3 - len % 3) % 3

section

variable (encodeMap : List CChar)

def padded (data : List CChar) : List CChar :=
  plain encodeMap data ++ List.replicate (paddingLength data.length) equalsSign

theorem length_padded (data : List CChar) :
    (padded encodeMap data).length = (data.length + 2) / 3 * 4 := by
  rw [padded, length_append, length_plain, length_replicate, paddingLength]
  omega

theorem wrapped_padded (insertLFs : Bool) (data : List CChar) :
    wrapped insertLFs 0 (padded encodeMap data) = wrapped insertLFs 0 (plain encodeMap data) ++
      List.replicate (paddingLength data.length) equalsSign := by
  rw [padded, wrapped_append]
  refine congrArg _ (wrapped_eq_self ?_)
  intro i hi _ hmod
  rw [length_replicate, paddingLength] at hi
  rw [length_plain] at hmod
  omega

theorem length_wrapped_padded (policy : EncodePolicy) (data : List CChar) :
    (wrapped (needsLFs policy data.length) 0 (padded encodeMap data)).length = outLength policy data.length := by
  rw [outLength, ← length_padded encodeMap data]
  cases needsLFs policy data.length with
  | false => rw [wrapped_false, if_neg Bool.false_ne_true]
  | true =>
    have hlen := length_wrapped 0 (padded encodeMap data)
    rw [Nat.zero_add] at hlen
    exact hlen

end

theorem base64EncodeInternal_eq (hne : data ≠ []) (hlen : data.length ≤ maxInputBufferSize)
    (policy : EncodePolicy) (encodeMap : List CChar) : base64EncodeInternal data policy encodeMap =
      if policy = .urlPolicy then some (plain encodeMap data)
      else some (wrapped (needsLFs policy data.length) 0 (padded encodeMap data)) := by
  have hleng := length_wrapped_padded encodeMap policy data
  rw [wrapped_padded] at hleng ⊢
  rw [length_append, length_replicate] at hleng
  have henc := encode_eq_wrapped encodeMap data 0 ⟨outLength policy data.length, []⟩
    (fun _ : needsLFs policy data.length = true => rfl) (by show 0 + _ ≤ outLength policy data.length; omega)
  rw [base64EncodeInternal, if_neg hne, if_neg (Nat.not_lt.mpr hlen)]
  obtain ⟨⟨rest, count, out⟩, hloop, hrest⟩ := bind_eq_some_iff.mp henc
  dsimp only at hrest ⊢
  rw [hloop]
  simp only [bind_eq_bind, bind_some, hrest, nil_append]
  split_ifs with hpol
  · rw [hpol]
    exact congrArg some (wrapped_false _ _)
  · congr 3
    omega

/-! ## Reading the characters -/

/-- The decoder's table takes the encoder's characters back. -/
structure Inverse (encodeMap decodeMap : List CChar) : Prop where
  value : ∀ i < 64, decodeMap.getD (encodeMap.getD i 0).toNat nonAlphabet = value i
  notEquals : ∀ i < 64, (encodeMap.getD i 0).toNat ≠ 0x3d
  lineFeed : decodeMap.getD 10 nonAlphabet = nonAlphabet

theorem inverse_base64 : Inverse base64EncMap base64DecMap :=
  ⟨by decide +kernel, by decide +kernel, by decide +kernel⟩

theorem inverse_base64URL : Inverse base64URLEncMap base64URLDecMap :=
  ⟨by decide +kernel, by decide +kernel, by decide +kernel⟩

theorem value_ne_nonAlphabet : ∀ i < 64, value i ≠ nonAlphabet := by decide

section

variable (isWhiteSpaceNeutral : Nat → Bool) {policy : DecodePolicy} {encodeMap decodeMap : List CChar}

variable {feeds : Bool} {is : List Nat}

theorem set_append_cons (xs : List CChar) (y x : CChar) (ys : List CChar) :
    (xs ++ y :: ys).set xs.length x = xs ++ [x] ++ ys := by
  rw [set_append_right _ _ le_rfl, Nat.sub_self, set_cons_zero, append_assoc, singleton_append]

theorem decodeLoop_lineFeedAt (hinv : Inverse encodeMap decodeMap) (hfee : feeds = true → policy = .ignoreWhitespace)
    (count length outLength : Nat) (rest : List Nat) (out : List CChar) :
    decodeLoop isWhiteSpaceNeutral policy decodeMap length ((lineFeedAt feeds count).map BitVec.toNat ++ rest) 0 outLength out =
      decodeLoop isWhiteSpaceNeutral policy decodeMap length rest 0 outLength out := by
  rw [lineFeedAt]
  split_ifs with hfeed
  · rw [Bool.and_eq_true_iff, Bool.and_eq_true_iff] at hfeed
    obtain rfl := hfee hfeed.1.1
    rw [map_cons, cons_append, decodeLoop, if_neg (by decide), show lineFeed.toNat = 10 from rfl,
      hinv.lineFeed, if_neg (not_not.mpr rfl), if_neg]
    · rfl
    · rintro (hpol | hpol | ⟨-, hspa⟩)
      · exact nomatch hpol
      · exact nomatch hpol
      · exact nomatch (show isSpaceOrNewline isWhiteSpaceNeutral 10 = true from rfl).symm.trans hspa
  · rfl

theorem decodeLoop_wrapped (hinv : Inverse encodeMap decodeMap) (hfee : feeds = true → policy = .ignoreWhitespace)
    (his : ∀ i ∈ is, i < 64) (count length : Nat) (rest : List Nat) (stored free : List CChar)
    (hroom : is.length ≤ free.length) :
    decodeLoop isWhiteSpaceNeutral policy decodeMap length
        ((wrapped feeds count (is.map (encodeChar encodeMap))).map BitVec.toNat ++ rest) 0 stored.length (stored ++ free) =
      decodeLoop isWhiteSpaceNeutral policy decodeMap length rest 0 (stored.length + is.length)
        (stored ++ is.map value ++ free.drop is.length) := by
  induction is generalizing count stored free with
  | nil => simp [wrapped]
  | cons i is ih =>
    obtain ⟨hi, his⟩ := forall_mem_cons.mp his
    rw [length_cons] at hroom
    cases free with
    | nil => exact absurd hroom (Nat.not_succ_le_zero _)
    | cons y free =>
      rw [map_cons, wrapped, map_append, append_assoc,
        decodeLoop_lineFeedAt isWhiteSpaceNeutral hinv hfee, map_cons, cons_append, decodeLoop,
        if_neg (show (encodeChar encodeMap i).toNat ≠ 0x3d from hinv.notEquals i hi),
        show decodeMap.getD (encodeChar encodeMap i).toNat nonAlphabet = value i from hinv.value i hi,
        if_pos (value_ne_nonAlphabet i hi), if_neg (not_not.mpr rfl), set_append_cons]
      have hrest := ih his (count + 1) (stored ++ [value i]) free (Nat.le_of_succ_le_succ hroom)
      rw [length_append, length_singleton] at hrest
      rw [hrest]
      simp only [map_cons, append_assoc, singleton_append, length_cons, drop_succ_cons]
      congr 1
      omega

theorem decodeLoop_padding {length : Nat} {k : Nat} (equalsSignCount outLength : Nat) (out : List CChar)
    (h : policy = .failOnInvalidCharacterOrExcessPadding → length % 4 = 0 ∧ equalsSignCount + k ≤ 2) :
    decodeLoop isWhiteSpaceNeutral policy decodeMap length (List.replicate k equalsSign.toNat) equalsSignCount outLength out =
      .ok (equalsSignCount + k, outLength, out) := by
  induction k generalizing equalsSignCount with
  | zero => rfl
  | succ k ih =>
    rw [replicate_succ, decodeLoop, if_pos (show equalsSign.toNat = 0x3d from rfl), if_neg, ih]
    · congr 2
      omega
    · intro hpol
      have := h hpol
      omega
    · rintro ⟨hpol, hbad⟩
      have := h hpol
      omega

end

/-! ## Packing -/

theorem at_set_ne (h : i ≠ j) (x : CChar) : at_ (out.set i x) j = at_ out j := by
  rw [at_, at_, getD_eq_getElem?_getD, List.getElem?_set_ne h, getD_eq_getElem?_getD]

theorem at_of_drop (h : out.drop i = x :: xs) : at_ out i = x := by
  rw [at_, getD_eq_getElem?_getD, ← List.head?_drop, h]
  rfl

theorem drop_succ_of_drop (h : out.drop i = x :: xs) : out.drop (i + 1) = xs := by
  rw [← tail_drop, h, tail_cons]

theorem lt_length_of_drop (h : out.drop i = x :: xs) : i < out.length := by
  by_contra hle
  rw [drop_eq_nil_of_le (Nat.le_of_not_lt hle)] at h
  exact nomatch h

theorem take_succ_set (h : i < out.length) (x : CChar) : (out.set i x).take (i + 1) = out.take i ++ [x] := by
  rw [take_add_one, List.getElem?_set_self h, take_set_of_le le_rfl]
  rfl

/-- The bytes of a list of values. -/
def packed : List CChar → List CChar
  | a :: b :: c :: d :: vs => firstByte a b :: secondByte b c :: thirdByte c d :: packed vs
  | [a, b, c] => [firstByte a b, secondByte b c]
  | [a, b] => [firstByte a b]
  | _ => []

theorem length_packed (vs : List CChar) : (packed vs).length = vs.length - (vs.length + 3) / 4 := by
  fun_induction packed vs with
  | case1 a b c d vs ih =>
    simp [ih]
    omega
  | case2 a b c | case3 a b => simp
  | case4 vs h4 h3 h2 =>
    rcases vs with _ | ⟨a, _ | ⟨b, _ | ⟨c, _ | ⟨d, vs⟩⟩⟩⟩
    · rfl
    · simp
    · exact absurd rfl (h2 a b)
    · exact absurd rfl (h3 a b c)
    · exact absurd rfl (h4 a b c d vs)

theorem packed_sextets (data : List CChar) : packed ((sextets data).map value) = data := by
  fun_induction sextets data with
  | case1 a b c rest ih =>
    simp only [map_cons, packed, ih]
    rw [firstByte_value (by omega) (by omega), secondByte_value (by omega) (by omega), thirdByte_value]
  | case2 a b =>
    simp only [map_cons, map_nil, packed]
    rw [firstByte_value (by omega) (by omega), secondByte_value (by omega) (by omega)]
  | case3 a =>
    simp only [map_cons, map_nil, packed]
    rw [firstByte_value (by omega) (by omega)]
  | case4 => rfl

theorem pack_eq_packed (vs : List CChar) (sidx didx : Nat) (out free : List CChar) (hle : didx ≤ sidx)
    (hdrop : out.drop sidx = vs ++ free) :
    (packRest (didx + (packed vs).length) (packLoop (didx + (packed vs).length) sidx didx out).1
      (packLoop (didx + (packed vs).length) sidx didx out).2.1
        (packLoop (didx + (packed vs).length) sidx didx out).2.2).take (didx + (packed vs).length) =
      out.take didx ++ packed vs := by
  fun_induction packed vs generalizing sidx didx out with
  | case1 a b c d vs ih =>
    have hdrop₁ := drop_succ_of_drop hdrop
    have hdrop₂ := drop_succ_of_drop hdrop₁
    have hdrop₃ := drop_succ_of_drop hdrop₂
    have hdrop₄ := drop_succ_of_drop hdrop₃
    have hlen := lt_length_of_drop hdrop₃
    -- The numbers are behind the bytes, so the first writes do not change what is read.
    have hloop : packLoop (didx + (packed vs).length + 3) sidx didx out =
        packLoop (didx + (packed vs).length + 3) (sidx + 4) (didx + 3)
          (((out.set didx (firstByte a b)).set (didx + 1) (secondByte b c)).set (didx + 2) (thirdByte c d)) := by
      rw [packLoop, if_pos (by omega)]
      dsimp only
      rw [at_of_drop hdrop, at_of_drop hdrop₁, at_set_ne (by omega), at_set_ne (by omega), at_of_drop hdrop₁,
        at_of_drop hdrop₂, at_set_ne (by omega), at_set_ne (by omega), at_set_ne (by omega), at_set_ne (by omega),
        at_of_drop hdrop₂, at_of_drop hdrop₃]
    have hrest := ih (sidx + 4) (didx + 3) (((out.set didx (firstByte a b)).set (didx + 1) (secondByte b c)).set (didx + 2)
      (thirdByte c d)) (by omega) (by
      rw [drop_set_of_lt (by omega), drop_set_of_lt (by omega), drop_set_of_lt (by omega)]
      exact hdrop₄)
    have hsum : didx + (firstByte a b :: secondByte b c :: thirdByte c d :: packed vs).length =
        didx + (packed vs).length + 3 := rfl
    rw [hsum, hloop, Nat.add_right_comm, hrest, take_succ_set (by simp only [length_set]; omega),
      take_succ_set (by rw [length_set]; omega), take_succ_set (by omega)]
    simp
  | case2 a b c =>
    have hdrop₁ := drop_succ_of_drop hdrop
    have hdrop₂ := drop_succ_of_drop hdrop₁
    have hlen := lt_length_of_drop hdrop₂
    rw [packLoop, if_neg (by simp), packRest]
    dsimp only
    rw [if_pos (by simp), if_pos (by simp), at_set_ne (by omega), at_set_ne (by omega), at_of_drop hdrop, at_of_drop hdrop₁,
      at_of_drop hdrop₂]
    show ((out.set didx (firstByte a b)).set (didx + 1) (secondByte b c)).take (didx + 1 + 1) = _
    rw [take_succ_set (by rw [length_set]; omega), take_succ_set (by omega), List.append_assoc, singleton_append]
  | case3 a b =>
    have hdrop₁ := drop_succ_of_drop hdrop
    have hlen := lt_length_of_drop hdrop₁
    rw [packLoop, if_neg (by simp), packRest]
    dsimp only
    rw [if_neg (by simp), if_pos (by simp), at_of_drop hdrop, at_of_drop hdrop₁]
    exact take_succ_set (by omega) _
  | case4 vs h4 h3 h2 =>
    rw [packLoop, if_neg (by simp), packRest]
    rw [if_neg (by simp), if_neg (by simp), length_nil, Nat.add_zero, append_nil]

theorem pack_eq {vs : List CChar} (hne : vs ≠ []) (hmod : vs.length % 4 ≠ 1) (free : List CChar) :
    pack vs.length (vs ++ free) = (true, packed vs) := by
  have hpos := length_pos_iff.mpr hne
  have hpack := pack_eq_packed vs 0 0 (vs ++ free) free le_rfl rfl
  rw [Nat.zero_add, length_packed] at hpack
  rw [pack, if_neg hmod]
  dsimp only
  rw [if_neg (by omega), hpack]
  rfl

/-! ## Round trip -/

theorem base64DecodeInternal_wrapped (isWhiteSpaceNeutral : Nat → Bool) {decodeMap : List CChar}
    (hinv : Inverse encodeMap decodeMap) {policy : DecodePolicy}
    (hfee : feeds = true → policy = .ignoreWhitespace) (hne : data ≠ []) (hpad : policy =
      .failOnInvalidCharacterOrExcessPadding → ((wrapped feeds 0 (plain encodeMap data)).length + k) % 4 = 0 ∧ k ≤ 2) :
    base64DecodeInternal isWhiteSpaceNeutral
      ((wrapped feeds 0 (plain encodeMap data) ++ List.replicate k equalsSign).map BitVec.toNat) policy decodeMap =
      (true, data) := by
  have hpos := length_pos_iff.mpr hne
  have hsex := length_sextets data
  have hle : (sextets data).length ≤ (wrapped feeds 0 (plain encodeMap data)).length := by
    rw [hsex, ← length_plain encodeMap]
    cases feeds with
    | false => rw [wrapped_false]
    | true =>
      have := length_wrapped 0 (plain encodeMap data)
      omega
  generalize hcs : wrapped feeds 0 (plain encodeMap data) = cs at *
  have hlen : ((cs ++ List.replicate k equalsSign).map BitVec.toNat).length = cs.length + k := by
    rw [length_map, length_append, length_replicate]
  have hloop := decodeLoop_wrapped isWhiteSpaceNeutral hinv hfee (sextets_lt data) 0 (cs.length + k)
    (List.replicate k equalsSign.toNat) [] (List.replicate (cs.length + k) 0) (by rw [length_replicate]; omega)
  rw [decodeLoop_padding isWhiteSpaceNeutral 0 _ _ (by rw [Nat.zero_add]; exact hpad), ← plain, hcs] at hloop
  simp only [nil_append, length_nil, Nat.zero_add] at hloop
  rw [base64DecodeInternal, if_neg, hlen, map_append, map_replicate, hloop]
  · dsimp only
    rw [if_neg (by omega)]
    have hpack := @pack_eq ((sextets data).map value) (by simp [← length_pos_iff, hsex]; omega) (by simp [hsex]; omega)
    rw [packed_sextets, length_map] at hpack
    exact hpack _
  · intro hnil
    have := congrArg List.length hnil
    rw [hlen, length_nil] at this
    omega

/-- **Base64 round trip**: if there are fewer than 2^31 characters, padding and line feeds not counted, what is encoded
    fills the buffer, has a line feed after every 76 characters if they are wanted, and is decoded to the data. -/
theorem base64_round_trip (isWhiteSpaceNeutral : Nat → Bool) (data : List CChar) (hlen : (sextets data).length < 2 ^ 31) :
    (∃ text, base64Encode data .doNotInsertLFs = some text ∧ text.length = outLength .doNotInsertLFs data.length ∧
      (∀ policy, base64Decode isWhiteSpaceNeutral (text.map BitVec.toNat) policy = (true, data)) ∧
      base64Encode data .insertLFs = some (withLineFeeds text) ∧
      (withLineFeeds text).length = outLength .insertLFs data.length ∧
      base64Decode isWhiteSpaceNeutral ((withLineFeeds text).map BitVec.toNat) .ignoreWhitespace = (true, data)) ∧
    ∃ text, base64URLEncode data = some text ∧
      base64URLDecode isWhiteSpaceNeutral (text.map BitVec.toNat) = (true, data) := by
  by_cases hne : data = []
  · subst hne
    have hnil : withLineFeeds [] = [] := by rw [withLineFeeds]; rfl
    refine ⟨⟨[], rfl, rfl, fun _ => rfl, ?_, ?_, ?_⟩, [], rfl, rfl⟩
    · rw [hnil]
      rfl
    · rw [hnil]
      rfl
    · rw [hnil]
      rfl
  · have hmax : data.length ≤ maxInputBufferSize := by
      rw [length_sextets] at hlen
      rw [maxInputBufferSize]
      omega
    have hpad : paddingLength data.length ≤ 2 := by rw [paddingLength]; omega
    have hlines : wrapped (needsLFs .insertLFs data.length) 0 (padded base64EncMap data) =
        withLineFeeds (padded base64EncMap data) := by
      cases hneeds : needsLFs .insertLFs data.length with
      | true => exact wrapped_true _
      | false =>
        have hshort : (padded base64EncMap data).length ≤ 76 := by
          rw [length_padded]
          simp [needsLFs] at hneeds
          omega
        rw [wrapped_false, withLineFeeds, if_pos hshort]
    have hencode := base64EncodeInternal_eq hne hmax
    have hplain := length_plain base64EncMap data
    have hpadded := length_padded base64EncMap data
    refine ⟨⟨padded base64EncMap data, ?_, hpadded, fun policy => ?_, ?_, ?_, ?_⟩, plain base64URLEncMap data, ?_, ?_⟩
    · exact (hencode .doNotInsertLFs base64EncMap).trans (congrArg some (wrapped_false _ _))
    · rw [← wrapped_false 0 (padded _ _), wrapped_padded]
      refine base64DecodeInternal_wrapped isWhiteSpaceNeutral inverse_base64 (show false = true → policy = _ from nofun) hne
        fun _ => ⟨?_, hpad⟩
      rw [wrapped_false, hplain, paddingLength]
      omega
    · rw [← hlines]
      exact hencode .insertLFs base64EncMap
    · rw [← hlines]
      exact length_wrapped_padded base64EncMap .insertLFs data
    · rw [← hlines, wrapped_padded]
      exact base64DecodeInternal_wrapped isWhiteSpaceNeutral inverse_base64 (fun _ => rfl) hne nofun
    · exact hencode .urlPolicy base64URLEncMap
    · have hfeeds : false = true → DecodePolicy.failOnInvalidCharacter = .ignoreWhitespace := nofun
      have hdecode := base64DecodeInternal_wrapped isWhiteSpaceNeutral inverse_base64URL hfeeds hne (k := 0) nofun
      rw [replicate_zero, append_nil, wrapped_false] at hdecode
      exact hdecode

/-- One byte, which has two characters of padding. -/
theorem base64_round_trip_single : ∃ text, base64Encode [0xff] .doNotInsertLFs = some text ∧
    ∀ policy, base64Decode (fun _ => false) (text.map BitVec.toNat) policy = (true, [0xff]) := by
  obtain ⟨⟨text, hencode, -, hdecode, -⟩, -⟩ := base64_round_trip (fun _ => false) [0xff] (by decide)
  exact ⟨text, hencode, hdecode⟩

end WebV8.Base64
