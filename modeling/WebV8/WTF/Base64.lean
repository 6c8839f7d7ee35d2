import Mathlib

/-! # Base64

The encoder writes to a buffer that it has allocated before; the decoder first replaces the characters by their values
and then packs them to bytes in the same buffer. A `char` is signed: it is extended to an `int` before it is shifted and
masked.
-/

namespace WebV8.Base64

abbrev CChar := BitVec 8

/-- The `int` to which a `char` is promoted. -/
def int (c : CChar) : BitVec 32 := c.signExtend 32

inductive EncodePolicy where
  | doNotInsertLFs
  | insertLFs
  | urlPolicy
  deriving DecidableEq, Repr

inductive DecodePolicy where
  | failOnInvalidCharacterOrExcessPadding
  | failOnInvalidCharacter
  | ignoreWhitespace
  | ignoreInvalidCharacters
  deriving DecidableEq, Repr

def nonAlphabet : CChar := -1

def base64EncMap : List CChar :=
  [0x41, 0x42, 0x43, 0x44, 0x45, 0x46, 0x47, 0x48,
    0x49, 0x4a, 0x4b, 0x4c, 0x4d, 0x4e, 0x4f, 0x50,
    0x51, 0x52, 0x53, 0x54, 0x55, 0x56, 0x57, 0x58,
    0x59, 0x5a, 0x61, 0x62, 0x63, 0x64, 0x65, 0x66,
    0x67, 0x68, 0x69, 0x6a, 0x6b, 0x6c, 0x6d, 0x6e,
    0x6f, 0x70, 0x71, 0x72, 0x73, 0x74, 0x75, 0x76,
    0x77, 0x78, 0x79, 0x7a, 0x30, 0x31, 0x32, 0x33,
    0x34, 0x35, 0x36, 0x37, 0x38, 0x39, 0x2b, 0x2f]

def base64DecMap : List CChar :=
  [nonAlphabet, nonAlphabet, nonAlphabet, nonAlphabet, nonAlphabet, nonAlphabet, nonAlphabet, nonAlphabet,
    nonAlphabet, nonAlphabet, nonAlphabet, nonAlphabet, nonAlphabet, nonAlphabet, nonAlphabet, nonAlphabet,
    nonAlphabet, nonAlphabet, nonAlphabet, nonAlphabet, nonAlphabet, nonAlphabet, nonAlphabet, nonAlphabet,
    nonAlphabet, nonAlphabet, nonAlphabet, nonAlphabet, nonAlphabet, nonAlphabet, nonAlphabet, nonAlphabet,
    nonAlphabet, nonAlphabet, nonAlphabet, nonAlphabet, nonAlphabet, nonAlphabet, nonAlphabet, nonAlphabet,
    nonAlphabet, nonAlphabet, nonAlphabet, 0x3e, nonAlphabet, nonAlphabet, nonAlphabet, 0x3f,
    0x34, 0x35, 0x36, 0x37, 0x38, 0x39, 0x3a, 0x3b,
    0x3c, 0x3d, nonAlphabet, nonAlphabet, nonAlphabet, nonAlphabet, nonAlphabet, nonAlphabet,
    nonAlphabet, 0x00, 0x01, 0x02, 0x03, 0x04, 0x05, 0x06,
    0x07, 0x08, 0x09, 0x0a, 0x0b, 0x0c, 0x0d, 0x0e,
    0x0f, 0x10, 0x11, 0x12, 0x13, 0x14, 0x15, 0x16,
    0x17, 0x18, 0x19, nonAlphabet, nonAlphabet, nonAlphabet, nonAlphabet, nonAlphabet,
    nonAlphabet, 0x1a, 0x1b, 0x1c, 0x1d, 0x1e, 0x1f, 0x20,
    0x21, 0x22, 0x23, 0x24, 0x25, 0x26, 0x27, 0x28,
    0x29, 0x2a, 0x2b, 0x2c, 0x2d, 0x2e, 0x2f, 0x30,
    0x31, 0x32, 0x33, nonAlphabet, nonAlphabet, nonAlphabet, nonAlphabet, nonAlphabet]

def base64URLEncMap : List CChar :=
  [0x41, 0x42, 0x43, 0x44, 0x45, 0x46, 0x47, 0x48,
    0x49, 0x4a, 0x4b, 0x4c, 0x4d, 0x4e, 0x4f, 0x50,
    0x51, 0x52, 0x53, 0x54, 0x55, 0x56, 0x57, 0x58,
    0x59, 0x5a, 0x61, 0x62, 0x63, 0x64, 0x65, 0x66,
    0x67, 0x68, 0x69, 0x6a, 0x6b, 0x6c, 0x6d, 0x6e,
    0x6f, 0x70, 0x71, 0x72, 0x73, 0x74, 0x75, 0x76,
    0x77, 0x78, 0x79, 0x7a, 0x30, 0x31, 0x32, 0x33,
    0x34, 0x35, 0x36, 0x37, 0x38, 0x39, 0x2d, 0x5f]

def base64URLDecMap : List CChar :=
  [nonAlphabet, nonAlphabet, nonAlphabet, nonAlphabet, nonAlphabet, nonAlphabet, nonAlphabet, nonAlphabet,
    nonAlphabet, nonAlphabet, nonAlphabet, nonAlphabet, nonAlphabet, nonAlphabet, nonAlphabet, nonAlphabet,
    nonAlphabet, nonAlphabet, nonAlphabet, nonAlphabet, nonAlphabet, nonAlphabet, nonAlphabet, nonAlphabet,
    nonAlphabet, nonAlphabet, nonAlphabet, nonAlphabet, nonAlphabet, nonAlphabet, nonAlphabet, nonAlphabet,
    nonAlphabet, nonAlphabet, nonAlphabet, nonAlphabet, nonAlphabet, nonAlphabet, nonAlphabet, nonAlphabet,
    nonAlphabet, nonAlphabet, nonAlphabet, nonAlphabet, nonAlphabet, 0x3e, nonAlphabet, nonAlphabet,
    0x34, 0x35, 0x36, 0x37, 0x38, 0x39, 0x3a, 0x3b,
    0x3c, 0x3d, nonAlphabet, nonAlphabet, nonAlphabet, nonAlphabet, nonAlphabet, nonAlphabet,
    nonAlphabet, 0x00, 0x01, 0x02, 0x03, 0x04, 0x05, 0x06,
    0x07, 0x08, 0x09, 0x0a, 0x0b, 0x0c, 0x0d, 0x0e,
    0x0f, 0x10, 0x11, 0x12, 0x13, 0x14, 0x15, 0x16,
    0x17, 0x18, 0x19, nonAlphabet, nonAlphabet, nonAlphabet, nonAlphabet, 0x3f,
    nonAlphabet, 0x1a, 0x1b, 0x1c, 0x1d, 0x1e, 0x1f, 0x20,
    0x21, 0x22, 0x23, 0x24, 0x25, 0x26, 0x27, 0x28,
    0x29, 0x2a, 0x2b, 0x2c, 0x2d, 0x2e, 0x2f, 0x30,
    0x31, 0x32, 0x33, nonAlphabet, nonAlphabet, nonAlphabet, nonAlphabet, nonAlphabet]

/-! ## Encoding -/

/-- A buffer of a fixed size that is written from the beginning. -/
structure Out where
  size : Nat
  written : List CChar

def Out.put (out : Out) (c : CChar) : Option Out :=
  if out.written.length < out.size then some { out with written := out.written ++ [c] } else none

def Out.putAll (out : Out) : List CChar → Option Out
  | [] => some out
  | c :: cs => (out.put c).bind fun out => out.putAll cs

section

variable (encodeMap : List CChar) (insertLFs : Bool)

def encodeSextet (i : BitVec 32) : CChar := encodeMap.getD i.toNat 0

def encodeGroup (a b c : CChar) : List CChar :=
  [encodeSextet encodeMap ((int a).sshiftRight 2 &&& 0o77#32),
    encodeSextet encodeMap ((int b).sshiftRight 4 &&& 0o17#32 ||| int a <<< 4 &&& 0o77#32),
    encodeSextet encodeMap ((int c).sshiftRight 6 &&& 0o3#32 ||| int b <<< 2 &&& 0o77#32),
    encodeSextet encodeMap (int c &&& 0o77#32)]

/-- The characters of the last two bytes, or of the last one. -/
def encodeTail (a : CChar) : List CChar → List CChar
  | b :: _ =>
    [encodeSextet encodeMap ((int a).sshiftRight 2 &&& 0o77#32),
      encodeSextet encodeMap ((int b).sshiftRight 4 &&& 0o17#32 ||| int a <<< 4 &&& 0o77#32),
      encodeSextet encodeMap (int b <<< 2 &&& 0o77#32)]
  | [] => [encodeSextet encodeMap ((int a).sshiftRight 2 &&& 0o77#32), encodeSextet encodeMap (int a <<< 4 &&& 0o77#32)]

def lineFeed : CChar := 10

def putLineFeed (count : Nat) (out : Out) : Option Out :=
  if insertLFs && count != 0 && count % 76 == 0 then out.put lineFeed else some out

/-- The loop over groups of three bytes; what is left is shorter. -/
def encodeLoop : List CChar → (count : Nat) → Out → Option (List CChar × Nat × Out)
  | a :: b :: c :: rest, count, out => do
    let out ← putLineFeed insertLFs count out
    let out ← out.putAll (encodeGroup encodeMap a b c)
    encodeLoop rest (if insertLFs then count + 4 else count) out
  | rest, count, out => some (rest, count, out)

def encodeRest (rest : List CChar) (count : Nat) (out : Out) : Option Out :=
  match rest with
  | [] => some out
  | a :: rest => do
    let out ← putLineFeed insertLFs count out
    out.putAll (encodeTail encodeMap a rest)

end

def maxInputBufferSize : Nat := (2 ^ 32 - 1) / 77 * 76 / 4 * 3 - 2

def needsLFs (policy : EncodePolicy) (len : Nat) : Bool := policy = .insertLFs && (len + 2) / 3 * 4 > 76

def outLength (policy : EncodePolicy) (len : Nat) : Nat :=
  let outLength := (len + 2) / 3 * 4
  if needsLFs policy len then outLength + (outLength - 1) / 76 else outLength

def equalsSign : CChar := 0x3d

def base64EncodeInternal (data : List CChar) (policy : EncodePolicy) (encodeMap : List CChar) : Option (List CChar) :=
  if data = [] then some []
  else if data.length > maxInputBufferSize then some []
  else do
    let insertLFs := needsLFs policy data.length
    let (rest, count, out) ← encodeLoop encodeMap insertLFs data 0 ⟨outLength policy data.length, []⟩
    let out ← encodeRest encodeMap insertLFs rest count out
    if policy = .urlPolicy then pure out.written
    else pure (out.written ++ List.replicate (out.size - out.written.length) equalsSign)

def base64Encode (data : List CChar) (policy : EncodePolicy) : Option (List CChar) :=
  base64EncodeInternal data policy base64EncMap

def base64URLEncode (data : List CChar) : Option (List CChar) := base64EncodeInternal data .urlPolicy base64URLEncMap

/-! ## Decoding -/

section

variable (isWhiteSpaceNeutral : Nat → Bool)

def isASCIISpace (c : Nat) : Bool := c ≤ 0x20 && (c == 0x20 || c ≤ 0xd && c ≥ 0x9)

/-- Characters that are not ASCII are looked up in a library. -/
def isSpaceOrNewline (c : Nat) : Bool := if c ≤ 0x7f then isASCIISpace c else isWhiteSpaceNeutral c

variable (policy : DecodePolicy) (decodeMap : List CChar)

/-- The loop that stores the values of the characters in the buffer; an error returns the buffer as it is. -/
def decodeLoop (length : Nat) : List Nat → (equalsSignCount outLength : Nat) → (out : List CChar) →
    Except (List CChar) (Nat × Nat × List CChar)
  | [], equalsSignCount, outLength, out => .ok (equalsSignCount, outLength, out)
  | ch :: data, equalsSignCount, outLength, out =>
    if ch = 0x3d then
      if policy = .failOnInvalidCharacterOrExcessPadding ∧ (length % 4 ≠ 0 ∨ equalsSignCount + 1 > 2) then .error out
      else decodeLoop length data (equalsSignCount + 1) outLength out
    else if decodeMap.getD ch nonAlphabet ≠ nonAlphabet then
      if equalsSignCount ≠ 0 then .error out
      else decodeLoop length data equalsSignCount (outLength + 1) (out.set outLength (decodeMap.getD ch nonAlphabet))
    else if policy = .failOnInvalidCharacterOrExcessPadding ∨ policy = .failOnInvalidCharacter ∨
        policy = .ignoreWhitespace ∧ isSpaceOrNewline isWhiteSpaceNeutral ch = false then .error out
    else decodeLoop length data equalsSignCount outLength out

end

def firstByte (a b : CChar) : CChar := (int a <<< 2 &&& 255#32 ||| (int b).sshiftRight 4 &&& 0o3#32).setWidth 8
def secondByte (b c : CChar) : CChar := (int b <<< 4 &&& 255#32 ||| (int c).sshiftRight 2 &&& 0o17#32).setWidth 8
def thirdByte (c d : CChar) : CChar := (int c <<< 6 &&& 255#32 ||| int d &&& 0o77#32).setWidth 8

def at_ (out : List CChar) (i : Nat) : CChar := out.getD i 0

/-- The loop that packs four values to three bytes, in place. -/
def packLoop (outLength sidx didx : Nat) (out : List CChar) : Nat × Nat × List CChar :=
  if didx + 2 < outLength then
    let out := out.set didx (firstByte (at_ out sidx) (at_ out (sidx + 1)))
    let out := out.set (didx + 1) (secondByte (at_ out (sidx + 1)) (at_ out (sidx + 2)))
    let out := out.set (didx + 2) (thirdByte (at_ out (sidx + 2)) (at_ out (sidx + 3)))
    packLoop outLength (sidx + 4) (didx + 3) out
  else (sidx, didx, out)
termination_by outLength - didx

def packRest (outLength sidx didx : Nat) (out : List CChar) : List CChar :=
  let out := if didx < outLength then out.set didx (firstByte (at_ out sidx) (at_ out (sidx + 1))) else out
  if didx + 1 < outLength then out.set (didx + 1) (secondByte (at_ out (sidx + 1)) (at_ out (sidx + 2))) else out

/-- The second part of the function: the values become bytes. -/
def pack (outLength : Nat) (out : List CChar) : Bool × List CChar :=
  if outLength % 4 = 1 then (false, out)
  else
    let outLength := outLength - (outLength + 3) / 4
    if outLength = 0 then (false, out)
    else
      let (sidx, didx, out) := packLoop outLength 0 0 out
      (true, (packRest outLength sidx didx out).take outLength)

variable (isWhiteSpaceNeutral : Nat → Bool)

def base64DecodeInternal (data : List Nat) (policy : DecodePolicy)
    (decodeMap : List CChar) : Bool × List CChar :=
  if data = [] then (true, [])
  else
    match decodeLoop isWhiteSpaceNeutral policy decodeMap data.length data 0 0 (List.replicate data.length 0) with
    | .error out => (false, out)
    | .ok (equalsSignCount, outLength, out) =>
      if outLength = 0 then (equalsSignCount = 0, out) else pack outLength out

def base64Decode (data : List Nat) (policy : DecodePolicy) : Bool × List CChar :=
  base64DecodeInternal isWhiteSpaceNeutral data policy base64DecMap

def base64URLDecode (data : List Nat) : Bool × List CChar :=
  base64DecodeInternal isWhiteSpaceNeutral data .failOnInvalidCharacter base64URLDecMap

end WebV8.Base64
