import WebV8.IPC.ArgumentDecoder

/-!
# The argument coders

One coder for every template and class of `ArgumentCoders`. A `Schema` is a type built from them,
and `Schema.coder` the coder that the compiler picks for it.
-/

namespace WebV8.IPC

open Lib Decode

/-- `ArgumentCoder<T>` -/
structure ArgumentCoder (T : Type) where
  encode : T → ArgumentEncoder → ArgumentEncoder
  decode : Decode T

/-! ## Strings -/

/-- A `CString`: null, or some characters. -/
abbrev CString := Option (List UInt8)

/-- A `String`: null, or an implementation with narrow or wide characters. An implementation without
    characters is always the shared empty one, which is narrow. -/
inductive WTFString where
  | null
  | narrow (characters8 : List UInt8)
  | wide (characters16 : List UInt16) (nonempty : characters16 ≠ [])
  deriving DecidableEq

namespace WTFString

def isNull : WTFString → Bool
  | null => true
  | _ => false

def characters : WTFString → List UInt16
  | null => []
  | narrow cs => cs.map UInt8.toUInt16
  | wide cs _ => cs

/-- `equal(a.impl(), b.impl())` compares characters; null equals null only. -/
def equal (a b : WTFString) : Bool := a.isNull == b.isNull && a.characters == b.characters

/-- `createUninitialized` hands out the shared empty string when no characters are asked for. -/
def ofCharacters16 (cs : List UInt16) : WTFString :=
  if h : cs = [] then narrow [] else wide cs h

end WTFString

/-! ## Hash tables -/

/-- What `HashArg` and `KeyTraitsArg` say about a key. -/
structure KeyTraits (K : Type) where
  equal : K → K → Bool
  /-- `hash` follows the pointer to the string's implementation without a test for null. -/
  hashDereferencesNull : K → Bool
  isEmptyValue : K → Bool
  isDeletedValue : K → Bool

namespace KeyTraits

variable {K L : Type}

/-- The table's marks for its own use cannot be told from keys that look the same. -/
def isEmptyOrDeleted (t : KeyTraits K) (key : K) : Bool := t.isEmptyValue key || t.isDeletedValue key

def IsKey (t : KeyTraits K) (key : K) : Prop :=
  t.hashDereferencesNull key = false ∧ t.isEmptyOrDeleted key = false

instance (t : KeyTraits K) (key : K) : Decidable (t.IsKey key) := inferInstanceAs (Decidable (_ ∧ _))

def integer (a : Arithmetic) : KeyTraits a.Value where
  equal x y := x = y
  hashDereferencesNull _ := false
  isEmptyValue x := x = a.ofBytes (leBytes a.size 0)
  isDeletedValue x := x = a.ofBytes (leBytes a.size (2 ^ 64 - 1))

/-- `CString::hash` tests for null. -/
def cstring : KeyTraits CString where
  equal x y := x = y
  hashDereferencesNull _ := false
  isEmptyValue x := x.isNone
  isDeletedValue _ := false

/-- `StringHash::hash` does not. -/
def string : KeyTraits WTFString where
  equal := WTFString.equal
  hashDereferencesNull := WTFString.isNull
  isEmptyValue := WTFString.isNull
  isDeletedValue _ := false

/-- `PairHash` and `PairHashTraits` -/
def pair (t : KeyTraits K) (u : KeyTraits L) : KeyTraits (K × L) where
  equal x y := t.equal x.1 y.1 && u.equal x.2 y.2
  hashDereferencesNull x := t.hashDereferencesNull x.1 || u.hashDereferencesNull x.2
  isEmptyValue x := t.isEmptyValue x.1 && u.isEmptyValue x.2
  isDeletedValue x := t.isDeletedValue x.1

end KeyTraits

/-- What `add(key).isNewEntry` says on a table to which some keys have been added. It depends on hash
    codes and on the probing. As long as only proper keys are added, a key is new exactly if no equal
    one was added before. -/
structure TableAnswers {K : Type} (t : KeyTraits K) where
  isNewEntry : List K → K → Bool
  isNewEntry_eq : ∀ {added : List K} {key : K}, (∀ k ∈ added, t.IsKey k) → t.IsKey key →
    isNewEntry added key = !added.any fun k => t.equal k key

/-! ## Coders -/

namespace ArgumentCoder

variable {T U K : Type}

/-- The overloads of the encoder and the decoder for arithmetic types. -/
def arithmetic (a : Arithmetic) : ArgumentCoder a.Value where
  encode := ArgumentEncoder.encode a
  decode := Decode.decode a

/-- `SimpleArgumentCoder`, for a type of `size` bytes. -/
def simple (size alignment : Nat) : ArgumentCoder { bytes : List UInt8 // bytes.length = size } where
  encode t := ArgumentEncoder.encodeFixedLengthData t.1 alignment
  decode := do
    let bytes ← decodeFixedLengthData size alignment
    return ⟨bytes.takeD size 0, List.takeD_length ..⟩

/-- `encodeVariableLengthByteArray` and its counterpart. -/
def dataReference : ArgumentCoder (List UInt8) where
  encode := ArgumentEncoder.encodeVariableLengthByteArray
  decode := decodeVariableLengthByteArray

/-- `std::numeric_limits<uint32_t>::max()`, the length of a null string. -/
def nullLength : UInt32 := UInt32.ofNat (2 ^ 32 - 1)

def cstring : ArgumentCoder CString where
  encode
    | none, e => e.encode .uint32 nullLength
    | some data, e =>
      ArgumentEncoder.encodeFixedLengthData data 1 (e.encode .uint32 (UInt32.ofNat data.length))
  decode := do
    let length : UInt32 ← Decode.decode .uint32
    if length = nullLength then
      -- This is the null string.
      return none
    -- Before allocating the string, make sure that the decoder buffer is big enough.
    allocate .uint8 (UInt32.toNat length)
    return some (← decodeFixedLengthData (UInt32.toNat length) 1)

/-- `decodeStringText`, up to making a string of the characters. -/
def decodeStringText (CharacterType : Arithmetic) (length : Nat) : Decode (List CharacterType.Value) := do
  allocate CharacterType length
  let buffer ← decodeFixedLengthData (length * CharacterType.size) CharacterType.size
  return CharacterType.ofArrayBytes length buffer

def string : ArgumentCoder WTFString where
  encode
    | .null, e => e.encode .uint32 nullLength
    | .narrow cs, e =>
      ((e.encode .uint32 (UInt32.ofNat cs.length)).encode .bool true).encodeFixedLengthData
        (Arithmetic.arrayBytes .uint8 cs) 1
    | .wide cs _, e =>
      ((e.encode .uint32 (UInt32.ofNat cs.length)).encode .bool false).encodeFixedLengthData
        (Arithmetic.arrayBytes .uint16 cs) 2
  decode := do
    let length : UInt32 ← Decode.decode .uint32
    if length = nullLength then
      return .null
    let is8Bit : Bool ← Decode.decode .bool
    if is8Bit then
      return .narrow (← decodeStringText .uint8 (UInt32.toNat length))
    return .ofCharacters16 (← decodeStringText .uint16 (UInt32.toNat length))

variable (c : ArgumentCoder T)

def optional : ArgumentCoder (Option T) where
  encode
    | none, e => e.encode .bool false
    | some value, e => c.encode value (e.encode .bool true)
  decode := do
    let isEngaged : Bool ← Decode.decode .bool
    if isEngaged then
      return some (← c.decode)
    return none

/-- `std::pair` and `KeyValuePair` -/
def pair (c' : ArgumentCoder U) : ArgumentCoder (T × U) where
  encode p e := c'.encode p.2 (c.encode p.1 e)
  decode := do
    let first ← c.decode
    let second ← c'.decode
    return (first, second)

def encodeEach (l : List T) (e : ArgumentEncoder) : ArgumentEncoder :=
  l.foldl (fun e t => c.encode t e) e

def encodeSized (l : List T) (e : ArgumentEncoder) : ArgumentEncoder :=
  c.encodeEach l (e.encode .uint64 (UInt64.ofNat l.length))

/-- The loop of `VectorArgumentCoder<false>::decode`. -/
def decodeElements (x : Decode T) : Nat → List T → Decode (List T)
  | 0, tmp => return tmp
  | n + 1, tmp => do
    let t ← appended x
    decodeElements x n (tmp ++ [t])

/-- `VectorArgumentCoder<false>` -/
def vector : ArgumentCoder (List T) where
  encode := c.encodeSized
  decode := do
    let size ← Decode.decode .uint64
    decodeElements c.decode (UInt64.toNat size) []

/-- `VectorArgumentCoder<true>`. The result of the last read is not looked at. -/
def vectorOfArithmetic (a : Arithmetic) : ArgumentCoder (List a.Value) where
  encode v e :=
    (e.encode .uint64 (UInt64.ofNat v.length)).encodeFixedLengthData (a.arrayBytes v) a.size
  decode := do
    let size ← Decode.decode .uint64
    allocate a (UInt64.toNat size)
    let temp ← orElse (decodeFixedLengthData (wrap (UInt64.toNat size * a.size)) a.size) []
    return a.ofArrayBytes (UInt64.toNat size) temp

/-- The loop that fills a hash table from what `x` decodes. A key that looks like one of the table's
    own marks is taken but cannot be found in the table afterwards. -/
def addEach {t : KeyTraits K} (table : TableAnswers t) (x : Decode T) (key : T → K) :
    Nat → List T → Decode (List T)
  | 0, added => return added.filter fun entry => !t.isEmptyOrDeleted (key entry)
  | n + 1, added => do
    let entry ← x
    if t.hashDereferencesNull (key entry) then
      throw .crashed
    else if table.isNewEntry (added.map key) (key entry) then
      addEach table x key n (added ++ [entry])
    else
      -- The hash map already has the specified key, bail.
      invalidate

/-- `HashMap`, given by its entries. -/
def hashMap {t : KeyTraits K} (table : TableAnswers t) (c : ArgumentCoder K) (c' : ArgumentCoder T) :
    ArgumentCoder (List (K × T)) where
  encode := (pair c c').encodeSized
  decode := do
    let hashMapSize ← Decode.decode .uint64
    let entry : Decode (K × T) := do
      let key ← element c.decode
      let value ← element c'.decode
      return (key, value)
    addEach table entry Prod.fst (UInt64.toNat hashMapSize) []

/-- `HashSet`, given by its members. -/
def hashSet {t : KeyTraits K} (table : TableAnswers t) (c : ArgumentCoder K) : ArgumentCoder (List K) where
  encode := c.encodeSized
  decode := do
    let hashSetSize ← Decode.decode .uint64
    addEach table (element c.decode) id (UInt64.toNat hashSetSize) []

end ArgumentCoder

/-! ## Types -/

/-- The integer types for which `DefaultHash` is there. -/
def Arithmetic.hasDefaultHash : Arithmetic → Bool
  | bool | uint8 => false
  | uint16 | uint32 | uint64 | int32 | int64 => true

inductive KeySchema where
  | integer (a : Arithmetic) (hasDefaultHash : a.hasDefaultHash = true)
  | cstring
  | string
  | pair (first second : KeySchema)

namespace KeySchema

def Value : KeySchema → Type
  | integer a _ => a.Value
  | cstring => CString
  | string => WTFString
  | pair k l => k.Value × l.Value

def traits : (k : KeySchema) → KeyTraits k.Value
  | integer a _ => .integer a
  | cstring => .cstring
  | string => .string
  | pair k l => .pair k.traits l.traits

def coder : (k : KeySchema) → ArgumentCoder k.Value
  | integer a _ => .arithmetic a
  | cstring => .cstring
  | string => .string
  | pair k l => .pair k.coder l.coder

end KeySchema

inductive Schema where
  | arithmetic (a : Arithmetic)
  | simple (size alignment : Nat) (size_pos : 0 < size) (alignment_dvd : alignment ∣ 8)
  | dataReference
  | cstring
  | string
  | optional (s : Schema)
  | pair (first second : Schema)
  | vector (s : Schema)
  | hashMap (key : KeySchema) (mapped : Schema)
  | hashSet (key : KeySchema)

namespace Schema

def Value : Schema → Type
  | arithmetic a => a.Value
  | simple size _ _ _ => { bytes : List UInt8 // bytes.length = size }
  | dataReference => List UInt8
  | cstring => CString
  | string => WTFString
  | optional s => Option s.Value
  | pair s t => s.Value × t.Value
  | vector s => List s.Value
  | hashMap k s => List (k.Value × s.Value)
  | hashSet k => List k.Value

/-- `ArgumentCoder<Vector<T>>` inherits from one of two coders, by `std::is_arithmetic<T>`. -/
def vectorCoder : (s : Schema) → ArgumentCoder s.Value → ArgumentCoder (List s.Value)
  | arithmetic a, _ => .vectorOfArithmetic a
  | _, c => .vector c

/-- The tables of the program, one kind for each type of key. -/
abbrev Tables := (k : KeySchema) → TableAnswers k.traits

def coder (tables : Tables) : (s : Schema) → ArgumentCoder s.Value
  | arithmetic a => .arithmetic a
  | simple size alignment _ _ => .simple size alignment
  | dataReference => .dataReference
  | cstring => .cstring
  | string => .string
  | optional s => .optional (s.coder tables)
  | pair s t => .pair (s.coder tables) (t.coder tables)
  | vector s => s.vectorCoder (s.coder tables)
  | hashMap k s => .hashMap (tables k) k.coder (s.coder tables)
  | hashSet k => .hashSet (tables k) k.coder

end Schema

/-! ## Messages -/

abbrev Argument := Σ s : Schema, s.Value

def encodeAll (tables : Schema.Tables) (arguments : List Argument) (e : ArgumentEncoder) : ArgumentEncoder :=
  arguments.foldl (fun e a => (a.1.coder tables).encode a.2 e) e

abbrev Reply := Σ s : Schema, Except Stop s.Value

/-- Ask for arguments one after the other. Requests go on after a failure; nothing goes on after a
    crash. -/
def decodeAll (tables : Schema.Tables) : List Schema → ArgumentDecoder → List Reply × ArgumentDecoder
  | [], d => ([], d)
  | s :: requests, d =>
    match (s.coder tables).decode.on d with
    | (.error .crashed, d') => ([⟨s, .error .crashed⟩], d')
    | (reply, d') =>
      let (replies, d'') := decodeAll tables requests d'
      (⟨s, reply⟩ :: replies, d'')

end WebV8.IPC
