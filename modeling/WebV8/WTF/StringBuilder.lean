import WebV8.Lib.Crash

/-! # StringBuilder

A builder keeps its characters in a retained string, in a buffer, or in both; the buffer may be shared with strings
that were returned. Strings and buffers are ranges of memory, of 8-bit or 16-bit characters. Memory is never written
while it is shared, except behind the characters of all strings.

A program has a family of builders, and holds strings. Freed memory is not used again, which nobody could tell.
-/

namespace WebV8

open Lib

/-- The memory of a `StringImpl`. -/
structure StringImpl where
  is8Bit : Bool
  characters : List UInt16
  deriving DecidableEq, Repr

/-- A string is all of a `StringImpl`, or a substring of it, which counts as a reference to it. -/
structure StringRef where
  impl : Nat
  offset : Nat
  length : Nat
  deriving DecidableEq, Repr

structure StringBuilder where
  length : Nat := 0
  string : Option StringRef := none
  buffer : Option Nat := none
  is8Bit : Bool := true
  deriving DecidableEq, Repr

/-- The memory, the builders, and the strings that the program holds. -/
structure Strings (ι : Type) where
  heap : List StringImpl
  builders : ι → StringBuilder
  strings : List StringRef

namespace Strings

variable {ι : Type}

/-! ## Memory -/

def impl (s : Strings ι) (address : Nat) : StringImpl := s.heap.getD address ⟨true, []⟩

def addImpl (s : Strings ι) (impl : StringImpl) : Strings ι := { s with heap := s.heap ++ [impl] }

def setImpl (s : Strings ι) (address : Nat) (impl : StringImpl) : Strings ι :=
  { s with heap := s.heap.set address impl }

def characters (s : Strings ι) (string : StringRef) : List UInt16 :=
  ((s.impl string.impl).characters.drop string.offset).take string.length

def is8Bit (s : Strings ι) (string : StringRef) : Bool := (s.impl string.impl).is8Bit

/-- `characters8()` or `characters16()` -/
def charactersAs (s : Strings ι) (is8Bit : Bool) (string : StringRef) : Except Stop (List UInt16) :=
  if s.is8Bit string = is8Bit then pure (s.characters string) else throw .undefined

/-- The whole of a `StringImpl`. -/
def whole (s : Strings ι) (address : Nat) : StringRef := ⟨address, 0, (s.impl address).characters.length⟩

/-- `StringImpl::empty()` has its own memory. -/
def emptyString : StringRef := ⟨0, 0, 0⟩

def createSubstringSharingImpl (string : StringRef) (offset length : Nat) : StringRef :=
  if length = 0 then emptyString else { string with offset := string.offset + offset, length }

variable [DecidableEq ι]

def setBuilder (s : Strings ι) (this : ι) (builder : StringBuilder) : Strings ι :=
  { s with builders := Function.update s.builders this builder }

/-- New memory whose first characters are copied; the others are not initialised. Memory for nothing is that of the
    empty string. -/
def create (limit : Bool → Nat) (is8Bit : Bool) (content : List UInt16) (length : Nat) (s : Strings ι) :
    Except Stop (Nat × Strings ι) :=
  if length = 0 then pure (0, s)
  else if length > limit is8Bit then throw .crash
  else pure (s.heap.length, s.addImpl ⟨is8Bit, (content.take length).rightpad length 0⟩)

/-! ## Buffers -/

section

variable (limit : Bool → Nat) (this : ι)

def dropString (s : Strings ι) : Strings ι := s.setBuilder this { s.builders this with string := none }

/-- Both overloads: the width is that of the type of the current characters. -/
def allocateBuffer (is8Bit : Bool) (currentCharacters : List UInt16) (requiredLength : Nat) (s : Strings ι) :
    Except Stop (Strings ι) := do
  let (buffer, s) ← create limit is8Bit (currentCharacters.take (s.builders this).length) requiredLength s
  pure (s.setBuilder this { s.builders this with buffer := some buffer, string := none })

def allocateBufferUpConvert (currentCharacters : List UInt16) (requiredLength : Nat) (s : Strings ι) :
    Except Stop (Strings ι) := do
  let s ← allocateBuffer limit this false currentCharacters requiredLength s
  pure (s.setBuilder this { s.builders this with is8Bit := false })

/-- `StringImpl::reallocate` -/
def reallocate (is8Bit : Bool) (buffer : Nat) (requiredLength : Nat) (s : Strings ι) : Except Stop (Strings ι) := do
  let (buffer, s) ← create limit is8Bit (s.impl buffer).characters requiredLength s
  pure (s.setBuilder this { s.builders this with buffer := some buffer })

variable [Fintype ι]

def hasOneRef (s : Strings ι) (address : Nat) : Bool :=
  !decide (∃ other, other ≠ this ∧ (s.builders other).buffer = some address) &&
    !decide (∃ other, ((s.builders other).string.any fun string => string.impl = address) = true) &&
    !s.strings.any fun string => string.impl = address

section

variable (is8Bit : Bool)

/-- Both instances, with the width of the character type. -/
def reallocateBuffer (requiredLength : Nat) (s : Strings ι) : Except Stop (Strings ι) :=
  let s := s.dropString this
  match (s.builders this).buffer with
  | none => throw .undefined
  | some buffer =>
    if (s.impl buffer).is8Bit ≠ is8Bit then
      if is8Bit then throw .undefined
      else allocateBufferUpConvert limit this (s.impl buffer).characters requiredLength s
    else if hasOneRef this s buffer then reallocate limit this is8Bit buffer requiredLength s
    else allocateBuffer limit this is8Bit (s.impl buffer).characters requiredLength s

def capacity (s : Strings ι) : Nat :=
  match (s.builders this).buffer with
  | some buffer => (s.impl buffer).characters.length
  | none => (s.builders this).length

def expandedCapacity (capacity requiredLength : Nat) : Nat := max requiredLength (max 16 (capacity * 2 % 2 ^ 32))

def reserveCapacity (newCapacity : Nat) (s : Strings ι) : Except Stop (Strings ι) :=
  match (s.builders this).buffer with
  | some buffer =>
    if newCapacity > (s.impl buffer).characters.length then
      reallocateBuffer limit this (s.impl buffer).is8Bit newCapacity s
    else pure s
  | none =>
    if newCapacity > (s.builders this).length then
      if (s.builders this).length = 0 then allocateBuffer limit this true [] newCapacity s
      else
        match (s.builders this).string with
        | none => throw .undefined
        | some string => allocateBuffer limit this (s.is8Bit string) (s.characters string) newCapacity s
    else pure s

/-! ## Appending -/

def store (characters : List UInt16) (s : Strings ι) : Except Stop (Strings ι) :=
  let builder := s.builders this
  match builder.buffer with
  | none => throw .undefined
  | some buffer =>
    let impl := s.impl buffer
    if impl.is8Bit = is8Bit ∧ builder.length + characters.length ≤ impl.characters.length then
      let characters' := impl.characters.take builder.length ++ characters ++
        impl.characters.drop (builder.length + characters.length)
      pure ((s.setImpl buffer { impl with characters := characters' }).setBuilder this
        { builder with length := builder.length + characters.length })
    else throw .undefined

/-- The characters of the retained string, if there are any. -/
def currentCharacters (s : Strings ι) : Except Stop (List UInt16) :=
  if (s.builders this).length = 0 then pure []
  else
    match (s.builders this).string with
    | none => throw .undefined
    | some string => s.charactersAs is8Bit string

/-- `appendUninitialized`, and the copy to what it returns. -/
def appendCharacters (characters : List UInt16) (s : Strings ι) : Except Stop (Strings ι) :=
  let builder := s.builders this
  let requiredLength := builder.length + characters.length
  if requiredLength ≥ 2 ^ 32 then throw .crash
  else
    match builder.buffer with
    | some buffer =>
      if requiredLength ≤ (s.impl buffer).characters.length then store this is8Bit characters (s.dropString this)
      else do
        let s ← reallocateBuffer limit this is8Bit (expandedCapacity (capacity this s) requiredLength) s
        store this is8Bit characters s
    | none => do
      let current ← currentCharacters this is8Bit s
      let s ← allocateBuffer limit this is8Bit current (expandedCapacity (capacity this s) requiredLength) s
      store this is8Bit characters s

/-- `append(const LChar*, unsigned)` -/
def append8 (characters : List UInt8) (s : Strings ι) : Except Stop (Strings ι) :=
  if characters = [] then pure s
  else appendCharacters limit this (s.builders this).is8Bit (characters.map UInt8.toUInt16) s

def currentCharacters8 (s : Strings ι) : Except Stop (List UInt16) :=
  match (s.builders this).buffer, (s.builders this).string with
  | some buffer, _ => s.charactersAs true (s.whole buffer)
  | none, some string => s.charactersAs true string
  | none, none => pure []

def single8 : List UInt16 → Option UInt8
  | [c] => if c < 256 then some c.toUInt8 else none
  | _ => none

def appendUpConverted (characters : List UInt16) (s : Strings ι) : Except Stop (Strings ι) :=
  let requiredLength := (s.builders this).length + characters.length
  if requiredLength ≥ 2 ^ 32 then throw .crash
  else do
    let current ← currentCharacters8 this s
    let s ← allocateBufferUpConvert limit this current (expandedCapacity (capacity this s) requiredLength) s
    store this false characters s

/-- `append(const UChar*, unsigned)` -/
def append16 (characters : List UInt16) (s : Strings ι) : Except Stop (Strings ι) :=
  if characters = [] then pure s
  else if (s.builders this).is8Bit then
    match single8 characters with
    | some c => append8 limit this [c] s
    | none => appendUpConverted limit this characters s
  else appendCharacters limit this false characters s

def appendRun (characters : List UInt16) (s : Strings ι) : Except Stop (Strings ι) :=
  if is8Bit then append8 limit this (characters.map UInt16.toUInt8) s else append16 limit this characters s

end

/-- `append(const String&)` -/
def appendString (string : StringRef) (s : Strings ι) : Except Stop (Strings ι) :=
  if string.length = 0 then pure s
  else if (s.builders this).length = 0 ∧ (s.builders this).buffer = none then
    pure (s.setBuilder this
      { s.builders this with string := some string, length := string.length, is8Bit := s.is8Bit string })
  else appendRun limit this (s.is8Bit string) (s.characters string) s

/-- `characters8()` or `characters16()` of a builder that is not empty. -/
def builderCharacters (s : Strings ι) : Except Stop (List UInt16) :=
  match (s.builders this).string, (s.builders this).buffer with
  | some string, _ => s.charactersAs (s.builders this).is8Bit string
  | none, some buffer => s.charactersAs (s.builders this).is8Bit (s.whole buffer)
  | none, none => throw .undefined

/-- `append(const StringBuilder&)`: a retained string does not set the width. -/
def appendBuilder (other : ι) (s : Strings ι) : Except Stop (Strings ι) :=
  if (s.builders other).length = 0 then pure s
  else if (s.builders this).length = 0 ∧ (s.builders this).buffer = none ∧ (s.builders other).string ≠ none then
    pure (s.setBuilder this
      { s.builders this with string := (s.builders other).string, length := (s.builders other).length })
  else do
    let characters ← builderCharacters other s
    appendRun limit this (s.builders other).is8Bit (characters.take (s.builders other).length) s

/-- The fast path of the single characters: the buffer is not shared with a string of the builder. -/
def hasRoom (s : Strings ι) : Bool :=
  match (s.builders this).buffer with
  | some buffer => (s.builders this).length < (s.impl buffer).characters.length && (s.builders this).string.isNone
  | none => false

/-- `append(LChar)` -/
def appendLChar (c : UInt8) (s : Strings ι) : Except Stop (Strings ι) :=
  if hasRoom this s then store this (s.builders this).is8Bit [c.toUInt16] s else append8 limit this [c] s

/-- `append(UChar)` -/
def appendUChar (c : UInt16) (s : Strings ι) : Except Stop (Strings ι) :=
  if hasRoom this s ∧ ((s.builders this).is8Bit = false ∨ c < 256) then
    store this (s.builders this).is8Bit [c] s
  else append16 limit this [c] s

/-! ## Strings -/

def reifyString (s : Strings ι) : Except Stop (Strings ι) :=
  let builder := s.builders this
  if builder.string ≠ none then pure s
  else if builder.length = 0 then pure (s.setBuilder this { builder with string := some emptyString })
  else
    match builder.buffer with
    | none => throw .undefined
    | some buffer =>
      let string :=
        if builder.length = (s.impl buffer).characters.length then s.whole buffer
        else createSubstringSharingImpl (s.whole buffer) 0 builder.length
      pure (s.setBuilder this { builder with string := some string })

def unshareBuffer (buffer : Nat) (s : Strings ι) : Except Stop (Strings ι) :=
  if hasOneRef this s buffer then pure s
  else
    allocateBuffer limit this (s.impl buffer).is8Bit (s.impl buffer).characters (s.impl buffer).characters.length s

def resize (newSize : Nat) (s : Strings ι) : Except Stop (Strings ι) :=
  if newSize > (s.builders this).length then throw .undefined
  else if newSize = (s.builders this).length then pure s
  else
    match (s.builders this).buffer with
    | some buffer => do
      let s ← unshareBuffer limit this buffer (s.dropString this)
      pure (s.setBuilder this { s.builders this with length := newSize })
    | none =>
      match (s.builders this).string with
      | none => throw .undefined
      | some string =>
        pure (s.setBuilder this
          { s.builders this with length := newSize, string := some (createSubstringSharingImpl string 0 newSize) })

section

variable (s : Strings ι)

def canShrink : Bool :=
  match (s.builders this).buffer with
  | some buffer => (s.impl buffer).characters.length > (s.builders this).length + (s.builders this).length / 4
  | none => false

def shrinkToFit : Except Stop (Strings ι) :=
  if canShrink this s then do
    let s ← reallocateBuffer limit this (s.builders this).is8Bit (s.builders this).length s
    match (s.builders this).buffer with
    | none => throw .undefined
    | some buffer => pure (s.setBuilder this { s.builders this with string := some (s.whole buffer), buffer := none })
  else pure s

def returnString : Except Stop (Strings ι) := do
  let s ← reifyString this s
  pure { s with strings := s.strings ++ (s.builders this).string.toList }

def toString : Except Stop (Strings ι) := do
  let s ← shrinkToFit limit this s
  returnString this s

def clear : Strings ι := s.setBuilder this {}

end

/-- `operator[]` -/
def characterAt (i : Nat) (s : Strings ι) : Option UInt16 :=
  match builderCharacters this s with
  | .ok characters => characters[i]?
  | .error _ => none

end

end Strings

end WebV8
