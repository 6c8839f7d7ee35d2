import WebV8.Lib.Words

/-!
# Packed bytecode

An `UnlinkedInstructionStream` holds the instructions of a code block as bytes: an opcode is one byte, and an operand
is written in the first of seven formats that fits. The first three bits of an operand tell the reader its format.
-/

open List

namespace WebV8.UnlinkedInstructionStream

abbrev Byte := BitVec 8
abbrev Word := BitVec 32

inductive PackedValueType where
  | positive5Bit
  | negative5Bit
  | positive13Bit
  | negative13Bit
  | constantRegister5Bit
  | constantRegister13Bit
  | full32Bit
  deriving DecidableEq, Repr

namespace PackedValueType

def code (type : PackedValueType) : Word := BitVec.ofNat 32 type.ctorIdx

/-- The case that a `switch` over the first three bits takes. -/
def ofCode : Nat → PackedValueType
  | 0 => positive5Bit
  | 1 => negative5Bit
  | 2 => positive13Bit
  | 3 => negative13Bit
  | 4 => constantRegister5Bit
  | 5 => constantRegister13Bit
  | _ => full32Bit

end PackedValueType

open PackedValueType

/-! ## The writer -/

def firstByte (type : PackedValueType) (bits : Word) : Byte := (type.code <<< 5 ||| bits).setWidth 8

def append5 (type : PackedValueType) (value : Word) : List Byte := [firstByte type (value &&& 0x1f)]

def append13 (type : PackedValueType) (value : Word) : List Byte :=
  [firstByte type (value >>> 8 &&& 0x1f), (value &&& 0xff).setWidth 8]

def append32 (value : Word) : List Byte :=
  if value &&& 0xffffffe0 = 0 then [value.setWidth 8]
  else if value &&& 0xffffffe0 = 0xffffffe0 then append5 negative5Bit value
  else if value &&& 0xffffffe0 = 0x40000000 then append5 constantRegister5Bit value
  else if value &&& 0xffffe000 = 0 then append13 positive13Bit value
  else if value &&& 0xffffe000 = 0xffffe000 then append13 negative13Bit value
  else if value &&& 0xffffe000 = 0x40000000 then append13 constantRegister13Bit value
  else
    [(full32Bit.code <<< 5).setWidth 8, (value &&& 0xff).setWidth 8, (value >>> 8 &&& 0xff).setWidth 8,
      (value >>> 16 &&& 0xff).setWidth 8, (value >>> 24 &&& 0xff).setWidth 8]

variable (opcodeLength : Word → Nat)

/-- The loop of the constructor. No opcode has length zero. -/
def pack : List Word → List Byte
  | [] => []
  | opcode :: pc =>
    let operands := opcodeLength opcode - 1
    opcode.setWidth 8 :: ((pc.take operands).flatMap append32 ++ pack (pc.drop operands))
termination_by slots => slots.length
decreasing_by simp only [length_drop, length_cons]; omega

/-! ## The reader -/

/-- An operand of two bytes, with the bits that are the same in all numbers of its format. -/
def read13 (high : Word) (first : Byte) : List Byte → Option (Word × List Byte)
  | second :: data => some (high ||| (first &&& 0x1f).setWidth 32 <<< 8 ||| second.setWidth 32, data)
  | [] => none

def readFull : List Byte → Option (Word × List Byte)
  | a :: b :: c :: d :: data =>
    some (a.setWidth 32 ||| b.setWidth 32 <<< 8 ||| c.setWidth 32 <<< 16 ||| d.setWidth 32 <<< 24, data)
  | _ => none

/-- `none` if the bytes end inside the operand. -/
def read32 : List Byte → Option (Word × List Byte)
  | [] => none
  | first :: data =>
    match ofCode (first >>> 5).toNat with
    | positive5Bit => some (first.setWidth 32, data)
    | negative5Bit => some (0xffffffe0 ||| first.setWidth 32, data)
    | positive13Bit => read13 0 first data
    | negative13Bit => read13 0xffffe000 first data
    | constantRegister5Bit => some (0x40000000 ||| (first &&& 0x1f).setWidth 32, data)
    | constantRegister13Bit => read13 0x40000000 first data
    | full32Bit => readFull data

def readOperands : Nat → List Byte → Option (List Word × List Byte)
  | 0, data => some ([], data)
  | n + 1, data => do
    let (index, data) ← read32 data
    let (operands, data) ← readOperands n data
    return (index :: operands, data)

/-- `none` if there is no room for the instruction in `m_unpackedBuffer`. -/
def next : List Byte → Option (List Word × List Byte)
  | [] => none
  | first :: data => do
    let opcode := first.setWidth 32
    if opcodeLength opcode > 16 then none
    let (operands, data) ← readOperands (opcodeLength opcode - 1) data
    return (opcode :: operands, data)

/-- The instructions up to the end, with at most `calls` calls of `next`. -/
def readAll : Nat → List Byte → Option (List (List Word))
  | _, [] => some []
  | 0, _ :: _ => none
  | calls + 1, first :: data => do
    let (instruction, data) ← next opcodeLength (first :: data)
    let rest ← readAll calls data
    return instruction :: rest

/-! ## Operands are read back -/

section

variable (value : Word) (data : List Byte)

theorem firstByte_spec (type : PackedValueType) {bits : Word} (h : bits.toNat < 32) :
    ofCode (firstByte type bits >>> 5).toNat = type ∧ (firstByte type bits &&& 0x1f).setWidth 32 = bits ∧
      (firstByte type bits).setWidth 32 = type.code <<< 5 ||| bits := by
  obtain ⟨i, rfl⟩ : ∃ i : Fin 32, BitVec.ofNat 32 i = bits := ⟨⟨bits.toNat, h⟩, by simp⟩
  revert i
  cases type <;> decide

theorem low5_lt : (value &&& 0x1f).toNat < 32 := by
  rw [BitVec.toNat_and]
  exact Nat.and_lt_two_pow _ (by decide : (0x1f : Word).toNat < 2 ^ 5)

theorem or_low5 : (value &&& 0xffffffe0) ||| (value &&& 0x1f) = value := by
  rw [← BitVec.and_or_distrib_left]
  exact BitVec.and_allOnes

theorem shift_mask (mask : Word) (k : Nat) : (value >>> k &&& mask) <<< k = value &&& mask <<< k := by
  rw [BitVec.shiftLeft_and_distrib, BitVec.shiftLeft_ushiftRight, BitVec.and_assoc, ← BitVec.shiftLeft_and_distrib,
    BitVec.allOnes_and]

theorem low8 : ((value &&& 0xff).setWidth 8).setWidth 32 = value &&& 0xff := by
  apply BitVec.eq_of_toNat_eq
  have hlow : (value &&& 0xff).toNat = value.toNat % 2 ^ 8 := by
    rw [BitVec.toNat_and]
    exact Nat.and_two_pow_sub_one_eq_mod _ 8
  rw [BitVec.toNat_setWidth, BitVec.toNat_setWidth, hlow]
  omega

theorem or_low13 : (value &&& (0xffffe000 : Word)) ||| (value >>> 8 &&& 0x1f) <<< 8 ||| (value &&& 0xff) = value := by
  rw [shift_mask, ← BitVec.and_or_distrib_left, ← BitVec.and_or_distrib_left]
  exact BitVec.and_allOnes

theorem or_bytes : (value &&& (0xff : Word)) ||| (value >>> 8 &&& 0xff) <<< 8 ||| (value >>> 16 &&& 0xff) <<< 16 |||
    (value >>> 24 &&& 0xff) <<< 24 = value := by
  rw [shift_mask, shift_mask, shift_mask, ← BitVec.and_or_distrib_left, ← BitVec.and_or_distrib_left,
    ← BitVec.and_or_distrib_left]
  exact BitVec.and_allOnes

theorem read13_append {type : PackedValueType} {high : Word} (h : value &&& (0xffffe000 : Word) = high) :
    read13 high (firstByte type (value >>> 8 &&& 0x1f)) ((value &&& 0xff).setWidth 8 :: data) =
      some (value, data) := by
  have hvalue := or_low13 value
  rw [h] at hvalue
  rw [read13, (firstByte_spec type (low5_lt _)).2.1, low8, hvalue]

/-- An operand is read back, and the reader stands behind it. -/
theorem read32_append32 : read32 (append32 value ++ data) = some (value, data) := by
  have hlow := or_low5 value
  rw [append32]
  split_ifs with h₁ h₂ h₃ h₄ h₅ h₆
  · rw [h₁] at hlow
    replace hlow := BitVec.zero_or.symm.trans hlow
    obtain ⟨htype, -, hword⟩ := firstByte_spec positive5Bit (low5_lt value)
    have hfirst : firstByte positive5Bit (value &&& 0x1f) = value.setWidth 8 := by
      rw [hlow, firstByte, show positive5Bit.code <<< 5 = 0#32 from rfl, BitVec.zero_or]
    rw [hfirst] at htype hword
    rw [singleton_append, read32, htype]
    dsimp only
    rw [hword, hlow, show positive5Bit.code <<< 5 = 0#32 from rfl, BitVec.zero_or]
  · obtain ⟨htype, -, hword⟩ := firstByte_spec negative5Bit (low5_lt value)
    rw [append5, singleton_append, read32, htype]
    dsimp only
    rw [hword, ← BitVec.or_assoc, show (0xffffffe0 : Word) ||| negative5Bit.code <<< 5 = _ from h₂.symm, hlow]
  · obtain ⟨htype, hbits, -⟩ := firstByte_spec constantRegister5Bit (low5_lt value)
    rw [append5, singleton_append, read32, htype]
    dsimp only
    rw [hbits, ← h₃, hlow]
  · rw [append13, cons_append, read32, (firstByte_spec positive13Bit (low5_lt _)).1]
    exact read13_append value data h₄
  · rw [append13, cons_append, read32, (firstByte_spec negative13Bit (low5_lt _)).1]
    exact read13_append value data h₅
  · rw [append13, cons_append, read32, (firstByte_spec constantRegister13Bit (low5_lt _)).1]
    exact read13_append value data h₆
  · rw [cons_append, read32, show ofCode ((full32Bit.code <<< 5).setWidth 8 >>> 5 : Byte).toNat = full32Bit by decide]
    dsimp only [cons_append, nil_append, readFull]
    rw [low8, low8, low8, low8, or_bytes]

theorem length_append32_le : (append32 value).length ≤ 5 := by
  rw [append32]
  split_ifs <;> simp [append5, append13]

end

/-! ## Instructions are read back -/

/-- An opcode that is a byte, and its operands; an instruction fits `m_unpackedBuffer`. -/
structure Instruction where
  opcode : Word
  operands : List Word
  opcode_lt : opcode.toNat < 256
  length_eq : opcodeLength opcode = operands.length + 1
  length_le : opcodeLength opcode ≤ 16

variable {opcodeLength}

def Instruction.slots (i : Instruction opcodeLength) : List Word := i.opcode :: i.operands

theorem readOperands_append (operands : List Word) (data : List Byte) :
    readOperands operands.length (operands.flatMap append32 ++ data) = some (operands, data) := by
  induction operands with
  | nil => rfl
  | cons index operands ih =>
    rw [length_cons, readOperands, flatMap_cons, List.append_assoc, read32_append32]
    simp [ih]

theorem pack_slots (i : Instruction opcodeLength) (rest : List Word) : pack opcodeLength (i.slots ++ rest) =
    i.opcode.setWidth 8 :: (i.operands.flatMap append32 ++ pack opcodeLength rest) := by
  rw [Instruction.slots, cons_append, pack, i.length_eq, Nat.add_sub_cancel, take_left', drop_left'] <;> rfl

theorem next_pack (i : Instruction opcodeLength) (rest : List Word) :
    next opcodeLength (pack opcodeLength (i.slots ++ rest)) = some (i.slots, pack opcodeLength rest) := by
  have hopcode : (i.opcode.setWidth 8).setWidth 32 = i.opcode := by
    apply BitVec.eq_of_toNat_eq
    have := i.opcode_lt
    rw [BitVec.toNat_setWidth, BitVec.toNat_setWidth]
    omega
  rw [pack_slots, next]
  simp only [hopcode]
  rw [if_neg (Nat.not_lt.mpr i.length_le), i.length_eq, Nat.add_sub_cancel, readOperands_append]
  rfl

/-- **Packed instructions are read back**: at most five bytes are written for each slot, and the calls of `next` up to
    the end of the bytes return the instructions. -/
theorem readAll_pack (is : List (Instruction opcodeLength)) :
    (∀ value, (append32 value).length ≤ 5) ∧
    (pack opcodeLength (is.flatMap Instruction.slots)).length ≤ 5 * (is.flatMap Instruction.slots).length ∧
    ∀ calls ≥ is.length,
      readAll opcodeLength calls (pack opcodeLength (is.flatMap Instruction.slots)) =
        some (is.map Instruction.slots) := by
  refine ⟨length_append32_le, ?_, ?_⟩
  · induction is with
    | nil => simp [pack]
    | cons i is ih =>
      have hsum : (i.operands.flatMap append32).length ≤ i.operands.length * 5 := by
        rw [length_flatMap]
        refine (sum_le_card_nsmul _ 5 ?_).trans_eq (by simp)
        simpa using fun value _ => length_append32_le value
      rw [flatMap_cons, pack_slots]
      simp only [length_cons, length_append, Instruction.slots]
      omega
  · induction is with
    | nil =>
      intro calls _
      rw [flatMap_nil, pack, readAll, map_nil]
    | cons i is ih =>
      rintro (_ | calls) hcalls
      · exact absurd hcalls (Nat.not_succ_le_zero _)
      · have hnext := next_pack i (is.flatMap Instruction.slots)
        rw [flatMap_cons]
        rw [pack_slots] at hnext ⊢
        rw [readAll, hnext]
        simp [ih calls (Nat.le_of_succ_le_succ hcalls)]

end WebV8.UnlinkedInstructionStream
