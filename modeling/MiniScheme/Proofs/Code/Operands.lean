import MiniScheme.Machine.Step

/-!
# Encoded instructions

What the machine reads back from a byte stream is what was written: an operand comes back as it
was, and an index as itself as long as it fits into 31 bits. Code is looked at from a place on, as
the list of the bytes that are left there.
-/

namespace MiniScheme

/-- One more than the largest index that an operand can hold. -/
def operandLimit : Nat := 0x80000000

@[simp] theorem length_encodeOperand (operand : Int32) : (encodeOperand operand).length = 4 := rfl

theorem decodeOperand_encodeOperand (operand : Int32) : ∃ first second third fourth,
    encodeOperand operand = [first, second, third, fourth] ∧
      decodeOperand first second third fourth = operand := by
  refine ⟨_, _, _, _, rfl, ?_⟩
  have bound : operand.toUInt32.toNat < 2 ^ 32 := operand.toUInt32.toNat_lt
  have digits : operand.toUInt32.toNat / 0x1000000 % 256 * 0x1000000 +
      operand.toUInt32.toNat / 0x10000 % 256 * 0x10000 +
      operand.toUInt32.toNat / 0x100 % 256 * 0x100 + operand.toUInt32.toNat % 256 =
      operand.toUInt32.toNat := by
    omega
  simp [decodeOperand, digits]

variable {index : Nat}

theorem toInt_ofNat (fits : index < operandLimit) : (Int32.ofNat index).toInt = index :=
  Int32.toInt_ofNat_of_lt fits

theorem index_eq {operand : Int32} (eq : operand.toInt = index) :
    Machine.index operand = index := by
  rw [Machine.index, Int64.toNat_toUInt64_of_le]
  · simp [Int64.toNatClampNeg, eq]
  · rw [Int64.le_iff_toInt_le]
    simp [eq]

theorem index_ofNat (fits : index < operandLimit) : Machine.index (.ofNat index) = index :=
  index_eq (toInt_ofNat fits)

theorem toNat_ofNat {n : Nat} (fits : n < operandLimit) : (Int64.ofNat n).toUInt64.toNat = n := by
  have v : (Int64.ofNat n).toInt = n := Int64.toInt_ofNat_of_lt (Nat.lt_trans fits (by decide))
  rw [Int64.toNat_toUInt64_of_le]
  · simp [Int64.toNatClampNeg, v]
  · rw [Int64.le_iff_toInt_le, v]
    simp

namespace Bytecode

variable {code : Bytecode}

theorem bytes_append (first second : Bytecode) :
    (first ++ second).bytes = first.bytes ++ second.bytes := rfl

@[simp] theorem size_append (first second : Bytecode) :
    (first ++ second).size = first.size + second.size := by
  simp [size, bytes_append]

theorem size_ofOp (op : Op) (operands : List Int32) :
    (ofOp op operands).size = 1 + 4 * operands.length := by
  simp [size, ofOp, List.length_flatMap, List.map_const', Nat.add_comm, Nat.mul_comm]

@[simp] theorem size_ofOpAt (op : Op) (pos : Position) : (ofOpAt op pos).size = 1 := rfl

def rest (code : Bytecode) (offset : Nat) : List UInt8 :=
  code.bytes.toList.drop offset

def stream (code : Bytecode) : List UInt8 :=
  code.bytes.toList

theorem rest_zero (code : Bytecode) : code.rest 0 = code.stream := rfl

@[simp] theorem stream_append (first second : Bytecode) :
    (first ++ second).stream = first.stream ++ second.stream := by
  simp [stream, bytes_append]

@[simp] theorem stream_ofOp (op : Op) (operands : List Int32) :
    (ofOp op operands).stream = op.toByte :: operands.flatMap encodeOperand := by
  simp [stream, ofOp]

@[simp] theorem length_stream (code : Bytecode) : code.stream.length = code.size := rfl

theorem rest_append (first second : Bytecode) :
    (first ++ second).rest first.size = second.stream := by
  rw [rest, bytes_append]
  simp [size, stream]

variable {offset : Nat} {bytes : List UInt8}

theorem rest_add (front : List UInt8) (left : code.rest offset = front ++ bytes) :
    code.rest (offset + front.length) = bytes := by
  rw [rest, ← List.drop_drop, ← rest, left, List.drop_left]

theorem length_rest (code : Bytecode) (offset : Nat) :
    (code.rest offset).length = code.size - offset := by
  simp [rest, size]

theorem getElem?_of_rest {byte : UInt8} (left : code.rest offset = byte :: bytes) :
    code.bytes[offset]? = some byte := by
  have head : (code.rest offset)[0]? = some byte := by rw [left]; rfl
  simpa [rest] using head

/-- The instruction that is read where its opcode was written. -/
theorem op?_of_rest {op : Op} (left : code.rest offset = op.toByte :: bytes) :
    code.op? offset = some op := by
  simp [op?, getElem?_of_rest left]

theorem operand?_of_rest {operand : Int32}
    (left : code.rest offset = encodeOperand operand ++ bytes) :
    code.operand? offset = some operand := by
  obtain ⟨first, second, third, fourth, encoded, decoded⟩ := decodeOperand_encodeOperand operand
  rw [encoded] at left
  have one : code.rest (offset + 1) = second :: third :: fourth :: bytes := rest_add [first] left
  have two : code.rest (offset + 2) = third :: fourth :: bytes := rest_add [first, second] left
  have three : code.rest (offset + 3) = fourth :: bytes := rest_add [first, second, third] left
  simp [operand?, getElem?_of_rest left, getElem?_of_rest one, getElem?_of_rest two,
    getElem?_of_rest three, decoded]

end Bytecode

end MiniScheme
