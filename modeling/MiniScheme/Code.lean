import MiniScheme.Value
import MiniScheme.Fault

/-!
# Code

Procedures are compiled to a byte stream: an opcode and its operands, each four bytes, most
significant byte first. Jumps are relative, so code can be joined freely. A table beside the
bytes records the source positions of calls, by offset and in ascending order.
-/

namespace MiniScheme

/-- The instructions of the machine. -/
inductive Op where
  /-- Push a constant of the current procedure. -/
  | constant
  /-- Push slot `index` of the invocation `depth` levels up. -/
  | variable
  /-- Pop into slot `index` of the invocation `depth` levels up. -/
  | setVariable
  /-- Save the operand count on the stack and start a new one. -/
  | resetOperandCount
  /-- Call the procedure below the pending operands, saving the return address. -/
  | call
  /-- Call in place of the current frame. -/
  | tailCall
  /-- Pop the result and resume the caller. -/
  | return
  /-- Push a closure over a lambda constant. -/
  | lambda
  | pop
  /-- Branch by a signed offset from the end of the instruction. -/
  | jump
  /-- Pop, and branch if the value is false. -/
  | conditionalJump
  /-- Stop and hand the popped value to the embedding application. -/
  | exit
  /-- Stop without a value. -/
  | lambdaExit
  deriving DecidableEq, Repr, Inhabited

namespace Op

/-- The instructions in the order of their opcodes. -/
def all : List Op :=
  [.constant, .variable, .setVariable, .resetOperandCount, .call, .tailCall, .return, .lambda, .pop,
    .jump, .conditionalJump, .exit, .lambdaExit]

def toByte : Op → UInt8
  | .constant => 0
  | .variable => 1
  | .setVariable => 2
  | .resetOperandCount => 3
  | .call => 4
  | .tailCall => 5
  | .return => 6
  | .lambda => 7
  | .pop => 8
  | .jump => 9
  | .conditionalJump => 10
  | .exit => 11
  | .lambdaExit => 12

def ofByte? (byte : UInt8) : Option Op :=
  match byte with
  | 0 => some .constant
  | 1 => some .variable
  | 2 => some .setVariable
  | 3 => some .resetOperandCount
  | 4 => some .call
  | 5 => some .tailCall
  | 6 => some .return
  | 7 => some .lambda
  | 8 => some .pop
  | 9 => some .jump
  | 10 => some .conditionalJump
  | 11 => some .exit
  | 12 => some .lambdaExit
  | _ => none

def name : Op → String
  | .constant => "Constant"
  | .variable => "Variable"
  | .setVariable => "SetVariable"
  | .resetOperandCount => "ResetOperandCount"
  | .call => "Call"
  | .tailCall => "TailCall"
  | .return => "Return"
  | .lambda => "Lambda"
  | .pop => "Pop"
  | .jump => "Jump"
  | .conditionalJump => "ConditionalJump"
  | .exit => "Exit"
  | .lambdaExit => "LambdaExit"

def operandCount : Op → Nat
  | .variable => 2
  | .setVariable => 2
  | .constant => 1
  | .lambda => 1
  | .jump => 1
  | .conditionalJump => 1
  | _ => 0

def size (op : Op) : Nat :=
  1 + 4 * op.operandCount

theorem size_pos (op : Op) : 0 < op.size := by
  unfold size
  omega

@[simp] theorem ofByte?_toByte (op : Op) : ofByte? op.toByte = some op := by
  cases op <;> rfl

end Op

def encodeOperand (operand : Int32) : List UInt8 :=
  let word := operand.toUInt32.toNat
  [UInt8.ofNat (word / 0x1000000), UInt8.ofNat (word / 0x10000), UInt8.ofNat (word / 0x100),
    UInt8.ofNat word]

def decodeOperand (first second third fourth : UInt8) : Int32 :=
  (UInt32.ofNat (first.toNat * 0x1000000 + second.toNat * 0x10000 + third.toNat * 0x100 +
    fourth.toNat)).toInt32

/-- A stream of instructions and the source positions of its calls. -/
structure Bytecode where
  bytes : Array UInt8 := #[]
  /-- Offsets of instructions and their positions, offsets ascending. -/
  positions : Array (Nat × Position) := #[]
  deriving Repr, Inhabited

namespace Bytecode

def size (code : Bytecode) : Nat :=
  code.bytes.size

def isEmpty (code : Bytecode) : Bool :=
  code.bytes.isEmpty

def ofOp (op : Op) (operands : List Int32 := []) : Bytecode :=
  { bytes := (op.toByte :: operands.flatMap encodeOperand).toArray }

/-- An instruction without operands that is attributed to a position. -/
def ofOpAt (op : Op) (position : Position) : Bytecode :=
  { bytes := #[op.toByte], positions := #[(0, position)] }

def append (first second : Bytecode) : Bytecode :=
  match first with
  | { bytes, positions } =>
    let shift := bytes.size
    { bytes := bytes ++ second.bytes
      positions := positions ++
        second.positions.map fun (offset, position) => (offset + shift, position) }

instance : Append Bytecode := ⟨append⟩

def op? (code : Bytecode) (offset : Nat) : Option Op :=
  code.bytes[offset]?.bind Op.ofByte?

def operand? (code : Bytecode) (offset : Nat) : Option Int32 :=
  match code.bytes[offset]?, code.bytes[offset + 1]?, code.bytes[offset + 2]?,
    code.bytes[offset + 3]? with
  | some first, some second, some third, some fourth =>
    some (decodeOperand first second third fourth)
  | _, _, _, _ => none

/-- The position recorded closest before an offset, or at it. -/
def position? (code : Bytecode) (offset : Nat) : Option Position :=
  (code.positions.toList.reverse.find? fun entry => entry.1 ≤ offset).map Prod.snd

end Bytecode

mutual

/-- Compile-time constants of a procedure. -/
inductive Constant where
  | value (value : Value)
  | lambda (lambda : Lambda)

/-- A compiled procedure. -/
structure Lambda where
  name : Option String
  argumentCount : Nat
  /-- Whether surplus arguments are collected into a list. -/
  rest : Bool
  /-- The number of slots for arguments and internal definitions. -/
  slotCount : Nat
  constants : Array Constant
  body : Bytecode

end

/-- A procedure without name, arguments, constants and code. -/
def Lambda.empty : Lambda :=
  { name := none, argumentCount := 0, rest := false, slotCount := 0, constants := #[], body := {} }

instance : Inhabited Lambda := ⟨Lambda.empty⟩

instance : Inhabited Constant := ⟨.value .unspecified⟩

theorem Lambda.sizeOf_lt_of_mem {lam inner : Lambda} (held : .lambda inner ∈ lam.constants) :
    sizeOf inner < sizeOf lam := by
  have smaller := Array.sizeOf_lt_of_mem held
  obtain ⟨name, argumentCount, rest, slotCount, constants, body⟩ := lam
  simp only [Constant.lambda.sizeOf_spec, Lambda.mk.sizeOf_spec] at smaller ⊢
  omega

def Lambda.arity (lambda : Lambda) : Arity :=
  { required := lambda.argumentCount, variadic := lambda.rest }

mutual

/-- The handles among the constants of a procedure and of the procedures nested in it. -/
def Lambda.handles : Lambda → List Handle
  | { constants := ⟨constants⟩, .. } => constantHandles constants

def Constant.handles : Constant → List Handle
  | .value value => value.handle?.toList
  | .lambda lambda => lambda.handles

def constantHandles : List Constant → List Handle
  | [] => []
  | constant :: constants => constant.handles ++ constantHandles constants

end

end MiniScheme
