import MiniScheme.Proofs.Code.Instructions
import Mathlib.Algebra.GroupWithZero.Nat

/-!
# What a verifier asks of code

Code can be checked without running it. It has to fall into instructions with all their operands,
which refer to what there is; jumps have to lead to instructions; and what lies on the operand stack
where an instruction starts must not depend on how control got there. A call in tail position is
taken to come back like any other call, so this is asked of the code after it as well.
-/

namespace MiniScheme

/-- What code is the body of. -/
inductive Level where
  | script
  | procedure
  deriving DecidableEq, Repr

/-- Where code stands. -/
structure Setting where
  level : Level
  /-- The number of slots of each enclosing scope, innermost first. -/
  shape : List Nat
  pool : Array Constant

/-- The setting of the body of a procedure, given the scopes around it. -/
def Lambda.setting (lambda : Lambda) (shape : List Nat) : Setting :=
  { level := .procedure, shape := lambda.slotCount :: shape, pool := lambda.constants }

/-- `lambda.Nests inner`: the procedure is the other one or contains it. -/
inductive Lambda.Nests : Lambda → Lambda → Prop where
  | self {lambda : Lambda} : Nests lambda lambda
  | inside {lambda middle inner : Lambda} (member : .lambda middle ∈ lambda.constants)
      (nests : Nests middle inner) : Nests lambda inner

/-- Operands can count the bytes and the slots of the procedure and of all those in it. -/
def Lambda.Fits (lambda : Lambda) : Prop :=
  ∀ inner, lambda.Nests inner →
    inner.body.size < operandLimit ∧ inner.slotCount ≤ operandLimit

theorem Lambda.Fits.inside {lam inner : Lambda} (fits : lam.Fits)
    (mem : .lambda inner ∈ lam.constants) : inner.Fits :=
  fun _ nests => fits _ (.inside mem nests)

/-- What lies on the operand stack: operands, and the counts saved below them. -/
structure Height where
  /-- The number of operands since a count was last saved. -/
  count : Nat
  saved : List Nat
  deriving DecidableEq, Repr

def Height.empty : Height := ⟨0, []⟩

/-- The height of a stack with a single operand. -/
def Height.single : Height := ⟨1, []⟩

/-- How many values there are, with the saved counts. -/
def Height.size (height : Height) : Nat :=
  height.count + height.saved.sum + height.saved.length

namespace Op

/-- The stack after an instruction, if the stack before has what the instruction takes. A body is
left with nothing on the stack but the value that it hands over. -/
def effect : Op → Height → Option Height
  | .constant, ⟨count, saved⟩ => some ⟨count + 1, saved⟩
  | .variable, ⟨count, saved⟩ => some ⟨count + 1, saved⟩
  | .lambda, ⟨count, saved⟩ => some ⟨count + 1, saved⟩
  | .setVariable, ⟨count + 1, saved⟩ => some ⟨count, saved⟩
  | .pop, ⟨count + 1, saved⟩ => some ⟨count, saved⟩
  | .conditionalJump, ⟨count + 1, saved⟩ => some ⟨count, saved⟩
  | .resetOperandCount, ⟨count, saved⟩ => some ⟨0, count :: saved⟩
  | .call, ⟨_ + 1, count :: saved⟩ => some ⟨count + 1, saved⟩
  | .tailCall, ⟨_ + 1, count :: saved⟩ => some ⟨count + 1, saved⟩
  | .jump, height => some height
  | .return, ⟨1, []⟩ => some .empty
  | .exit, ⟨1, []⟩ => some .empty
  | .lambdaExit, ⟨0, []⟩ => some .empty
  | _, _ => none

/-- Whether the instruction behind this one may be the next. -/
def continues : Op → Bool
  | .jump | .return | .exit | .lambdaExit => false
  | _ => true

/-- Whether the instruction may lead elsewhere. -/
def branches : Op → Bool
  | .jump | .conditionalJump => true
  | _ => false

/-- What code has to be the body of to have that instruction, if it matters. -/
def level? : Op → Option Level
  | .return | .tailCall => some .procedure
  | .exit | .lambdaExit => some .script
  | _ => none

/-- An instruction leaves at most one value more than it finds. -/
theorem size_effect {op : Op} {height height' : Height}
    (effect : op.effect height = some height') : height'.size ≤ height.size + 1 := by
  unfold Op.effect at effect
  split at effect <;> cases effect <;>
    simp only [Height.size, Height.empty, List.sum_cons, List.length_cons, List.sum_nil,
      List.length_nil] <;> omega

end Op

namespace Instruction

/-- Where the instruction leads if it stands at an offset and branches. -/
def target? (instruction : Instruction) (offset : Nat) : Option Int :=
  match instruction.op.branches, instruction.operands with
  | true, [distance] => some ((offset + instruction.op.size : Nat) + distance.toInt)
  | _, _ => none

theorem target?_add (instr : Instruction) (base offset : Nat) :
    instr.target? (base + offset) = (instr.target? offset).map ((base : Int) + ·) := by
  rw [target?, target?]
  split
  · rw [Option.map_some, Nat.add_assoc, Int.natCast_add, Int.add_assoc]
  · rfl

/-- The operands refer to what there is: a value or a procedure of the pool, or a slot of a scope. -/
def Suits (setting : Setting) (instruction : Instruction) : Prop :=
  match instruction.op, instruction.operands with
  | .constant, [place] => ∃ (index : Nat) (value : Value),
      place.toInt = index ∧ setting.pool[index]? = some (.value value)
  | .lambda, [place] => ∃ (index : Nat) (inner : Lambda),
      place.toInt = index ∧ setting.pool[index]? = some (.lambda inner)
  | .variable, [depth, slot] => ∃ level index size : Nat,
      depth.toInt = level ∧ slot.toInt = index ∧ setting.shape[level]? = some size ∧ index < size
  | .setVariable, [depth, slot] => ∃ level index size : Nat,
      depth.toInt = level ∧ slot.toInt = index ∧ setting.shape[level]? = some size ∧ index < size
  | _, _ => True

/-- The instruction makes closures of a procedure of the pool. -/
inductive Makes (pool : Array Constant) (inner : Lambda) : Instruction → Prop where
  | lambda {place : Int32} {complete : [place].length = Op.lambda.operandCount}
      (found : pool[Machine.index place]? = some (.lambda inner)) :
      Makes pool inner ⟨.lambda, [place], complete⟩

end Instruction

namespace Bytecode

/-- `code.Flows offset height offset' height'`: from one place, with a stack of some height, control
gets to the other in one step. -/
inductive Flows (code : Bytecode) : Nat → Height → Nat → Height → Prop where
  | next {offset : Nat} {instruction : Instruction} {height height' : Height}
      (found : code.instruction? offset = some instruction)
      (continues : instruction.op.continues = true)
      (effect : instruction.op.effect height = some height') :
      Flows code offset height (offset + instruction.op.size) height'
  | branch {offset target : Nat} {instruction : Instruction} {height height' : Height}
      (found : code.instruction? offset = some instruction)
      (leads : instruction.target? offset = some target)
      (effect : instruction.op.effect height = some height') :
      Flows code offset height target height'

/-- `code.Reaches offset height`: some path from the beginning, where the stack is empty, gets to the
offset with a stack of that height. -/
inductive Reaches (code : Bytecode) : Nat → Height → Prop where
  | entry : Reaches code 0 .empty
  | flow {offset offset' : Nat} {height height' : Height} (reaches : Reaches code offset height)
      (flows : Flows code offset height offset' height') : Reaches code offset' height'

/-- Nothing but jumps lead from an offset to an instruction that leaves the procedure. -/
inductive Returns (code : Bytecode) : Nat → Prop where
  | here {offset : Nat} (found : code.op? offset = some .return) : Returns code offset
  | jump {offset target : Nat} {instruction : Instruction}
      (found : code.instruction? offset = some instruction) (jump : instruction.op = .jump)
      (leads : instruction.target? offset = some target) (there : Returns code target) :
      Returns code offset

variable {code : Bytecode} {offset : Nat}

theorem Returns.append (returns : code.Returns offset) (front : Bytecode) :
    (front ++ code).Returns (front.size + offset) := by
  induction returns with
  | here found => exact .here (by rw [op?, byte_append_right]; exact found)
  | jump found jump leads _ ih =>
    refine .jump (by rw [instruction?_append_right, found]) jump ?_ ih
    rw [Instruction.target?_add, leads]
    rfl

theorem Returns.lt_size (returns : code.Returns offset) : offset < code.size := by
  cases returns with
  | here found => exact lt_size_of_op? found
  | jump found => exact lt_size_of_op? (op?_of_instruction? found)

/-- The code passes the verifier as a body in a setting. -/
structure Passes (code : Bytecode) (setting : Setting) : Prop where
  /-- Instructions follow each other without a gap up to the end. -/
  ends : code.Starts code.size
  complete (offset : Nat) : code.Starts offset → offset ≠ code.size →
    ∃ instruction, code.instruction? offset = some instruction
  suits (offset : Nat) (instruction : Instruction) : code.Starts offset →
    code.instruction? offset = some instruction → instruction.Suits setting
  branches (offset : Nat) (instruction : Instruction) (target : Int) : code.Starts offset →
    code.instruction? offset = some instruction → instruction.target? offset = some target →
      ∃ start : Nat, target = start ∧ code.Starts start ∧ start < code.size
  /-- Control stays within the code. -/
  inside (offset : Nat) (height : Height) : code.Reaches offset height →
    code.Starts offset ∧ offset < code.size
  /-- Every path to an offset leaves the same on the stack. -/
  unique (offset : Nat) (height height' : Height) : code.Reaches offset height →
    code.Reaches offset height' → height = height'
  /-- No instruction lacks operands. -/
  supplied (offset : Nat) (height : Height) (instruction : Instruction) :
    code.Reaches offset height → code.instruction? offset = some instruction →
      ∃ height', instruction.op.effect height = some height'
  leaves (offset : Nat) (height : Height) : code.Reaches offset height →
    (code.op? offset = some .return ∨ code.op? offset = some .exit → height = .single) ∧
      (code.op? offset = some .lambdaExit → height = .empty)
  tailCalls (offset : Nat) : code.Starts offset → code.op? offset = some .tailCall →
    code.Returns (offset + Op.tailCall.size)

/-- Where nothing is left to do but to leave, there is a single value. -/
theorem Returns.single {setting : Setting} {height : Height} (returns : code.Returns offset)
    (passes : code.Passes setting) (reaches : code.Reaches offset height) : height = .single := by
  induction returns with
  | here found => exact (passes.leaves _ height reaches).1 (.inl found)
  | jump found jump leads _ ih => exact ih (.flow reaches (.branch found leads (by rw [jump]; rfl)))

/-- The code passes the verifier and has the instructions of a body of its kind. No more values are on
the stack than there are bytes before. -/
structure Sane (code : Bytecode) (setting : Setting) : Prop extends Passes code setting where
  level (offset : Nat) (op : Op) : code.Starts offset → code.op? offset = some op →
    ∀ level, op.level? = some level → setting.level = level
  height (offset : Nat) (height : Height) : code.Reaches offset height → height.size ≤ offset
  small : code.size ≤ operandLimit

/-- The code is sane, and so are the procedures that it makes closures of. -/
inductive Proper : Bytecode → Setting → Prop where
  | intro {code : Bytecode} {setting : Setting} (sane : code.Sane setting)
      (nested : ∀ offset instruction inner, code.Starts offset →
        code.instruction? offset = some instruction → instruction.Makes setting.pool inner →
          Proper inner.body (inner.setting setting.shape)) : Proper code setting

end Bytecode

/-- The procedure and all those in it pass the verifier, given the slots of the scopes around it. -/
inductive Lambda.Passes : Lambda → List Nat → Prop where
  | intro {lambda : Lambda} {shape : List Nat} (body : lambda.body.Passes (lambda.setting shape))
      (nested : ∀ inner, .lambda inner ∈ lambda.constants →
        Lambda.Passes inner (lambda.slotCount :: shape)) : Lambda.Passes lambda shape

end MiniScheme
