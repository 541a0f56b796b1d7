import Mathlib.Data.List.Induction
import MiniScheme.Proofs.Code.Operands

/-!
# Instructions

Code is a list of instructions with their operands. Where an instruction starts is told by the bytes
of those before it.
-/

namespace MiniScheme

/-- What holds of the items of two lists by what is before them, holds in the list of both. -/
theorem forall_splits_append {α : Type} {first second : List α} {good : List α → α → Prop}
    (here : ∀ front item back, first = front ++ item :: back → good front item)
    (there : ∀ front item back, second = front ++ item :: back → good (first ++ front) item)
    (front : List α) (item : α) (back : List α) (same : first ++ second = front ++ item :: back) :
    good front item := by
  rcases List.append_eq_append_iff.mp same with ⟨rest, rfl, split⟩ | ⟨rest, rfl, split⟩
  · exact there rest item back split
  · cases rest with
    | nil =>
      rw [List.append_nil] at there
      have last := there [] item back split.symm
      rwa [List.append_nil] at last
    | cons other rest =>
      cases split
      exact here front item rest rfl

/-- An instruction with all its operands. -/
structure Instruction where
  op : Op
  operands : List Int32
  complete : operands.length = op.operandCount

namespace Instruction

def stream (instruction : Instruction) : List UInt8 :=
  (Bytecode.ofOp instruction.op instruction.operands).stream

@[simp] theorem length_stream (instr : Instruction) : instr.stream.length = instr.op.size := by
  rw [stream, Bytecode.length_stream, Bytecode.size_ofOp, instr.complete, Op.size]

/-- The bytes of instructions, one after the other. -/
def bytes (instructions : List Instruction) : List UInt8 :=
  instructions.flatMap stream

def extent (instructions : List Instruction) : Nat :=
  (bytes instructions).length

@[simp] theorem extent_nil : extent [] = 0 := rfl

@[simp] theorem extent_cons (instr : Instruction) (instructions : List Instruction) :
    extent (instr :: instructions) = instr.op.size + extent instructions := by
  simp [extent, bytes]

@[simp] theorem extent_append (front back : List Instruction) :
    extent (front ++ back) = extent front + extent back := by
  simp [extent, bytes]

end Instruction

namespace Bytecode

/-- A number of operands from an offset on. -/
def operands? (code : Bytecode) (offset : Nat) : Nat → Option (List Int32)
  | 0 => some []
  | count + 1 =>
    match code.operand? offset, code.operands? (offset + 4) count with
    | some operand, some operands => some (operand :: operands)
    | _, _ => none

/-- The instruction at an offset, if it is there with all its operands. -/
def instruction? (code : Bytecode) (offset : Nat) : Option Instruction :=
  match code.op? offset with
  | none => none
  | some op => match code.operands? (offset + 1) op.operandCount with
    | none => none
    | some operands =>
      if complete : operands.length = op.operandCount then some { op, operands, complete }
      else none

variable {code first : Bytecode} {offset : Nat} {bytes : List UInt8}

theorem operands?_of_rest (operands : List Int32)
    (left : code.rest offset = operands.flatMap encodeOperand ++ bytes) :
    code.operands? offset operands.length = some operands := by
  induction operands generalizing offset with
  | nil => rfl
  | cons operand operands ih =>
    rw [List.flatMap_cons, List.append_assoc] at left
    have others := ih (rest_add (encodeOperand operand) left)
    rw [length_encodeOperand] at others
    rw [List.length_cons, operands?, operand?_of_rest left, others]

variable {instr : Instruction}

theorem instruction?_of_rest (left : code.rest offset = instr.stream ++ bytes) :
    code.instruction? offset = some instr := by
  rw [Instruction.stream, stream_ofOp, List.cons_append] at left
  have operands := operands?_of_rest instr.operands (rest_add [instr.op.toByte] left)
  rw [List.length_singleton, instr.complete] at operands
  simp only [instruction?, op?_of_rest left, operands, instr.complete, dite_true]

theorem read_of_instruction? (found : code.instruction? offset = some instr) :
    code.op? offset = some instr.op ∧
      code.operands? (offset + 1) instr.op.operandCount = some instr.operands := by
  rw [instruction?] at found
  split at found
  · cases found
  · rename_i op present
    split at found
    · cases found
    · rename_i operands read
      split at found
      · cases found
        exact ⟨present, read⟩
      · cases found

theorem op?_of_instruction? (found : code.instruction? offset = some instr) :
    code.op? offset = some instr.op :=
  (read_of_instruction? found).1

theorem operand?_of_operands? {n : Nat} {operand : Int32} {operands : List Int32}
    (found : code.operands? offset (n + 1) = some (operand :: operands)) :
    code.operand? offset = some operand ∧ code.operands? (offset + 4) n = some operands := by
  rw [operands?] at found
  split at found
  · cases found
    exact ⟨‹_›, ‹_›⟩
  · cases found

theorem byte_append_right (first second : Bytecode) (offset : Nat) :
    (first ++ second).bytes[first.size + offset]? = second.bytes[offset]? := by
  change (first.bytes ++ second.bytes)[first.bytes.size + offset]? = _
  rw [Array.getElem?_append_right (Nat.le_add_right ..), Nat.add_sub_cancel_left]

theorem byte_append_left {byte : UInt8} (found : first.bytes[offset]? = some byte)
    (second : Bytecode) : (first ++ second).bytes[offset]? = some byte := by
  change (first.bytes ++ second.bytes)[offset]? = _
  rw [Array.getElem?_append_left (Array.getElem?_eq_some_iff.mp found).1, found]

theorem operands?_append_right (first second : Bytecode) (offset n : Nat) :
    (first ++ second).operands? (first.size + offset) n = second.operands? offset n := by
  induction n generalizing offset with
  | zero => rfl
  | succ n ih => simp only [operands?, operand?, Nat.add_assoc, byte_append_right, ih]

theorem operands?_append_left {n : Nat} {operands : List Int32}
    (found : first.operands? offset n = some operands) (second : Bytecode) :
    (first ++ second).operands? offset n = some operands := by
  induction n generalizing offset operands with
  | zero => exact found
  | succ n ih =>
    simp only [operands?, operand?] at found ⊢
    split at found
    · rename_i operand others read rest
      split at read
      · rename_i one two three four
        simp only [byte_append_left one second, byte_append_left two second,
          byte_append_left three second, byte_append_left four second, ih rest]
        cases read
        exact found
      · cases read
    · cases found

theorem instruction?_append_right (first second : Bytecode) (offset : Nat) :
    (first ++ second).instruction? (first.size + offset) = second.instruction? offset := by
  simp only [instruction?, op?, byte_append_right, Nat.add_assoc, operands?_append_right]

theorem instruction?_append_left (found : first.instruction? offset = some instr)
    (second : Bytecode) : (first ++ second).instruction? offset = some instr := by
  simp only [instruction?, op?] at found ⊢
  split at found
  · cases found
  · rename_i op read
    obtain ⟨byte, present, known⟩ := Option.bind_eq_some_iff.mp read
    split at found
    · cases found
    · rename_i operands others
      simp only [byte_append_left present second, Option.bind_some, known,
        operands?_append_left others second]
      exact found

theorem op?_size (code : Bytecode) : code.op? code.size = none := by
  rw [op?, size, Array.getElem?_eq_none (Nat.le_refl _)]
  rfl

/-- Where instructions start if one starts at the beginning, and each where the one before ends. -/
inductive Starts (code : Bytecode) : Nat → Prop where
  | first : Starts code 0
  | next {offset : Nat} {instruction : Instruction} (start : Starts code offset)
      (found : code.instruction? offset = some instruction) :
      Starts code (offset + instruction.op.size)

theorem lt_size_of_op? {op : Op} (found : code.op? offset = some op) : offset < code.size := by
  obtain ⟨byte, present, -⟩ := Option.bind_eq_some_iff.mp found
  exact (Array.getElem?_eq_some_iff.mp present).1

def Lists (code : Bytecode) (instructions : List Instruction) : Prop :=
  code.stream = Instruction.bytes instructions

namespace Lists

variable {second : Bytecode} {instructions others front back : List Instruction}

theorem one (instr : Instruction) : (ofOp instr.op instr.operands).Lists [instr] :=
  (List.append_nil _).symm

theorem append (lists : first.Lists instructions) (lists' : second.Lists others) :
    (first ++ second).Lists (instructions ++ others) := by
  rw [Lists, stream_append, lists, lists']
  exact List.flatMap_append.symm

theorem size (lists : code.Lists instructions) : code.size = Instruction.extent instructions :=
  congrArg List.length lists

theorem found (lists : code.Lists (front ++ instr :: back)) :
    code.instruction? (Instruction.extent front) = some instr := by
  have left : code.rest 0 = Instruction.bytes front ++
      (instr.stream ++ Instruction.bytes back) := by
    rw [rest_zero, lists, Instruction.bytes, List.flatMap_append, List.flatMap_cons]
    rfl
  have here := rest_add _ left
  rw [Nat.zero_add] at here
  exact instruction?_of_rest here

theorem starts (lists : code.Lists (front ++ back)) : code.Starts (Instruction.extent front) := by
  induction front using List.reverseRecOn generalizing back with
  | nil => exact .first
  | append_singleton front instr ih =>
    rw [List.append_assoc] at lists
    rw [Instruction.extent_append, Instruction.extent_cons]
    exact (ih lists).next lists.found

theorem split (lists : code.Lists instructions) (start : code.Starts offset) :
    ∃ front back, instructions = front ++ back ∧ offset = Instruction.extent front := by
  induction start with
  | first => exact ⟨[], instructions, rfl, rfl⟩
  | @next _ instr _ found ih =>
    obtain ⟨front, back, rfl, rfl⟩ := ih
    cases back with
    | nil =>
      have none := op?_size code
      rw [lists.size, List.append_nil, op?_of_instruction? found] at none
      cases none
    | cons other back =>
      cases found.symm.trans lists.found
      exact ⟨front ++ [instr], back, by simp, by simp⟩

end Lists

attribute [ext] Bytecode

theorem positions_append (first second : Bytecode) :
    (first ++ second).positions = first.positions ++
      second.positions.map fun (offset, pos) => (offset + first.size, pos) := rfl

theorem nil_append (code : Bytecode) : {} ++ code = code :=
  Bytecode.ext (by simp [bytes_append]) (by simp [positions_append, size])

theorem append_nil (code : Bytecode) : code ++ {} = code :=
  Bytecode.ext (by simp [bytes_append]) (by simp [positions_append])

theorem append_assoc (first second third : Bytecode) :
    first ++ second ++ third = first ++ (second ++ third) := by
  refine Bytecode.ext (by simp [bytes_append]) ?_
  simp [positions_append, Function.comp_def, Nat.add_comm, Nat.add_left_comm]

end Bytecode

end MiniScheme
