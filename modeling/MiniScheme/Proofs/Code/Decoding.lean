import MiniScheme.Code.Listing
import MiniScheme.Proofs.Code.Attribution
import Mathlib.Algebra.GroupWithZero.Nat

/-!
# Reading code back

Code is put together from instructions and from other code. However it came about, stepping through
it from the start gives back the instructions that were written, each behind those before it, the
listing shows them in this way, and positions have moved along with the instructions that they were
given to.
-/

namespace MiniScheme

/-- How code is put together. Only instructions without operands are attributed to positions. -/
inductive Assembly where
  | nothing
  | emit (front : Assembly) (instruction : Instruction)
  | emitAt (front : Assembly) (op : Op) (bare : op.operandCount = 0) (position : Position)
  | append (first second : Assembly)

namespace Assembly

def code : Assembly → Bytecode
  | .nothing => {}
  | .emit front instruction => front.code ++ .ofOp instruction.op instruction.operands
  | .emitAt front op _ position => front.code ++ .ofOpAt op position
  | .append first second => first.code ++ second.code

/-- What was written, in order, and to which positions it was attributed. -/
def entries : Assembly → List (Instruction × Option Position)
  | .nothing => []
  | .emit front instruction => front.entries ++ [(instruction, none)]
  | .emitAt front op bare position => front.entries ++ [(⟨op, [], bare.symm⟩, some position)]
  | .append first second => first.entries ++ second.entries

def instructions (assembly : Assembly) : List Instruction :=
  assembly.entries.map Prod.fst

end Assembly

namespace Instruction

/-- Instructions with their offsets, the first at the given one. -/
def placed (offset : Nat) : List Instruction → List (Nat × Instruction)
  | [] => []
  | instruction :: others =>
    (offset, instruction) :: placed (offset + instruction.op.size) others

/-- The line of an instruction in a listing. -/
def line (offset : Nat) (instruction : Instruction) : String :=
  offsetText offset ++ " " ++ instruction.op.name ++
    String.join (instruction.operands.map fun operand => " " ++ toString operand.toInt)

end Instruction

namespace Bytecode

open Instruction

variable {code first second : Bytecode} {offset : Nat}

/-- The instructions from an offset on, each read where the one before it ends. -/
def decodeFrom (code : Bytecode) (offset : Nat) : List (Nat × Instruction) :=
  match _ : code.instruction? offset with
  | none => []
  | some instruction => (offset, instruction) :: code.decodeFrom (offset + instruction.op.size)
termination_by code.size - offset
decreasing_by
  rename_i found
  have inside := lt_size_of_op? (op?_of_instruction? found)
  have positive := instruction.op.size_pos
  omega

theorem decodeFrom_of_none (none_here : code.instruction? offset = none) :
    code.decodeFrom offset = [] := by
  rw [decodeFrom]
  split
  · rfl
  · simp_all

theorem decodeFrom_of_some {instr : Instruction} (found : code.instruction? offset = some instr) :
    code.decodeFrom offset = (offset, instr) :: code.decodeFrom (offset + instr.op.size) := by
  rw [decodeFrom]
  split <;> simp_all

/-! ### Operands in listings -/

theorem operand?_eq_getElem? {operands : List Int32} {n : Nat}
    (found : code.operands? offset n = some operands) :
    ∀ place < n, code.operand? (offset + 4 * place) = operands[place]? := by
  induction n generalizing offset operands with
  | zero => exact nofun
  | succ n ih =>
    intro place inside
    rw [operands?] at found
    split at found
    · rename_i operand others here there
      cases found
      cases place with
      | zero => exact here
      | succ place =>
        rw [List.getElem?_cons_succ, ← ih there place (Nat.lt_of_succ_lt_succ inside)]
        congr 1
        omega
    · cases found

/-- Writing operands one after the other gives all of them. -/
theorem foldl_operands (operands : List Int32) (read : Nat → Option Int32) (text : String)
    (found : ∀ place < operands.length, read place = operands[place]?) :
    (List.range operands.length).foldl (fun text place => match read place with
      | some operand => text ++ " " ++ toString operand.toInt
      | none => text) text =
    text ++ String.join (operands.map fun operand => " " ++ toString operand.toInt) := by
  induction operands generalizing text read with
  | nil => simp
  | cons operand operands ih =>
    have first : read 0 = some operand := found 0 (Nat.succ_pos _)
    have others := ih (fun place => read (place + 1)) (text ++ " " ++ toString operand.toInt)
      fun place inside => found (place + 1) (Nat.succ_lt_succ inside)
    rw [List.length_cons, List.range_succ_eq_map, List.foldl_cons, List.foldl_map, first]
    simp only [others]
    simp [String.append_assoc]

theorem line_of_instruction? {instr : Instruction} (found : code.instruction? offset = some instr) :
    offsetText offset ++ " " ++ instr.op.name ++ code.operandTexts instr.op offset =
      instr.line offset := by
  have operands := operand?_eq_getElem? (read_of_instruction? found).2
  rw [← instr.complete] at operands
  have texts := foldl_operands instr.operands _ "" operands
  rw [instr.complete, String.empty_append] at texts
  rw [line, ← texts]
  rfl

/-! ### Code that consists of instructions -/

namespace Lists

variable {front back : List Instruction} (lists : code.Lists (front ++ back))

include lists

/-- Stepping through the code behind some of the instructions gives the others. -/
theorem decodeFrom_eq : code.decodeFrom (extent front) = placed (extent front) back := by
  induction back generalizing front with
  | nil =>
    rw [List.append_nil] at lists
    apply decodeFrom_of_none
    rw [instruction?, ← lists.size, op?_size]
  | cons instr back ih =>
    have next := @ih (front ++ [instr]) (by simpa using lists)
    rw [extent_append, extent_cons, extent_nil, Nat.add_zero] at next
    rw [decodeFrom_of_some lists.found, next, placed]

/-- The listing behind some of the instructions shows the others. -/
theorem linesFrom_eq : code.linesFrom (extent front) =
    (placed (extent front) back).map fun (offset, instr) => instr.line offset := by
  induction back generalizing front with
  | nil =>
    rw [List.append_nil] at lists
    have ended : ¬extent front < code.bytes.size := Nat.not_lt_of_le (Nat.le_of_eq lists.size)
    rw [linesFrom, dif_neg ended]
    rfl
  | cons instr back ih =>
    have next := @ih (front ++ [instr]) (by simpa using lists)
    rw [extent_append, extent_cons, extent_nil, Nat.add_zero] at next
    have fetched := op?_of_instruction? lists.found
    have inside : extent front < code.bytes.size := lt_size_of_op? fetched
    rw [linesFrom, dif_pos inside]
    simp only [fetched, line_of_instruction? lists.found, next]
    rfl

end Lists

/-- The code consists of the instructions, and each finds the position that it was given. -/
structure Carries (code : Bytecode) (entries : List (Instruction × Option Position)) : Prop where
  lists : code.Lists (entries.map Prod.fst)
  found : ∀ front entry back, entries = front ++ entry :: back → ∀ position ∈ entry.2,
    code.position? (extent (front.map Prod.fst)) = some position

namespace Carries

variable {entries others : List (Instruction × Option Position)}

theorem nothing : ({} : Bytecode).Carries [] :=
  ⟨rfl, fun _ _ _ same => absurd same (by simp)⟩

theorem plain (instr : Instruction) : (ofOp instr.op instr.operands).Carries [(instr, none)] := by
  refine ⟨.one instr, fun front e back same pos marked => ?_⟩
  have mem : e ∈ [(instr, none)] := same ▸ List.mem_append_cons_self
  rw [List.mem_singleton.mp mem] at marked
  cases marked

theorem marked {op : Op} (bare : op.operandCount = 0) (pos : Position) :
    (ofOpAt op pos).Carries [(⟨op, [], bare.symm⟩, some pos)] := by
  refine ⟨.one ⟨op, [], bare.symm⟩, fun front e back same found marked => ?_⟩
  obtain ⟨rfl, single⟩ | ⟨-, none⟩ := List.append_eq_singleton_iff.mp same.symm
  · cases single
    cases marked
    rfl
  · cases none

theorem append (carries : first.Carries entries) (carries' : second.Carries others) :
    (first ++ second).Carries (entries ++ others) := by
  have size := carries.lists.size
  refine ⟨List.map_append ▸ carries.lists.append carries'.lists, forall_splits_append ?_ ?_⟩
  · rintro front e back rfl pos marked
    rw [position?_append_left, carries.found front e back rfl pos marked]
    have positive := e.1.op.size_pos
    simp only [List.map_append, List.map_cons, extent_append, extent_cons] at size
    omega
  · intro front e back same pos marked
    rw [List.map_append, extent_append, ← size]
    exact position?_append_right first (carries'.found front e back same pos marked)

end Carries

end Bytecode

open Bytecode Instruction

theorem extent_eq_sum (instructions : List Instruction) :
    extent instructions = (instructions.map fun instr => instr.op.size).sum := by
  induction instructions with
  | nil => rfl
  | cons instr instructions ih => rw [extent_cons, ih, List.map_cons, List.sum_cons]

theorem joinLines_eq (lines : List String) :
    joinLines lines = String.join (lines.map (· ++ "\n")) := by
  simp [joinLines, String.join, List.foldl_map, String.append_assoc]

theorem Assembly.carries (assembly : Assembly) : assembly.code.Carries assembly.entries := by
  induction assembly with
  | nothing => exact .nothing
  | emit _ instr ih => exact ih.append (.plain instr)
  | emitAt _ op bare pos ih => exact ih.append (.marked bare pos)
  | append _ _ ih ih' => exact ih.append ih'

/-- Code that was put together in any way reads back as the instructions that were written: stepping
through it gives each at the sum of the sizes before it and ends where the code does, the listing has
them one in a line, and where an instruction was attributed to a position, it is found. -/
theorem Assembly.decodes (assembly : Assembly) :
    assembly.code.decodeFrom 0 = placed 0 assembly.instructions ∧
    assembly.code.size = (assembly.instructions.map fun instruction => instruction.op.size).sum ∧
    assembly.code.listing = String.join ((placed 0 assembly.instructions).map
      fun (offset, instruction) => instruction.line offset ++ "\n") ∧
    ∀ front instruction position back,
      assembly.entries = front ++ (instruction, some position) :: back →
        assembly.code.position? (front.map fun entry => entry.1.op.size).sum = some position := by
  have carries := assembly.carries
  have whole : assembly.code.Lists ([] ++ assembly.instructions) := carries.lists
  refine ⟨whole.decodeFrom_eq, ?_, ?_, fun front instruction position back same => ?_⟩
  · rw [carries.lists.size, extent_eq_sum]
    rfl
  · have lines := whole.linesFrom_eq
    rw [extent_nil] at lines
    rw [listing, lines, joinLines_eq, List.map_map]
    rfl
  · have found := carries.found front _ back same position rfl
    rw [extent_eq_sum, List.map_map] at found
    exact found

/-- A call behind operands of which the bytes could be opcodes, in code that was joined. -/
theorem Assembly.decodes_joined :
    let position : Position := ⟨none, ⟨7, 0, 0⟩⟩
    let second := emitAt (.emit .nothing ⟨.variable, [0x04040404, -1], rfl⟩) .call rfl position
    let assembly := append (.emit .nothing ⟨.jump, [-6], rfl⟩) second
    assembly.code.listing = "0000 Jump -6\n0005 Variable 67372036 -1\n0014 Call\n" ∧
    assembly.code.position? 14 = some position := by
  intro position second assembly
  obtain ⟨-, -, listing, positions⟩ := assembly.decodes
  exact ⟨listing.trans (by decide +kernel), positions (assembly.entries.take 2) _ _ [] rfl⟩

end MiniScheme
