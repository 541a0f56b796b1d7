import MiniScheme.Proofs.Code.Instructions
import MiniScheme.Proofs.Compiler.Origins

/-!
# Calls and their positions

A call that fails is reported at the position that is recorded for it. That position is right if it
is the one of the form which the call was compiled from, a form that the data have in them or expand
to, wherever its code has come to stand since then. `Attributed` says so of all calls in code, and
follows how the code was put together.
-/

namespace MiniScheme.Bytecode

/-- `code.CompiledFrom source position`: a call form at that position was compiled to the code, or a
call in the plan of a template there. The form or template comes from the data. -/
inductive CompiledFrom (source : Datum → Prop) : Bytecode → Position → Prop where
  | form {room : Nat} {form head : Datum} {items : List Datum} {context : Context}
      {state after : Compilation} {code : Bytecode} (stems : Stems source form)
      (planned : Compiler.Plan.ofDatum (state.scopes.resolve context.scope) context form =
        .ok (.call head items))
      (compiled : Compiler.compile room form context state = .ok (Compiler.yields code) after) :
      CompiledFrom source code form.position
  | template {room : Nat} {name : String} {position : Position} {arguments : List Quasi}
      {context : Context} {state after : Compilation} {code : Bytecode}
      (made : (Quasi.call name position arguments).MadeFrom source)
      (compiled : Compiler.quasi (Compiler.compile room) context (.call name position arguments)
        state = .ok code after) : CompiledFrom source code position

/-- `code.Records source offset position`: a position of its own is recorded for the call at the
offset, and found there. It is that of the form whose code ends with the call. -/
structure Records (source : Datum → Prop) (code : Bytecode) (offset : Nat) (position : Position) :
    Prop where
  own : (offset, position) ∈ code.positions
  found : code.position? offset = some position
  origin : ∃ front piece back, code = front ++ piece ++ back ∧
    front.size + piece.size = offset + 1 ∧ piece.CompiledFrom source position

variable {source : Datum → Prop} {code first second : Bytecode} {offset : Nat} {pos : Position} {op : Op}

theorem position?_append (first second : Bytecode) (offset : Nat) :
    (first ++ second).position? offset =
      ((second.positions.toList.reverse.find? fun e => e.1 + first.size ≤ offset).map
        Prod.snd).or (first.position? offset) := by
  simp only [position?, positions_append, Array.toList_append, Array.toList_map,
    List.reverse_append, List.find?_append, ← List.map_reverse, List.find?_map, Option.map_or,
    Option.map_map]
  rfl

theorem position?_append_left (inside : offset < first.size) (second : Bytecode) :
    (first ++ second).position? offset = first.position? offset := by
  have later : second.positions.toList.reverse.find? (fun e => e.1 + first.size ≤ offset) =
      none := List.find?_eq_none.mpr fun e _ => by simp; omega
  rw [position?_append, later, Option.map_none, Option.none_or]

theorem position?_append_right (first : Bytecode) (found : second.position? offset = some pos) :
    (first ++ second).position? (first.size + offset) = some pos := by
  rw [position?] at found
  simp [position?_append, Nat.add_comm, found]

theorem Records.lt_size (records : code.Records source offset pos) : offset < code.size := by
  obtain ⟨front, piece, back, rfl, ends, -⟩ := records.origin
  simp only [size_append]
  omega

/-- A call keeps its position when more code is put behind it. -/
theorem Records.append_left (records : first.Records source offset pos) (second : Bytecode) :
    (first ++ second).Records source offset pos := by
  obtain ⟨front, piece, back, eq, ends, compiled⟩ := records.origin
  refine ⟨?_, ?_, front, piece, back ++ second, ?_, ends, compiled⟩
  · rw [positions_append]
    exact Array.mem_append_left _ records.own
  · rw [position?_append_left records.lt_size, records.found]
  · rw [eq, append_assoc]

/-- A call keeps its position when it is moved behind other code. -/
theorem Records.append_right (records : second.Records source offset pos) (first : Bytecode) :
    (first ++ second).Records source (first.size + offset) pos := by
  obtain ⟨front, piece, back, eq, ends, compiled⟩ := records.origin
  refine ⟨?_, ?_, first ++ front, piece, back, ?_, ?_, compiled⟩
  · rw [positions_append, Nat.add_comm]
    exact Array.mem_append_right _ (Array.mem_map_of_mem records.own)
  · exact position?_append_right first records.found
  · rw [eq, append_assoc, append_assoc, append_assoc]
  · rw [size_append]
    omega

def Attributed (source : Datum → Prop) (code : Bytecode) : Prop :=
  ∃ instructions, code.Lists instructions ∧ ∀ front call back, instructions = front ++ call :: back →
    call.op = .call ∨ call.op = .tailCall →
      ∃ position, code.Records source (Instruction.extent front) position

namespace Attributed

theorem nothing : ({} : Bytecode).Attributed source :=
  ⟨[], rfl, fun _ _ _ same => absurd same (by simp)⟩

theorem plain (instr : Instruction) (straight : instr.op ≠ .call ∧ instr.op ≠ .tailCall) :
    (ofOp instr.op instr.operands).Attributed source := by
  refine ⟨[instr], .one instr, fun front call back same calls => ?_⟩
  have mem : call ∈ [instr] := same ▸ List.mem_append_cons_self
  rw [List.mem_singleton.mp mem] at calls
  exact absurd calls (not_or.mpr straight)

theorem extend (front : first.Attributed source) {instructions : List Instruction}
    (lists : second.Lists instructions) (each : ∀ before call back,
      instructions = before ++ call :: back → call.op = .call ∨ call.op = .tailCall →
        ∃ pos, (first ++ second).Records source (first.size + Instruction.extent before) pos) :
    (first ++ second).Attributed source := by
  obtain ⟨known, lists', records⟩ := front
  refine ⟨known ++ instructions, lists'.append lists, forall_splits_append ?_ ?_⟩
  · intro before call back same calls
    obtain ⟨pos, found⟩ := records before call back same calls
    exact ⟨pos, found.append_left second⟩
  · intro before call back same calls
    rw [Instruction.extent_append, ← lists'.size]
    exact each before call back same calls

theorem append (front : first.Attributed source) (back : second.Attributed source) :
    (first ++ second).Attributed source := by
  obtain ⟨instructions, lists, records⟩ := back
  refine front.extend lists fun before call rest same calls => ?_
  obtain ⟨pos, found⟩ := records before call rest same calls
  exact ⟨pos, found.append_right first⟩

theorem call (front : code.Attributed source) (calls : op = .call ∨ op = .tailCall)
    (compiled : (code ++ .ofOpAt op pos).CompiledFrom source pos) :
    (code ++ .ofOpAt op pos).Attributed source := by
  have complete : 0 = op.operandCount := by rcases calls with rfl | rfl <;> rfl
  have lists : (ofOpAt op pos).Lists [⟨op, [], complete⟩] := .one ⟨op, [], complete⟩
  refine front.extend lists fun before call back same _ => ⟨pos, ?_⟩
  obtain ⟨rfl, -⟩ | ⟨-, none⟩ := List.append_eq_singleton_iff.mp same.symm
  · refine ⟨?_, ?_, {}, _, {}, ?_, ?_, compiled⟩
    · rw [positions_append, Instruction.extent_nil, Nat.add_comm]
      exact Array.mem_append_right _ (Array.mem_map_of_mem (Array.mem_singleton.mpr rfl))
    · simp [position?_append, ofOpAt]
    · rw [nil_append, append_nil]
    · rw [size_append, size_ofOpAt]
      exact Nat.zero_add _
  · cases none

theorem records (attributed : code.Attributed source) (start : code.Starts offset)
    (fetched : code.op? offset = some op) (calls : op = .call ∨ op = .tailCall) :
    ∃ pos, code.Records source offset pos := by
  obtain ⟨instructions, lists, records⟩ := attributed
  obtain ⟨front, back, rfl, rfl⟩ := lists.split start
  cases back with
  | nil =>
    rw [List.append_nil] at lists
    rw [← lists.size, op?_size] at fetched
    cases fetched
  | cons call back =>
    cases fetched.symm.trans (op?_of_instruction? lists.found)
    exact records front call back rfl calls

end Attributed

end MiniScheme.Bytecode
