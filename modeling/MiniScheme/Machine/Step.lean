import MiniScheme.Machine.Call

/-!
# Instructions

What each instruction does to the machine. The frame already points behind the instruction.
-/

namespace MiniScheme.Machine

/-- An operand as an index. A negative one is too large for any table. -/
def index (operand : Int32) : Nat :=
  operand.toInt64.toUInt64.toNat

/-- The invocation a number of procedures out from another. -/
def enclosing? (heap : Heap) : Nat → Handle → Option Handle
  | 0, invocation => some invocation
  | depth + 1, invocation =>
    match (heap.procedure? invocation).bind heap.closure? with
    | some (_, some parent) => enclosing? heap depth parent
    | _ => none

/-- The invocation and the slot that the operands at an offset stand for. -/
def variableAt (offset : Nat) : MachineM (Handle × Nat) := do
  let depth ← MachineM.operand offset
  let invocation ← MachineM.find .noEnclosingFrame fun machine =>
    enclosing? machine.heap depth.toInt.toNat machine.current.invocation
  let slot ← MachineM.operand (offset + 4)
  return (invocation, index slot)

def jump (offset : Int32) : MachineM Unit := do
  let frame := (← get).current
  let target := (frame.pc : Int) + offset.toInt
  if target < 0 ∨ (frame.lambda.body.size : Int) < target then MachineM.broken .jumpOutOfBounds
  modify fun machine => { machine with current := { machine.current with pc := target.toNat } }

/-- The callee and the arguments of the call whose operands are on top of the stack. The operand
count is what it was before them. -/
def operands : MachineM (Value × List Value) := fun machine =>
  match machine.stack.splitTop? machine.current.operandCount with
  | none => .error (.defect .shortStack) machine
  | some (window, below) => match below.pop? with
    | some (.integer saved, stack) => match window with
      | callee :: arguments => .ok (callee, arguments)
          { machine with
            stack
            current := { machine.current with operandCount := saved.toUInt64.toNat } }
      | [] => .error (.defect .emptyCall) machine
    | _ => .error (.defect .noOperandCount) machine

/-- Carries out an instruction that starts at an offset. -/
def step (op : Op) (pc : Nat) : MachineM Flow := do
  match op with
  | .constant =>
    let place := index (← MachineM.operand (pc + 1))
    let value ← MachineM.find .badConstant fun machine =>
      match machine.current.lambda.constants[place]? with
      | some (.value value) => some value
      | _ => none
    modify (push value)
    return .next
  | .variable =>
    let (invocation, slot) ← variableAt (pc + 1)
    let value ← MachineM.find .badVariable fun machine =>
      (machine.heap.slots? invocation).bind fun slots => slots[slot]?
    modify (push value)
    return .next
  | .setVariable =>
    let (invocation, slot) ← variableAt (pc + 1)
    let value ← MachineM.pop
    let _ ← MachineM.find .badVariable fun machine =>
      (machine.heap.slots? invocation).bind fun slots => slots[slot]?
    MachineM.onHeap fun heap =>
      ((), heap.modifySlots invocation fun slots => slots.setIfInBounds slot value)
    return .next
  | .resetOperandCount =>
    modify fun machine =>
      { machine with
        stack := machine.stack.push (.integer (.ofNat machine.current.operandCount))
        current := { machine.current with operandCount := 0 } }
    return .next
  | .call =>
    let (callee, arguments) ← operands
    call callee arguments false
  | .tailCall =>
    let (callee, arguments) ← operands
    call callee arguments true
  | .return =>
    let value ← MachineM.pop
    let (frame, calls) ← MachineM.find .returnWithoutCaller fun machine => machine.calls.pop?
    modify (note .debug fun _ => "return to " ++ offsetText frame.pc)
    modify fun machine => push value { machine with calls, current := frame }
    return .next
  | .lambda =>
    let place := index (← MachineM.operand (pc + 1))
    let lambda ← MachineM.find .badLambda fun machine =>
      match machine.current.lambda.constants[place]? with
      | some (.lambda lambda) => some lambda
      | _ => none
    let invocation := (← get).current.invocation
    let closure ← MachineM.onHeap fun heap => heap.alloc (.closure lambda (some invocation))
    modify (push (.closure closure))
    return .next
  | .pop =>
    let _ ← MachineM.pop
    return .next
  | .jump =>
    jump (← MachineM.operand (pc + 1))
    return .next
  | .conditionalJump =>
    let offset ← MachineM.operand (pc + 1)
    let value ← MachineM.pop
    unless value.isTrue do jump offset
    return .next
  | .exit => return .exit (← MachineM.pop)
  | .lambdaExit => return .exit .unspecified

end MiniScheme.Machine
