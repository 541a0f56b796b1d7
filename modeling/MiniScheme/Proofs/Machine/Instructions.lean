import MiniScheme.Proofs.Machine.Outcome

/-!
# What instructions do

One equation for each instruction, for the case that it finds what it needs. Stacks are given by
their items.
-/

namespace MiniScheme

namespace Stack

variable {α : Type}

/-- The stack of a number of items, the topmost first. -/
def ofItems (items : List α) : Stack α :=
  { items, height := items.length, height_eq := rfl }

@[simp] theorem items_push (stack : Stack α) (item : α) :
    (stack.push item).items = item :: stack.items := rfl

variable {stack : Stack α} {xs : List α}

theorem eq_ofItems (same : stack.items = xs) : stack = ofItems xs := by
  obtain ⟨_, height, height_eq⟩ := stack
  subst same
  subst height_eq
  rfl

theorem pop?_of_items {item : α} (same : stack.items = item :: xs) :
    stack.pop? = some (item, ofItems xs) := by
  rw [eq_ofItems same]
  rfl

theorem splitTop?_of_items {window below : List α} (same : stack.items = window ++ below) :
    stack.splitTop? window.length = some (window.reverse, ofItems below) := by
  rw [eq_ofItems same]
  simp [splitTop?, ofItems]

end Stack

namespace Machine

variable {m : Machine} {pc : Nat} {v : Value} {xs : List Value}

/-- The machine with a value less on its stack. -/
def drop (items : List Value) (machine : Machine) : Machine :=
  { machine with
    stack := .ofItems items
    current := { machine.current with operandCount := machine.current.operandCount - 1 } }

theorem pop_eq (top : m.stack.items = v :: xs) : MachineM.pop m = .ok v (m.drop xs) := by
  rw [MachineM.pop, Stack.pop?_of_items top]
  rfl

theorem operand_eq {offset : Nat} {operand : Int32}
    (read : m.current.lambda.body.operand? offset = some operand) :
    MachineM.operand offset m = .ok operand m := by
  simp [MachineM.operand, MachineM.find, read]

variable {offset place depth slot : Int32} {inv : Handle} {slots : Array Value}
  {callee : Value} {args below : List Value} {saved : Int64} {target : Nat}

theorem step_constant (read : m.current.lambda.body.operand? (pc + 1) = some place)
    (found : m.current.lambda.constants[index place]? = some (.value v)) :
    step .constant pc m = .ok .next (m.push v) := by
  simp only [step, MachineM.bind_apply, operand_eq read, MachineM.find, found,
    MachineM.modify_apply]
  rfl

theorem variableAt_eq {offset : Nat} (first : m.current.lambda.body.operand? offset = some depth)
    (second : m.current.lambda.body.operand? (offset + 4) = some slot)
    (outer : enclosing? m.heap depth.toInt.toNat m.current.invocation =
      some inv) : variableAt offset m = .ok (inv, index slot) m := by
  simp only [variableAt, MachineM.bind_apply, operand_eq first, MachineM.find, outer,
    operand_eq second]
  rfl

theorem step_variable (first : m.current.lambda.body.operand? (pc + 1) = some depth)
    (second : m.current.lambda.body.operand? (pc + 1 + 4) = some slot)
    (outer : enclosing? m.heap depth.toInt.toNat m.current.invocation =
      some inv) (held : m.heap.slots? inv = some slots) (found : slots[index slot]? = some v) :
    step .variable pc m = .ok .next (m.push v) := by
  simp only [step, MachineM.bind_apply, variableAt_eq first second outer, MachineM.find, held,
    Option.bind_some, found, MachineM.modify_apply]
  rfl

def assign (invocation : Handle) (slot : Nat) (value : Value) (machine : Machine) : Machine :=
  (machine.onHeap fun heap =>
    ((), heap.modifySlots invocation fun slots => slots.setIfInBounds slot value)).2

theorem step_setVariable (first : m.current.lambda.body.operand? (pc + 1) = some depth)
    (second : m.current.lambda.body.operand? (pc + 1 + 4) = some slot)
    (outer : enclosing? m.heap depth.toInt.toNat m.current.invocation =
      some inv) (held : m.heap.slots? inv = some slots)
    (bound : index slot < slots.size) (top : m.stack.items = v :: xs) :
    step .setVariable pc m = .ok .next ((m.drop xs).assign inv (index slot) v) := by
  have present : ((m.drop xs).heap.slots? inv).bind
      (fun slots => slots[index slot]?) = some (slots[index slot]) := by
    change (m.heap.slots? inv).bind _ = _
    simp [held, bound]
  simp only [step, MachineM.bind_apply, variableAt_eq first second outer, pop_eq top,
    MachineM.find, present]
  rfl

theorem step_resetOperandCount : step .resetOperandCount pc m = .ok .next
    { m with
      stack := m.stack.push (.integer (.ofNat m.current.operandCount))
      current := { m.current with operandCount := 0 } } := rfl

def unwind (below : List Value) (saved : Int64) (machine : Machine) : Machine :=
  { machine with
    stack := .ofItems below
    current := { machine.current with operandCount := saved.toUInt64.toNat } }

section

variable (top : m.stack.items = (callee :: args).reverse ++ .integer saved :: below)
  (n : m.current.operandCount = args.length + 1)

include top n

theorem operands_eq : operands m = .ok (callee, args) (m.unwind below saved) := by
  have window : m.stack.splitTop? m.current.operandCount =
      some (callee :: args, .ofItems (.integer saved :: below)) := by
    have split := Stack.splitTop?_of_items top
    rw [List.length_reverse, List.reverse_reverse] at split
    rw [n]
    exact split
  simp only [operands, window]
  rfl

theorem step_call : step .call pc m = call callee args false (m.unwind below saved) := by
  simp only [step, MachineM.bind_apply, operands_eq top n]

theorem step_tailCall : step .tailCall pc m = call callee args true (m.unwind below saved) := by
  simp only [step, MachineM.bind_apply, operands_eq top n]

end

def resume (caller : Frame) (calls : List Frame) (machine : Machine) : Machine :=
  { machine.note .debug (fun _ => "return to " ++ offsetText caller.pc) with
    calls := .ofItems calls
    current := caller }

theorem step_return {caller : Frame} {calls : List Frame} (top : m.stack.items = v :: xs)
    (pending : m.calls.items = caller :: calls) :
    step .return pc m = .ok .next (((m.drop xs).resume caller calls).push v) := by
  have popped : (m.drop xs).calls.pop? = some (caller, .ofItems calls) :=
    Stack.pop?_of_items pending
  simp only [step, MachineM.bind_apply, pop_eq top, MachineM.find, popped]
  rfl

theorem step_lambda {lam : Lambda} (read : m.current.lambda.body.operand? (pc + 1) = some place)
    (found : m.current.lambda.constants[index place]? = some (.lambda lam)) :
    step .lambda pc m = .ok .next ((m.close lam).2.push (.closure (m.close lam).1)) := by
  simp only [step, MachineM.bind_apply, operand_eq read, MachineM.find, found]
  rfl

theorem step_pop (top : m.stack.items = v :: xs) : step .pop pc m = .ok .next (m.drop xs) := by
  simp only [step, MachineM.bind_apply, pop_eq top]
  rfl

def goto (target : Nat) (machine : Machine) : Machine :=
  { machine with current := { machine.current with pc := target } }

theorem jump_eq (leads : (m.current.pc : Int) + offset.toInt = target)
    (bound : target ≤ m.current.lambda.body.size) : jump offset m = .ok () (m.goto target) := by
  have inside : ¬ ((target : Int) < 0 ∨ (m.current.lambda.body.size : Int) < (target : Int)) := by
    omega
  simp only [jump, MachineM.bind_apply, MachineM.get_apply, leads, MachineM.ite_apply,
    if_neg inside, MachineM.modify_apply, Int.toNat_natCast]
  rfl

section

variable (read : m.current.lambda.body.operand? (pc + 1) = some offset)
  (leads : (m.current.pc : Int) + offset.toInt = target)
  (bound : target ≤ m.current.lambda.body.size)

include read leads bound

theorem step_jump : step .jump pc m = .ok .next (m.goto target) := by
  simp only [step, MachineM.bind_apply, operand_eq read, jump_eq leads bound]
  rfl

theorem step_conditionalJump (top : m.stack.items = v :: xs) :
    step .conditionalJump pc m = .ok .next
      (if v.isTrue then m.drop xs else (m.drop xs).goto target) := by
  have jumped : jump offset (m.drop xs) = .ok () ((m.drop xs).goto target) := jump_eq leads bound
  simp only [step, MachineM.bind_apply, operand_eq read, pop_eq top, MachineM.ite_apply, jumped]
  split <;> rfl

end

theorem step_exit (top : m.stack.items = v :: xs) :
    step .exit pc m = .ok (.exit v) (m.drop xs) := by
  simp only [step, MachineM.bind_apply, pop_eq top]
  rfl

end Machine

end MiniScheme
