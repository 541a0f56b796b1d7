import MiniScheme.Code.Listing
import MiniScheme.Heap.Collector
import MiniScheme.Stdlib

/-!
# The machine

The machine runs code. Values live on one operand stack. The operands of a call are delimited by
the count that was current before them, which is saved on the stack itself, so nested calls need
no other bookkeeping. A call that is not in tail position saves the current frame on the call
stack.
-/

namespace MiniScheme

/-- The machine and everything that running code can reach. -/
structure Machine where
  store : Store
  stack : Stack Value := .empty
  calls : Stack Frame := .empty
  current : Frame
  natives : Array Native := Stdlib.registry
  /-- Holds the slots of the global scope. -/
  global : Handle
  /-- Holds the slots of the top level. -/
  topLevel : Handle
  /-- The closure whose code grows with every datum. -/
  topClosure : Handle
  /-- While a native procedure owes its result: whether it was called in tail position. -/
  suspended : Option Bool := none
  /-- How many values and frames the stacks may hold together before another call. -/
  ceiling : Nat

/-- Actions of the machine can fail. The machine is then as the failure left it. -/
abbrev MachineM := EStateM Fault Machine

/-- What happens after an instruction. -/
inductive Flow where
  | next
  /-- The code is done and hands over a value. -/
  | exit (value : Value)
  /-- A native procedure owes its result. -/
  | suspend
  deriving Inhabited

namespace Machine

/-- A machine without code and with empty scopes. -/
def initial (ceiling : Nat) : Machine :=
  let (global, heap) := Heap.alloc {} (.invocation none #[])
  let (topClosure, heap) := heap.alloc (.closure .empty (some global))
  let (topLevel, heap) := heap.alloc (.invocation (some topClosure) #[])
  { store := { heap := heap }
    current := { pc := 0, invocation := topLevel, operandCount := 0, lambda := .empty }
    global
    topLevel
    topClosure
    ceiling }

instance : Inhabited Machine := ⟨initial 0⟩

def heap (machine : Machine) : Heap :=
  machine.store.heap

/-- Whether a native procedure owes its result. -/
def isSuspended (machine : Machine) : Bool :=
  machine.suspended.isSome

@[inline] def onStore {α : Type} (work : Store → α × Store) (machine : Machine) : α × Machine :=
  match machine with
  | { store, stack, calls, current, natives, global, topLevel, topClosure, suspended, ceiling } =>
    let (result, store) := work store
    (result,
      { store, stack, calls, current, natives, global, topLevel, topClosure, suspended, ceiling })

@[inline] def onHeap {α : Type} (work : Heap → α × Heap) (machine : Machine) : α × Machine :=
  machine.onStore fun store => store.onHeap work

@[inline] def note (detail : Detail) (message : Unit → String) (machine : Machine) : Machine :=
  if machine.store.journal.keeps detail then
    (machine.onStore fun store => ((), store.note detail message)).2
  else machine

def addNative (native : Native) (machine : Machine) : Value × Machine :=
  (.native machine.natives.size, { machine with natives := machine.natives.push native })

def push (value : Value) (machine : Machine) : Machine :=
  { machine with
    stack := machine.stack.push value
    current := { machine.current with operandCount := machine.current.operandCount + 1 } }

/-- Delivers the result of a call. A call in tail position first leaves the current frame. -/
def complete (value : Value) (tail : Bool) (machine : Machine) : Machine :=
  if tail then
    match machine.calls.pop? with
    | some (frame, calls) => push value { machine with calls, current := frame }
    | none => push value machine
  else push value machine

end Machine

namespace MachineM

def broken {α : Type} (defect : Defect) : MachineM α :=
  throw (.defect defect)

@[inline] def onHeap {α : Type} (work : Heap → α × Heap) : MachineM α := fun machine =>
  let (result, machine) := machine.onHeap work
  .ok result machine

/-- Looks for something in the machine; without it the code is broken. -/
@[inline] def find {α : Type} (defect : Defect) (view : Machine → Option α) : MachineM α :=
  fun machine =>
    match view machine with
    | some result => .ok result machine
    | none => .error (.defect defect) machine

def pop : MachineM Value := fun machine =>
  match machine.stack.pop? with
  | some (value, stack) => .ok value
      { machine with
        stack
        current := { machine.current with operandCount := machine.current.operandCount - 1 } }
  | none => .error (.defect .emptyStack) machine

/-- The operand at an offset of the current code. -/
def operand (offset : Nat) : MachineM Int32 :=
  find .missingOperand fun machine => machine.current.lambda.body.operand? offset

def native (procedure : Native) (arguments : List Value) : MachineM (Option Value) :=
  fun machine => match machine with
  | { store, stack, calls, current, natives, global, topLevel, topClosure, suspended, ceiling } =>
    match procedure.run arguments store with
    | .ok result store => .ok result
        { store, stack, calls, current, natives, global, topLevel, topClosure, suspended, ceiling }
    | .error fault store => .error fault
        { store, stack, calls, current, natives, global, topLevel, topClosure, suspended, ceiling }

end MachineM

end MiniScheme
