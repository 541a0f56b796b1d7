import MiniScheme.Machine

/-!
# Calls

What calling a value does. Closures get a new invocation, natives run at once, and a continuation
replaces the control state. Applying a procedure to a list and capturing the continuation lead to
another call; nothing keeps such calls from going in circles, so their number is bounded.
-/

namespace MiniScheme.Machine

/-- How often one call may lead to another. -/
def maxRedirections : Nat := 0x4000000000000000

/-- The state that the result of a call would be delivered to. -/
def snapshot (machine : Machine) (tail : Bool) : Snapshot :=
  let here := { stack := machine.stack, calls := machine.calls, current := machine.current }
  if tail then
    match machine.calls.pop? with
    | some (frame, calls) => { stack := machine.stack, calls, current := frame }
    | none => here
  else here

/-- Puts the machine into a captured state and delivers a value to it. -/
def restore (snapshot : Snapshot) (value : Value) (machine : Machine) : Machine :=
  push value
    { machine with
      stack := snapshot.stack, calls := snapshot.calls, current := snapshot.current }

/-- The slots of an invocation: the arguments, surplus ones in a list, and room for definitions. -/
def slots (lambda : Lambda) (arguments : List Value) (heap : Heap) : Array Value × Heap :=
  let (filled, heap) :=
    if lambda.rest then
      let (rest, heap) := heap.list (arguments.drop lambda.argumentCount)
      ((arguments.take lambda.argumentCount).toArray.push rest, heap)
    else (arguments.toArray, heap)
  (filled ++ Array.replicate (lambda.slotCount - filled.size) .unspecified, heap)

def callClosure (closure : Handle) (arguments : List Value) (tail : Bool) : MachineM Flow := do
  let lambda ← MachineM.find .danglingClosure fun machine =>
    (machine.heap.closure? closure).map Prod.fst
  unless lambda.arity.accepts arguments.length do throw (.wrongArity lambda.arity)
  let invocation ← MachineM.onHeap fun heap =>
    let (slots, heap) := slots lambda arguments heap
    heap.alloc (.invocation (some closure) slots)
  unless tail do
    if (← get).ceiling ≤ (← get).stack.height + (← get).calls.height then throw .stackOverflow
    modify fun machine => { machine with calls := machine.calls.push machine.current }
  modify (note .debug fun _ =>
    (if tail then "tail call " else "call ") ++ lambda.name.getD "<lambda>")
  modify fun machine =>
    { machine with current := { pc := 0, invocation, operandCount := 0, lambda } }
  return .next

def callNative (id : NativeId) (arguments : List Value) (tail : Bool) : MachineM Flow := do
  let procedure ← MachineM.find .danglingNative fun machine => machine.natives[id]?
  unless procedure.arity.accepts arguments.length do throw (.wrongArity procedure.arity)
  match ← MachineM.native procedure arguments with
  | some value =>
    modify (complete value tail)
    return .next
  | none =>
    modify (note .debug fun _ => "suspended in " ++ procedure.name)
    modify fun machine => { machine with suspended := some tail }
    return .suspend

/-- Returns to where a continuation was captured. -/
def callContinuation (continuation : Handle) (value : Value) : MachineM Flow := do
  let snapshot ← MachineM.find .danglingContinuation fun machine =>
    machine.heap.continuation? continuation
  modify (note .debug fun _ => "restoring continuation at " ++ offsetText snapshot.current.pc)
  modify (restore snapshot value)
  return .next

/-- Captures the state that the result of the current call would be delivered to. -/
def capture (tail : Bool) : MachineM Value := do
  let captured := snapshot (← get) tail
  modify (note .debug fun _ => "captured continuation at " ++ offsetText captured.current.pc)
  return .continuation (← MachineM.onHeap fun heap => heap.alloc (.continuation captured))

/-- The elements of the list that a procedure is applied to. -/
def spread (list : Value) : MachineM (List Value) := fun machine =>
  match machine.heap.elements? list with
  | some values => .ok values machine
  | none => .error .invalidArgument machine

/-- Splits off the last of a number of values. -/
def unsnoc? : List Value → Option (List Value × Value)
  | [] => none
  | [value] => some ([], value)
  | value :: values => (unsnoc? values).map fun (front, last) => (value :: front, last)

/-- Calls a value, allowing for a number of redirections. -/
def dispatch : Nat → Value → List Value → Bool → MachineM Flow
  | 0, _, _, _ => throw .endlessApply
  | room + 1, callee, arguments, tail =>
    match callee with
    | .closure handle => callClosure handle arguments tail
    | .native id => callNative id arguments tail
    | .continuation handle => match arguments with
      | [value] => callContinuation handle value
      | _ => throw (.wrongArity { required := 1 })
    | .capture => match arguments with
      | [receiver] => do dispatch room receiver [← capture tail] tail
      | _ => throw (.wrongArity { required := 1 })
    | .apply => match arguments with
      | procedure :: first :: others => do
        let (front, list) := (unsnoc? (first :: others)).getD ([], .emptyList)
        dispatch room procedure (front ++ (← spread list)) tail
      | _ => throw (.wrongArity { required := 2, variadic := true })
    | _ => throw .notAProcedure

def call (callee : Value) (arguments : List Value) (tail : Bool) : MachineM Flow :=
  dispatch maxRedirections callee arguments tail

end MiniScheme.Machine
