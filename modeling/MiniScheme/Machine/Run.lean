import MiniScheme.Machine.Step
import MiniScheme.Error

/-!
# Running

The machine runs until the code is done, a native procedure owes its result, a number of
instructions has been carried out, or something fails. A failure becomes an error with the
position of every pending call; the machine then abandons what it was doing.
-/

namespace MiniScheme.Machine

/-- More instructions than a run can carry out. -/
def unlimited : Nat := 0x4000000000000000

/-- How many instructions a request allows; none means no limit. -/
def budget (cycles : Nat) : Nat :=
  if cycles = 0 then unlimited else cycles

/-- The position of the instruction that ends before the place where a frame is. -/
def position (frame : Frame) : Position :=
  (frame.lambda.body.position? (frame.pc - 1)).getD {}

/-- Abandons the running computation; definitions stay. -/
def reset (machine : Machine) : Machine :=
  let lambda := match machine.heap.closure? machine.topClosure with
    | some (lambda, _) => lambda
    | none => machine.current.lambda
  { machine with
    stack := .empty
    calls := .empty
    suspended := none
    current :=
      { pc := lambda.body.size, invocation := machine.topLevel, operandCount := 0, lambda } }

/-- The error that a failure is reported as. -/
def errorOf (machine : Machine) (fault : Fault) : ScriptError :=
  .ofFrames fault (position machine.current :: machine.calls.items.map position)

/-- Reports a failure and abandons the running computation. -/
def fail (machine : Machine) (fault : Fault) : ScriptError × Machine :=
  (machine.errorOf fault, (machine.note .debug fun _ => "runtime error: " ++ fault.message).reset)

/-- Moves the current frame behind an instruction. -/
def advance (machine : Machine) (op : Op) : Machine :=
  { machine with
    current := { machine.current with pc := machine.current.pc + op.size } }

/-- The note on an instruction that is about to be carried out. -/
def stepText (op : Op) (pc operandCount depth : Nat) : String :=
  "pc " ++ offsetText pc ++ " " ++ op.name ++ " count " ++ toString operandCount ++ " depth " ++
    toString depth

/-- Whether there is nothing left to run. -/
def isDone (machine : Machine) : Bool :=
  machine.current.pc == machine.current.lambda.body.size && machine.calls.isEmpty

/-- Carries out at most a number of instructions, showing each to an observer. Without a value there
is more to do. -/
@[specialize] def run {σ : Type} (observe : Op → σ → σ) :
    Nat → σ → Machine → Except ScriptError (Option Value) × σ × Machine
  | 0, observed, machine => (.ok none, observed, machine)
  | room + 1, observed, machine =>
    let pc := machine.current.pc
    match machine.current.lambda.body.op? pc with
    | none =>
      if machine.isDone then (.ok (some .unspecified), observed, machine)
      else
        let (error, machine) := machine.fail (.defect .invalidInstruction)
        (.error error, observed, machine)
    | some op =>
      let operandCount := machine.current.operandCount
      let depth := machine.calls.height
      let machine := (machine.advance op).note .trace fun _ => stepText op pc operandCount depth
      let observed := observe op observed
      match step op pc machine with
      | .ok .next machine => run observe room observed machine
      | .ok (.exit value) machine => (.ok (some value), observed, machine)
      | .ok .suspend machine => (.ok none, observed, machine)
      | .error fault machine =>
        let (error, machine) := machine.fail fault
        (.error error, observed, machine)

/-- Runs on for at most a number of instructions, unless a native procedure owes its result. -/
@[specialize] def execute {σ : Type} (observe : Op → σ → σ) (observed : σ) (cycles : Nat)
    (machine : Machine) : Except ScriptError (Option Value) × σ × Machine :=
  if machine.isSuspended then (.ok none, observed, machine)
  else run observe (budget cycles) observed machine

/-- Supplies the result that a native procedure owes; false if none does. -/
def wake (value : Value) (machine : Machine) : Bool × Machine :=
  match machine.suspended with
  | some tail => (true, complete value tail { machine with suspended := none })
  | none => (false, machine)

/-- Appends code to the top level and points the machine at it. `constants` are all constants of
the top level; those not known yet are added. -/
def append (constants : Array Constant) (code : Bytecode) (machine : Machine) :
    Except Fault Machine :=
  match machine.heap.closure? machine.topClosure with
  | none => .error (.defect .noTopLevelClosure)
  | some (lambda, _) =>
    let start := lambda.body.size
    let lambda :=
      { lambda with
        constants := lambda.constants ++ constants.drop lambda.constants.size
        body := lambda.body ++ code }
    let ((), machine) := machine.onHeap fun heap =>
      ((), heap.modifyLambda machine.topClosure fun _ => lambda)
    .ok { machine with
      stack := .empty
      calls := .empty
      suspended := none
      current := { pc := start, invocation := machine.topLevel, operandCount := 0, lambda } }

/-- The handles that the machine itself holds. -/
def roots (machine : Machine) : List Handle :=
  machine.stack.items.filterMap Value.handle? ++ machine.calls.items.flatMap Frame.handles ++
    machine.current.handles ++ [machine.global, machine.topLevel, machine.topClosure]

/-- Frees every object that the machine cannot reach. -/
def collect (machine : Machine) : CollectStats × Machine :=
  let roots := machine.roots
  let (stats, machine) := machine.onHeap fun heap => heap.collect roots
  (stats, machine.note .debug fun _ => "gc: " ++ stats.text)

end MiniScheme.Machine
