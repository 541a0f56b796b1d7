import MiniScheme.Native
import MiniScheme.Proofs.Core.Expression

/-!
# Direct evaluation

The value of an expression by recursion over it, without code, stacks and frames. Variables live in
the slots of invocations, as the heap has them; an environment says which invocation holds the names
of which procedure. What a closure stands for is kept in a table beside the heap, in which closures
are mere places. Evaluation fails where a call does. It has no outcome where it does not end, and
where a callee is neither a procedure of the core language nor a native one that answers at once.
-/

namespace MiniScheme

/-- The names of a procedure and the invocation that holds their values. -/
structure Rib where
  naming : Naming
  invocation : Handle

/-- The procedures around an expression, innermost first. -/
abbrev Environment := List Rib

namespace Environment

/-- The names that are known in the environment. -/
def namings (environment : Environment) : List Naming :=
  environment.map Rib.naming

def find? : Environment → String → Option (Handle × Nat)
  | [], _ => none
  | rib :: outer, name => match rib.naming name with
    | some slot => some (rib.invocation, slot)
    | none => find? outer name

end Environment

/-- A procedure and the environment it was created in. -/
structure Procedure where
  abstraction : Abstraction
  environment : Environment

/-- The environment of the body of the procedure. -/
def Procedure.inner (procedure : Procedure) (invocation : Handle) : Environment :=
  { naming := .ofNames procedure.abstraction.names, invocation } :: procedure.environment

namespace Abstraction

/-- How many arguments the procedure takes. -/
def arity (abstraction : Abstraction) : Arity :=
  { required := abstraction.formals.fixed.length, variadic := abstraction.formals.rest.isSome }

/-- The values of the names of the procedure when it starts: the arguments, surplus ones in a list,
and nothing yet for definitions. -/
def slots (abstraction : Abstraction) (arguments : List Value) (heap : Heap) :
    Array Value × Heap :=
  let (filled, heap) := match abstraction.formals.rest with
    | none => (arguments, heap)
    | some _ =>
      let (rest, heap) := heap.list (arguments.drop abstraction.formals.fixed.length)
      (arguments.take abstraction.formals.fixed.length ++ [rest], heap)
  ((filled ++ List.replicate abstraction.locals.length Value.unspecified).toArray, heap)

/-- Adds an invocation of the procedure to the heap. -/
def invoke (abstraction : Abstraction) (closure : Handle) (arguments : List Value) (heap : Heap) :
    Handle × Heap :=
  let (slots, heap) := abstraction.slots arguments heap
  heap.alloc (.invocation (some closure) slots)

end Abstraction

/-- What evaluation works on. -/
structure EvalState where
  store : Store
  procedures : Handle → Option Procedure

/-- What a closure stands for, unless its handle dangles. -/
def EvalState.procedure? (state : EvalState) (closure : Handle) : Option Procedure :=
  (state.store.heap.closure? closure).bind fun _ => state.procedures closure

/-- Evaluation can fail, or have no outcome. -/
def EvalM (α : Type) : Type :=
  EvalState → Option (Except Fault (α × EvalState))

namespace EvalM

instance : Monad EvalM where
  pure result := fun state => some (.ok (result, state))
  bind action next := fun state => match action state with
    | none => none
    | some (.error fault) => some (.error fault)
    | some (.ok (result, state)) => next result state

def fail {α : Type} (fault : Fault) : EvalM α := fun _ => some (.error fault)

/-- Looks for something without which there is no outcome. -/
def find {α : Type} (view : EvalState → Option α) : EvalM α := fun state =>
  (view state).map fun result => .ok (result, state)

def onHeap {α : Type} (work : Heap → α × Heap) : EvalM α := fun state =>
  let (result, store) := state.store.onHeap work
  some (.ok (result, { state with store }))

variable {α β : Type} {next : α → EvalM β} {st : EvalState}
  {out : Except Fault (β × EvalState)}

/-- What comes of two parts, comes of the first one or of both. -/
theorem bind_cases {action : EvalM α} (evaluated : (action >>= next) st = some out) :
    (∃ fault, action st = some (.error fault) ∧ out = .error fault) ∨
      ∃ res mid, action st = some (.ok (res, mid)) ∧
        next res mid = some out := by
  change (match action st with
    | none => none
    | some (.error fault) => some (.error fault)
    | some (.ok (res, mid)) => next res mid) = some out at evaluated
  cases first : action st with
  | none =>
    rw [first] at evaluated
    cases evaluated
  | some answer =>
    rw [first] at evaluated
    cases answer with
    | error fault =>
      cases evaluated
      exact .inl ⟨fault, rfl, rfl⟩
    | ok answer => exact .inr ⟨answer.1, answer.2, rfl, evaluated⟩

/-- What comes of looking for something, comes of what is found. -/
theorem find_cases {view : EvalState → Option α} (evaluated : (find view >>= next) st = some out) :
    ∃ res, view st = some res ∧ next res st = some out := by
  rcases bind_cases evaluated with ⟨fault, failed, -⟩ | ⟨res, mid, found, rest⟩
  · obtain ⟨_, _, impossible⟩ := Option.map_eq_some_iff.mp failed
    cases impossible
  · obtain ⟨_, seen, eq⟩ := Option.map_eq_some_iff.mp found
    cases eq
    exact ⟨res, seen, rest⟩

end EvalM

namespace Expression

def fetch (environment : Environment) (name : String) : EvalM Value :=
  EvalM.find fun state => do
    let (invocation, slot) ← environment.find? name
    (← state.store.heap.slots? invocation)[slot]?

def assign (environment : Environment) (name : String) (value : Value) : EvalM Unit := do
  let _ ← fetch environment name
  let (invocation, slot) ← EvalM.find fun _ => environment.find? name
  EvalM.onHeap fun heap =>
    ((), heap.modifySlots invocation fun slots => slots.setIfInBounds slot value)

variable {env : Environment} {name : String} {st : EvalState}

theorem fetch_cases {out : Except Fault (Value × EvalState)}
    (evaluated : fetch env name st = some out) : ∃ inv slot slots v,
      env.find? name = some (inv, slot) ∧
        st.store.heap.slots? inv = some slots ∧ slots[slot]? = some v ∧ out = .ok (v, st) := by
  obtain ⟨v, found, rfl⟩ := Option.map_eq_some_iff.mp evaluated
  obtain ⟨⟨inv, slot⟩, place, found⟩ := Option.bind_eq_some_iff.mp found
  obtain ⟨slots, held, found⟩ := Option.bind_eq_some_iff.mp found
  exact ⟨inv, slot, slots, v, place, held, found, rfl⟩

theorem assign_cases {v : Value} {out : Except Fault (Unit × EvalState)}
    (evaluated : assign env name v st = some out) :
    ∃ inv slot slots, env.find? name = some (inv, slot) ∧
      st.store.heap.slots? inv = some slots ∧ slot < slots.size ∧
      out = .ok ((), { st with store := (st.store.onHeap fun heap =>
        ((), heap.modifySlots inv fun slots => slots.setIfInBounds slot v)).2 }) := by
  rcases EvalM.bind_cases evaluated with ⟨fault, failed, -⟩ | ⟨old, mid, fetched, rest⟩
  · obtain ⟨_, _, _, _, _, _, _, impossible⟩ := fetch_cases failed
    cases impossible
  · obtain ⟨inv, slot, slots, _, place, held, found, eq⟩ := fetch_cases fetched
    cases eq
    refine ⟨inv, slot, slots, place, held, (Array.getElem?_eq_some_iff.mp found).1, ?_⟩
    obtain ⟨⟨inv', slot'⟩, again, last⟩ := EvalM.find_cases rest
    cases place.symm.trans again
    cases last
    rfl

def close (procedure : Procedure) : EvalM Value := do
  let handle ← EvalM.onHeap fun heap => heap.alloc (.closure .empty none)
  fun state => some (.ok (.closure handle,
    { state with procedures := fun other =>
        if other = handle then some procedure else state.procedures other }))

section

variable (natives : Array Native) (recur : Environment → Expression → EvalM Value)

def values (environment : Environment) : List Expression → EvalM (List Value)
  | [] => return []
  | expression :: others => do
    let value ← recur environment expression
    return value :: (← values environment others)

def define (environment : Environment) : List (String × Expression) → EvalM Unit
  | [] => return ()
  | (name, expression) :: others => do
    assign environment name (← recur environment expression)
    define environment others

/-- Calls a procedure of the core language. -/
def enter (closure : Handle) (procedure : Procedure) (arguments : List Value) : EvalM Value := do
  let abstraction := procedure.abstraction
  unless abstraction.arity.accepts arguments.length do EvalM.fail (.wrongArity abstraction.arity)
  let invocation ← EvalM.onHeap (abstraction.invoke closure arguments)
  define recur (procedure.inner invocation) abstraction.initializers
  recur (procedure.inner invocation) abstraction.body

def callNative (native : Native) (arguments : List Value) : EvalM Value := do
  unless native.arity.accepts arguments.length do EvalM.fail (.wrongArity native.arity)
  fun state => match native.run arguments state.store with
    | .ok result store => result.map fun value => .ok (value, { state with store })
    | .error fault _ => some (.error fault)

def apply (callee : Value) (arguments : List Value) : EvalM Value :=
  match callee with
  | .closure handle => do
    let procedure ← EvalM.find fun state => state.procedure? handle
    enter recur handle procedure arguments
  | .native id => do
    let native ← EvalM.find fun _ => natives[id]?
    callNative native arguments
  | .continuation _ | .capture | .apply => fun _ => none
  | _ => EvalM.fail .notAProcedure

/-- Evaluates an expression, given how to evaluate others. -/
def evaluateWith (environment : Environment) : Expression → EvalM Value
  | .literal value => return value
  | .variable name => fetch environment name
  | .conditional test consequent alternate => do
    if (← recur environment test).isTrue then recur environment consequent
    else recur environment alternate
  | .sequence first second => do
    let _ ← recur environment first
    recur environment second
  | .assignment name expression => do
    assign environment name (← recur environment expression)
    return .unspecified
  | .lambda abstraction => close { abstraction, environment }
  | .call callee arguments => do
    let callee ← recur environment callee
    let arguments ← values recur environment arguments
    apply natives recur callee arguments

end

/-- Evaluates an expression by recursion to at most the given depth. -/
def evaluate (natives : Array Native) : Nat → Environment → Expression → EvalM Value
  | 0, _, _ => fun _ => none
  | depth + 1, environment, expression =>
    evaluateWith natives (evaluate natives depth) environment expression

end Expression

end MiniScheme
