import MiniScheme.Machine.Run

/-!
# Outcomes of machine actions

An action of the machine ends with a result or with a failure, and with a machine in both cases.
`Meets` states what is expected of the two endings; its rules follow the way actions are put
together. Notes only change the journal.
-/

namespace MiniScheme

namespace MachineM

variable {α β : Type} {m : Machine}

theorem bind_apply (action : MachineM α) (next : α → MachineM β) (m : Machine) :
    (action >>= next) m = match action m with
      | .ok res after => next res after
      | .error fault after => .error fault after := by
  change EStateM.bind action next m = _
  unfold EStateM.bind
  cases action m <;> rfl

theorem get_apply (m : Machine) : (get : MachineM Machine) m = .ok m m := rfl

theorem modify_apply (change : Machine → Machine) (m : Machine) :
    (modify change : MachineM Unit) m = .ok () (change m) := rfl

theorem throw_apply (fault : Fault) (m : Machine) :
    (throw fault : MachineM α) m = .error fault m := rfl

theorem ite_apply (condition : Prop) [Decidable condition] (yes no : MachineM α)
    (m : Machine) : (if condition then yes else no) m = if condition then yes m else no m := by
  split <;> rfl

/-- An action ends as expected: with a good result or with an acceptable failure. -/
def Meets (good : α → Machine → Prop) (bad : Fault → Machine → Prop) :
    EStateM.Result Fault Machine α → Prop
  | .ok result after => good result after
  | .error fault after => bad fault after

variable {good : α → Machine → Prop} {fine : β → Machine → Prop} {bad : Fault → Machine → Prop}

variable {next : α → MachineM β}

/-- One action after another: the second starts from what the first ends with. -/
theorem Meets.bind {action : MachineM α} (first : Meets good bad (action m))
    (rest : ∀ res mid, good res mid → Meets fine bad (next res mid)) :
    Meets fine bad ((action >>= next) m) := by
  rw [bind_apply]
  cases out : action m with
  | ok res mid =>
    rw [out] at first
    exact rest res mid first
  | error fault mid =>
    rw [out] at first
    exact first

theorem Meets.mono {good' : α → Machine → Prop} {bad' : Fault → Machine → Prop}
    {out : EStateM.Result Fault Machine α} (meets : Meets good bad out)
    (better : ∀ res after, good res after → good' res after)
    (worse : ∀ fault after, bad fault after → bad' fault after) : Meets good' bad' out := by
  cases out with
  | ok res after => exact better res after meets
  | error fault after => exact worse fault after meets

theorem Meets.getThen {next : Machine → MachineM β} (rest : Meets fine bad (next m m)) :
    Meets fine bad ((get >>= next) m) :=
  rest

theorem Meets.findThen {defect : Defect} {view : Machine → Option α}
    (failed : bad (.defect defect) m)
    (rest : ∀ res, view m = some res → Meets fine bad (next res m)) :
    Meets fine bad ((find defect view >>= next) m) := by
  rw [bind_apply, find]
  cases found : view m with
  | some res => exact rest res found
  | none => exact failed

theorem Meets.operandThen {offset : Nat} {next : Int32 → MachineM β}
    (failed : bad (.defect .missingOperand) m) (rest : ∀ operand, Meets fine bad (next operand m)) :
    Meets fine bad ((operand offset >>= next) m) :=
  Meets.findThen failed fun operand _ => rest operand

end MachineM

namespace Machine

variable (m : Machine) (detail : Detail) (message : Unit → String)

theorem note_eq : ∃ journal, m.note detail message =
    { m with store := { m.store with journal } } := by
  unfold note
  split
  · exact ⟨_, rfl⟩
  · exact ⟨_, rfl⟩

@[simp] theorem note_heap : (m.note detail message).heap = m.heap := by
  obtain ⟨journal, eq⟩ := m.note_eq detail message
  rw [eq]
  rfl

theorem collect_eq : ∃ journal, m.collect.2 =
    { m with
      store := { m.store with heap := (m.heap.collect m.roots).2, journal } } :=
  note_eq (m.onHeap fun heap => heap.collect m.roots).2 .debug _

variable {m}

/-- The machine when it is about to carry out an instruction. -/
def facing (op : Op) (machine : Machine) : Machine :=
  (machine.advance op).note .trace fun _ =>
    stepText op machine.current.pc machine.current.operandCount machine.calls.height

theorem facing_eq (m : Machine) (op : Op) : ∃ journal, m.facing op =
    { m.advance op with store := { m.store with journal } } :=
  note_eq (m.advance op) .trace _

theorem suspended_facing (m : Machine) (op : Op) : (m.facing op).suspended = m.suspended := by
  obtain ⟨journal, faced⟩ := m.facing_eq op
  rw [faced]
  rfl

theorem run_succ {σ : Type} {op : Op}
    (fetched : m.current.lambda.body.op? m.current.pc = some op) (observe : Op → σ → σ)
    (room : Nat) (observed : σ) : m.run observe (room + 1) observed =
      match step op m.current.pc (m.facing op) with
      | .ok .next after => after.run observe room (observe op observed)
      | .ok (.exit v) after => (.ok (some v), observe op observed, after)
      | .ok .suspend after => (.ok none, observe op observed, after)
      | .error fault after =>
        (.error (after.errorOf fault), observe op observed, (after.fail fault).2) := by
  simp only [run, fetched]
  rfl

/-! ### Calls of closures, in one equation -/

/-- Adds an invocation of a closure to the heap. -/
def invoke (closure : Handle) (lambda : Lambda) (arguments : List Value) (machine : Machine) :
    Handle × Machine :=
  machine.onHeap fun heap =>
    let (slots, heap) := slots lambda arguments heap
    heap.alloc (.invocation (some closure) slots)

/-- Puts the machine at the start of a procedure. -/
def enter (lambda : Lambda) (invocation : Handle) (tail : Bool) (machine : Machine) : Machine :=
  let machine :=
    if tail then machine else { machine with calls := machine.calls.push machine.current }
  let machine := machine.note .debug fun _ =>
    (if tail then "tail call " else "call ") ++ lambda.name.getD "<lambda>"
  { machine with current := { pc := 0, invocation, operandCount := 0, lambda } }

/-- Where the machine is at the start of a procedure, whatever was noted. -/
theorem enter_eq (lam : Lambda) (inv : Handle) (tail : Bool) (m : Machine) :
    ∃ journal, m.enter lam inv tail =
      { m with
        store := { m.store with journal }
        calls := if tail then m.calls else m.calls.push m.current
        current := { pc := 0, invocation := inv, operandCount := 0, lambda := lam } } := by
  cases tail with
  | true =>
    obtain ⟨journal, eq⟩ := m.note_eq .debug fun _ =>
      "tail call " ++ lam.name.getD "<lambda>"
    exact ⟨journal, by simp [enter, eq]⟩
  | false =>
    obtain ⟨journal, eq⟩ := note_eq { m with calls := m.calls.push m.current } .debug fun _ =>
        "call " ++ lam.name.getD "<lambda>"
    exact ⟨journal, by simp [enter, eq]⟩

variable {closure : Handle} {lam : Lambda} {parent : Option Handle}

theorem callClosure_dangling (dangling : m.heap.closure? closure = none)
    (args : List Value) (tail : Bool) :
    callClosure closure args tail m = .error (.defect .danglingClosure) m := by
  simp [callClosure, MachineM.bind_apply, MachineM.find, dangling]

theorem callClosure_eq (found : m.heap.closure? closure = some (lam, parent))
    (args : List Value) (tail : Bool) : callClosure closure args tail m =
      if lam.arity.accepts args.length then
        let (inv, invoked) := m.invoke closure lam args
        if tail = false ∧ invoked.ceiling ≤ invoked.stack.height + invoked.calls.height then
          .error .stackOverflow invoked
        else .ok .next (invoked.enter lam inv tail)
      else .error (.wrongArity lam.arity) m := by
  simp only [callClosure, MachineM.bind_apply, MachineM.find, found, Option.map_some]
  cases lam.arity.accepts args.length with
  | false => rfl
  | true =>
    cases tail with
    | true => rfl
    | false =>
      simp only [if_true, true_and, Bool.false_eq_true, if_false, MachineM.bind_apply,
        MachineM.get_apply, MachineM.throw_apply, MachineM.modify_apply, MachineM.ite_apply]
      rfl

theorem callNative_eq {id : NativeId} {native : Native} (found : m.natives[id]? = some native)
    (args : List Value) (tail : Bool) : callNative id args tail m =
      if native.arity.accepts args.length then
        match native.run args m.store with
        | .ok (some v) store => .ok .next (complete v tail { m with store })
        | .ok none store => .ok .suspend
            { note .debug (fun _ => "suspended in " ++ (native.name)) { m with store } with
              suspended := some tail }
        | .error fault store => .error fault { m with store }
      else .error (.wrongArity native.arity) m := by
  simp only [callNative, MachineM.bind_apply, MachineM.find, found]
  cases native.arity.accepts args.length with
  | false => rfl
  | true =>
    simp only [if_true, MachineM.bind_apply, MachineM.native]
    generalize native.run args m.store = answer
    match answer with
    | .ok (some _) _ => rfl
    | .ok none _ => rfl
    | .error _ _ => rfl

/-! ### New closures and continuations, and lists of arguments -/

/-- Adds a closure to the heap that was created where the machine is. -/
def close (lambda : Lambda) (machine : Machine) : Handle × Machine :=
  machine.onHeap fun heap => heap.alloc (.closure lambda (some machine.current.invocation))

def remember (tail : Bool) (machine : Machine) : Handle × Machine :=
  let noted := machine.note .debug fun _ =>
    "captured continuation at " ++ offsetText (machine.snapshot tail).current.pc
  noted.onHeap fun heap => heap.alloc (.continuation (machine.snapshot tail))

/-- What the machine is like with a new continuation, whatever was noted. -/
theorem remember_eq (tail : Bool) (m : Machine) : ∃ journal,
    m.remember tail = ((m.heap.alloc (.continuation (m.snapshot tail))).1,
      { m with
        store :=
          { m.store with
            heap := (m.heap.alloc (.continuation (m.snapshot tail))).2
            journal } }) := by
  obtain ⟨journal, eq⟩ := m.note_eq .debug fun _ =>
    "captured continuation at " ++ offsetText (m.snapshot tail).current.pc
  refine ⟨journal, ?_⟩
  rw [remember, eq]
  rfl

theorem eq_append_of_unsnoc? {vals front : List Value} {last : Value}
    (split : unsnoc? vals = some (front, last)) : vals = front ++ [last] := by
  induction vals generalizing front with
  | nil => cases split
  | cons v vals ih =>
    cases vals with
    | nil =>
      cases split
      rfl
    | cons next vals =>
      obtain ⟨⟨inner, final⟩, split, eq⟩ := Option.map_eq_some_iff.mp split
      cases eq
      rw [ih split]
      rfl

theorem unsnoc?_cons (v : Value) (vals : List Value) :
    ∃ front last, unsnoc? (v :: vals) = some (front, last) := by
  induction vals generalizing v with
  | nil => exact ⟨[], v, rfl⟩
  | cons next vals ih =>
    obtain ⟨front, last, split⟩ := ih next
    exact ⟨v :: front, last, by simp [unsnoc?, split]⟩

theorem unsnoc?_append (front : List Value) (last : Value) :
    unsnoc? (front ++ [last]) = some (front, last) := by
  induction front with
  | nil => rfl
  | cons v vals ih =>
    cases vals with
    | nil => rfl
    | cons next vals => simpa [unsnoc?] using ih

/-! ### Calls that lead to another call -/

theorem dispatch_capture (room : Nat) (receiver : Value) (tail : Bool) (m : Machine) :
    dispatch (room + 1) .capture [receiver] tail m =
      dispatch room receiver [.continuation (m.remember tail).1] tail (m.remember tail).2 := rfl

/-- The procedure is called with the elements of the list behind the other arguments. -/
theorem dispatch_apply (room : Nat) (proc : Value) (front : List Value) (list : Value)
    (tail : Bool) (m : Machine) :
    dispatch (room + 1) .apply (proc :: (front ++ [list])) tail m = match m.heap.elements? list with
      | some vals => dispatch room proc (front ++ vals) tail m
      | none => .error .invalidArgument m := by
  have split := unsnoc?_append front list
  generalize front ++ [list] = args at split ⊢
  cases args with
  | nil => cases split
  | cons first others =>
    rw [dispatch, split, Option.getD_some]
    dsimp only
    rw [MachineM.bind_apply, spread]
    cases m.heap.elements? list <;> rfl

def isRefusal : Fault → Prop
  | .endlessApply | .wrongArity _ | .invalidArgument | .notAProcedure => True
  | _ => False

/-- What makes all calls end as expected, given what is known before them: that calls of procedures
do, and that the same is known before a call which another one leads to. -/
structure DispatchRule (tail : Bool) (ready : Machine → Value → List Value → Prop)
    (ends : Machine → EStateM.Result Fault Machine Flow → Prop) : Prop where
  refusal {machine : Machine} {callee : Value} {arguments : List Value} {fault : Fault} :
    ready machine callee arguments → isRefusal fault → ends machine (.error fault machine)
  closure {machine : Machine} {handle : Handle} {arguments : List Value} :
    ready machine (.closure handle) arguments →
      ends machine (callClosure handle arguments tail machine)
  native {machine : Machine} {id : NativeId} {arguments : List Value} :
    ready machine (.native id) arguments → ends machine (callNative id arguments tail machine)
  continuation {machine : Machine} {handle : Handle} {value : Value} :
    ready machine (.continuation handle) [value] →
      ends machine (callContinuation handle value machine)
  capture {machine : Machine} {receiver : Value} : ready machine .capture [receiver] →
    ready (machine.remember tail).2 receiver [.continuation (machine.remember tail).1] ∧
      ∀ {outcome}, ends (machine.remember tail).2 outcome → ends machine outcome
  apply {machine : Machine} {procedure list : Value} {front values : List Value} :
    ready machine .apply (procedure :: (front ++ [list])) →
      machine.heap.elements? list = some values → ready machine procedure (front ++ values)

theorem DispatchRule.dispatch {tail : Bool} {ready : Machine → Value → List Value → Prop}
    {ends : Machine → EStateM.Result Fault Machine Flow → Prop}
    (rule : DispatchRule tail ready ends) (room : Nat) {callee : Value} {args : List Value}
    (known : ready m callee args) : ends m (dispatch room callee args tail m) := by
  induction room generalizing m callee args with
  | zero => exact rule.refusal known trivial
  | succ room ih =>
    cases callee
    case closure => exact rule.closure known
    case native => exact rule.native known
    case continuation =>
      match args with
      | [_] => exact rule.continuation known
      | [] | _ :: _ :: _ => exact rule.refusal known trivial
    case capture =>
      match args with
      | [_] => exact (rule.capture known).2 (ih (rule.capture known).1)
      | [] | _ :: _ :: _ => exact rule.refusal known trivial
    case apply =>
      match args with
      | proc :: first :: others =>
        obtain ⟨front, list, split⟩ := unsnoc?_cons first others
        rw [eq_append_of_unsnoc? split] at known ⊢
        rw [dispatch_apply]
        split
        · rename_i found
          exact ih (rule.apply known found)
        · exact rule.refusal known trivial
      | [] | [_] => exact rule.refusal known trivial
    all_goals exact rule.refusal known trivial

/-! ### The code of the top level -/

def extend (lambda : Lambda) (constants : Array Constant) (code : Bytecode) : Lambda :=
  { lambda with
    constants := lambda.constants ++ constants.drop lambda.constants.size
    body := lambda.body ++ code }

/-- The machine at the start of code that was appended. -/
def loaded (lambda : Lambda) (constants : Array Constant) (code : Bytecode) (machine : Machine) :
    Machine :=
  let extended := extend lambda constants code
  let changed := (machine.onHeap fun heap =>
    ((), heap.modifyLambda machine.topClosure fun _ => extended)).2
  { changed with
    stack := .empty
    calls := .empty
    suspended := none
    current :=
      { pc := lambda.body.size, invocation := machine.topLevel, operandCount := 0
        lambda := extended } }

theorem append_eq (found : m.heap.closure? m.topClosure = some (lam, parent))
    (constants : Array Constant) (code : Bytecode) :
    m.append constants code = .ok (m.loaded lam constants code) := by
  simp only [append, found]
  rfl

end Machine

end MiniScheme
