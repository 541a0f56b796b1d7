import Mathlib.Logic.Relation
import MiniScheme.Proofs.Machine.Stability

/-!
# Continuations

Calling a continuation puts the machine where returning from the call that captured it would have
put it, however often and however late it is called. `Point` is where a machine can be: between two
instructions, or within a call, before the next procedure is entered. `Point.Next` lists what can
happen there: code runs, calls lead to other calls, computations are abandoned and resumed, code is
appended, garbage is collected, and the application and the compiler work on the store. None of
this touches a captured state. Only a collection can take it away, and then it cannot be called.
-/

namespace MiniScheme.Machine

/-- A call that is about to be made, and how often it may lead to another. -/
structure Attempt where
  room : Nat
  callee : Value
  arguments : List Value
  machine : Machine

def Attempt.dispatch (attempt : Attempt) (tail : Bool) : EStateM.Result Fault Machine Flow :=
  Machine.dispatch attempt.room attempt.callee attempt.arguments tail attempt.machine

def callOp (tail : Bool) : Op :=
  if tail then .tailCall else .call

/-- Where a machine can be. -/
inductive Point where
  /-- Between two instructions. -/
  | between (machine : Machine)
  /-- Within a call. -/
  | calling (tail : Bool) (attempt : Attempt)

namespace Point

def machine : Point → Machine
  | .between machine => machine
  | .calling _ attempt => attempt.machine

def values : Point → List Value
  | .between _ => []
  | .calling _ attempt => attempt.callee :: attempt.arguments

/-- What can happen next. -/
inductive Next : Point → Point → Prop where
  /-- Some instructions are carried out. -/
  | run {machine : Machine} {σ : Type} (observe : Op → σ → σ) (room : Nat) (observed : σ) :
      Next (.between machine) (.between (machine.run observe room observed).2.2)
  /-- An instruction takes a procedure and its arguments from the stack to call it. -/
  | call {machine popped : Machine} {tail : Bool} {callee : Value} {arguments : List Value}
      (fetched : machine.current.lambda.body.op? machine.current.pc = some (callOp tail))
      (taken : operands (machine.facing (callOp tail)) = .ok (callee, arguments) popped) :
      Next (.between machine) (.calling tail ⟨maxRedirections, callee, arguments, popped⟩)
  /-- `apply` is called, and calls a procedure with the elements of a list. -/
  | apply {tail : Bool} {room : Nat} {procedure list : Value} {front values : List Value}
      {machine : Machine} (spread : machine.heap.elements? list = some values) :
      Next (.calling tail ⟨room + 1, .apply, procedure :: (front ++ [list]), machine⟩)
        (.calling tail ⟨room, procedure, front ++ values, machine⟩)
  /-- `call/cc` is called, and calls the receiver with a new continuation. -/
  | capture {tail : Bool} {room : Nat} {receiver : Value} {machine : Machine} :
      Next (.calling tail ⟨room + 1, .capture, [receiver], machine⟩)
        (.calling tail ⟨room, receiver, [.continuation (machine.remember tail).1],
          (machine.remember tail).2⟩)
  /-- The call is made. -/
  | finish {tail : Bool} {attempt : Attempt} {flow : Flow} {machine : Machine}
      (done : attempt.dispatch tail = .ok flow machine) :
      Next (.calling tail attempt) (.between machine)
  /-- The call fails, and the computation is abandoned. -/
  | fail {tail : Bool} {attempt : Attempt} {fault : Fault} {machine : Machine}
      (failed : attempt.dispatch tail = .error fault machine) :
      Next (.calling tail attempt) (.between (machine.fail fault).2)
  | wake {machine : Machine} {value : Value} (live : value.Sound .full machine.heap) :
      Next (.between machine) (.between (machine.wake value).2)
  | reset {machine : Machine} : Next (.between machine) (.between machine.reset)
  | collect {machine : Machine} : Next (.between machine) (.between machine.collect.2)
  /-- The code is arbitrary; its constants are live. -/
  | append {machine after : Machine} {constants : Array Constant} {code : Bytecode}
      (live : ∀ constant ∈ constants, constant.Sound .full machine.heap)
      (appended : machine.append constants code = .ok after) :
      Next (.between machine) (.between after)
  | addNative {machine : Machine} {native : Native} (tame : native.Tame .full) :
      Next (.between machine) (.between (machine.addNative native).2)
  /-- The application or the compiler works on the store. It keeps all objects, leaves no reference
  in vain, and changes no continuation. -/
  | work {machine : Machine} {store : Store} (keeps : machine.heap.Keeps store.heap)
      (sound : store.heap.Sound .full)
      (recalls : ∀ handle snapshot, machine.heap.get? handle = some (.continuation snapshot) →
        store.heap.get? handle = some (.continuation snapshot)) :
      Next (.between machine) (.between { machine with store })

abbrev Leads : Point → Point → Prop :=
  Relation.ReflTransGen Next

/-- Whatever follows, as long as an object has not been reclaimed. -/
abbrev LeadsWith (handle : Handle) : Point → Point → Prop :=
  Relation.ReflTransGen fun point next => Next point next ∧ next.machine.heap.isLive handle = true

/-- All references are to live objects, and the native procedures are tame. -/
structure Sound (point : Point) : Prop where
  machine : point.machine.Sound .full
  values : ∀ value ∈ point.values, value.Sound .full point.machine.heap
  tame : ∀ native ∈ point.machine.natives, native.Tame .full

theorem sound_initial (cap : Nat) : (between (.initial cap)).Sound where
  machine := Machine.sound_initial cap ⟨fun _ _ => trivial, fun _ => trivial⟩
  values := nofun
  tame := fun native mem => Stdlib.tame_registry native mem

/-- `point.Recalls next`: if all references were to live objects they are so next, and a captured
state is the same as long as it is there. -/
def Recalls (point next : Point) : Prop :=
  next.Sound ∧ ∀ handle snapshot, next.machine.heap.isLive handle = true →
    point.machine.heap.get? handle = some (.continuation snapshot) →
      next.machine.heap.get? handle = some (.continuation snapshot)

variable {point next : Point}

theorem Sound.maintain (sound : point.Sound) (maintains : point.machine.Maintains next.machine)
    (m : next.machine.Sound .full) (vals : ∀ v ∈ next.values, v.Sound .full next.machine.heap) :
    point.Recalls next := by
  refine ⟨⟨m, vals, ?_⟩, fun h snapshot _ => maintains.steady.continuation h _⟩
  rw [maintains.anchors.natives]
  exact sound.tame

variable {m : Machine} {tail : Bool} {room : Nat}

theorem Sound.callable {attempt : Attempt} (sound : (calling tail attempt).Sound) :
    Callable .full attempt.machine attempt.callee attempt.arguments := by
  obtain ⟨callee, args⟩ := List.forall_mem_cons.mp sound.values
  exact ⟨sound.machine, callee, args⟩

theorem Sound.calls {attempt : Attempt} (sound : point.Sound)
    (maintains : point.machine.Maintains attempt.machine)
    (callable : Callable .full attempt.machine attempt.callee attempt.arguments) :
    point.Recalls (.calling tail attempt) :=
  sound.maintain maintains callable.sound
    (List.forall_mem_cons.mpr ⟨callable.callee, callable.arguments⟩)

theorem recalls_call {popped : Machine} {op : Op} {callee : Value} {args : List Value}
    (sound : (between m).Sound)
    (taken : operands (m.facing op) = .ok (callee, args) popped) (room : Nat) :
    (between m).Recalls (.calling tail ⟨room, callee, args, popped⟩) := by
  have faces : m.Upholds .full (m.facing op) := sound.machine.faces op
  have popped_safe := safe_operands faces.sound
  rw [taken] at popped_safe
  obtain ⟨upholds, values_sound⟩ := popped_safe
  exact sound.maintain ((faces.trans upholds).maintains sound.tame) upholds.sound
    (List.forall_mem_cons.mpr values_sound)

theorem recalls_dispatch {attempt : Attempt} (sound : (calling tail attempt).Sound) :
    MachineM.Meets (fun _ after => (calling tail attempt).Recalls (.between after))
      (fun fault after => (calling tail attempt).Recalls (.between (after.fail fault).2))
      (attempt.dispatch tail) := by
  have safe := safe_dispatch attempt.room sound.callable tail
  rw [Attempt.dispatch]
  cases out : Machine.dispatch attempt.room attempt.callee attempt.arguments tail
      attempt.machine with
  | ok flow after =>
    rw [out] at safe
    exact sound.maintain (safe.1.maintains sound.tame) safe.1.sound nofun
  | error fault after =>
    rw [out] at safe
    exact sound.maintain ((safe.maintains sound.tame).trans (.fail after fault))
      (safe.sound.fail fault) nofun

theorem recalls_collect (sound : (between m).Sound) :
    (between m).Recalls (.between m.collect.2) := by
  obtain ⟨journal, collected⟩ := m.collect_eq
  refine ⟨⟨sound.machine.collect, nofun, ?_⟩, ?_⟩
  · change ∀ native ∈ m.collect.2.natives, native.Tame .full
    rw [collected]
    exact sound.tame
  · intro h snapshot live held
    change m.collect.2.heap.isLive h = true at live
    change m.collect.2.heap.get? h = _
    rw [collected] at live ⊢
    obtain ⟨obj, survived⟩ := Heap.isLive_iff.mp live
    obtain ⟨same, reaches⟩ := (Heap.get?_collect ..).mp survived
    exact (Heap.get?_collect ..).mpr ⟨held, reaches⟩

theorem recalls_append {after : Machine} {constants : Array Constant} {code : Bytecode}
    (sound : (between m).Sound) (live : ∀ constant ∈ constants, constant.Sound .full m.heap)
    (appended : m.append constants code = .ok after) : (between m).Recalls (.between after) := by
  have machine_sound : m.Sound .full := sound.machine
  have appended_sound := machine_sound.append live appended
  obtain ⟨obj, held, kind⟩ := machine_sound.topClosure
  cases obj with
  | closure lam parent =>
    rw [append_eq (Heap.closure?_eq_some_iff.mpr held)] at appended
    cases appended
    refine ⟨⟨appended_sound, nofun, sound.tame⟩, ?_⟩
    intro h snapshot _ captured
    change (m.heap.modifyLambda m.topClosure _).get? h = _
    change m.heap.get? h = _ at captured
    rw [Heap.get?_modifyLambda, captured]
    split <;> rfl
  | pair | vector | invocation | continuation => cases kind

theorem Next.recalls (happens : Next point next) (sound : point.Sound) : point.Recalls next := by
  cases happens with
  | run observe room observed =>
    exact sound.maintain (.run observe room observed sound.machine sound.tame)
      (sound.machine.run observe room observed) nofun
  | call fetched taken => exact recalls_call sound taken _
  | apply spread => exact sound.calls (.refl _) (sound.callable.apply spread)
  | capture =>
    exact sound.calls (.remember sound.machine.heap.consistent _) (sound.callable.capture _)
  | finish done =>
    have recalls := recalls_dispatch sound
    rw [done] at recalls
    exact recalls
  | fail failed =>
    have recalls := recalls_dispatch sound
    rw [failed] at recalls
    exact recalls
  | wake live =>
    exact sound.maintain (.wake _ _) (sound.machine.wake live) nofun
  | reset => exact sound.maintain (.reset _) sound.machine.reset nofun
  | collect => exact recalls_collect sound
  | append live appended => exact recalls_append sound live appended
  | addNative tame =>
    refine ⟨⟨sound.machine.addNative tame.sound, nofun, ?_⟩, fun _ _ _ held => held⟩
    intro other mem
    rcases Array.mem_push.mp mem with known | rfl
    · exact sound.tame other known
    · exact tame
  | work keeps heap_sound recalls =>
    refine ⟨⟨?_, nofun, sound.tame⟩, fun h snapshot _ =>
      recalls h snapshot⟩
    exact sound.machine.move ⟨rfl, rfl, rfl, rfl⟩ heap_sound keeps
      (sound.machine.control.mono keeps)

theorem Leads.sound (leads : Leads point next) (sound : point.Sound) : next.Sound := by
  induction leads with
  | refl => exact sound
  | tail _ happens ih => exact (happens.recalls ih).1

/-- A captured state stays as it is for as long as it is there. -/
theorem LeadsWith.get? {h : Handle} {snapshot : Snapshot} (leads : LeadsWith h point next)
    (sound : point.Sound) (captured : point.machine.heap.get? h = some (.continuation snapshot)) :
    next.Sound ∧ next.machine.heap.get? h = some (.continuation snapshot) := by
  induction leads with
  | refl => exact ⟨sound, captured⟩
  | tail _ happens ih =>
    obtain ⟨happens, live⟩ := happens
    obtain ⟨next_sound, recalls⟩ := happens.recalls ih.1
    exact ⟨next_sound, recalls h snapshot live ih.2⟩

end Point

variable {m : Machine}

theorem get?_remember (sane : m.heap.Consistent) (tail : Bool) :
    (m.remember tail).2.heap.get? (m.remember tail).1 = some (.continuation (m.snapshot tail)) := by
  obtain ⟨journal, eq⟩ := remember_eq tail m
  rw [eq]
  change (m.heap.alloc _).2.get? _ = _
  rw [Heap.get?_alloc sane, if_pos rfl]

theorem callContinuation_eq {cont : Handle} {snapshot : Snapshot}
    (found : m.heap.get? cont = some (.continuation snapshot)) (v : Value) :
    callContinuation cont v m = .ok .next ((m.note .debug fun _ =>
        "restoring continuation at " ++ offsetText snapshot.current.pc).restore snapshot v) := by
  rw [callContinuation, MachineM.bind_apply, MachineM.find,
    Heap.continuation?_eq_some_iff.mpr found]
  rfl

/-- What a continuation restores is what returning would have made of the machine that captured
it. -/
theorem restore_snapshot (captured m : Machine) (v : Value) (tail : Bool) :
    let after := m.restore (captured.snapshot tail) v
    let returned := captured.complete v tail
    after.stack = returned.stack ∧ after.calls = returned.calls ∧
      after.current = returned.current := by
  rw [restore, snapshot, complete]
  cases tail with
  | false => exact ⟨rfl, rfl, rfl⟩
  | true =>
    cases captured.calls.pop? with
    | none => exact ⟨rfl, rfl, rfl⟩
    | some caller => exact ⟨rfl, rfl, rfl⟩

/-- Continuations are faithful and can be called any number of times. Let `call/cc` be called with
one argument, somewhere in the life of a machine, and let the continuation that it captures be
called with one value at any later time, however that call came about. The call succeeds, and the
stacks and the registers are then those that returning the value from the call of `call/cc` would
have produced at once. -/
theorem continuation_resumes {ceiling room room' : Nat} {tail tail' : Bool} {receiver value : Value}
    {captured calling : Machine}
    (captures : Point.Leads (.between (.initial ceiling))
      (.calling tail ⟨room + 1, .capture, [receiver], captured⟩))
    (later : Point.LeadsWith (captured.remember tail).1
      (.calling tail ⟨room, receiver, [.continuation (captured.remember tail).1],
        (captured.remember tail).2⟩)
      (.calling tail' ⟨room' + 1, .continuation (captured.remember tail).1, [value], calling⟩)) :
    ∃ after, Attempt.dispatch
        ⟨room' + 1, .continuation (captured.remember tail).1, [value], calling⟩ tail' =
          .ok .next after ∧
      after.stack = (captured.complete value tail).stack ∧
      after.calls = (captured.complete value tail).calls ∧
      after.current = (captured.complete value tail).current := by
  have sound := Point.Leads.sound captures (Point.sound_initial ceiling)
  have remembered := (Point.Next.capture.recalls sound).1
  have held := get?_remember sound.machine.heap.consistent tail
  obtain ⟨-, found⟩ := Point.LeadsWith.get? later remembered held
  refine ⟨_, callContinuation_eq found value, ?_⟩
  exact restore_snapshot captured _ value tail

def stateOf {α : Type} : EStateM.Result Fault Machine α → Machine
  | .ok _ machine => machine
  | .error _ machine => machine

/-- A machine with the code of `((call/cc call/cc) 5)`. -/
def nestedCapture : Machine :=
  (initial 16).loaded .empty #[.value .capture, .value (.integer 5)]
    (.ofOp .resetOperandCount [] ++ .ofOp .resetOperandCount [] ++ .ofOp .constant [0] ++
      .ofOp .constant [0] ++ .ofOp .call [] ++ .ofOp .constant [1] ++ .ofOp .call [])

/-- The machine when `call/cc` is called with itself. -/
def innerCall : Machine :=
  stateOf (operands ((nestedCapture.run (fun _ seen => seen) 4 ()).2.2.facing .call))

/-- The machine when `call/cc` is called with the first continuation. -/
def firstCaptured : Machine :=
  (innerCall.remember false).2

/-- The first continuation is called with the second. -/
def firstCalled : Attempt :=
  ⟨maxRedirections - 2, .continuation (innerCall.remember false).1,
    [.continuation (firstCaptured.remember false).1], (firstCaptured.remember false).2⟩

def outerCall : Machine :=
  ((stateOf (firstCalled.dispatch false)).run (fun _ seen => seen) 1 ()).2.2

/-- `((call/cc call/cc) 5)`: the inner call captures a continuation within the capture of another,
and answers with it. The outer one calls it with a number, after a collection. -/
theorem continuation_resumes_nestedCapture : ∃ (calling after : Machine),
    let continuation := (firstCaptured.remember false).1
    Point.LeadsWith continuation (.calling false firstCalled)
      (.calling false ⟨maxRedirections, .continuation continuation, [.integer 5], calling⟩) ∧
    Attempt.dispatch ⟨maxRedirections, .continuation continuation, [.integer 5], calling⟩ false =
      .ok .next after ∧ after.stack.items = [.integer 5, .integer 0] := by
  have live : ∀ constant ∈ (#[.value .capture, .value (.integer 5)] : Array Constant),
      constant.Sound .full (initial 16).heap := by
    intro constant member
    rcases List.mem_pair.mp (Array.mem_toList_iff.mpr member) with rfl | rfl <;>
      exact ⟨trivial, nofun⟩
  have loads : Point.Leads (.between (.initial 16)) (.between nestedCapture) :=
    .single (.append live rfl)
  have calls : Point.Leads (.between (.initial 16))
      (.calling false ⟨maxRedirections, .capture, [.capture], innerCall⟩) :=
    (loads.tail (.run (fun _ seen => seen) 4 ())).tail (.call rfl rfl)
  have captures : Point.Leads (.between (.initial 16)) (.calling false ⟨maxRedirections - 2 + 1,
      .capture, [.continuation (innerCall.remember false).1], firstCaptured⟩) :=
    calls.tail .capture
  have returns : Point.LeadsWith (firstCaptured.remember false).1 (.calling false firstCalled)
      (.between outerCall) := by
    have called : firstCalled.dispatch false = .ok .next (stateOf (firstCalled.dispatch false)) :=
      rfl
    exact .tail (.single ⟨.finish called, rfl⟩) ⟨.run (fun _ seen => seen) 1 (), rfl⟩
  -- The continuation is on the stack, so the collection cannot reclaim it.
  have survives : outerCall.collect.2.heap.isLive (firstCaptured.remember false).1 = true := by
    have reached : Point.Leads (.between (.initial 16)) (.between outerCall) :=
      (captures.tail .capture).trans
        (Relation.ReflTransGen.mono (fun _ _ => And.left) _ _ returns)
    have sound := (Point.Leads.sound reached (Point.sound_initial 16)).machine.collect
    have kept := sound.control.stack (.continuation (firstCaptured.remember false).1)
      (.tail _ (.head _))
    obtain ⟨object, held, -⟩ := kept.held { kind := .continuation, handle := _ } rfl trivial
    exact Heap.isLive_iff.mpr ⟨object, held⟩
  have later := (returns.tail ⟨.collect, survives⟩).tail
    (⟨.call rfl rfl, survives⟩ : Point.Next _ (.calling false ⟨maxRedirections,
      .continuation (firstCaptured.remember false).1, [.integer 5],
      stateOf (operands (outerCall.collect.2.facing .call))⟩) ∧ _)
  obtain ⟨after, done, stack, -, -⟩ := continuation_resumes captures later
  exact ⟨_, after, later, done, congrArg Stack.items stack⟩

end MiniScheme.Machine
