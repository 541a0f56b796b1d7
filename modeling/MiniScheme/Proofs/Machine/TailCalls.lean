import MiniScheme.Proofs.Machine.Padding

/-!
# Calls in tail position

A call in tail position takes the place of the procedure that makes it. Were it carried out like any
other call, it would leave a frame behind that only hands the value on: nothing but jumps lead from
there to the instruction that leaves the procedure. So two machines, one that eliminates calls in
tail position and one that does not, go through the same states, except that the call stacks of the
second one, the current one and those that continuations have captured, are padded with such frames.
-/

namespace MiniScheme

open MachineM

/-- The instruction as it is carried out where calls in tail position are calls like any other. -/
def Op.plain : Op → Op
  | .tailCall => .call
  | op => op

/-- The answer is that the stacks were full. -/
def Overflows {α : Type} (answer : Except ScriptError α) : Prop :=
  ∃ error, answer = .error error ∧ error.cause = .failed .stackOverflow

/-- How two answers and the states after them compare: the values or the errors are the same,
backtraces aside, and the states are related. -/
inductive Accords {α σ : Type} (related : σ → σ → Prop) :
    Except ScriptError α × σ → Except ScriptError α × σ → Prop
  | ok {state state' : σ} (value : α) (states : related state state') :
      Accords related (.ok value, state) (.ok value, state')
  | error {state state' : σ} {error error' : ScriptError} (cause : error'.cause = error.cause)
      (position : error'.position = error.position) (states : related state state') :
      Accords related (.error error, state) (.error error', state')

theorem Accords.states {α σ : Type} {related : σ → σ → Prop}
    {out out' : Except ScriptError α × σ} (accords : Accords related out out') :
    related out.2 out'.2 := by
  cases accords with
  | ok _ states => exact states
  | error _ _ states => exact states

namespace Machine

/-- How a run proceeds after an instruction. -/
def proceed (onward : Machine → Except ScriptError (Option Value) × Machine) :
    EStateM.Result Fault Machine Flow → Except ScriptError (Option Value) × Machine
  | .ok .next machine => onward machine
  | .ok (.exit value) machine => (.ok (some value), machine)
  | .ok .suspend machine => (.ok none, machine)
  | .error fault machine => (machine.fail fault).map .error id

/-- Carries out at most a number of instructions, each as it is read. -/
def runAs (read : Op → Op) : Nat → Machine → Except ScriptError (Option Value) × Machine
  | 0, machine => (.ok none, machine)
  | room + 1, machine =>
    let pc := machine.current.pc
    match machine.current.lambda.body.op? pc with
    | none =>
      if machine.isDone then (.ok (some .unspecified), machine)
      else (machine.fail (.defect .invalidInstruction)).map .error id
    | some op =>
      let operandCount := machine.current.operandCount
      let depth := machine.calls.height
      proceed (runAs read room) (step (read op) pc
        ((machine.advance op).note .trace fun _ => stepText op pc operandCount depth))

theorem facing_aside (m : Machine) (op : Op) :
    ∃ journal, journal.said = m.store.journal.said ∧
      m.facing op = { m.advance op with store := { m.store with journal } } := by
  have trace : Detail.trace ≠ .info := nofun
  exact (m.advance op).note_aside trace _

theorem runAs_some {m : Machine} {op : Op}
    (fetched : m.current.lambda.body.op? m.current.pc = some op) (read : Op → Op)
    (room : Nat) : runAs read (room + 1) m =
      proceed (runAs read room) (step (read op) m.current.pc (m.facing op)) := by
  simp only [runAs, fetched]
  rfl

/-- This is how the machine runs if instructions are read as they are. -/
theorem runAs_id (room : Nat) (m : Machine) : runAs id room m =
    ((m.run (fun _ => id) room ()).1, (m.run (fun _ => id) room ()).2.2) := by
  induction room generalizing m with
  | zero => rfl
  | succ room ih =>
    cases fetched : m.current.lambda.body.op? m.current.pc with
    | none =>
      simp only [runAs, run, fetched]
      split <;> rfl
    | some op =>
      rw [run_succ fetched, runAs_some fetched, id_eq]
      generalize step op m.current.pc (m.facing op) = out
      rcases out with ⟨_ | _ | _, after⟩ | _
      case ok.next => exact ih after
      all_goals rfl

/-! ### Frames that hand on a value -/

/-- `Steps read count machine after`: after a number of instructions the machine goes on as the other
one. -/
inductive Steps (read : Op → Op) : Nat → Machine → Machine → Prop where
  | refl (machine : Machine) : Steps read 0 machine machine
  | head {count : Nat} {machine middle after : Machine}
      (next : ∀ room, runAs read (room + 1) machine = runAs read room middle)
      (rest : Steps read count middle after) : Steps read (count + 1) machine after

namespace Steps

variable {read : Op → Op} {n n' : Nat} {m mid after : Machine}

theorem trans (first : Steps read n m mid) (second : Steps read n' mid after) :
    Steps read (n + n') m after := by
  induction first with
  | refl => rwa [Nat.zero_add]
  | @head n _ _ _ next _ ih =>
    rw [Nat.add_right_comm]
    exact .head next (ih second)

theorem one {op : Op} (fetched : m.current.lambda.body.op? m.current.pc = some op)
    (stepped : step (read op) m.current.pc (m.facing op) = .ok .next after) :
    Steps read 1 m after := by
  apply Steps.head _ (.refl after)
  intro room
  rw [runAs_some fetched, stepped, proceed]

theorem run (steps : Steps read n m after) (room : Nat) :
    runAs read (n + room) m = runAs read room after := by
  induction steps with
  | refl => rw [Nat.zero_add]
  | @head n _ _ _ next _ ih => rw [Nat.add_right_comm, next, ih]

theorem unfinished (steps : Steps read n m after) {room : Nat} (short : room ≤ n) :
    (runAs read room m).1 = .ok none := by
  induction steps generalizing room with
  | refl =>
    cases Nat.le_zero.mp short
    rfl
  | head next _ ih =>
    cases room with
    | zero => rfl
    | succ room =>
      rw [next]
      exact ih (Nat.le_of_succ_le_succ short)

end Steps

/-- A frame that only hands on a value leaves the procedure when it gets one. -/
theorem steps_of_returns {read : Op → Op} (leave : read .return = .return)
    (jump : read .jump = .jump) {code : Bytecode} {pc : Nat} (returns : code.Returns pc)
    {m : Machine} (body : m.current.lambda.body = code) (here : m.current.pc = pc)
    {v : Value} {xs : List Value} (top : m.stack.items = v :: xs)
    {caller : Frame} {calls : List Frame} (pending : m.calls.items = caller :: calls) :
    ∃ n journal, journal.said = m.store.journal.said ∧ Steps read n m (push v
        { m with
          store := { m.store with journal }, stack := .ofItems xs
          calls := .ofItems calls, current := caller }) := by
  have debug : Detail.debug ≠ .info := nofun
  induction returns generalizing m with
  | here found =>
    subst body here
    obtain ⟨journal, said, faced⟩ := m.facing_aside .return
    obtain ⟨journal', said', noted'⟩ := note_aside
      (drop xs { m.advance .return with store := { m.store with journal } }) debug
      fun _ => "return to " ++ offsetText caller.pc
    refine ⟨1, journal', said'.trans said, .one found ?_⟩
    have returned : step .return m.current.pc
        { m.advance .return with store := { m.store with journal } } = .ok .next _ :=
      step_return top pending
    rw [resume, noted'] at returned
    rw [faced, leave]
    exact returned
  | @jump _ target instr found known leads there ih =>
    subst body here
    obtain ⟨op, operands, complete⟩ := instr
    cases known
    obtain ⟨distance, rfl⟩ := List.length_eq_one_iff.mp complete
    obtain ⟨fetched, distances⟩ := Bytecode.read_of_instruction? found
    obtain ⟨distance_read, -⟩ := Bytecode.operand?_of_operands? distances
    obtain ⟨journal, said, faced⟩ := m.facing_aside .jump
    let moved := goto target
      { m.advance .jump with store := { m.store with journal } }
    have jumped : Steps read 1 m moved := by
      apply Steps.one fetched
      rw [faced, jump]
      exact step_jump distance_read (Option.some.inj leads) there.lt_size.le
    obtain ⟨n, journal', said', steps⟩ := @ih moved rfl rfl top pending
    exact ⟨1 + n, journal', said'.trans said, jumped.trans steps⟩

/-- `machine.Trails machine'`: the second machine gets to mirror the first one. -/
def Trails (machine machine' : Machine) : Prop :=
  ∃ count middle, Steps Op.plain count machine' middle ∧ machine.Mirrors middle

variable {m m' : Machine} {tail : Bool}

theorem Mirrors.trails (mirrors : m.Mirrors m') : m.Trails m' :=
  ⟨0, m', .refl m', mirrors⟩

/-- A value that is delivered to padded frames is handed on to the frame that it is meant for. -/
theorem trails_deliver {store : Store} {frame frame' : Frame} {calls calls' : List Frame}
    (stores : m.store.Alike (fun _ => Object.Pads) store)
    (frames : Padded (frame :: calls) (frame' :: calls')) (stack : Stack Value) (v : Value) :
    Trails (push v { m with stack, calls := .ofItems calls, current := frame })
      (push v { m with store, stack, calls := .ofItems calls', current := frame' }) := by
  rw [show stack = .ofItems stack.items from Stack.eq_ofItems rfl]
  generalize stack.items = xs
  induction calls' generalizing frame' store with
  | nil =>
    cases frames with
    | keep _ rest => exact Mirrors.trails (.intro stores rest)
    | pad _ rest => cases rest
  | cons caller others ih =>
    cases frames with
    | keep _ rest => exact Mirrors.trails (.intro stores rest)
    | pad returns rest =>
      let waiting := push v
        { m with
          store, stack := .ofItems xs, calls := .ofItems (caller :: others), current := frame' }
      obtain ⟨n, journal, said, steps⟩ :=
        @steps_of_returns _ (rfl : Op.plain .return = .return) rfl _ _ returns waiting rfl rfl _ _
          rfl _ _ rfl
      have stores' : m.store.Alike (fun _ => Object.Pads) { store with journal } :=
        ⟨stores.heap, stores.hosts, said.trans stores.said⟩
      obtain ⟨n', mid, steps', mirrors⟩ := ih stores' rest
      exact ⟨n + n', mid, steps.trans steps', mirrors⟩

/-! ### Calls -/

/-- How the outcomes of an instruction compare: they are the same, up to steps that only hand on a
value, unless the second machine has no room for its padding. -/
inductive Concurs : EStateM.Result Fault Machine Flow → EStateM.Result Fault Machine Flow → Prop
  | same {machine machine' : Machine} (flow : Flow) (mirrors : machine.Mirrors machine') :
      Concurs (.ok flow machine) (.ok flow machine')
  | next {machine machine' : Machine} (trails : machine.Trails machine') :
      Concurs (.ok .next machine) (.ok .next machine')
  | fault {machine machine' : Machine} (fault : Fault) (mirrors : machine.Mirrors machine') :
      Concurs (.error fault machine) (.error fault machine')
  | overflow {outcome : EStateM.Result Fault Machine Flow} {machine' : Machine} :
      Concurs outcome (.error .stackOverflow machine')

theorem concurs_of_alike {out out' : EStateM.Result Fault Machine Flow}
    (alike : MachineM.Alike out out') : Concurs out out' := by
  cases alike with
  | ok mirrors => exact .same _ mirrors
  | error mirrors => exact .fault _ mirrors

def receivers (machine : Machine) (tail : Bool) : List Frame :=
  if tail then machine.calls.items else machine.current :: machine.calls.items

/-- `machine.Faces tail machine'`: the machines are the same but for padding, and if the result of a
call leaves the procedure of the first, then the current frame of the second is more padding. -/
structure Faces (machine : Machine) (tail : Bool) (machine' : Machine) : Prop where
  mirrors : machine.Mirrors machine'
  received : ∃ frame calls, machine.receivers tail = frame :: calls
  frames : Padded (machine.receivers tail) (machine'.current :: machine'.calls.items)

theorem trails_complete (faces : m.Faces tail m') (v : Value) :
    (m.complete v tail).Trails (m'.complete v false) := by
  cases tail with
  | false => exact (faces.mirrors.push v).trails
  | true =>
    obtain ⟨frame, calls, received⟩ := faces.received
    change m.calls.items = frame :: calls at received
    have frames := faces.frames
    change Padded m.calls.items _ at frames
    rw [received] at frames
    have completed : m.complete v true =
        push v { m with calls := .ofItems calls, current := frame } := by
      simp [Machine.complete, Stack.pop?_of_items received]
    rw [completed]
    cases faces.mirrors with
    | @intro store calls' stores padded =>
      have delivered := trails_deliver stores frames m.stack v
      rw [← Stack.eq_ofItems rfl] at delivered
      exact delivered

theorem pads_snapshot (faces : m.Faces tail m') : (m.snapshot tail).Pads (m'.snapshot false) := by
  have frames := faces.frames
  cases tail with
  | false =>
    cases faces.mirrors with
    | intro stores padded => exact ⟨rfl, frames⟩
  | true =>
    obtain ⟨frame, calls, received⟩ := faces.received
    change m.calls.items = frame :: calls at received
    change Padded m.calls.items _ at frames
    rw [received] at frames
    have captured : m.snapshot true =
        { stack := m.stack, calls := .ofItems calls, current := frame } := by
      simp [Machine.snapshot, Stack.pop?_of_items received]
    rw [captured]
    cases faces.mirrors with
    | intro stores padded => exact ⟨rfl, frames⟩

namespace Faces

variable {m m' : Machine} {tail : Bool}

section

variable (faces : m.Faces tail m')

include faces

theorem stores : m.store.Alike (fun _ => Object.Pads) m'.store :=
  faces.mirrors.stores

theorem withStore {store store' : Store} (stores : store.Alike (fun _ => Object.Pads) store') :
    Faces { m with store } tail { m' with store := store' } :=
  ⟨faces.mirrors.withStore stores, faces.received, faces.frames⟩

theorem noted {detail : Detail} (aside : detail ≠ .info) (message message' : Unit → String) :
    (m.note detail message).Faces tail (m'.note detail message') := by
  obtain ⟨store, store', stores, eq, eq'⟩ := faces.mirrors.note_eq aside message message'
  rw [eq, eq']
  exact faces.withStore stores

theorem onHeap {α : Type} {work work' : Heap → α × Heap}
    (matched : Heap.Matches (fun _ => Object.Pads) (work m.heap) (work' m'.heap)) :
    (m'.onHeap work').1 = (m.onHeap work).1 ∧ Faces (m.onHeap work).2 tail (m'.onHeap work').2 :=
  ⟨matched.result, faces.withStore (faces.stores.withHeap matched.heaps)⟩

end

end Faces

theorem matches_slots {heap heap' : Heap} (alike : heap.Alike (fun _ => Object.Pads) heap')
    (lam : Lambda) (args : List Value) :
    Heap.Matches (fun _ => Object.Pads) (slots lam args heap) (slots lam args heap') := by
  unfold slots
  cases lam.rest with
  | false => exact ⟨rfl, alike⟩
  | true =>
    have rest := alike.list likeness_pads (args.drop lam.argumentCount)
    simp only [if_true]
    rw [rest.result]
    exact ⟨rfl, rest.heaps⟩

section

variable {m m' : Machine} {tail : Bool}

section

variable (faces : m.Faces tail m')

include faces

theorem Faces.invoke (closure : Handle) (lam : Lambda) (args : List Value) :
    (m'.invoke closure lam args).1 = (m.invoke closure lam args).1 ∧
      Faces (m.invoke closure lam args).2 tail (m'.invoke closure lam args).2 := by
  apply faces.onHeap
  have filled : Heap.Matches (fun _ => Object.Pads) (slots lam args m.heap)
      (slots lam args m'.heap) := matches_slots faces.stores.heap lam args
  dsimp only
  rw [filled.result]
  exact filled.heaps.alloc (.same _)

theorem Faces.enter (lam : Lambda) (inv : Handle) :
    (m.enter lam inv tail).Mirrors (m'.enter lam inv false) := by
  have debug : Detail.debug ≠ .info := nofun
  have frames := faces.frames
  have called : Mirrors (if tail then m else { m with calls := m.calls.push m.current })
      { m' with calls := m'.calls.push m'.current } := by
    cases faces.mirrors with
    | intro stores padded =>
      cases tail <;> exact .intro stores frames
  apply Mirrors.moved
  exact called.noted debug _ _

/-- A closure is called alike, unless there is no room for padding. -/
theorem concurs_callClosure (closure : Handle) (args : List Value) :
    Concurs (callClosure closure args tail m) (callClosure closure args false m') := by
  have same := congrFun faces.stores.heap.closure?_eq closure
  cases found : m.heap.closure? closure with
  | none =>
    rw [callClosure_dangling found, callClosure_dangling (same.trans found)]
    exact .fault _ faces.mirrors
  | some res =>
    obtain ⟨lam, parent⟩ := res
    rw [callClosure_eq found, callClosure_eq (same.trans found)]
    split
    · obtain ⟨created, invoked⟩ := faces.invoke closure lam args
      dsimp only
      rw [created]
      split
      · rename_i full
        rw [if_pos ⟨rfl, invoked.mirrors.full full.2⟩]
        exact .overflow
      · split
        · exact .overflow
        · exact .next (invoked.enter lam _).trails
    · exact .fault _ faces.mirrors

/-- A native procedure that answers at once is called alike. -/
theorem concurs_callNative
    (impartial : ∀ native ∈ m.natives, native.Impartial fun _ => Object.Pads) (id : NativeId)
    (args : List Value) : Concurs (callNative id args tail m) (callNative id args false m') := by
  have same : m'.natives = m.natives := by
    cases faces.mirrors
    rfl
  cases found : m.natives[id]? with
  | none =>
    simp only [callNative, bind_apply, find, same, found]
    exact .fault _ faces.mirrors
  | some proc =>
    have fair := impartial proc (Array.mem_of_getElem? found)
    have outcomes := fair.respects args faces.stores
    rw [callNative_eq found, callNative_eq (same ▸ found)]
    split
    · generalize ran : proc.run args m.store = out at outcomes
      generalize proc.run args m'.store = out' at outcomes
      cases outcomes with
      | error stores => exact .fault _ (faces.withStore stores).mirrors
      | @ok res _ _ stores =>
        obtain ⟨v, rfl⟩ := Option.isSome_iff_exists.mp (fair.answers ran)
        exact .next (trails_complete (faces.withStore stores) v)
    · exact .fault _ faces.mirrors

theorem concurs_callContinuation (cont : Handle) (v : Value) :
    Concurs (callContinuation cont v m) (callContinuation cont v m') := by
  have debug : Detail.debug ≠ .info := nofun
  have related : Option.Rel Snapshot.Pads (m.heap.continuation? cont)
    (m'.heap.continuation? cont) := faces.stores.heap.continuation? cont
  simp only [callContinuation, bind_apply, find, modify_apply]
  generalize m.heap.continuation? cont = found at related
  generalize m'.heap.continuation? cont = found' at related
  cases related with
  | none => exact .fault _ faces.mirrors
  | @some snapshot snapshot' pads =>
    have noted := faces.mirrors.noted debug
      (fun _ => "restoring continuation at " ++ offsetText snapshot.current.pc)
      (fun _ => "restoring continuation at " ++ offsetText snapshot'.current.pc)
    change Concurs (.ok .next (restore snapshot v (m.note _ _)))
      (.ok .next (restore snapshot' v (m'.note _ _)))
    apply Concurs.next
    unfold restore
    rw [pads.stack]
    generalize m.note _ _ = current at noted ⊢
    generalize m'.note _ _ = current' at noted ⊢
    cases noted with
    | intro stores padded =>
      have delivered := trails_deliver stores pads.frames snapshot.stack v
      rw [← Stack.eq_ofItems rfl, ← Stack.eq_ofItems rfl] at delivered
      exact delivered

theorem Faces.remember :
    (m'.remember false).1 = (m.remember tail).1 ∧
      Faces (m.remember tail).2 tail (m'.remember false).2 := by
  apply Faces.onHeap
  · apply faces.noted
    nofun
  · rw [note_heap, note_heap]
    exact faces.stores.heap.alloc (.continuation (pads_snapshot faces))

end

end

/-- Calls are made alike, whether they are eliminated or not, unless there is no room for padding. -/
theorem concurs_dispatch (room : Nat) (faces : m.Faces tail m')
    (impartial : ∀ native ∈ m.natives, native.Impartial fun _ => Object.Pads) (callee : Value)
    (args : List Value) :
    Concurs (dispatch room callee args tail m) (dispatch room callee args false m') := by
  induction room generalizing m m' callee args with
  | zero => exact .fault _ faces.mirrors
  | succ room ih =>
    cases callee
    case closure h => exact concurs_callClosure faces h args
    case native id => exact concurs_callNative faces impartial id args
    case continuation h =>
      match args with
      | [v] => exact concurs_callContinuation faces h v
      | [] | _ :: _ :: _ => exact .fault _ faces.mirrors
    case capture =>
      match args with
      | [receiver] =>
        obtain ⟨captured, remembered⟩ := faces.remember
        rw [dispatch_capture, dispatch_capture, captured]
        apply ih remembered
        obtain ⟨journal, eq⟩ := m.remember_eq tail
        rwa [eq]
      | [] | _ :: _ :: _ => exact .fault _ faces.mirrors
    case apply =>
      match args with
      | proc :: first :: others =>
        have same : m'.heap.elements? = m.heap.elements? :=
          (faces.stores.heap.resembles likeness_pads).elements?
        simp only [dispatch, bind_apply, spread, same]
        generalize m.heap.elements? _ = listed
        cases listed with
        | none => exact .fault _ faces.mirrors
        | some vals => exact ih faces impartial proc _
      | [] | [_] => exact .fault _ faces.mirrors
    all_goals exact .fault _ faces.mirrors

/-! ### Instructions -/

variable {data : List Lambda}

section

variable {m m' : Machine} {op : Op} {tail : Bool}

/-- An instruction that leaves a procedure finds a caller, and after a call in tail position there is
nothing left to do. -/
theorem Runs.leaving (runs : m.Runs data)
    (fetched : m.current.lambda.body.op? m.current.pc = some op)
    (leaving : op.level? = some .procedure) :
    (∃ caller calls, m.calls.items = caller :: calls) ∧
      (op = .tailCall → m.current.lambda.body.Returns (m.current.pc + 1)) := by
  obtain ⟨level, saved, below, ⟨⟨shape, -, sited⟩, -⟩, -, beneath⟩ := Heap.poised_iff.mp runs.poised
  obtain ⟨instr, -, found, -, -, home, -⟩ := sited.instruction
  cases Option.some.inj (fetched.symm.trans (Bytecode.op?_of_instruction? found))
  cases home .procedure leaving
  obtain ⟨caller, calls, pending, -⟩ := beneath
  exact ⟨⟨caller, calls, pending⟩, fun call => (sited.tailCall (call ▸ fetched)).2⟩

def Leaving (machine : Machine) : Prop :=
  (∃ caller calls, machine.calls.items = caller :: calls) ∧
    machine.current.lambda.body.Returns machine.current.pc

theorem Mirrors.faces (mirrors : m.Mirrors m') (leaving : tail = true → m.Leaving)
    : m.Faces tail m' := by
  refine ⟨mirrors, ?_, ?_⟩
  · cases tail with
    | false => exact ⟨_, _, rfl⟩
    | true => exact (leaving rfl).1
  · cases mirrors with
    | intro stores padded =>
      cases tail with
      | false => exact .keep _ padded
      | true => exact .pad (leaving rfl).2 padded

/-- The operands of a call are taken without looking at the store or at pending calls. -/
theorem operands_cases (m : Machine) :
    (∃ fault, ∀ store calls, operands { m with store, calls } =
      .error fault { m with store, calls }) ∨
    ∃ callee args stack operandCount, ∀ store calls, operands { m with store, calls } =
      .ok (callee, args)
        { m with
          store, stack, calls, current := { m.current with operandCount } } := by
  unfold operands
  dsimp only
  rcases m.stack.splitTop? m.current.operandCount with _ | ⟨window, below⟩
  · exact .inl ⟨_, fun _ _ => rfl⟩
  · dsimp only
    rcases below.pop? with _ | ⟨v, stack⟩
    · exact .inl ⟨_, fun _ _ => rfl⟩
    · cases v
      case integer =>
        cases window with
        | nil => exact .inl ⟨_, fun _ _ => rfl⟩
        | cons => exact .inr ⟨_, _, _, _, fun _ _ => rfl⟩
      all_goals exact .inl ⟨_, fun _ _ => rfl⟩

/-- Calls with operands that lie on the stack are made alike. -/
theorem concurs_operands (mirrors : m.Mirrors m')
    (impartial : ∀ native ∈ m.natives, native.Impartial fun _ => Object.Pads)
    (leaving : tail = true → m.Leaving) :
    Concurs ((operands >>= fun (callee, args) => call callee args tail) m)
      ((operands >>= fun (callee, args) => call callee args false) m') := by
  cases mirrors with
  | @intro store calls stores padded =>
    rcases m.operands_cases with ⟨fault, failed⟩ | ⟨callee, args, stack, n, taken⟩
    · rw [bind_apply, bind_apply, failed m.store m.calls, failed]
      exact .fault fault (.intro stores padded)
    · rw [bind_apply, bind_apply, taken m.store m.calls, taken]
      let current : Frame := { m.current with operandCount := n }
      have mirrors : Mirrors { m with stack, current }
        { m with store, stack, calls, current } := .intro stores padded
      have faces := mirrors.faces leaving
      exact concurs_dispatch maxRedirections faces impartial callee args

theorem concurs_return (mirrors : m.Mirrors m') {caller : Frame} {calls : List Frame}
    (pending : m.calls.items = caller :: calls) (pc : Nat) :
    Concurs (step .return pc m) (step .return pc m') := by
  have debug : Detail.debug ≠ .info := nofun
  cases mirrors with
  | @intro store frames' stores padded =>
    have frames := padded
    rw [pending] at frames
    obtain ⟨caller', calls', pending'⟩ := frames.exists_cons
    rw [pending'] at frames
    cases top : m.stack.items with
    | nil =>
      have empty : m.stack.pop? = none := by
        rw [Stack.eq_ofItems top]
        rfl
      simp only [step, bind_apply, pop, empty]
      exact .fault _ (.intro stores padded)
    | cons v xs =>
      have returned : step .return pc { m with store, calls := frames' } = .ok .next _ :=
        step_return top pending'
      rw [step_return top pending, returned]
      have dropped : (m.drop xs).Mirrors
        (drop xs { m with store, calls := frames' }) := .intro stores padded
      obtain ⟨store₁, store₂, stores', noted, noted'⟩ := dropped.note_eq debug
        (fun _ => "return to " ++ offsetText caller.pc)
        (fun _ => "return to " ++ offsetText caller'.pc)
      rw [resume, resume, noted, noted']
      let resumed : Machine := { m.drop xs with store := store₁ }
      have delivered : Trails
          (push v { resumed with calls := .ofItems calls, current := caller }) _ :=
        trails_deliver stores' frames (.ofItems xs) v
      exact .next delivered

/-- An instruction is carried out alike, unless there is no room for padding. -/
theorem concurs_step (runs : m.Runs data) (mirrors : m.Mirrors m')
    (impartial : ∀ native ∈ m.natives, native.Impartial fun _ => Object.Pads)
    (fetched : m.current.lambda.body.op? m.current.pc = some op) :
    Concurs (step op m.current.pc (m.facing op)) (step op.plain m.current.pc (m'.facing op)) := by
  have trace : Detail.trace ≠ .info := nofun
  have advanced : (m.advance op).Mirrors (m'.advance op) := by
    cases mirrors with
    | intro stores padded => exact .intro stores padded
  have faces : (m.facing op).Mirrors (m'.facing op) := advanced.noted trace _ _
  obtain ⟨journal, eq⟩ := m.facing_eq op
  rw [eq] at faces ⊢
  cases op
  case call => exact concurs_operands faces impartial nofun
  case tailCall =>
    obtain ⟨called, returns⟩ := runs.leaving fetched rfl
    exact concurs_operands faces impartial fun _ => ⟨called, returns rfl⟩
  case «return» =>
    obtain ⟨⟨caller, calls, pending⟩, _⟩ := runs.leaving fetched rfl
    exact concurs_return faces pending _
  all_goals exact concurs_of_alike (respects_step rfl _ faces)

end

/-! ### Runs -/

/-- How attempts without elimination, each with room for a number of instructions, follow what happens
with it: what they end with accords, unless there is no room for padding, and they end, always with
the same, if it does. -/
structure Emulates {α σ : Type} (related : σ → σ → Prop) (settled : Except ScriptError α → Prop)
    (outcome : Except ScriptError α × σ) (attempt : Nat → Except ScriptError α × σ) : Prop where
  accords {room : Nat} : settled (attempt room).1 → room ≤ unlimited ∨ settled outcome.1 →
    Overflows (attempt room).1 ∨ Accords related outcome (attempt room)
  settles : settled outcome.1 → ∃ enough final, (∀ room, enough ≤ room → attempt room = final) ∧
    (Overflows final.1 ∨ Accords related outcome final)

theorem Emulates.of_accords {α σ : Type} {related : σ → σ → Prop}
    {settled : Except ScriptError α → Prop} {out final : Except ScriptError α × σ}
    (accords : Accords related out final) : Emulates related settled out fun _ => final :=
  ⟨fun _ _ => .inr accords, fun _ => ⟨0, final, fun _ _ => rfl, .inr accords⟩⟩

def Settled (result : Except ScriptError (Option Value) × Machine) : Prop :=
  result.1 ≠ .ok none

/-- A run that has come to an end does not go on if there is more room. -/
theorem runAs_of_settled {read : Op → Op} {room more : Nat}
    (settled : Settled (runAs read room m)) (enough : room ≤ more) :
    runAs read more m = runAs read room m := by
  induction room generalizing m more with
  | zero => exact absurd rfl settled
  | succ room ih =>
    obtain ⟨more, rfl⟩ := Nat.exists_eq_succ_of_ne_zero (Nat.ne_of_gt (Nat.zero_lt_of_lt enough))
    cases fetched : m.current.lambda.body.op? m.current.pc with
    | none => simp only [runAs, fetched]
    | some op =>
      rw [runAs_some fetched] at settled ⊢
      rw [runAs_some fetched]
      generalize step (read op) _ _ = out at settled ⊢
      match out with
      | .ok .next after => exact ih settled (Nat.le_of_succ_le_succ enough)
      | .ok (.exit _) _ => rfl
      | .ok .suspend _ => rfl
      | .error _ _ => rfl

section

variable {m m' : Machine}

theorem Mirrors.reset (mirrors : m.Mirrors m') : m.reset.Mirrors m'.reset := by
  cases mirrors with
  | @intro store calls stores padded =>
    unfold Machine.reset
    have same : store.heap.closure? m.topClosure = m.heap.closure? m.topClosure :=
      congrFun stores.heap.closure?_eq m.topClosure
    dsimp only [Machine.heap] at same ⊢
    rw [same]
    exact .intro stores .nil

/-- A failure is reported alike. -/
theorem Mirrors.fail (mirrors : m.Mirrors m') (fault : Fault) :
    Accords Mirrors ((m.fail fault).map .error id : Except ScriptError (Option Value) × Machine)
      ((m'.fail fault).map .error id) := by
  have debug : Detail.debug ≠ .info := nofun
  have noted := mirrors.noted debug (fun _ => "runtime error: " ++ fault.message)
    (fun _ => "runtime error: " ++ fault.message)
  have placed : position m'.current = position m.current := by
    cases mirrors
    rfl
  exact .error rfl placed noted.reset

/-- What is known of a machine that goes on is known after the next instruction. -/
theorem Runs.next (runs : m.Runs data) (secure : m.Secure data) {op : Op}
    (fetched : m.current.lambda.body.op? m.current.pc = some op) {after : Machine}
    (stepped : Machine.step op m.current.pc (m.facing op) = .ok .next after) :
    after.Secure data ∧ after.Runs data ∧ after.natives = m.natives := by
  obtain ⟨other, fetched', resumes⟩ := runs.step secure
  cases fetched.symm.trans fetched'
  have sound := safe_step (secure.sound.faces op).sound op m.current.pc
  rw [stepped] at resumes sound
  obtain ⟨follows, active, poised⟩ := resumes
  exact ⟨follows.secure secure sound.1.sound, ⟨active, poised⟩, follows.anchors.natives⟩

/-- What the first instruction of a run does in both machines. -/
theorem runAs_succ (runs : m.Runs data) (secure : m.Secure data) (mirrors : m.Mirrors m')
    (impartial : ∀ native ∈ m.natives, native.Impartial fun _ => Object.Pads) :
    ∃ out out', Concurs out out' ∧ (∀ after, out = .ok .next after →
        after.Secure data ∧ after.Runs data ∧ after.natives = m.natives) ∧
      (∀ room, runAs id (room + 1) m = proceed (runAs id room) out) ∧
      ∀ room, runAs Op.plain (room + 1) m' = proceed (runAs Op.plain room) out' := by
  obtain ⟨op, fetched, _⟩ := runs.step secure
  have same : m'.current = m.current := by
    cases mirrors
    rfl
  refine ⟨_, _, concurs_step runs mirrors impartial fetched,
    fun after stepped => runs.next secure fetched stepped, runAs_some fetched id, ?_⟩
  rw [← same] at fetched ⊢
  exact runAs_some fetched Op.plain

variable {room : Nat}

section

variable (runs : m.Runs data) (secure : m.Secure data)
  (mirrors : m.Mirrors m')
  (impartial : ∀ native ∈ m.natives, native.Impartial fun _ => Object.Pads)

include runs secure mirrors impartial

/-- What a run that does not eliminate calls ends with is what one that does ends with, unless the
former has no room for its padding. -/
theorem accords_run_of_le {more : Nat} (settled : Settled (runAs Op.plain room m'))
    (enough : room ≤ more) :
    Overflows (runAs Op.plain room m').1 ∨
      Accords Mirrors (runAs id more m) (runAs Op.plain room m') := by
  -- The machine that keeps frames takes more instructions, so there is less room left each time.
  induction room using Nat.strong_induction_on generalizing m m' more with
  | _ room ih =>
    cases room with
    | zero => exact absurd rfl settled
    | succ room =>
      obtain ⟨more, rfl⟩ := Nat.exists_eq_succ_of_ne_zero (Nat.ne_of_gt (Nat.zero_lt_of_lt enough))
      obtain ⟨out, out', concurs, next, ran, ran'⟩ := runAs_succ runs secure mirrors impartial
      have onward {after after' : Machine} (stepped : out = .ok .next after)
          (trails : after.Trails after') (settled : Settled (runAs Op.plain room after')) :
          Overflows (runAs Op.plain room after').1 ∨
            Accords Mirrors (runAs id more after) (runAs Op.plain room after') := by
        obtain ⟨n, mid, steps, mirrors⟩ := trails
        obtain ⟨secure, runs, natives⟩ := next after stepped
        rcases Nat.le_total room n with short | long
        · exact absurd (steps.unfinished short) settled
        · obtain ⟨left, rfl⟩ := Nat.exists_eq_add_of_le long
          rw [steps.run] at settled ⊢
          exact ih left (by omega) runs secure mirrors (natives ▸ impartial) settled (by omega)
      rw [ran'] at settled ⊢
      rw [ran]
      cases concurs with
      | overflow => exact .inl ⟨_, rfl, rfl⟩
      | fault fault mirrors => exact .inr (mirrors.fail fault)
      | next trails => exact onward rfl trails settled
      | same flow mirrors =>
        cases flow with
        | next => exact onward rfl mirrors.trails settled
        | exit v => exact .inr (.ok _ mirrors)
        | suspend => exact absurd rfl settled

theorem accords_run {limit : Nat} (settled : Settled (runAs Op.plain room m'))
    (enough : room ≤ limit ∨ Settled (runAs id limit m)) :
    Overflows (runAs Op.plain room m').1 ∨
      Accords Mirrors (runAs id limit m) (runAs Op.plain room m') := by
  rcases enough with enough | settled'
  · exact accords_run_of_le runs secure mirrors impartial settled enough
  · rw [← runAs_of_settled settled' (Nat.le_max_left limit room)]
    exact accords_run_of_le runs secure mirrors impartial settled (Nat.le_max_right limit room)

/-- If a run that eliminates calls comes to an end, so does one that does not. -/
theorem settles_run (settled : Settled (runAs id room m)) :
    ∃ enough, Settled (runAs Op.plain enough m') := by
  induction room generalizing m m' with
  | zero => exact absurd rfl settled
  | succ room ih =>
    obtain ⟨out, out', concurs, next, ran, ran'⟩ := runAs_succ runs secure mirrors impartial
    have onward {after after' : Machine} (stepped : out = .ok .next after)
        (trails : after.Trails after') (settled : Settled (runAs id room after)) :
        ∃ enough, Settled (runAs Op.plain enough after') := by
      obtain ⟨n, mid, steps, mirrors⟩ := trails
      obtain ⟨secure, runs, natives⟩ := next after stepped
      obtain ⟨enough, settled⟩ := ih runs secure mirrors (natives ▸ impartial) settled
      exact ⟨n + enough, steps.run enough ▸ settled⟩
    have first {after' : Machine} (stepped : out' = .ok .next after')
        (continued : ∃ enough, Settled (runAs Op.plain enough after')) :
        ∃ enough, Settled (runAs Op.plain enough m') := by
      obtain ⟨enough, settled⟩ := continued
      refine ⟨enough + 1, ?_⟩
      rw [ran', stepped]
      exact settled
    rw [ran] at settled
    cases concurs with
    | overflow | fault fault mirrors =>
      refine ⟨1, ?_⟩
      rw [ran']
      exact nofun
    | next trails => exact first rfl (onward rfl trails settled)
    | same flow mirrors =>
      cases flow with
      | next => exact first rfl (onward rfl mirrors.trails settled)
      | exit v =>
        refine ⟨1, ?_⟩
        rw [ran']
        exact nofun
      | suspend => exact absurd rfl settled

theorem emulates_run : Emulates Mirrors (· ≠ .ok none) (runAs id unlimited m)
    fun room => runAs Op.plain room m' := by
  refine ⟨accords_run runs secure mirrors impartial, fun settled => ?_⟩
  obtain ⟨enough, settled'⟩ := settles_run runs secure mirrors impartial settled
  exact ⟨enough, _, fun room more => runAs_of_settled settled' more,
    accords_run runs secure mirrors impartial settled' (.inr settled)⟩

end

end

end Machine

end MiniScheme
