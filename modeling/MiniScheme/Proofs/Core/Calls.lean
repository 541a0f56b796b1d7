import MiniScheme.Proofs.Core.Simulation

/-!
# Running calls

What the machine does with a callee and arguments is what evaluation does with them. A procedure is
run in a new invocation, which holds the arguments on both sides. A native procedure does the same
to both stores. Whatever is not a procedure is refused. With that, code of any expression does what
evaluation to any depth does.
-/

namespace MiniScheme

variable {law : Discipline} {natives : Array Native} {m : Machine}
  {st : EvalState} {args : List Value} {tail : Bool}

/-! ### Invocations -/

/-- The machine fills the slots of an invocation as evaluation does. -/
theorem Machine.slots_eq {lam : Lambda} {abstraction : Abstraction}
    (required : lam.argumentCount = abstraction.formals.fixed.length)
    (variadic : lam.rest = abstraction.formals.rest.isSome)
    (slots : lam.slotCount = abstraction.names.length)
    (accepted : abstraction.arity.accepts args.length = true) :
    Machine.slots lam args = abstraction.slots args := by
  funext heap
  rw [Abstraction.names, Formals.names, List.length_append, List.length_append] at slots
  cases kind : abstraction.formals.rest with
  | none =>
    have enough : args.length = abstraction.formals.fixed.length := by
      simpa [Arity.accepts, Abstraction.arity, kind] using accepted
    have blank : lam.slotCount - args.length = abstraction.locals.length := by
      rw [slots, kind, enough, Option.toList_none, List.length_nil]
      omega
    rw [Machine.slots_fixed (variadic.trans (by rw [kind]; rfl)), blank, Abstraction.slots, kind]
    simp
  | some name =>
    have enough : abstraction.formals.fixed.length ≤ args.length := by
      have accepted : args.length = abstraction.formals.fixed.length ∨
          abstraction.formals.fixed.length < args.length := by
        simpa [Arity.accepts, Abstraction.arity, kind] using accepted
      omega
    have blank : lam.slotCount - (min abstraction.formals.fixed.length args.length + 1) =
        abstraction.locals.length := by
      rw [slots, kind, Nat.min_eq_left enough, Option.toList_some, List.length_singleton]
      omega
    rw [Machine.slots_rest (variadic.trans (by rw [kind]; rfl)), Abstraction.slots, kind]
    simp [blank, required]

theorem Abstraction.matches_invoke {rel : Handle → Object → Object → Prop} (like : Likeness rel)
    {heap heap' : Heap} (alike : heap.Alike rel heap') (abstraction : Abstraction)
    (closure : Handle) (args : List Value) :
    Heap.Matches rel (abstraction.invoke closure args heap)
      (abstraction.invoke closure args heap') := by
  unfold invoke slots
  cases abstraction.formals.rest with
  | none => exact alike.alloc (like.refl _ _ rfl)
  | some name =>
    have rest := alike.list like (args.drop abstraction.formals.fixed.length)
    dsimp only
    rw [rest.result]
    exact rest.heaps.alloc (like.refl _ _ rfl)

namespace Machine

/-- What is noted when a procedure starts does not count. -/
theorem enter_aside (lam : Lambda) (inv : Handle) (tail : Bool) (m : Machine) :
    ∃ journal calls, journal.said = m.store.journal.said ∧
      calls.items = m.receivers tail ∧ m.enter lam inv tail =
        { m with
          store := { m.store with journal }
          calls
          current := { pc := 0, invocation := inv, operandCount := 0, lambda := lam } } := by
  have debug : Detail.debug ≠ .info := nofun
  cases tail with
  | true =>
    obtain ⟨journal, said, noted⟩ := m.note_aside debug fun _ =>
      "tail call " ++ lam.name.getD "<lambda>"
    exact ⟨journal, m.calls, said, rfl, by simp [enter, noted]⟩
  | false =>
    obtain ⟨journal, said, noted⟩ := note_aside
      { m with calls := m.calls.push m.current } debug fun _ =>
        "call " ++ lam.name.getD "<lambda>"
    exact ⟨journal, m.calls.push m.current, said, rfl, by simp [enter, noted]⟩

/-- A call delivers its result to the frame that receives it. -/
theorem complete_eq_deliver {caller : Frame} {calls : List Frame} {store : Store}
    (received : m.receivers tail = caller :: calls) (v : Value) :
    complete v tail { m with store } = m.deliver (m.callerSnapshot caller calls) v store := by
  cases tail with
  | true => simp [complete, deliver, callerSnapshot, restore, Stack.pop?_of_items received]
  | false =>
    obtain ⟨rfl, rfl⟩ := List.cons.inj received
    rw [callerSnapshot, ← Stack.eq_ofItems rfl]
    rfl

section

variable {recur : Environment → Expression → EvalM Value}
  {out : Except Fault (Value × EvalState)} {proc : Procedure} {closure : Handle}
  {caller : Frame} {calls : List Frame}
  (discreet : ∀ native ∈ natives, native.Discreet law)

include discreet

theorem settles_body {inv : Handle} (simulates : Simulates law natives recur)
    (stands : m.Stands law natives (proc.inner inv) st)
    (implements : Implements proc.environment.namings m.current.lambda proc.abstraction)
    (start : m.current.pc = 0) (pending : m.calls.items = caller :: calls) (evaluated : (do
      Expression.define recur (proc.inner inv) proc.abstraction.initializers
      recur (proc.inner inv) proc.abstraction.body) st = some out) :
    Settles m (m.deliver (m.callerSnapshot caller calls)) out := by
  cases implements with
  | @intro _ _ _ bytes bytes' _ _ _ _ code defines translates =>
    have here : m.ahead = bytes ++ (bytes' ++ (Bytecode.ofOp .return).stream) := by
      rw [ahead, start, Bytecode.rest_zero, code]
    refine .bind evaluated (fun _ => settles_define discreet stands simulates defines here) ?_
    intro _ defined store describes proceeds remaining
    have there := Bytecode.rest_add bytes here
    have returns : m.current.lambda.body.Returns (m.current.pc + bytes.length + bytes'.length) :=
      .here (Bytecode.op?_of_rest (Bytecode.rest_add bytes' there))
    exact simulates (stands.moved discreet proceeds describes) translates there
      (.caller returns pending) remaining

section

variable (sound : m.Sound law) (same : m.natives = natives)
  (describes : st.Describes m.store)
  (arguments_sound : ∀ v ∈ args, v.Sound law m.heap)
  (received : m.receivers tail = caller :: calls)

include sound same describes arguments_sound received

/-- The machine calls a native procedure as evaluation does. -/
theorem continues_callNative {id : NativeId} {native : Native} (found : natives[id]? = some native)
    (evaluated : Expression.callNative native args st = some out) :
    Continues (m.deliver (m.callerSnapshot caller calls)) out (callNative id args tail m) := by
  have fair := discreet native (Array.mem_of_getElem? found)
  have results := fair.respects (likeness_embodies _ _) args describes
  have tame := fair.tame args m.store sound.heap arguments_sound
  rw [callNative_eq (same ▸ found)]
  unfold Expression.callNative at evaluated
  cases accepted : native.arity.accepts args.length with
  | false =>
    rw [accepted] at evaluated
    cases evaluated
    exact .fails rfl
  | true =>
    simp only [accepted, ↓reduceIte] at evaluated
    generalize native.run args st.store = res at results evaluated
    generalize native.run args m.store = res' at results tame
    cases results with
    | error stores =>
      cases evaluated
      exact .fails rfl
    | @ok answer store store' stores =>
      obtain ⟨v, rfl, rfl⟩ := Option.map_eq_some_iff.mp evaluated
      have described : EvalState.Describes { st with store } store' := by
        refine ⟨stores.heap.mono fun _ _ _ _ embodies => embodies.mono tame.1.grown.steady,
          stores.hosts, stores.said⟩
      refine .next (.arrives described ?_)
      rw [← complete_eq_deliver received]
      exact .refl _

variable (simulates : Simulates law natives recur)

include simulates

theorem continues_callClosure (known : st.procedure? closure = some proc)
    (evaluated : Expression.enter recur closure proc args st = some out) :
    Continues (m.deliver (m.callerSnapshot caller calls)) out
      (callClosure closure args tail m) := by
  obtain ⟨lam, _, held, implements, outer, rfl, represents⟩ := describes.closure known
  obtain ⟨required, variadic, slots, addressable, -, -, -⟩ := id implements
  have safe := safe_callClosure sound closure arguments_sound tail
  have arity : lam.arity = proc.abstraction.arity := by
    rw [Lambda.arity, required, variadic]
    rfl
  rw [callClosure_eq (Heap.closure?_eq_some_iff.mpr held), arity] at safe ⊢
  unfold Expression.enter at evaluated
  cases accepted : proc.abstraction.arity.accepts args.length with
  | false =>
    rw [accepted] at evaluated
    cases evaluated
    exact .fails rfl
  | true =>
    let work := proc.abstraction.invoke closure args
    have filled := Machine.slots_eq required variadic slots accepted
    have invoked : m.invoke closure lam args = m.onHeap work := by
      rw [Machine.invoke, filled]
      rfl
    obtain ⟨grown, -⟩ := slots_sound sound.heap lam arguments_sound
    rw [filled] at grown
    have steady : m.heap.Steady (work m.heap).2 :=
      grown.steady.trans (.alloc grown.sound.consistent _)
    obtain ⟨created, described⟩ : (work m.heap).1 = (work st.store.heap).1 ∧ _ :=
      describes.onHeap work work
      (Abstraction.matches_invoke (likeness_embodies _ _) describes.heap _ _ _) steady
    simp only [accepted, if_true, invoked] at safe ⊢
    split at safe
    · rw [if_pos ‹_›]
      exact .overflows
    · rw [if_neg ‹_›]
      obtain ⟨journal, frames, said, xs, entered⟩ :=
        enter_aside lam (m.onHeap work).1 tail (m.onHeap work).2
      rw [entered] at safe ⊢
      refine .next ?_
      have inside : (work m.heap).2.Represents (proc.inner (work m.heap).1) (work m.heap).1 :=
        (represents.mono steady).cons (Heap.get?_alloc_self grown.sound.consistent _)
          (steady.closure _ _ _ held) _
      refine settles_body discreet simulates
        ⟨safe.1.sound, same, addressable, Nat.two_pow_pos 64, inside, described.noted said⟩ implements rfl
        (xs.trans received) ?_
      rw [accepted] at evaluated
      rw [created]
      exact evaluated

theorem continues_call {callee : Value}
    (evaluated : Expression.apply natives recur callee args st = some out) :
    Continues (m.deliver (m.callerSnapshot caller calls)) out (call callee args tail m) := by
  have room : maxRedirections = 0x3fffffffffffffff + 1 := rfl
  rw [call, room]
  cases callee
  case closure h =>
    obtain ⟨proc, known, rest⟩ := EvalM.find_cases evaluated
    exact continues_callClosure discreet sound same describes arguments_sound received simulates
      known rest
  case native id =>
    obtain ⟨native, known, rest⟩ := EvalM.find_cases evaluated
    exact continues_callNative discreet sound same describes arguments_sound received known rest
  case continuation => cases evaluated
  case capture => cases evaluated
  case apply => cases evaluated
  all_goals
    cases evaluated
    exact .fails rfl

end

end

/-! ### Call expressions -/

/-- The frame that the value of the code is due to receives the result of a call at its end. -/
theorem Receives.receivers {size : Nat} {target : Snapshot}
    (receives : m.Receives size tail target) (store : Store) : ∃ caller calls,
      (m.past size store).receivers tail = caller :: calls ∧
        target = m.callerSnapshot caller calls := by
  cases receives with
  | here =>
    refine ⟨_, _, rfl, ?_⟩
    rw [callerSnapshot, ← Stack.eq_ofItems rfl]
    rfl
  | caller _ pending => exact ⟨_, _, pending, rfl⟩

section

variable {recur : Environment → Expression → EvalM Value} {env : Environment}
  {out : Except Fault (Value × EvalState)} {target : Snapshot} {bytes rest : List UInt8}
  (discreet : ∀ native ∈ natives, native.Discreet law)

include discreet

theorem settles_apply {st' : EvalState} {callee : Value} {store : Store} {size : Nat}
    (stands : m.Stands law natives env st) (simulates : Simulates law natives recur)
    (here : m.current.lambda.body.rest (m.current.pc + size) =
      (if tail then Op.tailCall else Op.call).toByte :: rest)
    (receives : m.Receives (size + 1) tail target)
    (proceeds : m.Proceeds ((m.past size store).saving.pushAll (callee :: args)))
    (describes : st'.Describes store)
    (evaluated : Expression.apply natives recur callee args st' = some out) :
    Settles ((m.past size store).saving.pushAll (callee :: args)) (m.deliver target) out := by
  let ready := (m.past size store).saving.pushAll
    (callee :: args)
  obtain ⟨journal, said, carried, failed⟩ := exists_step ready here
  let facing := ready.moved (m.current.pc + size + 1) { store with journal }
  let left := m.moved (m.current.pc + size + 1) { store with journal }
  have taken : operands facing = .ok (callee, args) left :=
    @operands_saving (m.past size store) stands.counted ..
  have sound : facing.Sound law := by
    have sound := proceeds.sound stands.sound
    exact sound.move ⟨rfl, rfl, rfl, rfl⟩ sound.heap (.refl _) ⟨sound.control.stack,
      sound.control.calls, sound.control.current.invocation, sound.control.current.lambda⟩
  have safe := safe_operands sound
  rw [taken] at safe
  have called : step (if tail then .tailCall else .call) ready.current.pc facing =
      call callee args tail left := by
    cases tail <;>
    · change (operands >>= _) facing = _
      rw [MachineM.bind_apply, taken]
  obtain ⟨caller, calls, received, rfl⟩ := receives.receivers { store with journal }
  have continues := continues_call discreet safe.1.sound stands.natives (describes.noted said)
    safe.2.2 received simulates evaluated
  rw [← called] at continues
  cases tail <;> exact continues.settles carried failed

/-- The callee and the arguments are evaluated in order, and then the callee is called. -/
theorem settles_call {callee : Expression} {args : List Expression}
    (stands : m.Stands law natives env st) (simulates : Simulates law natives recur)
    (operands : TranslatesAll m.current.lambda.constants env.namings (callee :: args) bytes)
    (here : m.ahead = (Bytecode.ofOp .resetOperandCount).stream ++
        (bytes ++ (if tail then Op.tailCall else Op.call).toByte :: rest))
    (receives : m.Receives (1 + bytes.length + 1) tail target) (evaluated : (do
      let callee ← recur env callee
      let args ← Expression.values recur env args
      Expression.apply natives recur callee args) st = some out) :
    Settles m (m.deliver target) out := by
  have few : 0 + 1 + args.length < 2 ^ 64 := by
    have bound := operands.length_le
    have length := congrArg List.length here
    have addressable := stands.addressable.code
    have limit : operandLimit < 2 ^ 64 := by decide
    simp only [Bytecode.length_rest, List.length_append, List.length_cons] at length bound
    omega
  cases operands with
  | @cons _ _ _ _ first second translates others =>
    obtain ⟨journal, said, saved⟩ := proceeds_resetOperandCount here
    refine .since saved ?_
    let saving := (m.past 1 { m.store with journal }).saving
    have there : saving.ahead =
        first ++ (second ++ (if tail then Op.tailCall else Op.call).toByte :: rest) := by
      rw [← List.append_assoc]
      exact Bytecode.rest_add (Bytecode.ofOp .resetOperandCount).stream here
    have stands' : saving.Stands law natives env st :=
      stands.proceed discreet saved rfl rfl (Nat.two_pow_pos 64) (stands.describes.noted said)
    refine .bind evaluated (fun _ => simulates.operand stands' translates there) ?_
    intro callee called store describes proceeds remaining
    let pushed := (saving.past first.length store).push callee
    have stands'' : pushed.Stands law natives env called :=
      stands'.proceed discreet proceeds rfl rfl (Nat.lt_of_le_of_lt (Nat.le_add_right ..) few)
        describes
    have there' := Bytecode.rest_add first there
    refine .bind remaining (fun _ => settles_values discreet stands'' simulates others there'
      few) ?_
    intro vals final store' describes' proceeds' last
    have total : 1 + (first ++ second).length = 1 + first.length + second.length := by
      rw [List.length_append, Nat.add_assoc]
    rw [total] at receives
    have behind := Bytecode.rest_add second there'
    have arrived : (pushed.past second.length store').pushAll vals =
        (m.past (1 + first.length + second.length) store').saving.pushAll (callee :: vals) := by
      simp only [past, ← pushAll_cons, ← Nat.add_assoc]
      rfl
    rw [arrived] at proceeds' ⊢
    have place : m.current.pc + (1 + first.length + second.length) =
        m.current.pc + 1 + first.length + second.length := by
      rw [← Nat.add_assoc, ← Nat.add_assoc]
    exact settles_apply discreet stands simulates (place ▸ behind) receives
      ((saved.trans proceeds).trans proceeds') describes' last

end

/-! ### All expressions -/

/-- Code does what evaluation does, to any depth. -/
theorem simulates_evaluate (discreet : ∀ native ∈ natives, native.Discreet law)
    (depth : Nat) : Simulates law natives (Expression.evaluate natives depth) := by
  induction depth with
  | zero =>
    intro _ _ _ _ _ _ _ _ _ _ _ _ _ evaluated
    cases evaluated
  | succ depth simulates =>
    intro m env st expr tail bytes rest target out stands translates here receives evaluated
    cases translates with
    | literal found =>
      cases evaluated
      exact settles_literal stands found here receives
    | «variable» place near small =>
      exact settles_variable stands place near small here receives evaluated
    | @conditional _ _ _ _ _ _ tested yes no condition chosen other =>
      simp only [List.append_assoc] at here
      refine settles_conditional discreet stands simulates condition chosen other here ?_ evaluated
      convert receives using 1
      simp
      omega
    | @sequence _ _ _ _ _ first second dropped last =>
      simp only [List.append_assoc] at here
      refine settles_sequence discreet stands simulates dropped last here ?_ evaluated
      convert receives using 1
      simp
      omega
    | @assignment _ _ _ _ _ bytes _ _ _ place near small v found =>
      simp only [List.append_assoc] at here
      have receives : m.Receives (bytes.length + 9 + 5) tail target := by
        simpa using receives
      exact settles_assignment discreet stands simulates place near small v found here receives
        evaluated
    | lambda found implements =>
      exact settles_lambda stands found implements here receives evaluated
    | @call _ _ _ _ _ bytes operands =>
      simp only [List.append_assoc, List.singleton_append] at here
      refine settles_call discreet stands simulates operands here ?_ evaluated
      convert receives using 1
      simp
      omega

end Machine

end MiniScheme
