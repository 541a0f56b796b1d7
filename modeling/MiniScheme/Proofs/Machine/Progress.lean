import MiniScheme.Proofs.Machine.Poise

/-!
# Progress

A machine whose code is sane never finds the code broken. Each instruction leaves the machine
poised for the next one, hands over a value, suspends, or fails for a reason that lies with the
script; only calls fail, and then they leave the frames alone. Then calls and whole runs keep this
up as well.
-/

namespace MiniScheme

namespace Machine

variable {data : List Lambda} {m before mid after : Machine} {tail : Bool}

/-- The stacks are within the ceiling, the operands of the current frame aside. -/
def Within (data : List Lambda) (machine : Machine) : Prop :=
  machine.calls.height ≤ machine.ceiling ∧ ∃ size ∈ insert 0 (heights data),
    machine.stack.height + machine.calls.height ≤ machine.ceiling + size

/-- The positions that a failure is reported with. -/
def trace (machine : Machine) : List Position :=
  (machine.current :: machine.calls.items).map position

def EndsAs (data : List Lambda) (before : Machine) : Flow → Machine → Prop
  | .next, after => before.Follows data after ∧ after.Runs data
  | .exit _, after => before.Follows data after ∧ after.suspended = none ∧ after.Within data
  | .suspend, after => before.Follows data after ∧
      ∃ tail, after.suspended = some tail ∧ after.Awaits data tail

def Obeys (data : List Lambda) (blamed : Machine → Prop) (before : Machine) :
    EStateM.Result Fault Machine Flow → Prop :=
  MachineM.Meets (before.EndsAs data) fun fault after =>
    before.Follows data after ∧ ¬ fault.IsInternal ∧ blamed after

variable {blamed : Machine → Prop}

theorem Obeys.since {out : EStateM.Result Fault Machine Flow}
    (follows : before.Follows data mid) (obeys : Obeys data blamed mid out) :
    Obeys data blamed before out := by
  refine obeys.mono (fun flow after ends => ?_) fun _ _ fails => ⟨follows.trans fails.1, fails.2⟩
  cases flow with
  | next | exit | suspend => exact ⟨follows.trans ends.1, ends.2⟩

/-! ### Calls -/

theorem slotCount_le_size_slots (lam : Lambda) (args : List Value) (heap : Heap) :
    lam.slotCount ≤ (slots lam args heap).1.size := by
  cases kind : lam.rest with
  | false =>
    rw [slots_fixed kind]
    simp only [Array.size_append, List.size_toArray, Array.size_replicate]
    omega
  | true =>
    rw [slots_rest kind]
    simp only [Array.size_append, Array.size_replicate]
    omega

section

variable {callee : Value} {args : List Value} (secure : m.Secure data)

include secure

/-- A new invocation has the slots that the code of its procedure counts on. -/
theorem Secure.invoke {closure outer : Handle} {lam : Lambda} {shape : List Nat}
    (held : m.heap.get? closure = some (.closure lam (some outer)))
    (encloses : m.heap.Encloses shape outer)
    (arguments_sound : ∀ v ∈ args, v.Sound m.discipline m.heap) :
    m.Follows data (m.invoke closure lam args).2 ∧
      (m.invoke closure lam args).2.heap.Encloses (lam.slotCount :: shape)
        (m.invoke closure lam args).1 := by
  obtain ⟨grown, -⟩ := slots_sound secure.sound.heap lam arguments_sound
  have sane := grown.sound.consistent
  have steady := grown.steady.trans (.alloc sane
    (.invocation (some closure) (slots lam args m.heap).1))
  have verified := (secure.verified.grown grown).alloc sane
    (.invocation (some closure) (slots lam args m.heap).1) nofun nofun
  refine ⟨⟨⟨⟨rfl, rfl, rfl, rfl⟩, steady⟩, rfl, secure.civil, verified⟩, ?_⟩
  exact .inside (Heap.get?_alloc_self sane _) (slotCount_le_size_slots lam args _)
    (steady.closure _ _ _ held) (encloses.mono steady.persists)

theorem refuses {fault : Fault} (ordinary : fault.IsOrdinary) :
    Obeys data (·.trace = m.trace) m (.error fault m) :=
  ⟨secure.stays, ordinary.not_internal, rfl⟩

/-- Capturing adds a continuation that waits for a value. -/
theorem Secure.remember (awaits : m.Awaits data tail) : m.Follows data (m.remember tail).2 := by
  have sane := secure.sound.heap.consistent
  have verified := secure.verified.alloc sane (.continuation (m.snapshot tail))
    nofun (fun snapshot eq => by
      cases eq
      exact awaits.snapshot)
  have maintains := Maintains.remember sane tail
  obtain ⟨journal, remembered⟩ := remember_eq tail m
  rw [remembered] at maintains ⊢
  exact ⟨maintains, rfl, secure.civil, verified⟩

variable (active : m.suspended = none)

include active

theorem obeys_callClosure {closure : Handle} (awaits : m.Awaits data tail)
    (callable : Callable m.discipline m (.closure closure) args) :
    Obeys data (·.trace = m.trace) m (callClosure closure args tail m) := by
  obtain ⟨obj, held, kind⟩ := callable.callee.held _ rfl (.inl rfl)
  cases obj with
  | pair | vector | invocation | continuation => cases kind
  | closure lam parent =>
    obtain ⟨loaded, outer, shape, rfl, encloses, proper⟩ :=
      secure.verified.closure closure lam parent callable.callee.allowed held
    obtain ⟨follows, inside⟩ := secure.invoke held encloses callable.arguments
    have persists := follows.steady.persists
    rw [callClosure_eq (Heap.closure?_eq_some_iff.mpr held)]
    split
    · dsimp only
      split
      · exact ⟨follows, Fault.IsOrdinary.not_internal trivial, rfl⟩
      · rename_i room
        -- The new frame has no operands yet; what is below them belongs to the caller.
        have beneath : (m.invoke closure lam args).2.heap.Beneath data m.ceiling
            .procedure (if tail then m.calls else m.calls.push m.current).items m.stack.items := by
          cases tail with
          | false =>
            refine ⟨_, _, rfl, ?_, Heap.Poised.mono awaits persists (List.Subset.refl _)⟩
            rw [← m.stack.height_eq, ← m.calls.height_eq]
            exact Nat.lt_of_not_le fun full => room ⟨rfl, full⟩
          | true =>
            have beneath : Heap.Beneath _ _ _ .procedure _ _ := awaits
            exact beneath.mono persists
        obtain ⟨journal, entered⟩ := enter_eq lam (m.invoke closure lam args).1 tail
          (m.invoke closure lam args).2
        rw [entered]
        exact ⟨follows.control rfl, active, Heap.poised_iff.mpr ⟨.procedure, [], _,
          ⟨⟨_, inside, .entry loaded proper⟩, nofun⟩, .base, beneath⟩⟩
    · exact refuses secure trivial

theorem obeys_callNative {id : NativeId} (awaits : m.Awaits data tail)
    (callable : Callable m.discipline m (.native id) args) :
    Obeys data (·.trace = m.trace) m (callNative id args tail m) := by
  have registered : id < m.natives.size := callable.callee.allowed
  have found : m.natives[id]? = some m.natives[id] := Array.getElem?_eq_getElem registered
  have out := secure.tame id _ found _ registered args m.store secure.sound.heap callable.arguments
  simp only [callNative, MachineM.bind_apply, MachineM.find, found, MachineM.ite_apply]
  split
  · rw [MachineM.native]
    have follows {store : Store} (calm : m.store.Calm m.discipline store) :
        m.Follows data { m with store } :=
      ⟨⟨⟨rfl, rfl, rfl, rfl⟩, calm.grown.steady⟩, rfl, calm.civil secure.civil,
        secure.verified.grown calm.grown⟩
    cases res : m.natives[id].run args m.store with
    | error fault store =>
      rw [res] at out
      exact ⟨follows out.1, out.2 secure.civil, rfl⟩
    | ok answer store =>
      rw [res] at out
      have worked := follows out.1
      have awaits : Awaits data { m with store } tail := awaits.mono worked.steady.persists
      cases answer with
      | some v =>
        exact ⟨worked.control (ground_complete ..), awaits.complete active v⟩
      | none =>
        obtain ⟨journal, noted⟩ := note_eq { m with store } .debug fun _ =>
          "suspended in " ++ m.natives[id].name
        simp only [MachineM.bind_apply, MachineM.modify_apply, noted]
        refine ⟨worked.control rfl, tail, rfl, ?_⟩
        cases tail <;> exact awaits
  · exact refuses secure trivial

theorem obeys_callContinuation {cont : Handle}
    (callee_sound : (Value.continuation cont).Sound m.discipline m.heap) (v : Value) :
    Obeys data (·.trace = m.trace) m (callContinuation cont v m) := by
  obtain ⟨obj, held, kind⟩ := callee_sound.held _ rfl (.inr rfl)
  cases obj with
  | pair | vector | invocation | closure => cases kind
  | continuation snapshot =>
    obtain ⟨journal, noted⟩ := m.note_eq .debug fun _ =>
      "restoring continuation at " ++ offsetText snapshot.current.pc
    have found : m.heap.continuation? cont = some snapshot :=
      Heap.continuation?_eq_some_iff.mpr held
    simp only [callContinuation, MachineM.bind_apply, MachineM.find, found, MachineM.modify_apply,
      noted]
    exact ⟨secure.stays.control rfl, active,
      (secure.verified.continuation cont snapshot held).push v⟩

theorem obeys_dispatch (room : Nat) (awaits : m.Awaits data tail)
    (callable : Callable m.discipline m callee args) :
    Obeys data (·.trace = m.trace) m (dispatch room callee args tail m) := by
  have rule : DispatchRule tail (fun m callee args => m.Secure data ∧
      m.suspended = none ∧ m.Awaits data tail ∧ Callable m.discipline m callee args)
      fun m => Obeys data (·.trace = m.trace) m :=
    { refusal := fun {_ _ _ fault} ⟨secure, _⟩ refused =>
        refuses secure (by cases fault <;> trivial)
      closure := fun ⟨secure, active, awaits, callable⟩ =>
        obeys_callClosure secure active awaits callable
      native := fun ⟨secure, active, awaits, callable⟩ =>
        obeys_callNative secure active awaits callable
      continuation := fun ⟨secure, active, _, callable⟩ =>
        obeys_callContinuation secure active callable.callee _
      capture := fun {m _} ⟨secure, active, awaits, callable⟩ => by
        have captured := callable.capture tail
        have follows := secure.remember awaits
        have secure := follows.secure secure captured.sound
        rw [← follows.anchors.discipline] at captured
        obtain ⟨journal, remembered⟩ := remember_eq tail m
        rw [remembered] at follows secure captured ⊢
        exact ⟨⟨secure, active, awaits.mono follows.steady.persists, captured⟩, .since follows⟩
      apply := fun ⟨secure, active, awaits, callable⟩ found =>
        ⟨secure, active, awaits, callable.apply found⟩ }
  exact rule.dispatch room ⟨secure, active, awaits, callable⟩

end

theorem Sound.unwind {law : Discipline} (sound : m.Sound law) {callee : Value}
    {args rest : List Value} {saved : Int64}
    (top : m.stack.items = (callee :: args).reverse ++ .integer saved :: rest) :
    Callable law (m.unwind rest saved) callee args := by
  have on_stack : ∀ v ∈ (callee :: args).reverse ++ .integer saved :: rest, v.Sound law m.heap := by
    rw [← top]
    exact sound.control.stack
  obtain ⟨callee_sound, arguments_sound⟩ := List.forall_mem_cons.mp fun v mem =>
    on_stack v (List.mem_append_left _ (List.mem_reverse.mpr mem))
  refine ⟨sound.steer ⟨fun v mem => ?_, sound.control.calls, sound.control.current.invocation,
    sound.control.current.lambda⟩, callee_sound, arguments_sound⟩
  exact on_stack v (List.mem_append_right _ (List.mem_cons_of_mem _ mem))

/-- Calling what is on top of the stack, once it is known where the result goes. -/
theorem obeys_call (secure : m.Secure data) (active : m.suspended = none)
    {callee : Value} {args rest : List Value} {saved : Int64}
    (top : m.stack.items = (callee :: args).reverse ++ .integer saved :: rest)
    (awaits : (m.unwind rest saved).Awaits data tail) :
    Obeys data (·.trace = m.trace) m (Machine.call callee args tail (m.unwind rest saved)) := by
  have callable := secure.sound.unwind top
  have follows : m.Follows data (m.unwind rest saved) := secure.stays.control rfl
  exact .since follows (obeys_dispatch (follows.secure secure callable.sound) active
    maxRedirections awaits callable)

/-! ### Instructions -/

structure Facing (data : List Lambda) (machine : Machine) (pc : Nat) (level : Level)
    (shape : List Nat) (height : Height) (below : List Value) : Prop where
  encloses : machine.heap.Encloses shape machine.current.invocation
  sited : machine.current.lambda.Sited data level shape pc height
  counted : machine.current.operandCount = height.count
  layout : Layout height.count height.saved machine.stack.items below
  beneath : machine.heap.Beneath data machine.ceiling level machine.calls.items below

variable {level : Level} {shape : List Nat} {height : Height} {pc : Nat} {below : List Value}

theorem Facing.poised (facing : m.Facing data pc level shape height below) :
    m.heap.Poised data m.ceiling 0 { m.current with pc } m.calls.items m.stack.items := by
  obtain ⟨n, saved⟩ := height
  obtain ⟨encloses, sited, rfl, layout, beneath⟩ := facing
  exact Heap.poised_iff.mpr
    ⟨level, saved, below, ⟨⟨shape, encloses, sited⟩, nofun⟩, layout, beneath⟩

theorem Facing.runs (facing : m.Facing data m.current.pc level shape height below)
    (active : m.suspended = none) : m.Runs data :=
  ⟨active, facing.poised⟩

theorem Facing.within (facing : m.Facing data pc level shape height below)
    (calls : after.calls = m.calls) (cap : after.ceiling = m.ceiling)
    (lower : after.stack.height ≤ m.stack.height) : after.Within data := by
  obtain ⟨depth, size, reached, total⟩ := facing.poised.bound
  rw [← Stack.height_eq, ← Stack.height_eq] at total
  rw [← Stack.height_eq] at depth
  rw [Within, calls, cap]
  exact ⟨depth, size, Set.mem_insert_of_mem _ reached, by omega⟩

/-- The slot that the operands of an instruction stand for is there. -/
theorem exists_slot {heap : Heap} {inv : Handle} {depth slot : Int32}
    (encloses : heap.Encloses shape inv) (suits : ∃ level index size : Nat,
      depth.toInt = level ∧ slot.toInt = index ∧ shape[level]? = some size ∧ index < size) :
    ∃ outer slots, enclosing? heap depth.toInt.toNat inv = some outer ∧
      heap.slots? outer = some slots ∧ index slot < slots.size := by
  obtain ⟨level, place, size, depth_eq, slot_eq, scope, bound⟩ := suits
  obtain ⟨outer, slots, found, held, wide⟩ := encloses.enclosing scope
  rw [depth_eq, index_eq slot_eq]
  exact ⟨outer, slots, found, held, bound.trans_le wide⟩

theorem obeys_step (secure : m.Secure data) (active : m.suspended = none)
    (facing : m.Facing data pc level shape height below) {op : Op}
    (fetched : m.current.lambda.body.op? pc = some op) (advanced : m.current.pc = pc + op.size) :
    Obeys data (fun failed => failed.trace = m.trace ∧ (op = .call ∨ op = .tailCall)) m
      (Machine.step op pc m) := by
  have stays := secure.stays
  have ends := facing
  obtain ⟨encloses, sited, counted, layout, beneath⟩ := facing
  obtain ⟨⟨op, operands, complete⟩, reached, found, suits, effect, home, next, branch, makes⟩ :=
    sited.instruction
  obtain ⟨known, read⟩ := Bytecode.read_of_instruction? found
  cases Option.some.inj (fetched.symm.trans known)
  cases op with
  | constant =>
    obtain ⟨place, rfl⟩ := List.length_eq_one_iff.mp complete
    obtain ⟨index, v, eq, held⟩ := suits
    obtain ⟨first, -⟩ := Bytecode.operand?_of_operands? read
    rw [step_constant first (by rw [index_eq eq]; exact held)]
    cases effect
    exact ⟨stays.control rfl, Facing.runs ⟨encloses, advanced ▸ next rfl,
      congrArg (· + 1) counted, .value _ layout, beneath⟩ active⟩
  | «variable» =>
    obtain ⟨depth, slot, rfl⟩ := List.length_eq_two.mp complete
    obtain ⟨first, others⟩ := Bytecode.operand?_of_operands? read
    obtain ⟨second, -⟩ := Bytecode.operand?_of_operands? others
    obtain ⟨outer, slots, found, held, bound⟩ := exists_slot encloses suits
    rw [step_variable first second found held (Array.getElem?_eq_getElem bound)]
    cases effect
    exact ⟨stays.control rfl, Facing.runs ⟨encloses, advanced ▸ next rfl,
      congrArg (· + 1) counted, .value _ layout, beneath⟩ active⟩
  | setVariable =>
    obtain ⟨depth, slot, rfl⟩ := List.length_eq_two.mp complete
    obtain ⟨first, others⟩ := Bytecode.operand?_of_operands? read
    obtain ⟨second, -⟩ := Bytecode.operand?_of_operands? others
    obtain ⟨_ | n, saved⟩ := height
    · cases effect
    cases effect
    obtain ⟨v, xs, top, rest⟩ := layout.uncons
    obtain ⟨outer, slots, found, held, bound⟩ := exists_slot encloses suits
    rw [step_setVariable first second found held bound top]
    have same (slots : Array Value) :
        (slots.setIfInBounds (index slot) v).size = slots.size := Array.size_setIfInBounds
    have steady := Heap.Steady.modifySlots m.heap outer same
    exact ⟨⟨⟨⟨rfl, rfl, rfl, rfl⟩, steady⟩, rfl, secure.civil,
        secure.verified.modifySlots outer same⟩,
      Facing.runs ⟨encloses.mono steady.persists, advanced ▸ next rfl, congrArg (· - 1) counted,
        rest, beneath.mono steady.persists⟩ active⟩
  | resetOperandCount =>
    rw [step_resetOperandCount]
    cases effect
    refine ⟨stays.control rfl, Facing.runs ⟨encloses, advanced ▸ next rfl, rfl, ?_, beneath⟩ active⟩
    rw [counted]
    exact .count sited.small layout
  | call =>
    obtain ⟨_ | args, _ | ⟨n, saved⟩⟩ := height
    all_goals cases effect
    obtain ⟨callee, vals, rest, top, length, small, layout⟩ := layout.operands
    rw [step_call top (by rw [counted, length])]
    have awaits : (m.unwind rest (.ofNat n)).Awaits data false := by
      refine Heap.poised_iff.mpr ⟨level, saved, below,
        ⟨⟨shape, encloses, ?_⟩, fun _ => ⟨pc, _, advanced, fetched, sited.located⟩⟩, ?_, beneath⟩
      · change m.current.lambda.Sited data level shape m.current.pc
          ⟨(Int64.ofNat n).toUInt64.toNat + 1, saved⟩
        rw [toNat_ofNat small, advanced]
        exact next rfl
      · change Layout (Int64.ofNat n).toUInt64.toNat saved rest below
        rw [toNat_ofNat small]
        exact layout
    exact (obeys_call secure active top awaits).mono (fun _ _ => id)
      fun _ _ ⟨follows, ordinary, same⟩ => ⟨follows, ordinary, same, .inl rfl⟩
  | tailCall =>
    obtain ⟨⟨args, rfl⟩, -⟩ := sited.tailCall fetched
    obtain ⟨callee, vals, rest, top, length, -, layout⟩ := layout.operands
    rw [step_tailCall top (by rw [counted, length])]
    cases layout.eq_below
    cases home .procedure rfl
    have awaits : (m.unwind _ 0).Awaits data true := beneath
    exact (obeys_call secure active top awaits).mono (fun _ _ => id)
      fun _ _ ⟨follows, ordinary, same⟩ => ⟨follows, ordinary, same, .inr rfl⟩
  | «return» =>
    obtain ⟨_ | _ | n, _ | saved⟩ := height
    all_goals cases effect
    obtain ⟨v, xs, top, layout⟩ := layout.uncons
    cases home .procedure rfl
    obtain ⟨caller, calls, pending, -, poised⟩ := beneath
    obtain ⟨journal, noted⟩ := note_eq (m.drop xs) .debug fun _ =>
      "return to " ++ offsetText caller.pc
    rw [step_return top pending, resume, noted, layout.eq_below]
    exact ⟨stays.control rfl, active, poised.push v⟩
  | lambda =>
    obtain ⟨place, rfl⟩ := List.length_eq_one_iff.mp complete
    obtain ⟨index, inner, eq, held⟩ := suits
    obtain ⟨first, -⟩ := Bytecode.operand?_of_operands? read
    rw [← index_eq eq] at held
    obtain ⟨loaded, proper⟩ := makes inner (.lambda held)
    rw [step_lambda first held]
    cases effect
    have sane := secure.sound.heap.consistent
    have steady := Heap.Steady.alloc sane (.closure inner (some m.current.invocation))
    have verified := secure.verified.alloc sane
      (.closure inner (some m.current.invocation)) (fun lam parent eq => by
        cases eq
        exact ⟨loaded, _, _, rfl, encloses, proper⟩) nofun
    exact ⟨⟨⟨⟨rfl, rfl, rfl, rfl⟩, steady⟩, rfl, secure.civil, verified⟩,
      Facing.runs ⟨encloses.mono steady.persists, advanced ▸ next rfl, congrArg (· + 1) counted,
        .value _ layout, beneath.mono steady.persists⟩ active⟩
  | pop =>
    obtain ⟨_ | n, saved⟩ := height
    · cases effect
    cases effect
    obtain ⟨v, xs, top, layout⟩ := layout.uncons
    rw [step_pop top]
    exact ⟨stays.control rfl, Facing.runs ⟨encloses, advanced ▸ next rfl, congrArg (· - 1) counted,
      layout, beneath⟩ active⟩
  | jump =>
    obtain ⟨distance, rfl⟩ := List.length_eq_one_iff.mp complete
    obtain ⟨first, -⟩ := Bytecode.operand?_of_operands? read
    obtain ⟨place, leads, inside, there⟩ := branch _ rfl
    rw [step_jump first (by rw [advanced]; exact leads) inside.le]
    cases effect
    exact ⟨stays.control rfl, Facing.runs ⟨encloses, there, counted, layout, beneath⟩ active⟩
  | conditionalJump =>
    obtain ⟨distance, rfl⟩ := List.length_eq_one_iff.mp complete
    obtain ⟨first, -⟩ := Bytecode.operand?_of_operands? read
    obtain ⟨place, leads, inside, there⟩ := branch _ rfl
    obtain ⟨_ | n, saved⟩ := height
    · cases effect
    cases effect
    obtain ⟨v, xs, top, layout⟩ := layout.uncons
    rw [step_conditionalJump first (by rw [advanced]; exact leads) inside.le top]
    cases v.isTrue with
    | true =>
      exact ⟨stays.control rfl, Facing.runs ⟨encloses, advanced ▸ next rfl,
        congrArg (· - 1) counted, layout, beneath⟩ active⟩
    | false =>
      exact ⟨stays.control rfl, Facing.runs ⟨encloses, there, congrArg (· - 1) counted, layout,
        beneath⟩ active⟩
  | exit =>
    obtain ⟨_ | n, saved⟩ := height
    · cases effect
    obtain ⟨v, xs, top, -⟩ := layout.uncons
    rw [step_exit top]
    refine ⟨stays.control rfl, active, ends.within rfl rfl ?_⟩
    rw [m.stack.height_eq, top]
    exact Nat.le_succ _
  | lambdaExit => exact ⟨stays, active, ends.within rfl rfl (Nat.le_refl _)⟩

/-! ### Runs -/

/-- What an instruction finds when the machine can go on. -/
theorem Runs.step (runs : m.Runs data) (secure : m.Secure data) : ∃ op,
    m.current.lambda.body.op? m.current.pc = some op ∧ Obeys data
        (fun failed => failed.trace = (m.advance op).trace ∧ (op = .call ∨ op = .tailCall))
        m (Machine.step op m.current.pc (m.facing op)) := by
  obtain ⟨level, saved, below, ⟨⟨shape, encloses, sited⟩, -⟩, layout, beneath⟩ :=
    Heap.poised_iff.mp runs.poised
  obtain ⟨⟨op, _, _⟩, -, found, -⟩ := sited.instruction
  have fetched := Bytecode.op?_of_instruction? found
  refine ⟨op, fetched, ?_⟩
  have sound := (secure.sound.faces op).sound
  obtain ⟨journal, faced⟩ := m.facing_eq op
  rw [faced] at sound ⊢
  have follows : m.Follows data { m.advance op with store := { m.store with journal } } :=
    secure.stays.control rfl
  exact .since follows (obeys_step (follows.secure secure sound) runs.active
    ⟨encloses, sited, rfl, layout, beneath⟩ fetched rfl)

end Machine

/-- The error is reported as an internal error at run time. -/
def ScriptError.IsInternal (error : ScriptError) : Prop :=
  ∃ fault, error.cause = .failed fault ∧ fault.IsInternal

namespace Machine

variable {data : List Lambda} {m before after : Machine} {running : Bool}

def Blames (machine : Machine) (error : ScriptError) (after : Machine) : Prop :=
  ∃ (op : Op) (fault : Fault) (failed : Machine),
    machine.current.lambda.body.op? machine.current.pc = some op ∧ (op = .call ∨ op = .tailCall) ∧
    ¬ fault.IsInternal ∧ failed.trace = (machine.advance op).trace ∧
    (error, after) = failed.fail fault

theorem Blames.not_internal {error : ScriptError} (blames : m.Blames error after) :
    ¬ error.IsInternal := by
  obtain ⟨op, fault, failed, -, -, ordinary, -, ended⟩ := blames
  cases ended
  rintro ⟨other, caused, internal⟩
  cases caused
  exact ordinary internal

def Stops (data : List Lambda) (reached : Machine → Prop) (after : Machine) :
    Except ScriptError (Option Value) → Prop
  | .ok none => after.Ready data
  | .ok (some _) => after.suspended = none ∧ after.Within data
  | .error error => ∃ failing, reached failing ∧ failing.Runs data ∧ failing.Blames error after

theorem Stops.mono {reached reached' : Machine → Prop}
    {out : Except ScriptError (Option Value)} (stops : Stops data reached after out)
    (further : ∀ failing, reached failing → reached' failing) : Stops data reached' after out := by
  match out with
  | .ok none | .ok (some _) => exact stops
  | .error error =>
    obtain ⟨failing, met, rest⟩ := stops
    exact ⟨failing, further failing met, rest⟩

theorem Follows.fail (follows : before.Follows data after) (fault : Fault) :
    before.Follows data (after.fail fault).2 := by
  obtain ⟨journal, noted⟩ := after.note_eq .debug fun _ => "runtime error: " ++ fault.message
  rw [Machine.fail, noted]
  exact Follows.reset (follows.control rfl)

/-- A run of sane code gets stuck nowhere: after any number of instructions the machine can go
on, or it is done, or a call of the script has failed. -/
theorem Runs.run {σ : Type} (observe : Op → σ → σ) (room : Nat) (observed : σ)
    (runs : m.Runs data) (secure : m.Secure data) :
    m.Follows data (m.run observe room observed).2.2 ∧
      Stops data (fun failing => ∃ spent < room, ∃ seen,
          m.run observe spent observed = (.ok none, seen, failing))
        (m.run observe room observed).2.2 (m.run observe room observed).1 := by
  induction room generalizing m observed with
  | zero => exact ⟨secure.stays, .inl runs⟩
  | succ room ih =>
    obtain ⟨op, fetched, stepped⟩ := runs.step secure
    have sound := safe_step (secure.sound.faces op).sound op m.current.pc
    rw [run_succ fetched]
    split
    · rename_i out
      rw [out] at stepped sound
      obtain ⟨follows, stops⟩ := ih (observe op observed) stepped.2
        (stepped.1.secure secure sound.1.sound)
      refine ⟨stepped.1.trans follows, stops.mono ?_⟩
      rintro failing ⟨spent, less, seen, ran⟩
      refine ⟨spent + 1, Nat.succ_lt_succ less, seen, ?_⟩
      rw [run_succ fetched, out]
      exact ran
    · rename_i out
      rw [out] at stepped
      exact stepped
    · rename_i out
      rw [out] at stepped
      exact ⟨stepped.1, .inr stepped.2⟩
    · rename_i out
      rw [out] at stepped
      obtain ⟨follows, ordinary, same, calls⟩ := stepped
      exact ⟨follows.fail _, m, ⟨0, Nat.succ_pos room, observed, rfl⟩, runs, op, _, _, fetched,
        calls, ordinary, same, rfl⟩

/-! ### Between runs -/

def Abides (data : List Lambda) (machine : Machine) : Bool → Prop
  | true => machine.Ready data
  | false => machine.suspended = none ∧ machine.Within data

theorem Abides.within (abides : m.Abides data running) : m.Within data := by
  have bound {due : Nat} {frame : Frame} (poised : m.heap.Poised data m.ceiling due frame
      m.calls.items m.stack.items) : m.Within data := by
    obtain ⟨depth, size, reached, total⟩ := poised.bound
    rw [Within, m.calls.height_eq, m.stack.height_eq]
    exact ⟨depth, size, Set.mem_insert_of_mem _ reached, by omega⟩
  match running, abides with
  | false, abides => exact abides.2
  | true, .inl runs => exact bound runs.poised
  | true, .inr ⟨false, _, awaits⟩ => exact bound awaits
  | true, .inr ⟨true, _, awaits⟩ =>
    obtain ⟨caller, calls, pending, room, -⟩ := awaits
    rw [Within, m.calls.height_eq, m.stack.height_eq, pending, List.length_cons]
    exact ⟨by omega, 0, Set.mem_insert _ _, by omega⟩

def isUnfinished : Except ScriptError (Option Value) → Bool
  | .ok none => true
  | _ => false

/-- Nothing is left on the stacks when a computation is abandoned. -/
theorem heights_reset (m : Machine) : m.reset.calls.height = 0 ∧ m.reset.stack.height = 0 := by
  rw [Machine.reset]
  split <;> exact ⟨rfl, rfl⟩

theorem abides_reset (m : Machine) : m.reset.Abides data false := by
  refine ⟨rfl, ?_⟩
  rw [Within, (heights_reset m).1, (heights_reset m).2]
  exact ⟨Nat.zero_le _, 0, Set.mem_insert _ _, Nat.zero_le _⟩

theorem Stops.abides {reached : Machine → Prop} {out : Except ScriptError (Option Value)}
    (stops : Stops data reached after out) : after.Abides data (isUnfinished out) := by
  match out with
  | .ok none | .ok (some _) => exact stops
  | .error error =>
    obtain ⟨failing, -, -, op, fault, failed, -, -, -, -, ended⟩ := stops
    cases ended
    exact abides_reset _

/-- Supplying the result that a native procedure owes. -/
theorem Abides.wake (abides : m.Abides data running) (v : Value) :
    (m.wake v).2.Abides data running := by
  cases running with
  | true => exact Ready.wake abides v
  | false =>
    simp only [Machine.wake, abides.1]
    exact abides

theorem Abides.runs (abides : m.Abides data running) (busy : running = true)
    (active : m.suspended = none) : m.Runs data := by
  subst busy
  rcases abides with runs | ⟨tail, suspended, -⟩
  · exact runs
  · cases active.symm.trans suspended

theorem Abides.mono {store : Store} (abides : m.Abides data running)
    (persists : m.heap.Persists store.heap) : Abides data { m with store } running := by
  cases running with
  | true => exact Ready.mono abides persists
  | false => exact abides

end Machine

end MiniScheme
