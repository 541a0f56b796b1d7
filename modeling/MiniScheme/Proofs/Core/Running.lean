import MiniScheme.Proofs.Core.Realization
import MiniScheme.Proofs.Machine.TailCalls

/-!
# Running against evaluation

What it means that a run of the machine does what evaluation does: it arrives where the result is
due, with a store that the final state describes, or it fails in the same way; in any case it may
find the stacks full. Parts of a run are put together as parts of evaluation are. One lemma for each
instruction says where it leads, in terms of how far the code has been run and of the store.
-/

namespace MiniScheme.Machine

open Bytecode

/-! ### Parts of runs -/

/-- Running leads from one state to the other. -/
def Proceeds (before after : Machine) : Prop :=
  ∃ count, Steps id count before after

def Fails (machine : Machine) (fault : Fault) : Prop :=
  ∃ count error, (runAs id count machine).1 = .error error ∧ error.cause = .failed fault

variable {m before mid after : Machine} {st : EvalState} {store : Store}

namespace Proceeds

theorem refl (m : Machine) : m.Proceeds m :=
  ⟨0, .refl m⟩

theorem trans (first : before.Proceeds mid) (second : mid.Proceeds after) :
    before.Proceeds after := by
  obtain ⟨n, first⟩ := first
  obtain ⟨n', second⟩ := second
  exact ⟨n + n', first.trans second⟩

theorem fails (proceeds : before.Proceeds after) {fault : Fault} (fails : after.Fails fault) :
    before.Fails fault := by
  obtain ⟨n, steps⟩ := proceeds
  obtain ⟨n', error, failed, cause⟩ := fails
  exact ⟨n + n', error, by rw [steps.run, failed], cause⟩

/-- What running leads to is what a run of some length ends with. -/
theorem eq_run (proceeds : before.Proceeds after) :
    ∃ n, before.run (fun _ => id) n () = (.ok none, (), after) := by
  obtain ⟨n, steps⟩ := proceeds
  have run := steps.run 0
  rw [Nat.add_zero, runAs_id] at run
  obtain ⟨answer, ends⟩ := Prod.mk.inj run
  exact ⟨n, Prod.ext answer (Prod.ext rfl ends)⟩

variable {law : Discipline}

theorem sound (proceeds : before.Proceeds after) (sound : before.Sound law) : after.Sound law := by
  obtain ⟨n, run⟩ := proceeds.eq_run
  have ends := sound.run (fun _ => id) n ()
  rwa [run] at ends

theorem maintains (proceeds : before.Proceeds after) (sound : before.Sound law)
    (tame : ∀ native ∈ before.natives, native.Tame law) : before.Maintains after := by
  obtain ⟨n, run⟩ := proceeds.eq_run
  have ends := Maintains.run (fun _ => id) n () sound tame
  rwa [run] at ends

end Proceeds

/-! ### Results -/

/-- `Settles machine finish outcome`: the run comes to what evaluation comes to, unless the stacks
get too high. Where a result is due depends on the result and on the store. -/
inductive Settles {α : Type} (machine : Machine) (finish : α → Store → Machine) :
    Except Fault (α × EvalState) → Prop where
  | arrives {result : α} {state : EvalState} {store : Store} (describes : state.Describes store)
      (proceeds : machine.Proceeds (finish result store)) :
      Settles machine finish (.ok (result, state))
  | fails {fault : Fault} (failed : machine.Fails fault) : Settles machine finish (.error fault)
  | overflows {outcome : Except Fault (α × EvalState)} (failed : machine.Fails .stackOverflow) :
      Settles machine finish outcome

namespace Settles

variable {α β : Type} {finish : α → Store → Machine} {finish' : β → Store → Machine}

variable {out : Except Fault (α × EvalState)}

theorem since (proceeds : before.Proceeds m) (settles : Settles m finish out) :
    Settles before finish out := by
  cases settles with
  | arrives describes onward => exact .arrives describes (proceeds.trans onward)
  | fails failed => exact .fails (proceeds.fails failed)
  | overflows failed => exact .overflows (proceeds.fails failed)

/-- The parts of a run that follow each other do what the parts of evaluation do. -/
theorem bind {action : EvalM α} {next : α → EvalM β} {out : Except Fault (β × EvalState)}
    (evaluated : (action >>= next) st = some out)
    (first : ∀ out, action st = some out → Settles m finish out)
    (second : ∀ res st store, st.Describes store →
      m.Proceeds (finish res store) → next res st = some out →
        Settles (finish res store) finish' out) : Settles m finish' out := by
  rcases EvalM.bind_cases evaluated with ⟨fault, failed, rfl⟩ | ⟨res, mid, done, rest⟩
  · cases first _ failed with
    | fails failed => exact .fails failed
    | overflows failed => exact .overflows failed
  · cases first _ done with
    | arrives describes proceeds => exact .since proceeds (second _ _ _ describes proceeds rest)
    | overflows failed => exact .overflows failed

theorem mono {finish' : α → Store → Machine} (settles : Settles m finish out)
    (onward : ∀ res (st : EvalState) store, st.Describes store →
      ∃ store', st.Describes store' ∧ (finish res store).Proceeds (finish' res store')) :
    Settles m finish' out := by
  cases settles with
  | arrives describes proceeds =>
    obtain ⟨store', describes', further⟩ := onward _ _ _ describes
    exact .arrives describes' (proceeds.trans further)
  | fails failed => exact .fails failed
  | overflows failed => exact .overflows failed

end Settles

/-- `Continues finish outcome result`: what an instruction leads to comes to what evaluation comes
to. -/
inductive Continues {α : Type} (finish : α → Store → Machine)
    (outcome : Except Fault (α × EvalState)) : EStateM.Result Fault Machine Flow → Prop where
  | next {machine : Machine} (settles : Settles machine finish outcome) :
      Continues finish outcome (.ok .next machine)
  | fails {fault : Fault} {machine : Machine} (same : outcome = .error fault) :
      Continues finish outcome (.error fault machine)
  | overflows {machine : Machine} : Continues finish outcome (.error .stackOverflow machine)

/-- The run goes on after the instruction, or fails there. -/
theorem Continues.settles {α : Type} {finish : α → Store → Machine}
    {out : Except Fault (α × EvalState)} {res : EStateM.Result Fault Machine Flow}
    (continues : Continues finish out res)
    (carried : ∀ after, res = .ok .next after → m.Proceeds after)
    (failed : ∀ fault after, res = .error fault after → m.Fails fault) : Settles m finish out := by
  cases continues with
  | next settles => exact .since (carried _ rfl) settles
  | fails same =>
    rw [same]
    exact .fails (failed _ _ rfl)
  | overflows => exact .overflows (failed _ _ rfl)

/-! ### How far the code has been run -/

/-- The machine at an offset of the same code, with another store. -/
def moved (pc : Nat) (store : Store) (machine : Machine) : Machine :=
  { machine with store, current := { machine.current with pc } }

abbrev past (size : Nat) (store : Store) (machine : Machine) : Machine :=
  machine.moved (machine.current.pc + size) store

/-- The machine with a number of values more on its stack, the last one on top. -/
def pushAll (values : List Value) (machine : Machine) : Machine :=
  { machine with
    stack := .ofItems (values.reverse ++ machine.stack.items)
    current :=
      { machine.current with operandCount := machine.current.operandCount + values.length } }

theorem pushAll_nil (m : Machine) : m.pushAll [] = m := by
  rw [pushAll, List.reverse_nil, List.nil_append, ← Stack.eq_ofItems rfl]
  rfl

theorem pushAll_cons (v : Value) (vals : List Value) (m : Machine) :
    (m.push v).pushAll vals = m.pushAll (v :: vals) := by
  simp only [pushAll, push, Stack.items_push, List.reverse_cons, List.append_assoc,
    List.length_cons, Nat.add_assoc, Nat.add_comm 1]
  rfl

theorem drop_push (v : Value) (m : Machine) : (m.push v).drop m.stack.items = m := by
  rw [drop, ← Stack.eq_ofItems rfl]
  rfl

def saving (machine : Machine) : Machine :=
  { machine with
    stack := machine.stack.push (.integer (.ofNat machine.current.operandCount))
    current := { machine.current with operandCount := 0 } }

/-- The operands of a call are taken from the stack, and the saved count comes back as it was. -/
theorem operands_saving (counted : m.current.operandCount < 2 ^ 64) (callee : Value)
    (args : List Value) (pc : Nat) (store : Store) :
    operands ((m.saving.pushAll (callee :: args)).moved pc store) =
      .ok (callee, args) (m.moved pc store) := by
  let pushed := (m.saving.pushAll (callee :: args)).moved pc store
  have top : pushed.stack.items = (callee :: args).reverse ++
      .integer (.ofNat m.current.operandCount) :: m.stack.items := rfl
  have back : (Int64.ofNat m.current.operandCount).toUInt64.toNat =
      m.current.operandCount := UInt64.toNat_ofNat_of_lt' counted
  rw [operands_eq top (Nat.zero_add _), unwind, back, ← Stack.eq_ofItems rfl]
  rfl

/-! ### Instructions -/

/-- The code that the machine has yet to carry out, from the instruction that it faces. -/
abbrev ahead (machine : Machine) : List UInt8 :=
  machine.current.lambda.body.rest machine.current.pc

section

variable {op : Op} {bytes rest : List UInt8} {v : Value}

/-- The machine carries out the instruction that it faces. What it notes on it does not count. -/
theorem exists_step (m : Machine) (here : m.ahead = op.toByte :: bytes) :
    ∃ journal, journal.said = m.store.journal.said ∧
    let res := step op m.current.pc
      (m.past op.size { m.store with journal })
    (∀ after, res = .ok .next after → m.Proceeds after) ∧
      ∀ fault after, res = .error fault after → m.Fails fault := by
  have fetched := op?_of_rest here
  obtain ⟨journal, said, faced⟩ := m.facing_aside op
  refine ⟨journal, said, fun after stepped => ?_, fun fault after stepped => ?_⟩
  · refine ⟨1, .one fetched ?_⟩
    rw [faced]
    exact stepped
  · have failed : runAs id 1 m = (after.fail fault).map .error id := by
      rw [runAs_some fetched, faced]
      change proceed _ (step op m.current.pc (m.past op.size { m.store with journal })) = _
      rw [stepped]
      rfl
    exact ⟨1, after.errorOf fault, by rw [failed]; rfl, rfl⟩

/-- Running leads there with the same store, notes aside. -/
def Leads (before : Machine) (finish : Store → Machine) : Prop :=
  ∃ journal, journal.said = before.store.journal.said ∧
    before.Proceeds (finish { before.store with journal })

theorem leads_of_step {finish : Store → Machine} (here : m.ahead = op.toByte :: bytes)
    (stepped : ∀ journal, step op m.current.pc (m.past op.size { m.store with journal }) =
        .ok .next (finish { m.store with journal })) : m.Leads finish := by
  obtain ⟨journal, said, carried, -⟩ := exists_step m here
  exact ⟨journal, said, carried _ (stepped journal)⟩

theorem read_operand {operand : Int32} (here : m.ahead = (ofOp op [operand]).stream ++ rest) :
    m.ahead = op.toByte :: (encodeOperand operand ++ rest) ∧
      m.current.lambda.body.operand? (m.current.pc + 1) = some operand := by
  rw [stream_ofOp, List.flatMap_singleton, List.cons_append] at here
  exact ⟨here, operand?_of_rest (rest_add [_] here)⟩

variable {index depth slot : Nat} {inv : Handle} {slots : Array Value}

theorem proceeds_constant (here : m.ahead = (ofOp .constant [.ofNat index]).stream ++ rest)
    (small : index < operandLimit) (found : m.current.lambda.constants[index]? = some (.value v)) :
    m.Leads fun store => (m.past 5 store).push v := by
  obtain ⟨here, operand⟩ := read_operand here
  refine leads_of_step here fun journal => step_constant operand ?_
  rw [index_ofNat small]
  exact found

theorem read_place (here : m.ahead = (ofOp op [.ofNat depth, .ofNat slot]).stream ++ rest) :
    m.ahead = op.toByte :: (encodeOperand (.ofNat depth) ++ (encodeOperand (.ofNat slot) ++ rest)) ∧
      m.current.lambda.body.operand? (m.current.pc + 1) = some (.ofNat depth) ∧
      m.current.lambda.body.operand? (m.current.pc + 1 + 4) = some (.ofNat slot) := by
  have bytes : (ofOp op [.ofNat depth, .ofNat slot]).stream ++ rest =
      op.toByte :: (encodeOperand (.ofNat depth) ++ (encodeOperand (.ofNat slot) ++ rest)) := by
    simp
  rw [bytes] at here
  have first := rest_add [_] here
  exact ⟨here, operand?_of_rest first, operand?_of_rest (rest_add (encodeOperand _) first)⟩

theorem proceeds_variable (here : m.ahead =
      (ofOp .variable [.ofNat depth, .ofNat slot]).stream ++ rest)
    (near : depth < operandLimit) (small : slot < operandLimit)
    (outer : enclosing? m.heap depth m.current.invocation = some inv)
    (held : m.heap.slots? inv = some slots) (found : slots[slot]? = some v) :
    m.Leads fun store => (m.past 9 store).push v := by
  obtain ⟨here, first, second⟩ := read_place here
  refine leads_of_step here fun journal => step_variable first second ?_ held ?_
  · rw [toInt_ofNat near]
    exact outer
  · rw [index_ofNat small]
    exact found

/-- The machine's store after a value has been put into a slot. -/
def stored (store : Store) (invocation : Handle) (slot : Nat) (value : Value) : Store :=
  { store with
    heap := store.heap.modifySlots invocation fun slots => slots.setIfInBounds slot value }

theorem proceeds_setVariable (here : m.ahead =
      (ofOp .setVariable [.ofNat depth, .ofNat slot]).stream ++ rest)
    (near : depth < operandLimit) (small : slot < operandLimit)
    (outer : enclosing? m.heap depth m.current.invocation = some inv)
    (held : m.heap.slots? inv = some slots) (bound : slot < slots.size) :
    (m.push v).Leads fun store =>
      m.past 9 (stored store inv slot v) := by
  obtain ⟨here, first, second⟩ := read_place here
  refine @leads_of_step (m.push v) _ _ _ here fun journal => ?_
  have stepped : step .setVariable m.current.pc ((m.past 9
      { m.store with journal }).push v) = .ok .next _ :=
    step_setVariable first second (by rw [toInt_ofNat near]; exact outer) held
      (by rw [index_ofNat small]; exact bound) rfl
  rw [drop_push, index_ofNat small] at stepped
  exact stepped

theorem proceeds_resetOperandCount (here : m.ahead = (ofOp .resetOperandCount).stream ++ rest) :
    m.Leads fun store => (m.past 1 store).saving :=
  leads_of_step here fun _ => step_resetOperandCount

theorem proceeds_lambda {lam : Lambda} (here : m.ahead = (ofOp .lambda [.ofNat index]).stream ++ rest)
    (small : index < operandLimit)
    (found : m.current.lambda.constants[index]? = some (.lambda lam)) :
    let built := m.heap.alloc (.closure lam (some m.current.invocation))
    m.Leads fun store =>
      (m.past 5 { store with heap := built.2 }).push (.closure built.1) := by
  obtain ⟨here, operand⟩ := read_operand here
  refine leads_of_step here fun journal => step_lambda operand ?_
  rw [index_ofNat small]
  exact found

theorem proceeds_pop (here : m.ahead = (ofOp .pop).stream ++ rest) :
    (m.push v).Leads fun store => m.past 1 store := by
  refine @leads_of_step (m.push v) _ _ _ here fun journal => ?_
  have stepped : step .pop m.current.pc ((m.past 1
      { m.store with journal }).push v) = .ok .next _ := step_pop rfl
  rw [drop_push] at stepped
  exact stepped

/-- A jump lands where its distance says, within the code. -/
theorem jump_target {frame : Frame} {pc distance : Nat} {opcode : UInt8} {bytes : List UInt8}
    (here : frame.lambda.body.rest pc = opcode :: (encodeOperand (.ofNat distance) ++ bytes))
    (advanced : frame.pc = pc + 5) (small : distance < operandLimit)
    (bound : distance ≤ bytes.length) :
    (frame.pc : Int) + (Int32.ofNat distance).toInt = (frame.pc + distance : Nat) ∧
      frame.pc + distance ≤ frame.lambda.body.size := by
  have length := congrArg List.length here
  rw [length_rest, List.length_cons, List.length_append, length_encodeOperand] at length
  rw [toInt_ofNat small]
  omega

theorem proceeds_jump {distance : Nat} (here : m.ahead = (ofOp .jump [.ofNat distance]).stream ++ rest)
    (small : distance < operandLimit) (bound : distance ≤ rest.length) :
    m.Leads fun store => m.moved (m.current.pc + 5 + distance) store := by
  obtain ⟨here, operand⟩ := read_operand here
  refine leads_of_step here fun journal => ?_
  obtain ⟨leads, inside⟩ := @jump_target (m.past 5
    { m.store with journal }).current m.current.pc distance _ rest here rfl small bound
  exact step_jump operand leads inside

theorem proceeds_conditionalJump {distance : Nat}
    (here : m.ahead = (ofOp .conditionalJump [.ofNat distance]).stream ++ rest)
    (small : distance < operandLimit) (bound : distance ≤ rest.length) :
    (m.push v).Leads fun store =>
      m.moved (m.current.pc + 5 + if v.isTrue then 0 else distance) store := by
  obtain ⟨here, operand⟩ := read_operand here
  refine @leads_of_step (m.push v) _ _ _ here fun journal => ?_
  obtain ⟨leads, inside⟩ := @jump_target (m.past 5
    { m.store with journal }).current m.current.pc distance _ rest here rfl small bound
  have stepped : step .conditionalJump m.current.pc ((m.past 5
      { m.store with journal }).push v) = .ok .next _ :=
    step_conditionalJump operand leads inside rfl
  rw [drop_push] at stepped
  cases truth : v.isTrue <;>
  · rw [truth] at stepped
    exact stepped

end

end MiniScheme.Machine
