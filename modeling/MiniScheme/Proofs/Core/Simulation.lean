import MiniScheme.Proofs.Core.Running

/-!
# Running code of expressions

Code of an expression does what evaluating the expression does, wherever the machine stands in the
environment of the expression. Where the value is due depends on the position: behind the code, or,
in tail position, with the caller, to which nothing but jumps lead from the end of the code. The
statement is proved for each kind of expression, given that it holds of evaluation to a lesser
depth.
-/

namespace MiniScheme

open Bytecode

/-- The native procedure sees closures from outside only: it leaves them as they are, and what is in
them makes no difference to it. -/
structure Native.Discreet (discipline : Discipline) (native : Native) : Prop where
  tame : native.Tame discipline
  respects {rel : Handle → Object → Object → Prop} : Likeness rel → ∀ arguments : List Value,
    StoreM.Respects (Store.Alike rel) (native.run arguments)

theorem Stdlib.discreet_registry {law : Discipline} :
    ∀ native ∈ Stdlib.registry, native.Discreet law :=
  fun native mem => ⟨Stdlib.tame_registry native mem, fun like =>
    (Stdlib.impartial_registry like native mem).respects⟩

namespace Machine

/-- The machine is where evaluation is: in the environment, with a store that the state
describes. -/
structure Stands (discipline : Discipline) (natives : Array Native) (machine : Machine)
    (environment : Environment) (state : EvalState) : Prop where
  sound : machine.Sound discipline
  natives : machine.natives = natives
  addressable : machine.current.lambda.Addressable
  counted : machine.current.operandCount < 2 ^ 64
  represents : machine.heap.Represents environment machine.current.invocation
  describes : state.Describes machine.store

def deliver (machine : Machine) (target : Snapshot) (value : Value) (store : Store) : Machine :=
  restore target value { machine with store }

def callerSnapshot (machine : Machine) (caller : Frame) (calls : List Frame) : Snapshot :=
  { stack := machine.stack, calls := .ofItems calls, current := caller }

/-- `machine.Receives size tail target`: where the value of code of this size is due. -/
inductive Receives (machine : Machine) (size : Nat) : Bool → Snapshot → Prop where
  | here : Receives machine size false
      { stack := machine.stack
        calls := machine.calls
        current := { machine.current with pc := machine.current.pc + size } }
  | caller {caller : Frame} {calls : List Frame}
      (returns : machine.current.lambda.body.Returns (machine.current.pc + size))
      (pending : machine.calls.items = caller :: calls) :
      Receives machine size true (machine.callerSnapshot caller calls)

variable {law : Discipline} {natives : Array Native} {m after : Machine}
  {env : Environment} {st st' : EvalState} {store : Store} {v : Value}
  {tail : Bool} {size : Nat} {target : Snapshot}

theorem Receives.arrives (receives : m.Receives size tail target) (describes : st.Describes store)
    (proceeds : m.Proceeds ((m.past size store).push v)) :
    Settles m (m.deliver target) (.ok (v, st)) := by
  cases receives with
  | here => exact .arrives describes proceeds
  | caller returns pending =>
    obtain ⟨n, journal, said, steps⟩ := @steps_of_returns id rfl rfl _ _ returns
      ((m.past size store).push v) rfl rfl v m.stack.items rfl _ _ pending
    rw [← Stack.eq_ofItems rfl] at steps
    exact .arrives (describes.noted said) (proceeds.trans ⟨n, steps⟩)

theorem Receives.moved {done : Nat} (receives : m.Receives (done + size) tail target)
    (store : Store) : (m.moved (m.current.pc + done) store).Receives size tail target := by
  cases receives with
  | here =>
    rw [← Nat.add_assoc]
    exact .here
  | caller returns pending =>
    rw [← Nat.add_assoc] at returns
    exact .caller returns pending

namespace Stands

section

variable (discreet : ∀ native ∈ natives, native.Discreet law)
  (stands : m.Stands law natives env st)

include discreet stands

theorem maintains (proceeds : m.Proceeds after) : m.Maintains after := by
  apply proceeds.maintains stands.sound
  rw [stands.natives]
  exact fun native mem => (discreet native mem).tame

theorem found (proceeds : m.Proceeds after) : after.heap.Represents env m.current.invocation :=
  stands.represents.mono (stands.maintains discreet proceeds).steady

theorem proceed (proceeds : m.Proceeds after) (lam : after.current.lambda = m.current.lambda)
    (inv : after.current.invocation = m.current.invocation)
    (counted : after.current.operandCount < 2 ^ 64) (describes : st'.Describes after.store) :
    after.Stands law natives env st' := by
  refine ⟨proceeds.sound stands.sound,
    (stands.maintains discreet proceeds).anchors.natives.trans stands.natives, ?_, counted, ?_,
    describes⟩
  · rw [lam]
    exact stands.addressable
  · rw [inv]
    exact stands.found discreet proceeds

theorem moved {pc : Nat} (proceeds : m.Proceeds (m.moved pc store))
    (describes : st'.Describes store) : (m.moved pc store).Stands law natives env st' :=
  stands.proceed discreet proceeds rfl rfl stands.counted describes

end

end Stands

abbrev Expresses (machine : Machine) (environment : Environment) (tail : Bool)
    (expression : Expression) (bytes : List UInt8) : Prop :=
  Translates machine.current.lambda.constants environment.namings tail expression bytes

/-- `Simulates discipline natives recur`: code does what `recur` does with expressions. -/
def Simulates (discipline : Discipline) (natives : Array Native)
    (recur : Environment → Expression → EvalM Value) : Prop :=
  ∀ ⦃machine : Machine⦄ ⦃environment : Environment⦄ ⦃state : EvalState⦄ ⦃expression : Expression⦄
    ⦃tail : Bool⦄ ⦃bytes rest : List UInt8⦄ ⦃target : Snapshot⦄
    ⦃outcome : Except Fault (Value × EvalState)⦄,
    machine.Stands discipline natives environment state →
    machine.Expresses environment tail expression bytes →
    machine.ahead = bytes ++ rest →
    machine.Receives bytes.length tail target →
    recur environment expression state = some outcome →
    Settles machine (machine.deliver target) outcome

/-! ### Expressions without calls -/

section

variable {recur : Environment → Expression → EvalM Value} {bytes rest : List UInt8}
  {expr : Expression} {name : String} {out : Except Fault (Value × EvalState)}
  (discreet : ∀ native ∈ natives, native.Discreet law)
  (stands : m.Stands law natives env st)

theorem Simulates.operand (simulates : Simulates law natives recur)
    (stands : m.Stands law natives env st) (translates : m.Expresses env false expr bytes)
    (here : m.ahead = bytes ++ rest) (evaluated : recur env expr st = some out) :
    Settles m (fun v store =>
      (m.past bytes.length store).push v) out :=
  simulates stands translates here .here evaluated

include stands

variable {index depth slot : Nat} {yes no : List UInt8}

theorem settles_literal (found : m.current.lambda.constants[index]? = some (.value v))
    (here : m.ahead = (ofOp .constant [.ofNat index]).stream ++ rest)
    (receives : m.Receives 5 tail target) : Settles m (m.deliver target) (.ok (v, st)) := by
  have small : index < operandLimit :=
    Nat.lt_of_lt_of_le (lt_size found) stands.addressable.constants
  obtain ⟨journal, said, proceeds⟩ := proceeds_constant here small found
  exact receives.arrives (stands.describes.noted said) proceeds

theorem settles_variable (place : place? env.namings name = some (depth, slot))
    (near : depth < operandLimit) (small : slot < operandLimit)
    (here : m.ahead = (ofOp .variable [.ofNat depth, .ofNat slot]).stream ++ rest)
    (receives : m.Receives 9 tail target) (evaluated : Expression.fetch env name st = some out) :
    Settles m (m.deliver target) out := by
  obtain ⟨inv, _, slots, v, known, held, found, rfl⟩ := Expression.fetch_cases evaluated
  obtain ⟨_, known', outer⟩ := stands.represents.enclosing place
  cases known.symm.trans known'
  rw [← stands.describes.slots?_eq] at held
  obtain ⟨journal, said, proceeds⟩ := proceeds_variable here near small outer held found
  exact receives.arrives (stands.describes.noted said) proceeds

omit stands in
theorem settles_assign {out : Except Fault (Unit × EvalState)} {depth slot : Nat}
    (represents : m.heap.Represents env m.current.invocation) (describes : st.Describes m.store)
    (place : place? env.namings name = some (depth, slot)) (near : depth < operandLimit)
    (small : slot < operandLimit)
    (here : m.ahead = (ofOp .setVariable [.ofNat depth, .ofNat slot]).stream ++ rest)
    (evaluated : Expression.assign env name v st = some out) :
    Settles (m.push v) (fun _ store => m.past 9 store) out := by
  obtain ⟨inv, _, slots, known, held, bound, rfl⟩ := Expression.assign_cases evaluated
  obtain ⟨_, known', outer⟩ := represents.enclosing place
  cases known.symm.trans known'
  rw [← describes.slots?_eq] at held
  obtain ⟨journal, said, proceeds⟩ := proceeds_setVariable here near small outer held bound
  let work (heap : Heap) : Unit × Heap :=
    ((), heap.modifySlots inv fun slots => slots.setIfInBounds slot v)
  have assigned := (describes.noted said).onHeap work work
    ⟨rfl, describes.heap.modifySlots (likeness_embodies _ _) inv _⟩
    (.modifySlots _ inv fun _ => Array.size_setIfInBounds)
  exact .arrives assigned.2 proceeds

theorem settles_lambda {abstraction : Abstraction} {lam : Lambda}
    (found : m.current.lambda.constants[index]? = some (.lambda lam))
    (implements : Implements env.namings lam abstraction)
    (here : m.ahead = (ofOp .lambda [.ofNat index]).stream ++ rest)
    (receives : m.Receives 5 tail target)
    (evaluated : Expression.close { abstraction, environment := env } st = some out) :
    Settles m (m.deliver target) out := by
  have small : index < operandLimit :=
    Nat.lt_of_lt_of_le (lt_size found) stands.addressable.constants
  obtain ⟨journal, said, proceeds⟩ := proceeds_lambda here small found
  obtain ⟨created, closed, describes⟩ := @EvalState.Describes.close _ _
    (stands.describes.noted said) stands.sound.heap.consistent { abstraction, environment := env } lam
    m.current.invocation implements stands.represents
  cases evaluated.symm.trans closed
  exact receives.arrives describes proceeds

variable (simulates : Simulates law natives recur)

include simulates discreet

theorem settles_sequence {first second : Expression} {bytes' : List UInt8}
    (dropped : m.Expresses env false first bytes) (last : m.Expresses env tail second bytes')
    (here : m.ahead = bytes ++ ((ofOp .pop).stream ++ (bytes' ++ rest)))
    (receives : m.Receives (bytes.length + 1 + bytes'.length) tail target) (evaluated : (do
      let _ ← recur env first
      recur env second) st = some out) : Settles m (m.deliver target) out := by
  refine .bind evaluated (fun _ => simulates.operand stands dropped here) ?_
  intro v st' store describes proceeds remaining
  have there := rest_add bytes here
  obtain ⟨journal, said, popped⟩ := @proceeds_pop (m.past bytes.length store) _ v there
  refine .since popped ?_
  have stands' := stands.moved discreet (proceeds.trans popped) (describes.noted said)
  exact simulates stands' last (rest_add (ofOp .pop).stream there) (receives.moved _) remaining

section

variable (place : place? env.namings name = some (depth, slot))
  (near : depth < operandLimit) (small : slot < operandLimit)
  (translates : m.Expresses env false expr bytes)

include place near small translates

/-- The value of an expression is put into the slot of a variable, before whatever comes next. -/
theorem settles_store {β : Type} {next : Unit → EvalM β} {finish : β → Store → Machine}
    {out : Except Fault (β × EvalState)} (here : m.ahead = bytes ++
      ((ofOp .setVariable [.ofNat depth, .ofNat slot]).stream ++ rest)) (evaluated : (do
      let v ← recur env expr
      let done ← Expression.assign env name v
      next done) st = some out) (second : ∀ st store,
      (m.past (bytes.length + 9) store).Stands law natives env st → next () st = some out →
      Settles (m.past (bytes.length + 9) store) finish out) : Settles m finish out := by
  refine .bind evaluated (fun _ => simulates.operand stands translates here) ?_
  intro v valued store describes proceeds remaining
  have there := rest_add bytes here
  have represents := stands.found discreet proceeds
  refine .bind remaining (fun _ => @settles_assign
    (m.past bytes.length store) _ _ _ _ _ _ _ _ represents describes place near small there) ?_
  intro _ assigned store' describes' proceeds' remaining
  exact second assigned store' (stands.moved discreet (proceeds.trans proceeds') describes')
    remaining

theorem settles_assignment (found : m.current.lambda.constants[index]? = some (.value .unspecified))
    (here : m.ahead = bytes ++ ((ofOp .setVariable [.ofNat depth, .ofNat slot]).stream ++
        ((ofOp .constant [.ofNat index]).stream ++ rest)))
    (receives : m.Receives (bytes.length + 9 + 5) tail target) (evaluated : (do
      Expression.assign env name (← recur env expr)
      return Value.unspecified) st = some out) : Settles m (m.deliver target) out := by
  refine settles_store discreet stands simulates place near small translates here evaluated ?_
  intro st store stands' remaining
  cases remaining
  have there := rest_add (ofOp .setVariable [.ofNat depth, .ofNat slot]).stream
    (rest_add bytes here)
  rw [Nat.add_assoc] at there
  exact settles_literal stands' found there (receives.moved store)

end

omit discreet in
/-- Behind the first of two branches, a jump leads past the second. -/
theorem settles_consequent (chosen : m.Expresses env tail expr yes)
    (here : m.ahead = yes ++ ((ofOp .jump [.ofNat no.length]).stream ++ (no ++ rest)))
    (receives : m.Receives (yes.length + (5 + no.length)) tail target)
    (evaluated : recur env expr st = some out) : Settles m (m.deliver target) out := by
  have there := rest_add yes here
  have small : no.length < operandLimit := by
    have length := congrArg List.length here
    have addressable := stands.addressable.code
    simp only [length_rest, List.length_append, length_stream,
      size_ofOp, List.length_singleton] at length
    omega
  have bound : no.length ≤ (no ++ rest).length := by
    rw [List.length_append]
    exact Nat.le_add_right ..
  cases receives with
  | here =>
    refine (simulates stands chosen here .here evaluated).mono ?_
    intro v st' store describes
    let arrived := (m.past yes.length store).push v
    obtain ⟨journal, said, jumped⟩ := @proceeds_jump arrived _ _ there small bound
    have landed : arrived.current.pc + 5 + no.length =
        m.current.pc + (yes.length + (5 + no.length)) := by
      change m.current.pc + yes.length + 5 + no.length = _
      omega
    rw [landed] at jumped
    exact ⟨_, describes.noted said, jumped⟩
  | caller returns pending =>
    have skip : m.current.lambda.body.instruction? (m.current.pc + yes.length) =
        some ⟨.jump, [.ofNat no.length], rfl⟩ := instruction?_of_rest there
    refine simulates stands chosen here
      (.caller (.jump skip rfl (Instruction.target?_ofNat rfl rfl small _) ?_) pending) evaluated
    rw [Nat.add_assoc, Nat.add_assoc]
    exact returns

theorem settles_conditional {test consequent alternate : Expression} {tested : List UInt8}
    (condition : m.Expresses env false test tested) (chosen : m.Expresses env tail consequent yes)
    (other : m.Expresses env tail alternate no) (here : m.ahead = tested ++
      ((ofOp .conditionalJump [.ofNat (yes.length + Op.jump.size)]).stream ++
        (yes ++ ((ofOp .jump [.ofNat no.length]).stream ++ (no ++ rest)))))
    (receives : m.Receives (tested.length + 5 + (yes.length + (5 + no.length))) tail target)
    (evaluated : (do
      if (← recur env test).isTrue then recur env consequent
      else recur env alternate) st = some out) : Settles m (m.deliver target) out := by
  refine .bind evaluated (fun _ => simulates.operand stands condition here) ?_
  intro v st' store describes proceeds remaining
  have jump : Op.jump.size = 5 := rfl
  have there := rest_add tested here
  have length := congrArg List.length here
  simp only [length_rest, List.length_append, length_stream,
    size_ofOp, List.length_singleton] at length
  have addressable := stands.addressable.code
  obtain ⟨journal, said, branched⟩ := @proceeds_conditionalJump
    (m.past tested.length store) _ v _ there (by omega) (by
      simp only [List.length_append, length_stream, size_ofOp, List.length_singleton]
      omega)
  refine .since branched ?_
  have stands' := stands.moved discreet (proceeds.trans branched) (describes.noted said)
  have further := rest_add (ofOp .conditionalJump _).stream there
  cases truth : v.isTrue with
  | true =>
    rw [truth] at remaining stands'
    exact settles_consequent stands' simulates chosen further (receives.moved _) remaining
  | false =>
    rw [truth] at remaining stands'
    have last := rest_add (ofOp .jump _).stream (rest_add yes further)
    rw [Nat.add_assoc _ yes.length] at last
    have shifted : tested.length + 5 + (yes.length + (5 + no.length)) =
        tested.length + 5 + (yes.length + Op.jump.size) + no.length := by
      omega
    rw [shifted] at receives
    have receives' := receives.moved { store with journal }
    rw [← Nat.add_assoc, ← Nat.add_assoc] at receives'
    exact simulates stands' other last receives' remaining

/-- The values of expressions are left on the stack, one above the other. -/
theorem settles_values {expressions : List Expression} {out : Except Fault (List Value × EvalState)}
    (translates : TranslatesAll m.current.lambda.constants env.namings expressions bytes)
    (here : m.ahead = bytes ++ rest) (room : m.current.operandCount + expressions.length < 2 ^ 64)
    (evaluated : Expression.values recur env expressions st = some out) :
    Settles m (fun vals store =>
      (m.past bytes.length store).pushAll vals) out := by
  induction expressions generalizing m st bytes out with
  | nil =>
    cases translates
    cases evaluated
    refine .arrives stands.describes ?_
    rw [pushAll_nil]
    exact .refl m
  | cons expr expressions ih =>
    cases translates with
    | @cons _ _ _ _ first second translates others =>
      rw [List.append_assoc] at here
      refine .bind evaluated (fun _ => simulates.operand stands translates here) ?_
      intro v valued store describes proceeds remaining
      let pushed := (m.past first.length store).push v
      rw [List.length_cons] at room
      have counted : pushed.current.operandCount + expressions.length < 2 ^ 64 := by
        change m.current.operandCount + 1 + expressions.length < 2 ^ 64
        omega
      have stands' : pushed.Stands law natives env valued :=
        stands.proceed discreet proceeds rfl rfl (Nat.lt_of_le_of_lt (Nat.le_add_right ..) counted)
          describes
      refine .bind remaining (fun _ => ih stands' others (rest_add first here) counted) ?_
      intro vals final store' describes' _ last
      cases last
      refine .arrives describes' ?_
      simp only [past, List.length_append, ← Nat.add_assoc, ← pushAll_cons]
      exact .refl _

theorem settles_define {definitions : List (String × Expression)}
    {out : Except Fault (Unit × EvalState)}
    (defines : Defines m.current.lambda.constants env.namings definitions bytes)
    (here : m.ahead = bytes ++ rest)
    (evaluated : Expression.define recur env definitions st = some out) :
    Settles m (fun _ store => m.past bytes.length store) out := by
  induction definitions generalizing m st bytes with
  | nil =>
    cases defines
    cases evaluated
    exact .arrives stands.describes (.refl m)
  | cons definition definitions ih =>
    cases defines with
    | @cons _ _ name expr _ v others slot place small translates defines =>
      rw [List.append_assoc, List.append_assoc] at here
      refine settles_store discreet stands simulates place (by decide) small translates here
        evaluated ?_
      intro assigned store stands' remaining
      have there := rest_add (ofOp .setVariable [.ofNat 0, .ofNat slot]).stream (rest_add v here)
      rw [Nat.add_assoc] at there
      have total : m.current.pc + (v ++ ((ofOp .setVariable
          [.ofNat 0, .ofNat slot]).stream ++ others)).length =
          m.current.pc + (v.length + 9) + others.length := by
        rw [List.length_append, List.length_append, Nat.add_assoc, Nat.add_assoc]
        rfl
      simp only [past, total]
      exact ih stands' defines there remaining

end

end Machine

end MiniScheme
