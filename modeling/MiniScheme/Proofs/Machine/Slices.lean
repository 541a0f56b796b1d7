import MiniScheme.Proofs.Machine.Outcome

/-!
# Runs in slices

A run that is stopped for want of room can be continued where it stopped. It stops before an
instruction and never within one, and a machine that is not suspended when it starts is suspended
afterwards only if an instruction made it wait. So a long run is a short one followed by the rest.
-/

namespace MiniScheme

/-- Whether the machine has to wait for a result. -/
def Flow.waits : Flow → Bool
  | .suspend => true
  | _ => false

namespace Machine

open MachineM (Meets)

variable {α σ : Type} {m : Machine}

def StaysActive : EStateM.Result Fault Machine α → Prop :=
  Meets (fun _ after => after.suspended = none) fun _ _ => True

def SuspendsToWait : EStateM.Result Fault Machine Flow → Prop :=
  Meets (fun flow after => after.isSuspended = flow.waits) fun _ _ => True

def Straight : EStateM.Result Fault Machine Flow → Prop :=
  Meets (fun flow after => flow.waits = false ∧ after.suspended = none) fun _ _ => True

theorem isSuspended_eq (active : m.suspended = none) : m.isSuspended = false := by
  rw [isSuspended, active]
  rfl

theorem Straight.suspendsToWait {out : EStateM.Result Fault Machine Flow}
    (straight : Straight out) : SuspendsToWait out := by
  refine Meets.mono straight (fun flow after stays => ?_) fun _ _ _ => trivial
  rw [isSuspended_eq stays.2, stays.1]

@[simp] theorem suspended_note (m : Machine) (detail : Detail) (message : Unit → String) :
    (m.note detail message).suspended = m.suspended := by
  obtain ⟨journal, noted⟩ := m.note_eq detail message
  rw [noted]

section

variable (active : m.suspended = none)

include active

theorem staysActive_pop : StaysActive (MachineM.pop m) := by
  rw [MachineM.pop.eq_def]
  split
  · exact active
  · trivial

theorem staysActive_operands : StaysActive (operands m) := by
  rw [operands.eq_def]
  split
  · trivial
  · split
    · split
      · exact active
      · trivial
    · trivial

theorem staysActive_jump (offset : Int32) : StaysActive (jump offset m) := by
  refine Meets.getThen ?_
  dsimp only
  split
  · trivial
  · exact active

theorem staysActive_variableAt (offset : Nat) : StaysActive (variableAt offset m) := by
  refine Meets.operandThen trivial fun depth => ?_
  refine Meets.findThen trivial fun inv _ => ?_
  exact Meets.operandThen trivial fun slot => active

end

/-! ### Calls -/

theorem suspended_complete (v : Value) (tail : Bool) (m : Machine) :
    (m.complete v tail).suspended = m.suspended := by
  unfold complete
  split
  · split <;> rfl
  · rfl

theorem straight_callClosure (active : m.suspended = none) (closure : Handle)
    (args : List Value) (tail : Bool) : Straight (callClosure closure args tail m) := by
  cases found : m.heap.closure? closure with
  | none =>
    rw [callClosure_dangling found]
    trivial
  | some parts =>
    rw [callClosure_eq found]
    split
    · dsimp only
      split
      · trivial
      · obtain ⟨journal, entered⟩ := enter_eq parts.1 (m.invoke closure parts.1 args).1 tail
          (m.invoke closure parts.1 args).2
        rw [entered]
        exact ⟨rfl, active⟩
    · trivial

theorem straight_callContinuation (active : m.suspended = none) (cont : Handle)
    (v : Value) : Straight (callContinuation cont v m) :=
  Meets.findThen trivial fun _ _ => ⟨rfl, (suspended_note m ..).trans active⟩

/-- A native procedure that owes its result is the one thing that a machine waits for. -/
theorem suspendsToWait_callNative (active : m.suspended = none) (id : NativeId)
    (args : List Value) (tail : Bool) : SuspendsToWait (callNative id args tail m) := by
  refine Meets.findThen trivial fun proc _ => ?_
  dsimp only
  split
  · rw [MachineM.bind_apply, MachineM.native]
    cases proc.run args m.store with
    | error fault store => trivial
    | ok answer store =>
      cases answer with
      | none => rfl
      | some v =>
        refine isSuspended_eq ?_
        rw [suspended_complete]
        exact active
  · trivial

theorem suspendsToWait_dispatch (room : Nat) (active : m.suspended = none) (callee : Value)
    (args : List Value) (tail : Bool) : SuspendsToWait (dispatch room callee args tail m) := by
  have rule : DispatchRule tail (fun m _ _ => m.suspended = none) fun _ => SuspendsToWait :=
    { refusal := fun _ _ => trivial
      closure := fun active => (straight_callClosure active ..).suspendsToWait
      native := fun active => suspendsToWait_callNative active ..
      continuation := fun active => (straight_callContinuation active ..).suspendsToWait
      capture := fun {m _} active => by
        obtain ⟨journal, remembered⟩ := remember_eq tail m
        rw [remembered]
        exact ⟨active, id⟩
      apply := fun active _ => active }
  exact @DispatchRule.dispatch m tail _ _ rule room callee args active

/-! ### Instructions -/

theorem suspendsToWait_call (active : m.suspended = none) (tail : Bool) :
    SuspendsToWait ((operands >>= fun (callee, args) => call callee args tail) m) :=
  Meets.bind (staysActive_operands active) fun (callee, args) _ active =>
    suspendsToWait_dispatch maxRedirections active callee args tail

/-- No instruction but a call makes an active machine wait. -/
theorem straight_step (active : m.suspended = none) {op : Op}
    (straight : op ≠ .call ∧ op ≠ .tailCall) (pc : Nat) : Straight (step op pc m) := by
  match op with
  | .constant =>
    refine Meets.operandThen trivial fun place => ?_
    exact Meets.findThen trivial fun v _ => ⟨rfl, active⟩
  | .variable =>
    refine Meets.bind (staysActive_variableAt active (pc + 1)) fun place found active => ?_
    exact Meets.findThen trivial fun v _ => ⟨rfl, active⟩
  | .setVariable =>
    refine Meets.bind (staysActive_variableAt active (pc + 1)) fun place found active => ?_
    refine Meets.bind (staysActive_pop active) fun v popped active => ?_
    exact Meets.findThen trivial fun _ _ => ⟨rfl, active⟩
  | .resetOperandCount | .lambdaExit => exact ⟨rfl, active⟩
  | .call => exact absurd rfl straight.1
  | .tailCall => exact absurd rfl straight.2
  | .return =>
    refine Meets.bind (staysActive_pop active) fun v popped active => ?_
    refine Meets.findThen trivial fun ⟨frame, calls⟩ _ => ⟨rfl, ?_⟩
    exact (suspended_note popped ..).trans active
  | .lambda =>
    refine Meets.operandThen trivial fun place => ?_
    exact Meets.findThen trivial fun lam _ => ⟨rfl, active⟩
  | .pop | .exit =>
    exact Meets.bind (staysActive_pop active) fun v popped active => ⟨rfl, active⟩
  | .jump =>
    refine Meets.operandThen trivial fun offset => ?_
    exact Meets.bind (staysActive_jump active offset) fun _ moved active => ⟨rfl, active⟩
  | .conditionalJump =>
    refine Meets.operandThen trivial fun offset => ?_
    refine Meets.bind (staysActive_pop active) fun v popped active => ?_
    cases v.isTrue with
    | true => exact ⟨rfl, active⟩
    | false =>
      exact Meets.bind (staysActive_jump active offset) fun _ moved active => ⟨rfl, active⟩

theorem suspendsToWait_step (active : m.suspended = none) (op : Op) (pc : Nat) :
    SuspendsToWait (step op pc m) := by
  by_cases call : op = .call
  · subst call
    exact suspendsToWait_call active false
  by_cases tailCall : op = .tailCall
  · subst tailCall
    exact suspendsToWait_call active true
  exact (straight_step active ⟨call, tailCall⟩ pc).suspendsToWait

/-! ### Runs -/

/-- What a run answers, with what was observed and the machine afterwards. -/
abbrev Ran (σ : Type) : Type :=
  Except ScriptError (Option Value) × σ × Machine

/-- Continues a run that has been stopped for want of room. -/
def onward (rest : σ → Machine → Ran σ) : Ran σ → Ran σ
  | (.ok none, observed, machine) =>
    if machine.isSuspended then (.ok none, observed, machine) else rest observed machine
  | ended => ended

theorem execute_active (active : m.suspended = none) (observe : Op → σ → σ) (observed : σ)
    (cycles : Nat) :
    m.execute observe observed cycles = m.run observe (budget cycles) observed := by
  rw [execute, isSuspended_eq active]
  rfl

theorem run_add (observe : Op → σ → σ) (active : m.suspended = none) (first second : Nat)
    (observed : σ) : m.run observe (first + second) observed =
      onward (run observe second) (m.run observe first observed) := by
  induction first generalizing m observed with
  | zero =>
    rw [Nat.zero_add, run, onward, isSuspended_eq active]
    rfl
  | succ first ih =>
    rw [Nat.add_right_comm]
    cases fetched : m.current.lambda.body.op? m.current.pc with
    | none =>
      simp only [run, fetched]
      split <;> rfl
    | some op =>
      have out := suspendsToWait_step ((m.suspended_facing op).trans active) op m.current.pc
      rw [run_succ fetched, run_succ fetched]
      generalize step op m.current.pc _ = res at out ⊢
      rcases res with ⟨_ | _ | _, after⟩ | _
      case ok.next =>
        have active : after.suspended = none := Option.not_isSome_iff_eq_none.mp
          (Bool.eq_false_iff.mp out)
        exact ih active _
      case ok.suspend =>
        have waits : after.isSuspended = true := out
        simp only [onward, waits, if_true]
      all_goals rfl

end Machine

end MiniScheme
