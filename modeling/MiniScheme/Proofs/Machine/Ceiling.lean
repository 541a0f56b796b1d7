import MiniScheme.Proofs.Machine.Continuations
import MiniScheme.Proofs.Machine.Progress

/-!
# Calls in tail position

The ceiling is looked at only when a call saves the frame that makes it. A call in tail position
takes its operands from the stack, and if it leads to a closure or a native procedure, at once or
through other calls, the frame that is entered takes the place of the one that made it.
-/

namespace MiniScheme

namespace Machine

variable {m : Machine} {tail : Bool} {attempt : Attempt}

/-- `attempt.Resolves tail final`: the call leads to the other one, at once or through `apply` and
`call/cc`. -/
def Attempt.Resolves (tail : Bool) : Attempt → Attempt → Prop :=
  Relation.ReflTransGen fun attempt next => Point.Next (.calling tail attempt) (.calling tail next)

/-- A call that leads to another one has its outcome, and leaves the stacks alone. -/
theorem Attempt.redirect {next : Attempt}
    (leads : Point.Next (.calling tail attempt) (.calling tail next)) :
    attempt.dispatch tail = next.dispatch tail ∧ next.machine.stack = attempt.machine.stack ∧
      next.machine.calls = attempt.machine.calls := by
  cases leads with
  | @apply _ room proc list front vals m spread =>
    refine ⟨?_, rfl, rfl⟩
    rw [Attempt.dispatch, dispatch_apply, spread]
    rfl
  | @capture _ room receiver m =>
    obtain ⟨journal, remembered⟩ := remember_eq tail m
    exact ⟨dispatch_capture room receiver tail m, by rw [remembered], by rw [remembered]⟩

theorem Attempt.Resolves.outcome {final : Attempt} (resolves : attempt.Resolves tail final) :
    attempt.dispatch tail = final.dispatch tail ∧ final.machine.stack = attempt.machine.stack ∧
      final.machine.calls = attempt.machine.calls := by
  induction resolves with
  | refl => exact ⟨rfl, rfl, rfl⟩
  | tail _ leads ih =>
    obtain ⟨out, stack, calls⟩ := ih
    obtain ⟨out', stack', calls'⟩ := redirect leads
    exact ⟨out.trans out', stack'.trans stack, calls'.trans calls⟩

/-- How many values a procedure may leave on the stack when it is called: a native procedure leaves
its result. -/
def results : Value → Nat
  | .native _ => 1
  | _ => 0

/-- The value is a procedure that calls go on with: a closure or a native procedure. -/
def isProcedure : Value → Bool
  | .closure _ | .native _ => true
  | _ => false

/-- `machine.Bounds results after`: the call stack is no longer than it was, and a number of results
aside the operand stack is no higher. -/
def Bounds (results : Nat) (machine after : Machine) : Prop :=
  after.calls.height ≤ machine.calls.height ∧ after.stack.height ≤ machine.stack.height + results

theorem bounds_callClosure (m : Machine) (closure : Handle) (args : List Value) :
    MachineM.Meets (fun _ => m.Bounds 0) (fun _ _ => True) (callClosure closure args true m) := by
  cases found : m.heap.closure? closure with
  | none =>
    rw [callClosure_dangling found]
    trivial
  | some res =>
    obtain ⟨lam, parent⟩ := res
    rw [callClosure_eq found]
    split
    · obtain ⟨journal, entered⟩ := enter_eq lam (m.invoke closure lam args).1 true
        (m.invoke closure lam args).2
      simp only [Bool.true_eq_false, false_and, if_false, entered]
      exact ⟨Nat.le_refl _, Nat.le_refl _⟩
    · trivial

theorem bounds_complete (m : Machine) (v : Value) : m.Bounds 1 (m.complete v true) := by
  simp only [Machine.complete, if_true]
  split
  · rename_i frame calls popped
    refine ⟨?_, Nat.le_refl _⟩
    have shorter : calls.height ≤ m.calls.height := by
      generalize m.calls = stack at popped
      obtain ⟨_ | _, height, _⟩ := stack <;> cases popped
      exact Nat.sub_le height 1
    exact shorter
  · exact ⟨Nat.le_refl _, Nat.le_refl _⟩

theorem bounds_callNative (m : Machine) (id : NativeId) (args : List Value) :
    MachineM.Meets (fun _ => m.Bounds 1) (fun _ _ => True) (callNative id args true m) := by
  refine .findThen trivial fun proc _ => ?_
  dsimp only
  split
  · rw [MachineM.bind_apply, MachineM.native]
    cases proc.run args m.store with
    | error fault store => trivial
    | ok answer store =>
      cases answer with
      | some v => exact bounds_complete { m with store } v
      | none =>
        obtain ⟨journal, noted⟩ := note_eq { m with store } .debug fun _ =>
          "suspended in " ++ proc.name
        simp only [MachineM.bind_apply, MachineM.modify_apply, noted]
        exact ⟨Nat.le_refl _, Nat.le_succ _⟩
  · trivial

theorem Attempt.bounds (proc : isProcedure attempt.callee = true) :
    MachineM.Meets (fun _ => attempt.machine.Bounds (results attempt.callee)) (fun _ _ => True)
      (attempt.dispatch true) := by
  obtain ⟨room, callee, args, m⟩ := attempt
  cases room with
  | zero => trivial
  | succ room =>
    cases callee
    case closure h => exact bounds_callClosure m h args
    case native id => exact bounds_callNative m id args
    all_goals cases proc

end Machine

open Machine

variable {data : List Lambda} {m : Machine}

/-- What a call in tail position finds on the stack: its operands above an empty count. -/
theorem Heap.Poised.operands (poised : m.heap.Poised data m.ceiling 0 m.current
      m.calls.items m.stack.items)
    (fetched : m.current.lambda.body.op? m.current.pc = some .tailCall) :
    ∃ callee args below, m.stack.items = (callee :: args).reverse ++ .integer 0 :: below ∧
        m.current.operandCount = args.length + 1 := by
  obtain ⟨level, saved, below, ⟨⟨shape, -, sited⟩, -⟩, layout, -⟩ := Heap.poised_iff.mp poised
  obtain ⟨⟨n, height⟩, -⟩ := sited.tailCall fetched
  obtain ⟨operandCount, rfl⟩ := Height.mk.inj height
  rw [Nat.add_zero] at operandCount
  rw [operandCount] at layout
  obtain ⟨callee, vals, rest, top, length, -, -⟩ := layout.operands
  exact ⟨callee, vals, rest, top, by rw [operandCount, length]⟩

/-- A call in tail position that leads to a closure or a native procedure leaves the call stack no
longer and the operand stack no higher than before its operands were pushed, the result of a native
procedure aside. -/
theorem Heap.Poised.tailCall {σ : Type} (observe : Op → σ → σ) (observed : σ)
    (poised : m.heap.Poised data m.ceiling 0 m.current m.calls.items m.stack.items)
    (fetched : m.current.lambda.body.op? m.current.pc = some .tailCall) :
    ∃ callee args popped, Machine.operands (m.facing .tailCall) = .ok (callee, args) popped ∧
      m.stack.items = (callee :: args).reverse ++ .integer 0 :: popped.stack.items ∧
      ∀ final : Attempt, Attempt.Resolves true ⟨maxRedirections, callee, args, popped⟩ final →
          isProcedure final.callee = true →
            (m.run observe 1 observed).2.2.calls.height ≤ m.calls.height ∧
              (m.run observe 1 observed).2.2.stack.height ≤
                popped.stack.height + results final.callee := by
  obtain ⟨callee, args, below, top, n⟩ := poised.operands fetched
  obtain ⟨journal, faced⟩ := m.facing_eq .tailCall
  have taken : Machine.operands (m.facing .tailCall) =
      .ok (callee, args) ((m.facing .tailCall).unwind below 0) := by
    rw [faced]
    exact operands_eq top n
  refine ⟨callee, args, _, taken, top, fun final resolves proc => ?_⟩
  obtain ⟨out, stack, calls⟩ := resolves.outcome
  have stepped : Machine.step .tailCall m.current.pc (m.facing .tailCall) =
      final.dispatch true := by
    rw [← out, Machine.step, MachineM.bind_apply, taken]
    rfl
  have same (after : Machine) (bounds : final.machine.Bounds (results final.callee) after) :
      after.calls.height ≤ m.calls.height ∧
        after.stack.height ≤ ((m.facing .tailCall).unwind below 0).stack.height +
          results final.callee := by
    obtain ⟨shorter, lower⟩ := bounds
    rw [calls, faced] at shorter
    rw [stack] at lower
    exact ⟨shorter, lower⟩
  have bounds := (Attempt.bounds proc).mono (fun _ => same) (fun _ _ => id)
  rw [← stepped] at bounds
  rw [run_succ fetched]
  split
  iterate 3
    rename_i ended
    rw [ended] at bounds
    exact bounds
  · rename_i fault after ended
    have empty := heights_reset (after.note .debug fun _ => "runtime error: " ++ fault.message)
    simp only [Machine.fail, empty.1, empty.2]
    exact ⟨Nat.zero_le _, Nat.zero_le _⟩

end MiniScheme
