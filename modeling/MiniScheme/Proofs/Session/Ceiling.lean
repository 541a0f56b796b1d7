import MiniScheme.Proofs.Machine.Ceiling
import MiniScheme.Proofs.Session.Attained

/-!
# The stacks of a session

In every state of a session the call stack is within the ceiling, and so are both stacks together,
up to the greatest height that the operand stack has in any of the loaded code. Calls in tail
position that lead to a closure or a native procedure do not let the stacks grow.
-/

namespace MiniScheme

namespace Session

variable {ceiling : Nat} {data : List Lambda} {session : Session}

/-- The ceiling bounds the stacks. In every state of a session the call stack is within the ceiling,
and both stacks together are within the ceiling and the greatest height of the operand stack in what
has been loaded. A call in tail position takes its operands and an empty count below them from the
stack; if it leads to a closure or a native procedure, the call stack is no longer afterwards than
it was and the operand stack no higher than it is without them, the result of a native procedure
aside. -/
theorem ceiling_bounds_stacks (attained : Attained ceiling data session) (fits : session.Fits) :
    session.machine.calls.height ≤ ceiling ∧
      session.machine.stack.height + session.machine.calls.height ≤ ceiling + peak data ∧
      (session.running = true → session.machine.suspended = none →
        session.machine.current.lambda.body.op? session.machine.current.pc = some .tailCall →
        ∃ callee arguments popped,
          Machine.operands (session.machine.facing .tailCall) = .ok (callee, arguments) popped ∧
          session.machine.stack.items =
            (callee :: arguments).reverse ++ .integer 0 :: popped.stack.items ∧
          ∀ final : Machine.Attempt, Machine.Attempt.Resolves true
              ⟨Machine.maxRedirections, callee, arguments, popped⟩ final →
            Machine.isProcedure final.callee = true →
              (session.machine.run (fun _ => id) 1 ()).2.2.calls.height ≤
                  session.machine.calls.height ∧
                (session.machine.run (fun _ => id) 1 ()).2.2.stack.height ≤
                  popped.stack.height + Machine.results final.callee) := by
  obtain ⟨-, capped⟩ := attained.capped
  obtain ⟨rfl, runnable, stocked, abides⟩ := capped fits
  obtain ⟨depth, size, reached, total⟩ := abides.within
  have least : size ≤ peak data := by
    rcases reached with rfl | reached
    · exact Nat.zero_le _
    · exact le_csSup (bddAbove_heights runnable) reached
  refine ⟨depth, by omega, fun running active fetched => ?_⟩
  exact (abides.runs running active).poised.tailCall (fun _ => id) () fetched

def selfCall : Datum :=
  let symbol := fun name => Datum.ofSymbol name default
  .list [.list [symbol "lambda", .list [symbol "f"] default,
      .list [symbol "f", symbol "f"] default] default,
    .list [symbol "lambda", .list [symbol "g"] default, .atom (.integer 1) default] default] default

/-- A session that is about to run the code, with room for one call. -/
def aboutToRun : Session :=
  { ((blank none 1).load selfCall).2 with running := true }

/-- The session when the call in tail position is next. -/
def aboutToCall : Session :=
  let result := aboutToRun.machine.run (fun _ => id) 7 ()
  { aboutToRun with machine := result.2.2, running := Machine.isUnfinished result.1 }

/-- The stacks hold four items together, three more than the ceiling, and the call in tail position
takes three of them away. -/
theorem ceiling_bounds_stacks_selfCall : ∃ data, Attained 1 data aboutToCall ∧
    aboutToCall.machine.stack.height + aboutToCall.machine.calls.height = 4 ∧ 4 ≤ 1 + peak data ∧
    (aboutToCall.machine.run (fun _ => id) 1 ()).2.2.calls.height ≤ 1 ∧
    (aboutToCall.machine.run (fun _ => id) 1 ()).2.2.stack.height ≤ 0 := by
  obtain ⟨code, compiled, -, started⟩ :=
    AttainedFrom.loads (.blank none : Attained 1 [] _) selfCall trivial (by decide +kernel)
  have attained : Attained 1 [compiled.script code] aboutToCall := started.run rfl (by decide +kernel) rfl
  have small : aboutToCall.fitsWithin 3 = true := by decide +kernel
  have taken : (match Machine.operands (aboutToCall.machine.facing .tailCall) with
      | .ok (callee, _) popped =>
        Machine.isProcedure callee && popped.stack.height == 0 && Machine.results callee == 0
      | .error _ _ => false) = true := by
    decide +kernel
  have stack : aboutToCall.machine.stack.height = 3 := by decide +kernel
  have calls : aboutToCall.machine.calls.height = 1 := by decide +kernel
  obtain ⟨-, total, tail⟩ := ceiling_bounds_stacks attained (fits_of_fitsWithin small)
  obtain ⟨callee, arguments, popped, operands, -, bounded⟩ :=
    tail (by decide +kernel) (by decide +kernel) (by decide +kernel)
  rw [operands] at taken
  simp only [Bool.and_eq_true, beq_iff_eq] at taken
  obtain ⟨⟨procedure, height⟩, results⟩ := taken
  obtain ⟨shorter, lower⟩ := bounded _ .refl procedure
  rw [stack, calls] at total
  rw [calls] at shorter
  rw [height] at lower
  exact ⟨_, attained, by rw [stack, calls], total, shorter, lower.trans (by rw [results])⟩

end Session

end MiniScheme
