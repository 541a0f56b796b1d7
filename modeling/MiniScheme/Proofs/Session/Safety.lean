import MiniScheme.Proofs.Session.Handling

/-!
# No internal errors

Whatever texts a session is given, and however evaluation, suspension, cancellation, collection and
listing follow each other, it never reports an internal error: its code is never found broken. The
only assumptions are about what the application contributes, and that code stays within what the
operands of instructions can express.
-/

namespace MiniScheme

namespace Session

variable {s : Session} {obj : HostObject}

theorem calm_addHost (serves : s.machine.Serves s.scopes) (civil : obj.Civil) :
    s.machine.store.Calm s.machine.discipline (s.addHost obj).2.machine.store := by
  refine ⟨.refl serves.sound.heap, fun others => ?_⟩
  intro other mem
  rcases Array.mem_push.mp mem with known | rfl
  · split at known
    · obtain ⟨place, found⟩ := Array.mem_iff_getElem?.mp known
      rw [Array.getElem?_modify] at found
      split at found
      · obtain ⟨holder, held, rfl⟩ := Option.map_eq_some_iff.mp found
        have before := others holder (Array.mem_of_getElem? held)
        exact ⟨before.refuses, before.invoke⟩
      · exact others other (Array.mem_of_getElem? found)
    · exact others other known
  · exact civil

end Session

/-- What an application can ask of a session. -/
inductive Request where
  | evaluate (text : String)
  | load (source text : String)
  | start (text : String)
  | execute (cycles : Nat)
  | wake (value : Value)
  | cancel
  | collect
  | define (name : String) (value : Value)
  | defineNative (native : Native)
  | addHost (object : HostObject)
  | disassemble (text : String)
  /-- The application works on the store itself. -/
  | work (store : Store)

namespace Request

/-- The error that is reported, if there is one. -/
def failure? {α : Type} : Except ScriptError α → Option ScriptError
  | .error error => some error
  | .ok _ => none

/-- Carries out a request: the error that is reported, and the session afterwards. -/
def perform (session : Session) : Request → Option ScriptError × Session
  | evaluate text => (session.evaluate text).map failure? id
  | load source text => (session.evaluateAs source text).map failure? id
  | start text => (session.start text).map failure? id
  | execute cycles => (session.execute cycles).map failure? id
  | wake value => (none, (session.wake value).2)
  | cancel => (none, session.cancel)
  | collect => (none, session.collect.2)
  | define name value => (none, session.define name value)
  | defineNative native => (none, session.defineNative native)
  | addHost object => (none, (session.addHost object).2)
  | disassemble text => (session.disassemble text).map failure? id
  | work store => (none, session.advanced session.scopes store)

/-- What is expected of the application: its values are live, its native procedures and objects are
well-behaved, and it leaves code alone. -/
def Fair (session : Session) : Request → Prop
  | wake value | define _ value => session.Live value
  | defineNative native => ∀ limit, session.machine.natives.size < limit →
      native.Tame (.script session.machine.topClosure limit)
  | addHost object => object.Civil
  | work store => session.machine.store.Calm session.machine.discipline store
  | _ => True

/-- An answer that is not an internal error. -/
def Proper (answer : Option ScriptError) : Prop :=
  ∀ error ∈ answer, ¬ error.IsInternal

variable {s : Session}

theorem handles_outcome {α : Type} {out : Except ScriptError α × Session}
    (handles : s.Handles (Session.Blameless out.1) out.2) :
    s.Handles (Proper (out.map failure? id).1) (out.map failure? id).2 := by
  obtain ⟨answer, after⟩ := out
  refine handles.mono fun blameless error mem => ?_
  cases answer with
  | ok => cases mem
  | error => cases mem; exact blameless

/-- A fair request is handled properly. -/
theorem handles_perform (serves : s.machine.Serves s.scopes) {request : Request}
    (fair : request.Fair s) : s.Handles (Proper (request.perform s).1) (request.perform s).2 := by
  have quiet {after : Session} (becomes : s.Becomes after) : s.Handles (Proper none) after :=
    becomes.handles nofun
  cases request with
  | evaluate text => exact handles_outcome (Session.handles_evaluate serves text)
  | load src text => exact handles_outcome (Session.handles_evaluateAs serves src text)
  | start text => exact handles_outcome (Session.handles_start serves text)
  | execute cycles => exact handles_outcome (Session.handles_execute serves cycles)
  | wake v => exact quiet (Session.becomes_wake serves fair)
  | cancel => exact quiet (Session.becomes_cancel serves)
  | collect => exact quiet (Session.becomes_collect serves)
  | define name v => exact quiet (Session.becomes_define serves name fair)
  | defineNative native => exact quiet (Session.becomes_defineNative serves fair)
  | addHost obj => exact quiet (Session.becomes_work serves (Session.calm_addHost serves fair))
  | disassemble text => exact handles_outcome (Session.handles_disassemble serves text)
  | work store => exact quiet (Session.becomes_work serves fair)

end Request

namespace Session

/-- The states that a session can get into. -/
inductive Reached : Session → Prop where
  | create (source : Option String) (ceiling : Nat) : Reached (create source ceiling)
  | blank (source : Option String) (ceiling : Nat) : Reached (blank source ceiling)
  | perform {session : Session} (reached : Reached session) (request : Request)
      (fair : request.Fair session) : Reached (request.perform session).2

/-- Requests lead nowhere else. -/
theorem Reached.attained {s : Session} (reached : s.Reached) : ∃ cap data, Attained cap data s := by
  induction reached with
  | create src cap => exact (handles_create src cap).arises ⟨_, _, .blank src⟩
  | blank src cap => exact ⟨cap, [], .blank src⟩
  | perform _ request fair ih =>
    obtain ⟨_, _, attained⟩ := ih
    exact (Request.handles_perform attained.capped.1 fair).arises ⟨_, _, attained⟩

/-- A session that can be reached is in order, unless its code has become too large. -/
theorem Reached.secure {s : Session} (reached : s.Reached) :
    s.machine.Serves s.scopes ∧ (s.Fits → s.Secure) := by
  obtain ⟨_, _, attained⟩ := reached.attained
  exact ⟨attained.capped.1, fun fits => ⟨⟨_, _, attained⟩, fits⟩⟩

def isFlat (lambda : Lambda) : Bool :=
  decide (lambda.body.size < operandLimit ∧ lambda.slotCount ≤ operandLimit) &&
    lambda.constants.all fun
      | .value _ => true
      | .lambda _ => false

def defining : Session :=
  ((blank none 16).evaluate "(define x 1)").2

end Session

end MiniScheme
