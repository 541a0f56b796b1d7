import MiniScheme.Proofs.Core.Calls
import MiniScheme.Proofs.Core.Compilation
import MiniScheme.Proofs.Session.Safety

/-!
# Compiled expressions evaluate

What the machine makes of the code of an expression is what direct evaluation makes of the
expression. This puts together that compiling leads to code of the expression and that such code
does what evaluation does.
-/

namespace MiniScheme

namespace Machine

/-- `machine.Carries code scopes scope`: the code stands where the machine is, in a procedure with
the constants of the scope, and operands can count what it contains. -/
structure Carries (machine : Machine) (code : Bytecode) (scopes : Scopes) (scope : ScopeRef) :
    Prop where
  here : ∃ rest, machine.ahead = code.stream ++ rest
  constants : ∃ added, machine.current.lambda.constants = scopes.constants scope ++ added
  fits : machine.current.lambda.Fits
  slots : ∀ size ∈ scopes.shape scope, size ≤ operandLimit

variable {m : Machine}

/-- A run that has come to an end otherwise does not find the stacks full, however long it is. -/
theorem not_overflows {room : Nat} (ended : (m.run (fun _ => id) room ()).1 ≠ .ok none)
    (fine : ¬Overflows (m.run (fun _ => id) room ()).1) (n : Nat) :
    ¬Overflows (m.run (fun _ => id) n ()).1 := by
  have answer (room : Nat) : (m.run (fun _ => id) room ()).1 = (runAs id room m).1 := by
    rw [runAs_id]
  rw [answer] at ended fine ⊢
  rcases Nat.le_total n room with less | more
  · rintro ⟨error, failed, cause⟩
    have settled : Settled (runAs id n m) := by
      rw [Settled, failed]
      nofun
    rw [runAs_of_settled settled less] at fine
    exact fine ⟨error, failed, cause⟩
  · rwa [runAs_of_settled ended more]

end Machine

namespace Compiler

open Machine

/-- Compiler correctness for the core language. Let a datum be read as an expression where the names
of an environment are known, and let it compile there to code that is not in tail position. Let the
machine stand before that code, in the environment, with a store that the state describes, and let
its stacks never get too high. If evaluating the expression directly gives a value and another
state, then the machine gets to the end of the code with that value on top of its stack, which is
otherwise as it was, like the call stack, and with a store that the new state describes. If
evaluation fails, the machine fails for the same reason. Quoted data are those that reading has
built. -/
theorem compile_correct {discipline : Discipline} {natives : Array Native} {room depth limit : Nat}
    {datum : Datum} {context : Context} {before after : Compilation} {fragment : Fragment}
    {environment : Environment} {expression : Expression} {heap : Heap} {machine : Machine}
    {state : EvalState} {outcome : Except Fault (Value × EvalState)}
    (discreet : ∀ native ∈ natives, native.Discreet discipline)
    (ready : Ready discipline room context.scope environment.namings before)
    (settled : before.scopes.hasDeferred context.scope = false) (operand : context.tail = false)
    (read : Expression.read depth environment.namings datum before.store.heap =
      some (expression, heap))
    (compiled : compile room datum context before = .ok fragment after)
    (stands : machine.Stands discipline natives environment state)
    (carries : machine.Carries fragment.code after.scopes context.scope)
    (low : ∀ count, ¬Overflows (machine.run (fun _ => id) count ()).1)
    (evaluated : Expression.evaluate natives limit environment expression state = some outcome) :
    after.store.heap = heap ∧ match outcome with
      | .ok (value, state') => ∃ count store, state'.Describes store ∧
          machine.run (fun _ => id) count () = (.ok none, (), push value
            { machine with
              store
              current :=
                { machine.current with pc := machine.current.pc + fragment.code.size } })
      | .error fault => ∃ count error, (machine.run (fun _ => id) count ()).1 = .error error ∧
          error.cause = .failed fault := by
  obtain ⟨-, renders⟩ := (faithful_compile room).operand compiled ready
    (Scopes.idle_of_not_hasDeferred settled) read
  refine ⟨renders.heap, ?_⟩
  obtain ⟨rest, here⟩ := carries.here
  have translates := renders.code
    ⟨.procedure, after.scopes.shape context.scope, machine.current.lambda.constants⟩
    ⟨carries.constants, List.forall₂_same.mpr fun _ _ => Nat.le_refl _, carries.slots,
      stands.addressable.constants, fun _ => carries.fits.inside⟩
  rw [operand] at translates
  have settles := (simulates_evaluate discreet limit).operand stands translates here evaluated
  cases settles with
  | arrives describes proceeds =>
    obtain ⟨count, run⟩ := proceeds.eq_run
    rw [Bytecode.length_stream] at run
    exact ⟨count, _, describes, run⟩
  | fails failed =>
    obtain ⟨count, error, failed, cause⟩ := failed
    rw [runAs_id] at failed
    exact ⟨count, error, failed, cause⟩
  | overflows failed =>
    obtain ⟨count, error, failed, cause⟩ := failed
    rw [runAs_id] at failed
    exact absurd ⟨error, failed, cause⟩ (low count)

end Compiler

/-! ### Sessions -/

/-- The slots of the variables that so many procedures lie around. -/
def Scopes.naming (scopes : Scopes) (scope : ScopeRef) (depth : Nat) : Naming := fun name =>
  match scopes.resolve scope name with
  | some (.variable place) => if place.depth = depth then some place.index else none
  | _ => none

theorem Scopes.resolve_of_naming {scopes : Scopes} {scope : ScopeRef} {name : String}
    {depth slot : Nat} (known : scopes.naming scope depth name = some slot) :
    ∃ id, scopes.resolve scope name = some (.variable { depth, index := slot, scope := id }) := by
  rw [naming] at known
  split at known
  · rename_i place found
    split at known
    · rename_i away
      cases known
      exact ⟨place.scope, by rw [found, ← away]⟩
    · cases known
  · cases known

namespace Session

variable {s : Session}

def environment (session : Session) : Environment :=
  [{ naming := session.scopes.naming topLevelScope 0, invocation := session.machine.topLevel },
    { naming := session.scopes.naming topLevelScope 1, invocation := session.machine.global }]

theorem ready_environment (serves : s.machine.Serves s.scopes) :
    Compiler.Ready s.machine.discipline Compiler.maxDepth topLevelScope
      s.environment.namings { scopes := s.scopes, store := s.machine.store } := by
  refine ⟨serves.compilation, serves.size.symm ▸ Nat.lt_succ_self 1, ?_, ?_⟩
  · rw [serves.size]
    decide
  · intro name depth slot place
    simp only [environment, Environment.namings, List.map_cons, List.map_nil, place?] at place
    split at place
    · rename_i known
      cases place
      exact Scopes.resolve_of_naming known
    · split at place
      · rename_i known
        cases place
        exact Scopes.resolve_of_naming known
      · cases place

variable {lam : Lambda} {code : Bytecode}

/-- Code that was just loaded has the constants of the top level. -/
theorem carries_loaded (serves : s.machine.Serves s.scopes) (script : s.machine.Script s.scopes lam)
    (fits : (s.loaded lam code).Fits) :
    (s.loaded lam code).machine.Carries code s.scopes topLevelScope ∧
      (s.loaded lam code).machine.current.lambda.Addressable := by
  obtain ⟨e, top, found, top_found, shape, own⟩ := serves.shape
  obtain ⟨added, constants⟩ := script.constants
  have entry_member : e ∈ s.scopes.stack := Array.mem_of_getElem? found
  have top_member : top ∈ s.scopes.stack := Array.mem_of_getElem? top_found
  have pool : (s.loaded lam code).machine.current.lambda.constants =
      s.scopes.constants topLevelScope := Machine.constants_extend constants code
  have held : (s.loaded lam code).heap.get? s.machine.topClosure =
      some (.closure (s.loaded lam code).machine.current.lambda (some s.machine.global)) := by
    change (s.machine.heap.modifyLambda _ _).get? _ = _
    rw [Heap.get?_modifyLambda, script.closure]
    simp [loaded, Machine.loaded]
  have code_fits := fits.code _ _ held
  refine ⟨⟨⟨[], ?_⟩, ⟨#[], ?_⟩, code_fits, ?_⟩, (code_fits _ .self).1.le, ?_⟩
  · rw [List.append_nil]
    exact Bytecode.rest_append lam.body code
  · rw [pool, Array.append_empty]
  · rw [shape]
    simp only [List.mem_cons, List.not_mem_nil, or_false, forall_eq_or_imp, forall_eq]
    exact ⟨fits.slots top top_member, fits.slots e entry_member⟩
  · rw [pool, own]
    exact fits.constants top top_member

/-- The machine stands at the start of code that was just loaded. Evaluation need not know what
earlier code has defined. -/
theorem stands_loaded (serves : s.machine.Serves s.scopes) (script : s.machine.Script s.scopes lam)
    (addressable : (s.loaded lam code).machine.current.lambda.Addressable)
    {env : Environment} (around : env.map Rib.invocation = [s.machine.topLevel, s.machine.global]) :
    (s.loaded lam code).machine.Stands s.machine.discipline s.machine.natives env
      { store := (s.loaded lam code).machine.store, procedures := fun _ => none } := by
  obtain ⟨-, served, -⟩ := serves.load script code
  obtain ⟨lam', script'⟩ := served.script
  obtain ⟨slots, held⟩ := script'.invocation
  refine ⟨served.sound, rfl, addressable, Nat.zero_lt_succ _, ?_, ?_, rfl, rfl⟩
  · intro depth rib found
    have there : [s.machine.topLevel, s.machine.global][depth]? = some rib.invocation := by
      rw [← around, List.getElem?_map, found]
      rfl
    match depth with
    | 0 => exact there
    | 1 =>
      exact (Heap.enclosing?_succ held script'.closure 0).trans there
    | depth + 2 => cases there
  · apply Heap.Alike.refl
    intro h obj
    cases obj with
    | closure => exact .closure nofun
    | continuation => exact .continuation
    | _ => exact .plain rfl

def adding : Session :=
  (blank none 16).define "+" (.native 0)

theorem serves_adding : adding.machine.Serves adding.scopes := by
  have serves := Machine.serves_initial 16
  have registered : 0 < Stdlib.registry.size := by decide
  have sound : (Value.native 0).Sound (blank none 16).machine.discipline (blank none 16).heap :=
    ⟨Nat.lt_of_lt_of_le registered serves.standard, nofun⟩
  exact (becomes_define serves "+" sound).serves

end Session

namespace Compiler

open Machine Session

/-- `((lambda (x . rest) (define y x) (set! x rest) (if x (begin '(y) (+ y 41)) 3)) 1 2)`. -/
def summing : Datum :=
  let symbol := fun name => Datum.ofSymbol name default
  let number := fun value => Datum.atom (.integer value) default
  let list := fun items => Datum.list items default
  list [list [symbol "lambda", .dotted [symbol "x"] (symbol "rest") default,
      list [symbol "define", symbol "y", symbol "x"],
      list [symbol "set!", symbol "x", symbol "rest"],
      list [symbol "if", symbol "x",
        list [symbol "begin", list [symbol "quote", list [symbol "y"]],
          list [symbol "+", symbol "y", number 41]], number 3]],
    number 1, number 2]

/-- `summing` is compiled to code of moderate size that runs to an end, and evaluates to `42`. -/
def sumsUp : Bool :=
  match compile maxDepth summing (.ofTopLevel topLevelScope)
      { scopes := adding.scopes, store := adding.machine.store },
    Expression.read 32 adding.environment.namings summing adding.machine.store.heap with
  | .ok fragment after, some (expression, _) =>
    match (adding.advanced after.scopes after.store).heap.closure? adding.machine.topClosure with
    | some (lambda, _) =>
      let loaded := (adding.advanced after.scopes after.store).loaded lambda fragment.code
      (match Expression.evaluate Stdlib.registry 32 adding.environment expression
          { store := loaded.machine.store, procedures := fun _ => none } with
        | some (.ok (.integer value, _)) => value == 42
        | _ => false) &&
      loaded.fitsWithin 4 &&
      match (loaded.machine.run (fun _ => id) 100 ()).1 with
      | .ok (some _) => true
      | _ => false
    | _ => false
  | _, _ => false

theorem compile_correct_summing : ∃ fragment after machine store count,
    compile maxDepth summing (.ofTopLevel topLevelScope)
      { scopes := adding.scopes, store := adding.machine.store } = .ok fragment after ∧
    { adding.machine with store := after.store }.append (after.scopes.constants topLevelScope)
      fragment.code = .ok machine ∧
    machine.run (fun _ => id) count () = (.ok none, (), push (.integer 42)
      { machine with
        store
        current := { machine.current with pc := machine.current.pc + fragment.code.size } }) := by
  have answer : sumsUp = true := by decide +kernel
  unfold sumsUp at answer
  have settled : adding.scopes.hasDeferred topLevelScope = false := by decide +kernel
  have ready := ready_environment serves_adding
  split at answer
  · rename_i fragment after expression heap compiled read
    obtain ⟨-, renders⟩ := (faithful_compile maxDepth).operand compiled ready
      (Scopes.idle_of_not_hasDeferred settled) read
    obtain ⟨serves, -⟩ := serves_advanced serves_adding renders.advances
      (renders.size_stack.trans serves_adding.size)
    obtain ⟨lambda, script⟩ := serves.script
    obtain ⟨appended, -⟩ := serves.load script fragment.code
    have found := Heap.closure?_eq_some_iff.mpr script.closure
    rw [show (adding.advanced after.scopes after.store).heap.closure? adding.machine.topClosure =
      some (lambda, _) from found] at answer
    simp only [Bool.and_eq_true] at answer
    obtain ⟨⟨evaluated, small⟩, ended⟩ := answer
    obtain ⟨carries, addressable⟩ := carries_loaded serves script (fits_of_fitsWithin small)
    have around : adding.environment.map Rib.invocation =
        [adding.machine.topLevel, adding.machine.global] := rfl
    have stands := stands_loaded serves script addressable around
    split at evaluated
    · rename_i value state evaluated'
      split at ended
      · rename_i last ended'
        have low := not_overflows (by rw [ended']; nofun) (by rw [ended']; nofun)
        obtain ⟨-, count, store, -, run⟩ := compile_correct Stdlib.discreet_registry ready settled
          rfl read compiled stands carries low evaluated'
        rw [eq_of_beq evaluated] at run
        exact ⟨fragment, after, _, store, count, compiled, appended, run⟩
      · cases ended
    · cases evaluated
  · cases answer

end Compiler

end MiniScheme
