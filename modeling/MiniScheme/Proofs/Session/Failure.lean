import Mathlib
import MiniScheme.Proofs.Compiler.Confinement
import MiniScheme.Proofs.Session.Safety

/-!
# Data that do not compile

A datum that does not compile leaves no trace in a session, whether it was to be run or only to be
listed, and however deep in it the compiler gave up. The scopes and the machine are as before, and
so is every object. What was built meanwhile cannot be reached.
-/

namespace MiniScheme.Session

/-- `before.Restored after`: nothing has changed but notes, numbers of scopes that are used up, and
objects that nothing refers to. -/
structure Restored (before after : Session) : Prop where
  /-- The two outermost scopes are the only ones, with the same names, variables, constants and
  initializers. -/
  scopes : after.scopes.stack = before.scopes.stack
  outermost : after.scopes.stack.size = 2
  /-- The stacks, the registers and the flags of the machine and of the session are the same. -/
  rest : after = { before with
    machine := { before.machine with store := after.machine.store }, scopes := after.scopes }
  hosts : after.machine.store.hosts = before.machine.store.hosts
  printed : after.journal.printed = before.journal.printed
  objects : before.heap.Preserves after.heap
  global : ∃ slots, before.heap.slots? before.machine.global = some slots ∧
    after.heap.slots? before.machine.global = some slots
  topLevel : ∃ slots, before.heap.slots? before.machine.topLevel = some slots ∧
    after.heap.slots? before.machine.topLevel = some slots
  code : ∃ lambda parent, before.heap.closure? before.machine.topClosure = some (lambda, parent) ∧
    after.heap.closure? before.machine.topClosure = some (lambda, parent)
  /-- Whatever one starts from, a new object can be reached only through a handle that dangled. -/
  unreachable (roots : List Handle) (handle : Handle) : after.heap.Reachable roots handle →
    before.heap.Reachable roots handle ∨ ∃ lost, before.heap.Reachable roots lost ∧
      before.heap.isLive lost = false ∧ after.heap.isLive lost = true

variable {session s after : Session}

/-- Scripts are compiled apart from the global scope. -/
theorem confined_of_serves {m : Machine} {scopes : Scopes} (serves : m.Serves scopes)
    {e : Scope} (found : scopes.stack[globalScope]? = some e) : scopes.Confined e m.topLevel := by
  have valid := serves.compilation.scopes
  obtain ⟨top, top_found, plain, held⟩ := serves.topLevel
  refine ⟨lt_size top_found, fun scope inner found' => ⟨?_, ?_, ?_, ?_⟩⟩
  · rintro rfl
    exact Option.some.inj (found'.symm.trans found)
  · rintro rfl
    cases Option.some.inj (found'.symm.trans top_found)
    exact ⟨plain, held⟩
  · intro deeper
    have bound := lt_size found'
    rw [serves.size] at bound
    exact absurd bound (Nat.not_lt.mpr deeper)
  · intro waiting above mem written numbered
    obtain ⟨-, same⟩ := (valid.entries scope inner found').homes waiting mem
    rw [written] at same
    -- The global scope is its own owner.
    have owner := Scopes.owner_of_root found (valid.toNested.outermost e found).2
    exact absurd (owner.symm.trans (same e found numbered.symm)) (Nat.ne_of_lt above)

variable {d : Datum}

theorem restored_of_compile (serves : s.machine.Serves s.scopes) {error : CompileError}
    (failed : s.compile d topLevelScope = (.error error, after)) : s.Restored after := by
  have size := serves.size
  obtain ⟨e, found, held⟩ := serves.global
  obtain ⟨top, top_found, -, top_held⟩ := serves.topLevel
  have confined := confined_of_serves serves found
  have sane := serves.compilation.heap.consistent
  have inside : globalScope < topLevelScope := Nat.lt_succ_self 0
  have congruence := Compiler.congruence_confined e s.machine.topLevel s.machine.store
  have alike := Compiler.parallel_compileTopLevel congruence.parallels inside d trivial ()
    ⟨rfl, confined, rfl, rfl, rfl, rfl, sane, fun _ _ _ held => held,
      fun _ _ held => ⟨#[], by rw [Array.append_empty]; exact held⟩⟩
  have roomy := roomy_of_serves serves (Nat.lt_succ_self topLevelScope)
  have meets := Compiler.meets_compileTopLevel roomy d
  generalize compiled : Compiler.compileTopLevel d topLevelScope
    { scopes := s.scopes, store := s.machine.store } = out at alike meets
  cases alike with
  | ok =>
    simp only [compile, Machine.onStore, compiled] at failed
    cases failed
  | @error _ st _ _ _ related =>
    obtain ⟨scopes, store⟩ := st
    obtain ⟨-, confined', -, spared⟩ := related
    obtain ⟨proc, slots, present, n⟩ := serves.compilation.slots _ top _ top_found top_held
    obtain ⟨proc', globals, present', -⟩ := serves.compilation.slots _ e _ found held
    obtain ⟨lam, script⟩ := serves.script
    cases rolled : scopes.rollback s.scopes.checkpoint store.heap with
    | mk restored heap =>
      have stack := Compilation.rollback_stack size meets.scopes found top_found confined' rolled
      have preserves := Compilation.rollback_preserves size meets.scopes top_found top_held present
        n spared rolled
      have eq : after = s.advanced restored { store with heap } := by
        simp only [compile, Machine.onStore, compiled, Store.onHeap, rolled] at failed
        cases failed
        rfl
      subst eq
      refine ⟨stack, (congrArg Array.size stack).trans size, rfl, spared.hosts, spared.printed,
        preserves, ⟨globals, ?_, ?_⟩, ⟨slots, ?_, ?_⟩, ⟨lam, some s.machine.global, ?_, ?_⟩,
        fun roots h reached => preserves.reachable reached⟩
      · exact Heap.slots?_eq_some_iff.mpr ⟨_, present'⟩
      · exact Heap.slots?_eq_some_iff.mpr ⟨_, preserves _ _ present'⟩
      · exact Heap.slots?_eq_some_iff.mpr ⟨_, present⟩
      · exact Heap.slots?_eq_some_iff.mpr ⟨_, preserves _ _ present⟩
      · exact Heap.closure?_eq_some_iff.mpr script.closure
      · exact Heap.closure?_eq_some_iff.mpr (preserves _ _ script.closure)

theorem compile_of_load (serves : s.machine.Serves s.scopes) {error : ScriptError}
    (failed : s.load d = (.error error, after)) :
    ∃ cause, s.compile d topLevelScope = (.error cause, after) := by
  obtain ⟨scopes, store, -, -, ⟨cause, compiled, loads⟩ | ⟨code, lam, -, loads, -⟩⟩ :=
    load_spec serves d
  · cases failed.symm.trans loads
    exact ⟨cause, compiled⟩
  · cases failed.symm.trans loads

/-- A datum that does not compile leaves no trace, be it compiled to be run or to be listed. -/
theorem failed_datum_leaves_no_trace (reached : session.Reached) (datum : Datum)
    (failed : (∃ error, session.load datum = (.error error, after)) ∨
      ∃ error, session.compile datum topLevelScope = (.error error, after)) :
    session.Restored after := by
  have serves := reached.secure.1
  rcases failed with ⟨error, failed⟩ | ⟨error, failed⟩
  · obtain ⟨cause, failed⟩ := compile_of_load serves failed
    exact restored_of_compile serves failed
  · exact restored_of_compile serves failed

/-- A definition of a quoted list, and a procedure with a name in it that nothing defines. -/
def unfinished : Datum :=
  let symbol := fun name => Datum.ofSymbol name default
  .list [symbol "begin",
    .list [symbol "define", symbol "x", .list [symbol "quote", .list [symbol "y"] default] default]
      default,
    .list [symbol "lambda", .list [symbol "y"] default, symbol "x", symbol "missing"] default]
    default

/-- The compiler gives up within the procedure, after it has built the list. -/
theorem failed_datum_leaves_no_trace_unfinished : ∃ error after,
    (blank none 16).load unfinished = (.error error, after) ∧
      error.message = "Unresolved symbol." ∧
      after.heap.liveCount = (blank none 16).heap.liveCount + 1 ∧
      (blank none 16).Restored after := by
  have answer : (match ((blank none 16).load unfinished).1 with
      | .ok () => none
      | .error error => some error.message) = some "Unresolved symbol." := by
    decide +kernel
  have more : ((blank none 16).load unfinished).2.heap.liveCount =
      (blank none 16).heap.liveCount + 1 := by
    decide +kernel
  cases failed : (blank none 16).load unfinished with
  | mk outcome after =>
    rw [failed] at answer more
    cases outcome with
    | ok _ => cases answer
    | error error =>
      exact ⟨error, after, rfl, Option.some.inj answer, more,
        failed_datum_leaves_no_trace (.blank none 16) unfinished (.inl ⟨error, failed⟩)⟩

/-! ### The value before a failure -/

/-- The text of the value that the next request hands out, if there is nothing left to be run. -/
def remaining (session : Session) : Option String :=
  match session.execute 0 with
  | (.ok (some value), after) => some (after.heap.writeText value)
  | _ => none

/-- A datum that fails while running leaves the value of the one before it to be handed out. The
collector does not know of that value, so a collection in between shows. -/
theorem collection_noticed :
    ((blank none 16).evaluate "((lambda x x) 1 2) (1)").2.remaining = some "(1 2)" ∧
      ((blank none 16).evaluate "((lambda x x) 1 2) (1)").2.collect.2.remaining = some "()" := by
  constructor
  · decide +kernel
  · set_option maxRecDepth 20000 in cbv

end MiniScheme.Session
