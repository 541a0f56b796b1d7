import MiniScheme.Proofs.Session.Safety

/-!
# Compiled code passes the verifier

Whatever was compiled before, the code of a datum that compiles passes the verifier, together with
the procedures in it, however deep they are nested. The slots of the scopes around the code are
those that the scopes have in the end, when all definitions of the datum are known.
-/

namespace MiniScheme

/-- Where the code of a datum stands that is compiled in a scope. -/
def Scopes.setting (scopes : Scopes) (scope : ScopeRef) : Setting :=
  { level := .script, shape := scopes.shape scope, pool := scopes.constants scope }

/-- Operands can count the code and all that it can refer to. -/
structure Bytecode.Fits (code : Bytecode) (setting : Setting) : Prop where
  bytes : code.size ≤ operandLimit
  slots : ∀ size ∈ setting.shape, size ≤ operandLimit
  constants : setting.pool.size ≤ operandLimit
  lambdas : ∀ inner, .lambda inner ∈ setting.pool → inner.Fits

theorem Bytecode.Fits.hosts {code : Bytecode} {scopes : Scopes} {scope : ScopeRef}
    (fits : code.Fits (scopes.setting scope)) : (scopes.setting scope).Hosts scopes scope :=
  ⟨⟨#[], (Array.append_empty).symm⟩, List.forall₂_same.mpr fun _ _ => Nat.le_refl _, fits.slots,
    fits.constants, fits.lambdas⟩

namespace Session

/-- What compiling data can make of the sessions that can be reached: in either scope, one after the
other and in between requests. -/
inductive Prepared : Session → Prop where
  | reached {session : Session} (reached : session.Reached) : Prepared session
  | keyword {session : Session} (prepared : Prepared session) (name : String) :
      Prepared { session with scopes := session.scopes.bindKeyword globalScope name }
  | compile {session : Session} (prepared : Prepared session) (datum : Datum) {scope : ScopeRef}
      (home : scope = globalScope ∨ scope = topLevelScope) :
      Prepared (session.compile datum scope).2
  | perform {session : Session} (prepared : Prepared session) (request : Request)
      (fair : request.Fair session) : Prepared (request.perform session).2

variable {session s after : Session} {scope : ScopeRef}

theorem Prepared.serves (prepared : s.Prepared) : s.machine.Serves s.scopes := by
  induction prepared with
  | reached reached => exact reached.secure.1
  | keyword _ name ih => exact (becomes_keyword ih name).serves
  | compile _ d home ih => exact (becomes_compile ih d home).serves
  | perform _ request fair ih => exact (Request.handles_perform ih fair).serves

/-- Code that has been compiled passes the verifier, and so do the procedures that were added to the
constants, with all procedures in them. -/
theorem compiled_code_passes (prepared : session.Prepared)
    (home : scope = globalScope ∨ scope = topLevelScope) (datum : Datum) {code : Bytecode}
    (compiled : session.compile datum scope = (.ok code, after))
    (fits : code.Fits (after.scopes.setting scope)) :
    code.Passes (after.scopes.setting scope) ∧ ∀ (index : Nat) (inner : Lambda),
      (session.scopes.constants scope).size ≤ index →
        (after.scopes.constants scope)[index]? = some (.lambda inner) →
          inner.Passes (after.scopes.shape scope) := by
  have serves := prepared.serves
  have passes := Compiler.meets_compileTopLevel (roomy_of_serves serves (lt_of_home home)) datum
  cases outcome : Compiler.compileTopLevel datum scope
      { scopes := session.scopes, store := session.machine.store } with
  | error error state =>
    simp only [compile, Machine.onStore, outcome] at compiled
    cases compiled
  | ok result state =>
    rw [outcome] at passes
    obtain ⟨-, -, proper, certified⟩ := passes
    simp only [compile, Machine.onStore, outcome] at compiled
    cases compiled
    obtain ⟨sane, -⟩ := proper _ rfl fits.hosts fits.bytes
    exact ⟨sane.toPasses, certified _ fits.hosts⟩

def looping : Datum :=
  let symbol := fun name => Datum.ofSymbol name default
  .list [symbol "define", .list [symbol "f", symbol "x"] default,
    .list [symbol "if", symbol "x", .list [symbol "f", .atom (.integer 1) default] default,
      .atom (.integer 2) default] default] default

/-- The procedure of `looping` is flat, and its call at the end is a tail call. -/
def callsLast : Bool :=
  match (blank none 16).compile looping topLevelScope with
  | (.error _, _) => false
  | (.ok code, after) =>
    decide (code.size ≤ operandLimit) &&
    (after.scopes.shape topLevelScope).all (fun size => decide (size ≤ operandLimit)) &&
    match (after.scopes.constants topLevelScope).toList with
    | [.lambda inner] => isFlat inner && decide (inner.body.op? 29 = some .tailCall)
    | _ => false

/-- The code stores a procedure with a call in tail position. -/
theorem compiled_code_passes_looping : ∃ code after inner,
    (blank none 16).compile looping topLevelScope = (.ok code, after) ∧
      code.Passes (after.scopes.setting topLevelScope) ∧
      (after.scopes.constants topLevelScope)[0]? = some (.lambda inner) ∧
      inner.body.op? 29 = some .tailCall ∧ inner.Passes (after.scopes.shape topLevelScope) := by
  have answer : callsLast = true := by decide +kernel
  unfold callsLast at answer
  cases compiled : (blank none 16).compile looping topLevelScope with
  | mk outcome after =>
    rw [compiled] at answer
    cases outcome with
    | error => cases answer
    | ok code =>
      simp only [Bool.and_eq_true, decide_eq_true_eq, List.all_eq_true] at answer
      obtain ⟨⟨bytes, slots⟩, lambdas⟩ := answer
      split at lambdas
      · rename_i inner listed
        simp only [isFlat, Bool.and_eq_true, decide_eq_true_eq, Array.all_eq_true_iff_forall_mem]
          at lambdas
        obtain ⟨⟨small, plain⟩, call⟩ := lambdas
        have pool : after.scopes.constants topLevelScope = #[.lambda inner] := Array.ext' listed
        have fits : code.Fits (after.scopes.setting topLevelScope) := by
          refine ⟨bytes, slots, ?_, ?_⟩
          · simp only [Scopes.setting, pool, List.size_toArray, List.length_singleton]
            decide
          · intro other member nested nests
            simp only [Scopes.setting, pool, Array.mem_singleton, Constant.lambda.injEq] at member
            subst member
            cases nests with
            | self => exact small
            | inside member => exact absurd (plain _ member) Bool.false_ne_true
        have found : (after.scopes.constants topLevelScope)[0]? = some (.lambda inner) := by
          rw [pool]
          rfl
        have none_before : ((blank none 16).scopes.constants topLevelScope).size ≤ 0 := by
          decide +kernel
        obtain ⟨passes, added⟩ := compiled_code_passes (.reached (.blank none 16)) (.inr rfl) looping
          compiled fits
        exact ⟨code, after, inner, rfl, passes, found, call, added 0 inner none_before found⟩
      · cases lambdas

end Session

end MiniScheme
