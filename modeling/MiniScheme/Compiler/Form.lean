import MiniScheme.Compiler.Plan
import MiniScheme.Compiler.Quasi

/-!
# Forms

How each form compiles, given a way to compile the forms in it. The initializers of definitions
are compiled late, all at once: when the first code that could need them follows, or at the end of
a datum. Code is relocatable, so the code of a form is put together from that of its parts.
-/

namespace MiniScheme.Compiler

/-- How a form in a context is compiled. -/
abbrev Recur := Datum → Context → CompileM Fragment

/-- Code that leaves a value. -/
def yields (code : Bytecode) : Fragment :=
  { code, pushes := true }

/-- Compiles forms one after the other, dropping every value but the last. Only the last form is in
tail position. -/
def sequenceFrom (recur : Recur) (context : Context) : Fragment → List Datum → CompileM Fragment
  | done, [] => return done
  | done, form :: forms => do
    let code := if done.pushes then done.code ++ .ofOp .pop else done.code
    let next ← recur form
      { context with
        tail := context.tail && forms.isEmpty
        started := context.started || !code.isEmpty }
    sequenceFrom recur context { code := code ++ next.code, pushes := next.pushes } forms

def sequence (recur : Recur) (context : Context) (forms : List Datum) : CompileM Fragment :=
  sequenceFrom recur context {} forms

/-- Compiles a procedure. Its body has a scope of its own; the procedure becomes a constant of the
one around it. -/
def procedure (recur : Recur) (form : Datum) (formals : Formals) (body : List Datum)
    (outer : ScopeRef) (name : Option String) : CompileM Bytecode := do
  let scope ← CompileM.onScopes fun scopes => scopes.pushValueScope outer
  formals.names.forM fun argument => CompileM.addVariable scope argument none
  let result ← sequence recur (.ofBody scope) body
  unless result.pushes do CompileM.fail .emptyBody form
  let (slotCount, constants) ← CompileM.onScopes fun scopes =>
    let (slotCount, constants, scopes) := scopes.finish scope
    ((slotCount, constants), scopes)
  CompileM.note .trace fun _ =>
    "lambda " ++ Text.optionLiteral name ++ " with " ++ toString slotCount ++ " slots"
  let lambda : Lambda :=
    { name
      argumentCount := formals.fixed.length
      rest := formals.rest.isSome
      slotCount
      constants
      body := result.code ++ .ofOp .return }
  let index ← CompileM.onScopes fun scopes => scopes.addConstant outer (.lambda lambda)
  return .ofOp .lambda [.ofNat index]

/-- Compiles the initializer of a variable. A procedure is named for the variable. -/
def initializer (recur : Recur) (pending : Initializer) : CompileM Bytecode := do
  match pending.form.list? with
  | some (keyword :: items) =>
    if keyword.isSymbol "lambda" then
      let (formals, body) ← CompileM.ofExcept (parts pending.form items)
      procedure recur pending.form formals body pending.scope (some pending.name)
    else return (← recur pending.form { scope := pending.scope }).code
  | _ => return (← recur pending.form { scope := pending.scope }).code

/-- Compiles initializers, storing each value into its slot. -/
def initializers (recur : Recur) : Bytecode → List Initializer → CompileM Bytecode
  | code, [] => return code
  | code, pending :: others => do
    let value ← initializer recur pending
    initializers recur (code ++ value ++ .ofOp .setVariable [0, .ofNat pending.index]) others

/-- Compiles the initializers that are waiting. -/
def flush (recur : Recur) (scope : ScopeRef) : CompileM Bytecode := do
  if ← CompileM.look fun scopes => scopes.hasDeferred scope then
    initializers recur {} (← CompileM.onScopes fun scopes => scopes.takeDeferred scope)
  else return {}

/-- Compiles what leaves a value, behind the initializers that are waiting. -/
def flushed (recur : Recur) (scope : ScopeRef) (action : CompileM Bytecode) :
    CompileM Fragment := do
  let before ← flush recur scope
  return yields (before ++ (← action))

/-- Compiles forms of which all values stay on the stack. -/
def operands (recur : Recur) (context : Context) : Bytecode → List Datum → CompileM Bytecode
  | code, [] => return code
  | code, item :: items => do
    let value ← recur item context.operand
    operands recur context (code ++ value.code) items

def call (recur : Recur) (form : Datum) (items : List Datum) (context : Context) :
    CompileM Fragment := do
  let before ← flush recur context.scope
  let code ← operands recur context (before ++ .ofOp .resetOperandCount) items
  return yields (code ++ .ofOpAt (if context.tail then .tailCall else .call) form.position)

/-- Compiles `(if condition consequent [alternate])`. -/
def conditional (recur : Recur) (context : Context) (condition consequent : Datum)
    (alternate : Option Datum) : CompileM Fragment := do
  let test ← recur condition context.operand
  let yes ← recur consequent context.branch
  let no ← match alternate with
    | some form => pure (← recur form context.branch).code
    | none => CompileM.constant context.scope .unspecified
  return yields (test.code ++
    .ofOp .conditionalJump [.ofNat (yes.code.size + Op.jump.size)] ++ yes.code ++
    .ofOp .jump [.ofNat no.size] ++ no)

/-- What `(define target rest ...)` defines: a name, and its initializer if it has one. A signature
makes it a procedure. -/
def definition (form target : Datum) (rest : List Datum) : CompileM (String × Option Datum) :=
  let procedureForm := fun (formals : Datum) => Datum.list
    (.ofSymbol "lambda" form.position :: formals :: rest) form.position
  match target, rest with
  | .atom (.symbol name) _, [] => return (name, none)
  | .atom (.symbol name) _, [value] => return (name, some value)
  | .list (.atom (.symbol name) _ :: formals) position, _ :: _ =>
    return (name, some (procedureForm (.list formals position)))
  | .dotted (.atom (.symbol name) _ :: formals) tail position, _ :: _ =>
    return (name, some (procedureForm (.withTail formals tail position)))
  | _, _ => CompileM.fail .invalidDefinition form

/-- Binds the names of local transformers, each described in a scope of which it may be a part. -/
def bindLocal (scope home : ScopeRef) : List Datum → CompileM Unit
  | [] => return ()
  | entry :: entries => do
    match entry.list? with
    | some [.atom (.symbol name) _, spec] =>
      let transformer ← CompileM.createTransformer home spec
      CompileM.onScopes fun scopes => ((), scopes.bindTransformer scope name transformer)
      bindLocal scope home entries
    | _ => CompileM.fail .invalidExpression entry

mutual

def quasi (recur : Recur) (context : Context) : Quasi → CompileM Bytecode
  | .constant template => CompileM.quoted context.scope template
  | .evaluate form => return (← recur form context.operand).code
  | .nothing => CompileM.constant context.scope .emptyList
  | .call name position arguments => do
    let callee ← CompileM.constant context.scope ((Stdlib.procedure? name).getD .unspecified)
    let code ← quasiAll recur context (.ofOp .resetOperandCount ++ callee) arguments
    return code ++ .ofOpAt .call position
  | .invalid position => throw { fault := .invalidExpression, position }

/-- Compiles plans of which all values stay on the stack. -/
def quasiAll (recur : Recur) (context : Context) : Bytecode → List Quasi → CompileM Bytecode
  | code, [] => return code
  | code, plan :: plans => do
    let value ← quasi recur context plan
    quasiAll recur context (code ++ value) plans

end

/-- Compiles what a form amounts to. The initializer of a definition waits. -/
def Plan.compile (recur : Recur) (form : Datum) (context : Context) : Plan → CompileM Fragment
  | .literal datum => flushed recur context.scope (CompileM.quoted context.scope datum)
  | .reference place => flushed recur context.scope do
    return .ofOp .variable [.ofNat place.depth, .ofNat place.index]
  | .expansion result noted => do
    if noted then CompileM.note .trace fun _ => "expanded " ++ form.text ++ " into " ++ result.text
    recur result context
  | .quasi template =>
    flushed recur context.scope (Compiler.quasi recur context (.ofDatum 0 template))
  | .conditional condition consequent alternate =>
    Compiler.conditional recur context condition consequent alternate
  | .nothing => flushed recur context.scope (CompileM.constant context.scope .unspecified)
  | .sequence first others => Compiler.sequence recur context (first :: others)
  | .lambda formals body =>
    flushed recur context.scope (procedure recur form formals body context.scope none)
  | .assignment place value => do
    let result ← recur value context.operand
    let after ← CompileM.constant context.scope .unspecified
    return yields
      (result.code ++ .ofOp .setVariable [.ofNat place.depth, .ofNat place.index] ++ after)
  | .definition target rest => do
    let (name, value) ← Compiler.definition form target rest
    CompileM.addVariable context.scope name value
    return {}
  | .transformer name spec => do
    let transformer ← CompileM.createTransformer context.scope spec
    CompileM.onScopes fun scopes => ((), scopes.bindTransformer context.scope name transformer)
    return {}
  | .scoped recursive bindings first body => do
    let scope ← CompileM.onScopes fun scopes => scopes.pushSyntacticScope context.scope
    bindLocal scope (if recursive then scope else context.scope) bindings
    let result ← Compiler.sequence recur { context with scope } (first :: body)
    CompileM.onScopes fun scopes => ((), scopes.pop scope)
    return result
  | .call head items => Compiler.call recur form (head :: items) context

def form (recur : Recur) (datum : Datum) (context : Context) : CompileM Fragment := do
  let plan ← CompileM.look fun scopes =>
    Plan.ofDatum (scopes.resolve context.scope) context datum
  (← CompileM.ofExcept plan).compile recur datum context

end MiniScheme.Compiler
