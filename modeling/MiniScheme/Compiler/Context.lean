import MiniScheme.Code.Listing
import MiniScheme.Scope
import MiniScheme.Stdlib
import MiniScheme.Value.OfDatum

/-!
# What compiling works with

A form compiles to a fragment of code, in a context that says what the form may contain and how it
returns. Compiling changes the scopes and builds quoted data in the store. If it fails, it answers
with both as it left them.
-/

namespace MiniScheme

/-- What compiling changes. -/
structure Compilation where
  scopes : Scopes
  store : Store
  deriving Inhabited

abbrev CompileM := EStateM CompileError Compilation

/-- Where a form stands. -/
structure Context where
  scope : ScopeRef
  /-- Definitions may stand anywhere at the top level. -/
  topLevel : Bool := false
  /-- Elsewhere they may stand at the start of a body only. -/
  definitions : Bool := false
  tail : Bool := false
  /-- Whether code of the body stands before the form. -/
  started : Bool := false
  deriving DecidableEq, Repr, Inhabited

namespace Context

/-- The context of a datum of its own. -/
def ofTopLevel (scope : ScopeRef) : Context :=
  { scope, topLevel := true, definitions := true }

/-- The context of a form of which the value is used by the form around it. -/
def operand (context : Context) : Context :=
  { scope := context.scope }

def ofBody (scope : ScopeRef) : Context :=
  { scope, definitions := true, tail := true }

def branch (context : Context) : Context :=
  { scope := context.scope, tail := context.tail }

/-- Whether a definition may stand here. -/
def allowsDefinition (context : Context) : Bool :=
  context.definitions && (context.topLevel || !context.started)

end Context

/-- The code of a form, and whether it leaves a value on the stack; definitions do not. -/
structure Fragment where
  code : Bytecode := {}
  pushes : Bool := false
  deriving Inhabited

namespace CompileM

def fail {α : Type} (fault : CompileFault) (form : Datum) : CompileM α :=
  throw { fault, position := form.position }

/-- Takes over the outcome of a computation without state. -/
def ofExcept {α : Type} : Except CompileError α → CompileM α
  | .ok result => pure result
  | .error error => throw error

@[inline] def look {α : Type} (view : Scopes → α) : CompileM α := fun state =>
  let result := view state.scopes
  .ok result state

@[inline] def onScopes {α : Type} (work : Scopes → α × Scopes) : CompileM α := fun state =>
  match state with
  | { scopes, store } =>
    let (result, scopes) := work scopes
    .ok result { scopes, store }

@[inline] def note (detail : Detail) (message : Unit → String) : CompileM Unit := fun state =>
  match state with
  | { scopes, store } => .ok () { scopes, store := store.note detail message }

def addVariable (scope : ScopeRef) (name : String) (initializer : Option Datum) :
    CompileM Unit := fun state =>
  match state with
  | { scopes, store } =>
    let (scopes, store) := store.onHeap fun heap =>
      let (_, scopes, heap) := scopes.addVariable scope name initializer none heap
      (scopes, heap)
    .ok () { scopes, store }

def createTransformer (scope : ScopeRef) (spec : Datum) : CompileM Transformer := fun state =>
  match state.scopes.createTransformer scope spec with
  | .ok (transformer, scopes) => .ok transformer { state with scopes }
  | .error error => .error error state

def constant (scope : ScopeRef) (value : Value) : CompileM Bytecode := do
  let index ← onScopes fun scopes => scopes.addConstant scope (.value value)
  return .ofOp .constant [.ofNat index]

def quoted (scope : ScopeRef) (datum : Datum) : CompileM Bytecode := do
  let value ← fun state => match state with
    | { scopes, store } =>
      let (value, store) := store.onHeap fun heap => heap.ofDatum datum
      .ok value { scopes, store }
  constant scope value

end CompileM

end MiniScheme
