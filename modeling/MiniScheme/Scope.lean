import MiniScheme.Transformer
import MiniScheme.Heap

/-!
# Scopes

What names mean at compile time. Scopes form a chain from the innermost form out to the top level
and the global scope. They are kept in a stack: one is pushed when the compiler enters a procedure
or a body with local transformers, and popped when it leaves. Syntactic scopes hold transformers
only; a variable defined in one belongs to the nearest scope that has slots.
-/

namespace MiniScheme

/-- The place of a scope in the stack. -/
abbrev ScopeRef := Nat

/-- The scope of the standard procedures. -/
def globalScope : ScopeRef := 0

/-- The scope of the script's own definitions. -/
def topLevelScope : ScopeRef := 1

/-- A variable as seen from a use of it. -/
structure Variable where
  /-- The number of procedures between the use and the variable. -/
  depth : Nat
  index : Nat
  /-- The number of the scope that it belongs to. -/
  scope : Nat
  deriving DecidableEq, Repr, Inhabited

/-- What a name means. -/
inductive Binding where
  | variable (place : Variable)
  | transformer (transformer : Transformer)
  /-- A name that only has a meaning as part of other forms, such as `else`. -/
  | keyword (name : String)

/-- What tells the definition from others. -/
def Binding.identity : Binding → Identity
  | .variable place => .slot place.scope place.index
  | .transformer definition => .transformer definition.id
  | .keyword name => .keyword name

/-- Whether both are the same definition, wherever they were looked up. -/
def Binding.same (left right : Binding) : Bool :=
  left.identity = right.identity

/-- The initializer of a variable, waiting to be compiled. -/
structure Initializer where
  /-- The slot of the variable. -/
  index : Nat
  name : String
  form : Datum
  /-- The scope that it was written in. -/
  scope : ScopeRef
  deriving Inhabited

/-- An initializer and the number of the scope that it was written in. -/
structure Deferred where
  name : String
  form : Datum
  scope : ScopeRef
  scopeId : Nat
  deriving Inhabited

/-- The names of one form, and what is needed to compile it. -/
structure Scope where
  /-- The number of the scope, never used again. -/
  id : Nat
  parent : Option ScopeRef
  /-- Whether the scope has transformers only. -/
  syntactic : Bool
  /-- The newest binding of a name comes first. -/
  bindings : List (String × Binding) := []
  variableCount : Nat := 0
  constants : Array Constant := #[]
  /-- For each slot its initializer, while that is waiting. -/
  deferred : Array (Option Deferred) := #[]
  /-- Where the slots are, if they exist before the code runs. -/
  invocation : Option Handle := none
  deriving Inhabited

/-- The part of the top level that a failed compilation has to restore. -/
structure Checkpoint where
  bindings : List (String × Binding)
  variableCount : Nat
  constantCount : Nat
  deferred : Array (Option Deferred)

/-- A stack of scopes and a supply of numbers. -/
structure Scopes where
  stack : Array Scope := #[]
  nextId : Nat := 0
  deriving Inhabited

namespace Scopes

def push (scopes : Scopes) (parent : Option ScopeRef) (syntactic : Bool)
    (invocation : Option Handle) : ScopeRef × Scopes :=
  (scopes.stack.size,
    { stack := scopes.stack.push { id := scopes.nextId, parent, syntactic, invocation }
      nextId := scopes.nextId + 1 })

/-- The global scope and the top level in it, with the invocations that hold their slots. -/
def initial (global topLevel : Handle) : Scopes :=
  let (outer, scopes) := push {} none false (some global)
  (scopes.push (some outer) false (some topLevel)).2

/-- Pushes a scope with slots of its own, for the body of a procedure. -/
def pushValueScope (scopes : Scopes) (parent : ScopeRef) : ScopeRef × Scopes :=
  scopes.push (some parent) false none

def pushSyntacticScope (scopes : Scopes) (parent : ScopeRef) : ScopeRef × Scopes :=
  scopes.push (some parent) true none

/-- Drops a scope and everything pushed after it. The outermost two stay. -/
def pop (scopes : Scopes) (scope : ScopeRef) : Scopes :=
  if topLevelScope < scope then { scopes with stack := scopes.stack.take scope } else scopes

/-- A scope and those around it, innermost first. The parent of a scope is below it in the
stack. -/
def chain (scopes : Scopes) (scope : ScopeRef) : List (ScopeRef × Scope) :=
  match scopes.stack[scope]? with
  | none => []
  | some entry => (scope, entry) :: match entry.parent with
    | some parent => if parent < scope then chain scopes parent else []
    | none => []
termination_by scope

/-- The nearest scope that has slots. -/
def owner (scopes : Scopes) (scope : ScopeRef) : ScopeRef :=
  match (scopes.chain scope).find? fun (_, entry) => !entry.syntactic with
  | some (owner, _) => owner
  | none => scope

/-- The nearest scope that has slots, itself. -/
def ownerScope (scopes : Scopes) (scope : ScopeRef) : Scope :=
  scopes.stack.getD (scopes.owner scope) default

/-- Finds what a name means, given how many procedures lie between the use and the scopes. -/
def find? (name : String) : Nat → List (ScopeRef × Scope) → Option Binding
  | _, [] => none
  | depth, (_, scope) :: outer => match scope.bindings.lookup name with
    | some (.variable place) => some (.variable { place with depth })
    | some binding => some binding
    | none => find? name (if scope.syntactic then depth else depth + 1) outer

def resolve (scopes : Scopes) (scope : ScopeRef) (name : String) : Option Binding :=
  find? name 0 (scopes.chain scope)

/-- What tells the meaning of a name in a scope from others. -/
def meaning? (scopes : Scopes) (scope : ScopeRef) (name : String) : Option Identity :=
  (scopes.resolve scope name).map Binding.identity

def modify (scopes : Scopes) (scope : ScopeRef) (change : Scope → Scope) : Scopes :=
  { scopes with stack := scopes.stack.modify scope change }

def bind (scopes : Scopes) (scope : ScopeRef) (name : String) (binding : Binding) : Scopes :=
  scopes.modify scope fun entry => { entry with bindings := (name, binding) :: entry.bindings }

def bindTransformer (scopes : Scopes) (scope : ScopeRef) (name : String)
    (transformer : Transformer) : Scopes :=
  scopes.bind scope name (.transformer transformer)

def bindKeyword (scopes : Scopes) (scope : ScopeRef) (name : String) : Scopes :=
  scopes.bind scope name (.keyword name)

/-- The slot of a name among the scope's own variables. -/
def slot? (scope : Scope) (name : String) : Option Nat :=
  match scope.bindings.lookup name with
  | some (.variable place) => if place.scope = scope.id then some place.index else none
  | _ => none

/-- Makes room for a slot and stores a value in it, if there is one. -/
def fillSlot (index : Nat) (value : Option Value) (slots : Array Value) : Array Value :=
  let slots := slots ++ Array.replicate (index + 1 - slots.size) .unspecified
  match value with
  | some value => slots.setIfInBounds index value
  | none => slots

/-- Binds a name to a slot of the nearest scope that has slots, the one it had there if there is
one. The initializer is compiled later; a value is stored at once if the slot exists already. -/
def addVariable (scopes : Scopes) (scope : ScopeRef) (name : String)
    (initializer : Option Datum) (value : Option Value) (heap : Heap) :
    Variable × Scopes × Heap :=
  let owner := scopes.owner scope
  let entry := scopes.stack.getD owner default
  let deferred := initializer.map fun form =>
    { name, form, scope, scopeId := (scopes.stack.getD scope default).id }
  let (index, scopes) := match slot? entry name with
    | some index => (index, match deferred with
      | some _ => scopes.modify owner fun entry =>
        { entry with deferred := entry.deferred.setIfInBounds index deferred }
      | none => scopes)
    | none =>
      let index := entry.variableCount
      (index, scopes.modify owner fun entry =>
        { entry with
          variableCount := index + 1
          deferred := entry.deferred.push deferred
          bindings := (name, .variable { depth := 0, index, scope := entry.id }) ::
            entry.bindings })
  let heap := match entry.invocation with
    | some invocation => heap.modifySlots invocation (fillSlot index value)
    | none => heap
  ({ depth := 0, index, scope := entry.id }, scopes, heap)

/-- Adds a constant to the nearest scope that has slots. -/
def addConstant (scopes : Scopes) (scope : ScopeRef) (constant : Constant) : Nat × Scopes :=
  let owner := scopes.owner scope
  ((scopes.stack.getD owner default).constants.size,
    scopes.modify owner fun entry => { entry with constants := entry.constants.push constant })

def constants (scopes : Scopes) (scope : ScopeRef) : Array Constant :=
  (scopes.ownerScope scope).constants

/-- Ends the scope of a procedure: the number of its slots and its constants. -/
def finish (scopes : Scopes) (scope : ScopeRef) : Nat × Array Constant × Scopes :=
  let entry := scopes.stack.getD scope default
  (entry.variableCount, entry.constants,
    (scopes.modify scope fun entry => { entry with constants := #[] }).pop scope)

/-- The scope that an initializer is compiled in: the one it was written in, or the one that has
its slot if the former is gone. -/
def homeOf (scopes : Scopes) (owner : ScopeRef) (deferred : Deferred) : ScopeRef :=
  match scopes.stack[deferred.scope]? with
  | some entry => if entry.id = deferred.scopeId then deferred.scope else owner
  | none => owner

/-- Takes the waiting initializers of the nearest scope that has slots, in the order of the
slots. -/
def takeDeferred (scopes : Scopes) (scope : ScopeRef) : List Initializer × Scopes :=
  let owner := scopes.owner scope
  let waiting := (scopes.ownerScope scope).deferred.toList.mapIdx fun index entry =>
    entry.map fun deferred =>
      { index, name := deferred.name, form := deferred.form, scope := scopes.homeOf owner deferred }
  (waiting.filterMap id,
    scopes.modify owner fun entry => { entry with deferred := entry.deferred.map fun _ => none })

def hasDeferred (scopes : Scopes) (scope : ScopeRef) : Bool :=
  (scopes.ownerScope scope).deferred.any Option.isSome

/-- What has to be restored if the next compilation fails. -/
def checkpoint (scopes : Scopes) : Checkpoint :=
  let top := scopes.stack.getD topLevelScope default
  { bindings := top.bindings
    variableCount := top.variableCount
    constantCount := top.constants.size
    deferred := top.deferred }

/-- Forgets everything that was added to the top level since a checkpoint. -/
def rollback (scopes : Scopes) (checkpoint : Checkpoint) (heap : Heap) : Scopes × Heap :=
  let scopes := { scopes with stack := scopes.stack.take (topLevelScope + 1) }
  let heap := match (scopes.stack.getD topLevelScope default).invocation with
    | some invocation => heap.modifySlots invocation fun slots =>
      slots.take checkpoint.variableCount
    | none => heap
  (scopes.modify topLevelScope fun top =>
    { top with
      bindings := checkpoint.bindings
      variableCount := checkpoint.variableCount
      constants := top.constants.take checkpoint.constantCount
      deferred := checkpoint.deferred }, heap)

/-- Creates a transformer from its description: a list, or the name of another transformer. -/
def createTransformer (scopes : Scopes) (scope : ScopeRef) (spec : Datum) :
    Except CompileError (Transformer × Scopes) :=
  match spec.symbol? with
  | some name => match scopes.resolve scope name with
    | some (.transformer known) => .ok (known, scopes)
    | some _ => .error { fault := .notATransformer, position := spec.position }
    | none => .error { fault := .unresolvedSymbol, position := spec.position }
  | none => do
    let kind ← TransformerKind.ofDatum (scopes.meaning? scope) spec
    return ({ id := scopes.nextId, kind }, { scopes with nextId := scopes.nextId + 1 })

end Scopes

end MiniScheme
