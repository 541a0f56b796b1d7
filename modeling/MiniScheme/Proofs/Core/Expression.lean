import MiniScheme.Compiler.Formals
import MiniScheme.Value.OfDatum

/-!
# The core language

What a form means, apart from how it is compiled: literals, variables, conditionals, sequences,
assignments, procedures with internal definitions, and calls. A datum is read as such an expression
where it is known which names stand for variables. Quoted data are built once, in the order in which
they are written, except that those of internal definitions come before those of the body.
-/

namespace MiniScheme

mutual

/-- Expressions of the core language. -/
inductive Expression where
  | literal (value : Value)
  | variable (name : String)
  | conditional (test consequent alternate : Expression)
  /-- The value of the first one is dropped. -/
  | sequence (first second : Expression)
  | assignment (name : String) (value : Expression)
  | lambda (abstraction : Abstraction)
  | call (callee : Expression) (arguments : List Expression)

/-- A procedure as it is written. Internal definitions have slots behind the arguments; they are
carried out before the body, in order. One without an initializer only has its slot. -/
structure Abstraction where
  formals : Formals
  locals : List String
  initializers : List (String × Expression)
  body : Expression

end

instance : Inhabited Expression := ⟨.literal .unspecified⟩

/-- The slots that names stand for in one procedure. -/
abbrev Naming := String → Option Nat

/-- Names have slots in the order in which they are given. -/
def Naming.ofNames (names : List String) : Naming :=
  names.idxOf?

/-- Where a name is found, innermost procedure first: the number of procedures between the use and
the variable, and its slot. -/
def place? : List Naming → String → Option (Nat × Nat)
  | [], _ => none
  | naming :: outer, name => match naming name with
    | some slot => some (0, slot)
    | none => (place? outer name).map fun (depth, slot) => (depth + 1, slot)

/-- All names of the procedure, in the order of their slots. -/
def Abstraction.names (abstraction : Abstraction) : List String :=
  abstraction.formals.names ++ abstraction.locals

/-- The names that are known in the body of the procedure. -/
def Abstraction.namings (abstraction : Abstraction) (outer : List Naming) : List Naming :=
  .ofNames abstraction.names :: outer

namespace Expression

/-- Reading builds quoted data; what is not of the core language is not read. -/
abbrev ReadM := StateT Heap Option

/-- How a datum is read where names are known. -/
abbrev Recur := List Naming → Datum → ReadM Expression

def quoted (datum : Datum) : ReadM Expression := fun heap =>
  let (value, heap) := heap.ofDatum datum
  some (.literal value, heap)

/-- Reads forms that are evaluated one after the other, at least one. -/
def sequenced (read : Datum → ReadM Expression) : List Datum → ReadM Expression
  | [] => failure
  | [form] => read form
  | form :: forms => do
    let first ← read form
    return .sequence first (← sequenced read forms)

/-- Reads forms that are evaluated in order, each for its value. -/
def all (read : Datum → ReadM Expression) : List Datum → ReadM (List Expression)
  | [] => return []
  | form :: forms => do
    let first ← read form
    return first :: (← all read forms)

/-- What `(define name)`, `(define name value)` and `(define (name . formals) body ...)` define. -/
def definition? : Datum → Option (String × Option Datum)
  | .list (keyword :: target :: rest) position =>
    if keyword.isSymbol "define" then
      match target, rest with
      | .atom (.symbol name) _, [] => some (name, none)
      | .atom (.symbol name) _, [value] => some (name, some value)
      | .list (.atom (.symbol name) _ :: formals) place, _ :: _ => some (name, some (.list
          (.ofSymbol "lambda" position :: .list formals place :: rest) position))
      | .dotted (.atom (.symbol name) _ :: formals) tail place, _ :: _ => some (name, some (.list
          (.ofSymbol "lambda" position :: .withTail formals tail place :: rest) position))
      | _, _ => none
    else none
  | _ => none

/-- Splits off the definitions at the start of a body. -/
def definitions : List Datum → List (String × Option Datum) × List Datum
  | [] => ([], [])
  | form :: forms => match definition? form with
    | some definition => (definition :: (definitions forms).1, (definitions forms).2)
    | none => ([], form :: forms)

/-- The definitions that have an initializer. -/
def initialized (definitions : List (String × Option Datum)) : List (String × Datum) :=
  definitions.filterMap fun (name, value) => value.map fun form => (name, form)

def initializers (read : Datum → ReadM Expression) :
    List (String × Datum) → ReadM (List (String × Expression))
  | [] => return []
  | (name, form) :: others => do
    let value ← read form
    return (name, value) :: (← initializers read others)

/-- Reads a procedure. The names of its arguments and definitions are distinct. -/
def procedure (recur : Recur) (outer : List Naming) (formals : Datum) (body : List Datum) :
    ReadM Abstraction :=
  match Formals.ofDatum formals with
  | .error _ => failure
  | .ok formals => do
    let (defined, forms) := definitions body
    let locals := defined.map Prod.fst
    if Formals.hasDuplicate (formals.names ++ locals) then failure
    let inner := .ofNames (formals.names ++ locals) :: outer
    let initializers ← initializers (recur inner) (initialized defined)
    let body ← sequenced (recur inner) forms
    return { formals, locals, initializers, body }

def named (namings : List Naming) (name : String) : ReadM Unit :=
  if (place? namings name).isSome then return () else failure

def application (recur : Recur) (namings : List Naming) (callee : Datum)
    (arguments : List Datum) : ReadM Expression := do
  let callee ← recur namings callee
  return .call callee (← all (recur namings) arguments)

/-- Reads a list that starts with a symbol. The keywords of forms that are not of the core language
are not read as names of procedures. -/
def special (recur : Recur) (namings : List Naming) (keyword : String) (head : Datum)
    (items : List Datum) : ReadM Expression :=
  match keyword with
  | "quote" => match items with
    | [datum] => quoted datum
    | _ => failure
  | "if" => match items with
    | [test, consequent] => do
      let test ← recur namings test
      return .conditional test (← recur namings consequent) (.literal .unspecified)
    | [test, consequent, alternate] => do
      let test ← recur namings test
      let consequent ← recur namings consequent
      return .conditional test consequent (← recur namings alternate)
    | _ => failure
  | "begin" => match items with
    | [] => return .literal .unspecified
    | forms => sequenced (recur namings) forms
  | "lambda" => match items with
    | formals :: body => return .lambda (← procedure recur namings formals body)
    | _ => failure
  | "set!" => match items with
    | [.atom (.symbol name) _, value] => do
      named namings name
      return .assignment name (← recur namings value)
    | _ => failure
  | "quasiquote" | "define" | "define-syntax" | "let-syntax" | "letrec-syntax" => failure
  | _ => application recur namings head items

def form (recur : Recur) (namings : List Naming) (datum : Datum) : ReadM Expression :=
  match datum with
  | .atom (.symbol name) _ => do
    named namings name
    return .variable name
  | .atom _ _ => quoted datum
  | .vector _ _ => quoted datum
  | .dotted _ _ _ => failure
  | .list [] _ => failure
  | .list (head :: items) _ => match head.symbol? with
    | some keyword => special recur namings keyword head items
    | none => application recur namings head items

/-- Reads a datum of which the forms nest to at most the given depth. -/
def read : Nat → Recur
  | 0 => fun _ _ => failure
  | depth + 1 => form (read depth)

end Expression

end MiniScheme
