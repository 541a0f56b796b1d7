import MiniScheme.Compiler.Context
import MiniScheme.Compiler.Formals

/-!
# What forms amount to

How a form compiles depends on its keyword, on its parts, and on what names mean where it stands.
All of this is looked at first, and nothing is changed before it is known what the form amounts to.
-/

namespace MiniScheme.Compiler

/-- What a form amounts to where it stands. -/
inductive Plan where
  | literal (datum : Datum)
  | reference (place : Variable)
  /-- Another form takes its place. Expansions of lists are noted. -/
  | expansion (form : Datum) (noted : Bool)
  | quasi (template : Datum)
  | conditional (condition consequent : Datum) (alternate : Option Datum)
  | nothing
  | sequence (first : Datum) (others : List Datum)
  | lambda (formals : Formals) (body : List Datum)
  | assignment (place : Variable) (value : Datum)
  | definition (target : Datum) (rest : List Datum)
  | transformer (name : String) (spec : Datum)
  /-- A body with local transformers, which know each other if they are recursive. -/
  | scoped (recursive : Bool) (bindings : List Datum) (first : Datum) (body : List Datum)
  | call (head : Datum) (items : List Datum)

/-- The formal arguments and the body of a procedure. -/
def parts (form : Datum) : List Datum → Except CompileError (Formals × List Datum)
  | formals :: body => do return (← Formals.ofDatum formals, body)
  | [] => .error { fault := .invalidLambda, position := form.position }

namespace Plan

/-- There is no plan because of a form. -/
def invalid (fault : CompileFault) (form : Datum) : Except CompileError Plan :=
  .error { fault, position := form.position }

/-- What becomes of a form by the name in it that should be that of a variable. -/
def named (fault : CompileFault) (blamed : Datum) (found : Variable → Plan)
    (expand : TransformerKind → Except CompileError Datum) :
    Option Binding → Except CompileError Plan
  | some (.variable place) => .ok (found place)
  | some (.transformer rules) => do return .expansion (← expand rules.kind) false
  | some (.keyword _) => invalid fault blamed
  | none => invalid .unresolvedSymbol blamed

/-- `(let-syntax (binding ...) form ...)`, or `letrec-syntax`. -/
def withTransformers (form : Datum) (recursive : Bool) : List Datum → Except CompileError Plan
  | entries :: first :: body => match entries.list? with
    | some bindings => .ok (.scoped recursive bindings first body)
    | none => invalid .invalidExpression entries
  | _ => invalid .invalidExpression form

/-- A definition, where there may be one. -/
def defining (form : Datum) (context : Context) (plan : Option Plan) : Except CompileError Plan :=
  if context.allowsDefinition then match plan with
    | some plan => .ok plan
    | none => invalid .invalidDefinition form
  else invalid .misplacedDefinition form

/-- The plan of a list that starts with a name, in the words of its other items: a special form, a
use of a transformer, or a call. -/
def ofKeyword (resolve : String → Option Binding) (context : Context) (form head : Datum)
    (keyword : String) (items : List Datum) : Except CompileError Plan :=
  let meaning? := fun name => (resolve name).map Binding.identity
  match keyword with
  | "quote" => match items with
    | [datum] => .ok (.literal datum)
    | _ => invalid .invalidExpression form
  | "quasiquote" => match items with
    | [template] => .ok (.quasi template)
    | _ => invalid .invalidExpression form
  | "if" => match items with
    | [condition, consequent] => .ok (.conditional condition consequent none)
    | [condition, consequent, alternate] =>
      .ok (.conditional condition consequent (some alternate))
    | _ => invalid .invalidExpression form
  | "begin" => match items with
    | [] => .ok .nothing
    | first :: others => .ok (.sequence first others)
  | "lambda" => do
    let (formals, body) ← parts form items
    return .lambda formals body
  | "set!" => match items with
    | [target, value] => match target.symbol? with
      | some name => named .notAVariable target (.assignment · value)
          (·.expandAssignment meaning? form) (resolve name)
      | none => invalid .notAVariable target
    | _ => invalid .invalidExpression form
  | "define" => defining form context <| match items with
    | target :: rest => some (.definition target rest)
    | [] => none
  | "define-syntax" => defining form context <| match items with
    | [.atom (.symbol name) _, spec] => some (.transformer name spec)
    | _ => none
  | "let-syntax" => withTransformers form false items
  | "letrec-syntax" => withTransformers form true items
  | name => match resolve name with
    | some (.transformer rules) => do
      return .expansion (← rules.kind.expand meaning? form) true
    | _ => .ok (.call head items)

/-- The plan of a form, by what names mean where it stands. -/
def ofDatum (resolve : String → Option Binding) (context : Context) (form : Datum) :
    Except CompileError Plan :=
  match form with
  | .atom (.symbol name) _ => named .invalidExpression form .reference
      (·.expand (fun name => (resolve name).map Binding.identity) form) (resolve name)
  | .atom _ _ => .ok (.literal form)
  | .vector _ _ => .ok (.literal form)
  | .dotted _ _ _ => invalid .invalidExpression form
  | .list [] _ => invalid .invalidExpression form
  | .list (head :: items) _ => match head.symbol? with
    | some keyword => ofKeyword resolve context form head keyword items
    | none => .ok (.call head items)

end Plan

end MiniScheme.Compiler
