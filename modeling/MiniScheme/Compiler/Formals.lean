import MiniScheme.Error

/-!
# Formal arguments

The arguments of a procedure are a list of distinct names, of which one behind a dot takes the
rest. A single name takes all arguments.
-/

namespace MiniScheme

/-- The names of a procedure's arguments. -/
structure Formals where
  fixed : List String
  rest : Option String := none
  deriving DecidableEq, Repr, Inhabited

namespace Formals

/-- All names, in the order of their slots. -/
def names (formals : Formals) : List String :=
  formals.fixed ++ formals.rest.toList

/-- The name of a single argument. -/
def argument (datum : Datum) : Except CompileError String :=
  match datum.symbol? with
  | some name => .ok name
  | none => .error { fault := .invalidArgument, position := datum.position }

def hasDuplicate : List String → Bool
  | [] => false
  | name :: names => names.contains name || hasDuplicate names

def ofDatum (datum : Datum) : Except CompileError Formals := do
  let formals ← match datum with
    | .atom (.symbol name) _ => return { fixed := [], rest := some name }
    | .list items _ => pure { fixed := ← items.mapM argument }
    | .dotted items tail _ => match tail.symbol? with
      | some rest => pure { fixed := ← items.mapM argument, rest := some rest }
      | none => throw { fault := .invalidFormals, position := datum.position }
    | _ => throw { fault := .invalidFormals, position := datum.position }
  if hasDuplicate formals.names then
    throw { fault := .duplicateArgument, position := datum.position }
  return formals

end Formals

end MiniScheme
