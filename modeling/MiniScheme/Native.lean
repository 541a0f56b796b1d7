import MiniScheme.Store

/-!
# Native procedures

A native procedure takes evaluated arguments and acts on the store. It may answer later: no value
means that the application will supply the result when it has it.
-/

namespace MiniScheme

/-- A procedure that is not compiled from a script. -/
structure Native where
  name : String
  arity : Arity
  run : List Value → StoreM (Option Value)

namespace Native

/-- A native that always answers at once. -/
def prompt (name : String) (required : Nat) (variadic : Bool)
    (action : List Value → StoreM Value) : Native :=
  { name, arity := { required, variadic }, run := fun arguments => some <$> action arguments }

/-- A native whose result is supplied later. -/
def deferred (name : String) (arity : Arity) : Native :=
  { name, arity, run := fun _ => pure none }

/-- A native that fails in the application's words. -/
def failing (name : String) (arity : Arity) (message : String) : Native :=
  { name, arity, run := fun _ => throw (.host message) }

end Native

end MiniScheme
