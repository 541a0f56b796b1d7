import MiniScheme.Error

/-!
# Patterns

The left-hand side of a rule. A pattern binds its variables in the order in which they are
written, so a variable is known by its place in that order. The variables under one ellipsis are
a contiguous group of places.
-/

namespace MiniScheme

def ellipsis : String := "..."

/-- The name of the pattern that matches anything. -/
def wildcard : String := "_"

/-- What tells one definition from another, wherever the two are seen from. -/
inductive Identity where
  | slot (scope index : Nat)
  | transformer (id : Nat)
  | keyword (name : String)
  deriving DecidableEq, Repr, Inhabited

/-- The contiguous variables under one ellipsis. -/
structure Group where
  start : Nat
  count : Nat
  deriving DecidableEq, Repr, Inhabited

mutual

/-- What a form has to look like. -/
inductive Pattern where
  | constant (value : Atom)
  /-- Matches anything and binds nothing. -/
  | anything
  /-- Matches anything and binds it. -/
  | variable
  /-- A name with that meaning. -/
  | bound (identity : Identity)
  /-- That very name, without a meaning. -/
  | free (name : String)
  | list (shape : Shape)
  | vector (shape : Shape)

/-- `(front ... repeated <ellipsis> back ... . rest)` -/
inductive Shape where
  | mk (front : List Pattern) (repeated : Option Repetition) (back : List Pattern)
      (rest : Option Pattern)

/-- A pattern under an ellipsis, and how many variables it has. -/
inductive Repetition where
  | mk (pattern : Pattern) (width : Nat)

end

instance : Inhabited Pattern := ⟨.anything⟩

/-- A pattern variable and the groups that it repeats under, outermost first. -/
structure PatternVariable where
  name : String
  groups : List Group := []
  deriving DecidableEq, Repr, Inhabited

/-- The variables of a pattern in their order. -/
abbrev PatternVariables := List PatternVariable

namespace PatternVariables

def place? (vars : PatternVariables) (name : String) : Option Nat :=
  vars.findIdx? fun entry => entry.name == name

def groups (vars : PatternVariables) (place : Nat) : List Group :=
  match vars[place]? with
  | some entry => entry.groups
  | none => []

/-- Puts the variables from a place on under one more ellipsis. -/
def enclose (vars : PatternVariables) (start : Nat) : PatternVariables :=
  let group : Group := { start, count := vars.length - start }
  vars.take start ++ (vars.drop start).map fun entry =>
    { entry with groups := group :: entry.groups }

end PatternVariables

/-- The patterns of the names that a transformer declares as literals. -/
abbrev Literals := List (String × Pattern)

namespace Pattern

/-- Reading a pattern gathers its variables, and can fail. -/
abbrev ReaderM := StateT PatternVariables (Except CompileError)

/-- Reads a name: a literal, a mark, or a new variable. -/
def ofSymbol (literals : Literals) (name : String) (position : Position) : ReaderM Pattern := do
  match literals.lookup name with
  | some literal => return literal
  | none =>
    if name = wildcard then return .anything
    if name = ellipsis then throw { fault := .invalidPattern, position }
    let vars ← get
    if (vars.place? name).isSome then throw { fault := .duplicateVariable, position }
    set (vars ++ [{ name := name }])
    return .variable

mutual

def ofDatum (literals : Literals) : Datum → ReaderM Pattern
  | .atom (.symbol name) position => ofSymbol literals name position
  | .atom value _ => return .constant value
  | .list items position => do
    let (front, repeated, back) ← ofItems literals position items
    return .list (.mk front repeated back none)
  | .dotted items tail position => do
    let (front, repeated, back) ← ofItems literals position items
    let rest ← ofDatum literals tail
    return .list (.mk front repeated back (some rest))
  | .vector items position => do
    let (front, repeated, back) ← ofItems literals position items
    return .vector (.mk front repeated back none)

/-- Reads the items of the list or vector at a position up to its ellipsis, if it has one, and then
those behind it. -/
def ofItems (literals : Literals) (position : Position) :
    List Datum → ReaderM (List Pattern × Option Repetition × List Pattern)
  | [] => return ([], none, [])
  | [item] => return ([← ofDatum literals item], none, [])
  | item :: mark :: items => do
    if mark.isSymbol ellipsis then
      let start := (← get).length
      let pattern ← ofDatum literals item
      let width := (← get).length - start
      modify fun vars => vars.enclose start
      return ([], some (.mk pattern width), ← ofBack literals position items)
    else
      let first ← ofDatum literals item
      let (front, repeated, back) ← ofItems literals position (mark :: items)
      return (first :: front, repeated, back)

/-- Reads the items behind an ellipsis, where no other ellipsis may follow. -/
def ofBack (literals : Literals) (position : Position) : List Datum → ReaderM (List Pattern)
  | [] => return []
  | [item] => return [← ofDatum literals item]
  | item :: mark :: items => do
    if mark.isSymbol ellipsis then throw { fault := .invalidPattern, position }
    let first ← ofDatum literals item
    return first :: (← ofBack literals position (mark :: items))

end

end Pattern

end MiniScheme
