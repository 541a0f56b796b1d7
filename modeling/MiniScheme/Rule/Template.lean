import MiniScheme.Rule.Match

/-!
# Templates

The right-hand side of a rule. A template is checked against the pattern's variables when it is
read: no variable may be used under fewer ellipses than it was bound under, and every ellipsis
needs a variable to drive it. Instantiating it puts the bindings in place of the variables.
-/

namespace MiniScheme

mutual

/-- What a form is replaced by. -/
inductive Template where
  | verbatim (form : Datum)
  /-- The form that a pattern variable is bound to. -/
  | variable (place : Nat)
  | list (elements : List Subtemplate) (tail : Option Template)
  | vector (elements : List Subtemplate)

/-- An element followed by any number of ellipses, with the group that drives each, outermost
first. -/
inductive Subtemplate where
  | mk (template : Template) (groups : List Group)

end

instance : Inhabited Template := ⟨.vector []⟩

namespace Template

mutual

/-- The places of the pattern variables in a template, as often as they occur. -/
def places (vars : PatternVariables) : Datum → List Nat
  | .atom (.symbol name) _ => (vars.place? name).toList
  | .atom _ _ => []
  | .list items _ => itemPlaces vars items
  | .dotted items tail _ => itemPlaces vars items ++ places vars tail
  | .vector items _ => itemPlaces vars items

/-- The places of the pattern variables in a run of templates. -/
def itemPlaces (vars : PatternVariables) : List Datum → List Nat
  | [] => []
  | item :: items => places vars item ++ itemPlaces vars items

end

/-- The group that drives an ellipsis at a level: that of the first variable repeated so deep. -/
def driver? (vars : PatternVariables) (used : List Nat) (level : Nat) : Option Group :=
  used.findSome? fun place => (vars.groups place)[level]?

/-- The groups that drive the ellipses behind a template. -/
def drivers (vars : PatternVariables) (item : Datum) (depth ellipses : Nat) :
    Except CompileError (List Group) :=
  let used := places vars item
  (List.range' depth ellipses).mapM fun level =>
    match driver? vars used level with
    | some group => .ok group
    | none => .error { fault := .invalidTemplate, position := item.position }

/-- Whether a datum is an ellipsis that is not escaped. -/
def isMark (escaped : Bool) (datum : Datum) : Bool :=
  !escaped && datum.isSymbol ellipsis

mutual

/-- Reads a template that is `depth` ellipses deep. In an escaped template an ellipsis is a name
like any other. -/
def ofDatum (vars : PatternVariables) (depth : Nat) (escaped : Bool) :
    Datum → Except CompileError Template
  | .atom (.symbol name) position => match vars.place? name with
    | some place =>
      if (vars.groups place).length ≤ depth then .ok (.variable place)
      else .error { fault := .invalidTemplate, position }
    | none =>
      if name = ellipsis && !escaped then .error { fault := .invalidTemplate, position }
      else .ok (.verbatim (.ofSymbol name position))
  | .atom value position => .ok (.verbatim (.atom value position))
  | .list [first, inner] _ =>
    if isMark escaped first then ofDatum vars depth true inner
    else return .list (← ofItems vars depth escaped false [first, inner]) none
  | .list items position => do
    if items.head?.any (isMark escaped) then throw { fault := .invalidTemplate, position }
    return .list (← ofItems vars depth escaped false items) none
  | .dotted items tail position => do
    if items.head?.any (isMark escaped) then throw { fault := .invalidTemplate, position }
    let elements ← ofItems vars depth escaped false items
    return .list elements (some (← ofDatum vars depth escaped tail))
  | .vector items position => do
    if items.head?.any (isMark escaped) then throw { fault := .invalidTemplate, position }
    return .vector (← ofItems vars depth escaped false items)

/-- Reads the elements of a list or vector. Ellipses belong to the element before them; `skip`
tells that there is one. -/
def ofItems (vars : PatternVariables) (depth : Nat) (escaped skip : Bool) :
    List Datum → Except CompileError (List Subtemplate)
  | [] => .ok []
  | item :: items =>
    if skip && isMark escaped item then ofItems vars depth escaped true items
    else do
      let ellipses := (items.takeWhile (isMark escaped)).length
      let groups ← drivers vars item depth ellipses
      let template ← ofDatum vars (depth + ellipses) escaped item
      return .mk template groups :: (← ofItems vars depth escaped true items)

end

/-- What the pattern variables are bound to at some point of an instantiation. -/
abbrev Bindings := List (Option Match)

/-- The bindings of one repetition of a group. -/
def Bindings.focus (bindings : Bindings) (group : Group) (repetition : Nat) : Bindings :=
  bindings.mapIdx fun place binding =>
    if group.start ≤ place && place < group.start + group.count then
      match binding with
      | some (.sequence repetitions) => repetitions[repetition]?
      | other => other
    else binding

/-- Instantiates an element for every combination of repetitions of its groups. The first variable
of a group tells how often it repeats. -/
def repeatOver (position : Position) (make : Bindings → Except CompileError Datum) :
    List Group → Bindings → Except CompileError (List Datum)
  | [], bindings => do return [← make bindings]
  | group :: groups, bindings => match bindings[group.start]? with
    | some (some (.sequence repetitions)) => do
      let parts ← (List.range repetitions.length).mapM fun repetition =>
        repeatOver position make groups (bindings.focus group repetition)
      return parts.flatten
    | _ => .error { fault := .invalidTemplate, position }

mutual

/-- Puts bindings in place of the variables. New lists and vectors get the position of the form
that is being replaced. -/
def instantiate (position : Position) : Template → Bindings → Except CompileError Datum
  | .verbatim form, _ => .ok form
  | .variable place, bindings => match bindings[place]? with
    | some (some (.single form)) => .ok form
    | _ => .error { fault := .invalidTemplate, position }
  | .list elements none, bindings => do
    return .list (← instantiateAll position elements bindings) position
  | .list elements (some tail), bindings => do
    let items ← instantiateAll position elements bindings
    return .withTail items (← instantiate position tail bindings) position
  | .vector elements, bindings => do
    return .vector (← instantiateAll position elements bindings) position

/-- Instantiates the elements of a list or vector. -/
def instantiateAll (position : Position) :
    List Subtemplate → Bindings → Except CompileError (List Datum)
  | [], _ => .ok []
  | .mk template groups :: elements, bindings => do
    let first ← repeatOver position (fun bindings => instantiate position template bindings) groups
      bindings
    return first ++ (← instantiateAll position elements bindings)

end

end Template

end MiniScheme
