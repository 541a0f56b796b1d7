import MiniScheme.Rule.Pattern

/-!
# Matching

Matches a form against a pattern. A match answers with what the pattern's variables are bound to,
in their order: a form, or under an ellipsis a sequence of what the repetitions bind it to.
Matching looks up names in the scope of the form to tell literals from other names.
-/

namespace MiniScheme

/-- What a pattern variable is bound to. -/
inductive Match where
  | single (form : Datum)
  | sequence (repetitions : List Match)
  deriving Inhabited

/-- Turns the bindings of each repetition into a sequence for each of `width` variables. -/
def Match.columns (width : Nat) (repetitions : List (List Match)) : List Match :=
  (repetitions.foldr (List.zipWith List.cons) (List.replicate width [])).map .sequence

namespace Pattern

mutual

/-- What the variables of a pattern are bound to by a form. -/
def bindings? (meaning? : String → Option Identity) : Pattern → Datum → Option (List Match)
  | .constant value, form => match form with
    | .atom other _ => if other == value then some [] else none
    | _ => none
  | .anything, _ => some []
  | .variable, form => some [.single form]
  | .bound identity, form => match form.symbol? with
    | some name => if meaning? name = some identity then some [] else none
    | none => none
  | .free name, form => if form.isSymbol name && (meaning? name).isNone then some [] else none
  | .list shape, form => match form.elements? with
    | some (items, tail) => shapeBindings? meaning? shape items tail form.position
    | none => none
  | .vector shape, form => match form with
    | .vector items position => shapeBindings? meaning? shape items none position
    | _ => none

/-- What the variables of a list pattern are bound to by the items and the tail of a list. -/
def shapeBindings? (meaning? : String → Option Identity) :
    Shape → List Datum → Option Datum → Position → Option (List Match)
  | .mk front repeated back rest, items, tail, position =>
    let fixed := front.length + back.length
    if items.length < fixed || (rest.isNone && tail.isSome) then none
    else do
      let first ← allBindings? meaning? front items
      let others := items.drop front.length
      let ending := tail.getD (.list [] position)
      match repeated with
      | none =>
        let last ← restBindings? meaning? rest (.withTail others ending position) others.isEmpty
        return first ++ last
      | some repetition =>
        let repeats := others.take (items.length - fixed)
        let columns ← repetitionBindings? meaning? repetition repeats
        let second ← allBindings? meaning? back (others.drop (items.length - fixed))
        let last ← restBindings? meaning? rest ending true
        return first ++ columns ++ second ++ last

/-- What the variables of several patterns are bound to, each by its own form. Surplus forms are
left alone. -/
def allBindings? (meaning? : String → Option Identity) :
    List Pattern → List Datum → Option (List Match)
  | [], _ => some []
  | _ :: _, [] => none
  | pattern :: patterns, form :: forms => do
    let first ← bindings? meaning? pattern form
    let others ← allBindings? meaning? patterns forms
    return first ++ others

/-- What the variables of a repeated pattern are bound to by any number of forms. -/
def repetitionBindings? (meaning? : String → Option Identity) :
    Repetition → List Datum → Option (List Match)
  | .mk pattern width, forms => do
    return Match.columns width (← forms.mapM fun form => bindings? meaning? pattern form)

/-- What the variables behind a dot are bound to by what is left of a list. Without such a pattern
nothing may be left. -/
def restBindings? (meaning? : String → Option Identity) :
    Option Pattern → Datum → Bool → Option (List Match)
  | some pattern, form, _ => bindings? meaning? pattern form
  | none, _, finished => if finished then some [] else none

end

end Pattern

end MiniScheme
