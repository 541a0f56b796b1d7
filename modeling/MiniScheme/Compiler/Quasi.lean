import MiniScheme.Datum

/-!
# Quasiquotation

A quasiquoted template is first turned into a plan: constants, forms to evaluate, and calls of
standard procedures that put them together. Unquoting applies to the innermost quasiquotation
that encloses it; `depth` counts those in between.
-/

namespace MiniScheme

/-- How to build the value of a quasiquoted template. -/
inductive Quasi where
  /-- The template itself is the value. -/
  | constant (template : Datum)
  /-- The value of an unquoted form. -/
  | evaluate (form : Datum)
  /-- The empty list, which makes the list before it a copy. -/
  | nothing
  /-- The values put together by a standard procedure. -/
  | call (procedure : String) (position : Position) (arguments : List Quasi)
  /-- A template without a value. -/
  | invalid (position : Position)
  deriving Inhabited

namespace Quasi

/-- The name that stands before an unquoted form. -/
def unquote : String := "unquote"

/-- The name that stands before a form of which the elements are put in place. -/
def unquoteSplicing : String := "unquote-splicing"

/-- The name that stands before a template. -/
def quasiquote : String := "quasiquote"

/-- `(a b unquote c)` is how `(a b . ,c)` is read: the items before the mark, the mark and the
operand. -/
def unquotedTail? : List Datum → Option (List Datum × Datum × Datum)
  | first :: second :: third :: items => match items with
    | [] => if second.isSymbol unquote then some ([first], second, third) else none
    | _ => (unquotedTail? (second :: third :: items)).map fun (front, mark, operand) =>
      (first :: front, mark, operand)
  | _ => none

/-- What a template starts with, if it is a name and one operand. -/
inductive Mark where
  | unquote
  | unquoteSplicing
  | quasiquote
  deriving DecidableEq, Repr

def mark? (name : String) : Option Mark :=
  if name = unquote then some .unquote
  else if name = unquoteSplicing then some .unquoteSplicing
  else if name = quasiquote then some .quasiquote
  else none

mutual

/-- Whether nothing in a template is to be evaluated. -/
def isConstant (depth : Nat) : Datum → Bool
  | .list [.atom (.symbol name) _, operand] _ => match mark? name with
    | some .quasiquote => isConstant (depth + 1) operand
    | some _ => match depth with
      | 0 => false
      | depth + 1 => isConstant depth operand
    | none => isConstant depth operand
  | .list items _ => !(depth == 0 && (unquotedTail? items).isSome) && areConstant depth items
  | .dotted items tail _ => areConstant depth items && isConstant depth tail
  | .vector items _ => areConstant depth items
  | .atom _ _ => true

def areConstant (depth : Nat) : List Datum → Bool
  | [] => true
  | item :: items => isConstant depth item && areConstant depth items

end

/-- The form of which the elements are put in place. -/
def splice? : Datum → Option Datum
  | .list [.atom (.symbol name) _, operand] _ =>
    if mark? name = some .unquoteSplicing then some operand else none
  | _ => none

/-- A part of a list: elements as they are, or a form that yields some. -/
inductive Part where
  | element (plan : Quasi)
  | splice (form : Datum)

/-- An item of a list or vector, given its plan. Only at depth zero are splices put in place. -/
def Part.of (depth : Nat) (item : Datum) (plan : Quasi) : Part :=
  match depth, splice? item with
  | 0, some form => .splice form
  | _, _ => .element plan

/-- Joins runs of elements into lists. -/
def segments (position : Position) (run : List Quasi) : List Part → List Quasi
  | [] => if run.isEmpty then [] else [.call "list" position run.reverse]
  | .element plan :: parts => segments position (plan :: run) parts
  | .splice form :: parts =>
    (if run.isEmpty then [] else [.call "list" position run.reverse]) ++
      .evaluate form :: segments position [] parts

def Part.isSplice : Part → Bool
  | .splice _ => true
  | .element _ => false

/-- The plan of a list. Without splices and tail it is one call; otherwise runs of elements,
splices and the tail are joined. Ending on the empty list makes copies of all splices. -/
def join (position : Position) (parts : List Part) (tail : Option Quasi) : Quasi :=
  match tail with
  | none =>
    if parts.any Part.isSplice then
      .call "append" position (segments position [] parts ++ [.nothing])
    else .call "list" position (parts.filterMap fun
      | .element plan => some plan
      | .splice _ => none)
  | some tail => .call "append" position (segments position [] parts ++ [tail])

mutual

def ofDatum (depth : Nat) : Datum → Quasi
  | .list [.atom (.symbol name) headPosition, operand] position =>
    let head := .atom (.symbol name) headPosition
    if isConstant depth (.list [head, operand] position) then
      .constant (.list [head, operand] position)
    else match mark? name, depth with
      | some .unquote, 0 => .evaluate operand
      | some .unquoteSplicing, 0 => .invalid position
      | some .quasiquote, depth =>
        .call "list" position [.constant head, ofDatum (depth + 1) operand]
      | some _, depth + 1 => .call "list" position [.constant head, ofDatum depth operand]
      | none, depth =>
        join position [.element (.constant head), .of depth operand (ofDatum depth operand)] none
  | .list items position =>
    if isConstant depth (.list items position) then .constant (.list items position)
    else match unquotedTail? items with
      | none => join position (ofItems depth items) none
      | some (front, mark, operand) =>
        let parts := (ofItems depth items).take front.length
        let tail := .list [mark, operand] mark.position
        join position parts (some
          (if isConstant depth tail then .constant tail
          else match depth with
            | 0 => .evaluate operand
            | depth + 1 => .call "list" mark.position [.constant mark, lastPlan depth items]))
  | .dotted items tail position =>
    if isConstant depth (.dotted items tail position) then .constant (.dotted items tail position)
    else join position (ofItems depth items) (some (ofDatum depth tail))
  | .vector items position =>
    if isConstant depth (.vector items position) then .constant (.vector items position)
    else .call "list->vector" position [join position (ofItems depth items) none]
  | .atom value position => .constant (.atom value position)

def ofItems (depth : Nat) : List Datum → List Part
  | [] => []
  | item :: items => Part.of depth item (ofDatum depth item) :: ofItems depth items

def lastPlan (depth : Nat) : List Datum → Quasi
  | [] => .nothing
  | [item] => ofDatum depth item
  | _ :: items => lastPlan depth items

end

end Quasi

end MiniScheme
