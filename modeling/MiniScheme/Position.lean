/-!
# Places in source text

A `Location` is a character offset together with the line it falls on. A `Position` is a location
in a known source; it renders in a compact form for backtraces and in an expanded form that shows
the offending line with a caret under the column.
-/

namespace MiniScheme

/-- A character offset, its zero-based line, and the offset of that line's first character. -/
structure Location where
  index : Nat := 0
  line : Nat := 0
  lineStart : Nat := 0
  deriving DecidableEq, Repr, Inhabited

namespace Location

/-- The location after one more character. -/
def after (location : Location) (c : Char) : Location :=
  if c = '\n' then
    { index := location.index + 1, line := location.line + 1, lineStart := location.index + 1 }
  else { location with index := location.index + 1 }

/-- The location after a run of characters. -/
def afterAll (location : Location) (text : List Char) : Location :=
  text.foldl after location

def column (location : Location) : Nat :=
  location.index - location.lineStart

end Location

/-- A piece of source text and the name it goes by, if any. -/
structure Source where
  text : String
  name : Option String := none
  deriving DecidableEq, Repr, Inhabited

/-- A source of more than one line is addressed by line and column, any other by column alone. -/
def Source.isMultiline (source : Source) : Bool :=
  source.text.contains '\n'

/-- A location in a source. The default position belongs to no source. -/
structure Position where
  source : Option Source := none
  location : Location := {}
  deriving DecidableEq, Repr, Inhabited

namespace Position

/-- The name of the source, if it has one. -/
def sourceName (position : Position) : Option String :=
  position.source.bind Source.name

/-- Whether the line number tells anything. -/
def isMultiline (position : Position) : Bool :=
  position.source.any Source.isMultiline

/-- The characters of the line the position is on, from its first character to its end. -/
def lineText (position : Position) : List Char :=
  match position.source with
  | none => []
  | some source => (source.text.toList.drop position.location.lineStart).takeWhile (· != '\n')

/-- `source:line:column`, counted from one; the source and the line only where they are known. -/
def compact (position : Position) : String :=
  let source := match position.sourceName with
    | some name => name ++ ":"
    | none => ""
  let line := if position.isMultiline then toString (position.location.line + 1) ++ ":" else ""
  source ++ line ++ toString (position.location.column + 1)

/-- A heading with the same facts in words, the line itself, and a caret under the column. -/
def expanded (position : Position) : String :=
  let multiline := position.isMultiline
  let source := match position.sourceName with
    | some name => name ++ ", "
    | none => ""
  let line := if multiline then "line " ++ toString (position.location.line + 1) ++ ", " else ""
  let heading :=
    if position.sourceName.isSome || multiline then
      source ++ line ++ "column " ++ toString (position.location.column + 1) ++ ":\n"
    else ""
  heading ++ String.ofList position.lineText ++ "\n" ++
    String.ofList (List.replicate position.location.column ' ') ++ "^\n"

end Position

end MiniScheme
