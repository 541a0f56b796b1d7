import MiniScheme.Stdlib.Arguments

/-!
# Characters, strings and symbols

Strings are immutable and counted in characters. Every procedure that yields a string yields a new
one.
-/

namespace MiniScheme.Stdlib

def charToInteger : List Value → Except Fault Value :=
  unary fun argument => do return .integer (Int64.ofNat (← character argument).toNat)

def integerToChar : List Value → Except Fault Value :=
  unary fun argument => do
    let code := (← integer argument).toInt
    if 0 ≤ code ∧ code.toNat.isValidChar then return .character (Char.ofNat code.toNat)
    else throw .invalidArgument

/-- A string of equal characters, blanks if none is given. -/
def makeString : List Value → Except Fault String :=
  leading fun size fill => do
    let size ← count size
    match fill with
    | [] => return String.ofList (List.replicate size ' ')
    | [fill] => return String.ofList (List.replicate size (← character fill))
    | _ => throw .invalidArgument

def stringOf (arguments : List Value) : Except Fault String := do
  return String.ofList (← arguments.mapM character)

def stringLength : List Value → Except Fault Value :=
  unary fun argument => do return .integer (Int64.ofNat (← text argument).length)

def stringRef : List Value → Except Fault Value :=
  binary fun string place => do
    let content := (← text string).toList
    return .character content[← index content.length place]

/-- The characters of a string between two places, both within the string. -/
def slice (content : List Char) (start stop : Option Value) : Except Fault String := do
  let place := fun (value : Option Value) (absent : Fin (content.length + 1)) =>
    value.elim (.ok absent) (index (content.length + 1))
  let start ← place start 0
  let stop ← place stop (Fin.last _)
  if start ≤ stop then return String.ofList ((content.drop start).take (stop - start))
  else throw .invalidIndex

/-- A part of a string; without places, all of it. -/
def stringPart : List Value → Except Fault String :=
  leading fun string places => do
    let content := (← text string).toList
    match places with
    | [] => slice content none none
    | [start] => slice content (some start) none
    | [start, stop] => slice content (some start) (some stop)
    | _ => throw .invalidArgument

def stringAppend (arguments : List Value) : Except Fault String := do
  return String.join (← arguments.mapM text)

def stringToList : List Value → Except Fault (List Value) :=
  unary fun argument => do return (← text argument).toList.map .character

def listToString (heap : Heap) : List Value → Except Fault String :=
  unary fun argument => do stringOf (← elements heap argument)

def symbolToString : List Value → Except Fault String :=
  unary symbol

def stringToSymbol : List Value → Except Fault Value :=
  unary fun argument => do return .symbol (← text argument)

end MiniScheme.Stdlib
