import MiniScheme.Datum
import MiniScheme.Token.Lexer

/-!
# From tokens to data

Reading goes through the tokens once. What has been opened and not yet closed is kept on a stack
of levels, innermost first; every finished datum is handed to the innermost level. The number of
levels is the nesting depth, and no datum may start at depth `maxDepth`.
-/

namespace MiniScheme

/-- Why a text could not be read, and where. -/
inductive ReadError where
  | unexpectedEnd (location : Location)
  | malformedList (location : Location)
  | unexpectedToken (location : Location)
  | invalidByte (location : Location)
  | tooDeep (location : Location)
  | token (error : TokenError)
  deriving DecidableEq, Repr, Inhabited

namespace ReadError

def location : ReadError → Location
  | .unexpectedEnd location => location
  | .malformedList location => location
  | .unexpectedToken location => location
  | .invalidByte location => location
  | .tooDeep location => location
  | .token error => error.location

def message : ReadError → String
  | .unexpectedEnd _ => "Unexpected end of input."
  | .malformedList _ => "Malformed list."
  | .unexpectedToken _ => "Unexpected token."
  | .invalidByte _ => "Byte vector elements must be integers in 0..255."
  | .tooDeep _ => "Expression too deeply nested."
  | .token error => error.fault.message

end ReadError

namespace Reader

/-- The depth at which no datum may start any more. -/
def maxDepth : Nat := 512

/-- Something opened and not yet closed. Items are kept last one first. -/
inductive Level where
  | list (start : Location) (items : List Datum)
  /-- A list whose dot has been read, and possibly its tail. -/
  | dotted (start : Location) (items : List Datum) (tail : Option Datum)
  | vector (start : Location) (items : List Datum)
  | bytes (start : Location) (items : List Datum)
  /-- A quotation mark that waits for its datum. -/
  | mark (start : Location) (keyword : String)
  /-- A datum comment that waits for the datum it drops. -/
  | comment (start : Location)
  deriving Repr, Inhabited

def Level.start : Level → Location
  | .list start _ => start
  | .dotted start _ _ => start
  | .vector start _ => start
  | .bytes start _ => start
  | .mark start _ => start
  | .comment start => start

/-- The open levels and the data finished outside of any, both last one first. -/
structure State where
  levels : List Level := []
  data : List Datum := []
  deriving Repr, Inhabited

/-- Hands a finished datum to the innermost level. Marks and comments are thereby finished too. -/
def deliver (source : Source) (data : List Datum) : List Level → Datum → State
  | [], datum => { levels := [], data := datum :: data }
  | .list start items :: outer, datum =>
    { levels := .list start (datum :: items) :: outer, data }
  | .dotted start items _ :: outer, datum =>
    { levels := .dotted start items (some datum) :: outer, data }
  | .vector start items :: outer, datum =>
    { levels := .vector start (datum :: items) :: outer, data }
  | .bytes start items :: outer, datum =>
    { levels := .bytes start (datum :: items) :: outer, data }
  | .mark start keyword :: outer, datum =>
    let position := { source := some source, location := start }
    deliver source data outer (.list [.ofSymbol keyword position, datum] position)
  | .comment _ :: outer, _ => { levels := outer, data }

/-- The byte that a datum stands for. -/
def byte? : Datum → Option UInt8
  | .atom (.integer value) _ =>
    if 0 ≤ value.toInt ∧ value.toInt ≤ 255 then some (UInt8.ofNat value.toInt.toNat) else none
  | _ => none

/-- Starts a datum: finishes it if it is an atom, opens a level otherwise. -/
def start (source : Source) (state : State) (token : Token) : Except ReadError State :=
  let atom := fun (value : Atom) =>
    deliver source state.data state.levels
      (.atom value { source := some source, location := token.location })
  let opening := fun (level : Level) => { state with levels := level :: state.levels }
  match token.kind with
  | .boolean value => .ok (atom (.boolean value))
  | .integer value => .ok (atom (.integer value))
  | .float value => .ok (atom (.float value))
  | .character value => .ok (atom (.character value))
  | .string value => .ok (atom (.string value))
  | .identifier name => .ok (atom (.symbol name))
  | .openList => .ok (opening (.list token.location []))
  | .openVector => .ok (opening (.vector token.location []))
  | .openBytes => .ok (opening (.bytes token.location []))
  | .quoteMark => .ok (opening (.mark token.location "quote"))
  | .backQuote => .ok (opening (.mark token.location "quasiquote"))
  | .comma => .ok (opening (.mark token.location "unquote"))
  | .commaAt => .ok (opening (.mark token.location "unquote-splicing"))
  | .datumComment => .ok (opening (.comment token.location))
  | .close => .error (.unexpectedToken token.location)
  | .dot => .error (.unexpectedToken token.location)

/-- Starts a datum where one has to start, unless the depth forbids it. -/
def startWithin (source : Source) (state : State) (token : Token) : Except ReadError State :=
  if maxDepth ≤ state.levels.length then .error (.tooDeep token.location)
  else start source state token

/-- Reads one token. Closing tokens, dots and datum comments inside of a list or vector need no
room for a datum, so the depth does not matter to them. -/
def step (source : Source) (state : State) (token : Token) : Except ReadError State :=
  let finish := fun (outer : List Level) (opened : Location) (make : Position → Datum) =>
    deliver source state.data outer (make { source := some source, location := opened })
  match state.levels, token.kind with
  | .list opened items :: outer, .close =>
    .ok (finish outer opened (.list items.reverse))
  | .list opened (item :: items) :: outer, .dot =>
    .ok { state with levels := .dotted opened (item :: items) none :: outer }
  | .list _ [] :: _, .dot => .error (.malformedList token.location)
  | .dotted opened items (some tail) :: outer, .close =>
    .ok (finish outer opened (Datum.withTail items.reverse tail))
  | .dotted _ _ none :: _, .close => .error (.malformedList token.location)
  | .dotted _ _ _ :: _, .dot => .error (.malformedList token.location)
  | .vector opened items :: outer, .close =>
    .ok (finish outer opened (.vector items.reverse))
  | .bytes opened items :: outer, .close =>
    match items.reverse.mapM byte? with
    | some bytes => .ok (finish outer opened (.atom (.bytes bytes)))
    | none => .error (.invalidByte opened)
  | .list _ _ :: _, .datumComment => start source state token
  | .dotted _ _ _ :: _, .datumComment => start source state token
  | .vector _ _ :: _, .datumComment => start source state token
  | .bytes _ _ :: _, .datumComment => start source state token
  | .dotted _ _ (some _) :: _, _ => .error (.malformedList token.location)
  | _, _ => startWithin source state token

/-- Reads tokens as far as they go. The state on an error is the one before the offending token. -/
def run (source : Source) (state : State) :
    List (Except TokenError Token) → State × Option ReadError
  | [] => match state.levels with
    | [] => (state, none)
    | level :: _ => (state, some (.unexpectedEnd level.start))
  | .error error :: _ => (state, some (.token error))
  | .ok token :: rest => match step source state token with
    | .ok state => run source state rest
    | .error error => (state, some error)

end Reader

/-- The data of a text up to its end or its first error. -/
def readUpToError (source : Source) : List Datum × Option ReadError :=
  let (state, error) := Reader.run source {} (tokenize source.text)
  (state.data.reverse, error)

/-- The data of a text, all of which has to be readable. -/
def read (source : Source) : Except ReadError (List Datum) :=
  match readUpToError source with
  | (data, none) => .ok data
  | (_, some error) => .error error

end MiniScheme
