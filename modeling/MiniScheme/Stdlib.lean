import MiniScheme.Stdlib.Arithmetic
import MiniScheme.Stdlib.Strings
import MiniScheme.Stdlib.Lists
import MiniScheme.Stdlib.Hosts

/-!
# The standard procedures

One table of all of them. A native value is a place in the machine's registry, and the standard
procedures occupy its first places in the order of this table. Applying a procedure to a list and
capturing a continuation change the control state, so the machine does these itself and they are
values of their own kind.
-/

namespace MiniScheme.Stdlib

/-- Prints a value as text without quotes. -/
def display (store : Store) : List Value → Except Fault Effect :=
  unary fun argument => .ok (.print (store.heap.displayText argument))

/-- Ends a line of the output. -/
def newline (_ : Store) (_ : List Value) : Except Fault Effect :=
  .ok (.print "\n")

/-- Notes values in the journal. -/
def debug (store : Store) (arguments : List Value) : Except Fault Effect :=
  .ok (.note (" ".intercalate (arguments.map store.heap.writeText)))

def isPair : Value → Bool
  | .pair _ => true
  | _ => false

def isNull : Value → Bool
  | .emptyList => true
  | _ => false

def isVector : Value → Bool
  | .vector _ => true
  | _ => false

def isBytevector : Value → Bool
  | .bytes _ _ => true
  | _ => false

def isBoolean : Value → Bool
  | .boolean _ => true
  | _ => false

def isSymbol : Value → Bool
  | .symbol _ => true
  | _ => false

def isChar : Value → Bool
  | .character _ => true
  | _ => false

def isString : Value → Bool
  | .string _ _ => true
  | _ => false

/-- All standard procedures that are native. -/
def procedures : List Native := [
  .prompt "+" 0 true (compute (Number.fold Number.add (.integer 0))),
  .prompt "-" 1 true (compute (Number.foldFirst Number.sub (.integer 0))),
  .prompt "*" 0 true (compute (Number.fold Number.mul (.integer 1))),
  .prompt "/" 1 true (compute (Number.foldFirst Number.div (.integer 1))),
  .prompt "=" 1 true (chain Number.ofValue (Number.compare (· == ·) (· == ·))),
  .prompt "<" 1 true (chain Number.ofValue (Number.compare (· < ·) (· < ·))),
  .prompt ">" 1 true (chain Number.ofValue (Number.compare (· > ·) (· > ·))),
  .prompt "<=" 1 true (chain Number.ofValue (Number.compare (· ≤ ·) (· ≤ ·))),
  .prompt ">=" 1 true (chain Number.ofValue (Number.compare (· ≥ ·) (· ≥ ·))),
  .prompt "zero?" 1 false (compute isZero),
  .prompt "not" 1 false (predicate fun value => !value.isTrue),
  .prompt "boolean=?" 1 true (chain boolean (· == ·)),
  .prompt "eq?" 2 false (inspect (comparison identical)),
  .prompt "eqv?" 2 false (inspect (comparison identical)),
  .prompt "equal?" 2 false (inspect (comparison Heap.equal)),
  .prompt "char->integer" 1 false (compute charToInteger),
  .prompt "integer->char" 1 false (compute integerToChar),
  .prompt "char=?" 1 true (chain character (· == ·)),
  .prompt "char<?" 1 true (chain character (· < ·)),
  .prompt "char>?" 1 true (chain character (· > ·)),
  .prompt "char<=?" 1 true (chain character (· ≤ ·)),
  .prompt "char>=?" 1 true (chain character (· ≥ ·)),
  .prompt "make-string" 1 true (spell fun _ => makeString),
  .prompt "string" 0 true (spell fun _ => stringOf),
  .prompt "string-length" 1 false (compute stringLength),
  .prompt "string-ref" 2 false (compute stringRef),
  .prompt "string=?" 1 true (chain text (· == ·)),
  .prompt "string<?" 1 true (chain text (· < ·)),
  .prompt "string>?" 1 true (chain text (· > ·)),
  .prompt "string<=?" 1 true (chain text (· ≤ ·)),
  .prompt "string>=?" 1 true (chain text (· ≥ ·)),
  .prompt "substring" 3 false (spell fun _ => stringPart),
  .prompt "string-append" 0 true (spell fun _ => stringAppend),
  .prompt "string->list" 1 false (enlist fun _ => stringToList),
  .prompt "list->string" 1 false (spell listToString),
  .prompt "string-copy" 1 true (spell fun _ => stringPart),
  .prompt "number->string" 1 false (spell numberToString),
  .prompt "string->number" 1 false (compute stringToNumber),
  .prompt "symbol->string" 1 false (spell fun _ => symbolToString),
  .prompt "string->symbol" 1 false (compute stringToSymbol),
  .prompt "symbol=?" 1 true (chain symbol (· == ·)),
  .prompt "cons" 2 false (perform cons),
  .prompt "car" 1 false (inspect car),
  .prompt "cdr" 1 false (inspect cdr),
  .prompt "set-car!" 2 false (perform (setPair .car)),
  .prompt "set-cdr!" 2 false (perform (setPair .cdr)),
  .prompt "list" 0 true (enlist fun _ => .ok),
  .prompt "append" 0 true (perform append),
  .prompt "length" 1 false (inspect length),
  .prompt "reverse" 1 false (enlist reversed),
  .prompt "list-tail" 2 false (inspect listTail),
  .prompt "list-ref" 2 false (inspect listRef),
  .prompt "memq" 2 false (inspect (member identical)),
  .prompt "memv" 2 false (inspect (member identical)),
  .prompt "member" 2 false (inspect (member Heap.equal)),
  .prompt "assq" 2 false (inspect (association identical)),
  .prompt "assv" 2 false (inspect (association identical)),
  .prompt "assoc" 2 false (inspect (association Heap.equal)),
  .prompt "make-vector" 1 true (envector fun _ => makeVector),
  .prompt "vector" 0 true (envector fun _ arguments => .ok arguments.toArray),
  .prompt "vector-length" 1 false (inspect vectorLength),
  .prompt "vector-ref" 2 false (inspect vectorRef),
  .prompt "vector-set!" 3 false (perform vectorSet),
  .prompt "vector->list" 1 false (enlist vectorToList),
  .prompt "list->vector" 1 false (envector listToVector),
  .prompt "vector-fill!" 2 false (perform vectorFill),
  .prompt "vector-append" 0 true (envector vectorAppend),
  .prompt "bytevector" 0 true (perform bytevector),
  .prompt "bytevector-length" 1 false (compute bytevectorLength),
  .prompt "bytevector-u8-ref" 2 false (compute bytevectorRef),
  .prompt "pair?" 1 false (predicate isPair),
  .prompt "null?" 1 false (predicate isNull),
  .prompt "list?" 1 false (inspect isList),
  .prompt "vector?" 1 false (predicate isVector),
  .prompt "bytevector?" 1 false (predicate isBytevector),
  .prompt "boolean?" 1 false (predicate isBoolean),
  .prompt "symbol?" 1 false (predicate isSymbol),
  .prompt "number?" 1 false (predicate isNumber),
  .prompt "integer?" 1 false (predicate isInteger),
  .prompt "float?" 1 false (predicate isFloat),
  .prompt "char?" 1 false (predicate isChar),
  .prompt "string?" 1 false (predicate isString),
  .prompt "procedure?" 1 false (predicate Value.isProcedure),
  .prompt "display" 1 false (perform display),
  .prompt "newline" 0 false (perform newline),
  .prompt "debug" 0 true (perform debug),
  .prompt "host-object?" 1 false (predicate isHost),
  .prompt "host-parent" 1 false (perform hostParent),
  .prompt "host-children" 1 false (perform hostChildren),
  .prompt "host-property" 2 false (perform hostProperty),
  .prompt "host-set-property!" 3 false (perform hostSetProperty),
  .prompt "host-invoke" 2 true (perform hostInvoke)]

/-- The procedures that the machine carries out itself. -/
def controls : List (String × Value) :=
  [("apply", .apply), ("call/cc", .capture), ("call-with-current-continuation", .capture)]

/-- The native procedures in the places that their values refer to. -/
def registry : Array Native :=
  procedures.toArray

/-- All standard procedures by name, in the order in which they are defined. -/
def definitions : List (String × Value) :=
  controls ++ procedures.mapIdx fun place procedure => (procedure.name, .native place)

def procedure? (name : String) : Option Value :=
  definitions.lookup name

end MiniScheme.Stdlib
