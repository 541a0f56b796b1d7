import MiniScheme.Token.Number
import MiniScheme.Text.Blank

/-!
# From text to tokens

A scan looks at the characters ahead and answers what stands there and how many characters it
takes; a `Cursor` turns such lengths into locations. Identifiers, numbers, characters and the dot
end at a delimiter; the square brackets open and close lists but do not delimit. Every call of
`Cursor.next?` that finds something moves the cursor, so `tokenize` reaches the end of any text,
going on behind flaws.
-/

namespace MiniScheme

/-- Characters that end an atom. -/
def isDelimiter (c : Char) : Bool :=
  Text.isBlank c || c == '(' || c == ')' || c == '"' || c == ';'

/-- Characters that may not appear in an identifier. -/
def isReserved (c : Char) : Bool :=
  c ∈ ['\'', '`', ',', '#', '|', '[', ']', '\x7b', '\x7d']

/-- The atom at the start of a text. -/
def atomAhead (text : List Char) : List Char :=
  text.takeWhile fun c => !isDelimiter c

/-- What a scan found and how many characters it takes. A fault is reported a number of
characters after the start of the scan. -/
structure Lexeme where
  result : Except (LexicalFault × Nat) TokenKind
  length : Nat

namespace Lexeme

def token (kind : TokenKind) (length : Nat) : Lexeme :=
  { result := .ok kind, length }

/-- A fault reported where the scan started. -/
def fault (fault : LexicalFault) (length : Nat) : Lexeme :=
  { result := .error (fault, 0), length }

def number (atom : List Char) : Lexeme :=
  match Number.parse none none atom with
  | .ok (.integer n) => token (.integer n) atom.length
  | .ok (.float x) => token (.float x) atom.length
  | .error flaw => fault flaw atom.length

/-- An atom that starts with none of the marks. -/
def plainAtom (atom : List Char) : Lexeme :=
  if atom = ['.'] then token .dot atom.length
  else if Number.looksNumeric atom then number atom
  else if atom.head? = some '.' && atom ≠ ['.', '.', '.'] then fault .invalidDot atom.length
  else if atom.any isReserved then fault .unexpectedCharacter atom.length
  else token (.identifier (String.ofList atom)) atom.length

/-- An atom that starts with `#`. -/
def poundAtom (atom : List Char) : Lexeme :=
  let folded := atom.map Char.toLower
  if folded = ['#', 't'] || folded = ['#', 't', 'r', 'u', 'e'] then
    token (.boolean true) atom.length
  else if folded = ['#', 'f'] || folded = ['#', 'f', 'a', 'l', 's', 'e'] then
    token (.boolean false) atom.length
  else if Number.looksNumeric atom then number atom
  else fault .invalidPound atom.length

/-- Characters that have a name. -/
def namedChar? (name : String) : Option Char :=
  match name with
  | "space" => some ' '
  | "newline" => some '\n'
  | "linefeed" => some '\n'
  | "tab" => some '\t'
  | "return" => some '\r'
  | "nul" => some '\x00'
  | "null" => some '\x00'
  | "alarm" => some '\x07'
  | "backspace" => some '\x08'
  | "delete" => some '\x7f'
  | "escape" => some '\x1b'
  | _ => none

/-- A character code after `#\x`; one plus sign may stand before the digits. -/
def codedChar? : List Char → Option Char
  | '+' :: digits => Number.hexChar? digits
  | digits => Number.hexChar? digits

/-- What follows `#\`: one character taken as it is, and then an atom that may make it a name. -/
def character : List Char → Lexeme
  | [] => fault .unfinishedChar 2
  | first :: rest =>
    let more := atomAhead rest
    let length := 3 + more.length
    let name := String.ofList ((first :: more).map Char.toLower)
    let coded := if first = 'x' || first = 'X' then codedChar? more else none
    if more.isEmpty then token (.character first) length
    else match (namedChar? name).or coded with
      | some c => token (.character c) length
      | none => fault .invalidCharName length

/-- Where the scan of a string is. -/
inductive StringMode where
  | plain
  /-- After a backslash. -/
  | escape
  /-- After `\x` and some hexadecimal digits, most recent first. -/
  | code (digits : List Char)
  /-- After a backslash at the end of a line. -/
  | indentation

/-- What one character outside of an escape adds. -/
inductive StringStep where
  | finished
  | escape
  | text (c : Char)

/-- Reads one character outside of an escape. -/
def StringStep.of (c : Char) : StringStep :=
  if c = '"' then .finished else if c = '\\' then .escape else .text c

/-- The characters that a single letter after a backslash stands for. -/
def escaped? (c : Char) : Option Char :=
  match c with
  | '"' => some '"'
  | '\\' => some '\\'
  | 'n' => some '\n'
  | 't' => some '\t'
  | 'r' => some '\r'
  | 'a' => some '\x07'
  | '0' => some '\x00'
  | _ => none

/-- The rest of a string. `done` holds the contents so far, last character first; `length` counts
the characters scanned since the opening quote, and `mark` the ones before the last backslash. -/
def string (done : List Char) (length mark : Nat) (mode : StringMode) : List Char → Lexeme
  | [] =>
    let open_ := { result := .error (.unclosedString, 0), length }
    let broken := { result := .error (.invalidEscape, mark), length }
    match mode with
    | .plain => open_
    | .indentation => open_
    | .escape => broken
    | .code digits => if (Number.hexChar? digits.reverse).isSome then open_ else broken
  | c :: rest =>
    let plain := fun done =>
      match StringStep.of c with
      | .finished => token (.string (String.ofList done.reverse)) (length + 1)
      | .escape => string done (length + 1) length .escape rest
      | .text c => string (c :: done) (length + 1) mark .plain rest
    match mode with
    | .plain => plain done
    | .indentation =>
      if c = ' ' || c = '\t' then string done (length + 1) mark .indentation rest else plain done
    | .escape =>
      if c = 'x' || c = 'X' then string done (length + 1) mark (.code []) rest
      else if c = '\n' then string done (length + 1) mark .indentation rest
      else match escaped? c with
        | some meant => string (meant :: done) (length + 1) mark .plain rest
        | none => { result := .error (.invalidEscape, mark), length := length + 1 }
    | .code digits =>
      if (Number.digitValue? 16 c).isSome then
        string done (length + 1) mark (.code (c :: digits)) rest
      else match Number.hexChar? digits.reverse with
        | some meant =>
          if c = ';' then string (meant :: done) (length + 1) mark .plain rest
          else plain (meant :: done)
        | none =>
          { result := .error (.invalidEscape, mark)
            length := if c = ';' then length + 1 else length }

end Lexeme

/-- The token at the start of a text that starts with neither a blank nor a comment. -/
def lexeme? : List Char → Option Lexeme
  | [] => none
  | '(' :: _ => some (.token .openList 1)
  | '[' :: _ => some (.token .openList 1)
  | ')' :: _ => some (.token .close 1)
  | ']' :: _ => some (.token .close 1)
  | '`' :: _ => some (.token .backQuote 1)
  | '\'' :: _ => some (.token .quoteMark 1)
  | ',' :: '@' :: _ => some (.token .commaAt 2)
  | ',' :: _ => some (.token .comma 1)
  | '"' :: rest => some (Lexeme.string [] 1 0 .plain rest)
  | '#' :: ';' :: _ => some (.token .datumComment 2)
  | '#' :: '(' :: _ => some (.token .openVector 2)
  | '#' :: '\\' :: rest => some (Lexeme.character rest)
  | '#' :: 'u' :: '8' :: '(' :: _ => some (.token .openBytes 4)
  | '#' :: 'U' :: '8' :: '(' :: _ => some (.token .openBytes 4)
  | '#' :: rest => some (Lexeme.poundAtom ('#' :: atomAhead rest))
  | c :: rest => some (Lexeme.plainAtom (c :: atomAhead rest))

/-- What separates tokens: nothing in particular, a comment to the end of the line, or nested
block comments, the outermost of which began `start` characters into the gap. -/
inductive Gap where
  | blank
  | lineComment
  | blockComment (depth start : Nat)

/-- The number of characters of white space and comments at the start of a text, or the start of
a block comment that never ends. `length` characters have been skipped already. -/
def skipGap (gap : Gap) (length : Nat) : List Char → Except Nat Nat
  | [] => match gap with
    | .blockComment _ start => .error start
    | _ => .ok length
  | [c] => match gap with
    | .blockComment _ start => .error start
    | .lineComment => .ok (length + 1)
    | .blank => if Text.isBlank c || c = ';' then .ok (length + 1) else .ok length
  | c :: d :: rest => match gap with
    | .lineComment => skipGap (if c = '\n' then .blank else .lineComment) (length + 1) (d :: rest)
    | .blockComment depth start =>
      if c = '|' && d = '#' then
        skipGap (if depth ≤ 1 then .blank else .blockComment (depth - 1) start) (length + 2) rest
      else if c = '#' && d = '|' then skipGap (.blockComment (depth + 1) start) (length + 2) rest
      else skipGap gap (length + 1) (d :: rest)
    | .blank =>
      if Text.isBlank c then skipGap .blank (length + 1) (d :: rest)
      else if c = ';' then skipGap .lineComment (length + 1) (d :: rest)
      else if c = '#' && d = '|' then skipGap (.blockComment 1 length) (length + 2) rest
      else .ok length

/-- The characters still to be scanned and where they start. -/
structure Cursor where
  rest : List Char
  location : Location
  deriving DecidableEq, Repr

namespace Cursor

def ofString (text : String) : Cursor :=
  { rest := text.toList, location := {} }

def advance (cursor : Cursor) (count : Nat) : Cursor :=
  { rest := cursor.rest.drop count, location := cursor.location.afterAll (cursor.rest.take count) }

@[simp] theorem rest_advance (cursor : Cursor) (count : Nat) :
    (cursor.advance count).rest = cursor.rest.drop count := rfl

/-- The next token or flaw and the cursor behind it; nothing at the end of the text. -/
def next? (cursor : Cursor) : Option (Except TokenError Token × Cursor) :=
  match skipGap .blank 0 cursor.rest with
  | .error start =>
    some (.error { fault := .unclosedComment, location := (cursor.advance start).location },
      cursor.advance cursor.rest.length)
  | .ok gap =>
    let start := cursor.advance gap
    (lexeme? start.rest).map fun lexeme =>
      (match lexeme.result with
        | .ok kind => .ok { kind, location := start.location }
        | .error (fault, offset) =>
          .error { fault, location := (start.advance offset).location },
        start.advance lexeme.length)

end Cursor

/-! ### Progress -/

namespace Lexeme

@[simp] theorem length_token (kind : TokenKind) (length : Nat) :
    (token kind length).length = length := rfl

@[simp] theorem length_fault (flaw : LexicalFault) (length : Nat) :
    (fault flaw length).length = length := rfl

@[simp] theorem length_number (atom : List Char) : (number atom).length = atom.length := by
  unfold number
  split <;> rfl

@[simp] theorem length_plainAtom (atom : List Char) : (plainAtom atom).length = atom.length := by
  unfold plainAtom
  repeat' split
  all_goals simp

@[simp] theorem length_poundAtom (atom : List Char) : (poundAtom atom).length = atom.length := by
  simp only [poundAtom]
  repeat' split
  all_goals simp

theorem length_character_pos (rest : List Char) : 0 < (character rest).length := by
  cases rest with
  | nil => simp [character]
  | cons first rest =>
    simp only [character]
    repeat' split
    all_goals simp only [length_token, length_fault]; omega

theorem le_length_string (done : List Char) (length mark : Nat) (mode : StringMode)
    (rest : List Char) : length ≤ (string done length mark mode rest).length := by
  induction rest generalizing done length mark mode with
  | nil => unfold string; repeat' split; all_goals simp
  | cons c rest ih =>
    have step := fun done mark mode =>
      Nat.le_trans (Nat.le_succ length) (ih done (length + 1) mark mode)
    unfold string
    repeat' split
    all_goals first
      | exact step _ _ _
      | simp only [length_token]; omega

end Lexeme

/-- Every lexeme takes at least one character. -/
theorem length_pos_of_lexeme? {text : List Char} {lexeme : Lexeme}
    (found : lexeme? text = some lexeme) : 0 < lexeme.length := by
  unfold lexeme? at found
  split at found <;> first
    | (cases found; simp)
    | skip
  all_goals cases found
  all_goals first
    | exact Lexeme.length_character_pos _
    | exact Nat.lt_of_lt_of_le Nat.zero_lt_one (Lexeme.le_length_string _ _ _ _ _)

/-- A gap that never closes is not an empty text. -/
theorem ne_nil_of_skipGap_error {text : List Char} {start : Nat}
    (unclosed : skipGap .blank 0 text = .error start) : text ≠ [] := by
  rintro rfl
  simp [skipGap] at unclosed

/-- A lexeme is found only where there is text. -/
theorem ne_nil_of_lexeme? {text : List Char} {lexeme : Lexeme}
    (found : lexeme? text = some lexeme) : text ≠ [] := by
  rintro rfl
  simp [lexeme?] at found

/-- Whatever is found, less text is left behind it. -/
theorem Cursor.length_lt_of_next? {cursor following : Cursor} {item : Except TokenError Token}
    (found : cursor.next? = some (item, following)) :
    following.rest.length < cursor.rest.length := by
  unfold Cursor.next? at found
  split at found
  next start unclosed =>
    have inhabited := List.length_pos_iff.mpr (ne_nil_of_skipGap_error unclosed)
    simp only [Option.some.injEq, Prod.mk.injEq] at found
    simp only [← found.2, rest_advance, List.drop_length, List.length_nil]
    exact inhabited
  next gap _ =>
    simp only [Option.map_eq_some_iff, Prod.mk.injEq] at found
    obtain ⟨lexeme, ahead, -, rfl⟩ := found
    have moved := length_pos_of_lexeme? ahead
    have inhabited := List.length_pos_iff.mpr (ne_nil_of_lexeme? ahead)
    simp only [rest_advance, List.length_drop] at inhabited ⊢
    omega

/-- All tokens and flaws from a cursor to the end of its text. -/
def Cursor.items (cursor : Cursor) : List (Except TokenError Token) :=
  match _found : cursor.next? with
  | none => []
  | some (item, following) => item :: following.items
termination_by cursor.rest.length
decreasing_by exact Cursor.length_lt_of_next? _found

def tokenize (text : String) : List (Except TokenError Token) :=
  (Cursor.ofString text).items

end MiniScheme
