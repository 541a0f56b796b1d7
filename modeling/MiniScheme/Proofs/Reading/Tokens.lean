import MiniScheme.Datum.Printer
import MiniScheme.Proofs.Reading.Locality
import Mathlib.Data.List.Induction
import Mathlib.Data.Nat.Digits.Defs

/-!
# The text of a token

What the printer writes for an atom is scanned as one token, the one it was written for, wherever
blanks precede it and a delimiter or the end of the text follows. `Lexes` says so of a text and puts
such texts together.
-/

namespace MiniScheme

variable {c : Char} {rest : List Char}

theorem skipGap_blanks (solid : Solid c rest) (blanks length : Nat) :
    skipGap .blank length (List.replicate blanks ' ' ++ c :: rest) = .ok (length + blanks) := by
  induction blanks generalizing length with
  | zero => exact skipGap_solid solid length
  | succ blanks ih =>
    rw [List.replicate_succ, List.cons_append]
    have step : skipGap .blank length (' ' :: (List.replicate blanks ' ' ++ c :: rest)) =
        skipGap .blank (length + 1) (List.replicate blanks ' ' ++ c :: rest) := by
      cases blanks <;> rfl
    rw [step, ih]
    congr 1
    omega

/-- `Lexes text kinds rest`: after any number of blanks, the text is scanned as tokens of these
kinds, of which there is one at least, up to where the rest begins. -/
def Lexes (text : List Char) (kinds : List TokenKind) (rest : List Char) : Prop :=
  ∀ (blanks : Nat) (location : Location), ∃ (tokens : List Token) (location' : Location),
    tokens.map Token.kind = kinds ∧
      (Cursor.mk (List.replicate blanks ' ' ++ text) location).items =
        tokens.map .ok ++ (Cursor.mk rest location').items

namespace Lexes

variable {text rest : List Char} {kinds : List TokenKind}

theorem append {mid : List Char} {kinds' : List TokenKind} (first : Lexes text kinds mid)
    (second : Lexes mid kinds' rest) : Lexes text (kinds ++ kinds') rest := by
  intro blanks loc
  obtain ⟨tokens, loc', same, xs⟩ := first blanks loc
  obtain ⟨tokens', loc'', same', xs'⟩ := second 0 loc'
  refine ⟨tokens ++ tokens', loc'', by rw [List.map_append, same, same'], ?_⟩
  rw [List.replicate_zero, List.nil_append] at xs'
  rw [xs, xs', List.map_append, List.append_assoc]

theorem blank (lexes : Lexes text kinds rest) : Lexes (' ' :: text) kinds rest := by
  intro blanks loc
  have shifted : List.replicate blanks ' ' ++ ' ' :: text =
      List.replicate (blanks + 1) ' ' ++ text := by
    rw [List.replicate_succ', List.append_assoc]
    rfl
  rw [shifted]
  exact lexes (blanks + 1) loc

theorem one {c : Char} {more : List Char} {kind : TokenKind} (solid : Solid c more)
    (found : lexeme? (c :: more) = some (.token kind (c :: more).length))
    (precedes : kind.Precedes rest) : Lexes (c :: more ++ rest) [kind] rest := by
  intro blanks loc
  have solid' : Solid c (more ++ rest) := by
    refine ⟨solid.visible, solid.line, ?_⟩
    rintro rfl
    cases more with
    | nil => cases found
    | cons => exact solid.block rfl
  have gap : skipGap .blank 0 (List.replicate blanks ' ' ++ (c :: more ++ rest)) =
      .ok (List.replicate blanks ' ').length := by
    rw [List.cons_append, skipGap_blanks solid', Nat.zero_add, List.length_replicate]
  have next := Cursor.next?_eq gap (lexeme?_append found precedes) loc
  exact ⟨[_], _, rfl, Cursor.items_of_next? next⟩

end Lexes

/-! ### Plain atoms -/

theorem solid_plain (plain : isMark c = false) (inside : isDelimiter c = false) (rest : List Char) :
    Solid c rest := by
  simp only [isDelimiter, Bool.or_eq_false_iff, beq_eq_false_iff_ne] at inside
  refine ⟨inside.1.1.1.1, inside.2, ?_⟩
  rintro rfl
  cases plain

theorem lexes_plainAtom {atom : List Char} {kind : TokenKind} (first : atom.head? = some c)
    (plain : isMark c = false) (inside : ∀ c ∈ atom, isDelimiter c = false)
    (precedes : kind.Precedes rest) (found : Lexeme.plainAtom atom = .token kind atom.length) :
    Lexes (atom ++ rest) [kind] rest := by
  cases atom with
  | nil => cases first
  | cons d atom =>
    cases first
    have ahead : atomAhead atom = atom :=
      atomAhead_eq fun c mem => inside c (List.mem_cons_of_mem _ mem)
    have scanned : lexeme? (c :: atom) = some (.token kind (c :: atom).length) := by
      rw [lexeme?_plain plain, ahead, found]
    exact .one (solid_plain plain (inside c List.mem_cons_self) _) scanned precedes

/-! ### Integers -/

namespace Number

variable {c : Char} {radix : Nat} {digits : List Char}

/-- The marks of a radix, which is ten without one. -/
def radixMarks : List (List Char × Nat) :=
  [([], 10), (['#', 'd'], 10), (['#', 'D'], 10), (['#', 'x'], 16), (['#', 'X'], 16),
    (['#', 'o'], 8), (['#', 'O'], 8), (['#', 'b'], 2), (['#', 'B'], 2)]

/-- An integer as it may be written: the mark of a radix, a sign, and digits. -/
structure Numeral where
  mark : List Char
  radix : Nat
  sign : List Char
  negative : Bool
  digits : List Char
  marked : (mark, radix) ∈ radixMarks
  signed : (sign, negative) ∈ [([], false), (['+'], false), (['-'], true)]
  spelled : ∀ c ∈ digits, (digitValue? radix c).isSome
  some_digit : digits ≠ []

theorem plain_of_hexadecimal : ∀ code < 128, (Char.ofNat code).isDigit = true ∨
    'a' ≤ Char.ofNat code ∧ Char.ofNat code ≤ 'f' ∨ 'A' ≤ Char.ofNat code ∧ Char.ofNat code ≤ 'F' →
      isDelimiter (Char.ofNat code) = false ∧ isMark (Char.ofNat code) = false ∧
        isSign (Char.ofNat code) = false ∧ Char.ofNat code ≠ '.' := by
  decide +kernel

theorem plain_of_digit (digit : (digitValue? radix c).isSome) :
    isDelimiter c = false ∧ isMark c = false ∧ isSign c = false ∧ c ≠ '.' := by
  have hexadecimal : c.isDigit = true ∨ 'a' ≤ c ∧ c ≤ 'f' ∨ 'A' ≤ c ∧ c ≤ 'F' := by
    unfold digitValue? at digit
    grind
  have small : c.toNat < 128 := by
    rcases hexadecimal with digit | letter | letter
    · simp only [Char.isDigit, Bool.and_eq_true, decide_eq_true_eq] at digit
      exact Nat.lt_of_le_of_lt digit.2 (by decide)
    · exact Nat.lt_of_le_of_lt letter.2 (by decide)
    · exact Nat.lt_of_le_of_lt letter.2 (by decide)
  have plain := plain_of_hexadecimal c.toNat small
  rw [Char.ofNat_toNat] at plain
  exact plain hexadecimal

theorem isDigit_of_digit (digit : (digitValue? 10 c).isSome) : c.isDigit = true := by
  unfold digitValue? at digit
  grind

theorem looksNumeric_of_isDigit (digit : c.isDigit = true) (rest : List Char) :
    looksNumeric (c :: rest) = true ∧ looksNumeric ('+' :: c :: rest) = true ∧
      looksNumeric ('-' :: c :: rest) = true := by
  refine ⟨?_, ?_, ?_⟩ <;> unfold looksNumeric <;> split <;> simp_all <;> grind

theorem digitValue?_of_isDigit (digit : c.isDigit = true) :
    digitValue? 10 c = some (c.toNat - '0'.toNat) := by
  have bound : c.toNat - '0'.toNat < 10 := by
    simp only [Char.isDigit, Bool.and_eq_true, decide_eq_true_eq] at digit
    have upper : c.toNat ≤ 57 := digit.2
    have zero : '0'.toNat = 48 := rfl
    omega
  simp only [digitValue?, digit, if_true, bound]

theorem ofDigits_toDigits (n : Nat) : ofDigits 10 (Nat.toDigits 10 n) = n := by
  have digits : ∀ c ∈ Nat.toDigits 10 n, c.isDigit = true :=
    fun c mem => Nat.isDigit_of_mem_toDigits (by decide) (by decide) mem
  have folded : ∀ (chars : List Char), (∀ c ∈ chars, c.isDigit = true) → ∀ start : Nat,
      chars.foldl (fun total c => total * 10 + (digitValue? 10 c).getD 0) start =
        Nat.ofDigitChars 10 chars start := by
    intro chars
    induction chars with
    | nil =>
      intro _ start
      rw [Nat.ofDigitChars_nil]
      rfl
    | cons c chars ih =>
      intro digits start
      rw [List.foldl_cons, Nat.ofDigitChars_cons, digitValue?_of_isDigit (digits c (by simp)),
        ih fun c mem => digits c (List.mem_cons_of_mem _ mem), Nat.mul_comm]
      rfl
  rw [ofDigits, folded _ digits, Nat.ofDigitChars_ten_toDigits]

theorem ofDigits_eq (digits : List Char) : ofDigits radix digits =
    Nat.ofDigits radix (digits.reverse.map fun c => (digitValue? radix c).getD 0) := by
  induction digits using List.reverseRecOn with
  | nil => rfl
  | append_singleton digits c ih =>
    rw [List.reverse_append, List.reverse_singleton, List.singleton_append, List.map_cons,
      Nat.ofDigits_cons, ← ih, ofDigits, List.foldl_append, Nat.add_comm, Nat.mul_comm]
    rfl

namespace Numeral

variable (numeral : Numeral)

def text : List Char :=
  numeral.mark ++ (numeral.sign ++ numeral.digits)

def magnitude : Nat :=
  Nat.ofDigits numeral.radix (numeral.digits.reverse.map fun c => (digitValue? numeral.radix c).getD 0)

def value : Int :=
  if numeral.negative then -numeral.magnitude else numeral.magnitude

theorem exists_cons : ∃ c rest, numeral.sign ++ numeral.digits = c :: rest ∧ isMark c = false ∧
    isDelimiter c = false ∧ c :: rest ≠ ['.'] ∧ (∀ d ∈ rest, isDelimiter d = false) ∧
    (numeral.radix = 10 → looksNumeric (c :: rest) = true) ∧
    ((c :: rest).head? = some '-' ↔ numeral.negative = true) ∧
    (if (c :: rest).head?.any isSign then (c :: rest).drop 1 else c :: rest) = numeral.digits := by
  obtain ⟨mark, radix, sign, negative, digits, marked, signed, spelled, some_digit⟩ := numeral
  obtain ⟨first, rest, rfl⟩ := List.exists_cons_of_ne_nil some_digit
  rw [List.forall_mem_cons] at spelled
  obtain ⟨inside, plain, unsigned, dot⟩ := plain_of_digit spelled.1
  have insides (d : Char) (mem : d ∈ rest) := (plain_of_digit (spelled.2 d mem)).1
  have minus : first ≠ '-' := by rintro rfl; cases unsigned
  have decimal (ten : radix = 10) : first.isDigit = true := isDigit_of_digit (ten ▸ spelled.1)
  simp only [List.mem_cons, Prod.mk.injEq, List.not_mem_nil, or_false] at signed
  rcases signed with ⟨rfl, rfl⟩ | ⟨rfl, rfl⟩ | ⟨rfl, rfl⟩
  · exact ⟨first, rest, rfl, plain, inside, by simp [dot], insides,
      fun ten => (looksNumeric_of_isDigit (decimal ten) rest).1, by simp [minus], by simp [unsigned]⟩
  · exact ⟨'+', first :: rest, rfl, rfl, rfl, by simp, List.forall_mem_cons.mpr ⟨inside, insides⟩,
      fun ten => (looksNumeric_of_isDigit (decimal ten) rest).2.1, by simp, rfl⟩
  · exact ⟨'-', first :: rest, rfl, rfl, rfl, by simp, List.forall_mem_cons.mpr ⟨inside, insides⟩,
      fun ten => (looksNumeric_of_isDigit (decimal ten) rest).2.2, by simp, rfl⟩

theorem unmarked_eq : unmarked numeral.radix (numeral.sign ++ numeral.digits) =
    signedInteger numeral.negative numeral.magnitude := by
  obtain ⟨c, rest, eq, -, -, -, -, -, negative, digits⟩ := numeral.exists_cons
  rw [eq]
  simp only [unmarked, negative, digits, List.isEmpty_eq_false_iff.mpr numeral.some_digit, magnitude,
    ← ofDigits_eq, Bool.decide_eq_true]
  by_cases ten : numeral.radix = 10
  · have decimal : numeral.digits.all Char.isDigit = true :=
      List.all_eq_true.mpr fun c mem => isDigit_of_digit (ten ▸ numeral.spelled c mem)
    simp [ten, decimal]
  · simp [ten, List.all_eq_true.mpr numeral.spelled]

theorem parse_text :
    parse none none numeral.text = signedInteger numeral.negative numeral.magnitude := by
  have parsed (radix : Option Nat) (same : radix.getD 10 = numeral.radix) :
      parse radix none (numeral.sign ++ numeral.digits) =
        signedInteger numeral.negative numeral.magnitude := by
    rw [← numeral.unmarked_eq, ← same]
    obtain ⟨c, rest, eq, plain, -⟩ := numeral.exists_cons
    have pound : c ≠ '#' := by rintro rfl; cases plain
    rw [eq]
    cases res : unmarked (radix.getD 10) (c :: rest) <;> simp [parse, pound, res] <;> rfl
  have marked := numeral.marked
  rw [text]
  simp only [radixMarks, List.mem_cons, Prod.mk.injEq, List.not_mem_nil, or_false] at marked
  rcases marked with ⟨mark, same⟩ | ⟨mark, same⟩ | ⟨mark, same⟩ | ⟨mark, same⟩ | ⟨mark, same⟩ |
    ⟨mark, same⟩ | ⟨mark, same⟩ | ⟨mark, same⟩ | ⟨mark, same⟩ <;> rw [mark]
  · exact parsed none same.symm
  all_goals exact parsed (some _) same.symm

theorem lexeme?_text : ∃ c ahead, numeral.text = c :: ahead ∧ Solid c ahead ∧
    lexeme? (c :: ahead) = some (.number numeral.text) := by
  obtain ⟨c, more, eq, plain, inside, dot, insides, numeric, -⟩ := numeral.exists_cons
  have marked := numeral.marked
  rw [text, eq]
  simp only [radixMarks, List.mem_cons, Prod.mk.injEq, List.not_mem_nil, or_false] at marked
  rcases marked with ⟨mark, same⟩ | marked
  · rw [mark, List.nil_append]
    refine ⟨c, more, rfl, solid_plain plain inside _, ?_⟩
    rw [lexeme?_plain plain, atomAhead_eq insides, Lexeme.plainAtom, if_neg dot,
      if_pos (numeric same)]
  · have ahead : atomAhead (c :: more) = c :: more :=
      atomAhead_eq (List.forall_mem_cons.mpr ⟨inside, insides⟩)
    have scanned (d : Char) (letter : isDelimiter d = false)
        (pound : lexeme? ('#' :: d :: c :: more) =
          some (.poundAtom ('#' :: atomAhead (d :: c :: more))))
        (number : Lexeme.poundAtom ('#' :: d :: c :: more) = .number ('#' :: d :: c :: more)) :
        lexeme? ('#' :: d :: c :: more) = some (.number ('#' :: d :: c :: more)) := by
      rw [pound, atomAhead, List.takeWhile_cons_of_pos (by simp [letter]), ← atomAhead, ahead, number]
    rcases marked with ⟨mark, -⟩ | ⟨mark, -⟩ | ⟨mark, -⟩ | ⟨mark, -⟩ | ⟨mark, -⟩ | ⟨mark, -⟩ |
      ⟨mark, -⟩ | ⟨mark, -⟩ <;> rw [mark]
    all_goals
    exact ⟨'#', _, rfl, ⟨rfl, by decide, by simp⟩,
      scanned _ rfl rfl (by simp [Lexeme.poundAtom, looksNumeric])⟩

def ofInt (value : Int) : Numeral where
  mark := []
  radix := 10
  sign := if value < 0 then ['-'] else []
  negative := decide (value < 0)
  digits := Nat.toDigits 10 value.natAbs
  marked := by simp [radixMarks]
  signed := by by_cases below : value < 0 <;> simp [below]
  spelled c member := by
    have digit : c.isDigit = true := Nat.isDigit_of_mem_toDigits (by decide) (by decide) member
    simp [digitValue?_of_isDigit digit]
  some_digit := Nat.toDigits_ne_nil

theorem value_ofInt (v : Int) : (ofInt v).value = v := by
  have magnitude : (ofInt v).magnitude = v.natAbs :=
    (ofDigits_eq _).symm.trans (ofDigits_toDigits _)
  have negative : (ofInt v).negative = decide (v < 0) := rfl
  rw [Numeral.value, magnitude, negative]
  split <;> grind

theorem text_ofInt (v : Int) : (ofInt v).text = (toString v).toList := by
  cases v with
  | ofNat n =>
    have text : toString (Int.ofNat n) = toString n := rfl
    rw [text, Nat.toString_eq_ofList_toDigits, String.toList_ofList]
    rfl
  | negSucc n =>
    have text : toString (Int.negSucc n) = "-" ++ toString (n + 1) := rfl
    rw [text, String.toList_append, Nat.toString_eq_ofList_toDigits, String.toList_ofList]
    simp [ofInt, Numeral.text]

/-- A numeral of at most 63 bits apart from its sign is an integer, any other one is a fault. -/
theorem number_text : Lexeme.number numeral.text =
    if -2 ^ 63 < numeral.value ∧ numeral.value < 2 ^ 63 then
      .token (.integer (.ofInt numeral.value)) numeral.text.length
    else .fault .overflow numeral.text.length := by
  have bounds : numeral.magnitude ≤ maxInteger ↔
      -2 ^ 63 < numeral.value ∧ numeral.value < 2 ^ 63 := by
    unfold value maxInteger
    split <;> omega
  have value_eq : numeral.value =
      if numeral.negative then -(numeral.magnitude : Int) else numeral.magnitude := rfl
  rw [Lexeme.number, numeral.parse_text, signedInteger, ← value_eq]
  simp only [bounds]
  by_cases fits : -2 ^ 63 < numeral.value ∧ numeral.value < 2 ^ 63
  · simp only [if_pos fits]
  · simp only [if_neg fits]

end Numeral

end Number

/-- All integers but the least have a literal. -/
theorem lexes_integer {v : Int64} (least : v ≠ Int64.minValue) (delimited : Delimited rest)
    : Lexes ((toString v.toInt).toList ++ rest) [.integer v] rest := by
  have bounds : -2 ^ 63 ≤ v.toInt ∧ v.toInt < 2 ^ 63 := ⟨Int64.le_toInt v, Int64.toInt_lt v⟩
  have above : v.toInt ≠ -2 ^ 63 := fun eq =>
    least (Int64.toInt_inj.mp (eq.trans (by decide)))
  obtain ⟨c, ahead, text, solid, found⟩ := (Number.Numeral.ofInt v.toInt).lexeme?_text
  rw [Number.Numeral.number_text, Number.Numeral.value_ofInt, Int64.ofInt_toInt,
    if_pos (by omega), text] at found
  rw [← Number.Numeral.text_ofInt, text]
  exact .one solid found (.of_delimited delimited rfl)

/-! ### Other atoms -/

theorem lexes_boolean (v : Bool) (delimited : Delimited rest) :
    Lexes ((booleanText v).toList ++ rest) [.boolean v] rest := by
  cases v
  all_goals exact Lexes.one ⟨rfl, by decide, nofun⟩ rfl (.of_delimited delimited rfl)

theorem character_control : ∀ code < 160, Text.isControl (Char.ofNat code) = true →
    (Nat.toDigits 16 code).all (fun d => !isDelimiter d) = true ∧
      (Lexeme.namedChar? (String.ofList (('x' :: Nat.toDigits 16 code).map Char.toLower))).or
        (Lexeme.codedChar? (Nat.toDigits 16 code)) = some (Char.ofNat code) := by
  decide +kernel

theorem toNat_lt_of_isControl (control : Text.isControl c = true) : c.toNat < 160 := by
  simp only [Text.isControl, Bool.or_eq_true, Bool.and_eq_true, decide_eq_true_eq] at control
  omega

theorem lexes_character (c : Char) (delimited : Delimited rest) :
    Lexes ((Text.charLiteral c).toList ++ rest) [.character c] rest := by
  -- The name of the character is given by what it starts with and what follows.
  have named (first : Char) (more : List Char) (name : (Text.charName c).toList = first :: more)
      (found : Lexeme.character (first :: more) = .token (.character c) (3 + more.length)) :
      Lexes ((Text.charLiteral c).toList ++ rest) [.character c] rest := by
    have written : (Text.charLiteral c).toList = '#' :: '\\' :: first :: more := by
      rw [Text.charLiteral, String.toList_append, name]
      rfl
    rw [written]
    refine .one ⟨rfl, by decide, nofun⟩ ?_ (.of_delimited delimited rfl)
    rw [lexeme?, found, Nat.add_comm]
    rfl
  by_cases newline : c = '\n'
  · subst newline
    exact named 'n' ['e', 'w', 'l', 'i', 'n', 'e'] rfl rfl
  by_cases space : c = ' '
  · subst space
    exact named 's' ['p', 'a', 'c', 'e'] rfl rfl
  by_cases tab : c = '\t'
  · subst tab
    exact named 't' ['a', 'b'] rfl rfl
  by_cases return_ : c = '\r'
  · subst return_
    exact named 'r' ['e', 't', 'u', 'r', 'n'] rfl rfl
  by_cases nul : c = '\x00'
  · subst nul
    exact named 'n' ['u', 'l'] rfl rfl
  by_cases control : Text.isControl c = true
  · obtain ⟨inside, coded⟩ := character_control c.toNat (toNat_lt_of_isControl control)
      (by rwa [Char.ofNat_toNat])
    rw [Char.ofNat_toNat] at coded
    refine named 'x' (Nat.toDigits 16 c.toNat) ?_ ?_
    · rw [Text.charName, if_neg newline, if_neg space, if_neg tab, if_neg return_, if_neg nul,
        if_pos control, String.toList_append, Text.hexDigits]
      simp
    · have alone := atomAhead_eq (undelimited_of_all inside)
      have digits : (Nat.toDigits 16 c.toNat).isEmpty = false := by
        rw [List.isEmpty_eq_false_iff]
        exact Nat.toDigits_ne_nil
      simp only [Lexeme.character, alone, digits, decide_true, Bool.true_or, if_true, coded,
        Bool.false_eq_true, if_false]
  · refine named c [] ?_ rfl
    rw [Text.charName, if_neg newline, if_neg space, if_neg tab, if_neg return_, if_neg nul,
      if_neg control]
    exact String.toList_singleton c

namespace Lexeme

variable {c : Char}

theorem string_text (quote : c ≠ '"') (backslash : c ≠ '\\') (done rest : List Char)
    (length mark : Nat) : string done length mark .plain (c :: rest) =
      string (c :: done) (length + 1) mark .plain rest := by
  simp [string, StringStep.of, quote, backslash]

theorem string_escape {d : Char} (meant : escaped? d = some c) (line : d ≠ '\n')
    (code : d ≠ 'x' ∧ d ≠ 'X') (done rest : List Char) (length mark : Nat) :
    string done length mark .plain ('\\' :: d :: rest) =
      string (c :: done) (length + 2) length .plain rest := by
  simp [string, StringStep.of, meant, line, code.1, code.2]

/-- What is written between the quotes of a string is read as the string. -/
theorem string_escaped (chars done : List Char) (length mark : Nat) :
    string done length mark .plain (chars.flatMap Text.escapeChar ++ ['"']) =
      token (.string (String.ofList (done.reverse ++ chars)))
        (length + (chars.flatMap Text.escapeChar).length + 1) := by
  induction chars generalizing done length mark with
  | nil => simp [string, StringStep.of]
  | cons c chars ih =>
    -- Either the character stands for itself, or another one behind a backslash stands for it.
    have behind (d : Char) (written : Text.escapeChar c = ['\\', d])
        (meant : escaped? d = some c) (line : d ≠ '\n') (code : d ≠ 'x' ∧ d ≠ 'X') :
        string done length mark .plain ((c :: chars).flatMap Text.escapeChar ++ ['"']) =
          token (.string (String.ofList (done.reverse ++ c :: chars)))
            (length + ((c :: chars).flatMap Text.escapeChar).length + 1) := by
      simp only [List.flatMap_cons, written, List.cons_append, List.nil_append]
      rw [string_escape meant line code, ih]
      simp only [List.reverse_cons, List.append_assoc, List.singleton_append, List.length_cons]
      congr 1
      omega
    by_cases quote : c = '"'
    · subst quote
      exact behind '"' rfl rfl (by decide) (by decide)
    by_cases backslash : c = '\\'
    · subst backslash
      exact behind '\\' rfl rfl (by decide) (by decide)
    by_cases newline : c = '\n'
    · subst newline
      exact behind 'n' rfl rfl (by decide) (by decide)
    by_cases tab : c = '\t'
    · subst tab
      exact behind 't' rfl rfl (by decide) (by decide)
    by_cases return_ : c = '\r'
    · subst return_
      exact behind 'r' rfl rfl (by decide) (by decide)
    have written : Text.escapeChar c = [c] := by
      rw [Text.escapeChar, if_neg quote, if_neg backslash, if_neg newline, if_neg tab,
        if_neg return_]
    rw [List.flatMap_cons, written, List.singleton_append, List.cons_append,
      string_text quote backslash, ih]
    simp only [List.reverse_cons, List.append_assoc, List.singleton_append, List.length_cons]
    congr 1
    omega

end Lexeme

theorem lexes_string (v : String) (rest : List Char) :
    Lexes ((Text.stringLiteral v).toList ++ rest) [.string v] rest := by
  have written : (Text.stringLiteral v).toList =
      '"' :: (v.toList.flatMap Text.escapeChar ++ ['"']) := by
    rw [Text.stringLiteral, String.toList_ofList]
    simp
  have inner := Lexeme.string_escaped v.toList [] 1 0
  rw [List.reverse_nil, List.nil_append, String.ofList_toList] at inner
  rw [written]
  refine .one ⟨rfl, by decide, nofun⟩ ?_ ⟨nofun, nofun⟩
  rw [lexeme?, inner, List.length_cons, List.length_append, Nat.add_comm 1]
  rfl

structure IsIdentifier (name : String) : Prop where
  first : ∃ c, name.toList.head? = some c ∧ isMark c = false
  inside : ∀ c ∈ name.toList, isDelimiter c = false
  scanned : Lexeme.plainAtom name.toList = .token (.identifier name) name.toList.length

theorem lexes_identifier {name : String} (identifier : IsIdentifier name)
    (delimited : Delimited rest) : Lexes (name.toList ++ rest) [.identifier name] rest := by
  obtain ⟨c, first, plain⟩ := identifier.first
  exact lexes_plainAtom first plain identifier.inside (.of_delimited delimited rfl)
    identifier.scanned

/-- The dot of a dotted list, with a blank on both sides. -/
theorem lexes_dot (rest : List Char) : Lexes (' ' :: '.' :: ' ' :: rest) [.dot] (' ' :: rest) := by
  have dot : Lexes (['.'] ++ ' ' :: rest) [.dot] (' ' :: rest) :=
    lexes_plainAtom rfl rfl (undelimited_of_all rfl)
      (.of_delimited (delimited_cons rfl rest) rfl) rfl
  exact dot.blank

end MiniScheme
