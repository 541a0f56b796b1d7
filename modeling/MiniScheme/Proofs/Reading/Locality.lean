import MiniScheme.Token.Lexer
import Mathlib.Data.List.TakeWhile

/-!
# What a token depends on

A token is found by its own characters. What stands behind it matters only in so far as an atom has
to be delimited and a comma must not be followed by an at sign.
-/

namespace MiniScheme

def Delimited (rest : List Char) : Prop :=
  ∀ c ∈ rest.head?, isDelimiter c = true

variable {atom rest text word : List Char} {kind : TokenKind} {c : Char}

theorem delimited_nil : Delimited [] := nofun

theorem delimited_cons (delimits : isDelimiter c = true) (rest : List Char) :
    Delimited (c :: rest) := by
  rintro _ ⟨⟩
  exact delimits

theorem undelimited_of_all (all : word.all (fun c => !isDelimiter c) = true) :
    ∀ c ∈ word, isDelimiter c = false := by
  simpa using all

theorem atomAhead_append (plain : ∀ c ∈ word, isDelimiter c = false) (delimited : Delimited rest) :
    atomAhead (word ++ rest) = word := by
  rw [atomAhead, List.takeWhile_append_of_pos fun c mem => by simp [plain c mem]]
  cases rest with
  | nil => simp
  | cons c rest => simp [delimited c rfl]

theorem atomAhead_eq (plain : ∀ c ∈ word, isDelimiter c = false) : atomAhead word = word := by
  have alone := atomAhead_append plain delimited_nil
  rwa [List.append_nil] at alone

def isMark (c : Char) : Bool :=
  c ∈ ['(', '[', ')', ']', '`', '\'', ',', '"', '#']

theorem lexeme?_plain (plain : isMark c = false) (rest : List Char) :
    lexeme? (c :: rest) = some (.plainAtom (c :: atomAhead rest)) := by
  unfold lexeme?
  split <;> simp_all [isMark]

structure Solid (c : Char) (rest : List Char) : Prop where
  visible : Text.isBlank c = false
  line : c ≠ ';'
  block : c = '#' → rest.head? ≠ some '|'

theorem skipGap_solid (solid : Solid c rest) (length : Nat) :
    skipGap .blank length (c :: rest) = .ok length := by
  have line := solid.line
  have visible := solid.visible
  cases rest with
  | nil => simp [skipGap, visible, line]
  | cons d rest =>
    have block : ¬ (c = '#' ∧ d = '|') := fun both => solid.block both.1 (by rw [both.2]; rfl)
    simp only [skipGap, visible, line, Bool.and_eq_true, decide_eq_true_eq, block, if_false]
    rfl

/-- Tokens that go on to the next delimiter. -/
def TokenKind.isDelimited : TokenKind → Bool
  | .identifier _ | .boolean _ | .integer _ | .float _ | .character _ | .dot => true
  | _ => false

structure TokenKind.Precedes (kind : TokenKind) (rest : List Char) : Prop where
  delimited : kind.isDelimited = true → Delimited rest
  comma : kind = .comma → rest.head? ≠ some '@'

/-- Anything may stand behind a token that ends by itself. -/
theorem TokenKind.Precedes.of_loose (loose : kind.isDelimited = false) (other : kind ≠ .comma) :
    kind.Precedes text :=
  ⟨fun atom => absurd (loose.symm.trans atom) Bool.false_ne_true, fun comma => absurd comma other⟩

theorem TokenKind.Precedes.of_delimited (delimited : Delimited text)
    (atom : kind.isDelimited = true) : kind.Precedes text where
  delimited _ := delimited
  comma := by
    rintro rfl
    cases atom

theorem exists_atomAhead (text : List Char) : ∃ behind, text = atomAhead text ++ behind ∧
    Delimited behind ∧
      ∀ rest, Delimited rest → atomAhead (atomAhead text ++ rest) = atomAhead text := by
  refine ⟨_, List.takeWhile_append_dropWhile.symm, fun c head => ?_, fun rest delimited => ?_⟩
  · have stops := text.head?_dropWhile_not fun c => !isDelimiter c
    rw [Option.mem_def.mp head] at stops
    simpa using stops
  · refine atomAhead_append (undelimited_of_all ?_) delimited
    exact List.all_takeWhile

namespace Lexeme

theorem delimited_number (found : (number atom).result = .ok kind) : kind.isDelimited = true := by
  rw [number] at found
  split at found
  all_goals cases found
  all_goals rfl

theorem delimited_plainAtom (found : (plainAtom atom).result = .ok kind) :
    kind.isDelimited = true := by
  rw [plainAtom] at found
  repeat' split at found
  case isFalse.isTrue => exact delimited_number found
  all_goals cases found
  all_goals rfl

theorem delimited_poundAtom (found : (poundAtom atom).result = .ok kind) :
    kind.isDelimited = true := by
  simp only [poundAtom] at found
  repeat' split at found
  case isFalse.isFalse.isTrue => exact delimited_number found
  all_goals cases found
  all_goals rfl

theorem exists_of_character (found : (character text).result = .ok kind) :
    ∃ first more v, text = first :: more ∧ kind = .character v ∧
      (character text).length = 3 + (atomAhead more).length := by
  cases text with
  | nil => cases found
  | cons first more =>
    refine ⟨first, more, ?_⟩
    simp only [character] at found ⊢
    repeat' split at found
    all_goals cases found
    all_goals simp_all

/-- `Closes scan length text`: what the scan finds is in a front of the text, and what stands behind
it does not matter. -/
def Closes (scan : List Char → Lexeme) (length : Nat) (text : List Char) : Prop :=
  ∃ front behind, text = front ++ behind ∧ (scan text).length = length + front.length ∧
    ∀ rest, scan (front ++ rest) = scan text

theorem Closes.cons {scan scan' : List Char → Lexeme} {length : Nat}
    (closes : Closes scan (length + 1) text) (step : ∀ rest, scan' (c :: rest) = scan rest) :
    Closes scan' length (c :: text) := by
  obtain ⟨front, behind, rfl, size, same⟩ := closes
  refine ⟨c :: front, behind, rfl, ?_, fun rest => ?_⟩
  · rw [step, size, List.length_cons]
    omega
  · rw [step, ← same rest]
    exact step _

theorem closes_string {done : List Char} {length mark : Nat} {mode : StringMode}
    (found : (string done length mark mode text).result = .ok kind) :
    (∃ v, kind = .string v) ∧ Closes (string done length mark mode) length text := by
  induction text generalizing done length mark mode with
  | nil =>
    unfold string at found
    repeat' split at found
    all_goals cases found
  | cons c text ih =>
    unfold string at found
    dsimp only at found
    repeat' split at found
    all_goals first
      | (refine (ih found).imp_right (·.cons fun rest => ?_)
         grind [string])
      | (cases found
         refine ⟨⟨_, rfl⟩, [c], text, rfl, ?_, fun rest => ?_⟩ <;> grind [string, token])
      | cases found

/-- The characters that make something else than an atom of a pound sign before them. -/
theorem exists_of_poundAtom (found : (poundAtom ('#' :: word)).result = .ok kind) :
    ∃ c more, word = c :: more ∧ c ∉ [';', '(', '\\', 'u', 'U'] := by
  cases word with
  | nil => cases found
  | cons c more =>
    refine ⟨c, more, rfl, fun other => ?_⟩
    simp only [List.mem_cons, List.not_mem_nil, or_false] at other
    rcases other with rfl | rfl | rfl | rfl | rfl <;>
      simp [poundAtom, Number.looksNumeric, fault] at found

end Lexeme

theorem lexeme?_pound (other : c ∉ [';', '(', '\\', 'u', 'U']) (rest : List Char) :
    lexeme? ('#' :: c :: rest) = some (.poundAtom ('#' :: atomAhead (c :: rest))) := by
  unfold lexeme?
  split <;> grind

open Lexeme in
/-- A token is found in any text that starts with its characters, if what stands behind it may. -/
theorem lexeme?_local {lexeme : Lexeme} (found : lexeme? text = some lexeme)
    (res : lexeme.result = .ok kind) :
    ∃ front behind, text = front ++ behind ∧ front.length = lexeme.length ∧ kind.Precedes behind ∧
      ∀ rest, kind.Precedes rest → lexeme? (front ++ rest) = some lexeme := by
  unfold lexeme? at found
  split at found
  all_goals cases found
  case h_10 ahead =>
    obtain ⟨⟨v, rfl⟩, front, behind, rfl, size, same⟩ := closes_string res
    refine ⟨'"' :: front, behind, rfl, ?_, .of_loose rfl (by simp), fun rest _ => ?_⟩
    · rw [size, List.length_cons, Nat.add_comm]
    · rw [← same rest]
      rfl
  case h_13 =>
    obtain ⟨first, ahead, v, rfl, rfl, size⟩ := exists_of_character res
    obtain ⟨behind, whole, delimited, same⟩ := exists_atomAhead ahead
    refine ⟨'#' :: '\\' :: first :: atomAhead ahead, behind,
      by rw [whole, same _ delimited]; rfl, ?_, .of_delimited delimited rfl, fun rest precedes => ?_⟩
    · rw [size, Nat.add_comm]
      rfl
    · simp only [List.cons_append, lexeme?, character, same rest (precedes.delimited rfl)]
  case h_16 ahead _ _ _ _ _ =>
    obtain ⟨behind, whole, delimited, same⟩ := exists_atomAhead ahead
    have atom := delimited_poundAtom res
    obtain ⟨c, more, word, other⟩ := exists_of_poundAtom res
    refine ⟨'#' :: atomAhead ahead, behind, congrArg _ whole, (length_poundAtom _).symm,
      .of_delimited delimited atom, fun rest precedes => ?_⟩
    have same := same rest (precedes.delimited atom)
    rw [word] at same ⊢
    rw [List.cons_append, List.cons_append, lexeme?_pound other, ← List.cons_append, same]
  case h_17 first ahead _ _ _ _ _ _ _ _ _ _ _ _ _ _ _ =>
    have plain : isMark first = false := by simp_all [isMark]
    obtain ⟨behind, whole, delimited, same⟩ := exists_atomAhead ahead
    have atom := delimited_plainAtom res
    refine ⟨first :: atomAhead ahead, behind, congrArg _ whole, (length_plainAtom _).symm,
      .of_delimited delimited atom, fun rest precedes => ?_⟩
    rw [List.cons_append, lexeme?_plain plain, same rest (precedes.delimited atom)]
  all_goals cases res
  case h_9 ahead other =>
    refine ⟨[','], ahead, rfl, rfl, ⟨fun atom => absurd atom Bool.false_ne_true,
      fun _ at_sign => ?_⟩, fun rest precedes => ?_⟩
    · obtain ⟨more, rfl⟩ := List.head?_eq_some_iff.mp at_sign
      exact other more rfl
    · rw [List.singleton_append, lexeme?]
      rintro more rfl
      exact precedes.comma rfl rfl
  all_goals first
    | exact ⟨[_], _, rfl, rfl, .of_loose rfl (by simp), fun _ _ => rfl⟩
    | exact ⟨[_, _], _, rfl, rfl, .of_loose rfl (by simp), fun _ _ => rfl⟩
    | exact ⟨[_, _, _, _], _, rfl, rfl, .of_loose rfl (by simp), fun _ _ => rfl⟩

/-- A text that is a token is found in front of anything that may stand behind it. -/
theorem lexeme?_append (found : lexeme? text = some (.token kind text.length))
    (precedes : kind.Precedes rest) : lexeme? (text ++ rest) = some (.token kind text.length) := by
  obtain ⟨front, behind, whole, size, -, same⟩ := lexeme?_local found rfl
  have all : front = text := List.IsPrefix.eq_of_length ⟨behind, whole.symm⟩ size
  exact all ▸ same rest precedes

theorem Cursor.items_eq (cursor : Cursor) : cursor.items = match cursor.next? with
    | none => []
    | some (item, following) => item :: following.items := by
  rw [Cursor.items]
  split <;> simp only [*]

theorem Cursor.items_of_next? {cursor following : Cursor} {item : Except TokenError Token}
    (found : cursor.next? = some (item, following)) : cursor.items = item :: following.items := by
  rw [items_eq, found]

/-- What a token is made of: a gap, and a lexeme behind it. -/
theorem Cursor.exists_lexeme_of_next? {cursor following : Cursor} {token : Token}
    (found : cursor.next? = some (.ok token, following)) :
    ∃ gap lexeme, skipGap .blank 0 cursor.rest = .ok gap ∧
      lexeme? (cursor.advance gap).rest = some lexeme ∧ lexeme.result = .ok token.kind ∧
      token.location = (cursor.advance gap).location ∧
      following = (cursor.advance gap).advance lexeme.length := by
  rw [next?] at found
  split at found
  · cases found
  · rename_i gap skipped
    obtain ⟨lexeme, ahead, res⟩ := Option.map_eq_some_iff.mp found
    refine ⟨gap, lexeme, skipped, ahead, ?_⟩
    cases scanned : lexeme.result with
    | error flaw =>
      rw [scanned] at res
      cases res
    | ok kind =>
      rw [scanned] at res
      cases res
      exact ⟨rfl, rfl, rfl⟩

namespace Cursor

variable {cursor following : Cursor} {token : Token}

theorem advance_append (front rest : List Char) (loc : Location) :
    (Cursor.mk (front ++ rest) loc).advance front.length = ⟨rest, loc.afterAll front⟩ := by
  simp [advance]

theorem next?_eq {gap front rest : List Char}
    (skipped : skipGap .blank 0 (gap ++ (front ++ rest)) = .ok gap.length)
    (found : lexeme? (front ++ rest) = some (.token kind front.length)) (loc : Location) :
    (Cursor.mk (gap ++ (front ++ rest)) loc).next? =
      some (.ok ⟨kind, loc.afterAll gap⟩, ⟨rest, (loc.afterAll gap).afterAll front⟩) := by
  simp only [next?, skipped, advance_append, found, Option.map_some, Lexeme.token]

/-- The characters of a token, and those of the gap in front of it. -/
theorem exists_front (found : cursor.next? = some (.ok token, following)) :
    ∃ gap front, cursor.rest = gap ++ (front ++ following.rest) ∧
      skipGap .blank 0 cursor.rest = .ok gap.length ∧
      token.location = cursor.location.afterAll gap ∧
      following.location = (cursor.location.afterAll gap).afterAll front ∧
      token.kind.Precedes following.rest ∧ ∀ rest, token.kind.Precedes rest →
        lexeme? (front ++ rest) = some (.token token.kind front.length) := by
  obtain ⟨text, loc⟩ := cursor
  obtain ⟨n, lexeme, skipped, ahead, res, start, rfl⟩ := exists_lexeme_of_next? found
  obtain ⟨front, behind, whole, size, precedes, same⟩ := lexeme?_local ahead res
  have some_text : 0 < (text.drop n).length := List.length_pos_iff.mpr (ne_nil_of_lexeme? ahead)
  rw [List.length_drop] at some_text
  have inside : (text.take n).length = n := List.length_take_of_le (by omega)
  have text_eq : text = text.take n ++ (front ++ behind) := by
    rw [← whole, rest_advance, List.take_append_drop]
  generalize text.take n = gap at inside text_eq
  subst inside text_eq
  rw [advance_append] at start ⊢
  rw [← size, advance_append]
  obtain ⟨_, _⟩ := lexeme
  cases res
  cases size
  exact ⟨gap, front, rfl, skipped, start, rfl, precedes, same⟩

end Cursor

end MiniScheme
