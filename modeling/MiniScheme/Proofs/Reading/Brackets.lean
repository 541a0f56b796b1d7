import Mathlib.Data.List.Forall2
import MiniScheme.Proofs.Reading.Legible
import MiniScheme.Proofs.Reading.Relocation

/-!
# Square brackets

Square brackets open and close lists as parentheses do, but they do not end an atom. A parenthesis
that opens or closes a list may be written as a square bracket without a change to what is read,
unless it stands directly behind an atom.
-/

namespace MiniScheme

def Turns (c c' : Char) : Prop :=
  c' = c ∨ c = '(' ∧ c' = '[' ∨ c = ')' ∧ c' = ']'

variable {c c' : Char} {text text' : List Char} {kind : TokenKind}

theorem Turns.same (turns : Turns c c') : Text.isBlank c' = Text.isBlank c ∧
    (c' = '\n' ↔ c = '\n') ∧ (c' = ';' ↔ c = ';') ∧ (c' = '#' ↔ c = '#') ∧
      (c' = '|' ↔ c = '|') := by
  rcases turns with rfl | ⟨rfl, rfl⟩ | ⟨rfl, rfl⟩ <;> simp [Text.isBlank]

theorem turned_refl (text : List Char) : List.Forall₂ Turns text text :=
  List.forall₂_same.mpr fun _ _ => .inl rfl

section

variable (turned : List.Forall₂ Turns text text')

include turned

/-- Brackets and parentheses are alike in comments, and neither is blank. -/
theorem skipGap_turned (gap : Gap) (length : Nat) :
    skipGap gap length text' = skipGap gap length text := by
  fun_induction skipGap gap length text generalizing text'
  all_goals
    simp only [List.forall₂_nil_left_iff, List.forall₂_cons_left_iff] at turned
    grind [skipGap, → Turns.same, List.Forall₂.cons]

theorem afterAll_turned (loc : Location) : loc.afterAll text' = loc.afterAll text := by
  induction turned generalizing loc with
  | nil => rfl
  | cons turns _ ih =>
    have same := turns.same.2.1
    simp only [Location.afterAll, List.foldl_cons, Location.after, same] at ih ⊢
    exact ih _

theorem precedes_turned (precedes : kind.Precedes text)
    (apart : kind.isDelimited = true → ∀ c ∈ text'.head?, c ∉ ['[', ']']) :
    kind.Precedes text' := by
  cases turned with
  | nil => exact precedes
  | cons turns _ =>
    rcases turns with rfl | ⟨rfl, rfl⟩ | ⟨rfl, rfl⟩
    · exact ⟨precedes.delimited, precedes.comma⟩
    all_goals exact ⟨fun atom => absurd (apart atom _ rfl) (by decide), nofun⟩

end

/-- The square bracket for a token that opens or closes a list. -/
def TokenKind.bracket? : TokenKind → Option Char
  | .openList => some '['
  | .close => some ']'
  | _ => none

theorem lexeme?_bracket {lexeme : Lexeme} {bracket : Char} (found : lexeme? text = some lexeme)
    (res : lexeme.result = .ok kind) (brackets : kind.bracket? = some bracket) :
    lexeme.length = 1 ∧ (∀ c ∈ text.head?, Turns c bracket) ∧
      ∀ rest, lexeme? (bracket :: rest) = some lexeme := by
  have other : kind.isDelimited ≠ true := fun atom => by
    cases kind <;> cases atom <;> cases brackets
  unfold lexeme? at found
  split at found
  all_goals cases found
  case h_10 =>
    obtain ⟨⟨v, rfl⟩, -⟩ := Lexeme.closes_string res
    cases brackets
  case h_13 =>
    obtain ⟨-, -, v, -, rfl, -⟩ := Lexeme.exists_of_character res
    cases brackets
  case h_16 => exact absurd (Lexeme.delimited_poundAtom res) other
  case h_17 => exact absurd (Lexeme.delimited_plainAtom res) other
  all_goals
    cases res
    cases brackets
  all_goals exact ⟨rfl, by simp [Turns], fun _ => rfl⟩

namespace Cursor

variable {cursor following : Cursor} {token : Token} {chosen : Token → Bool}

/-- The text up to behind a token, with a square bracket for the token if it is chosen. -/
def respelled (chosen : Token → Bool) (cursor following : Cursor) (token : Token) : List Char :=
  let text := cursor.rest.take (cursor.rest.length - following.rest.length)
  match token.kind.bracket?.filter fun _ => chosen token with
  | some bracket => text.dropLast ++ [bracket]
  | none => text

/-- The text ahead, with square brackets for the chosen tokens that open or close lists. -/
def bracketed (chosen : Token → Bool) (cursor : Cursor) : List Char :=
  match _found : cursor.next? with
  | some (.ok token, following) =>
    cursor.respelled chosen following token ++ following.bracketed chosen
  | _ => cursor.rest
termination_by cursor.rest.length
decreasing_by exact length_lt_of_next? _found

/-- Whether no atom ahead has a square bracket directly behind it then. -/
def isApart (chosen : Token → Bool) (cursor : Cursor) : Bool :=
  match _found : cursor.next? with
  | some (.ok token, following) =>
    (!token.kind.isDelimited || (following.bracketed chosen).head?.all (· ∉ ['[', ']'])) &&
      following.isApart chosen
  | _ => true
termination_by cursor.rest.length
decreasing_by exact length_lt_of_next? _found

/-- A token is found again, whether it is a square bracket now or not. -/
theorem next?_respelled (found : cursor.next? = some (.ok token, following)) {rest : List Char}
    (turned : List.Forall₂ Turns following.rest rest)
    (apart : token.kind.isDelimited = true → ∀ c ∈ rest.head?, c ∉ ['[', ']']) :
    List.Forall₂ Turns cursor.rest (respelled chosen cursor following token ++ rest) ∧
      (Cursor.mk (respelled chosen cursor following token ++ rest) cursor.location).next? =
        some (.ok token, ⟨rest, following.location⟩) := by
  obtain ⟨gap, front, whole, skipped, start, place, precedes, scanned⟩ := exists_front found
  -- The token is spelled as before, or as a bracket.
  obtain ⟨front', spelled, turns, scanned'⟩ : ∃ front',
      respelled chosen cursor following token = gap ++ front' ∧ List.Forall₂ Turns front front' ∧
        lexeme? (front' ++ rest) = some (.token token.kind front.length) := by
    have upto : cursor.rest.take (cursor.rest.length - following.rest.length) = gap ++ front := by
      rw [whole, ← List.append_assoc, List.length_append, Nat.add_sub_cancel, List.take_left]
    simp only [respelled, upto]
    split
    · rename_i bracket written
      have ahead := scanned _ precedes
      obtain ⟨one, turns, again⟩ :=
        lexeme?_bracket ahead rfl (Option.filter_eq_some_iff.mp written).1
      obtain ⟨c, rfl⟩ := List.length_eq_one_iff.mp one
      exact ⟨[bracket], by simp, .cons (turns c rfl) .nil, again rest⟩
    · exact ⟨front, rfl, turned_refl front, scanned rest (precedes_turned turned precedes apart)⟩
  have all := List.rel_append (turned_refl gap) (List.rel_append turns turned)
  rw [spelled, List.append_assoc, whole]
  refine ⟨all, ?_⟩
  rw [turns.length_eq] at scanned'
  rw [whole, ← skipGap_turned all] at skipped
  rw [next?_eq skipped scanned', afterAll_turned turns, ← place, ← start]

theorem bracketed_of_next? (found : cursor.next? = some (.ok token, following)) :
    cursor.bracketed chosen =
        respelled chosen cursor following token ++ following.bracketed chosen ∧
      cursor.isApart chosen =
        ((!token.kind.isDelimited || (following.bracketed chosen).head?.all (· ∉ ['[', ']'])) &&
          following.isApart chosen) := by
  rw [bracketed, isApart]
  constructor
  all_goals
    split
    · rename_i found'
      cases found.symm.trans found'
      rfl
    · rename_i other
      exact absurd found (other token following)

theorem items_bracketed (clean : ∀ flaw, .error flaw ∉ cursor.items)
    (apart : cursor.isApart chosen = true) :
    List.Forall₂ Turns cursor.rest (cursor.bracketed chosen) ∧
      (Cursor.mk (cursor.bracketed chosen) cursor.location).items = cursor.items := by
  fun_induction Cursor.items cursor with
  | case1 cursor ended =>
    have same : cursor.bracketed chosen = cursor.rest := by
      rw [bracketed]
      split
      · rename_i found
        cases ended.symm.trans found
      · rfl
    rw [same, items]
    refine ⟨turned_refl _, ?_⟩
    split
    · rfl
    · rename_i found
      cases ended.symm.trans found
  | case2 cursor item following found ih =>
    cases item with
    | error flaw => exact absurd List.mem_cons_self (clean flaw)
    | ok token =>
      obtain ⟨text, condition⟩ := @bracketed_of_next? _ _ _ chosen found
      rw [condition, Bool.and_eq_true] at apart
      obtain ⟨turned, same⟩ := ih (fun flaw mem => clean flaw (List.mem_cons_of_mem _ mem)) apart.2
      have here : token.kind.isDelimited = true →
          ∀ c ∈ (following.bracketed chosen).head?, c ∉ ['[', ']'] := by
        intro atom c head
        have round := apart.1
        rw [atom, Option.mem_def.mp head] at round
        exact of_decide_eq_true round
      obtain ⟨turned', found'⟩ := @next?_respelled _ _ _ chosen found _ turned here
      rw [text]
      exact ⟨turned', by rw [items_of_next? found', same]⟩

end Cursor

/-- The source with square brackets for the chosen tokens that open or close lists. -/
def Source.bracketed (source : Source) (chosen : Token → Bool) : Source :=
  { source with text := String.ofList ((Cursor.ofString source.text).bracketed chosen) }

/-- Square brackets stand for parentheses, except behind an atom. For every text that can be read and
every choice of tokens in it that open or close lists, the text with square brackets for these
tokens is read as the same data at the same places, if no atom has a square bracket directly behind
it then. -/
theorem read_bracketed {source : Source} {data : List Datum} (found : read source = .ok data)
    (chosen : Token → Bool) (apart : (Cursor.ofString source.text).isApart chosen = true) :
    read (source.bracketed chosen) = .ok (data.map (.moved (source.bracketed chosen) id)) := by
  obtain ⟨state, ran, rfl⟩ := read_eq_ok_iff.mp found
  obtain ⟨-, same⟩ := Cursor.items_bracketed
    (Reader.error_not_mem_of_run source (by rw [← tokenize, ran])) apart
  have text : tokenize (source.bracketed chosen).text = tokenize source.text := by
    rw [tokenize, Cursor.ofString, Source.bracketed, String.toList_ofList]
    exact same
  have moved := Reader.run_moved (source.bracketed chosen) id [] source {} (tokenize source.text)
  rw [ran, List.map_id'' (by rintro (_ | _) <;> rfl)] at moved
  rw [read_eq_ok_iff, text]
  refine ⟨_, moved, ?_⟩
  simp [Reader.State.moved]

/-- A list in a list, with a blank in front of where the outer one ends. -/
def nested : Source :=
  { text := "(a (b) )" }

/-- All brackets of it, and all but the one behind an atom. -/
theorem read_bracketed_nested :
    (∃ data, read nested = .ok data ∧
      read { text := "[a [b) ]" } = .ok (data.map (.moved { text := "[a [b) ]" } id))) ∧
    (nested.bracketed fun _ => true).text = "[a [b] ]" ∧
    ∃ error, read { text := "[a [b] ]" } = .error error := by
  have answer : (read nested).toOption.isSome = true := by decide +kernel
  refine ⟨?_, by decide +kernel, ?_⟩
  · cases found : read nested with
    | error error =>
      rw [found] at answer
      cases answer
    | ok data =>
      have same : (nested.bracketed fun token => token.location.index ≠ 5) =
          { text := "[a [b) ]" } := by
        decide +kernel
      exact ⟨data, rfl, same ▸ read_bracketed found _ (by decide +kernel)⟩
  · cases result : read { text := "[a [b] ]" } with
    | error error => exact ⟨error, rfl⟩
    | ok data =>
      have failed : (read { text := "[a [b] ]" }).toOption.isSome = false := by decide +kernel
      rw [result] at failed
      cases failed

end MiniScheme
