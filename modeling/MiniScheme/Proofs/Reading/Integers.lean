import MiniScheme.Proofs.Reading.RoundTrip
import MiniScheme.Stdlib.Arithmetic

/-!
# Reading integers

A numeral in any radix reads as the number it means if that has at most 63 bits apart from the sign,
and is out of range otherwise. The least 64-bit integer has 64 bits, so it is the one integer that no
numeral reads as, and the one whose text is not read back as a number.
-/

namespace MiniScheme

open Number (Numeral)

variable (numeral : Numeral)

theorem tokenize_lexeme {c : Char} {ahead : List Char} {lexeme : Lexeme} (solid : Solid c ahead)
    (found : lexeme? (c :: ahead) = some lexeme) (whole : lexeme.length = (c :: ahead).length) :
    tokenize (String.ofList (c :: ahead)) = [match lexeme.result with
      | .ok kind => .ok ⟨kind, {}⟩
      | .error (fault, offset) =>
        .error ⟨fault, ((Cursor.mk (c :: ahead) {}).advance offset).location⟩] := by
  let cursor : Cursor := ⟨c :: ahead, {}⟩
  have behind (cursor : Cursor) (done : cursor.rest = []) : cursor.items = [] := by
    obtain ⟨_, loc⟩ := cursor
    cases done
    exact Cursor.items_nil loc
  have next : cursor.next? = some (match lexeme.result with
      | .ok kind => .ok ⟨kind, {}⟩
      | .error (fault, offset) => .error ⟨fault, (cursor.advance offset).location⟩,
      cursor.advance lexeme.length) := by
    rw [Cursor.next?, skipGap_solid solid]
    exact congrArg (Option.map _) found
  rw [tokenize, Cursor.ofString, String.toList_ofList]
  exact (Cursor.items_of_next? next).trans (congrArg _ (behind _ (by simp [whole, cursor])))

theorem read_numeral (name : Option String) :
    read { text := String.ofList numeral.text, name } =
      if -2 ^ 63 < numeral.value ∧ numeral.value < 2 ^ 63 then
        .ok [.atom (.integer (.ofInt numeral.value))
          { source := some { text := String.ofList numeral.text, name } }]
      else .error (.token ⟨.overflow, {}⟩) := by
  obtain ⟨c, ahead, text, solid, found⟩ := numeral.lexeme?_text
  rw [numeral.number_text] at found
  rw [text] at found ⊢
  rw [read, readUpToError]
  by_cases fits : -2 ^ 63 < numeral.value ∧ numeral.value < 2 ^ 63
  · rw [if_pos fits] at found ⊢
    rw [tokenize_lexeme solid found rfl]
    rfl
  · rw [if_neg fits] at found ⊢
    rw [tokenize_lexeme solid found rfl]
    rfl

/-- A numeral reads as the number that it means, unless that is the least 64-bit integer or does not
fit into 64 bits. So the text of an integer is read back as that integer, unless it is the least. -/
theorem integers_read_exactly :
    (∀ name, read { text := String.ofList numeral.text, name } =
      if -2 ^ 63 ≤ numeral.value ∧ numeral.value ≤ 2 ^ 63 - 1 ∧ numeral.value ≠ -2 ^ 63 then
        .ok [.atom (.integer (.ofInt numeral.value))
          { source := some { text := String.ofList numeral.text, name } }]
      else .error (.token ⟨.overflow, {}⟩)) ∧
    ∀ (heap : Heap) (stamp : Stamp) (value : Int64),
      (do Stdlib.stringToNumber [.string stamp (← Stdlib.numberToString heap [.integer value])]) =
        .ok (if value = Int64.minValue then .boolean false else .integer value) := by
  refine ⟨fun name => ?_, fun heap stamp value => ?_⟩
  · rw [read_numeral]
    congr 1
    simp only [eq_iff_iff]
    omega
  · have written : Stdlib.numberToString heap [.integer value] =
        .ok (String.ofList (Numeral.ofInt value.toInt).text) := by
      rw [Numeral.text_ofInt, String.ofList_toList]
      exact congrArg Except.ok String.empty_append
    have bounds : -2 ^ 63 ≤ value.toInt ∧ value.toInt < 2 ^ 63 :=
      ⟨Int64.le_toInt value, Int64.toInt_lt value⟩
    have least : value = Int64.minValue ↔ value.toInt = -2 ^ 63 := by
      rw [← Int64.toInt_inj]
      rfl
    rw [written]
    simp only [Stdlib.stringToNumber, Stdlib.unary, Stdlib.text, bind, Except.bind,
      pure, Except.pure]
    rw [read_numeral, Numeral.value_ofInt, Int64.ofInt_toInt]
    by_cases bottom : value.toInt = -2 ^ 63
    · rw [if_pos (least.mpr bottom), if_neg (by omega)]
    · rw [if_neg (mt least.mp bottom), if_pos (by omega)]

end MiniScheme
