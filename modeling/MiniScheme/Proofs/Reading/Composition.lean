import MiniScheme.Proofs.Reading.Brackets
import MiniScheme.Proofs.Reading.Locations

/-!
# Reading one text after another

A text that can be read leaves nothing open, neither in the scanner nor in the reader. So what stands
behind it on a new line is read as it would be read alone, only further on.
-/

namespace MiniScheme

def Gap.later (count : Nat) : Gap → Gap
  | .blockComment depth start => .blockComment depth (start + count)
  | gap => gap

theorem skipGap_later (gap : Gap) (length n : Nat) (text : List Char) :
    skipGap (gap.later n) (length + n) text = match skipGap gap length text with
      | .ok total => .ok (total + n)
      | .error start => .error (start + n) := by
  fun_induction skipGap gap length text <;> grind [skipGap, Gap.later]

theorem skipGap_append {gap : Gap} {length total : Nat} {text : List Char}
    (skipped : skipGap gap length text = .ok total) (rest : List Char) :
    skipGap gap length (text ++ '\n' :: rest) =
      if total < length + text.length then .ok total else skipGap .blank (total + 1) rest := by
  have blank : Text.isBlank '\n' = true := rfl
  have ends (length : Nat) :
      skipGap .blank length ('\n' :: rest) = skipGap .blank (length + 1) rest := by
    cases rest <;> simp [skipGap, blank]
  have ends' (length : Nat) :
      skipGap .lineComment length ('\n' :: rest) = skipGap .blank (length + 1) rest := by
    cases rest <;> simp [skipGap]
  fun_induction skipGap gap length text <;> grind [skipGap, cases Gap]

namespace Cursor

variable {cursor following : Cursor} {token : Token} {front rest : List Char} {loc : Location}

/-- What stands behind a new line does not change what is found before it. -/
theorem next?_newline (found : cursor.next? = some (.ok token, following)) (rest : List Char) :
    (Cursor.mk (cursor.rest ++ '\n' :: rest) cursor.location).next? =
      some (.ok token, ⟨following.rest ++ '\n' :: rest, following.location⟩) := by
  obtain ⟨gap, front, whole, skipped, start, place, precedes, scanned⟩ := exists_front found
  have precedes' : token.kind.Precedes (following.rest ++ '\n' :: rest) := by
    cases ahead : following.rest with
    | nil => exact ⟨fun _ => delimited_cons rfl rest, fun _ => nofun⟩
    | cons c more =>
      rw [ahead] at precedes
      exact ⟨precedes.delimited, precedes.comma⟩
  have scanned' := scanned _ precedes'
  have inside := List.length_pos_iff.mpr (ne_nil_of_lexeme? (scanned _ precedes))
  have skipped' := skipGap_append skipped rest
  rw [whole, List.length_append, if_pos (by omega), List.append_assoc, List.append_assoc] at skipped'
  rw [whole, List.append_assoc, List.append_assoc, next?_eq skipped' scanned', place, ← start]

/-- If only a gap is left, scanning goes on behind the new line. -/
theorem next?_gap (skipped : skipGap .blank 0 front = .ok front.length) :
    (Cursor.mk (front ++ '\n' :: rest) loc).next? =
      (Cursor.mk rest (loc.afterAll (front ++ ['\n']))).next? := by
  have whole := skipGap_append skipped rest
  rw [if_neg (by omega)] at whole
  have shifted := skipGap_later .blank 0 (front.length + 1) rest
  rw [Nat.zero_add] at shifted
  change skipGap .blank _ rest = _ at shifted
  have moved (n : Nat) :
      (Cursor.mk (front ++ '\n' :: rest) loc).advance (n + (front.length + 1)) =
        (Cursor.mk rest (loc.afterAll (front ++ ['\n']))).advance n := by
    have first := advance_append (front ++ ['\n']) rest loc
    rw [List.append_assoc, List.length_append] at first
    rw [Nat.add_comm, ← advance_advance]
    exact congrArg (·.advance n) first
  have size : (front ++ '\n' :: rest).length = rest.length + (front.length + 1) := by
    simp only [List.length_append, List.length_cons]
    omega
  rw [next?, next?, whole, shifted]
  cases skipGap .blank 0 rest with
  | error start => simp only [size, moved]
  | ok gap => simp only [moved]

theorem items_newline (clean : ∀ flaw, .error flaw ∉ cursor.items) (rest : List Char) :
    (Cursor.mk (cursor.rest ++ '\n' :: rest) cursor.location).items =
      cursor.items ++ (Cursor.mk rest (cursor.location.afterAll (cursor.rest ++ ['\n']))).items := by
  fun_induction Cursor.items cursor with
  | case1 cursor ended => rw [items_eq, next?_gap (filler_of_next? ended).1, ← items_eq, List.nil_append]
  | case2 cursor item following found ih =>
    cases item with
    | error flaw => exact absurd List.mem_cons_self (clean flaw)
    | ok token =>
      rw [items_of_next? (next?_newline found rest),
        ih fun flaw mem => clean flaw (List.mem_cons_of_mem _ mem)]
      obtain ⟨-, n, -, rfl⟩ := ahead_of_next? found
      simp only [advance, ← Location.afterAll_append, ← List.append_assoc, List.take_append_drop,
        List.cons_append]

def moved (move : Location → Location) (cursor : Cursor) : Cursor :=
  ⟨cursor.rest, move cursor.location⟩

section

variable {move : Location → Location}
  (steps : ∀ loc c, move (loc.after c) = (move loc).after c)

include steps

theorem advance_moved (cursor : Cursor) (n : Nat) :
    (cursor.moved move).advance n = (cursor.advance n).moved move := by
  have after (text : List Char) (loc : Location) :
      (move loc).afterAll text = move (loc.afterAll text) := by
    induction text generalizing loc with
    | nil => rfl
    | cons c text ih =>
      simp only [Location.afterAll, List.foldl_cons, ← steps]
      exact ih _
  exact congrArg (Cursor.mk _) (after ..)

theorem next?_moved (cursor : Cursor) :
    (cursor.moved move).next? =
      cursor.next?.map fun (item, following) => (movedItem move item, following.moved move) := by
  have same (cursor : Cursor) : (cursor.moved move).rest = cursor.rest := rfl
  rw [next?, next?, same]
  cases skipGap .blank 0 cursor.rest with
  | error start =>
    simp only [advance_moved steps]
    rfl
  | ok gap =>
    simp only [advance_moved steps, same]
    cases lexeme? (cursor.advance gap).rest with
    | none => rfl
    | some lexeme =>
      obtain ⟨res, length⟩ := lexeme
      cases res <;> rfl

theorem items_moved (cursor : Cursor) :
    (cursor.moved move).items = cursor.items.map (movedItem move) := by
  fun_induction Cursor.items cursor with
  | case1 cursor ended =>
    rw [items_eq, next?_moved steps, ended]
    rfl
  | case2 cursor item following found ih =>
    rw [items_of_next? (by rw [next?_moved steps, found]; rfl), ih]
    rfl

end

end Cursor

theorem Reader.run_append {src : Source} {st after : State}
    {xs : List (Except TokenError Token)} (ran : run src st xs = (after, none))
    (others : List (Except TokenError Token)) :
    run src st (xs ++ others) = run src after others ∧ after.levels = [] := by
  fun_induction run src st xs
  all_goals simp_all [run]

/-- The location behind a text and the end of its last line. -/
def Location.behind (text : String) (location : Location) : Location where
  index := location.index + (text.length + 1)
  line := location.line + (text.toList.count '\n' + 1)
  lineStart := location.lineStart + (text.length + 1)

theorem tokenize_append {first : String} (clean : ∀ flaw, .error flaw ∉ tokenize first)
    (second : String) : tokenize (first ++ "\n" ++ second) =
      tokenize first ++ (tokenize second).map (movedItem (.behind first)) := by
  have steps (loc : Location) (c : Char) :
      (loc.after c).behind first = (loc.behind first).after c := by
    simp only [Location.after, Location.behind]
    split <;> simp [Nat.add_right_comm]
  have behind : Location.afterAll {} (first.toList ++ ['\n']) = Location.behind first {} := by
    obtain ⟨above, before, -, -, -, place⟩ := Location.exists_line first.toList
    rw [Location.afterAll_append, place]
    simp [Location.afterAll, Location.after, Location.behind, String.length_toList]
  have text : (first ++ "\n" ++ second).toList = first.toList ++ '\n' :: second.toList := by simp
  calc tokenize (first ++ "\n" ++ second)
    _ = (Cursor.mk (first.toList ++ '\n' :: second.toList) {}).items := by
      rw [tokenize, Cursor.ofString, text]
    _ = tokenize first ++ ((Cursor.ofString second).moved (.behind first)).items := by
      rw [Cursor.moved, Cursor.ofString, ← behind]
      exact @Cursor.items_newline (.ofString first) clean second.toList
    _ = tokenize first ++ (tokenize second).map (movedItem (.behind first)) := by
      rw [Cursor.items_moved steps, ← tokenize]

/-- Reading is compositional. A text that can be read, followed by a new line and another text, is
read as the data of the one and then those of the other, or fails as the other does. All that comes
from the other text is moved behind the first. -/
theorem read_append {first : Source} {data : List Datum} (found : read first = .ok data)
    (second whole : Source) (joined : whole.text = first.text ++ "\n" ++ second.text) :
    read whole = match read second with
      | .ok others => .ok (data.map (.moved whole id) ++
          others.map (.moved whole (.behind first.text)))
      | .error error => .error (error.moved (.behind first.text)) := by
  obtain ⟨state, ran, rfl⟩ := read_eq_ok_iff.mp found
  have tokens := tokenize_append (Reader.error_not_mem_of_run first (by rw [ran])) second.text
  have before := Reader.run_moved whole id [] first {} (tokenize first.text)
  rw [ran, List.map_id'' (by rintro (_ | _) <;> rfl)] at before
  obtain ⟨both, closed⟩ := Reader.run_append before
    ((tokenize second.text).map (movedItem (.behind first.text)))
  have after := Reader.run_moved whole (.behind first.text) (state.data.map (.moved whole id)) second {}
    (tokenize second.text)
  have start : state.moved whole id [] = Reader.State.moved whole (.behind first.text)
      (state.data.map (.moved whole id)) {} := by
    simp only [Reader.State.moved, List.append_nil] at closed ⊢
    rw [closed]
    rfl
  rw [start, after] at both
  change Reader.run whole {} _ = _ at both
  simp only [read, readUpToError, joined, tokens, both]
  generalize Reader.run second {} (tokenize second.text) = result
  obtain ⟨state', _ | error⟩ := result
  · simp [Reader.State.moved]
  · rfl

/-- The first text ends in a comment, and the second fails on its second line. -/
theorem read_append_commented :
    (∃ data, read { text := "a ;c" } = .ok data) ∧
    read { text := "b\n)" } = .error (.unexpectedToken ⟨2, 1, 2⟩) ∧
    read { text := "a ;c\nb\n)" } = .error (.unexpectedToken ⟨7, 2, 7⟩) := by
  have succeeds : (read { text := "a ;c" }).isOk = true := by decide +kernel
  have fails : ((read { text := "b\n)" }).map fun _ => ()) =
      .error (.unexpectedToken ⟨2, 1, 2⟩) := by decide +kernel
  cases first : read { text := "a ;c" } with
  | error =>
    rw [first] at succeeds
    cases succeeds
  | ok data =>
    cases second : read { text := "b\n)" } with
    | ok =>
      rw [second] at fails
      cases fails
    | error error =>
      rw [second] at fails
      cases fails
      have whole := read_append first { text := "b\n)" } { text := "a ;c\nb\n)" } rfl
      rw [second] at whole
      exact ⟨⟨_, rfl⟩, rfl, whole⟩

end MiniScheme
