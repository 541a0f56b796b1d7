import MiniScheme.Proofs.Reading.Locality

/-!
# Scanning makes progress

A call that finds a token or a flaw moves the cursor, and stays within the text. There is nothing
more to be found only where nothing but white space and complete comments is left. So calls that go on
behind flaws come to an end, with at most one call more than there are characters.
-/

namespace MiniScheme

/-- The text inside of a block comment: characters that neither end it nor start another one, and
complete comments. Behind it stands the mark that ends the comment. -/
inductive CommentBody : List Char → Prop
  | nil : CommentBody []
  | plain {c : Char} {rest : List Char} : (∀ d ∈ (rest ++ ['|']).head?,
      ¬ (c = '|' ∧ d = '#') ∧ ¬ (c = '#' ∧ d = '|')) → CommentBody rest → CommentBody (c :: rest)
  | comment {inner rest : List Char} : CommentBody inner → CommentBody rest →
      CommentBody ('#' :: '|' :: (inner ++ '|' :: '#' :: rest))

/-- White space and complete comments. -/
inductive Filler : List Char → Prop
  | nil : Filler []
  | blank {c : Char} {rest : List Char} : Text.isBlank c = true → Filler rest → Filler (c :: rest)
  | line {words rest : List Char} :
      '\n' ∉ words → Filler rest → Filler (';' :: (words ++ '\n' :: rest))
  | lastLine {words : List Char} : '\n' ∉ words → Filler (';' :: words)
  | block {words rest : List Char} : CommentBody words → Filler rest →
      Filler ('#' :: '|' :: (words ++ '|' :: '#' :: rest))

variable {length stop : Nat} {text : List Char}

/-- A block comment has a body, and the rest lies behind it. -/
theorem exists_commentBody {depth start : Nat}
    (skipped : skipGap (.blockComment (depth + 1) start) length text = .ok stop) :
    ∃ words rest place, text = words ++ '|' :: '#' :: rest ∧ CommentBody words ∧
      place = length + words.length + 2 ∧
      skipGap (if depth = 0 then .blank else .blockComment depth start) place rest = .ok stop := by
  induction size : text.length using Nat.strongRecOn generalizing depth length text with
  | ind size ih =>
    subst size
    match text with
    | [] | [_] => cases skipped
    | c :: d :: rest =>
      simp only [skipGap, Nat.add_sub_cancel, Bool.and_eq_true, decide_eq_true_eq] at skipped
      split at skipped
      next ends =>
        obtain ⟨rfl, rfl⟩ := ends
        exact ⟨[], rest, _, rfl, .nil, rfl, by simpa using skipped⟩
      split at skipped
      next opens =>
        obtain ⟨rfl, rfl⟩ := opens
        obtain ⟨inner, mid, _, rfl, body, rfl, skipped⟩ :=
          ih _ (by simp only [List.length_cons]; omega) skipped rfl
        obtain ⟨words, rest, _, rfl, others, rfl, skipped⟩ := ih _ (by simp; omega) skipped rfl
        exact ⟨'#' :: '|' :: (inner ++ '|' :: '#' :: words), rest, _, by simp, .comment body others,
          by simp; omega, skipped⟩
      next closes opens =>
        obtain ⟨words, rest', _, whole, body, rfl, skipped⟩ := ih _ (by simp) skipped rfl
        refine ⟨c :: words, rest', _, by rw [whole, List.cons_append], .plain ?_ body,
          by simp; omega, skipped⟩
        have next : (words ++ ['|']).head? = some d := by
          cases words <;> cases whole <;> rfl
        rw [next]
        rintro _ ⟨⟩
        exact ⟨closes, opens⟩

/-- A comment goes on to the end of the text or of its line. -/
theorem line_of_skipGap (skipped : skipGap .lineComment length text = .ok stop) :
    '\n' ∉ text ∧ stop = length + text.length ∨
      ∃ words rest place, text = words ++ '\n' :: rest ∧ '\n' ∉ words ∧
        place = length + words.length + 1 ∧ skipGap .blank place rest = .ok stop := by
  induction text generalizing length with
  | nil =>
    cases skipped
    exact .inl ⟨nofun, rfl⟩
  | cons c text ih =>
    by_cases ends : c = '\n'
    · subst ends
      refine .inr ⟨[], text, _, rfl, nofun, rfl, ?_⟩
      cases text <;> simpa [skipGap] using skipped
    · have step : skipGap .lineComment (length + 1) text = .ok stop := by
        cases text <;> simpa [skipGap, ends] using skipped
      rcases ih step with ⟨only, rfl⟩ | ⟨words, rest, _, rfl, only, rfl, skipped⟩
      · exact .inl ⟨by simp [Ne.symm ends, only], by simp; omega⟩
      · exact .inr ⟨c :: words, rest, _, rfl, by simp [Ne.symm ends, only], by simp; omega, skipped⟩

/-- What is skipped is white space and complete comments, and nothing of these follows. -/
theorem filler_of_skipGap (skipped : skipGap .blank length text = .ok stop) :
    ∃ gap rest, text = gap ++ rest ∧ stop = length + gap.length ∧ Filler gap ∧
      ∀ c ∈ rest.head?, Text.isBlank c = false ∧ c ≠ ';' := by
  induction size : text.length using Nat.strongRecOn generalizing length text with
  | ind size ih =>
    subst size
    match text with
    | [] =>
      cases skipped
      exact ⟨[], [], rfl, rfl, .nil, nofun⟩
    | c :: rest =>
      by_cases blank : Text.isBlank c = true
      · have step : skipGap .blank (length + 1) rest = .ok stop := by
          cases rest <;> simpa [skipGap, blank] using skipped
        obtain ⟨gap, rest, rfl, rfl, filler, ends⟩ := ih _ (by simp) step rfl
        exact ⟨c :: gap, rest, rfl, by simp; omega, .blank blank filler, ends⟩
      by_cases line : c = ';'
      · subst line
        have step : skipGap .lineComment (length + 1) rest = .ok stop := by
          cases rest <;> simpa [skipGap, blank] using skipped
        rcases line_of_skipGap step with ⟨only, rfl⟩ | ⟨words, rest, _, rfl, only, rfl, skipped⟩
        · exact ⟨';' :: rest, [], (List.append_nil _).symm, by simp; omega, .lastLine only, nofun⟩
        · obtain ⟨gap, rest, rfl, rfl, filler, ends⟩ := ih _ (by simp; omega) skipped rfl
          exact ⟨_, rest, by simp, by simp; omega, .line only filler, ends⟩
      by_cases block : c = '#' ∧ rest.head? = some '|'
      · obtain ⟨rfl, bar⟩ := block
        obtain ⟨more, rfl⟩ := List.head?_eq_some_iff.mp bar
        have step : skipGap (.blockComment (0 + 1) length) (length + 2) more = .ok stop := skipped
        obtain ⟨words, rest, _, rfl, body, rfl, skipped⟩ := exists_commentBody step
        obtain ⟨gap, rest, rfl, rfl, filler, ends⟩ := ih _ (by simp; omega) skipped rfl
        exact ⟨_, rest, by simp, by simp; omega, .block body filler, ends⟩
      · have visible : Text.isBlank c = false := Bool.not_eq_true _ ▸ blank
        have here := skipGap_solid ⟨visible, line, fun mark bar => block ⟨mark, bar⟩⟩ length
        cases here.symm.trans skipped
        exact ⟨[], c :: rest, rfl, rfl, .nil, by simp [visible, line]⟩

theorem eq_nil_of_lexeme? {text : List Char} (nothing : lexeme? text = none) : text = [] := by
  unfold lexeme? at nothing
  split at nothing <;> first | rfl | cases nothing

namespace Location

theorem afterAll_append (loc : Location) (front rest : List Char) :
    loc.afterAll (front ++ rest) = (loc.afterAll front).afterAll rest :=
  List.foldl_append

theorem index_afterAll (loc : Location) (text : List Char) :
    (loc.afterAll text).index = loc.index + text.length := by
  induction text generalizing loc with
  | nil => rfl
  | cons c text ih =>
    have moved : (loc.after c).index = loc.index + 1 := by
      rw [after]
      split <;> rfl
    rw [afterAll, List.foldl_cons, ← afterAll, ih, moved, List.length_cons]
    omega

end Location

namespace Cursor

variable {cursor following : Cursor} {item : Except TokenError Token} {text : String} {calls : Nat}

theorem advance_advance (cursor : Cursor) (first second : Nat) :
    (cursor.advance first).advance second = cursor.advance (first + second) := by
  simp only [advance, List.drop_drop, ← Location.afterAll_append, List.take_add]

def place : Except TokenError Token → Location
  | .ok token => token.location
  | .error error => error.location

/-- Whatever is found is ahead, and so is the cursor then. -/
theorem ahead_of_next? (found : cursor.next? = some (item, following)) :
    ∃ start n, place item = (cursor.advance start).location ∧ following = cursor.advance n := by
  rw [next?] at found
  split at found
  · cases found
    exact ⟨_, _, rfl, rfl⟩
  · obtain ⟨lexeme, -, res⟩ := Option.map_eq_some_iff.mp found
    cases scanned : lexeme.result with
    | ok kind =>
      rw [scanned] at res
      cases res
      exact ⟨_, _, rfl, advance_advance ..⟩
    | error flaw =>
      rw [scanned] at res
      cases res
      exact ⟨_, _, congrArg location (advance_advance ..), advance_advance ..⟩

/-- The cursor stands in the text, behind a front of it. -/
def Within (text : String) (cursor : Cursor) : Prop :=
  ∃ front, text.toList = front ++ cursor.rest ∧ cursor.location = Location.afterAll {} front

theorem Within.advance (within : Within text cursor) (n : Nat) :
    Within text (cursor.advance n) := by
  obtain ⟨front, whole, place⟩ := within
  refine ⟨front ++ cursor.rest.take n, ?_, ?_⟩
  · rw [rest_advance, List.append_assoc, List.take_append_drop, whole]
  · rw [Location.afterAll_append, ← place]
    rfl

theorem Within.index (within : Within text cursor) :
    cursor.location.index + cursor.rest.length = text.length := by
  obtain ⟨front, whole, place⟩ := within
  rw [place, Location.index_afterAll, ← String.length_toList, whole, List.length_append, Nat.zero_add]

/-- `Reached text calls cursor`: so many calls, each of which found something, lead to the cursor. -/
inductive Reached (text : String) : Nat → Cursor → Prop
  | start : Reached text 0 (ofString text)
  | call {calls : Nat} {cursor following : Cursor} {item : Except TokenError Token} :
      Reached text calls cursor → cursor.next? = some (item, following) →
        Reached text (calls + 1) following

theorem Reached.within (reached : Reached text calls cursor) : Within text cursor := by
  induction reached with
  | start => exact ⟨[], rfl, rfl⟩
  | call _ found ih =>
    obtain ⟨-, n, -, rfl⟩ := ahead_of_next? found
    exact ih.advance n

theorem Reached.calls_le (reached : Reached text calls cursor) :
    calls + cursor.rest.length ≤ text.length := by
  induction reached with
  | start => exact Nat.le_of_eq ((Nat.zero_add _).trans String.length_toList)
  | call _ found ih =>
    have less := length_lt_of_next? found
    omega

theorem Reached.exists_last (reached : Reached text calls cursor) :
    ∃ last, Reached text (calls + cursor.items.length) last ∧ last.next? = none := by
  fun_induction Cursor.items cursor generalizing calls with
  | case1 cursor ended => exact ⟨cursor, reached, ended⟩
  | case2 cursor item following found ih =>
    obtain ⟨last, reached', ended⟩ := ih (reached.call found)
    exact ⟨last, by rwa [List.length_cons, ← Nat.succ_add_eq_add_succ], ended⟩

/-- Where nothing is found, only white space and comments are left. -/
theorem filler_of_next? (nothing : cursor.next? = none) :
    skipGap .blank 0 cursor.rest = .ok cursor.rest.length ∧ Filler cursor.rest := by
  rw [next?] at nothing
  split at nothing
  · cases nothing
  · rename_i n skipped
    have ended := eq_nil_of_lexeme? (Option.map_eq_none_iff.mp nothing)
    obtain ⟨gap, rest, whole, size, filler, -⟩ := filler_of_skipGap skipped
    rw [size, Nat.zero_add] at skipped ended
    rw [rest_advance, whole, List.drop_left] at ended
    rw [ended, List.append_nil] at whole
    exact whole ▸ ⟨whole ▸ skipped, filler⟩

/-- Scanning makes progress. Wherever earlier calls have led, a call that finds a token or a flaw
leaves the cursor further on in the text, and one that finds nothing has only white space and complete
comments ahead. Calls that go on behind flaws end, and at most as many find something as there are
characters. -/
theorem scanning_progresses (reached : Reached text calls cursor) :
    (match cursor.next? with
      | none => Filler cursor.rest
      | some (_, following) =>
        Within text following ∧ cursor.location.index < following.location.index) ∧
    ∃ last, Reached text (calls + cursor.items.length) last ∧ last.next? = none ∧
      calls + cursor.items.length ≤ text.length := by
  constructor
  · split
    · rename_i nothing
      exact (filler_of_next? nothing).2
    · rename_i following found
      have within := (reached.call found).within
      refine ⟨within, ?_⟩
      have before := reached.within.index
      have after := within.index
      have less := length_lt_of_next? found
      omega
  · obtain ⟨last, reached', ended⟩ := reached.exists_last
    exact ⟨last, reached', ended, Nat.le_trans (Nat.le_add_right ..) reached'.calls_le⟩

/-- Behind a flaw, only a comment is left. -/
theorem scanning_progresses_behindFlaw : ∃ cursor flaw, Reached "#z #|a|#" 1 cursor ∧
    (ofString "#z #|a|#").next? = some (.error flaw, cursor) ∧ Filler cursor.rest := by
  have found : (ofString "#z #|a|#").next? =
      some (.error ⟨.invalidPound, {}⟩, ⟨" #|a|#".toList, ⟨2, 0, 0⟩⟩) := by
    rfl
  have reached := Reached.start.call found
  exact ⟨_, _, reached, found, (scanning_progresses reached).1⟩

end Cursor

end MiniScheme
