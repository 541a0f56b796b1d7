import MiniScheme.Proofs.Reading.Progress
import MiniScheme.Proofs.Reading.Relocation
import Mathlib.Data.List.Induction

/-!
# Locations are exact

Whatever has a place in a source, be it a token, a flaw, an error of the reader or a part of a datum,
has the number of its line and the start of that line right. So it is shown with the line that it is
on, and the caret is below it.
-/

namespace MiniScheme

/-- The location has the lines above it and what stands before it on its own line as they are in the
source, and the line is shown with a caret below the location. -/
def Source.Locates (source : Source) (location : Location) : Prop :=
  ∃ above before after below, source.text.toList = above ++ (before ++ after) ++ below ∧
    '\n' ∉ before ++ after ∧ (∀ c ∈ above.getLast?, c = '\n') ∧ (∀ c ∈ below.head?, c = '\n') ∧
    location = ⟨(above ++ before).length, (above ++ before).count '\n', above.length⟩ ∧
    ∃ heading, (heading = "" ∨ ∃ words, heading = words ++ ":\n") ∧
      Position.expanded ⟨source, location⟩ = heading ++ String.ofList (before ++ after) ++ "\n" ++
        String.ofList (List.replicate before.length ' ') ++ "^\n"

/-- The lines before a place, and what stands before it on its own line. -/
theorem Location.exists_line (front : List Char) :
    ∃ above before, front = above ++ before ∧ '\n' ∉ before ∧ (∀ c ∈ above.getLast?, c = '\n') ∧
      afterAll {} front = ⟨front.length, front.count '\n', above.length⟩ := by
  induction front using List.reverseRecOn with
  | nil => exact ⟨[], [], rfl, nofun, nofun, rfl⟩
  | append_singleton front c ih =>
    obtain ⟨above, before, rfl, unbroken, broken, place⟩ := ih
    rw [afterAll_append, place]
    by_cases newline : c = '\n'
    · subst newline
      refine ⟨above ++ before ++ ['\n'], [], (List.append_nil _).symm, nofun, by simp, ?_⟩
      simp [afterAll, after, Nat.add_assoc]
    · refine ⟨above, before ++ [c], List.append_assoc .., by simp [unbroken, Ne.symm newline], broken, ?_⟩
      simp [afterAll, after, newline, Nat.add_assoc]

theorem Source.locates {src : Source} {front rest : List Char}
    (whole : src.text.toList = front ++ rest) : src.Locates (Location.afterAll {} front) := by
  obtain ⟨above, before, rfl, unbroken, broken, place⟩ := Location.exists_line front
  have line : (before ++ rest).takeWhile (· != '\n') = before ++ rest.takeWhile (· != '\n') := by
    refine List.takeWhile_append_of_pos fun c mem => ?_
    rw [bne_iff_ne]
    rintro rfl
    exact unbroken mem
  rw [place]
  refine ⟨above, before, rest.takeWhile (· != '\n'), rest.dropWhile (· != '\n'), by simp [whole], ?_,
    broken, fun c head => ?_, rfl, ?_⟩
  · rw [← line]
    exact fun mem => by simpa using List.all_eq_true.mp List.all_takeWhile _ mem
  · have stops := rest.head?_dropWhile_not (· != '\n')
    rw [Option.mem_def.mp head] at stops
    simpa using stops
  · generalize place' : Location.mk _ _ _ = loc
    have shown : Position.lineText ⟨src, loc⟩ = before ++ rest.takeWhile (· != '\n') := by
      simp only [← line, Position.lineText, ← place', whole, List.append_assoc, List.drop_left]
    have column : loc.column = before.length := by
      rw [← place']
      exact Nat.sub_eq_of_eq_add' (List.length_append ..)
    refine ⟨_, ?_, by rw [Position.expanded, shown, column]⟩
    dsimp only
    split
    · exact .inr ⟨_, rfl⟩
    · exact .inl rfl

/-- A datum and what it is made of. -/
inductive Datum.HasPart : Datum → Datum → Prop
  | self (datum : Datum) : HasPart datum datum
  | list {items : List Datum} {item part : Datum} (position : Position) :
      item ∈ items → item.HasPart part → HasPart (.list items position) part
  | dotted {items : List Datum} {item part : Datum} (tail : Datum) (position : Position) :
      item ∈ items → item.HasPart part → HasPart (.dotted items tail position) part
  | tail {tail part : Datum} (items : List Datum) (position : Position) :
      tail.HasPart part → HasPart (.dotted items tail position) part
  | vector {items : List Datum} {item part : Datum} (position : Position) :
      item ∈ items → item.HasPart part → HasPart (.vector items position) part

/-- The parts of a datum that was moved are where it was moved to. -/
theorem Datum.HasPart.moved {target : Source} {move : Location → Location} {d part : Datum}
    (has : (d.moved target move).HasPart part) : ∃ loc, part.position = ⟨target, move loc⟩ := by
  generalize same : d.moved target move = moved at has
  induction has generalizing d with
  | self =>
    subst same
    cases d <;> exact ⟨_, rfl⟩
  | list _ mem _ ih | vector _ mem _ ih | dotted _ _ mem _ ih =>
    cases d <;> cases same
    rw [movedItems_eq, List.mem_map] at mem
    obtain ⟨item, -, same⟩ := mem
    exact ih same
  | tail _ _ _ ih =>
    cases d <;> cases same
    exact ih rfl

theorem Cursor.Within.locates {src : Source} {cursor : Cursor} (within : Within src.text cursor) :
    ∀ item ∈ cursor.items, src.Locates (place item) := by
  fun_induction Cursor.items cursor with
  | case1 => exact fun _ mem => absurd mem List.not_mem_nil
  | case2 cursor item following found ih =>
    obtain ⟨start, n, here, rfl⟩ := ahead_of_next? found
    refine List.forall_mem_cons.mpr ⟨?_, ih (within.advance n)⟩
    obtain ⟨front, whole, loc⟩ := within.advance start
    rw [here, loc]
    exact src.locates whole

theorem ReadError.location_moved (move : Location → Location) (error : ReadError) :
    (error.moved move).location = move error.location := by
  cases error <;> rfl

/-- Locations are exact. Every token and every flaw of a source, the error that reading it ends with,
and every part of the data that are read is at a location that has its line right, and is shown with
that line and a caret below it. -/
theorem locations_exact (source : Source) :
    (∀ item ∈ tokenize source.text, source.Locates (Cursor.place item)) ∧
    (∀ error ∈ (readUpToError source).2, source.Locates error.location) ∧
    ∀ datum ∈ (readUpToError source).1, ∀ part, datum.HasPart part →
      ∃ location, part.position = ⟨source, location⟩ ∧ source.Locates location := by
  have tokens : ∀ item ∈ tokenize source.text, source.Locates (Cursor.place item) :=
    Cursor.Within.locates ⟨[], rfl, rfl⟩
  classical
  -- Moving locations that are not exact moves no token, so it moves nothing that is read from them.
  let move (location : Location) : Location := if source.Locates location then location else {}
  have exact_move (location : Location) : source.Locates (move location) := by
    dsimp only [move]
    split
    · assumption
    · exact @source.locates [] _ rfl
  have unmoved : (tokenize source.text).map (movedItem move) = tokenize source.text := by
    refine (List.map_congr_left fun item member => ?_).trans (List.map_id _)
    have fixed : move (Cursor.place item) = Cursor.place item := if_pos (tokens item member)
    cases item <;> simp only [Cursor.place] at fixed <;> simp [movedItem, Token.moved, fixed]
  have ran := Reader.run_moved source move [] source {} (tokenize source.text)
  rw [unmoved] at ran
  change Reader.run source {} _ = _ at ran
  rw [readUpToError]
  generalize Reader.run source {} (tokenize source.text) = result at ran
  obtain ⟨state, error⟩ := result
  obtain ⟨same, same'⟩ := Prod.mk.inj ran
  refine ⟨tokens, fun error' member => ?_, fun datum member part has => ?_⟩
  · obtain rfl : error = some error' := member
    rw [Option.some.inj same', ReadError.location_moved]
    exact exact_move _
  · rw [List.mem_reverse, same] at member
    simp only [Reader.State.moved, List.append_nil, List.mem_map] at member
    obtain ⟨origin, -, rfl⟩ := member
    obtain ⟨location, placed⟩ := has.moved
    exact ⟨_, placed, exact_move location⟩

end MiniScheme
