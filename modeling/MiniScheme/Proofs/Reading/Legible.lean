import MiniScheme.Datum.Reader
import MiniScheme.Proofs.Reading.Progress
import MiniScheme.Proofs.Reading.Tokens

/-!
# What reading yields

Not every datum can be read: the least integer has no literal, symbols are names that the scanner
takes for identifiers, dotted lists are in normal form, and data nest only so deep. A datum is
`Legible` if it is none of those that cannot be read. Whatever the text, reading yields legible data.
-/

namespace MiniScheme

/-! ### Tokens -/

def TokenKind.Legible : TokenKind → Prop
  | .identifier name => IsIdentifier name
  | .integer value => value ≠ Int64.minValue
  | _ => True

namespace Number

def Literal.Legible : Literal → Prop
  | .integer value => value ≠ Int64.minValue
  | .float _ => True

variable {literal : Literal} {text : List Char} {exactness : Option Exactness}

theorem legible_signedInteger {negative : Bool} {magnitude : Nat}
    (parsed : signedInteger negative magnitude = .ok literal) : literal.Legible := by
  rw [signedInteger] at parsed
  split at parsed
  · rename_i small
    rw [maxInteger] at small
    cases parsed
    intro least
    have v := congrArg Int64.toInt least
    rw [Int64.toInt_ofInt_of_le (by split <;> omega) (by split <;> omega)] at v
    have bottom : Int64.minValue.toInt = -(2 ^ 63) := by decide
    rw [bottom] at v
    split at v <;> omega
  · cases parsed

theorem legible_unmarked {radix : Nat} (parsed : unmarked radix text = .ok literal) :
    literal.Legible := by
  simp only [unmarked, bind, Except.bind, pure, Except.pure, throw, throwThe,
    MonadExceptOf.throw] at parsed
  repeat' split at parsed
  all_goals first
    | exact legible_signedInteger parsed
    | (cases parsed; done)
    | (cases parsed; trivial)

theorem legible_withExactness {plain : Literal} (legible : plain.Legible)
    (parsed : withExactness exactness plain = .ok literal) : literal.Legible := by
  rw [withExactness.eq_def] at parsed
  split at parsed
  · cases parsed
    trivial
  · rename_i x
    rw [toExact] at parsed
    split at parsed
    · rename_i exact found
      cases parsed
      obtain ⟨magnitude, -, signed⟩ := Option.map_eq_some_iff.mp found
      exact legible_signedInteger signed
    · cases parsed
  · cases parsed
    exact legible

theorem legible_parse {radix : Option Nat} (parsed : parse radix exactness text = .ok literal) :
    literal.Legible := by
  fun_induction parse radix exactness text
  case case10 radix exactness text _ _ _ =>
    cases found : unmarked (radix.getD 10) text with
    | error flaw =>
      rw [found] at parsed
      cases parsed
    | ok plain =>
      rw [found] at parsed
      exact legible_withExactness (legible_unmarked found) parsed
  all_goals first
    | (rename_i ih; exact ih parsed)
    | cases parsed

end Number

/-! ### Lexemes -/

namespace Lexeme

variable {atom rest : List Char} {kind : TokenKind}

theorem legible_number (found : (number atom).result = .ok kind) : kind.Legible := by
  rw [number] at found
  split at found
  · rename_i parsed
    cases found
    exact Number.legible_parse parsed
  · cases found
    trivial
  · cases found

theorem legible_poundAtom (found : (poundAtom atom).result = .ok kind) : kind.Legible := by
  simp only [poundAtom] at found
  repeat' split at found
  · cases found
    trivial
  · cases found
    trivial
  · exact legible_number found
  · cases found

theorem legible_plainAtom {c : Char} (plain : isMark c = false) (inside : isDelimiter c = false)
    (found : (plainAtom (c :: atomAhead rest)).result = .ok kind) : kind.Legible := by
  generalize whole : c :: atomAhead rest = atom at found
  have scanned := found
  rw [plainAtom] at found
  repeat' split at found
  · cases found
    trivial
  · exact legible_number found
  · cases found
  · cases found
  · rename_i dot numeric leading reserved
    cases found
    refine ⟨⟨c, ?_, plain⟩, ?_, ?_⟩
    · rw [String.toList_ofList, ← whole]
      rfl
    · rw [String.toList_ofList, ← whole]
      intro d mem
      rcases List.mem_cons.mp mem with rfl | mem
      · exact inside
      · have kept := List.all_takeWhile (p := fun c => !isDelimiter c) (l := rest)
        simpa using List.all_eq_true.mp kept d mem
    · rw [String.toList_ofList, plainAtom, if_neg dot, if_neg numeric, if_neg leading,
        if_neg reserved]

end Lexeme

theorem legible_lexeme? {c : Char} {rest : List Char} {lexeme : Lexeme} {kind : TokenKind}
    (visible : Text.isBlank c = false) (line : c ≠ ';')
    (found : lexeme? (c :: rest) = some lexeme) (res : lexeme.result = .ok kind) :
    kind.Legible := by
  by_cases plain : isMark c = false
  · rw [lexeme?_plain plain] at found
    cases found
    have inside : isDelimiter c = false := by
      simp only [isMark, decide_eq_false_iff_not, List.mem_cons, not_or] at plain
      simp [isDelimiter, visible, line, plain]
    exact Lexeme.legible_plainAtom plain inside res
  · unfold lexeme? at found
    split at found
    all_goals cases found
    all_goals first
      | (cases res; trivial)
      | (obtain ⟨⟨v, rfl⟩, -⟩ := Lexeme.closes_string res
         trivial)
      | (obtain ⟨-, -, v, -, rfl, -⟩ := Lexeme.exists_of_character res
         trivial)
      | exact Lexeme.legible_poundAtom res
      | simp_all [isMark]

variable {token : Token}

theorem Cursor.legible_next? {cursor following : Cursor}
    (found : cursor.next? = some (.ok token, following)) : token.kind.Legible := by
  obtain ⟨gap, lexeme, skipped, ahead, res, -, -⟩ := Cursor.exists_lexeme_of_next? found
  obtain ⟨front, rest, whole, size, -, ends⟩ := filler_of_skipGap skipped
  rw [Cursor.rest_advance, whole, size, Nat.zero_add, List.drop_left] at ahead
  cases rest with
  | nil => cases ahead
  | cons c rest =>
    obtain ⟨visible, line⟩ := ends c rfl
    exact legible_lexeme? visible line ahead res

theorem Cursor.legible_items (cursor : Cursor) (mem : .ok token ∈ cursor.items) :
    token.kind.Legible := by
  fun_induction Cursor.items cursor with
  | case1 => cases mem
  | case2 cursor item following found ih =>
    rcases List.mem_cons.mp mem with rfl | mem
    · exact Cursor.legible_next? found
    · exact ih mem

/-! ### Data -/

/-- What can be said of an atom for which there is a literal, if `room` more levels may be opened
within it. -/
def Atom.Legible (room : Nat) : Atom → Prop
  | .integer value => value ≠ Int64.minValue
  | .symbol name => IsIdentifier name
  | .bytes value => value ≠ [] → 0 < room
  | _ => True

namespace Datum

/-- `Legible room datum`: the datum can be read where `room` levels may still be opened, itself
included. -/
inductive Legible : Nat → Datum → Prop where
  | atom {room : Nat} {value : Atom} {position : Position} (legible : value.Legible room) :
      Legible (room + 1) (.atom value position)
  | list {room : Nat} {items : List Datum} {position : Position}
      (legible : ∀ item ∈ items, Legible room item) : Legible (room + 1) (.list items position)
  | dotted {room : Nat} {items : List Datum} {tail : Datum} {position : Position}
      (legible : ∀ item ∈ items, Legible room item) (legible_tail : Legible room tail)
      (some_item : items ≠ []) (atomic : tail.elements? = none) :
      Legible (room + 1) (.dotted items tail position)
  | vector {room : Nat} {items : List Datum} {position : Position}
      (legible : ∀ item ∈ items, Legible room item) : Legible (room + 1) (.vector items position)

variable {room room' : Nat} {datum tail : Datum} {xs : List Datum}

theorem Legible.pos (legible : Legible room datum) : 0 < room := by
  cases legible <;> exact Nat.succ_pos _

theorem Legible.succ (legible : Legible room datum) : Legible (room + 1) datum := by
  induction legible with
  | @atom room v _ legible =>
    refine .atom ?_
    cases v with
    | bytes => exact fun _ => Nat.succ_pos _
    | _ => exact legible
  | list _ ih => exact .list ih
  | dotted _ _ some_item atomic ih ih' => exact .dotted ih ih' some_item atomic
  | vector _ ih => exact .vector ih

theorem legible_withTail (legible : ∀ item ∈ xs, Legible room item) (some_item : xs ≠ [])
    (legible_tail : Legible room tail) (pos : Position) :
    Legible (room + 1) (withTail xs tail pos) := by
  have joined {others : List Datum} {room' : Nat} (more : room = room' + 1)
      (legible' : ∀ item ∈ others, Legible room' item) : ∀ item ∈ xs ++ others, Legible room item :=
    List.forall_mem_append.mpr ⟨legible, fun item mem => more ▸ (legible' item mem).succ⟩
  cases xs with
  | nil => exact absurd rfl some_item
  | cons item xs =>
    cases legible_tail with
    | atom inner => exact .dotted legible (.atom inner) some_item rfl
    | list inner => exact .list (joined rfl inner)
    | dotted inner last _ atomic => exact .dotted (joined rfl inner) last.succ (by simp) atomic
    | vector inner => exact .dotted legible (.vector inner) some_item rfl

end Datum

/-! ### Reading -/

namespace Reader

/-- The data in a level are legible with `room` levels left in it. -/
def Level.Legible (room : Nat) : Level → Prop
  | .list _ items => ∀ item ∈ items, item.Legible room
  | .dotted _ items tail =>
    items ≠ [] ∧ (∀ item ∈ items, item.Legible room) ∧ ∀ datum ∈ tail, datum.Legible room
  | .vector _ items => ∀ item ∈ items, item.Legible room
  | .bytes _ items => ∀ item ∈ items, item.Legible room
  | .mark _ keyword => IsIdentifier keyword
  | .comment _ => True

def LegibleLevels : List Level → Prop
  | [] => True
  | level :: outer =>
    ((∃ start, level = .comment start) ∨
      outer.length < maxDepth ∧ level.Legible (maxDepth - (outer.length + 1))) ∧
    LegibleLevels outer

structure State.Legible (state : State) : Prop where
  levels : LegibleLevels state.levels
  data : ∀ datum ∈ state.data, datum.Legible maxDepth

variable {src : Source} {st after : State} {token : Token}

theorem legible_deliver {levels : List Level} {data : List Datum} {datum : Datum}
    (opened : LegibleLevels levels) (done : ∀ datum ∈ data, datum.Legible maxDepth)
    (legible : datum.Legible (maxDepth - levels.length)) :
    (deliver src data levels datum).Legible := by
  induction levels generalizing datum with
  | nil => exact ⟨trivial, List.forall_mem_cons.mpr ⟨legible, done⟩⟩
  | cons level outer ih =>
    obtain ⟨here, opened⟩ := opened
    cases level with
    | list start xs | vector start xs | bytes start xs =>
      rcases here with ⟨_, ⟨⟩⟩ | ⟨room, others⟩
      exact ⟨⟨.inr ⟨room, List.forall_mem_cons.mpr ⟨legible, others⟩⟩, opened⟩, done⟩
    | dotted start xs tail =>
      rcases here with ⟨_, ⟨⟩⟩ | ⟨room, some_item, others, -⟩
      refine ⟨⟨.inr ⟨room, some_item, others, ?_⟩, opened⟩, done⟩
      rintro _ ⟨⟩
      exact legible
    | mark start keyword =>
      rcases here with ⟨_, ⟨⟩⟩ | ⟨room, identifier⟩
      -- What has room for a datum has room for a name.
      have inside : maxDepth - (outer.length + 1) = (maxDepth - (outer.length + 2)) + 1 := by
        have positive : 0 < maxDepth - (outer.length + 1) := legible.pos
        omega
      have outside : maxDepth - outer.length = (maxDepth - (outer.length + 1)) + 1 := by omega
      apply ih opened
      rw [outside]
      refine .list (List.forall_mem_cons.mpr ⟨?_, List.forall_mem_singleton.mpr legible⟩)
      rw [inside]
      exact .atom identifier
    | comment start => exact ⟨opened, done⟩

theorem legible_start (legible : st.Legible) (scanned : token.kind.Legible)
    (room : st.levels.length < maxDepth ∨ token.kind = .datumComment)
    (started : start src st token = .ok after) : after.Legible := by
  have space (shallow : st.levels.length < maxDepth) :
      maxDepth - st.levels.length = (maxDepth - (st.levels.length + 1)) + 1 := by omega
  have atom (v : Atom) (shallow : st.levels.length < maxDepth)
      (inner : v.Legible (maxDepth - (st.levels.length + 1))) (pos : Position) :
      (deliver src st.data st.levels (.atom v pos)).Legible := by
    refine legible_deliver legible.levels legible.data ?_
    rw [space shallow]
    exact .atom inner
  have opening (level : Level) (shallow : st.levels.length < maxDepth)
      (inner : level.Legible (maxDepth - (st.levels.length + 1))) :
      State.Legible { st with levels := level :: st.levels } :=
    ⟨⟨.inr ⟨shallow, inner⟩, legible.levels⟩, legible.data⟩
  have shallow_of {kind : TokenKind} (same : token.kind = kind) (other : kind ≠ .datumComment) :
      st.levels.length < maxDepth := by
    rcases room with shallow | comment
    · exact shallow
    · exact absurd (same.symm.trans comment) other
  rw [start] at started
  cases kind : token.kind <;> simp only [kind] at started <;> rw [kind] at scanned <;> cases started
  case identifier | integer =>
    refine atom _ (shallow_of kind nofun) ?_ _
    exact scanned
  case boolean | float | character | string =>
    refine atom _ (shallow_of kind nofun) ?_ _
    trivial
  case openList | openVector | openBytes =>
    refine opening _ (shallow_of kind nofun) ?_
    exact nofun
  case quoteMark | backQuote | comma | commaAt =>
    refine opening _ (shallow_of kind nofun) ?_
    exact ⟨⟨_, rfl, rfl⟩, undelimited_of_all rfl, rfl⟩
  case datumComment => exact ⟨⟨.inl ⟨_, rfl⟩, legible.levels⟩, legible.data⟩

theorem legible_startWithin (legible : st.Legible) (scanned : token.kind.Legible)
    (started : startWithin src st token = .ok after) : after.Legible := by
  rw [startWithin] at started
  split at started
  · cases started
  · rename_i shallow
    exact legible_start legible scanned (.inl (Nat.lt_of_not_le shallow)) started

/-- Items that stand for bytes need room if there are any. -/
theorem legible_bytes {xs : List Datum} {bytes : List UInt8} {room : Nat}
    (legible : ∀ item ∈ xs, item.Legible room)
    (found : xs.reverse.mapM byte? = some bytes) : (Atom.bytes bytes).Legible room := by
  intro some_byte
  cases xs with
  | nil =>
    cases found
    exact absurd rfl some_byte
  | cons item xs => exact (legible item List.mem_cons_self).pos

theorem legible_step (legible : st.Legible) (scanned : token.kind.Legible)
    (stepped : step src st token = .ok after) : after.Legible := by
  obtain ⟨levels, data⟩ := st
  have opened : LegibleLevels levels := legible.levels
  have done := legible.data
  -- A level that is closed becomes a datum of the level around it.
  have finish {level : Level} {outer : List Level} (here : levels = level :: outer)
      (other : ∀ start, level ≠ .comment start) {datum : Datum}
      (whole : level.Legible (maxDepth - (outer.length + 1)) →
        datum.Legible ((maxDepth - (outer.length + 1)) + 1)) :
      (deliver src data outer datum).Legible := by
    rw [here] at opened
    rcases opened.1 with ⟨start, comment⟩ | ⟨room, inner⟩
    · exact absurd comment (other start)
    · refine legible_deliver opened.2 done ?_
      have outside : maxDepth - outer.length = (maxDepth - (outer.length + 1)) + 1 := by omega
      rw [outside]
      exact whole inner
  have reversed {xs : List Datum} {room : Nat} (legible : ∀ item ∈ xs, item.Legible room) :
      ∀ item ∈ xs.reverse, item.Legible room :=
    fun item mem => legible item (List.mem_reverse.mp mem)
  rw [step.eq_def] at stepped
  dsimp only at stepped
  split at stepped
  -- A list is closed, and its dot is read.
  · cases stepped
    exact finish rfl nofun fun inner => .list (reversed inner)
  · cases stepped
    rcases opened with ⟨⟨_, ⟨⟩⟩ | ⟨room, inner⟩, outer⟩
    exact ⟨⟨.inr ⟨room, by simp, inner, nofun⟩, outer⟩, done⟩
  · cases stepped
  -- A dotted list is closed.
  · cases stepped
    refine finish rfl nofun fun ⟨some_item, inner, inner_tail⟩ => ?_
    exact Datum.legible_withTail (reversed inner) (by simpa using some_item) (inner_tail _ rfl) _
  · cases stepped
  · cases stepped
  -- Vectors and bytes are closed.
  · cases stepped
    exact finish rfl nofun fun inner => .vector (reversed inner)
  · split at stepped
    · rename_i found
      cases stepped
      exact finish rfl nofun fun inner => .atom (legible_bytes inner found)
    · cases stepped
  -- A datum comment needs no room.
  iterate 4 exact legible_start legible scanned (.inr ‹_›) stepped
  · cases stepped
  · exact legible_startWithin legible scanned stepped

theorem legible_run {xs : List (Except TokenError Token)}
    (scanned : ∀ token, .ok token ∈ xs → token.kind.Legible) (legible : st.Legible) :
    (run src st xs).1.Legible := by
  fun_induction run src st xs
  case case4 stepped ih =>
    exact ih (fun token mem => scanned token (List.mem_cons_of_mem _ mem))
      (legible_step legible (scanned _ List.mem_cons_self) stepped)
  all_goals exact legible

end Reader

theorem read_eq_ok_iff {src : Source} {data : List Datum} : read src = .ok data ↔
    ∃ st, Reader.run src {} (tokenize src.text) = (st, none) ∧ st.data.reverse = data := by
  rw [read, readUpToError]
  generalize Reader.run src {} (tokenize src.text) = res
  match res with
  | (st, none) => simp
  | (st, some error) => simp

/-- Whatever the text, reading yields legible data. -/
theorem legible_readUpToError (src : Source) :
    ∀ datum ∈ (readUpToError src).1, datum.Legible Reader.maxDepth := by
  have blank : Reader.State.Legible {} := ⟨trivial, nofun⟩
  have legible : (Reader.run src {} (tokenize src.text)).1.Legible :=
    Reader.legible_run (fun _ => Cursor.legible_items _) blank
  exact fun datum mem => legible.data datum (List.mem_reverse.mp mem)

theorem legible_read {src : Source} {data : List Datum} (found : read src = .ok data) :
    ∀ d ∈ data, d.Legible Reader.maxDepth := by
  obtain ⟨st, ran, rfl⟩ := read_eq_ok_iff.mp found
  simpa [readUpToError, ran] using legible_readUpToError src

end MiniScheme
