import MiniScheme.Transformer
import MiniScheme.Proofs.Datum.Alike

/-!
# What reading a pattern finds

`Reads` says which pattern and which variables a datum is read as, given which names are inert:
literals and the wildcard. Every other name is a new variable, and the variables stand in the order
of the names. The variables are those of the datum alone, numbered from a given place on, with the
groups of the ellipses inside it; ellipses around it add theirs later.
-/

namespace MiniScheme

namespace Datum

mutual

def mentions (name : String) : Datum → Bool
  | .atom (.symbol other) _ => other == name
  | .atom _ _ => false
  | .list items _ => itemsMention name items
  | .dotted items tail _ => itemsMention name items || tail.mentions name
  | .vector items _ => itemsMention name items

/-- Whether a name occurs in a sequence of data. -/
def itemsMention (name : String) : List Datum → Bool
  | [] => false
  | item :: items => item.mentions name || itemsMention name items

end

mutual

theorem mentions_unplaced (d : Datum) (name : String) :
    d.unplaced.mentions name = d.mentions name := by
  cases d with
  | atom v pos => cases v <;> rfl
  | list xs pos | vector xs pos =>
    exact itemsMention_unplaced xs name
  | dotted xs tail pos =>
    rw [unplaced, mentions, mentions, itemsMention_unplaced, mentions_unplaced]

theorem itemsMention_unplaced (xs : List Datum) (name : String) :
    itemsMention name (unplacedItems xs) = itemsMention name xs := by
  cases xs with
  | nil => rfl
  | cons item xs =>
    rw [unplacedItems, itemsMention, itemsMention, mentions_unplaced, itemsMention_unplaced]

end

end Datum

def PatternVariable.under (outer : List Group) (entry : PatternVariable) : PatternVariable :=
  { entry with groups := outer ++ entry.groups }

theorem PatternVariable.map_under_under (outer inner : List Group) (vars : PatternVariables) :
    (vars.map (under inner)).map (under outer) = vars.map (under (outer ++ inner)) := by
  simp [Function.comp_def, under]

namespace PatternVariables

structure Clear (vars : PatternVariables) : Prop where
  distinct : (vars.map PatternVariable.name).Nodup
  unmarked : ellipsis ∉ vars.map PatternVariable.name

theorem Clear.nil : Clear [] := ⟨List.nodup_nil, List.not_mem_nil⟩

variable {vars : PatternVariables} {name : String}

theorem place?_eq_none_iff : vars.place? name = none ↔ name ∉ vars.map PatternVariable.name := by
  simp [place?, List.findIdx?_eq_none_iff]

theorem Clear.place? (clear : vars.Clear) {place : Nat} {e : PatternVariable}
    (there : vars[place]? = some e) : vars.place? e.name = some place := by
  obtain ⟨bound, rfl⟩ := List.getElem?_eq_some_iff.mp there
  rw [PatternVariables.place?, List.findIdx?_eq_some_iff_getElem]
  refine ⟨bound, by simp, fun earlier before => ?_⟩
  have apart := List.pairwise_iff_getElem.mp clear.distinct earlier place
    (by simpa using Nat.lt_trans before bound) (by simpa using bound) before
  simpa using apart

theorem Clear.append (clear : vars.Clear) (fresh : vars.place? name = none)
    (unmarked : name ≠ ellipsis) :
    Clear (vars ++ [{ name := name }]) where
  distinct := by
    rw [List.map_append, List.nodup_append]
    have absent := place?_eq_none_iff.mp fresh
    refine ⟨clear.distinct, by simp, fun taken mem other same => ?_⟩
    rintro rfl
    cases List.mem_singleton.mp same
    exact absent mem
  unmarked := by simpa [unmarked.symm] using clear.unmarked

/-- Enclosing the variables that were appended adds one group to each. -/
theorem enclose_append (vars new : PatternVariables) :
    (vars ++ new).enclose vars.length =
      vars ++ new.map (.under [{ start := vars.length, count := new.length }]) := by
  simp only [enclose, List.take_left, List.drop_left, List.length_append, Nat.add_sub_cancel_left]
  rfl

theorem Clear.enclose {new : PatternVariables} (clear : Clear (vars ++ new)) :
    Clear ((vars ++ new).enclose vars.length) := by
  have names : ((vars ++ new).enclose vars.length).map PatternVariable.name =
      (vars ++ new).map PatternVariable.name := by
    simp [enclose_append, Function.comp_def, PatternVariable.under]
  exact ⟨names ▸ clear.distinct, names ▸ clear.unmarked⟩

end PatternVariables

namespace Pattern

def Inert (literals : Literals) (name : String) (pattern : Pattern) : Prop :=
  literals.lookup name = some pattern ∨
    literals.lookup name = none ∧ name = wildcard ∧ pattern = .anything

mutual

/-- A datum is read as a pattern with variables of its own, the first at the place `start`. -/
inductive Reads (inert : String → Pattern → Prop) :
    Nat → Datum → Pattern → PatternVariables → Prop where
  | constant {start : Nat} {value : Atom} {position : Position}
      (nameless : ∀ name, value ≠ .symbol name) :
      Reads inert start (.atom value position) (.constant value) []
  | inert {start : Nat} {name : String} {pattern : Pattern} {position : Position}
      (known : inert name pattern) : Reads inert start (.atom (.symbol name) position) pattern []
  | variable {start : Nat} {name : String} {position : Position} (unmarked : name ≠ ellipsis) :
      Reads inert start (.atom (.symbol name) position) .variable [{ name := name }]
  | list {start : Nat} {items : List Datum} {position : Position} {front back : List Pattern}
      {repeated : Option Repetition} {new : PatternVariables}
      (inside : ReadsItems inert start items front repeated back new) :
      Reads inert start (.list items position) (.list (.mk front repeated back none)) new
  | dotted {start : Nat} {items : List Datum} {tail : Datum} {position : Position}
      {front back : List Pattern} {repeated : Option Repetition} {rest : Pattern}
      {new more : PatternVariables} (inside : ReadsItems inert start items front repeated back new)
      (behind : Reads inert (start + new.length) tail rest more) :
      Reads inert start (.dotted items tail position) (.list (.mk front repeated back (some rest)))
        (new ++ more)
  | vector {start : Nat} {items : List Datum} {position : Position} {front back : List Pattern}
      {repeated : Option Repetition} {new : PatternVariables}
      (inside : ReadsItems inert start items front repeated back new) :
      Reads inert start (.vector items position) (.vector (.mk front repeated back none)) new

/-- The items of a list or vector are read as the patterns before the ellipsis, the one under it,
and those behind it. -/
inductive ReadsItems (inert : String → Pattern → Prop) : Nat → List Datum → List Pattern →
    Option Repetition → List Pattern → PatternVariables → Prop where
  | nil {start : Nat} : ReadsItems inert start [] [] none [] []
  | cons {start : Nat} {item : Datum} {items : List Datum} {pattern : Pattern}
      {front back : List Pattern} {repeated : Option Repetition} {new more : PatternVariables}
      (first : Reads inert start item pattern new)
      (others : ReadsItems inert (start + new.length) items front repeated back more) :
      ReadsItems inert start (item :: items) (pattern :: front) repeated back (new ++ more)
  | repeated {start : Nat} {item mark : Datum} {items : List Datum} {pattern : Pattern}
      {back : List Pattern} {new more : PatternVariables} (first : Reads inert start item pattern new)
      (marked : mark.isSymbol ellipsis = true)
      (others : ReadsItems inert (start + new.length) items back none [] more) :
      ReadsItems inert start (item :: mark :: items) [] (some (.mk pattern new.length)) back
        (new.map (.under [{ start, count := new.length }]) ++ more)

end

variable {start : Nat} {pattern : Pattern} {new vars after : PatternVariables} {pos : Position}
  {inert : String → Pattern → Prop} {literals : Literals}

def NoneInert : String → Pattern → Prop :=
  fun _ _ => False

theorem noneInert_of_plain {mentions : String → Bool} (plain : mentions wildcard = false)
    (name : String) (pattern : Pattern) (mentioned : mentions name = true)
    (inert : Inert [] name pattern) : NoneInert name pattern := by
  rcases inert with declared | ⟨-, rfl, -⟩
  · cases declared
  · cases plain.symm.trans mentioned

theorem Reads.unmarked {d : Datum} (reads : Reads NoneInert start d pattern new) :
    d.isSymbol ellipsis = false := by
  cases reads with
  | inert known => exact known.elim
  | @constant _ v _ nameless =>
    cases v with
    | symbol name => exact absurd rfl (nameless name)
    | _ => rfl
  | «variable» unmarked => simpa [Datum.isSymbol, Datum.symbol?] using unmarked
  | list | dotted | vector => rfl

/-- The items of a pattern do not start with an ellipsis. -/
theorem ReadsItems.unmarked {item : Datum} {xs : List Datum} {front back : List Pattern}
    {repeated : Option Repetition}
    (reads : ReadsItems NoneInert start (item :: xs) front repeated back new) :
    item.isSymbol ellipsis = false := by
  cases reads with
  | cons first others => exact first.unmarked
  | repeated first marked others => exact first.unmarked

/-- What the first of two steps of reading did, and then the second. -/
theorem ReaderM.bind_ok {α β : Type} {read : ReaderM α} {next : α → ReaderM β} {res : β}
    (done : (read >>= next) vars = .ok (res, after)) :
    ∃ mid between, read vars = .ok (mid, between) ∧
      next mid between = .ok (res, after) := by
  change Except.bind (read vars) (fun step => next step.1 step.2) = _ at done
  cases first : read vars with
  | error error => rw [first] at done; cases done
  | ok step => rw [first] at done; exact ⟨step.1, step.2, rfl, done⟩

theorem ReaderM.bind_eq {α β : Type} {read : ReaderM α} {res : α}
    (done : read vars = .ok (res, after)) (next : α → ReaderM β) :
    (read >>= next) vars = next res after := by
  change Except.bind (read vars) (fun step => next step.1 step.2) = _
  rw [done]
  rfl

/-- The items behind an ellipsis are read like items among which there is none. -/
theorem ofItems_of_ofBack {xs : List Datum} {patterns : List Pattern}
    {vars : PatternVariables} (read : ofBack literals pos xs vars = .ok (patterns, after)) :
    ofItems literals pos xs vars = .ok ((patterns, none, []), after) := by
  match xs with
  | [] =>
    rw [ofBack] at read
    cases read
    rw [ofItems]
    rfl
  | [item] =>
    rw [ofBack] at read
    obtain ⟨pattern, between, first, done⟩ := ReaderM.bind_ok read
    cases done
    rw [ofItems]
    exact ReaderM.bind_eq first _
  | item :: mark :: xs =>
    rw [ofBack] at read
    rw [ofItems]
    by_cases marked : mark.isSymbol ellipsis = true
    · rw [if_pos marked] at read
      cases read
    · rw [if_neg marked] at read ⊢
      obtain ⟨pattern, between, first, read⟩ := ReaderM.bind_ok read
      obtain ⟨patterns, between', others, done⟩ := ReaderM.bind_ok read
      cases done
      rw [ReaderM.bind_eq first, ReaderM.bind_eq (ofItems_of_ofBack others)]
      rfl

theorem reads_ofSymbol {name : String} (clear : vars.Clear)
    (known : ∀ pattern, Inert literals name pattern → inert name pattern)
    (read : ofSymbol literals name pos vars = .ok (pattern, after)) :
    ∃ new, after = vars ++ new ∧ after.Clear ∧
      Reads inert vars.length (.atom (.symbol name) pos) pattern new := by
  rw [ofSymbol] at read
  cases declared : literals.lookup name with
  | some literal =>
    rw [declared] at read
    cases read
    exact ⟨[], (List.append_nil vars).symm, clear, .inert (known _ (.inl declared))⟩
  | none =>
    simp only [declared] at read
    by_cases wild : name = wildcard
    · rw [if_pos wild] at read
      cases read
      exact ⟨[], (List.append_nil vars).symm, clear, .inert (known _ (.inr ⟨declared, wild, rfl⟩))⟩
    · rw [if_neg wild] at read
      by_cases marked : name = ellipsis
      · rw [if_pos marked] at read; cases read
      · rw [if_neg marked] at read
        obtain ⟨current, between, got, read⟩ := ReaderM.bind_ok read
        cases got
        cases fresh : vars.place? name with
        | some place => rw [fresh] at read; cases read
        | none =>
          rw [fresh] at read
          cases read
          exact ⟨_, rfl, clear.append fresh marked, .variable marked⟩

mutual

/-- Reading a datum appends the variables of its own. -/
theorem reads_ofDatum (d : Datum) {vars after : PatternVariables} {pattern : Pattern}
    (clear : vars.Clear)
    (known : ∀ name pattern, d.mentions name = true → Inert literals name pattern →
      inert name pattern) (read : ofDatum literals d vars = .ok (pattern, after)) :
    ∃ new, after = vars ++ new ∧ after.Clear ∧ Reads inert vars.length d pattern new := by
  cases d with
  | atom v pos =>
    by_cases named : ∃ name, v = .symbol name
    · obtain ⟨name, rfl⟩ := named
      rw [ofDatum] at read
      exact reads_ofSymbol clear (fun pattern => known name pattern (by simp [Datum.mentions])) read
    · rw [ofDatum] at read
      · cases read
        exact ⟨[], (List.append_nil vars).symm, clear, .constant (not_exists.mp named)⟩
      · exact not_exists.mp named
  | list xs pos | vector xs pos =>
    rw [ofDatum] at read
    obtain ⟨⟨front, repeated, back⟩, between, inside, done⟩ := ReaderM.bind_ok read
    cases done
    obtain ⟨new, rfl, clear, inside⟩ := reads_ofItems xs clear known inside
    exact ⟨new, rfl, clear, by constructor; exact inside⟩
  | dotted xs tail pos =>
    rw [ofDatum] at read
    simp only [Datum.mentions, Bool.or_eq_true] at known
    obtain ⟨⟨front, repeated, back⟩, between, inside, read⟩ := ReaderM.bind_ok read
    obtain ⟨rest, between', behind, done⟩ := ReaderM.bind_ok read
    cases done
    obtain ⟨new, rfl, clear, inside⟩ := reads_ofItems xs clear
      (fun name pattern there => known name pattern (.inl there)) inside
    obtain ⟨more, rfl, clear, behind⟩ := reads_ofDatum tail clear
      (fun name pattern there => known name pattern (.inr there)) behind
    rw [List.length_append] at behind
    exact ⟨new ++ more, List.append_assoc _ _ _, clear, .dotted inside behind⟩

/-- Reading the items of a list or vector appends their variables, those under the ellipsis with
one group more. -/
theorem reads_ofItems (xs : List Datum) {pos : Position} {vars after : PatternVariables}
    {front back : List Pattern} {repeated : Option Repetition} (clear : vars.Clear)
    (known : ∀ name pattern, Datum.itemsMention name xs = true → Inert literals name pattern →
      inert name pattern)
    (read : ofItems literals pos xs vars = .ok ((front, repeated, back), after)) :
    ∃ new, after = vars ++ new ∧ after.Clear ∧
      ReadsItems inert vars.length xs front repeated back new := by
  match xs with
  | [] =>
    rw [ofItems] at read
    cases read
    exact ⟨[], (List.append_nil vars).symm, clear, .nil⟩
  | [item] =>
    rw [ofItems] at read
    simp only [Datum.itemsMention, Bool.or_false] at known
    obtain ⟨pattern, between, first, done⟩ := ReaderM.bind_ok read
    cases done
    obtain ⟨new, rfl, clear, first⟩ := reads_ofDatum item clear known first
    exact ⟨new ++ [], by rw [List.append_nil], clear, .cons first .nil⟩
  | item :: mark :: xs =>
    rw [ofItems] at read
    simp only [Datum.itemsMention, Bool.or_eq_true] at known
    by_cases marked : mark.isSymbol ellipsis = true
    · rw [if_pos marked] at read
      obtain ⟨_, _, got, read⟩ := ReaderM.bind_ok read
      cases got
      obtain ⟨pattern, between, first, read⟩ := ReaderM.bind_ok read
      obtain ⟨_, _, got, read⟩ := ReaderM.bind_ok read
      cases got
      obtain ⟨_, _, modified, read⟩ := ReaderM.bind_ok read
      cases modified
      obtain ⟨patterns, between', behind, done⟩ := ReaderM.bind_ok read
      cases done
      obtain ⟨new, rfl, clear, first⟩ := reads_ofDatum item clear
        (fun name pattern there => known name pattern (.inl there)) first
      obtain ⟨more, rfl, clear, behind⟩ := reads_ofItems xs clear.enclose
        (fun name pattern there => known name pattern (.inr (.inr there)))
        (ofItems_of_ofBack behind)
      rw [PatternVariables.enclose_append] at clear behind ⊢
      rw [List.length_append, List.length_map] at behind
      rw [List.length_append, Nat.add_sub_cancel_left]
      exact ⟨_, List.append_assoc _ _ _, clear, .repeated first marked behind⟩
    · rw [if_neg marked] at read
      obtain ⟨pattern, between, first, read⟩ := ReaderM.bind_ok read
      obtain ⟨⟨front, repeated, back⟩, between', others, done⟩ := ReaderM.bind_ok read
      cases done
      obtain ⟨new, rfl, clear, first⟩ := reads_ofDatum item clear
        (fun name pattern there => known name pattern (.inl there)) first
      obtain ⟨more, rfl, clear, others⟩ := reads_ofItems (mark :: xs) clear
        (fun name pattern there => known name pattern
          (.inr (by simpa only [Datum.itemsMention, Bool.or_eq_true] using there))) others
      rw [List.length_append] at others
      exact ⟨new ++ more, List.append_assoc _ _ _, clear, .cons first others⟩

end

end Pattern

end MiniScheme
