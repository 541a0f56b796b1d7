import MiniScheme.Proofs.Rule.Matching

/-!
# Variables under ellipses

The variables of a pattern are numbered in the order in which they are written, and those under one
ellipsis are a group of contiguous places. `Pattern.groups` finds for each variable the groups that
it repeats under, whatever literals and wildcards there are. Groups lie within each other or apart.
What a match binds a variable to is nested as deep as the variable has groups, and the sequences of
variables under one ellipsis are equally long, repetition by repetition.
-/

namespace MiniScheme

namespace Pattern

mutual

/-- The groups that each variable of a pattern repeats under, outermost first. The first variable
is at the place `start`. -/
def groups (start : Nat) : Pattern → List (List Group)
  | .variable => [[]]
  | .list shape | .vector shape => shapeGroups start shape
  | .constant _ | .anything | .bound _ | .free _ => []

def shapeGroups (start : Nat) : Shape → List (List Group)
  | .mk front repeated back rest =>
    let first := allGroups start front
    let second := first ++ match repeated with
      | some repetition => repetitionGroups (start + first.length) repetition
      | none => []
    let third := second ++ allGroups (start + second.length) back
    third ++ match rest with
      | some pattern => groups (start + third.length) pattern
      | none => []

/-- The groups of the variables of several patterns. -/
def allGroups (start : Nat) : List Pattern → List (List Group)
  | [] => []
  | pattern :: patterns =>
    let first := groups start pattern
    first ++ allGroups (start + first.length) patterns

/-- The groups of the variables under an ellipsis. -/
def repetitionGroups (start : Nat) : Repetition → List (List Group)
  | .mk pattern width => (groups start pattern).map ({ start, count := width } :: ·)

end

end Pattern

def Group.Covers (group : Group) (place : Nat) : Prop :=
  group.start ≤ place ∧ place < group.start + group.count

/-- A group of a variable covers it, and all variables that it covers share it and the groups
around it. -/
def Nested (start : Nat) (groups : List (List Group)) : Prop :=
  ∀ index outer group inner, groups[index]? = some (outer ++ group :: inner) →
    group.Covers (start + index) ∧ ∀ place, group.Covers place →
      ∃ other inner', place = start + other ∧ groups[other]? = some (outer ++ group :: inner')

namespace Nested

variable {start : Nat} {groups more : List (List Group)}

theorem append (nested : Nested start groups) (others : Nested (start + groups.length) more) :
    Nested start (groups ++ more) := by
  intro i outer group inner found
  rcases Nat.lt_or_ge i groups.length with inside | beyond
  · rw [List.getElem?_append_left inside] at found
    obtain ⟨covers, shared⟩ := nested i outer group inner found
    refine ⟨covers, fun place covered => ?_⟩
    obtain ⟨other, inner', rfl, there⟩ := shared place covered
    obtain ⟨bound, -⟩ := List.getElem?_eq_some_iff.mp there
    exact ⟨other, inner', rfl, by rw [List.getElem?_append_left bound, there]⟩
  · rw [List.getElem?_append_right beyond] at found
    obtain ⟨covers, shared⟩ := others _ outer group inner found
    rw [Nat.add_assoc, Nat.add_sub_cancel' beyond] at covers
    refine ⟨covers, fun place covered => ?_⟩
    obtain ⟨other, inner', rfl, there⟩ := shared place covered
    refine ⟨groups.length + other, inner', Nat.add_assoc _ _ _, ?_⟩
    rw [List.getElem?_append_right (Nat.le_add_right _ _), Nat.add_sub_cancel_left, there]

theorem enclose (nested : Nested start groups) :
    Nested start (groups.map ({ start, count := groups.length } :: ·)) := by
  intro i outer group inner found
  rw [List.getElem?_map] at found
  obtain ⟨own, there, eq⟩ := Option.map_eq_some_iff.mp found
  cases outer with
  | nil =>
    cases eq
    have bound := (List.getElem?_eq_some_iff.mp there).1
    refine ⟨⟨by simp, by simpa using bound⟩, fun place covered => ?_⟩
    obtain ⟨other, rfl⟩ := Nat.exists_eq_add_of_le covered.1
    have inside : other < groups.length := by simpa [Group.Covers] using covered
    exact ⟨other, groups[other], rfl, by simp [List.getElem?_eq_getElem inside]⟩
  | cons around outer =>
    obtain ⟨rfl, rfl⟩ := List.cons_eq_cons.mp eq
    obtain ⟨covers, shared⟩ := nested i outer group inner there
    refine ⟨covers, fun place covered => ?_⟩
    obtain ⟨other, inner', rfl, there⟩ := shared place covered
    exact ⟨other, inner', rfl, by simp [there]⟩

/-- The outermost group of a variable lies among all variables. -/
theorem head (nested : Nested start groups) {i : Nat} {group : Group} {inner : List Group}
    (found : groups[i]? = some (group :: inner)) :
    start ≤ group.start ∧ group.start < start + groups.length := by
  obtain ⟨covers, shared⟩ := nested i [] group inner found
  obtain ⟨other, inner', first, there⟩ := shared group.start
    ⟨Nat.le_refl _, Nat.lt_of_le_of_lt covers.1 covers.2⟩
  have bound := (List.getElem?_eq_some_iff.mp there).1
  omega

end Nested

namespace Match

/-- What is bound is nested in that many sequences. -/
def Nests : Nat → Match → Prop
  | 0, .single _ => True
  | depth + 1, .sequence repetitions => ∀ element ∈ repetitions, element.Nests depth
  | _, _ => False

/-- What variables with these groups are bound to is equally long, as far as the groups are the
same. -/
def Parallel : List Group → List Group → Match → Match → Prop
  | group :: inner, group' :: inner', .sequence left, .sequence right =>
    group = group' → List.Forall₂ (Parallel inner inner') left right
  | _, _, _, _ => True

theorem Nests.sequence {depth : Nat} {binding : Match} (nests : binding.Nests (depth + 1)) :
    ∃ repetitions, binding = .sequence repetitions ∧
      ∀ element ∈ repetitions, element.Nests depth := by
  cases binding with
  | single form => exact nests.elim
  | sequence repetitions => exact ⟨repetitions, rfl, nests⟩

theorem Nests.single {binding : Match} (nests : binding.Nests 0) :
    ∃ form, binding = .single form := by
  cases binding with
  | single form => exact ⟨form, rfl⟩
  | sequence repetitions => exact nests.elim

/-- Variables without a common ellipsis repeat on their own. -/
theorem parallel_of_ne {groups groups' : List Group} {left right : Match}
    (apart : ∀ group ∈ groups.head?, group ∉ groups'.head?) :
    Parallel groups groups' left right := by
  unfold Parallel
  split
  · rintro rfl
    exact absurd rfl (apart _ rfl)
  · trivial

end Match

/-- What variables with these groups are bound to is nested accordingly. -/
structure Laid (groups : List (List Group)) (bound : List Match) : Prop where
  nests : List.Forall₂ (fun own binding => Match.Nests own.length binding) groups bound
  parallel (index index' : Nat) (own own' : List Group) (binding binding' : Match) :
    groups[index]? = some own → groups[index']? = some own' → bound[index]? = some binding →
      bound[index']? = some binding' → Match.Parallel own own' binding binding'

namespace Laid

variable {groups more : List (List Group)} {bound others : List Match}

theorem nil : Laid [] [] :=
  ⟨.nil, by simp⟩

theorem append {start : Nat} (first : Laid groups bound) (second : Laid more others)
    (nested : Nested start groups) (nested' : Nested (start + groups.length) more) :
    Laid (groups ++ more) (bound ++ others) := by
  have length := first.nests.length_eq
  refine ⟨List.rel_append first.nests second.nests, ?_⟩
  have cross {i j : Nat} {own own' : List Group} (here : groups[i]? = some own)
      (there : more[j]? = some own') : ∀ group ∈ own.head?, group ∉ own'.head? := by
    intro group mem mem'
    obtain ⟨inner, rfl⟩ := List.head?_eq_some_iff.mp mem
    obtain ⟨inner', rfl⟩ := List.head?_eq_some_iff.mp mem'
    have := nested.head here
    have := nested'.head there
    omega
  intro i j own own' binding binding' here there held held'
  rw [List.getElem?_append] at here there held held'
  rw [← length] at held held'
  by_cases left : i < groups.length <;> by_cases right : j < groups.length
  · rw [if_pos left] at here held
    rw [if_pos right] at there held'
    exact first.parallel i j own own' _ _ here there held held'
  · rw [if_pos left] at here
    rw [if_neg right] at there
    exact Match.parallel_of_ne (cross here there)
  · rw [if_neg left] at here
    rw [if_pos right] at there
    exact Match.parallel_of_ne fun group mem mem' => cross there here group mem' mem
  · rw [if_neg left] at here held
    rw [if_neg right] at there held'
    exact second.parallel _ _ own own' _ _ here there held held'

/-- The repetitions under an ellipsis bind each variable to a sequence, all equally long. -/
theorem columns {rows : List (List Match)} (each : ∀ row ∈ rows, Laid groups row) (group : Group) :
    Laid (groups.map (group :: ·)) (Match.columns groups.length rows) := by
  have even : ∀ row ∈ rows, row.length = groups.length := fun row mem =>
    (each row mem).nests.length_eq.symm
  have column {index : Nat} {own : List Group} {binding : Match}
      (there : (groups.map (group :: ·))[index]? = some own)
      (held : (Match.columns groups.length rows)[index]? = some binding) :
      ∃ inner, groups[index]? = some inner ∧ own = group :: inner ∧
        binding = .sequence (rows.filterMap (·[index]?)) := by
    rw [List.getElem?_map] at there
    obtain ⟨inner, found, rfl⟩ := Option.map_eq_some_iff.mp there
    have inside := (List.getElem?_eq_some_iff.mp found).1
    rw [Match.getElem?_columns even inside] at held
    exact ⟨inner, found, rfl, (Option.some.inj held).symm⟩
  constructor
  · rw [List.forall₂_iff_get]
    refine ⟨by rw [List.length_map, Match.length_columns even], fun index here there => ?_⟩
    obtain ⟨inner, found, own, binding⟩ := column (List.getElem?_eq_getElem here)
      (List.getElem?_eq_getElem there)
    rw [List.get_eq_getElem, List.get_eq_getElem, own, binding]
    intro element mem
    obtain ⟨row, listed, held⟩ := List.mem_filterMap.mp mem
    obtain ⟨bound, rfl⟩ := List.getElem?_eq_some_iff.mp held
    obtain ⟨inside, rfl⟩ := List.getElem?_eq_some_iff.mp found
    exact (each row listed).nests.get inside bound
  · intro i j own own' binding binding' here there held held'
    obtain ⟨inner, found, rfl, rfl⟩ := column here held
    obtain ⟨inner', found', rfl, rfl⟩ := column there held'
    intro _
    clear column held held'
    induction rows with
    | nil => exact .nil
    | cons row rows ih =>
      have inside := (List.getElem?_eq_some_iff.mp found).1
      have inside' := (List.getElem?_eq_some_iff.mp found').1
      have length := even row List.mem_cons_self
      rw [← length] at inside inside'
      simp only [List.filterMap_cons, List.getElem?_eq_getElem inside,
        List.getElem?_eq_getElem inside']
      refine .cons ((each row List.mem_cons_self).parallel i j _ _ _ _ found found'
        (List.getElem?_eq_getElem inside) (List.getElem?_eq_getElem inside')) ?_
      exact ih (fun row mem => each row (.tail _ mem)) (fun row mem => even row (.tail _ mem))

end Laid

/-! ### Reading -/

namespace Pattern

variable {start : Nat} {front back : List Pattern} {repeated : Option Repetition}
  {new more : List (List Group)}

structure Lays (start : Nat) (pattern : Pattern) (new : List (List Group)) : Prop where
  groups : pattern.groups start = new
  nested : Nested start new
  laid (meaning? : String → Option Identity) (form : Datum) (bound : List Match) :
    pattern.bindings? meaning? form = some bound → Laid new bound

structure LaysItems (start : Nat) (front : List Pattern) (repeated : Option Repetition)
    (back : List Pattern) (new : List (List Group)) : Prop where
  groups : shapeGroups start (.mk front repeated back none) = new
  nested : Nested start new
  laid (meaning? : String → Option Identity) (forms : List Datum) (bound : List Match) :
    Spans meaning? front repeated back forms bound → Laid new bound

structure LaysShape (start : Nat) (shape : Shape) (new : List (List Group)) : Prop where
  groups : shapeGroups start shape = new
  nested : Nested start new
  laid (meaning? : String → Option Identity) (items : List Datum) (tail : Option Datum)
    (position : Position) (bound : List Match) :
    shapeBindings? meaning? shape items tail position = some bound → Laid new bound

theorem nested_nil : Nested start [] := by
  intro i outer group inner found
  simp at found

variable {pattern : Pattern}

theorem lays_blank (none_found : pattern.groups start = [])
    (none_bound : ∀ meaning? form bound, pattern.bindings? meaning? form = some bound → bound = [])
    : Lays start pattern [] :=
  ⟨none_found, nested_nil, fun meaning? form bound matched => by
    rw [none_bound meaning? form bound matched]
    exact .nil⟩

theorem lays_constant (v : Atom) : Lays start (.constant v) [] :=
  lays_blank rfl fun _ _ _ matched => by
    obtain ⟨-, -, -, -, none_bound⟩ := bindings?_constant matched
    exact none_bound

theorem lays_literal (definition? : String → Option Identity) (name : String) :
    Lays start (TransformerKind.literal definition? name) [] := by
  unfold TransformerKind.literal
  split
  · refine lays_blank rfl fun _ form _ matched => ?_
    rw [bindings?] at matched
    split at matched
    · split at matched <;> simp_all
    · cases matched
  · refine lays_blank rfl fun _ form _ matched => ?_
    rw [bindings?] at matched
    split at matched <;> simp_all

theorem lays_variable : Lays start .variable [[]] := by
  refine ⟨rfl, fun i outer group inner found => ?_, fun meaning? form bound matched => ?_⟩
  · cases i <;> simp at found
  · rw [bindings?] at matched
    cases matched
    refine ⟨.cons trivial .nil, fun i i' own own' binding binding' here there _ _ => ?_⟩
    cases i <;> simp at here
    subst here
    trivial

theorem laysItems_nil : LaysItems start [] none [] [] :=
  ⟨rfl, nested_nil, fun _ _ _ spans => by cases spans; exact .nil⟩

theorem LaysItems.cons {pattern : Pattern} (first : Lays start pattern new)
    (others : LaysItems (start + new.length) front repeated back more) :
    LaysItems start (pattern :: front) repeated back (new ++ more) := by
  refine ⟨?_, first.nested.append others.nested, fun meaning? forms bound spans => ?_⟩
  · rw [← others.groups, ← first.groups]
    cases repeated <;>
      simp [shapeGroups, allGroups, Nat.add_assoc]
  · cases spans with
    | cons found spans =>
      exact (first.laid _ _ _ found).append (others.laid _ _ _ spans) first.nested others.nested

theorem LaysItems.under (first : Lays start pattern new)
    (others : LaysItems (start + new.length) back none [] more) :
    LaysItems start [] (some (.mk pattern new.length)) back
      (new.map ({ start, count := new.length } :: ·) ++ more) := by
  have nested := first.nested.enclose
  have nested' : Nested (start + (new.map
      ({ start, count := new.length } :: · : List Group → List Group)).length) more := by
    rw [List.length_map]
    exact others.nested
  refine ⟨?_, nested.append nested', fun meaning? forms bound spans => ?_⟩
  · rw [← others.groups, ← first.groups]
    simp [shapeGroups, allGroups, repetitionGroups]
  · cases spans with
    | repeated under spans =>
      obtain ⟨rows, matched, rfl⟩ := rows_of_repetitionBindings? under
      exact (Laid.columns (forall_mem_right matched fun _ _ found => first.laid _ _ _ found) _).append
        (others.laid _ _ _ spans) nested nested'

theorem LaysItems.shape (xs : LaysItems start front repeated back new) :
    LaysShape start (.mk front repeated back none) new := by
  refine ⟨xs.groups, xs.nested, fun meaning? forms tail pos bound matched => ?_⟩
  obtain ⟨taken, left, first, last, -, rfl, spans, behind, -⟩ := spans_of_shapeBindings? matched
  obtain ⟨-, rfl⟩ := restBindings?_none behind
  rw [List.append_nil]
  exact xs.laid _ _ _ spans

theorem LaysItems.dotted {rest : Pattern} (xs : LaysItems start front repeated back new)
    (behind : Lays (start + new.length) rest more) :
    LaysShape start (.mk front repeated back (some rest)) (new ++ more) := by
  refine ⟨?_, xs.nested.append behind.nested, fun meaning? forms tail pos bound matched => ?_⟩
  · rw [← behind.groups, ← xs.groups]
    cases repeated <;> simp [shapeGroups]
  · obtain ⟨taken, left, first, last, -, rfl, spans, found, -⟩ := spans_of_shapeBindings? matched
    rw [restBindings?] at found
    exact (xs.laid _ _ _ spans).append (behind.laid _ _ _ found) xs.nested behind.nested

theorem LaysShape.list {shape : Shape} (lays : LaysShape start shape new) :
    Lays start (.list shape) new := by
  refine ⟨lays.groups, lays.nested, fun meaning? form bound matched => ?_⟩
  obtain ⟨xs, tail, -, matched⟩ := bindings?_list matched
  exact lays.laid _ _ _ _ _ matched

theorem LaysShape.vector {shape : Shape} (lays : LaysShape start shape new) :
    Lays start (.vector shape) new := by
  refine ⟨lays.groups, lays.nested, fun meaning? form bound matched => ?_⟩
  obtain ⟨xs, pos, -, matched⟩ := bindings?_vector matched
  exact lays.laid _ _ _ _ _ matched

mutual

/-- A pattern that was read has the variables that were found, with their groups. -/
theorem Reads.lays {inert : String → Pattern → Prop}
    (blank : ∀ name pattern start, inert name pattern → Lays start pattern [])
    {start : Nat} {d : Datum} {pattern : Pattern} {new : PatternVariables}
    (reads : Reads inert start d pattern new) :
    Lays start pattern (new.map PatternVariable.groups) := by
  cases reads with
  | constant nameless => exact lays_constant _
  | inert known => exact blank _ _ _ known
  | «variable» unmarked => exact lays_variable
  | list inside => exact (inside.lays blank).shape.list
  | dotted inside behind =>
    rw [List.map_append]
    exact ((inside.lays blank).dotted (by rw [List.length_map]; exact behind.lays blank)).list
  | vector inside => exact (inside.lays blank).shape.vector

theorem ReadsItems.lays {inert : String → Pattern → Prop}
    (blank : ∀ name pattern start, inert name pattern → Lays start pattern [])
    {start : Nat} {xs : List Datum} {front back : List Pattern} {repeated : Option Repetition}
    {new : PatternVariables} (reads : ReadsItems inert start xs front repeated back new) :
    LaysItems start front repeated back (new.map PatternVariable.groups) := by
  cases reads with
  | nil => exact laysItems_nil
  | cons first others =>
    rw [List.map_append]
    exact .cons (first.lays blank) (by rw [List.length_map]; exact others.lays blank)
  | repeated first marked others =>
    have under := LaysItems.under (first.lays blank)
      (by rw [List.length_map]; exact others.lays blank)
    simpa [Function.comp_def, PatternVariable.under] using under

end

theorem noneInert_lays (name : String) (pattern : Pattern) (start : Nat)
    (inert : NoneInert name pattern) : Lays start pattern [] :=
  inert.elim

/-- A match binds as many variables as reading the pattern found. -/
theorem Reads.length_bindings? {d : Datum} {new : PatternVariables}
    (reads : Reads NoneInert start d pattern new) {meaning? : String → Option Identity}
    {form : Datum} {bound : List Match} (matched : bindings? meaning? pattern form = some bound) :
    bound.length = new.length := by
  simpa using ((reads.lays noneInert_lays).laid _ _ _ matched).nests.length_eq.symm

/-- The items of a form bind as many variables as reading the items of the pattern found. -/
theorem ReadsItems.length_spans {xs : List Datum} {new : PatternVariables}
    (reads : ReadsItems NoneInert start xs front repeated back new)
    {meaning? : String → Option Identity} {forms : List Datum} {bound : List Match}
    (spans : Spans meaning? front repeated back forms bound) : bound.length = new.length := by
  simpa using ((reads.lays noneInert_lays).laid _ _ _ spans).nests.length_eq.symm

end Pattern

end MiniScheme
