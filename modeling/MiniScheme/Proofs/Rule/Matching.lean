import MiniScheme.Proofs.Rule.Reading
import MiniScheme.Proofs.Runs.Sequences

/-!
# What matching a pattern finds

`Spans` says how the items of a form are shared out among the patterns of a list: one each in
front, any number under the ellipsis, one each behind it. What is left over goes to the pattern
behind the dot. Matching turns the bindings of the repetitions into one sequence for each variable.
-/

namespace MiniScheme

/-- A list has another as its part from a place on. -/
def Carries {α : Type} (whole : List α) (start : Nat) (part : List α) : Prop :=
  ∀ index entry, part[index]? = some entry → whole[start + index]? = some entry

variable {α β : Type} {inputs : List α} {outputs : List β}

theorem carries_append {whole part more : List α} {start : Nat} :
    Carries whole start (part ++ more) ↔
      Carries whole start part ∧ Carries whole (start + part.length) more := by
  constructor
  · intro carries
    refine ⟨fun i e found => ?_, fun i e found => ?_⟩
    · obtain ⟨bound, -⟩ := List.getElem?_eq_some_iff.mp found
      exact carries i e (by rw [List.getElem?_append_left bound, found])
    · rw [Nat.add_assoc]
      refine carries _ e ?_
      rw [List.getElem?_append_right (Nat.le_add_right _ _), Nat.add_sub_cancel_left, found]
  · rintro ⟨first, second⟩ i e found
    rcases Nat.lt_or_ge i part.length with inside | beyond
    · rw [List.getElem?_append_left inside] at found
      exact first i e found
    · rw [List.getElem?_append_right beyond] at found
      have placed := second _ e found
      rwa [Nat.add_assoc, Nat.add_sub_cancel' beyond] at placed

theorem carries_self (whole : List α) : Carries whole 0 whole := by
  intro i e found
  rwa [Nat.zero_add]

namespace Match

variable {width place : Nat} {rows : List (List Match)}

/-- Every variable is bound to what the repetitions bind it to, in their order. -/
theorem getElem?_columns (even : ∀ row ∈ rows, row.length = width) (inside : place < width) :
    (columns width rows)[place]? = some (.sequence (rows.filterMap (·[place]?))) := by
  have columns_eq : (rows.foldr (List.zipWith List.cons) (List.replicate width []))[place]? =
      some (rows.filterMap (·[place]?)) := by
    induction rows with
    | nil => simp [inside]
    | cons row rows ih =>
      have long : place < row.length := even row List.mem_cons_self ▸ inside
      rw [List.foldr_cons, List.getElem?_zipWith, ih fun row mem => even row (.tail _ mem),
        List.getElem?_eq_getElem long, List.filterMap_cons, List.getElem?_eq_getElem long]
  rw [columns, List.getElem?_map, columns_eq, Option.map_some]

theorem length_columns (even : ∀ row ∈ rows, row.length = width) :
    (columns width rows).length = width := by
  rw [columns, List.length_map]
  induction rows with
  | nil => simp
  | cons row rows ih =>
    rw [List.foldr_cons, List.length_zipWith, ih fun row mem => even row (.tail _ mem),
      even row List.mem_cons_self, Nat.min_self]

/-- The sequence of a variable is as long as there are repetitions. -/
theorem length_filterMap_row (long : ∀ row ∈ rows, place < row.length) :
    (rows.filterMap (·[place]?)).length = rows.length := by
  induction rows with
  | nil => rfl
  | cons row rows ih =>
    rw [List.filterMap_cons, List.getElem?_eq_getElem (long row List.mem_cons_self)]
    exact congrArg (· + 1) (ih fun row mem => long row (.tail _ mem))

/-- The repetition at an index binds a variable to the element there of its sequence. -/
theorem getElem?_filterMap_row {i : Nat} {row : List Match}
    (long : ∀ row ∈ rows, place < row.length) (there : rows[i]? = some row) :
    (rows.filterMap (·[place]?))[i]? = row[place]? := by
  induction rows generalizing i with
  | nil => cases there
  | cons first rows ih =>
    have found := List.getElem?_eq_getElem (long first List.mem_cons_self)
    rw [List.filterMap_cons, found]
    cases i with
    | zero => cases there; exact found.symm
    | succ i => exact ih (fun row mem => long row (.tail _ mem)) there

end Match

/-- What holds of everything related to something holds of all on the right. -/
theorem forall_mem_right {related : α → β → Prop} {good : β → Prop}
    (pairwise : List.Forall₂ related inputs outputs)
    (each : ∀ input output, related input output → good output) :
    ∀ output ∈ outputs, good output := by
  induction pairwise with
  | nil => exact fun _ mem => absurd mem List.not_mem_nil
  | cons first _ ih => exact List.forall_mem_cons.mpr ⟨each _ _ first, ih⟩

namespace Pattern

variable {meaning? : String → Option Identity}

/-- The items of a form are shared out among the patterns before, under and behind an ellipsis, and
bind the variables of these. -/
inductive Spans (meaning? : String → Option Identity) : List Pattern → Option Repetition →
    List Pattern → List Datum → List Match → Prop where
  | nil {back : List Pattern} : Spans meaning? [] none back [] []
  | cons {pattern : Pattern} {front back : List Pattern} {repeated : Option Repetition}
      {form : Datum} {forms : List Datum} {bound more : List Match}
      (first : bindings? meaning? pattern form = some bound)
      (others : Spans meaning? front repeated back forms more) :
      Spans meaning? (pattern :: front) repeated back (form :: forms) (bound ++ more)
  | repeated {repetition : Repetition} {back : List Pattern} {repeats forms : List Datum}
      {bound more : List Match}
      (under : repetitionBindings? meaning? repetition repeats = some bound)
      (others : Spans meaning? back none [] forms more) :
      Spans meaning? [] (some repetition) back (repeats ++ forms) (bound ++ more)

variable {patterns back : List Pattern} {forms : List Datum} {bound : List Match}
  {repeated : Option Repetition} {form : Datum} {shape : Shape}

/-- Without an ellipsis there is one item for each pattern. -/
theorem Spans.length_eq (spans : Spans meaning? patterns none back forms bound) :
    forms.length = patterns.length := by
  generalize same : (none : Option Repetition) = repeated at spans
  induction spans with
  | nil => rfl
  | cons _ _ ih => exact congrArg (· + 1) (ih same)
  | repeated => cases same

/-- The patterns in front of an ellipsis take one item each, and leave what follows to the others. -/
theorem Spans.prepend {others : List Datum} {more : List Match}
    (all : allBindings? meaning? patterns forms = some bound)
    (behind : Spans meaning? [] repeated back others more) :
    Spans meaning? patterns repeated back (forms.take patterns.length ++ others)
      (bound ++ more) := by
  induction patterns generalizing forms bound with
  | nil => cases all; exact behind
  | cons pattern patterns ih =>
    cases forms with
    | nil => cases all
    | cons form forms =>
      rw [allBindings?] at all
      obtain ⟨first, found, all⟩ := Option.bind_eq_some_iff.mp all
      obtain ⟨second, rest, all⟩ := Option.bind_eq_some_iff.mp all
      cases all
      rw [List.append_assoc]
      exact .cons found (ih rest)

theorem spans_of_allBindings? (all : allBindings? meaning? patterns forms = some bound) :
    Spans meaning? patterns none back (forms.take patterns.length) bound := by
  have spans : Spans meaning? patterns none back _ _ := .prepend all .nil
  rwa [List.append_nil, List.append_nil] at spans

/-- A list that matches is shared out among the patterns of its items, with what is left over and
the tail bound by the pattern behind the dot. -/
theorem spans_of_shapeBindings? {front : List Pattern} {rest : Option Pattern} {xs : List Datum}
    {tail : Option Datum} {pos : Position}
    (matched : shapeBindings? meaning? (.mk front repeated back rest) xs tail pos = some bound) :
    ∃ taken left first last, xs = taken ++ left ∧ bound = first ++ last ∧
      Spans meaning? front repeated back taken first ∧ restBindings? meaning? rest
        (.withTail left (tail.getD (.list [] pos)) pos) left.isEmpty = some last ∧
      (rest = none → tail = none) ∧
      left = if repeated.isSome then [] else xs.drop front.length := by
  rw [shapeBindings?] at matched
  split at matched
  · cases matched
  rename_i room
  simp only [Bool.or_eq_true, decide_eq_true_eq, Bool.and_eq_true, not_or, not_and] at room
  have closed : rest = none → tail = none := by
    rintro rfl
    simpa using room.2 rfl
  obtain ⟨first, inFront, matched⟩ := Option.bind_eq_some_iff.mp matched
  cases repeated with
  | none =>
    obtain ⟨last, behind, matched⟩ := Option.bind_eq_some_iff.mp matched
    cases matched
    exact ⟨xs.take front.length, xs.drop front.length, first, last,
      (List.take_append_drop _ _).symm, rfl, spans_of_allBindings? inFront, behind, closed, rfl⟩
  | some repetition =>
    obtain ⟨columns, under, matched⟩ := Option.bind_eq_some_iff.mp matched
    obtain ⟨second, inBack, matched⟩ := Option.bind_eq_some_iff.mp matched
    obtain ⟨last, behind, matched⟩ := Option.bind_eq_some_iff.mp matched
    cases matched
    have ending : ((xs.drop front.length).drop
        (xs.length - (front.length + back.length))).length = back.length := by
      simp only [List.length_drop]
      omega
    have spans := Spans.prepend inFront (.repeated under (spans_of_allBindings? inBack))
    rw [List.take_of_length_le (Nat.le_of_eq ending), List.take_append_drop,
      List.take_append_drop] at spans
    exact ⟨xs, [], first ++ (columns ++ second), last, (List.append_nil _).symm,
      by simp only [List.append_assoc], spans, behind, closed, rfl⟩

theorem bindings?_constant {v : Atom}
    (matched : bindings? meaning? (.constant v) form = some bound) :
    ∃ other pos, form = .atom other pos ∧ (other == v) = true ∧ bound = [] := by
  cases form with
  | atom other pos =>
    rw [bindings?] at matched
    split at matched
    · cases matched; exact ⟨other, pos, rfl, ‹_›, rfl⟩
    · cases matched
  | list | dotted | vector => cases matched

theorem bindings?_list (matched : bindings? meaning? (.list shape) form = some bound) :
    ∃ xs tail, form.elements? = some (xs, tail) ∧
      shapeBindings? meaning? shape xs tail form.position = some bound := by
  rw [bindings?] at matched
  split at matched
  · exact ⟨_, _, ‹_›, matched⟩
  · cases matched

theorem bindings?_vector (matched : bindings? meaning? (.vector shape) form = some bound) :
    ∃ xs pos, form = .vector xs pos ∧ shapeBindings? meaning? shape xs none pos = some bound := by
  cases form with
  | vector xs pos =>
    rw [bindings?] at matched
    exact ⟨xs, pos, rfl, matched⟩
  | atom | list | dotted => cases matched

/-- Every form under an ellipsis matches the pattern on its own. -/
theorem rows_of_repetitionBindings? {pattern : Pattern} {width : Nat}
    (matched : repetitionBindings? meaning? (.mk pattern width) forms = some bound) :
    ∃ rows, List.Forall₂ (fun form row => bindings? meaning? pattern form = some row) forms rows ∧
      bound = Match.columns width rows := by
  rw [repetitionBindings?] at matched
  obtain ⟨rows, found, matched⟩ := Option.bind_eq_some_iff.mp matched
  cases matched
  exact ⟨rows, mapM_eq_some_iff.mp found, rfl⟩

/-- Without a pattern behind the dot nothing is left over. -/
theorem restBindings?_none {left : List Datum}
    (behind : restBindings? meaning? none form left.isEmpty = some bound) :
    left = [] ∧ bound = [] := by
  rw [restBindings?] at behind
  split at behind
  · cases behind; exact ⟨List.isEmpty_iff.mp ‹_›, rfl⟩
  · cases behind

end Pattern

end MiniScheme
