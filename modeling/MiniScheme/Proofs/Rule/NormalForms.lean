import MiniScheme.Proofs.Reading.Legible
import MiniScheme.Proofs.Rule.Matching

/-!
# Data stay in normal form

A dotted list has an item, and its tail is neither a list nor a dotted list. Reading yields such data
only. So does expanding, if the form and the data that a transformer inserts as they stand are in
normal form: what a variable is bound to is a part of the form, or what is left of a list, and
wherever a tail is put behind items it is spliced in.
-/

namespace MiniScheme

namespace Datum

theorem Legible.normalForm {room : Nat} {d : Datum} (legible : Legible room d) : d.NormalForm := by
  induction legible with
  | atom => exact .atom _ _
  | list _ ih => exact .list (normalItems_iff.mpr ih)
  | dotted _ _ some_item atomic ih ih' =>
    exact .dotted (normalItems_iff.mpr ih) ih' some_item atomic
  | vector _ ih => exact .vector (normalItems_iff.mpr ih)

theorem NormalForm.elements {form : Datum} {xs : List Datum} {tail : Option Datum}
    (normal : form.NormalForm) (elems : form.elements? = some (xs, tail)) :
    NormalItems xs ∧ ∀ last ∈ tail, last.NormalForm := by
  cases normal with
  | atom | vector => cases elems
  | list inner =>
    cases elems
    exact ⟨inner, nofun⟩
  | dotted inner last =>
    cases elems
    refine ⟨inner, ?_⟩
    rintro _ ⟨⟩
    exact last

end Datum

open Datum (NormalForm NormalItems normalItems_iff normalItems_append)

/-! ### Matching -/

inductive Match.Normal : Match → Prop where
  | single {form : Datum} (normal : form.NormalForm) : Normal (.single form)
  | sequence {repetitions : List Match} (normal : ∀ element ∈ repetitions, Normal element) :
      Normal (.sequence repetitions)

def Match.AllNormal (bound : List Match) : Prop :=
  ∀ binding ∈ bound, binding.Normal

theorem Match.allNormal_columns {width : Nat} {rows : List (List Match)}
    (each : ∀ row ∈ rows, AllNormal row) : AllNormal (columns width rows) := by
  have elems : ∀ column ∈ rows.foldr (List.zipWith List.cons) (List.replicate width []),
      AllNormal column := by
    induction rows with
    | nil =>
      intro column mem
      rw [List.eq_of_mem_replicate mem]
      exact nofun
    | cons row rows ih =>
      obtain ⟨first, others⟩ := List.forall_mem_cons.mp each
      intro column mem
      rw [List.foldr_cons, ← List.map_uncurry_zip_eq_zipWith] at mem
      obtain ⟨⟨element, rest⟩, paired, rfl⟩ := List.mem_map.mp mem
      exact List.forall_mem_cons.mpr ⟨first element (List.of_mem_zip paired).1,
        ih others rest (List.of_mem_zip paired).2⟩
  intro binding mem
  obtain ⟨column, found, rfl⟩ := List.mem_map.mp mem
  exact .sequence (elems column found)

namespace Pattern

open Match (AllNormal)

variable {meaning? : String → Option Identity} {bound : List Match}

mutual

theorem normal_bindings? (pattern : Pattern) {form : Datum} {bound : List Match}
    (normal : form.NormalForm) (matched : bindings? meaning? pattern form = some bound) :
    AllNormal bound := by
  cases pattern with
  | constant v =>
    obtain ⟨-, -, -, -, rfl⟩ := bindings?_constant matched
    exact nofun
  | anything =>
    cases matched
    exact nofun
  | «variable» =>
    cases matched
    exact List.forall_mem_singleton.mpr (.single normal)
  | bound identity | free name =>
    rw [bindings?] at matched
    repeat' split at matched
    all_goals cases matched
    exact nofun
  | list shape =>
    obtain ⟨xs, tail, elems, matched⟩ := bindings?_list matched
    obtain ⟨inner, last⟩ := normal.elements elems
    exact normal_shapeBindings? shape inner last matched
  | vector shape =>
    obtain ⟨xs, pos, rfl, matched⟩ := bindings?_vector matched
    cases normal with
    | vector inner => exact normal_shapeBindings? shape inner (by simp) matched

theorem normal_shapeBindings? (shape : Shape) {xs : List Datum} {tail : Option Datum}
    {pos : Position} {bound : List Match} (normal : NormalItems xs)
    (last : ∀ d ∈ tail, d.NormalForm)
    (matched : shapeBindings? meaning? shape xs tail pos = some bound) : AllNormal bound := by
  obtain ⟨front, repeated, back, rest⟩ := shape
  have ending : (tail.getD (.list [] pos)).NormalForm := by
    cases tail with
    | none => exact .list .nil
    | some d => exact last d rfl
  have others := (normalItems_append.mp (List.take_append_drop front.length xs ▸ normal)).2
  rw [shapeBindings?] at matched
  split at matched
  · cases matched
  obtain ⟨first, inFront, matched⟩ := Option.bind_eq_some_iff.mp matched
  have first_normal := normal_allBindings? front normal inFront
  cases repeated with
  | none =>
    obtain ⟨second, behind, matched⟩ := Option.bind_eq_some_iff.mp matched
    cases matched
    exact List.forall_mem_append.mpr
      ⟨first_normal, normal_restBindings? rest (.withTail others ending pos) behind⟩
  | some repetition =>
    obtain ⟨columns, under, matched⟩ := Option.bind_eq_some_iff.mp matched
    obtain ⟨second, inBack, matched⟩ := Option.bind_eq_some_iff.mp matched
    obtain ⟨third, behind, matched⟩ := Option.bind_eq_some_iff.mp matched
    cases matched
    rw [← List.take_append_drop (xs.length - (front.length + back.length))
      (xs.drop front.length), normalItems_append] at others
    have columns_normal := normal_repetitionBindings? repetition others.1 under
    have second_normal := normal_allBindings? back others.2 inBack
    have third_normal := normal_restBindings? rest ending behind
    simp only [AllNormal, List.forall_mem_append]
    exact ⟨⟨⟨first_normal, columns_normal⟩, second_normal⟩, third_normal⟩

theorem normal_allBindings? (patterns : List Pattern) {forms : List Datum} {bound : List Match}
    (normal : NormalItems forms) (matched : allBindings? meaning? patterns forms = some bound) :
    AllNormal bound := by
  cases patterns with
  | nil =>
    cases matched
    exact nofun
  | cons pattern patterns =>
    cases normal with
    | nil => cases matched
    | cons item_normal items_normal =>
      rw [allBindings?] at matched
      obtain ⟨first, found, matched⟩ := Option.bind_eq_some_iff.mp matched
      obtain ⟨second, others, matched⟩ := Option.bind_eq_some_iff.mp matched
      cases matched
      exact List.forall_mem_append.mpr ⟨normal_bindings? pattern item_normal found,
        normal_allBindings? patterns items_normal others⟩

theorem normal_repetitionBindings? (repetition : Repetition) {forms : List Datum}
    {bound : List Match} (normal : NormalItems forms)
    (matched : repetitionBindings? meaning? repetition forms = some bound) : AllNormal bound := by
  obtain ⟨pattern, width⟩ := repetition
  obtain ⟨rows, found, rfl⟩ := rows_of_repetitionBindings? matched
  have each := (List.forall₂_and_left _ _).mpr ⟨normalItems_iff.mp normal, found⟩
  exact Match.allNormal_columns
    (forall_mem_right each fun form row found => normal_bindings? pattern found.1 found.2)

theorem normal_restBindings? (rest : Option Pattern) {form : Datum} {finished : Bool}
    {bound : List Match} (normal : form.NormalForm)
    (matched : restBindings? meaning? rest form finished = some bound) : AllNormal bound := by
  cases rest with
  | none =>
    rw [restBindings?] at matched
    split at matched <;> cases matched
    exact nofun
  | some pattern => exact normal_bindings? pattern normal matched

end

end Pattern

/-! ### Templates -/

namespace Template

mutual

/-- The data that a template inserts as they stand. -/
def verbatims : Template → List Datum
  | .verbatim form => [form]
  | .variable _ => []
  | .list elements none => allVerbatims elements
  | .list elements (some tail) => allVerbatims elements ++ tail.verbatims
  | .vector elements => allVerbatims elements

/-- The data that the elements of a list or vector insert. -/
def allVerbatims : List Subtemplate → List Datum
  | [] => []
  | .mk template _ :: elements => template.verbatims ++ allVerbatims elements

end

def Bindings.Normal (bindings : Bindings) : Prop :=
  ∀ binding, some binding ∈ bindings → Match.Normal binding

variable {pos : Position} {bindings : Bindings}

theorem Bindings.Normal.focus (normal : bindings.Normal) (group : Group) (repetition : Nat) :
    (bindings.focus group repetition).Normal := by
  intro binding mem
  obtain ⟨place, inside, found⟩ := List.mem_mapIdx.mp mem
  split at found
  · split at found
    · rename_i repetitions was
      cases normal _ (was ▸ List.getElem_mem inside) with
      | sequence each => exact each binding (List.mem_of_getElem? found)
    · exact normal binding (found ▸ List.getElem_mem inside)
  · exact normal binding (found ▸ List.getElem_mem inside)

theorem normal_repeatOver {make : Bindings → Except CompileError Datum}
    (makes : ∀ bindings res, bindings.Normal → make bindings = .ok res → res.NormalForm)
    (groups : List Group) {bindings : Bindings} (normal : bindings.Normal) {results : List Datum}
    (made : repeatOver pos make groups bindings = .ok results) : NormalItems results := by
  induction groups generalizing bindings results with
  | nil =>
    obtain ⟨res, first, done⟩ := Except.bind_ok made
    cases done
    exact .cons (makes _ _ normal first) .nil
  | cons group groups ih =>
    rw [repeatOver] at made
    split at made
    · obtain ⟨parts, inside, done⟩ := Except.bind_ok made
      cases done
      refine normalItems_iff.mpr fun item mem => ?_
      obtain ⟨part, listed, mem⟩ := List.mem_flatten.mp mem
      obtain ⟨repetition, -, found⟩ := exists_of_mem_mapM inside part listed
      exact normalItems_iff.mp (ih (normal.focus group repetition) found) item mem
    · cases made

mutual

/-- What a template makes from data in normal form is in normal form. -/
theorem normal_instantiate (template : Template) {bindings : Bindings} {res : Datum}
    (own : ∀ d ∈ template.verbatims, d.NormalForm) (normal : bindings.Normal)
    (made : instantiate pos template bindings = .ok res) : res.NormalForm := by
  cases template with
  | verbatim form =>
    cases made
    exact own _ List.mem_cons_self
  | «variable» place =>
    rw [instantiate] at made
    split at made
    · rename_i held
      cases made
      cases normal _ (List.mem_of_getElem? held) with
      | single form_normal => exact form_normal
    · cases made
  | list elems tail =>
    cases tail with
    | none =>
      obtain ⟨xs, inside, done⟩ := Except.bind_ok made
      cases done
      exact .list (normal_instantiateAll elems own normal inside)
    | some tail =>
      rw [instantiate] at made
      obtain ⟨xs, inside, made⟩ := Except.bind_ok made
      obtain ⟨last, behind, done⟩ := Except.bind_ok made
      cases done
      obtain ⟨first, second⟩ := List.forall_mem_append.mp own
      exact .withTail (normal_instantiateAll elems first normal inside)
        (normal_instantiate tail second normal behind) pos
  | vector elems =>
    obtain ⟨xs, inside, done⟩ := Except.bind_ok made
    cases done
    exact .vector (normal_instantiateAll elems own normal inside)

theorem normal_instantiateAll (elems : List Subtemplate) {bindings : Bindings}
    {results : List Datum} (own : ∀ d ∈ allVerbatims elems, d.NormalForm) (normal : bindings.Normal)
    (made : instantiateAll pos elems bindings = .ok results) : NormalItems results := by
  cases elems with
  | nil =>
    cases made
    exact .nil
  | cons element elems =>
    obtain ⟨template, groups⟩ := element
    rw [instantiateAll] at made
    obtain ⟨first, inside, made⟩ := Except.bind_ok made
    obtain ⟨others, behind, done⟩ := Except.bind_ok made
    cases done
    obtain ⟨own, more⟩ := List.forall_mem_append.mp own
    exact normalItems_append.mpr ⟨normal_repeatOver
      (fun _ _ normal made => normal_instantiate template own normal made) groups normal inside,
      normal_instantiateAll elems more normal behind⟩

end

end Template

/-! ### Transformers -/

theorem Rule.normal_expand? {meaning? : String → Option Identity} {rule : Rule} {form res : Datum}
    (own : ∀ d ∈ rule.template.verbatims, d.NormalForm) (normal : form.NormalForm)
    (expanded : rule.expand? meaning? form = some (.ok res)) : res.NormalForm := by
  obtain ⟨bound, matched, made⟩ := Option.map_eq_some_iff.mp expanded
  refine Template.normal_instantiate rule.template own (fun binding mem => ?_) made
  have bound_normal : Match.AllNormal bound := by
    rw [Rule.bindings?] at matched
    split at matched
    · exact Pattern.normal_bindings? _ normal matched
    · split at matched
      · rename_i elems
        obtain ⟨inner, last⟩ := normal.elements elems
        cases inner with
        | cons _ inner => exact Pattern.normal_shapeBindings? _ inner last matched
      · cases matched
  obtain ⟨_, there, ⟨⟩⟩ := List.mem_map.mp mem
  exact bound_normal binding there

namespace TransformerKind

/-- The data that a transformer inserts as they stand. -/
def verbatims : TransformerKind → List Datum
  | .rules candidates => candidates.flatMap fun rule => rule.template.verbatims
  | .identifier reference assignment =>
    reference.verbatims ++ assignment.toList.flatMap fun rule => rule.template.verbatims

/-- Data stay in normal form: those that are read from any text, up to its end or its first error,
and those that a transformer makes of a form, if the form and what the transformer inserts are. -/
theorem data_stay_normal :
    (∀ source, ∀ datum ∈ (readUpToError source).1, datum.NormalForm) ∧
    ∀ (kind : TransformerKind) (meaning? : String → Option Identity) (form result : Datum),
      (∀ datum ∈ kind.verbatims, datum.NormalForm) → form.NormalForm →
      kind.expand meaning? form = .ok result ∨ kind.expandAssignment meaning? form = .ok result →
        result.NormalForm := by
  refine ⟨fun source datum member => (legible_readUpToError source datum member).normalForm, ?_⟩
  rintro (rules | ⟨reference, assignment⟩) meaning? form result own normal (expanded | expanded)
  · rw [expand] at expanded
    split at expanded
    · rename_i found
      obtain ⟨rule, member, matched⟩ := List.exists_of_findSome?_eq_some found
      exact rule.normal_expand? (fun datum there => own datum (List.mem_flatMap.mpr
        ⟨rule, member, there⟩)) normal (expanded ▸ matched)
    · cases expanded
  · cases expanded
  · obtain ⟨own, -⟩ := List.forall_mem_append.mp own
    obtain ⟨expansion, made, expanded⟩ := Except.bind_ok expanded
    have head := Template.normal_instantiate reference own (by simp [Template.Bindings.Normal]) made
    split at expanded <;> cases expanded
    · rename_i items tail elements
      obtain ⟨inner, last⟩ := normal.elements elements
      cases inner with
      | cons _ inner => exact .withTail (.cons head inner) (last tail rfl) _
    · rename_i items elements
      obtain ⟨inner, -⟩ := normal.elements elements
      cases inner with
      | cons _ inner => exact .list (.cons head inner)
    · exact head
  · rw [expandAssignment.eq_def] at expanded
    split at expanded
    · rename_i rule same
      cases same
      split at expanded
      · rename_i matched
        exact rule.normal_expand? (fun datum there => own datum (by simp [verbatims, there])) normal
          (expanded ▸ matched)
      · cases expanded
    · cases expanded

/-- The tail of `(a . (b . c))` is spliced in, although the text has an error later on; and
`((_ x . y) (y . y))` makes `((2 . 3) 2 . 3)` of `(m 1 2 . 3)`. -/
theorem data_stay_normal_spliced :
    let number (value : Int64) := Datum.atom (.integer value) {}
    let rest : Datum := .dotted [number 2] (number 3) {}
    let kind := TransformerKind.rules [{
      pattern := .arguments (.mk [.variable] none [] (some .variable))
      template := .list [.mk (.variable 1) []] (some (.variable 1)) }]
    let form := Datum.dotted [.ofSymbol "m" {}, number 1, number 2] (number 3) {}
    let source : Source := { text := "(a . (b . c)) )", name := none }
    kind.expand (fun _ => none) form = .ok (.dotted [rest, number 2] (number 3) {}) ∧
      (Datum.dotted [rest, number 2] (number 3) {}).NormalForm ∧
      (readUpToError source).1.map Datum.text = ["(a b . c)"] ∧
      ∀ datum ∈ (readUpToError source).1, datum.NormalForm := by
  intro number rest kind form source
  have expanded : kind.expand (fun _ => none) form = .ok (.dotted [rest, number 2] (number 3) {}) :=
    rfl
  have form_normal : form.NormalForm :=
    .dotted (.cons (.atom _ _) (.cons (.atom _ _) (.cons (.atom _ _) .nil))) (.atom _ _) nofun rfl
  obtain ⟨reads, expands⟩ := data_stay_normal
  exact ⟨expanded, expands kind _ form _ nofun form_normal (.inl expanded), by decide +kernel,
    reads source⟩

end TransformerKind

end MiniScheme
