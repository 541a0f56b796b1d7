import MiniScheme.Compiler
import MiniScheme.Proofs.Compiler.Quotation
import MiniScheme.Proofs.Runs.Sequences

/-!
# Where forms come from

Compiling a datum comes to forms that are parts of it and to expansions, which have parts of the
descriptions of transformers as well. `Stems` has all the forms that can be come to from a number of
data, and what a form amounts to where it stands consists of forms with the same origin.
-/

namespace MiniScheme

def Datum.children : Datum → List Datum
  | .atom _ _ => []
  | .list items _ | .vector items _ => items
  | .dotted items tail _ => items ++ [tail]

theorem Datum.children_of_list? {datum : Datum} {items : List Datum}
    (listed : datum.list? = some items) : datum.children = items := by
  unfold Datum.list? at listed
  split at listed <;> cases listed
  rfl

/-- `Stems source form`: the form is one of the data, or comes from such a form in one of the ways in
which compiling goes from a form to others. -/
inductive Stems (source : Datum → Prop) : Datum → Prop where
  | datum {datum : Datum} (known : source datum) : Stems source datum
  | part {form part : Datum} (stems : Stems source form) (member : part ∈ form.children) :
      Stems source part
  /-- `(a b unquote c)` is how `(a b . ,c)` is read. -/
  | tail {items front : List Datum} {mark operand : Datum} {position : Position}
      (stems : Stems source (.list items position))
      (found : Quasi.unquotedTail? items = some (front, mark, operand)) :
      Stems source (.list [mark, operand] mark.position)
  /-- The initializer of a definition, which may be a procedure. -/
  | initializer {head target value : Datum} {rest : List Datum} {position : Position}
      {name : String} {state after : Compilation}
      (stems : Stems source (.list (head :: target :: rest) position))
      (defines : Compiler.definition (.list (head :: target :: rest) position) target rest state =
        .ok (name, some value) after) : Stems source value
  /-- What a transformer makes of the form, if its description comes from the data too. -/
  | expansion {form spec result : Datum} {kind : TransformerKind}
      {there here : String → Option Identity} (stems : Stems source form)
      (described : Stems source spec) (created : TransformerKind.ofDatum there spec = .ok kind)
      (expands : kind.expand here form = .ok result ∨ kind.expandAssignment here form = .ok result) :
      Stems source result

/-- What the transformer makes of a form has the origin of the form. -/
def TransformerKind.Keeps (source : Datum → Prop) (kind : TransformerKind) : Prop :=
  ∀ (meaning? : String → Option Identity) (form result : Datum), Stems source form →
    kind.expand meaning? form = .ok result ∨ kind.expandAssignment meaning? form = .ok result →
      Stems source result

@[simp]
theorem Stems.any (form : Datum) : Stems (fun _ => True) form :=
  .datum trivial

variable {source : Datum → Prop}

/-! ### Quasiquotation -/

namespace Quasi

/-- `plan.Within part`: the part is the plan itself or stands in it. -/
inductive Within : Quasi → Quasi → Prop where
  | self (plan : Quasi) : Within plan plan
  | argument {procedure : String} {position : Position} {arguments : List Quasi}
      {argument part : Quasi} (member : argument ∈ arguments) (inside : Within argument part) :
      Within (.call procedure position arguments) part

/-- `MadeFrom source part`: the part is a form to evaluate, or a call in the plan of a template and at
the position of that template. Form and template have this origin. -/
def MadeFrom (source : Datum → Prop) : Quasi → Prop
  | .evaluate form => Stems source form
  | .call procedure position arguments => ∃ template depth, Stems source template ∧
      template.position = position ∧
      (ofDatum depth template).Within (.call procedure position arguments)
  | _ => True

variable {position : Position} {parts : List Part} {plan : Quasi}

def Joins (position : Position) (parts : List Part) (plan : Quasi) : Prop :=
  (∃ procedure arguments, plan = .call procedure position arguments) ∨ plan = .nothing ∨
    (∃ element, .element element ∈ parts ∧ element.Within plan) ∨
    ∃ form, .splice form ∈ parts ∧ plan = .evaluate form

theorem joins_segments {run : List Quasi} {segment : Quasi}
    (each : ∀ element ∈ run, .element element ∈ parts) {others : List Part} (more : others ⊆ parts)
    (member : segment ∈ segments position run others) (inside : segment.Within plan) :
    Joins position parts plan := by
  have collected {run : List Quasi} (each : ∀ element ∈ run, .element element ∈ parts)
      (member : segment ∈ if run.isEmpty then [] else [call "list" position run.reverse]) :
      Joins position parts plan := by
    split at member
    · cases member
    · cases List.mem_singleton.mp member
      cases inside with
      | self => exact .inl ⟨_, _, rfl⟩
      | argument member inside =>
        exact .inr (.inr (.inl ⟨_, each _ (List.mem_reverse.mp member), inside⟩))
  induction others generalizing run with
  | nil => exact collected each member
  | cons part others ih =>
    obtain ⟨here, later⟩ := List.cons_subset.mp more
    cases part with
    | element element => exact ih (List.forall_mem_cons.mpr ⟨here, each⟩) later member
    | splice form =>
      rw [segments] at member
      rcases List.mem_append.mp member with first | rest
      · exact collected each first
      · rcases List.mem_cons.mp rest with rfl | rest
        · cases inside
          exact .inr (.inr (.inr ⟨form, here, rfl⟩))
        · exact ih (List.forall_mem_nil _) later rest

theorem within_join {tail : Option Quasi} (inside : (join position parts tail).Within plan) :
    Joins position parts plan ∨ ∃ last ∈ tail, last.Within plan := by
  have joined {last : Quasi}
      (inside : (call "append" position (segments position [] parts ++ [last])).Within plan) :
      Joins position parts plan ∨ last.Within plan := by
    cases inside with
    | self => exact .inl (.inl ⟨_, _, rfl⟩)
    | argument member inside =>
      rcases List.mem_append.mp member with early | final
      · exact .inl (joins_segments (List.forall_mem_nil _) (List.Subset.refl _) early inside)
      · exact .inr (List.mem_singleton.mp final ▸ inside)
  cases tail with
  | some last => exact (joined inside).imp_right fun inside => ⟨last, rfl, inside⟩
  | none =>
    dsimp only [join] at inside
    split at inside
    · rcases joined inside with joins | last
      · exact .inl joins
      · cases last
        exact .inl (.inr (.inl rfl))
    · cases inside with
      | self => exact .inl (.inl ⟨_, _, rfl⟩)
      | argument member inside =>
        obtain ⟨part, found, same⟩ := List.mem_filterMap.mp member
        cases part with
        | element =>
          cases same
          exact .inl (.inr (.inr (.inl ⟨_, found, inside⟩)))
        | splice => cases same

theorem stems_of_mem_parts {template part : Datum} (stems : Stems source template)
    (member : part ∈ Quasi.parts template) : Stems source part := by
  cases template with
  | list items position =>
    cases found : unquotedTail? items with
    | none =>
      simp only [Quasi.parts, found] at member
      exact stems.part member
    | some tail =>
      obtain ⟨front, mark, operand⟩ := tail
      simp only [Quasi.parts, found] at member
      obtain ⟨rfl, -, -⟩ := unquotedTail?_eq_some found
      rcases List.mem_append.mp member with early | last
      · exact stems.part (List.mem_append_left _ early)
      · exact List.mem_singleton.mp last ▸ stems.tail found
  | dotted | vector => exact stems.part member
  | atom => cases member

/-- What is put in place of an item is the operand of the item. -/
theorem stems_of_splice? {item form : Datum} (stems : Stems source item)
    (found : splice? item = some form) : Stems source form := by
  unfold splice? at found
  split at found
  · split at found
    · cases found
      exact stems.part (by simp [Datum.children])
    · cases found
  · cases found

theorem madeFrom_of_within {template : Datum} (stems : Stems source template) {depth : Nat}
    (inside : (ofDatum depth template).Within plan) : plan.MadeFrom source := by
  induction weight : template.weight using Nat.strongRecOn generalizing depth template with
  | ind _ ih =>
    subst weight
    have inner {call : Nat × Datum} (member : call ∈ calls depth template)
        (stems : Stems source call.2) (inside : (ofDatum call.1 call.2).Within plan) :
        plan.MadeFrom source :=
      ih _ (weight_lt_of_mem_calls member) stems inside rfl
    have whole := inside
    have own {procedure : String} {arguments : List Quasi}
        (here : plan = .call procedure template.position arguments) : plan.MadeFrom source := by
      subst here
      exact ⟨template, depth, stems, rfl, whole⟩
    rw [ofDatum_eq] at inside
    split at inside
    · cases inside
      trivial
    · cases found : abbreviation? template with
      | some abbreviation =>
        obtain ⟨head, mark, operand⟩ := abbreviation
        have within : Stems source operand := by
          obtain ⟨_, _, _, -, -, rfl⟩ := abbreviation?_eq_some found
          exact stems.part (by simp [Datum.children])
        have marked {depth' : Nat} (member : (depth', operand) ∈ calls depth template)
            (inside : (call "list" template.position
              [.constant head, ofDatum depth' operand]).Within plan) : plan.MadeFrom source := by
          cases inside with
          | self => exact own rfl
          | argument member' inside =>
            rcases List.mem_cons.mp member' with rfl | last
            · cases inside
              trivial
            · exact inner member within (List.mem_singleton.mp last ▸ inside)
        cases mark <;> cases depth <;> simp only [expand, found] at inside <;> first
          | exact marked (by simp [calls, found]) inside
          | (cases inside; first | exact within | trivial)
      | none =>
        rw [expand_of_none found] at inside
        have item {part : Datum} (member : part ∈ Quasi.parts template)
            (inside : (ofDatum depth part).Within plan) : plan.MadeFrom source :=
          @inner (depth, part) (by simpa [calls, found] using member)
            (stems_of_mem_parts stems member) inside
        have joined {items : List Datum} (listed : ∀ item ∈ items, item ∈ Quasi.parts template)
            (joins : Joins template.position
              (items.map fun item => Part.of depth item (ofDatum depth item)) plan) :
            plan.MadeFrom source := by
          have cases {part : Part} (member : part ∈ items.map fun item =>
              Part.of depth item (ofDatum depth item)) : ∃ item ∈ items,
                part = .element (ofDatum depth item) ∨
                  ∃ form, splice? item = some form ∧ part = .splice form := by
            obtain ⟨item, there, rfl⟩ := List.mem_map.mp member
            refine ⟨item, there, ?_⟩
            unfold Part.of
            split
            · exact .inr ⟨_, ‹_›, rfl⟩
            · exact .inl rfl
          rcases joins with ⟨_, _, here⟩ | rfl | ⟨element, member, inside⟩ | ⟨form, member, rfl⟩
          · exact own here
          · trivial
          · obtain ⟨part, there, same | ⟨_, -, same⟩⟩ := cases member <;> cases same
            exact item (listed part there) inside
          · obtain ⟨part, there, same | ⟨_, spliced, same⟩⟩ := cases member <;> cases same
            exact stems_of_splice? (stems_of_mem_parts stems (listed part there)) spliced
        cases template with
        | list items position =>
          dsimp only [spread] at inside
          cases tailed : unquotedTail? items with
          | none =>
            rw [tailed] at inside
            rcases within_join inside with joins | ⟨_, ⟨⟩, -⟩
            exact joined (by simp [Quasi.parts, tailed]) joins
          | some tail =>
            obtain ⟨front, mark, operand⟩ := tail
            rw [tailed] at inside
            rcases within_join inside with joins | ⟨_, ⟨⟩, inside⟩
            · exact joined (fun item member => by simp [Quasi.parts, tailed, member]) joins
            · exact item (by simp [Quasi.parts, tailed]) inside
        | dotted items tail position =>
          dsimp only [spread] at inside
          rcases within_join inside with joins | ⟨_, ⟨⟩, inside⟩
          · exact joined (fun item member => List.mem_append_left _ member) joins
          · exact item (List.mem_append_right _ (List.mem_singleton.mpr rfl)) inside
        | vector items position =>
          cases inside with
          | self => exact own rfl
          | argument member inside =>
            rw [List.mem_singleton.mp member] at inside
            rcases within_join inside with joins | ⟨_, ⟨⟩, -⟩
            exact joined (fun item member => member) joins
        | atom =>
          cases inside
          trivial

end Quasi

/-! ### Plans -/

namespace Compiler.Plan

def Drawn (source : Datum → Prop) (form : Datum) : Plan → Prop
  | .literal _ | .reference _ | .nothing => True
  | .expansion result _ => Stems source result
  | .quasi template => Stems source template
  | .conditional condition consequent alternate =>
    Stems source condition ∧ Stems source consequent ∧ ∀ other ∈ alternate, Stems source other
  | .sequence first others => ∀ item ∈ first :: others, Stems source item
  | .lambda _ body => ∀ item ∈ body, Stems source item
  | .assignment _ value => Stems source value
  | .definition target rest => ∃ head position, form = .list (head :: target :: rest) position
  | .transformer _ spec => Stems source spec
  | .scoped _ bindings first body =>
    (∀ entry ∈ bindings, Stems source entry) ∧ ∀ item ∈ first :: body, Stems source item
  | .call head items => ∀ item ∈ head :: items, Stems source item

/-- The variables of a plan have been found, and it defines only where it may. -/
def Fits (resolve : String → Option Binding) (context : Context) : Plan → Prop
  | .reference place | .assignment place _ => ∃ name, resolve name = some (.variable place)
  | .definition _ _ | .transformer _ _ => context.allowsDefinition = true
  | _ => True

variable {resolve : String → Option Binding} {context : Context} {form head : Datum}
  {keyword : String} {items : List Datum} {plan : Plan}

theorem named_cases {fault : CompileFault} {blamed : Datum} {found : Variable → Plan}
    {expand : TransformerKind → Except CompileError Datum} {binding : Option Binding}
    (planned : named fault blamed found expand binding = .ok plan) :
    (∃ place, binding = some (.variable place) ∧ plan = found place) ∨
      ∃ rules result, binding = some (.transformer rules) ∧ expand rules.kind = .ok result ∧
        plan = .expansion result false := by
  match binding with
  | none | some (.keyword _) => cases planned
  | some (.variable place) =>
    cases planned
    exact .inl ⟨place, rfl, rfl⟩
  | some (.transformer rules) =>
    obtain ⟨result, expands, planned⟩ := Except.bind_ok planned
    cases planned
    exact .inr ⟨rules, result, rfl, expands, rfl⟩

theorem defining_cases {planned? : Option Plan} (planned : defining form context planned? = .ok plan) :
    context.allowsDefinition = true ∧ planned? = some plan := by
  rw [defining.eq_def] at planned
  split at planned
  · rename_i allowed
    cases planned? with
    | none => cases planned
    | some planned' =>
      cases planned
      exact ⟨allowed, rfl⟩
  · cases planned

theorem withTransformers_cases {recursive : Bool}
    (planned : withTransformers form recursive items = .ok plan) :
    ∃ entries bindings first body, items = entries :: first :: body ∧
      entries.list? = some bindings ∧ plan = .scoped recursive bindings first body := by
  match items with
  | [] | [_] => cases planned
  | entries :: first :: body =>
    rw [withTransformers] at planned
    cases listed : entries.list? with
    | none =>
      rw [listed] at planned
      cases planned
    | some bindings =>
      rw [listed] at planned
      cases planned
      exact ⟨entries, bindings, first, body, rfl, listed, rfl⟩

theorem drawn_scoped {entries first : Datum} {body bindings : List Datum} {position : Position}
    {recursive : Bool} (stems : Stems source (.list (head :: entries :: first :: body) position))
    (listed : entries.list? = some bindings) :
    (Plan.scoped recursive bindings first body).Drawn source form := by
  have within : Stems source entries := stems.part (by simp [Datum.children])
  exact ⟨fun entry member => within.part (Datum.children_of_list? listed ▸ member),
    fun item member => stems.part (by simp_all [Datum.children])⟩

section

variable (keeps : ∀ name transformer, resolve name = some (.transformer transformer) →
  transformer.kind.Keeps source)

include keeps

theorem suits_named {fault : CompileFault} {blamed : Datum} {found : Variable → Plan}
    {expand : TransformerKind → Except CompileError Datum} {name : String}
    (suits : ∀ place, resolve name = some (.variable place) →
      (found place).Drawn source form ∧ (found place).Fits resolve context)
    (expands : ∀ kind : TransformerKind, kind.Keeps source → ∀ result, expand kind = .ok result →
      Stems source result)
    (planned : named fault blamed found expand (resolve name) = .ok plan) :
    plan.Drawn source form ∧ plan.Fits resolve context := by
  rcases named_cases planned with ⟨place, resolved, rfl⟩ | ⟨rules, result, resolved, made, rfl⟩
  · exact suits place resolved
  · exact ⟨expands rules.kind (keeps name rules resolved) result made, trivial⟩

theorem suits_ofKeyword {position : Position}
    (stems : Stems source (.list (head :: items) position))
    (planned : ofKeyword resolve context (.list (head :: items) position) head keyword items =
      .ok plan) :
    plan.Drawn source (.list (head :: items) position) ∧ plan.Fits resolve context := by
  have within {item : Datum} (member : item ∈ items) : Stems source item :=
    stems.part (List.mem_cons_of_mem head member)
  rw [ofKeyword.eq_def] at planned
  dsimp only at planned
  split at planned
  -- quote
  · split at planned <;> cases planned
    exact ⟨trivial, trivial⟩
  -- quasiquote
  · split at planned <;> cases planned
    exact ⟨within (by simp), trivial⟩
  -- if
  · split at planned <;> cases planned <;>
      exact ⟨⟨within (by simp), within (by simp), by simp [within]⟩, trivial⟩
  -- begin
  · split at planned <;> cases planned
    · exact ⟨trivial, trivial⟩
    · exact ⟨fun _ => within, trivial⟩
  -- lambda
  · obtain ⟨⟨formals, body⟩, parted, planned⟩ := Except.bind_ok planned
    cases planned
    cases items with
    | nil => cases parted
    | cons first others =>
      obtain ⟨_, -, parted⟩ := Except.bind_ok parted
      cases parted
      exact ⟨fun _ member => within (List.mem_cons_of_mem first member), trivial⟩
  -- set!
  · split at planned
    · split at planned
      · rename_i value _ _ _
        refine suits_named keeps ?_ ?_ planned
        · exact fun place resolved => ⟨@within value (by simp), _, resolved⟩
        · exact fun kind keeps result expands => keeps _ _ _ stems (.inr expands)
      · cases planned
    · cases planned
  -- define
  · obtain ⟨allowed, planned⟩ := defining_cases planned
    split at planned <;> cases planned
    exact ⟨⟨head, position, rfl⟩, allowed⟩
  -- define-syntax
  · obtain ⟨allowed, planned⟩ := defining_cases planned
    split at planned <;> cases planned
    exact ⟨within (by simp), allowed⟩
  -- let-syntax
  · obtain ⟨entries, _, _, _, rfl, listed, rfl⟩ := withTransformers_cases planned
    exact ⟨drawn_scoped stems listed, trivial⟩
  -- letrec-syntax
  · obtain ⟨entries, _, _, _, rfl, listed, rfl⟩ := withTransformers_cases planned
    exact ⟨drawn_scoped stems listed, trivial⟩
  · split at planned
    · rename_i rules resolved
      obtain ⟨result, expands, planned⟩ := Except.bind_ok planned
      cases planned
      exact ⟨keeps _ rules resolved _ _ _ stems (.inl expands), trivial⟩
    · cases planned
      exact ⟨fun _ => stems.part, trivial⟩

/-- The forms that a plan consists of have the origin of the form, and the plan fits the scope. -/
theorem suits_ofDatum (stems : Stems source form)
    (planned : ofDatum resolve context form = .ok plan) :
    plan.Drawn source form ∧ plan.Fits resolve context := by
  rw [ofDatum.eq_def] at planned
  split at planned
  · refine suits_named keeps ?_ ?_ planned
    · exact fun place resolved => ⟨trivial, _, resolved⟩
    · exact fun kind keeps result expands => keeps _ _ _ stems (.inl expands)
  · cases planned
    exact ⟨trivial, trivial⟩
  · cases planned
    exact ⟨trivial, trivial⟩
  · cases planned
  · cases planned
  · split at planned
    · exact suits_ofKeyword keeps stems planned
    · cases planned
      exact ⟨fun _ => stems.part, trivial⟩

end

theorem fits_ofDatum (planned : ofDatum resolve context form = .ok plan) :
    plan.Fits resolve context :=
  (suits_ofDatum (fun _ _ _ _ _ result _ _ => Stems.any result) (Stems.any form) planned).2

end Compiler.Plan

end MiniScheme
