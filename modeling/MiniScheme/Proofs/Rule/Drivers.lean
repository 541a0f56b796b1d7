import MiniScheme.Proofs.Rule.Alignment

/-!
# What drives an ellipsis

Behind an element of a template, each ellipsis is driven by the group of one variable. When the
template is read, a variable is only required to stand under as many ellipses as it has groups.
Instantiating needs more: the groups of every variable have to be the first of those that drive the
ellipses around it. Then every match has an expansion. Otherwise none has, if there is at least one
repetition wherever the pattern has an ellipsis: the variable is still bound to a sequence when a
form is needed.
-/

namespace MiniScheme

namespace Template

mutual

/-- The places of the variables in a template. -/
def uses : Template → List Nat
  | .verbatim _ => []
  | .variable place => [place]
  | .list elements none => allUses elements
  | .list elements (some tail) => allUses elements ++ tail.uses
  | .vector elements => allUses elements

/-- The places of the variables in the elements of a list or vector. -/
def allUses : List Subtemplate → List Nat
  | [] => []
  | .mk template _ :: elements => template.uses ++ allUses elements

end

mutual

/-- The groups of every variable are the first of those that drive the ellipses around it. -/
def isDriven (groups : List (List Group)) (drivers : List Group) : Template → Bool
  | .verbatim _ => true
  | .variable place => (groups.getD place []).isPrefixOf drivers
  | .list elements none => areDriven groups drivers elements
  | .list elements (some tail) => areDriven groups drivers elements && tail.isDriven groups drivers
  | .vector elements => areDriven groups drivers elements

/-- The same of the elements of a list or vector. -/
def areDriven (groups : List (List Group)) (drivers : List Group) : List Subtemplate → Bool
  | [] => true
  | .mk template own :: elements =>
    template.isDriven groups (drivers ++ own) && areDriven groups drivers elements

end

mutual

/-- Every ellipsis is driven by the group that one of the variables before it has at that depth. -/
def Levelled (groups : List (List Group)) (depth : Nat) : Template → Prop
  | .verbatim _ => True
  | .variable place => ∃ own, groups[place]? = some own
  | .list elements none => AllLevelled groups depth elements
  | .list elements (some tail) => AllLevelled groups depth elements ∧ tail.Levelled groups depth
  | .vector elements => AllLevelled groups depth elements

/-- The same of the elements of a list or vector. -/
def AllLevelled (groups : List (List Group)) (depth : Nat) : List Subtemplate → Prop
  | [] => True
  | .mk template own :: elements =>
    (∀ level group, own[level]? = some group → ∃ place ∈ template.uses, ∃ outer inner,
      groups[place]? = some (outer ++ group :: inner) ∧ outer.length = depth + level) ∧
    template.Levelled groups (depth + own.length) ∧ AllLevelled groups depth elements

end

/-! ### Reading -/

section

variable {vars : PatternVariables}

variable {place : Nat}

theorem getElem?_groups {level : Nat} {group : Group}
    (found : (vars.groups place)[level]? = some group) :
    ∃ outer inner, (vars.map PatternVariable.groups)[place]? = some (outer ++ group :: inner) ∧
      outer.length = level := by
  rw [PatternVariables.groups] at found
  split at found
  · rename_i e there
    obtain ⟨bound, rfl⟩ := List.getElem?_eq_some_iff.mp found
    refine ⟨e.groups.take level, e.groups.drop (level + 1), ?_, by simp; omega⟩
    rw [List.getElem?_map, there, Option.map_some, ← List.drop_eq_getElem_cons bound,
      List.take_append_drop]
  · cases found

theorem drivers_eq_ok {item : Datum} {depth ellipses : Nat} {own : List Group}
    (read : drivers vars item depth ellipses = .ok own) :
    own.length = ellipses ∧ ∀ level group, own[level]? = some group →
      ∃ place ∈ places vars item, (vars.groups place)[depth + level]? = some group := by
  rw [drivers] at read
  induction ellipses generalizing depth own with
  | zero =>
    cases read
    exact ⟨rfl, by simp⟩
  | succ ellipses ih =>
    rw [List.range'_succ, List.mapM_cons] at read
    obtain ⟨first, found, read⟩ := Except.bind_ok read
    obtain ⟨others, rest, done⟩ := Except.bind_ok read
    cases done
    obtain ⟨length, each⟩ := ih rest
    refine ⟨congrArg (· + 1) length, fun level group there => ?_⟩
    cases level with
    | zero =>
      cases there
      split at found
      · rename_i group driven
        cases found
        exact List.exists_of_findSome?_eq_some driven
      · cases found
    | succ level =>
      rw [← Nat.add_assoc, Nat.add_right_comm]
      exact each level group there

theorem exists_of_place? {name : String} (found : vars.place? name = some place) :
    ∃ e, vars[place]? = some e ∧ e.name = name := by
  obtain ⟨bound, named, -⟩ := List.findIdx?_eq_some_iff_getElem.mp found
  exact ⟨vars[place], List.getElem?_eq_getElem bound, by simpa using named⟩

theorem places_mark (clear : vars.Clear) {escaped : Bool} {d : Datum}
    (mark : isMark escaped d = true) : places vars d = [] := by
  rw [isMark, Bool.and_eq_true] at mark
  obtain ⟨pos, rfl⟩ := Datum.eq_ofSymbol_of_isSymbol mark.2
  rw [Datum.ofSymbol, places, PatternVariables.place?_eq_none_iff.mpr clear.unmarked]
  rfl

mutual

/-- A template that is read is levelled, and has all variables of the datum. -/
theorem levelled_ofDatum (clear : vars.Clear) (d : Datum) {depth : Nat} {escaped : Bool}
    {template : Template} (read : ofDatum vars depth escaped d = .ok template) :
    template.Levelled (vars.map PatternVariable.groups) depth ∧
      ∀ place ∈ places vars d, place ∈ template.uses := by
  match d with
  | .atom v pos =>
    by_cases named : ∃ name, v = .symbol name
    · obtain ⟨name, rfl⟩ := named
      rw [ofDatum] at read
      rw [places]
      split at read
      · rename_i place found
        split at read
        · cases read
          obtain ⟨e, there, -⟩ := exists_of_place? found
          exact ⟨⟨e.groups, by simp [there]⟩, by simp [found, uses]⟩
        · cases read
      · rename_i absent
        split at read
        · cases read
        · cases read
          exact ⟨trivial, by simp [absent]⟩
    · rw [ofDatum] at read
      · cases read
        rw [places]
        · exact ⟨trivial, by simp⟩
        · exact not_exists.mp named
      · exact not_exists.mp named
  | .list xs pos =>
    by_cases pair : ∃ first inner, xs = [first, inner]
    · obtain ⟨first, inner, rfl⟩ := pair
      rw [ofDatum] at read
      split at read
      · rename_i mark
        obtain ⟨levelled, all⟩ := levelled_ofDatum clear inner read
        refine ⟨levelled, fun place mem => all place ?_⟩
        simpa [places, itemPlaces, places_mark clear mark] using mem
      · obtain ⟨elems, inside, done⟩ := Except.bind_ok read
        cases done
        exact levelled_ofItems clear [first, inner] inside
    · rw [ofDatum] at read
      · split at read
        · cases read
        · obtain ⟨elems, inside, done⟩ := Except.bind_ok read
          cases done
          exact levelled_ofItems clear xs inside
      · exact fun first inner eq => pair ⟨first, inner, eq⟩
  | .dotted xs tail pos =>
    rw [ofDatum] at read
    split at read
    · cases read
    · obtain ⟨elems, inside, read⟩ := Except.bind_ok read
      obtain ⟨last, behind, done⟩ := Except.bind_ok read
      cases done
      obtain ⟨first, all⟩ := levelled_ofItems clear xs inside
      obtain ⟨second, rest⟩ := levelled_ofDatum clear tail behind
      refine ⟨⟨first, second⟩, fun place mem => ?_⟩
      exact List.mem_append.mpr ((List.mem_append.mp mem).imp (all place) (rest place))
  | .vector xs pos =>
    rw [ofDatum] at read
    split at read
    · cases read
    · obtain ⟨elems, inside, done⟩ := Except.bind_ok read
      cases done
      exact levelled_ofItems clear xs inside

theorem levelled_ofItems (clear : vars.Clear) (xs : List Datum) {depth : Nat}
    {escaped skip : Bool} {elems : List Subtemplate}
    (read : ofItems vars depth escaped skip xs = .ok elems) :
    AllLevelled (vars.map PatternVariable.groups) depth elems ∧
      ∀ place ∈ itemPlaces vars xs, place ∈ allUses elems := by
  match xs with
  | [] =>
    rw [ofItems] at read
    cases read
    exact ⟨trivial, by simp [itemPlaces]⟩
  | item :: xs =>
    rw [ofItems] at read
    split at read
    · rename_i mark
      rw [Bool.and_eq_true] at mark
      rw [itemPlaces, places_mark clear mark.2, List.nil_append]
      exact levelled_ofItems clear xs read
    · obtain ⟨own, driven, read⟩ := Except.bind_ok read
      obtain ⟨template, inside, read⟩ := Except.bind_ok read
      obtain ⟨others, behind, done⟩ := Except.bind_ok read
      cases done
      obtain ⟨first, all⟩ := levelled_ofDatum clear item inside
      obtain ⟨second, rest⟩ := levelled_ofItems clear xs behind
      obtain ⟨length, each⟩ := drivers_eq_ok driven
      refine ⟨⟨fun level group there => ?_, length ▸ first, second⟩, fun place mem => ?_⟩
      · obtain ⟨place, used, found⟩ := each level group there
        obtain ⟨outer, inner, whole, deep⟩ := getElem?_groups found
        exact ⟨place, all place used, outer, inner, whole, deep⟩
      · exact List.mem_append.mpr ((List.mem_append.mp mem).imp (all place) (rest place))

end

end

/-! ### One repetition -/

section

variable {groups : List (List Group)} {drivers : List Group} {bindings : Bindings}
  {group : Group} {place repetition : Nat} {repetitions : List Match}

theorem focus_covered (covers : group.Covers place)
    (held : bindings[place]? = some (some (.sequence repetitions))) :
    (bindings.focus group repetition)[place]? = some repetitions[repetition]? := by
  rw [Bindings.focus, List.getElem?_mapIdx, held, Option.map_some,
    if_pos (by simpa [Group.Covers] using covers)]

theorem focus_single {form : Datum} (held : bindings[place]? = some (some (.single form))) :
    (bindings.focus group repetition)[place]? = some (some (.single form)) := by
  rw [Bindings.focus, List.getElem?_mapIdx, held, Option.map_some]
  split <;> rfl

theorem focus_outside (outside : ¬ group.Covers place) :
    (bindings.focus group repetition)[place]? = bindings[place]? := by
  rw [Bindings.focus, List.getElem?_mapIdx]
  cases bindings[place]? with
  | none => rfl
  | some binding => rw [Option.map_some, if_neg (by simpa [Group.Covers] using outside)]

/-- The variables under the ellipses that are driven so far are bound to what the current
repetitions bind them to. -/
structure Focused (groups : List (List Group)) (drivers : List Group) (bindings : Bindings) :
    Prop where
  settled (place : Nat) (own : List Group) : groups[place]? = some own → own <+: drivers →
    ∃ form, bindings[place]? = some (some (.single form))
  nests (place : Nat) (inner : List Group) : groups[place]? = some (drivers ++ inner) →
    ∃ binding, bindings[place]? = some (some binding) ∧ binding.Nests inner.length
  parallel (place other : Nat) (inner inner' : List Group) (binding binding' : Match) :
    groups[place]? = some (drivers ++ inner) → groups[other]? = some (drivers ++ inner') →
    bindings[place]? = some (some binding) → bindings[other]? = some (some binding') →
      Match.Parallel inner inner' binding binding'

theorem Focused.initial {bound : List Match} (laid : Laid groups bound) :
    Focused groups [] (bound.map some) := by
  have nests (place : Nat) (own : List Group) (there : groups[place]? = some own) :
      ∃ binding, (bound.map some)[place]? = some (some binding) ∧ binding.Nests own.length := by
    obtain ⟨inside, rfl⟩ := List.getElem?_eq_some_iff.mp there
    have inside' := laid.nests.length_eq ▸ inside
    exact ⟨bound[place], by simp [inside'], laid.nests.get inside inside'⟩
  refine ⟨fun place own there none_left => ?_, nests, ?_⟩
  · obtain ⟨binding, held, deep⟩ := nests place own there
    rw [List.prefix_nil.mp none_left] at deep
    obtain ⟨form, rfl⟩ := deep.single
    exact ⟨form, held⟩
  · intro place other inner inner' binding binding' here there held held'
    rw [List.getElem?_map] at held held'
    exact laid.parallel place other _ _ _ _ here there (by simpa using held) (by simpa using held')

/-- The variables of a group all have the repetition that its first variable has. -/
theorem Focused.step (nested : Nested 0 groups) (focused : Focused groups drivers bindings)
    {inner : List Group} (first : groups[group.start]? = some (drivers ++ group :: inner))
    (repeats : bindings[group.start]? = some (some (.sequence repetitions)))
    (inside : repetition < repetitions.length) :
    Focused groups (drivers ++ [group]) (bindings.focus group repetition) := by
  have moves {place : Nat} {inner' : List Group}
      (there : groups[place]? = some (drivers ++ group :: inner')) :
      ∃ others element, bindings[place]? = some (some (.sequence others)) ∧
        others[repetition]? = some element ∧ element.Nests inner'.length ∧
        (bindings.focus group repetition)[place]? = some (some element) := by
    obtain ⟨covers, -⟩ := nested place _ _ _ there
    rw [Nat.zero_add] at covers
    obtain ⟨binding, held, deep⟩ := focused.nests place _ there
    obtain ⟨others, rfl, each⟩ := deep.sequence
    have eq := (focused.parallel _ _ _ _ _ _ there first held repeats rfl).length_eq
    rw [← eq] at inside
    have found := List.getElem?_eq_getElem inside
    exact ⟨others, _, held, found, each _ (List.mem_of_getElem? found),
      (focus_covered covers held).trans (congrArg some found)⟩
  constructor
  · intro place own there driven
    rcases List.prefix_concat_iff.mp driven with rfl | before
    · obtain ⟨-, element, -, -, deep, moved⟩ := moves there
      obtain ⟨form, rfl⟩ := deep.single
      exact ⟨form, moved⟩
    · obtain ⟨form, held⟩ := focused.settled place own there before
      exact ⟨form, focus_single held⟩
  · intro place inner' there
    obtain ⟨-, element, -, -, deep, moved⟩ := moves (by simpa using there)
    exact ⟨element, moved, deep⟩
  · intro place other inner₁ inner₂ binding binding' here there held held'
    obtain ⟨lefts, left, was, found, -, moved⟩ := moves (by simpa using here)
    obtain ⟨rights, right, was', found', -, moved'⟩ := moves (by simpa using there)
    cases held.symm.trans moved
    cases held'.symm.trans moved'
    have pairs := focused.parallel place other (group :: inner₁) (group :: inner₂) _ _
      (by simpa using here) (by simpa using there) was was' rfl
    obtain ⟨bound, rfl⟩ := List.getElem?_eq_some_iff.mp found
    obtain ⟨bound', rfl⟩ := List.getElem?_eq_some_iff.mp found'
    exact pairs.get bound bound'

end

/-! ### Templates that are driven -/

section

variable {groups : List (List Group)} {drivers : List Group} {bindings : Bindings}
  {pos : Position}

theorem mapM_ok {α β : Type} (make : α → Except CompileError β) (inputs : List α)
    (each : ∀ input ∈ inputs, ∃ res, make input = .ok res) :
    ∃ results, inputs.mapM make = .ok results := by
  induction inputs with
  | nil => exact ⟨[], rfl⟩
  | cons input inputs ih =>
    obtain ⟨⟨res, made⟩, others⟩ := List.forall_mem_cons.mp each
    obtain ⟨results, rest⟩ := ih others
    exact ⟨res :: results, by rw [List.mapM_cons, made, rest]; rfl⟩

/-- An ellipsis goes through the repetitions of its group, which one of the variables before it
repeats under. -/
theorem repeatOver_driven (pos : Position) (nested : Nested 0 groups)
    {make : Bindings → Except CompileError Datum}
    {own : List Group} (focused : Focused groups drivers bindings)
    (levels : ∀ level group, own[level]? = some group → ∃ (place : Nat) (inner : List Group),
      groups[place]? = some (drivers ++ own.take level ++ group :: inner))
    (makes : ∀ bindings, Focused groups (drivers ++ own) bindings →
      ∃ res, make bindings = .ok res) :
    ∃ results, repeatOver pos make own bindings = .ok results := by
  induction own generalizing drivers bindings with
  | nil =>
    obtain ⟨res, made⟩ := makes bindings (by simpa using focused)
    exact ⟨[res], by rw [repeatOver, made]; rfl⟩
  | cons group own ih =>
    obtain ⟨place, inner, found⟩ := levels 0 group rfl
    rw [List.take_zero, List.append_nil] at found
    obtain ⟨covers, shared⟩ := nested place _ _ _ found
    obtain ⟨other, inner', same, first⟩ := shared group.start
      ⟨Nat.le_refl _, Nat.lt_of_le_of_lt covers.1 covers.2⟩
    rw [Nat.zero_add] at same
    subst same
    obtain ⟨binding, held, deep⟩ := focused.nests _ _ first
    obtain ⟨repetitions, rfl, -⟩ := deep.sequence
    rw [repeatOver, held]
    obtain ⟨parts, made⟩ := mapM_ok
      (fun repetition => repeatOver pos make own (bindings.focus group repetition))
      (List.range repetitions.length) fun repetition mem => ih
        (focused.step nested first held (List.mem_range.mp mem))
        (fun level next there => by simpa using levels (level + 1) next there)
        (fun bindings focused => makes bindings (by simpa using focused))
    exact ⟨parts.flatten, by dsimp only; rw [made]; rfl⟩

mutual

/-- The groups of every variable drive ellipses, further in perhaps. -/
theorem prefix_of_isDriven (template : Template) {drivers : List Group}
    (driven : template.isDriven groups drivers = true) {place : Nat} (used : place ∈ template.uses) :
    ∃ more, groups.getD place [] <+: drivers ++ more := by
  match template with
  | .verbatim _ => cases used
  | .variable other =>
    cases List.mem_singleton.mp used
    exact ⟨[], by simpa [isDriven] using driven⟩
  | .list elems none | .vector elems => exact prefix_of_areDriven elems driven used
  | .list elems (some tail) =>
    rw [isDriven, Bool.and_eq_true] at driven
    rcases List.mem_append.mp used with used | used
    · exact prefix_of_areDriven elems driven.1 used
    · exact prefix_of_isDriven tail driven.2 used

theorem prefix_of_areDriven (elems : List Subtemplate) {drivers : List Group}
    (driven : areDriven groups drivers elems = true) {place : Nat}
    (used : place ∈ allUses elems) : ∃ more, groups.getD place [] <+: drivers ++ more := by
  match elems with
  | [] => cases used
  | .mk template own :: elems =>
    rw [areDriven, Bool.and_eq_true] at driven
    rcases List.mem_append.mp used with used | used
    · obtain ⟨more, starts⟩ := prefix_of_isDriven template driven.1 used
      exact ⟨own ++ more, by rwa [← List.append_assoc]⟩
    · exact prefix_of_areDriven elems driven.2 used

end

mutual

theorem instantiate_driven (nested : Nested 0 groups) (template : Template) {drivers : List Group}
    {bindings : Bindings} (levelled : template.Levelled groups drivers.length)
    (driven : template.isDriven groups drivers = true) (focused : Focused groups drivers bindings) :
    ∃ res, instantiate pos template bindings = .ok res := by
  match template with
  | .verbatim form => exact ⟨form, rfl⟩
  | .variable place =>
    obtain ⟨own, there⟩ := levelled
    have starts : own <+: drivers := by simpa [isDriven, List.getD, there] using driven
    obtain ⟨form, held⟩ := focused.settled place own there starts
    exact ⟨form, by rw [instantiate, held]⟩
  | .list elems none | .vector elems =>
    obtain ⟨xs, made⟩ := instantiateAll_driven nested elems levelled driven focused
    exact ⟨_, by rw [instantiate, made]; rfl⟩
  | .list elems (some tail) =>
    rw [isDriven, Bool.and_eq_true] at driven
    obtain ⟨xs, made⟩ := instantiateAll_driven nested elems levelled.1 driven.1 focused
    obtain ⟨last, behind⟩ := instantiate_driven nested tail levelled.2 driven.2 focused
    exact ⟨.withTail xs last pos, by rw [instantiate, made, behind]; rfl⟩

theorem instantiateAll_driven (nested : Nested 0 groups) (elems : List Subtemplate)
    {drivers : List Group} {bindings : Bindings}
    (levelled : AllLevelled groups drivers.length elems)
    (driven : areDriven groups drivers elems = true) (focused : Focused groups drivers bindings) :
    ∃ results, instantiateAll pos elems bindings = .ok results := by
  match elems with
  | [] => exact ⟨[], rfl⟩
  | .mk template own :: elems =>
    obtain ⟨levels, inside, behind⟩ := levelled
    rw [areDriven, Bool.and_eq_true] at driven
    obtain ⟨first, made⟩ := repeatOver_driven pos nested focused (fun level group there => by
        obtain ⟨place, used, outer, inner, found, deep⟩ := levels level group there
        obtain ⟨more, starts⟩ := prefix_of_isDriven template driven.1 used
        rw [List.getD, found, Option.getD_some] at starts
        have outside := List.prefix_iff_eq_take.mp ((List.prefix_append outer _).trans starts)
        have inside := (List.getElem?_eq_some_iff.mp there).1
        rw [deep, List.append_assoc, List.take_length_add_append,
          List.take_append_of_le_length (Nat.le_of_lt inside)] at outside
        exact ⟨place, inner, outside ▸ found⟩)
      (fun bindings focused => instantiate_driven nested template
        (by rwa [List.length_append]) driven.1 focused)
    obtain ⟨others, rest⟩ := instantiateAll_driven nested elems behind driven.2 focused
    exact ⟨first ++ others, by rw [instantiateAll, made, rest]; rfl⟩

end

end

/-! ### Templates that are not driven -/

def agreement : List Group → List Group → Nat
  | driver :: drivers, group :: own => (if driver = group then 1 else 0) + agreement drivers own
  | _, _ => 0

theorem agreement_le (drivers own : List Group) : agreement drivers own ≤ own.length := by
  induction drivers generalizing own with
  | nil => exact Nat.zero_le _
  | cons driver drivers ih =>
    cases own with
    | nil => exact Nat.zero_le _
    | cons group own =>
      have := ih own
      simp only [agreement, List.length_cons]
      split <;> omega

theorem prefix_of_agreement (drivers own : List Group) (all : own.length ≤ agreement drivers own) :
    own <+: drivers := by
  induction drivers generalizing own with
  | nil => cases own with
    | nil => exact List.nil_prefix
    | cons => simp [agreement] at all
  | cons driver drivers ih =>
    cases own with
    | nil => exact List.nil_prefix
    | cons group own =>
      have := agreement_le drivers own
      simp only [agreement, List.length_cons] at all
      split at all
      · rename_i same
        exact List.cons_prefix_cons.mpr ⟨same.symm, ih own (by omega)⟩
      · omega

theorem agreement_append (drivers own : List Group) (group : Group) :
    agreement (drivers ++ [group]) own =
      agreement drivers own + if own[drivers.length]? = some group then 1 else 0 := by
  induction drivers generalizing own with
  | nil => cases own <;> simp [agreement, eq_comm]
  | cons driver drivers ih => cases own <;> simp [agreement, ih, Nat.add_assoc]

end Template

namespace Match

mutual

/-- There is at least one repetition under every ellipsis. -/
def isFull : Match → Bool
  | .single _ => true
  | .sequence repetitions => !repetitions.isEmpty && areFull repetitions

def areFull : List Match → Bool
  | [] => true
  | binding :: bindings => binding.isFull && areFull bindings

end

variable {depth : Nat} {repetitions : List Match}

theorem Nests.depth_single {form : Datum} (nests : Nests depth (.single form)) : depth = 0 := by
  cases depth with
  | zero => rfl
  | succ depth => exact nests.elim

theorem Nests.of_mem {binding : Match} (nests : Nests depth (.sequence repetitions))
    (mem : binding ∈ repetitions) : binding.Nests (depth - 1) := by
  cases depth with
  | zero => exact nests.elim
  | succ depth => exact nests binding mem

theorem isFull_of_mem (full : areFull repetitions = true) :
    ∀ binding ∈ repetitions, binding.isFull = true := by
  induction repetitions with
  | nil => exact nofun
  | cons first others ih =>
    rw [areFull, Bool.and_eq_true] at full
    exact List.forall_mem_cons.mpr ⟨full.1, ih full.2⟩

end Match

namespace Template

section

variable {groups : List (List Group)} {drivers : List Group} {bindings : Bindings}
  {pos : Position}

/-- Variables of which not all groups drive the ellipses so far are bound to sequences still, and
no sequence is empty. -/
def Lags (groups : List (List Group)) (drivers : List Group) (bindings : Bindings) : Prop :=
  ∀ (place : Nat) own binding, groups[place]? = some own →
    bindings[place]? = some (some binding) →
      binding.Nests (own.length - agreement drivers own) ∧ binding.isFull = true

theorem Lags.initial {bound : List Match} (laid : Laid groups bound)
    (full : ∀ binding ∈ bound, binding.isFull = true) : Lags groups [] (bound.map some) := by
  intro place own binding there held
  have found : bound[place]? = some binding := by simpa using held
  obtain ⟨inside, rfl⟩ := List.getElem?_eq_some_iff.mp there
  obtain ⟨inside', rfl⟩ := List.getElem?_eq_some_iff.mp found
  exact ⟨laid.nests.get inside inside', full _ (List.mem_of_getElem? found)⟩

theorem Lags.step (nested : Nested 0 groups) (lags : Lags groups drivers bindings) {place : Nat}
    {outer inner : List Group} {group : Group}
    (found : groups[place]? = some (outer ++ group :: inner)) (deep : outer.length = drivers.length)
    (repetition : Nat) : Lags groups (drivers ++ [group]) (bindings.focus group repetition) := by
  intro place' own binding there held
  rw [agreement_append]
  by_cases covers : group.Covers place'
  · obtain ⟨other, inner', same, shared⟩ := (nested place _ _ _ found).2 place' covers
    rw [Nat.zero_add] at same
    subst same
    cases there.symm.trans shared
    rw [if_pos (by simp [← deep])]
    cases was : bindings[place']? with
    | none => simp [Bindings.focus, List.getElem?_mapIdx, was] at held
    | some before =>
      cases before with
      | none => simp [Bindings.focus, List.getElem?_mapIdx, was] at held
      | some before =>
        obtain ⟨nests, full⟩ := lags place' _ before there was
        cases before with
        | single form =>
          cases held.symm.trans (focus_single was)
          refine ⟨?_, full⟩
          have none_left := Match.Nests.depth_single nests
          rw [← Nat.sub_sub, none_left]
          trivial
        | sequence repetitions =>
          have moved := held.symm.trans (focus_covered covers was)
          have mem := List.mem_of_getElem? (Option.some.inj moved).symm
          rw [Match.isFull, Bool.and_eq_true] at full
          exact ⟨Nat.sub_sub _ _ 1 ▸ nests.of_mem mem, Match.isFull_of_mem full.2 _ mem⟩
  · rw [focus_outside covers] at held
    rw [if_neg, Nat.add_zero]
    · exact lags place' own binding there held
    · intro agrees
      refine covers ?_
      obtain ⟨bound, rfl⟩ := List.getElem?_eq_some_iff.mp agrees
      have whole : own.take drivers.length ++ own[drivers.length] :: own.drop (drivers.length + 1) =
          own := by rw [← List.drop_eq_getElem_cons bound, List.take_append_drop]
      have := (nested place' _ _ _ (whole ▸ there)).1
      rwa [Nat.zero_add] at this

variable {make : Bindings → Except CompileError Datum} {α β : Type}

/-- Ellipses in front of what cannot be made do not help. -/
theorem repeatOver_undriven (nested : Nested 0 groups) {own : List Group}
    (lags : Lags groups drivers bindings)
    (levels : ∀ level group, own[level]? = some group → ∃ (place : Nat) (outer inner : List Group),
      groups[place]? = some (outer ++ group :: inner) ∧ outer.length = drivers.length + level)
    (fails : ∀ bindings, Lags groups (drivers ++ own) bindings →
      ∀ res, make bindings ≠ .ok res) (results : List Datum) :
    repeatOver pos make own bindings ≠ .ok results := by
  induction own generalizing drivers bindings results with
  | nil =>
    intro done
    rw [repeatOver] at done
    obtain ⟨res, made, -⟩ := Except.bind_ok done
    exact fails bindings (by simpa using lags) res made
  | cons group own ih =>
    intro done
    obtain ⟨place, outer, inner, found, deep⟩ := levels 0 group rfl
    obtain ⟨covers, shared⟩ := nested place _ _ _ found
    obtain ⟨other, inner', same, first⟩ := shared group.start
      ⟨Nat.le_refl _, Nat.lt_of_le_of_lt covers.1 covers.2⟩
    rw [Nat.zero_add] at same
    subst same
    rw [repeatOver] at done
    split at done
    · rename_i repetitions held
      obtain ⟨parts, made, -⟩ := Except.bind_ok done
      obtain ⟨-, full⟩ := lags _ _ _ first held
      cases repetitions with
      | nil => simp [Match.isFull] at full
      | cons element repetitions =>
        rw [List.length_cons, List.range_succ_eq_map, List.mapM_cons] at made
        obtain ⟨part, made, -⟩ := Except.bind_ok made
        refine ih (lags.step nested found deep 0) (fun level next there => ?_)
          (fun bindings lags => fails bindings (by simpa using lags)) part made
        obtain ⟨place, outer, inner, found, deep⟩ := levels (level + 1) next there
        exact ⟨place, outer, inner, found, by simp; omega⟩
    · cases done

mutual

/-- A template that is not driven cannot be instantiated. -/
theorem instantiate_undriven (nested : Nested 0 groups) (template : Template)
    {drivers : List Group} {bindings : Bindings}
    (levelled : template.Levelled groups drivers.length)
    (undriven : template.isDriven groups drivers = false) (lags : Lags groups drivers bindings)
    (res : Datum) : instantiate pos template bindings ≠ .ok res := by
  intro done
  match template with
  | .verbatim form => cases undriven
  | .variable place =>
    obtain ⟨own, there⟩ := levelled
    rw [instantiate] at done
    split at done
    · rename_i form held
      obtain ⟨nests, -⟩ := lags place own _ there held
      have driven := prefix_of_agreement drivers own (Nat.sub_eq_zero_iff_le.mp nests.depth_single)
      rw [isDriven, List.getD, there, Option.getD_some,
        List.isPrefixOf_iff_prefix.mpr driven] at undriven
      cases undriven
    · cases done
  | .list elems none | .vector elems =>
    rw [instantiate] at done
    obtain ⟨xs, made, -⟩ := Except.bind_ok done
    exact instantiateAll_undriven nested elems levelled undriven lags xs made
  | .list elems (some tail) =>
    rw [instantiate] at done
    rw [isDriven, Bool.and_eq_false_iff] at undriven
    obtain ⟨xs, made, done⟩ := Except.bind_ok done
    obtain ⟨last, behind, -⟩ := Except.bind_ok done
    rcases undriven with undriven | undriven
    · exact instantiateAll_undriven nested elems levelled.1 undriven lags xs made
    · exact instantiate_undriven nested tail levelled.2 undriven lags last behind

theorem instantiateAll_undriven (nested : Nested 0 groups) (elems : List Subtemplate)
    {drivers : List Group} {bindings : Bindings}
    (levelled : AllLevelled groups drivers.length elems)
    (undriven : areDriven groups drivers elems = false) (lags : Lags groups drivers bindings)
    (results : List Datum) : instantiateAll pos elems bindings ≠ .ok results := by
  intro done
  match elems with
  | [] => cases undriven
  | .mk template own :: elems =>
    obtain ⟨levels, inside, behind⟩ := levelled
    rw [instantiateAll] at done
    rw [areDriven, Bool.and_eq_false_iff] at undriven
    obtain ⟨first, made, done⟩ := Except.bind_ok done
    obtain ⟨others, rest, -⟩ := Except.bind_ok done
    rcases undriven with undriven | undriven
    · refine repeatOver_undriven nested lags (fun level group there => ?_) (fun bindings lags =>
        instantiate_undriven nested template (by rwa [List.length_append]) undriven lags) first made
      obtain ⟨place, -, outer, inner, found, deep⟩ := levels level group there
      exact ⟨place, outer, inner, found, deep⟩
    · exact instantiateAll_undriven nested elems behind undriven lags others rest

end

def Blames {α : Type} (position : Position) (result : Except CompileError α) : Prop :=
  ∀ error, result = .error error → error = { fault := .invalidTemplate, position }

theorem Blames.bind {first : Except CompileError α} {next : α → Except CompileError β}
    (blames : Blames pos first) (others : ∀ res, Blames pos (next res)) :
    Blames pos (first >>= next) := by
  intro error failed
  cases first with
  | error other =>
    cases failed
    exact blames _ rfl
  | ok res => exact others res error failed

theorem blames_ok (res : α) : Blames pos (.ok res) :=
  nofun

theorem blames_mapM {make : α → Except CompileError β} (inputs : List α)
    (each : ∀ input, Blames pos (make input)) : Blames pos (inputs.mapM make) := by
  induction inputs with
  | nil => exact blames_ok []
  | cons input inputs ih =>
    rw [List.mapM_cons]
    exact (each input).bind fun _ => ih.bind fun _ => blames_ok _

theorem blames_repeatOver (each : ∀ bindings, Blames pos (make bindings)) (own : List Group)
    (bindings : Bindings) : Blames pos (repeatOver pos make own bindings) := by
  induction own generalizing bindings with
  | nil =>
    rw [repeatOver]
    exact (each bindings).bind fun _ => blames_ok _
  | cons group own ih =>
    rw [repeatOver]
    split
    · exact (blames_mapM _ fun _ => ih _).bind fun _ => blames_ok _
    · rintro _ ⟨⟩
      rfl

mutual

theorem blames_instantiate (template : Template) (bindings : Bindings) :
    Blames pos (instantiate pos template bindings) := by
  match template with
  | .verbatim form => exact blames_ok form
  | .variable place =>
    rw [instantiate]
    split
    · exact blames_ok _
    · rintro _ ⟨⟩
      rfl
  | .list elems none | .vector elems =>
    rw [instantiate]
    exact (blames_instantiateAll elems bindings).bind fun _ => blames_ok _
  | .list elems (some tail) =>
    rw [instantiate]
    exact (blames_instantiateAll elems bindings).bind fun _ =>
      (blames_instantiate tail bindings).bind fun _ => blames_ok _

theorem blames_instantiateAll (elems : List Subtemplate) (bindings : Bindings) :
    Blames pos (instantiateAll pos elems bindings) := by
  match elems with
  | [] => exact blames_ok []
  | .mk template own :: elems =>
    rw [instantiateAll]
    exact (blames_repeatOver (blames_instantiate template) own bindings).bind fun _ =>
      (blames_instantiateAll elems bindings).bind fun _ => blames_ok _

end

end

end Template

/-! ### Rules -/

namespace Rule

/-- The groups of every variable are the first of those that drive the ellipses around it. -/
def isDriven (rule : Rule) : Bool :=
  rule.template.isDriven rule.groups []

/-- What is known of a rule that has been read. -/
structure Sane (rule : Rule) : Prop where
  nested : Nested 0 rule.groups
  laid (meaning? : String → Option Identity) (form : Datum) (bound : List Match) :
    rule.bindings? meaning? form = some bound → Laid rule.groups bound
  levelled : rule.template.Levelled rule.groups 0

variable {rule : Rule}

/-- A rule that matches can be instantiated if it is driven. Otherwise it cannot, if there is a
repetition under every ellipsis. -/
theorem Sane.expand? (sane : rule.Sane) {meaning? : String → Option Identity} {form : Datum}
    {bound : List Match} (matched : rule.bindings? meaning? form = some bound) :
    (rule.isDriven = true → ∃ expansion, rule.expand? meaning? form = some (.ok expansion)) ∧
    (rule.isDriven = false → (∀ binding ∈ bound, binding.isFull = true) →
      rule.expand? meaning? form =
        some (.error { fault := .invalidTemplate, position := form.position })) := by
  have laid := sane.laid meaning? form bound matched
  have levelled : rule.template.Levelled rule.groups ([] : List Group).length := sane.levelled
  rw [Rule.expand?, matched, Option.map_some]
  refine ⟨fun driven => ?_, fun undriven full => ?_⟩
  · obtain ⟨expansion, made⟩ := Template.instantiate_driven sane.nested rule.template levelled driven
      (.initial laid)
    exact ⟨expansion, congrArg some made⟩
  · cases made : rule.template.instantiate form.position (bound.map some) with
    | ok expansion =>
      exact absurd made (Template.instantiate_undriven sane.nested rule.template levelled undriven
        (.initial laid full) expansion)
    | error error => rw [Template.blames_instantiate rule.template _ error made]

end Rule

namespace TransformerKind

/-- The rules of a transformer that has been read are sane. -/
theorem sane_of_ofDatum {definition? : String → Option Identity} {spec : Datum} {rules : List Rule}
    (accepted : ofDatum definition? spec = .ok (.rules rules)) : ∀ rule ∈ rules, rule.Sane := by
  intro rule mem
  obtain ⟨-, -, right, vars, -, -, read, lays⟩ := lays_of_ofDatum accepted rule mem
  refine ⟨lays.nested, fun meaning? form bound matched => (lays.laid _ _ _ matched).1, ?_⟩
  exact lays.groups ▸ (Template.levelled_ofDatum lays.clear right read).1

/-- What a transformer made from accepted rules does with a form. If no rule matches, it says so.
Otherwise the first rule that matches decides: it has an expansion if its template is driven, and
fails if not, for every form with at least one repetition under each ellipsis of the pattern. -/
theorem expand_accepted {definition? : String → Option Identity} {spec : Datum} {rules : List Rule}
    (accepted : ofDatum definition? spec = .ok (.rules rules))
    (meaning? : String → Option Identity) (form : Datum) :
    ((∀ rule ∈ rules, rule.isDriven = true) →
      (∃ expansion, expand meaning? (.rules rules) form = .ok expansion) ∨
      expand meaning? (.rules rules) form =
        .error { fault := .noMatchingRule, position := form.position }) ∧
    ∀ before rule after bound, rules = before ++ rule :: after →
      (∀ earlier ∈ before, earlier.bindings? meaning? form = none) →
      rule.bindings? meaning? form = some bound →
        (rule.isDriven = true → ∃ expansion, expand meaning? (.rules rules) form = .ok expansion) ∧
        (rule.isDriven = false → (∀ binding ∈ bound, binding.isFull = true) →
          expand meaning? (.rules rules) form =
            .error { fault := .invalidTemplate, position := form.position }) := by
  have sane := sane_of_ofDatum accepted
  constructor
  · intro driven
    rw [expand]
    cases found : rules.findSome? fun rule => rule.expand? meaning? form with
    | none => exact .inr rfl
    | some outcome =>
      obtain ⟨rule, member, expanded⟩ := List.exists_of_findSome?_eq_some found
      obtain ⟨bound, matched, -⟩ := Option.map_eq_some_iff.mp expanded
      obtain ⟨expansion, made⟩ := ((sane rule member).expand? matched).1 (driven rule member)
      cases expanded.symm.trans made
      exact .inl ⟨expansion, rfl⟩
  · rintro before rule after bound rfl unmatched matched
    have decides : expand meaning? (.rules (before ++ rule :: after)) form =
        rule.template.instantiate form.position (bound.map some) := by
      have skipped : before.findSome? (fun rule => rule.expand? meaning? form) = none := by
        rw [List.findSome?_eq_none_iff]
        intro earlier member
        rw [Rule.expand?, unmatched earlier member, Option.map_none]
      rw [expand, List.findSome?_append, skipped, Option.none_or, List.findSome?_cons, Rule.expand?,
        matched, Option.map_some]
    obtain ⟨safe, faulty⟩ := (sane rule (by simp)).expand? matched
    rw [Rule.expand?, matched, Option.map_some] at safe faulty
    rw [decides]
    exact ⟨fun driven => (safe driven).imp fun _ => Option.some.inj,
      fun undriven full => Option.some.inj (faulty undriven full)⟩

/-- In `((_ (a ...) (b ...)) ((a b) ...))` the ellipsis of the template is driven by `a` alone. The
rules are accepted, and fail for `(m (1) (2))`. -/
theorem expand_accepted_twoGroups :
    let symbol := fun name => Datum.ofSymbol name {}
    let repeated := fun name => Datum.list [symbol name, symbol "..."] {}
    let number := fun value => Datum.list [.atom (.integer value) {}] {}
    ∃ rules, ofDatum (fun _ => none) (.list [symbol "syntax-rules", .list [] {},
        .list [.list [symbol "_", repeated "a", repeated "b"] {},
          .list [.list [symbol "a", symbol "b"] {}, symbol "..."] {}] {}] {}) = .ok (.rules rules) ∧
      expand (fun _ => none) (.rules rules) (.list [symbol "m", number 1, number 2] {}) =
        .error { fault := .invalidTemplate, position := {} } := by
  intro symbol repeated number
  let sequence := Pattern.list (.mk [] (some (.mk .variable 1)) [] none)
  let rule : Rule :=
    { pattern := .arguments (.mk [sequence, sequence] none [] none)
      template := .list [.mk (.list [.mk (.variable 0) [], .mk (.variable 1) []] none)
        [{ start := 0, count := 1 }]] none }
  have accepted : ofDatum (fun _ => none) (.list [symbol "syntax-rules", .list [] {},
      .list [.list [symbol "_", repeated "a", repeated "b"] {},
        .list [.list [symbol "a", symbol "b"] {}, symbol "..."] {}] {}] {}) =
      .ok (.rules [rule]) := rfl
  refine ⟨[rule], accepted, ?_⟩
  refine ((expand_accepted accepted _ _).2 [] rule [] [.sequence [.single (.atom (.integer 1) {})],
    .sequence [.single (.atom (.integer 2) {})]] rfl (nofun) rfl).2 rfl ?_
  simp [Match.isFull, Match.areFull]

end TransformerKind

end MiniScheme
