import MiniScheme.Proofs.Rule.Groups

/-!
# Matches are complete and aligned

Reading the left side of a rule records its variables and the groups that each of them repeats under.
A form that matches binds every one of them, nested as deep as the variable has groups. Variables of
one group have equally long sequences at every level, and in repetition after repetition they are
bound to parts of the same item of the form.
-/

namespace MiniScheme

namespace Pattern

/-- What a variable stands for, given the number of the repetition under each ellipsis around it,
outermost first. -/
abbrev Part := List Nat → Option Datum

mutual

/-- The part of a form that each variable of a pattern stands for. -/
def parts : Pattern → Datum → List Part
  | .variable, form => [fun indices => if indices = [] then some form else none]
  | .list shape, form => match form.elements? with
    | some (items, tail) => shapeParts shape items (tail.getD (.list [] form.position)) form.position
    | none => []
  | .vector shape, form => match form with
    | .vector items position => shapeParts shape items (.list [] position) position
    | _ => []
  | _, _ => []

/-- The parts of a list. The items before and behind the ellipsis belong to one pattern each, and
those between them are its repetitions. Without an ellipsis, items may be left for the pattern
behind the dot. -/
def shapeParts : Shape → List Datum → Datum → Position → List Part
  | .mk front repeated back rest, items, ending, position =>
    let others := items.drop front.length
    let middle := match repeated with
      | some repetition =>
        let count := others.length - back.length
        repetitionParts repetition (others.take count) ++ allParts back (others.drop count)
      | none => []
    let last := match rest with
      | some pattern =>
        parts pattern (.withTail (if repeated.isSome then [] else others) ending position)
      | none => []
    allParts front items ++ middle ++ last

/-- The parts of several forms, each with its own pattern. -/
def allParts : List Pattern → List Datum → List Part
  | pattern :: patterns, form :: forms => parts pattern form ++ allParts patterns forms
  | _, _ => []

/-- The parts of the repetitions under an ellipsis: of the repetition that is meant, what the pattern
finds there. -/
def repetitionParts : Repetition → List Datum → List Part
  | .mk pattern width, forms => (List.range width).map fun place indices =>
    match indices with
    | index :: inner => do (← (parts pattern (← forms[index]?))[place]?) inner
    | [] => none

end

end Pattern

/-- The form that is bound in the repetitions of these numbers, outermost first. -/
def Match.form? : Match → Pattern.Part
  | .single form, [] => some form
  | .sequence repetitions, index :: inner => repetitions[index]?.bind (form? · inner)
  | _, _ => none

namespace Pattern

variable {pattern : Pattern} {front back : List Pattern} {repeated : Option Repetition}
  {width : Nat} {forms : List Datum} {rows : List (List Match)}

section

variable (even : ∀ row ∈ rows, row.length = width) (each : List.Forall₂ (fun form row =>
  row.map Match.form? = pattern.parts form) forms rows)
include even each

/-- The element at an index of the sequence of a variable comes from the repetition at that index. -/
theorem form?_row {place : Nat} (inside : place < width) (i : Nat) (inner : List Nat) :
    (rows.filterMap (·[place]?))[i]?.bind (·.form? inner) =
      (do (← (pattern.parts (← forms[i]?))[place]?) inner) := by
  have long : ∀ row ∈ rows, place < row.length := fun row mem => even row mem ▸ inside
  rcases Nat.lt_or_ge i rows.length with here | beyond
  · have here' := each.length_eq ▸ here
    rw [Match.getElem?_filterMap_row long (List.getElem?_eq_getElem here),
      List.getElem?_eq_getElem here']
    have located := each.get here' here
    simp only [List.get_eq_getElem] at located
    change rows[i][place]?.bind (·.form? inner) = (pattern.parts forms[i])[place]?.bind (· inner)
    rw [← located, List.getElem?_map]
    cases rows[i][place]? <;> rfl
  · rw [List.getElem?_eq_none (by rwa [Match.length_filterMap_row long]),
      List.getElem?_eq_none (each.length_eq ▸ beyond)]
    rfl

theorem form?_columns :
    (Match.columns width rows).map Match.form? = repetitionParts (.mk pattern width) forms := by
  refine List.ext_getElem? fun place => ?_
  rw [repetitionParts, List.getElem?_map, List.getElem?_map]
  rcases Nat.lt_or_ge place width with inside | beyond
  · rw [Match.getElem?_columns even inside, List.getElem?_range inside, Option.map_some,
      Option.map_some]
    refine congrArg some (funext fun indices => ?_)
    cases indices with
    | nil => rfl
    | cons i inner => exact form?_row even each inside i inner
  · rw [List.getElem?_eq_none (by rwa [Match.length_columns even]),
      List.getElem?_eq_none (by rwa [List.length_range])]
    rfl

end

/-- A match binds each variable to the part of the form that it stands for. -/
def Locates (pattern : Pattern) : Prop :=
  ∀ meaning? form bound, pattern.bindings? meaning? form = some bound →
    bound.map Match.form? = pattern.parts form

def LocatesItems (front : List Pattern) (repeated : Option Repetition) (back : List Pattern) : Prop :=
  ∀ meaning? forms left bound ending position, Spans meaning? front repeated back forms bound →
    (repeated.isSome = true → left = []) → bound.map Match.form? =
      shapeParts (.mk front repeated back none) (forms ++ left) ending position

def LocatesShape (shape : Shape) : Prop :=
  ∀ meaning? items tail position bound,
    shapeBindings? meaning? shape items tail position = some bound →
      bound.map Match.form? = shapeParts shape items (tail.getD (.list [] position)) position

theorem LocatesItems.shape (xs : LocatesItems front repeated back) :
    LocatesShape (.mk front repeated back none) := by
  intro meaning? forms tail pos bound matched
  obtain ⟨taken, left, first, last, rfl, rfl, spans, behind, -, rest⟩ :=
    spans_of_shapeBindings? matched
  obtain ⟨-, rfl⟩ := restBindings?_none behind
  rw [List.append_nil]
  exact xs _ _ _ _ _ _ spans fun some_repetition => by rw [rest, if_pos some_repetition]

theorem LocatesItems.dotted {rest : Pattern} (xs : LocatesItems front repeated back)
    (behind : rest.Locates) : LocatesShape (.mk front repeated back (some rest)) := by
  intro meaning? forms tail pos bound matched
  obtain ⟨taken, left, first, last, rfl, rfl, spans, found, -, rest⟩ :=
    spans_of_shapeBindings? matched
  rw [restBindings?, rest] at found
  have located := xs _ _ left _ (tail.getD (.list [] pos)) pos spans
    fun some_repetition => by rw [rest, if_pos some_repetition]
  rw [List.map_append, located, behind _ _ _ found]
  cases repeated <;> simp [shapeParts]

theorem LocatesShape.list {shape : Shape} (locates : LocatesShape shape) :
    (Pattern.list shape).Locates := by
  intro meaning? form bound matched
  obtain ⟨xs, tail, elems, matched⟩ := bindings?_list matched
  simp only [parts, elems]
  exact locates _ _ _ _ _ matched

structure Blank (pattern : Pattern) : Prop where
  lays (start : Nat) : Lays start pattern []
  parts : pattern.parts = fun _ => []

theorem Blank.locates (blank : pattern.Blank) : pattern.Locates := by
  intro meaning? form bound matched
  obtain rfl : bound = [] := by simpa using ((blank.lays 0).laid _ _ _ matched).nests
  rw [blank.parts]
  rfl

theorem blank_literal (definition? : String → Option Identity) (name : String) :
    (TransformerKind.literal definition? name).Blank := by
  refine ⟨fun start => lays_literal definition? name, ?_⟩
  unfold TransformerKind.literal
  split <;> rfl

mutual

/-- A pattern that was read says where its variables are bound. -/
theorem Reads.locates {inert : String → Pattern → Prop}
    (blank : ∀ name pattern, inert name pattern → pattern.Blank) {start : Nat} {d : Datum}
    {pattern : Pattern} {new : PatternVariables} (reads : Reads inert start d pattern new) :
    pattern.Locates := by
  cases reads with
  | constant => exact Blank.locates ⟨fun _ => lays_constant _, rfl⟩
  | inert known => exact (blank _ _ known).locates
  | «variable» =>
    intro meaning? form bound matched
    rw [bindings?] at matched
    cases matched
    refine congrArg (fun part => [part]) (funext fun indices => ?_)
    cases indices <;> rfl
  | list inside => exact (inside.locates blank).shape.list
  | dotted inside behind => exact ((inside.locates blank).dotted (behind.locates blank)).list
  | vector inside =>
    intro meaning? form bound matched
    obtain ⟨xs, pos, rfl, matched⟩ := bindings?_vector matched
    exact (inside.locates blank).shape _ _ _ _ _ matched

theorem ReadsItems.locates {inert : String → Pattern → Prop}
    (blank : ∀ name pattern, inert name pattern → pattern.Blank) {start : Nat} {xs : List Datum}
    {front back : List Pattern} {repeated : Option Repetition} {new : PatternVariables}
    (reads : ReadsItems inert start xs front repeated back new) :
    LocatesItems front repeated back := by
  intro meaning? forms left bound ending pos spans none_left
  cases reads with
  | nil => cases spans; rfl
  | cons first others =>
    cases spans with
    | cons found spans =>
      have located := others.locates blank _ _ left _ ending pos spans none_left
      rw [List.map_append, first.locates blank _ _ _ found, located]
      cases repeated <;> simp [shapeParts, allParts]
  | repeated first marked others =>
    obtain rfl := none_left rfl
    cases spans with
    | repeated under spans =>
      obtain ⟨rows, matched, rfl⟩ := rows_of_repetitionBindings? under
      have located := others.locates blank _ _ [] _ ending pos spans nofun
      have even : ∀ row ∈ rows, row.length = _ := forall_mem_right matched fun _ _ found =>
        ((first.lays fun _ _ _ inert => (blank _ _ inert).lays _).laid _ _ _ found).nests.length_eq.symm
      rw [List.length_map] at even
      rw [List.map_append, located,
        form?_columns even (matched.imp fun _ _ found => first.locates blank _ _ _ found)]
      simp [shapeParts, allParts, ← spans.length_eq]

end

end Pattern

/-- Reads the left side of a rule. Of a list, the first item is left alone. -/
def RulePattern.ofDatum (literals : Literals) (left : Datum) :
    Except CompileError (RulePattern × PatternVariables) :=
  match left.elements? with
  | some (_ :: items, rest) => do
    let ((front, repeated, back), vars) ← (Pattern.ofItems literals left.position items).run []
    match rest with
    | some rest =>
      let (rest, vars) ← (Pattern.ofDatum literals rest).run vars
      return (.arguments (.mk front repeated back (some rest)), vars)
    | none => return (.arguments (.mk front repeated back none), vars)
  | _ => do
    let (pattern, vars) ← (Pattern.ofDatum literals left).run []
    return (.form pattern, vars)

namespace Rule

/-- The groups that each variable of the rule repeats under. -/
def groups (rule : Rule) : List (List Group) :=
  match rule.pattern with
  | .form pattern => pattern.groups 0
  | .arguments shape => Pattern.shapeGroups 0 shape

/-- The part of a form that each variable of the rule stands for. -/
def parts (rule : Rule) (form : Datum) : List Pattern.Part :=
  match rule.pattern with
  | .form pattern => pattern.parts form
  | .arguments shape => match form.elements? with
    | some (_ :: items, tail) =>
      Pattern.shapeParts shape items (tail.getD (.list [] form.position)) form.position
    | _ => []

variable {literals : Literals} {rule : Rule}

/-- A rule that was read has a left side that was read, and a template for its variables. -/
theorem exists_of_ofDatum {d : Datum} (read : Rule.ofDatum literals d = .ok rule) :
    ∃ left right, d.list? = some [left, right] ∧
      ∃ vars, RulePattern.ofDatum literals left = .ok (rule.pattern, vars) ∧
        Template.ofDatum vars 0 false right = .ok rule.template := by
  unfold Rule.ofDatum at read
  split at read
  · rename_i left right listed
    refine ⟨left, right, listed, ?_⟩
    rw [RulePattern.ofDatum]
    dsimp only at read
    generalize left.elements? = elems at read ⊢
    rcases elems with _ | ⟨_ | ⟨_, xs⟩, _ | rest⟩
    case some.cons.none =>
      obtain ⟨⟨xs, between⟩, inside, read⟩ := Except.bind_ok read
      obtain ⟨_, ⟨⟩, read⟩ := Except.bind_ok read
      obtain ⟨template, second, done⟩ := Except.bind_ok read
      cases done
      exact ⟨between, by simp only [inside]; rfl, second⟩
    case some.cons.some =>
      obtain ⟨⟨xs, between⟩, inside, read⟩ := Except.bind_ok read
      obtain ⟨⟨rest, after⟩, behind, read⟩ := Except.bind_ok read
      obtain ⟨_, ⟨⟩, read⟩ := Except.bind_ok read
      obtain ⟨template, second, done⟩ := Except.bind_ok read
      cases done
      dsimp only at behind
      exact ⟨after, by simp only [inside, bind, Except.bind, behind]; rfl, second⟩
    -- What is not a list with a first item is read as a whole.
    all_goals
      obtain ⟨⟨pattern, between⟩, inside, read⟩ := Except.bind_ok read
      obtain ⟨_, ⟨⟩, read⟩ := Except.bind_ok read
      obtain ⟨template, second, done⟩ := Except.bind_ok read
      cases done
      exact ⟨between, by rw [inside]; rfl, second⟩
  · cases read

structure Lays (rule : Rule) (vars : PatternVariables) : Prop where
  clear : vars.Clear
  groups : rule.groups = vars.map PatternVariable.groups
  nested : Nested 0 rule.groups
  laid (meaning? : String → Option Identity) (form : Datum) (bound : List Match) :
    rule.bindings? meaning? form = some bound →
      Laid rule.groups bound ∧ bound.map Match.form? = rule.parts form

theorem lays_arguments {shape : Shape} {template : Template} {vars : PatternVariables}
    (clear : vars.Clear) (lays : Pattern.LaysShape 0 shape (vars.map PatternVariable.groups))
    (locates : Pattern.LocatesShape shape) :
    Lays { pattern := .arguments shape, template } vars := by
  obtain ⟨found, nested, laid⟩ := lays
  have found : groups { pattern := .arguments shape, template } = _ := found
  refine ⟨clear, found, found ▸ nested, fun meaning? form bound matched => ?_⟩
  simp only [bindings?] at matched
  split at matched
  · rename_i elems
    simp only [found, parts, elems]
    exact ⟨laid _ _ _ _ _ matched, locates _ _ _ _ _ matched⟩
  · cases matched

theorem lays_ofDatum (blank : ∀ name pattern, Pattern.Inert literals name pattern → pattern.Blank)
    {left : Datum} {vars : PatternVariables}
    (read : RulePattern.ofDatum literals left = .ok (rule.pattern, vars)) : rule.Lays vars := by
  have lays (name pattern start) (inert : Pattern.Inert literals name pattern) :=
    (blank name pattern inert).lays start
  obtain ⟨pattern, template⟩ := rule
  unfold RulePattern.ofDatum at read
  dsimp only at read
  split at read
  · obtain ⟨⟨⟨front, repeated, back⟩, between⟩, inside, read⟩ := Except.bind_ok read
    obtain ⟨new, rfl, clear, reads⟩ := Pattern.reads_ofItems _ .nil (fun _ _ _ => id) inside
    dsimp only at read
    split at read
    · obtain ⟨⟨rest, after⟩, behind, done⟩ := Except.bind_ok read
      cases done
      obtain ⟨more, rfl, clear, reads'⟩ := Pattern.reads_ofDatum _ clear (fun _ _ _ => id) behind
      refine lays_arguments clear ?_ ((reads.locates blank).dotted (reads'.locates blank))
      rw [List.map_append]
      exact (reads.lays lays).dotted (by simpa using reads'.lays lays)
    · cases read
      exact lays_arguments clear (reads.lays lays).shape (reads.locates blank).shape
  · obtain ⟨⟨pattern, between⟩, inside, done⟩ := Except.bind_ok read
    cases done
    obtain ⟨new, rfl, clear, reads⟩ := Pattern.reads_ofDatum _ .nil (fun _ _ _ => id) inside
    obtain ⟨found, nested, laid⟩ := reads.lays lays
    have found : groups { pattern := .form pattern, template } = _ := found
    exact ⟨clear, found, found ▸ nested, fun meaning? form bound matched =>
      ⟨found ▸ laid _ _ _ matched, reads.locates blank _ _ _ matched⟩⟩

end Rule

namespace TransformerKind

variable {definition? : String → Option Identity} {spec : Datum} {rules : List Rule}

/-- `Describes definition? spec literals left right`: the description declares the literals, and has
the rule `(left right)` in it. -/
def Describes (definition? : String → Option Identity) (spec : Datum) (literals : Literals)
    (left right : Datum) : Prop :=
  ∃ keyword names entries declared, spec.list? = some (keyword :: names :: entries) ∧
    names.list? = some declared ∧ (∃ entry ∈ entries, entry.list? = some [left, right]) ∧
    ∀ entry ∈ literals, entry.2 = literal definition? entry.1 ∧
      ∃ datum ∈ declared, datum.symbol? = some entry.1

/-- The rules of a transformer that has been read have variables that were recorded. -/
theorem lays_of_ofDatum (accepted : ofDatum definition? spec = .ok (.rules rules)) :
    ∀ rule ∈ rules, ∃ literals left right vars, Describes definition? spec literals left right ∧
      RulePattern.ofDatum literals left = .ok (rule.pattern, vars) ∧
      Template.ofDatum vars 0 false right = .ok rule.template ∧ rule.Lays vars := by
  unfold ofDatum at accepted
  dsimp only at accepted
  split at accepted
  · cases accepted
  · rename_i keyword names _ described
    split at accepted
    · unfold readRules at accepted
      split at accepted
      · rename_i symbols listed
        obtain ⟨literals, declared, accepted⟩ := Except.bind_ok accepted
        obtain ⟨_, read, done⟩ := Except.bind_ok accepted
        cases done
        have each : ∀ entry ∈ literals, entry.2 = literal definition? entry.1 ∧
            ∃ datum ∈ symbols, datum.symbol? = some entry.1 := by
          intro entry mem
          obtain ⟨input, among, named⟩ := exists_of_mem_mapM declared entry mem
          split at named
          · cases named
            exact ⟨rfl, input, among, ‹_›⟩
          · cases named
        intro rule mem
        obtain ⟨d, among, made⟩ := exists_of_mem_mapM read rule mem
        obtain ⟨left, right, parts, vars, matches_left, makes_right⟩ := Rule.exists_of_ofDatum made
        refine ⟨literals, left, right, vars, ⟨keyword, names, _, symbols, described, listed,
          ⟨d, among, parts⟩, each⟩, matches_left, makes_right,
          Rule.lays_ofDatum (fun name pattern inert => ?_) matches_left⟩
        rcases inert with found | ⟨-, -, rfl⟩
        · obtain ⟨_, _, rfl, -⟩ := List.lookup_eq_some_iff.mp found
          have same : pattern = literal definition? name := (each (name, pattern) (by simp)).1
          rw [same]
          exact Pattern.blank_literal definition? _
        · exact ⟨fun _ => Pattern.lays_blank rfl fun _ _ _ matched => by
            simpa [Pattern.bindings?] using matched, rfl⟩
      · cases accepted
    · obtain ⟨_, -, done⟩ := Except.bind_ok accepted
      cases done
    · obtain ⟨_, -, accepted⟩ := Except.bind_ok accepted
      obtain ⟨_, -, done⟩ := Except.bind_ok accepted
      cases done
    · cases accepted
  · cases accepted

/-- Matches are complete and aligned. Every variable that was recorded for a rule, when its left side
in the description was read, is bound, within as many sequences as it has groups. At every level,
variables of one group have equally long sequences; and in the repetitions of any numbers a variable
is bound to the part that it stands for in these very repetitions of the form. -/
theorem matches_aligned (accepted : ofDatum definition? spec = .ok (.rules rules)) {rule : Rule}
    (member : rule ∈ rules) {meaning? : String → Option Identity} {form : Datum}
    {bound : List Match} (matched : rule.bindings? meaning? form = some bound) :
    ∃ literals left right vars, Describes definition? spec literals left right ∧
      RulePattern.ofDatum literals left = .ok (rule.pattern, vars) ∧
      bound.length = vars.length ∧ bound.map Match.form? = rule.parts form ∧
      ∀ (place : Nat) (entry : PatternVariable) (binding : Match),
        vars[place]? = some entry → bound[place]? = some binding →
        binding.Nests entry.groups.length ∧
        ∀ (place' : Nat) (entry' : PatternVariable) (binding' : Match),
          vars[place']? = some entry' → bound[place']? = some binding' →
          Match.Parallel entry.groups entry'.groups binding binding' := by
  obtain ⟨literals, left, right, vars, stands, read, -, lays⟩ :=
    lays_of_ofDatum accepted rule member
  obtain ⟨⟨nests, parallel⟩, located⟩ := lays.laid meaning? form bound matched
  rw [lays.groups] at nests parallel
  refine ⟨literals, left, right, vars, stands, read, ?_, located,
    fun place entry binding there held => ?_⟩
  · simpa using nests.length_eq.symm
  have recorded {place : Nat} {entry : PatternVariable} (there : vars[place]? = some entry) :
      (vars.map PatternVariable.groups)[place]? = some entry.groups := by
    rw [List.getElem?_map, there, Option.map_some]
  constructor
  · obtain ⟨inside, same⟩ := List.getElem?_eq_some_iff.mp (recorded there)
    obtain ⟨inside', rfl⟩ := List.getElem?_eq_some_iff.mp held
    exact same ▸ nests.get inside inside'
  · intro place' entry' binding' there' held'
    exact parallel place place' _ _ _ _ (recorded there) (recorded there') held held'

/-- In `((_ (a b ...) ...) ())` the variable `b` is under two ellipses. In `(m (1 2 3) (4))` it is
bound to `3` in the second repetition within the first. -/
theorem matches_aligned_nested :
    let symbol := fun name => Datum.ofSymbol name {}
    let number := fun value => Datum.atom (.integer value) {}
    let form := Datum.list [symbol "m", .list [number 1, number 2, number 3] {}, .list [number 4] {}] {}
    ∃ rule bound, ofDatum (fun _ => none) (.list [symbol "syntax-rules", .list [] {},
        .list [.list [symbol "_", .list [symbol "a", symbol "b", symbol "..."] {}, symbol "..."] {},
          .list [] {}] {}] {}) = .ok (.rules [rule]) ∧
      rule.bindings? (fun _ => none) form = some bound ∧ bound.map Match.form? = rule.parts form ∧
      (rule.parts form)[1]?.bind (· [0, 1]) = some (number 3) := by
  intro symbol number form
  let rule : Rule :=
    { pattern := .arguments (.mk []
        (some (.mk (.list (.mk [.variable] (some (.mk .variable 1)) [] none)) 2)) [] none)
      template := .list [] none }
  have accepted : ofDatum (fun _ => none) (.list [symbol "syntax-rules", .list [] {},
      .list [.list [symbol "_", .list [symbol "a", symbol "b", symbol "..."] {}, symbol "..."] {},
        .list [] {}] {}] {}) = .ok (.rules [rule]) := rfl
  have matched : rule.bindings? (fun _ => none) form = some
      [.sequence [.single (number 1), .single (number 4)],
        .sequence [.sequence [.single (number 2), .single (number 3)], .sequence []]] := rfl
  obtain ⟨-, -, -, -, -, -, -, located, -⟩ := matches_aligned accepted List.mem_cons_self matched
  exact ⟨rule, _, accepted, matched, located, rfl⟩

end TransformerKind

end MiniScheme
