import MiniScheme.Compiler.Quasi
import MiniScheme.Proofs.Datum.Alike
import Mathlib.Data.List.Basic

/-!
# Constant templates

A template in which nothing is to be evaluated is quoted as a whole. Whether it is one is found out
beforehand, by a recursion of its own that keeps its own account of the depth. Here the plan of a
template is compared with the plan that is made without this shortcut. The shortcut overlooks what is
to be evaluated in one place: the operand of an unquoted tail, `(a . ,b)`, within further
quasiquotations is looked at as if it stood at the depth of the list.
-/

namespace MiniScheme

mutual

/-- The number of data that the datum consists of. -/
def Datum.weight : Datum → Nat
  | .atom _ _ => 1
  | .list items _ => 1 + Datum.weightAll items
  | .dotted items tail _ => 1 + Datum.weightAll items + tail.weight
  | .vector items _ => 1 + Datum.weightAll items

/-- The number of data that a sequence consists of. -/
def Datum.weightAll : List Datum → Nat
  | [] => 0
  | item :: items => item.weight + Datum.weightAll items

end

theorem Datum.weight_pos (d : Datum) : 0 < d.weight := by
  cases d <;> simp only [weight] <;> omega

theorem Datum.weight_le_weightAll {item : Datum} {xs : List Datum} (mem : item ∈ xs) :
    item.weight ≤ Datum.weightAll xs := by
  induction xs with
  | nil => cases mem
  | cons first xs ih =>
    rw [weightAll]
    rcases List.mem_cons.mp mem with rfl | later
    · omega
    · have := ih later
      omega

theorem Datum.weightAll_append (front back : List Datum) :
    Datum.weightAll (front ++ back) = Datum.weightAll front + Datum.weightAll back := by
  induction front with
  | nil => simp [weightAll]
  | cons item front ih =>
    rw [List.cons_append, weightAll, weightAll, ih]
    omega

namespace Quasi

/-! ### Plans without the shortcut -/

def abbreviation? : Datum → Option (Datum × Mark × Datum)
  | .list [.atom (.symbol name) position, operand] _ =>
    (mark? name).map fun mark => (.atom (.symbol name) position, mark, operand)
  | _ => none

/-- The plan of a template without a mark, made from the plans of what it consists of. -/
def spread (recur : Datum → Quasi) (depth : Nat) (datum : Datum) : Quasi :=
  let parts := List.map fun item => Part.of depth item (recur item)
  match datum with
  | .list items position => match unquotedTail? items with
    | some (front, mark, operand) =>
      join position (parts front) (some (recur (.list [mark, operand] mark.position)))
    | none => join position (parts items) none
  | .dotted items tail position => join position (parts items) (some (recur tail))
  | .vector items position => .call "list->vector" position [join position (parts items) none]
  | .atom value position => .constant (.atom value position)

/-- The plan of a template, made from the plans of what is in it. -/
def expand (recur : Nat → Datum → Quasi) (depth : Nat) (datum : Datum) : Quasi :=
  match abbreviation? datum, depth with
  | some (_, .unquote, operand), 0 => .evaluate operand
  | some (_, .unquoteSplicing, _), 0 => .invalid datum.position
  | some (head, .quasiquote, operand), depth =>
    .call "list" datum.position [.constant head, recur (depth + 1) operand]
  | some (head, _, operand), depth + 1 =>
    .call "list" datum.position [.constant head, recur depth operand]
  | none, depth => spread (recur depth) depth datum

variable {d mark operand : Datum} {xs front : List Datum} {depth : Nat}

theorem expand_of_none (unmarked : abbreviation? d = none) (recur : Nat → Datum → Quasi)
    (depth : Nat) : expand recur depth d = spread (recur depth) depth d := by
  simp [expand, unmarked]

def parts : Datum → List Datum
  | .list items _ => match unquotedTail? items with
    | some (front, mark, operand) => front ++ [.list [mark, operand] mark.position]
    | none => items
  | .dotted items tail _ => items ++ [tail]
  | .vector items _ => items
  | .atom _ _ => []

/-- What the plan of a template is made from, with the depth of each. -/
def calls (depth : Nat) (datum : Datum) : List (Nat × Datum) :=
  match abbreviation? datum, depth with
  | some (_, .quasiquote, operand), depth => [(depth + 1, operand)]
  | some _, 0 => []
  | some (_, _, operand), depth + 1 => [(depth, operand)]
  | none, depth => (parts datum).map (depth, ·)

theorem unquotedTail?_eq_some (found : unquotedTail? xs = some (front, mark, operand)) :
    xs = front ++ [mark, operand] ∧ front ≠ [] ∧ mark.isSymbol unquote = true := by
  fun_induction unquotedTail? xs generalizing front with
  | case1 first second third marked =>
    cases found
    exact ⟨rfl, by simp, marked⟩
  | case2 => cases found
  | case3 first second third xs nonempty ih =>
    obtain ⟨⟨front, mark, operand⟩, rest, same⟩ := Option.map_eq_some_iff.mp found
    cases same
    obtain ⟨split, -, marked⟩ := ih rest
    exact ⟨by rw [split]; rfl, by simp, marked⟩
  | case4 => cases found

theorem abbreviation?_eq_some {head : Datum} {mark : Mark}
    (found : abbreviation? d = some (head, mark, operand)) :
    ∃ name pos pos', head = .atom (.symbol name) pos ∧ mark? name = some mark ∧
      d = .list [head, operand] pos' := by
  unfold abbreviation? at found
  split at found
  · obtain ⟨mark, marked, same⟩ := Option.map_eq_some_iff.mp found
    cases same
    exact ⟨_, _, _, rfl, marked, rfl⟩
  · cases found

theorem weight_lt_of_mem_parts {part : Datum} (mem : part ∈ parts d) : part.weight < d.weight := by
  unfold parts at mem
  split at mem
  case h_1 xs _ =>
    rw [Datum.weight]
    split at mem
    case h_1 front mark operand found =>
      obtain ⟨rfl, nonempty, -⟩ := unquotedTail?_eq_some found
      obtain ⟨first, _, rfl⟩ := List.exists_cons_of_ne_nil nonempty
      have := first.weight_pos
      rw [Datum.weightAll_append]
      rcases List.mem_append.mp mem with early | last
      · have := Datum.weight_le_weightAll early
        omega
      · rw [List.mem_singleton.mp last]
        simp only [Datum.weight, Datum.weightAll]
        omega
    case h_2 =>
      have := Datum.weight_le_weightAll mem
      omega
  case h_2 xs tail _ =>
    rw [Datum.weight]
    rcases List.mem_append.mp mem with early | last
    · have := Datum.weight_le_weightAll early
      omega
    · rw [List.mem_singleton.mp last]
      omega
  case h_3 xs _ =>
    have := Datum.weight_le_weightAll mem
    rw [Datum.weight]
    omega
  case h_4 => cases mem

theorem weight_lt_of_mem_calls {call : Nat × Datum} (mem : call ∈ calls depth d) :
    call.2.weight < d.weight := by
  have inside {head operand : Datum} {mark : Mark}
      (found : abbreviation? d = some (head, mark, operand)) : operand.weight < d.weight := by
    obtain ⟨_, _, _, rfl, -, rfl⟩ := abbreviation?_eq_some found
    simp only [Datum.weight, Datum.weightAll]
    omega
  unfold calls at mem
  split at mem
  · rename_i found
    rw [List.mem_singleton.mp mem]
    exact inside found
  · cases mem
  · rename_i found
    rw [List.mem_singleton.mp mem]
    exact inside found
  · obtain ⟨part, there, rfl⟩ := List.mem_map.mp mem
    exact weight_lt_of_mem_parts there

theorem spread_congr {recur recur' : Datum → Quasi}
    (same : ∀ part ∈ parts d, recur part = recur' part) :
    spread recur depth d = spread recur' depth d := by
  have each {xs : List Datum} (same : ∀ item ∈ xs, recur item = recur' item) :
      xs.map (fun item => Part.of depth item (recur item)) =
        xs.map fun item => Part.of depth item (recur' item) :=
    List.map_congr_left fun item mem => by rw [same item mem]
  unfold spread
  unfold parts at same
  cases d with
  | list xs pos =>
    dsimp only at same ⊢
    split at same
    · simp only [List.forall_mem_append, List.forall_mem_singleton] at same
      rw [each same.1, same.2]
    · rw [each same]
  | dotted xs tail pos =>
    simp only [List.forall_mem_append, List.forall_mem_singleton] at same
    dsimp only
    rw [each same.1, same.2]
  | vector xs pos =>
    dsimp only at same ⊢
    rw [each same]
  | atom => rfl

/-- The plan of a template is made from the plans of nothing else. -/
theorem expand_congr {recur recur' : Nat → Datum → Quasi}
    (same : ∀ call ∈ calls depth d, recur call.1 call.2 = recur' call.1 call.2) :
    expand recur depth d = expand recur' depth d := by
  unfold expand
  unfold calls at same
  cases found : abbreviation? d with
  | some abbreviation =>
    obtain ⟨head, mark, operand⟩ := abbreviation
    rw [found] at same
    cases mark <;> cases depth <;> simp_all
  | none =>
    simp only [found, List.forall_mem_map] at same
    exact spread_congr same

/-- The plan of a template that is made without the shortcut. -/
def general (depth : Nat) (datum : Datum) : Quasi :=
  expand (fun depth part =>
    if part.weight < datum.weight then general depth part else .nothing) depth datum
termination_by datum.weight

theorem general_eq (depth : Nat) (d : Datum) : general depth d = expand general depth d := by
  rw [general]
  exact expand_congr fun call mem => if_pos (weight_lt_of_mem_calls mem)

theorem areConstant_eq_all (depth : Nat) (xs : List Datum) :
    areConstant depth xs = xs.all (isConstant depth) := by
  induction xs with
  | nil => rfl
  | cons item xs ih => rw [areConstant, List.all_cons, ih]

theorem ofItems_eq_map (depth : Nat) (xs : List Datum) :
    ofItems depth xs = xs.map fun item => Part.of depth item (ofDatum depth item) := by
  induction xs with
  | nil => rfl
  | cons item xs ih => rw [ofItems, List.map_cons, ih]

theorem lastPlan_append (depth : Nat) (front : List Datum) (mark operand : Datum) :
    lastPlan depth (front ++ [mark, operand]) = ofDatum depth operand := by
  induction front with
  | nil => rfl
  | cons item front ih =>
    obtain ⟨first, others, same⟩ : ∃ first others, front ++ [mark, operand] = first :: others := by
      cases front <;> simp
    rw [List.cons_append, same, lastPlan, ← same, ih]
    simp

/-- The plan that is compiled is the general one but for the shortcut. -/
theorem ofDatum_eq (depth : Nat) (d : Datum) : ofDatum depth d =
    if isConstant depth d then .constant d else expand ofDatum depth d := by
  cases d with
  | atom v pos => simp [ofDatum, isConstant]
  | vector xs pos | dotted xs tail pos =>
    rw [ofDatum, ofItems_eq_map]
    rfl
  | list xs pos =>
    by_cases short : ∃ name place operand, xs = [.atom (.symbol name) place, operand]
    · obtain ⟨name, place, operand, rfl⟩ := short
      rw [ofDatum.eq_def]
      dsimp only
      congr 1
      cases marked : mark? name with
      | none =>
        rw [expand_of_none (by simp [abbreviation?, marked])]
        simp [spread, unquotedTail?, Part.of, splice?, ofDatum]
      | some mark =>
        cases mark <;> cases depth <;> simp [expand, abbreviation?, marked, Datum.position]
    · have unmarked : abbreviation? (.list xs pos) = none := by
        unfold abbreviation?
        split
        · rename_i same
          cases same
          exact absurd ⟨_, _, _, rfl⟩ short
        · rfl
      rw [ofDatum, expand_of_none unmarked]
      · congr 1
        dsimp only [spread]
        cases found : unquotedTail? xs with
        | none => simp only [ofItems_eq_map]
        | some tail =>
          obtain ⟨front, mark, operand⟩ := tail
          obtain ⟨rfl, -, marked⟩ := unquotedTail?_eq_some found
          obtain ⟨place, rfl⟩ : ∃ place, mark = .atom (.symbol unquote) place :=
            Datum.eq_ofSymbol_of_isSymbol marked
          have named : mark? unquote = some .unquote := rfl
          dsimp only
          rw [ofDatum.eq_def depth (.list [_, operand] _)]
          dsimp only
          simp only [named, lastPlan_append, ofItems_eq_map, ← List.map_take, List.take_left]
          cases depth <;> rfl
      · intro name place operand same
        exact short ⟨name, place, operand, same⟩

/-! ### What is to be evaluated -/

mutual

def isOpen : Quasi → Bool
  | .constant _ => false
  | .evaluate _ => true
  | .nothing => false
  | .call _ _ arguments => anyOpen arguments
  | .invalid _ => true

/-- Whether something is to be evaluated in one of the plans. -/
def anyOpen : List Quasi → Bool
  | [] => false
  | plan :: plans => plan.isOpen || anyOpen plans

end

/-- Whether something is to be evaluated in a part of a list. -/
def Part.isOpen : Part → Bool
  | .element plan => plan.isOpen
  | .splice _ => true

theorem anyOpen_eq_any (plans : List Quasi) : anyOpen plans = plans.any isOpen := by
  induction plans with
  | nil => rfl
  | cons plan plans ih => rw [anyOpen, List.any_cons, ih]

@[simp] theorem isOpen_call (proc : String) (pos : Position) (args : List Quasi) :
    (call proc pos args).isOpen = args.any isOpen := by
  rw [isOpen, anyOpen_eq_any]

theorem any_segments (pos : Position) (run : List Quasi) (parts : List Part) :
    (segments pos run parts).any isOpen = (run.any isOpen || parts.any Part.isOpen) := by
  induction parts generalizing run with
  | nil =>
    rw [segments]
    split <;> simp_all
  | cons part parts ih =>
    cases part with
    | element plan =>
      rw [segments, ih]
      simp [Part.isOpen, Bool.or_comm, Bool.or_left_comm]
    | splice form => simp [segments, Part.isOpen, isOpen]

theorem eq_map_element {parts : List Part} (plain : parts.any Part.isSplice = false) :
    ∃ plans : List Quasi, parts = plans.map .element := by
  induction parts with
  | nil => exact ⟨[], rfl⟩
  | cons part parts ih =>
    rw [List.any_cons, Bool.or_eq_false_iff] at plain
    obtain ⟨plans, rfl⟩ := ih plain.2
    cases part with
    | element plan => exact ⟨plan :: plans, rfl⟩
    | splice form => cases plain.1

theorem segments_map_element (pos : Position) (run plans : List Quasi) :
    segments pos run (plans.map .element) =
      if (run.reverse ++ plans).isEmpty then [] else [.call "list" pos (run.reverse ++ plans)] := by
  induction plans generalizing run with
  | nil => simp [segments]
  | cons plan plans ih =>
    rw [List.map_cons, segments, ih]
    simp

theorem join_map_element (pos : Position) (plans : List Quasi) :
    join pos (plans.map .element) none = .call "list" pos plans := by
  simp [join, Part.isSplice, List.filterMap_map, Function.comp_def]

theorem join_map_element_tail (pos : Position) (plans : List Quasi) (tail : Quasi) :
    join pos (plans.map .element) (some tail) = .call "append" pos
      ((if plans.isEmpty then [] else [.call "list" pos plans]) ++ [tail]) := by
  rw [join, segments_map_element, List.reverse_nil, List.nil_append]

theorem isOpen_join (pos : Position) (parts : List Part) (tail : Option Quasi) :
    (join pos parts tail).isOpen = (parts.any Part.isOpen || tail.any isOpen) := by
  cases tail with
  | some tail => simp [join, any_segments]
  | none =>
    cases spliced : parts.any Part.isSplice with
    | true => simp [join, spliced, any_segments, isOpen]
    | false =>
      obtain ⟨plans, rfl⟩ := eq_map_element spliced
      rw [join_map_element, isOpen_call]
      simp [Function.comp_def, Part.isOpen]

def asks (depth : Nat) (datum : Datum) : Bool :=
  match abbreviation? datum, depth with
  | some (_, .quasiquote, _), _ => false
  | some _, 0 => true
  | _, _ => false

theorem isOpen_of_splice {item form : Datum} (spliced : splice? item = some form) :
    (general 0 item).isOpen = true := by
  unfold splice? at spliced
  split at spliced
  · split at spliced
    · rename_i marked
      rw [general_eq]
      simp [expand, abbreviation?, marked, isOpen]
    · cases spliced
  · cases spliced

theorem isOpen_part (depth : Nat) (item : Datum) :
    (Part.of depth item (general depth item)).isOpen = (general depth item).isOpen := by
  unfold Part.of
  split
  · rename_i spliced
    exact (isOpen_of_splice spliced).symm
  · rfl

/-- Something is to be evaluated in a template if it is the template or in one of those that its
plan is made from. -/
theorem isOpen_general (depth : Nat) (d : Datum) : (general depth d).isOpen =
    (asks depth d || (calls depth d).any fun (depth, part) => (general depth part).isOpen) := by
  rw [general_eq]
  cases found : abbreviation? d with
  | some abbreviation =>
    obtain ⟨head, mark, operand⟩ := abbreviation
    cases mark <;> cases depth <;> simp [expand, asks, calls, found, isOpen]
  | none =>
    rw [expand_of_none found]
    simp only [asks, calls, found, List.any_map, Bool.false_or]
    cases d with
    | list xs pos =>
      dsimp only [spread, parts]
      split <;> simp [isOpen_join, isOpen_part, Function.comp_def]
    | dotted xs tail pos | vector xs pos =>
      simp [spread, parts, isOpen_join, isOpen_part, Function.comp_def]
    | atom => rfl

/-! ### What the shortcut overlooks -/

/-- Making the plan comes to a list with an unquoted tail within further quasiquotations, and
something is to be evaluated in the operand at the depth that it has there. -/
inductive Hides : Nat → Datum → Prop where
  | here {depth : Nat} {items front : List Datum} {position : Position} {mark operand : Datum}
      (tail : unquotedTail? items = some (front, mark, operand))
      (opened : (general depth operand).isOpen = true) : Hides (depth + 1) (.list items position)
  | inside {depth depth' : Nat} {datum part : Datum} (member : (depth', part) ∈ calls depth datum)
      (hides : Hides depth' part) : Hides depth datum

theorem abbreviation?_of_tail (tail : unquotedTail? xs = some (front, mark, operand))
    (pos : Position) : abbreviation? (.list xs pos) = none := by
  obtain ⟨rfl, nonempty, -⟩ := unquotedTail?_eq_some tail
  unfold abbreviation?
  split
  · rename_i same
    have length := congrArg List.length (Datum.list.inj same).1
    have positive := List.length_pos_iff.mpr nonempty
    simp only [List.length_append, List.length_cons, List.length_nil] at length
    omega
  · rfl

/-- The operand of an unquoted tail is one level less deep than the list. -/
theorem isOpen_tail (marked : mark.isSymbol unquote = true) (depth : Nat) (operand : Datum)
    (pos : Position) :
    (general (depth + 1) (.list [mark, operand] pos)).isOpen = (general depth operand).isOpen := by
  obtain ⟨place, rfl⟩ : ∃ place, mark = .atom (.symbol unquote) place :=
    Datum.eq_ofSymbol_of_isSymbol marked
  rw [isOpen_general]
  simp [asks, calls, abbreviation?, mark?]

theorem Hides.isOpen (hides : Hides depth d) : (general depth d).isOpen = true := by
  induction hides with
  | @here depth xs front pos mark operand tail opened =>
    obtain ⟨-, -, marked⟩ := unquotedTail?_eq_some tail
    rw [isOpen_general]
    simp only [calls, abbreviation?_of_tail tail, parts, tail, List.any_map, List.any_append]
    simp [isOpen_tail marked, opened]
  | @inside depth depth' d part mem _ ih =>
    rw [isOpen_general, Bool.or_eq_true, List.any_eq_true]
    exact .inr ⟨_, mem, ih⟩

theorem isConstant_list {pos : Position}
    (unmarked : abbreviation? (.list xs pos) = none) (depth : Nat) :
    isConstant depth (.list xs pos) =
      (!(depth == 0 && (unquotedTail? xs).isSome) && xs.all (isConstant depth)) := by
  by_cases short : ∃ name place operand, xs = [.atom (.symbol name) place, operand]
  · obtain ⟨name, place, operand, rfl⟩ := short
    have unnamed : mark? name = none := by simpa [abbreviation?] using unmarked
    rw [isConstant.eq_def]
    simp [unnamed, unquotedTail?, isConstant]
  · rw [isConstant, areConstant_eq_all]
    intro name place operand same
    exact short ⟨name, place, operand, same⟩

/-- In a constant template, what the plan is made from is constant as well, but for an unquoted tail
within further quasiquotations. -/
theorem isConstant_calls (constant : isConstant depth d = true) :
    asks depth d = false ∧ ∀ call ∈ calls depth d, isConstant call.1 call.2 = true ∨
      ∃ depth' xs front pos mark operand, depth = depth' + 1 ∧
        d = .list xs pos ∧ unquotedTail? xs = some (front, mark, operand) ∧
        call = (depth' + 1, .list [mark, operand] mark.position) := by
  cases found : abbreviation? d with
  | some abbreviation =>
    obtain ⟨head, mark, operand⟩ := abbreviation
    obtain ⟨name, _, _, rfl, marked, rfl⟩ := abbreviation?_eq_some found
    rw [isConstant.eq_def] at constant
    cases mark <;> cases depth <;> simp_all [asks, calls]
  | none =>
    refine ⟨by simp [asks, found], ?_⟩
    simp only [calls, found, List.forall_mem_map]
    intro part mem
    cases d with
    | list xs pos =>
      rw [isConstant_list found, Bool.and_eq_true, List.all_eq_true] at constant
      obtain ⟨shallow, each⟩ := constant
      simp only [parts] at mem
      split at mem
      · rename_i front mark operand tail
        obtain ⟨rfl, -, marked⟩ := unquotedTail?_eq_some tail
        rcases List.mem_append.mp mem with early | last
        · exact .inl (each part (List.mem_append_left _ early))
        · rw [List.mem_singleton.mp last]
          cases depth with
          | zero => simp [tail] at shallow
          | succ depth => exact .inr ⟨depth, _, _, _, _, _, rfl, rfl, tail, rfl⟩
      · exact .inl (each part mem)
    | dotted xs tail pos =>
      rw [isConstant, areConstant_eq_all, Bool.and_eq_true, List.all_eq_true] at constant
      rcases List.mem_append.mp mem with early | last
      · exact .inl (constant.1 part early)
      · rw [List.mem_singleton.mp last]
        exact .inl constant.2
    | vector xs pos =>
      rw [isConstant, areConstant_eq_all, List.all_eq_true] at constant
      exact .inl (constant part mem)
    | atom => cases mem

/-- The shortcut overlooks what is to be evaluated where it is hidden, and nothing else. -/
theorem isOpen_iff_hides (constant : isConstant depth d = true) :
    (general depth d).isOpen = true ↔ Hides depth d := by
  refine ⟨fun opened => ?_, Hides.isOpen⟩
  induction weight : d.weight using Nat.strongRecOn generalizing depth d with
  | ind weight ih =>
    obtain ⟨unasked, each⟩ := isConstant_calls constant
    rw [isOpen_general, unasked, Bool.false_or, List.any_eq_true] at opened
    obtain ⟨⟨depth', part⟩, mem, opened⟩ := opened
    rcases each _ mem with constant' | ⟨_, _, _, _, _, _, rfl, rfl, tail, same⟩
    · exact .inside mem (ih _ (weight ▸ weight_lt_of_mem_calls mem) constant' opened rfl)
    · cases same
      obtain ⟨-, -, marked⟩ := unquotedTail?_eq_some tail
      exact .here tail ((isOpen_tail marked ..).symm.trans opened)

end Quasi

end MiniScheme
