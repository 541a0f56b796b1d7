import MiniScheme.Proofs.Rule.Groups

/-!
# Matching and instantiating are inverse

A rule that replaces what its pattern matched by the pattern itself gives back the form it was
applied to. The proof follows how the pattern was read: the template made from the same datum has
the variables at the same places and the ellipses over the same groups, so instantiating it with
what a match bound walks through the form again, repetition by repetition.
-/

namespace MiniScheme

namespace Datum

variable {copy : Datum} {pos : Position} {xs copies : List Datum}

theorem eq_atom_of_unplaced {v : Atom} (copies : copy.unplaced = (Datum.atom v pos).unplaced) :
    ∃ there, copy = .atom v there := by
  cases copy with
  | atom other there => cases copies; exact ⟨there, rfl⟩
  | list | dotted | vector => cases copies

theorem eq_list_of_unplaced (copies : copy.unplaced = (Datum.list xs pos).unplaced) :
    ∃ others there, copy = .list others there ∧ unplacedItems others = unplacedItems xs := by
  cases copy with
  | list others there =>
    simp only [unplaced, Datum.list.injEq, and_true] at copies
    exact ⟨others, there, rfl, copies⟩
  | atom | dotted | vector => cases copies

theorem eq_dotted_of_unplaced {tail : Datum}
    (copies : copy.unplaced = (Datum.dotted xs tail pos).unplaced) :
    ∃ others last there, copy = .dotted others last there ∧
      unplacedItems others = unplacedItems xs ∧ last.unplaced = tail.unplaced := by
  cases copy with
  | dotted others last there =>
    simp only [unplaced, Datum.dotted.injEq, and_true] at copies
    exact ⟨others, last, there, rfl, copies⟩
  | atom | list | vector => cases copies

theorem eq_vector_of_unplaced (copies : copy.unplaced = (Datum.vector xs pos).unplaced) :
    ∃ others there, copy = .vector others there ∧ unplacedItems others = unplacedItems xs := by
  cases copy with
  | vector others there =>
    simp only [unplaced, Datum.vector.injEq, and_true] at copies
    exact ⟨others, there, rfl, copies⟩
  | atom | list | dotted => cases copies

theorem eq_nil_of_unplacedItems (same : unplacedItems copies = unplacedItems []) : copies = [] := by
  cases copies with
  | nil => rfl
  | cons => cases same

theorem eq_cons_of_unplacedItems {item : Datum}
    (same : unplacedItems copies = unplacedItems (item :: xs)) :
    ∃ copy others, copies = copy :: others ∧ copy.unplaced = item.unplaced ∧
      unplacedItems others = unplacedItems xs := by
  cases copies with
  | nil => cases same
  | cons copy others =>
    simp only [unplacedItems, List.cons.injEq] at same
    exact ⟨copy, others, rfl, same⟩

end Datum

namespace Template

theorem isMark_of_unplaced {copy d : Datum} (copies : copy.unplaced = d.unplaced) :
    isMark false copy = d.isSymbol ellipsis := by
  rw [isMark, Datum.isSymbol_eq_of_unplaced copies, Bool.not_false, Bool.true_and]

variable {items xs : List Datum} {bindings : Bindings} {start width : Nat} {rows : List (List Match)}

theorem head_any_isMark (unmarked : xs.takeWhile (isMark false) = []) :
    xs.head?.any (isMark false) = false := by
  cases xs with
  | nil => rfl
  | cons item xs =>
    rw [List.takeWhile_cons] at unmarked
    split at unmarked
    · cases unmarked
    · exact eq_false_of_ne_true ‹_›

section

variable {vars : PatternVariables} {depth : Nat} {xs : List Datum} {pos : Position}
  {template : Template}

/-- A list that does not start with an ellipsis is read item by item. -/
theorem ofDatum_list (unmarked : xs.takeWhile (isMark false) = [])
    (read : ofDatum vars depth false (.list xs pos) = .ok template) :
    ∃ elems, ofItems vars depth false false xs = .ok elems ∧ template = .list elems none := by
  have inside : ofDatum vars depth false (.list xs pos) =
      (do return .list (← ofItems vars depth false false xs) none) := by
    have head := head_any_isMark unmarked
    -- A list of two items has a clause of its own, for `(... template)`.
    by_cases pair : ∃ first inner, xs = [first, inner]
    · obtain ⟨first, inner, rfl⟩ := pair
      rw [ofDatum, if_neg (by simpa using head)]
    · rw [ofDatum, if_neg (by rw [head]; exact Bool.false_ne_true)]
      exact fun first inner eq => pair ⟨first, inner, eq⟩
  obtain ⟨elems, found, done⟩ := Except.bind_ok (inside ▸ read)
  cases done
  exact ⟨elems, found, rfl⟩

theorem ofDatum_dotted {tail : Datum} (unmarked : xs.takeWhile (isMark false) = [])
    (read : ofDatum vars depth false (.dotted xs tail pos) = .ok template) :
    ∃ elems last, ofItems vars depth false false xs = .ok elems ∧
      ofDatum vars depth false tail = .ok last ∧ template = .list elems (some last) := by
  rw [ofDatum, if_neg (by rw [head_any_isMark unmarked]; exact Bool.false_ne_true)] at read
  obtain ⟨elems, inside, read⟩ := Except.bind_ok read
  obtain ⟨last, behind, done⟩ := Except.bind_ok read
  cases done
  exact ⟨elems, last, inside, behind, rfl⟩

theorem ofDatum_vector (unmarked : xs.takeWhile (isMark false) = [])
    (read : ofDatum vars depth false (.vector xs pos) = .ok template) :
    ∃ elems, ofItems vars depth false false xs = .ok elems ∧ template = .vector elems := by
  rw [ofDatum, if_neg (by rw [head_any_isMark unmarked]; exact Bool.false_ne_true)] at read
  obtain ⟨elems, inside, done⟩ := Except.bind_ok read
  cases done
  exact ⟨elems, inside, rfl⟩

end

/-- An element is read with the ellipses behind it, and then what follows. -/
theorem ofItems_cons {vars : PatternVariables} {depth : Nat} {skip : Bool} {item : Datum}
    {elems : List Subtemplate} (unmarked : isMark false item = false)
    (read : ofItems vars depth false skip (item :: xs) = .ok elems) :
    ∃ groups template others,
      drivers vars item depth (xs.takeWhile (isMark false)).length = .ok groups ∧
      ofDatum vars (depth + (xs.takeWhile (isMark false)).length) false item = .ok template ∧
      ofItems vars depth false true xs = .ok others ∧ elems = .mk template groups :: others := by
  rw [ofItems, unmarked, Bool.and_false, if_neg Bool.false_ne_true] at read
  obtain ⟨groups, driven, read⟩ := Except.bind_ok read
  obtain ⟨template, inside, read⟩ := Except.bind_ok read
  obtain ⟨others, behind, done⟩ := Except.bind_ok read
  cases done
  exact ⟨groups, template, others, driven, inside, behind, rfl⟩

/-- Focusing on a repetition gives its variables what it bound them to. -/
theorem carries_focus {repetition : Nat} {row : List Match}
    (even : ∀ row ∈ rows, row.length = width)
    (carries : Carries bindings start ((Match.columns width rows).map some))
    (there : rows[repetition]? = some row) :
    Carries (bindings.focus { start, count := width } repetition) start (row.map some) := by
  intro i e found
  rw [List.getElem?_map] at found
  obtain ⟨bound, is_bound, rfl⟩ := Option.map_eq_some_iff.mp found
  have inside : i < width := by
    rw [← even row (List.mem_of_getElem? there)]
    exact (List.getElem?_eq_some_iff.mp is_bound).1
  have column := carries i _ (by rw [List.getElem?_map, Match.getElem?_columns even inside]; rfl)
  rw [Bindings.focus, List.getElem?_mapIdx, column, Option.map_some, if_pos (by simpa using inside)]
  have picked := Match.getElem?_filterMap_row (fun row mem => even row mem ▸ inside) there
  exact congrArg some (picked.trans is_bound)

theorem mapM_range' {make : Nat → Except CompileError (List Datum)} {forms : List Datum}
    (start : Nat) (each : ∀ i form, forms[i]? = some form →
      ∃ res, make (start + i) = .ok [res] ∧ form.Alike res) :
    ∃ parts, (List.range' start forms.length).mapM make = .ok parts ∧
      Datum.AlikeItems forms parts.flatten := by
  induction forms generalizing start with
  | nil => exact ⟨[], rfl, .nil⟩
  | cons form forms ih =>
    obtain ⟨res, made, alike⟩ := each 0 form rfl
    obtain ⟨parts, others, alikes⟩ := ih (start + 1) fun i form there => by
      rw [Nat.add_assoc, Nat.add_comm 1]
      exact each (i + 1) form there
    refine ⟨[res] :: parts, ?_, .cons alike alikes⟩
    rw [Nat.add_zero] at made
    rw [List.length_cons, List.range'_succ, List.mapM_cons, made, others]
    rfl

/-- An ellipsis repeats its element for every repetition that was matched, in their order. -/
theorem repeatOver_columns {make : Bindings → Except CompileError Datum} {forms : List Datum}
    {pos : Position} (wide : 0 < width) (even : ∀ row ∈ rows, row.length = width)
    (carries : Carries bindings start ((Match.columns width rows).map some))
    (each : List.Forall₂ (fun form row => ∀ focused, Carries focused start (row.map some) →
      ∃ res, make focused = .ok res ∧ form.Alike res) forms rows) :
    ∃ results, repeatOver pos make [{ start, count := width }] bindings = .ok results ∧
      Datum.AlikeItems forms results := by
  have column : bindings[start]? = some (some (.sequence (rows.filterMap (·[0]?)))) :=
    carries 0 _ (by rw [List.getElem?_map, Match.getElem?_columns even wide]; rfl)
  have n : (rows.filterMap (·[0]?)).length = forms.length := by
    rw [Match.length_filterMap_row fun row mem => even row mem ▸ wide, each.length_eq]
  have focused : ∀ i form, forms[i]? = some form → ∃ res,
      repeatOver pos make [] (bindings.focus { start, count := width } (0 + i)) =
        .ok [res] ∧ form.Alike res := by
    intro i form there
    obtain ⟨bound, rfl⟩ := List.getElem?_eq_some_iff.mp there
    have row_bound : i < rows.length := each.length_eq ▸ bound
    obtain ⟨res, made, alike⟩ := each.get bound row_bound _
      (carries_focus even carries (List.getElem?_eq_getElem row_bound))
    rw [Nat.zero_add, repeatOver]
    exact ⟨res, congrArg (· >>= fun made => pure [made]) made, alike⟩
  obtain ⟨parts, made, alike⟩ := @mapM_range' (fun repetition => repeatOver pos make []
    (bindings.focus { start, count := width } repetition)) forms 0 focused
  refine ⟨parts.flatten, ?_, alike⟩
  rw [repeatOver, column]
  simp only [n, List.range_eq_range', made]
  rfl

end Template

namespace Pattern

section

variable {vars : PatternVariables}

variable {start : Nat} {new : PatternVariables} {outer : List Group}

/-- The items of a template made from those of a pattern do not start with an ellipsis. -/
theorem ReadsItems.takeWhile_isMark {xs copies : List Datum} {front back : List Pattern}
    {repeated : Option Repetition} (reads : ReadsItems NoneInert start xs front repeated back new)
    (same : Datum.unplacedItems copies = Datum.unplacedItems xs) :
    copies.takeWhile (Template.isMark false) = [] := by
  cases xs with
  | nil => rw [Datum.eq_nil_of_unplacedItems same]; rfl
  | cons item xs =>
    obtain ⟨copy, others, rfl, copies, -⟩ := Datum.eq_cons_of_unplacedItems same
    rw [List.takeWhile_cons, Template.isMark_of_unplaced copies, reads.unmarked]
    rfl

/-- A variable is known by its name, with the ellipses around it. -/
theorem placed_name {name : String} (clear : vars.Clear)
    (placed : Carries vars start (List.map (.under outer) [{ name := name }])) :
    vars.place? name = some start ∧ vars.groups start = outer := by
  have there : vars[start]? = some ({ name := name, groups := outer } : PatternVariable) := by
    simpa [PatternVariable.under] using placed 0 _ rfl
  exact ⟨clear.place? there, by rw [PatternVariables.groups, there]⟩

mutual

/-- The variables of a pattern are those of the template made from the same datum. -/
theorem Reads.places {outer : List Group} {start : Nat} {d copy : Datum} {pattern : Pattern}
    {new : PatternVariables} (reads : Reads NoneInert start d pattern new) (clear : vars.Clear)
    (placed : Carries vars start (new.map (.under outer))) (copies : copy.unplaced = d.unplaced) :
    Template.places vars copy = List.range' start new.length := by
  cases reads with
  | inert known => exact known.elim
  | constant nameless =>
    obtain ⟨there, rfl⟩ := Datum.eq_atom_of_unplaced copies
    rw [Template.places]
    · rfl
    · exact nameless
  | «variable» unmarked =>
    obtain ⟨there, rfl⟩ := Datum.eq_atom_of_unplaced copies
    rw [Template.places, (placed_name clear placed).1]
    rfl
  | list inside =>
    obtain ⟨others, there, rfl, same⟩ := Datum.eq_list_of_unplaced copies
    rw [Template.places, inside.itemPlaces clear placed same]
  | dotted inside behind =>
    obtain ⟨others, last, there, rfl, same, copies⟩ := Datum.eq_dotted_of_unplaced copies
    rw [List.map_append, carries_append, List.length_map] at placed
    rw [Template.places, inside.itemPlaces clear placed.1 same, behind.places clear placed.2 copies,
      List.range'_append_1, List.length_append]
  | vector inside =>
    obtain ⟨others, there, rfl, same⟩ := Datum.eq_vector_of_unplaced copies
    rw [Template.places, inside.itemPlaces clear placed same]

/-- The variables of a run of patterns are those of the templates made from the same data. -/
theorem ReadsItems.itemPlaces {outer : List Group} {start : Nat} {xs copies : List Datum}
    {front back : List Pattern} {repeated : Option Repetition} {new : PatternVariables}
    (reads : ReadsItems NoneInert start xs front repeated back new) (clear : vars.Clear)
    (placed : Carries vars start (new.map (.under outer)))
    (same : Datum.unplacedItems copies = Datum.unplacedItems xs) :
    Template.itemPlaces vars copies = List.range' start new.length := by
  cases reads with
  | nil => rw [Datum.eq_nil_of_unplacedItems same]; rfl
  | cons first others =>
    obtain ⟨copy, rest, rfl, copies, same⟩ := Datum.eq_cons_of_unplacedItems same
    rw [List.map_append, carries_append, List.length_map] at placed
    rw [Template.itemPlaces, first.places clear placed.1 copies,
      others.itemPlaces clear placed.2 same, List.range'_append_1, List.length_append]
  | repeated first marked others =>
    obtain ⟨copy, rest, rfl, copies, same⟩ := Datum.eq_cons_of_unplacedItems same
    obtain ⟨mark, rest, rfl, marks, behind⟩ := Datum.eq_cons_of_unplacedItems same
    rw [List.map_append, PatternVariable.map_under_under, carries_append, List.length_map] at placed
    obtain ⟨there, rfl⟩ := Datum.eq_ofSymbol_of_isSymbol
      ((Datum.isSymbol_eq_of_unplaced marks ellipsis).trans marked)
    have nowhere : vars.place? ellipsis = none :=
      PatternVariables.place?_eq_none_iff.mpr clear.unmarked
    rw [Template.itemPlaces, Template.itemPlaces, Datum.ofSymbol, Template.places, nowhere,
      first.places clear placed.1 copies, others.itemPlaces clear placed.2 behind, Option.toList_none,
      List.nil_append, List.range'_append_1, List.length_append, List.length_map]

end

/-- An ellipsis of the template is driven by the group of its counterpart in the pattern, which has
a variable. -/
theorem Reads.drivers {item copy : Datum} {pattern : Pattern}
    (reads : Reads NoneInert start item pattern new)
    (clear : vars.Clear) (placed : Carries vars start
      (new.map (.under (outer ++ [{ start, count := new.length }]))))
    (copies : copy.unplaced = item.unplaced) {groups : List Group}
    (driven : Template.drivers vars copy outer.length 1 = .ok groups) :
    groups = [{ start, count := new.length }] ∧ 0 < new.length := by
  rw [Template.drivers, reads.places clear placed copies] at driven
  obtain ⟨group, found, done⟩ := Except.bind_ok driven
  cases new with
  | nil => cases found
  | cons e others =>
    have there := placed 0 _ rfl
    have drives : Template.driver? vars (List.range' start (e :: others).length) outer.length =
        some { start, count := (e :: others).length } := by
      rw [Template.driver?, List.length_cons, List.range'_succ, List.findSome?_cons,
        PatternVariables.groups, show vars[start]? = _ from there]
      simp [PatternVariable.under]
    simp only [drives] at found
    cases found
    cases done
    exact ⟨rfl, Nat.zero_lt_succ _⟩

end

section

variable (meaning? : String → Option Identity) (position : Position) (start : Nat)

def Restores (pattern : Pattern) (template : Template) : Prop :=
  ∀ bindings form bound, bindings? meaning? pattern form = some bound → form.NormalForm →
    Carries bindings start (bound.map some) →
    ∃ result, template.instantiate position bindings = .ok result ∧ form.Alike result

def RestoresItems (front : List Pattern) (repeated : Option Repetition) (back : List Pattern)
    (elements : List Subtemplate) : Prop :=
  ∀ bindings forms bound, Spans meaning? front repeated back forms bound →
    Datum.NormalItems forms → Carries bindings start (bound.map some) →
    ∃ results, Template.instantiateAll position elements bindings = .ok results ∧
      Datum.AlikeItems forms results

def RestoresShape (shape : Shape) (template : Template) : Prop :=
  ∀ bindings (form : Datum) items tail here bound, form.Splits items tail →
    shapeBindings? meaning? shape items tail here = some bound → form.NormalForm →
    Carries bindings start (bound.map some) →
    ∃ result, template.instantiate position bindings = .ok result ∧ form.Alike result

end

section

variable {meaning? : String → Option Identity} {pos : Position} {start width : Nat}
  {pattern rest : Pattern} {template last : Template} {front back : List Pattern}
  {repeated : Option Repetition} {elems : List Subtemplate}

theorem restores_of_restoresShape {shape : Shape}
    (inside : RestoresShape meaning? pos start shape template) :
    Restores meaning? pos start (.list shape) template := by
  intro bindings form bound matched normal carries
  obtain ⟨xs, tail, parts, matched⟩ := bindings?_list matched
  exact inside bindings form xs tail _ bound (Datum.splits_of_elements? parts) matched normal
    carries

theorem restoresShape_list (inside : RestoresItems meaning? pos start front repeated back elems) :
    RestoresShape meaning? pos start (.mk front repeated back none) (.list elems none) := by
  intro bindings form xs tail here bound splits matched normal carries
  obtain ⟨taken, left, first, last, rfl, rfl, spans, behind, closed, -⟩ :=
    spans_of_shapeBindings? matched
  obtain ⟨rfl, rfl⟩ := restBindings?_none behind
  obtain rfl := closed rfl
  rw [List.append_nil] at splits carries
  obtain ⟨results, made, alike⟩ := inside bindings taken first spans (splits.normalItems normal)
    carries
  rw [Template.instantiate, made]
  cases splits with
  | list => exact ⟨_, rfl, .list alike⟩

theorem restoresShape_dotted (inside : RestoresItems meaning? pos start front repeated back elems)
    (even : ∀ forms bound, Spans meaning? front repeated back forms bound → bound.length = width)
    (behind : Restores meaning? pos (start + width) rest last) :
    RestoresShape meaning? pos start (.mk front repeated back (some rest))
      (.list elems (some last)) := by
  intro bindings form xs tail here bound splits matched normal carries
  obtain ⟨taken, left, first, second, rfl, rfl, spans, remainder, -⟩ :=
    spans_of_shapeBindings? matched
  rw [restBindings?] at remainder
  rw [List.map_append, carries_append, List.length_map, even taken first spans] at carries
  obtain ⟨results, made, alike⟩ := inside bindings taken first spans
    (Datum.normalItems_append.mp (splits.normalItems normal)).1 carries.1
  obtain ⟨res, made_tail, alike_tail⟩ := behind bindings _ second remainder
    (splits.normalForm_left normal here here) carries.2
  rw [Template.instantiate, made, made_tail]
  exact ⟨_, rfl, splits.alike_withTail normal alike alike_tail pos⟩

/-- Without items in front, the pattern behind the dot matches the whole datum. -/
theorem restoresShape_tail (behind : Restores meaning? pos start rest template) :
    RestoresShape meaning? pos start (.mk [] none [] (some rest)) template := by
  intro bindings form xs tail here bound splits matched normal carries
  obtain ⟨taken, left, first, second, rfl, rfl, spans, remainder, -⟩ :=
    spans_of_shapeBindings? matched
  cases spans
  rw [restBindings?] at remainder
  obtain ⟨res, made, alike⟩ := behind bindings _ second remainder
    (splits.normalForm_left normal here here) carries
  exact ⟨res, made, splits.alike_withTail normal .nil alike pos⟩

theorem restores_vector (inside : RestoresItems meaning? pos start front repeated back elems) :
    Restores meaning? pos start (.vector (.mk front repeated back none)) (.vector elems) := by
  intro bindings form bound matched normal carries
  obtain ⟨xs, here, rfl, matched⟩ := bindings?_vector matched
  obtain ⟨taken, left, first, last, rfl, rfl, spans, behind, -⟩ := spans_of_shapeBindings? matched
  obtain ⟨rfl, rfl⟩ := restBindings?_none behind
  rw [List.append_nil] at carries normal ⊢
  cases normal with
  | vector items_normal =>
    obtain ⟨results, made, alike⟩ := inside bindings taken first spans items_normal carries
    rw [Template.instantiate, made]
    exact ⟨_, rfl, .vector alike⟩

theorem restoresItems_cons (first : Restores meaning? pos start pattern template)
    (even : ∀ form bound, bindings? meaning? pattern form = some bound → bound.length = width)
    (others : RestoresItems meaning? pos (start + width) front repeated back elems) :
    RestoresItems meaning? pos start (pattern :: front) repeated back
      (.mk template [] :: elems) := by
  intro bindings forms bound spans normal carries
  cases spans with
  | cons matched spans =>
    cases normal with
    | cons item_normal items_normal =>
      rw [List.map_append, carries_append, List.length_map, even _ _ matched] at carries
      obtain ⟨res, made, alike⟩ := first bindings _ _ matched item_normal carries.1
      obtain ⟨results, made_others, alikes⟩ := others bindings _ _ spans items_normal carries.2
      rw [Template.instantiateAll, Template.repeatOver, made, made_others]
      exact ⟨_, rfl, .cons alike alikes⟩

theorem restoresItems_repeated (wide : 0 < width)
    (first : Restores meaning? pos start pattern template)
    (even : ∀ form bound, bindings? meaning? pattern form = some bound → bound.length = width)
    (others : RestoresItems meaning? pos (start + width) back none [] elems) :
    RestoresItems meaning? pos start [] (some (.mk pattern width)) back
      (.mk template [{ start, count := width }] :: elems) := by
  intro bindings forms bound spans normal carries
  cases spans with
  | @repeated _ _ repeats others_forms _ _ under spans =>
    obtain ⟨rows, matched, rfl⟩ := rows_of_repetitionBindings? under
    have lengths := forall_mem_right matched even
    obtain ⟨repeats_normal, others_normal⟩ := Datum.normalItems_append.mp normal
    rw [List.map_append, carries_append, List.length_map, Match.length_columns lengths] at carries
    have each := (List.forall₂_and_left _ _).mpr ⟨Datum.normalItems_iff.mp repeats_normal, matched⟩
    obtain ⟨results, made, alike⟩ := Template.repeatOver_columns wide lengths carries.1
      (each.imp fun form row found focused => first focused form row found.2 found.1)
    obtain ⟨more, made_others, alikes⟩ := others bindings _ _ spans others_normal carries.2
    rw [Template.instantiateAll, made, made_others]
    exact ⟨_, rfl, alike.append alikes⟩

mutual

/-- The template made from the datum of a pattern restores what the pattern matches. -/
theorem Reads.restores {vars : PatternVariables} {outer : List Group} {start : Nat}
    {d copy : Datum} {pattern : Pattern} {new : PatternVariables}
    (reads : Reads NoneInert start d pattern new) (clear : vars.Clear)
    (placed : Carries vars start (new.map (.under outer)))
    (copies : copy.unplaced = d.unplaced) {template : Template}
    (read : Template.ofDatum vars outer.length false copy = .ok template) :
    Restores meaning? pos start pattern template := by
  cases reads with
  | inert known => exact known.elim
  | constant nameless =>
    obtain ⟨there, rfl⟩ := Datum.eq_atom_of_unplaced copies
    rw [Template.ofDatum] at read
    · cases read
      intro bindings form bound matched normal carries
      obtain ⟨other, here, rfl, eq, rfl⟩ := bindings?_constant matched
      exact ⟨_, rfl, .atom (.inr eq)⟩
    · exact nameless
  | «variable» unmarked =>
    obtain ⟨there, rfl⟩ := Datum.eq_atom_of_unplaced copies
    obtain ⟨known, groups⟩ := placed_name clear placed
    simp only [Template.ofDatum, known, groups, Nat.le_refl, if_true] at read
    cases read
    intro bindings form bound matched normal carries
    rw [bindings?] at matched
    cases matched
    have there : bindings[start]? = some (some (.single form)) := carries 0 _ rfl
    rw [Template.instantiate, there]
    exact ⟨form, rfl, .refl form⟩
  | list inside =>
    obtain ⟨others, there, rfl, same⟩ := Datum.eq_list_of_unplaced copies
    obtain ⟨elems, read_items, rfl⟩ := Template.ofDatum_list (inside.takeWhile_isMark same) read
    exact restores_of_restoresShape
      (restoresShape_list (inside.restores clear placed same read_items))
  | dotted inside behind =>
    obtain ⟨others, ending, there, rfl, same, copies⟩ := Datum.eq_dotted_of_unplaced copies
    obtain ⟨elems, last, read_items, read_last, rfl⟩ :=
      Template.ofDatum_dotted (inside.takeWhile_isMark same) read
    rw [List.map_append, carries_append, List.length_map] at placed
    exact restores_of_restoresShape (restoresShape_dotted
      (inside.restores clear placed.1 same read_items) (fun _ _ => inside.length_spans)
      (behind.restores clear placed.2 copies read_last))
  | vector inside =>
    obtain ⟨others, there, rfl, same⟩ := Datum.eq_vector_of_unplaced copies
    obtain ⟨elems, read_items, rfl⟩ := Template.ofDatum_vector (inside.takeWhile_isMark same) read
    exact restores_vector (inside.restores clear placed same read_items)

/-- The templates made from the items of a pattern restore the items that the pattern matches. -/
theorem ReadsItems.restores {vars : PatternVariables} {outer : List Group} {start : Nat}
    {xs copies : List Datum} {front back : List Pattern} {repeated : Option Repetition}
    {new : PatternVariables} (reads : ReadsItems NoneInert start xs front repeated back new)
    (clear : vars.Clear) (placed : Carries vars start (new.map (.under outer)))
    (same : Datum.unplacedItems copies = Datum.unplacedItems xs) {skip : Bool}
    {elems : List Subtemplate}
    (read : Template.ofItems vars outer.length false skip copies = .ok elems) :
    RestoresItems meaning? pos start front repeated back elems := by
  cases reads with
  | nil =>
    rw [Datum.eq_nil_of_unplacedItems same, Template.ofItems] at read
    cases read
    intro bindings forms bound spans normal carries
    cases spans
    exact ⟨[], rfl, .nil⟩
  | cons first others =>
    obtain ⟨copy, rest, rfl, copies, same⟩ := Datum.eq_cons_of_unplacedItems same
    rw [List.map_append, carries_append, List.length_map] at placed
    obtain ⟨groups, template, rest_elements, driven, read_first, read_others, rfl⟩ :=
      Template.ofItems_cons (Template.isMark_of_unplaced copies ▸ first.unmarked) read
    rw [others.takeWhile_isMark same] at driven read_first
    cases driven
    exact restoresItems_cons (first.restores clear placed.1 copies read_first)
      (fun _ _ => first.length_bindings?) (others.restores clear placed.2 same read_others)
  | repeated first marked others =>
    obtain ⟨copy, rest, rfl, copies, same⟩ := Datum.eq_cons_of_unplacedItems same
    obtain ⟨mark, rest, rfl, marks, behind⟩ := Datum.eq_cons_of_unplacedItems same
    rw [List.map_append, PatternVariable.map_under_under, carries_append, List.length_map] at placed
    have is_mark : Template.isMark false mark = true :=
      (Template.isMark_of_unplaced marks).trans marked
    have one_mark : (mark :: rest).takeWhile (Template.isMark false) = [mark] := by
      rw [List.takeWhile_cons, is_mark, if_pos rfl, others.takeWhile_isMark behind]
    obtain ⟨groups, template, rest_elements, driven, read_first, read_others, rfl⟩ :=
      Template.ofItems_cons (Template.isMark_of_unplaced copies ▸ first.unmarked) read
    rw [one_mark] at driven read_first
    obtain ⟨rfl, wide⟩ := first.drivers clear placed.1 copies driven
    rw [Template.ofItems, is_mark, Bool.and_self, if_pos rfl] at read_others
    exact restoresItems_repeated wide
      (first.restores clear placed.1 copies (by rwa [List.length_append]))
      (fun _ _ => first.length_bindings?) (others.restores clear placed.2 behind read_others)

end

end

end Pattern

namespace Datum

/-- `(syntax-rules () ((_ . pattern) pattern))` -/
def identityRules (pattern : Datum) : Datum :=
  .list [ofSymbol "syntax-rules" {}, .list [] {},
    .list [withTail [ofSymbol wildcard {}] pattern {}, pattern] {}] {}

/-- A copy of a list with one more item in front has a copy of the rest behind it. -/
theorem splits_of_unplaced_withTail {copy item d : Datum}
    (copies : copy.unplaced = (withTail [item] d {}).unplaced) :
    ∃ first xs tail rest, copy.elements? = some (first :: xs, tail) ∧
      Splits rest xs tail ∧ rest.unplaced = d.unplaced := by
  cases d with
  | list xs pos =>
    obtain ⟨others, there, rfl, same⟩ := eq_list_of_unplaced copies
    obtain ⟨first, others, rfl, -, behind⟩ := eq_cons_of_unplacedItems same
    exact ⟨first, others, none, .list others {}, rfl, .list, congrArg (Datum.list · {}) behind⟩
  | dotted xs tail pos =>
    obtain ⟨others, last, there, rfl, same, ends⟩ := eq_dotted_of_unplaced copies
    obtain ⟨first, others, rfl, -, behind⟩ := eq_cons_of_unplacedItems same
    exact ⟨first, others, some last, .dotted others last {}, rfl, .dotted,
      congrArg₂ (Datum.dotted · · {}) behind ends⟩
  | atom | vector =>
    obtain ⟨others, last, there, rfl, same, ends⟩ := eq_dotted_of_unplaced copies
    obtain ⟨first, others, rfl, -, behind⟩ := eq_cons_of_unplacedItems same
    obtain rfl := eq_nil_of_unplacedItems behind
    refine ⟨first, [], _, last, rfl, .tail ?_, ends⟩
    cases last with
    | atom | vector => rfl
    | list | dotted => cases ends

end Datum

namespace Rule

variable {left right first rest : Datum} {xs : List Datum} {tail : Option Datum} {rule : Rule}

theorem carries_under_nil (vars : PatternVariables) : Carries vars 0 (vars.map (.under [])) := by
  have same : vars.map (.under []) = vars := List.map_id vars
  exact same.symm ▸ carries_self vars

/-- A rule whose two sides are copies of one datum restores what it matches. -/
theorem restoresShape_ofDatum (here : Position)
    (parts : left.elements? = some (first :: xs, tail)) (splits : rest.Splits xs tail)
    (plain : rest.mentions wildcard = false) (copies : right.unplaced = rest.unplaced)
    (read : Rule.ofDatum [] (.list [left, right] here) = .ok rule) :
    ∃ shape, rule.pattern = .arguments shape ∧ ∀ meaning? pos,
      Pattern.RestoresShape meaning? pos 0 shape rule.template := by
  simp only [Rule.ofDatum, Datum.list?, parts] at read
  obtain ⟨⟨⟨front, repeated, back⟩, vars⟩, read_items, read_rest⟩ := Except.bind_ok read
  cases splits with
  | list =>
    obtain ⟨_, got, read_rest⟩ := Except.bind_ok read_rest
    cases got
    obtain ⟨template, read_template, done⟩ := Except.bind_ok read_rest
    cases done
    obtain ⟨new, rfl, clear, inside⟩ := Pattern.reads_ofItems xs .nil
      (Pattern.noneInert_of_plain plain) read_items
    obtain ⟨others, there, rfl, same⟩ := Datum.eq_list_of_unplaced copies
    obtain ⟨elems, read_elements, rfl⟩ :=
      Template.ofDatum_list (inside.takeWhile_isMark same) read_template
    exact ⟨_, rfl, fun _ _ => Pattern.restoresShape_list
      (inside.restores clear (carries_under_nil vars) same read_elements)⟩
  | @dotted _ ending =>
    obtain ⟨⟨pattern, after⟩, read_tail, read_rest⟩ := Except.bind_ok read_rest
    obtain ⟨_, got, read_rest⟩ := Except.bind_ok read_rest
    cases got
    obtain ⟨template, read_template, done⟩ := Except.bind_ok read_rest
    cases done
    rw [Datum.mentions, Bool.or_eq_false_iff] at plain
    obtain ⟨new, rfl, clear, inside⟩ := Pattern.reads_ofItems xs .nil
      (Pattern.noneInert_of_plain plain.1) read_items
    obtain ⟨more, rfl, clear, behind⟩ := Pattern.reads_ofDatum ending clear
      (Pattern.noneInert_of_plain plain.2) read_tail
    obtain ⟨others, last, there, rfl, same, ends⟩ := Datum.eq_dotted_of_unplaced copies
    obtain ⟨elems, final, read_elements, read_last, rfl⟩ :=
      Template.ofDatum_dotted (inside.takeWhile_isMark same) read_template
    have placed := carries_under_nil (vars ++ more)
    rw [List.map_append, carries_append, List.length_map] at placed
    rw [← Nat.zero_add vars.length] at behind
    exact ⟨_, rfl, fun _ _ => Pattern.restoresShape_dotted
      (inside.restores clear placed.1 same read_elements) (fun _ _ => inside.length_spans)
      (behind.restores clear placed.2 ends read_last)⟩
  | tail atomic =>
    obtain ⟨⟨pattern, after⟩, read_tail, read_rest⟩ := Except.bind_ok read_rest
    obtain ⟨_, got, read_rest⟩ := Except.bind_ok read_rest
    cases got
    obtain ⟨template, read_template, done⟩ := Except.bind_ok read_rest
    cases done
    cases read_items
    obtain ⟨new, rfl, clear, inside⟩ := Pattern.reads_ofDatum rest .nil
      (Pattern.noneInert_of_plain plain) read_tail
    exact ⟨_, rfl, fun _ _ => Pattern.restoresShape_tail
      (inside.restores clear (carries_under_nil _) copies read_template)⟩

end Rule

namespace TransformerKind

variable {defined? used? : String → Option Identity} {spec pattern : Datum} {kind : TransformerKind}

/-- The transformer that replaces what its pattern matched by the pattern has one rule. -/
theorem rules_of_identityRules (described : spec.unplaced = (Datum.identityRules pattern).unplaced)
    (accepted : TransformerKind.ofDatum defined? spec = .ok kind) :
    ∃ left right here rule, left.unplaced =
        (Datum.withTail [.ofSymbol wildcard {}] pattern {}).unplaced ∧
      right.unplaced = pattern.unplaced ∧ Rule.ofDatum [] (.list [left, right] here) = .ok rule ∧
      kind = .rules [rule] := by
  obtain ⟨parts, there, rfl, same⟩ := Datum.eq_list_of_unplaced described
  obtain ⟨keyword, parts, rfl, names, same_parts⟩ := Datum.eq_cons_of_unplacedItems same
  obtain ⟨literals, parts, rfl, undeclared, same_rules⟩ := Datum.eq_cons_of_unplacedItems same_parts
  obtain ⟨rule, rules, rfl, sides, same_end⟩ := Datum.eq_cons_of_unplacedItems same_rules
  obtain rfl := Datum.eq_nil_of_unplacedItems same_end
  obtain ⟨_, rfl⟩ := Datum.eq_atom_of_unplaced names
  obtain ⟨declared, _, rfl, same_declared⟩ := Datum.eq_list_of_unplaced undeclared
  obtain rfl := Datum.eq_nil_of_unplacedItems same_declared
  obtain ⟨sides, here, rfl, same_sides⟩ := Datum.eq_list_of_unplaced sides
  obtain ⟨left, sides, rfl, copies, same_right⟩ := Datum.eq_cons_of_unplacedItems same_sides
  obtain ⟨right, sides, rfl, copies_right, same_none⟩ := Datum.eq_cons_of_unplacedItems same_right
  obtain rfl := Datum.eq_nil_of_unplacedItems same_none
  change (do return .rules (← [Datum.list [left, right] here].mapM (Rule.ofDatum []))) =
    Except.ok kind at accepted
  obtain ⟨rules, read, done⟩ := Except.bind_ok accepted
  cases done
  rw [List.mapM_cons] at read
  obtain ⟨rule, read_rule, done⟩ := Except.bind_ok read
  cases done
  exact ⟨left, right, here, rule, copies, copies_right, read_rule, rfl⟩

/-- Matching and instantiating are inverse: a use of the transformer
`(syntax-rules () ((_ . pattern) pattern))` is replaced by its arguments, if they match. -/
theorem expand_identityRules {head arguments : Datum}
    (described : spec.unplaced = (Datum.identityRules pattern).unplaced)
    (plain : pattern.mentions wildcard = false)
    (accepted : TransformerKind.ofDatum defined? spec = .ok kind)
    (normal : arguments.NormalForm) (position : Position) :
    (∃ result, kind.expand used? (.withTail [head] arguments position) = .ok result ∧
      arguments.Alike result ∧
      (arguments.same arguments = true → arguments.same result = true)) ∨
    ∃ error, kind.expand used? (.withTail [head] arguments position) = .error error ∧
      error.fault.message = "No matching syntax rule." ∧ error.position = position := by
  obtain ⟨left, right, here, rule, copies, copies_right, read, rfl⟩ :=
    rules_of_identityRules described accepted
  obtain ⟨first, items, tail, rest, parts, splits, same⟩ :=
    Datum.splits_of_unplaced_withTail copies
  have plain_rest : rest.mentions wildcard = false := by
    rw [← Datum.mentions_unplaced, same, Datum.mentions_unplaced, plain]
  obtain ⟨shape, is_shape, restores⟩ := Rule.restoresShape_ofDatum here parts splits plain_rest
    (copies_right.trans same.symm) read
  obtain ⟨uses, ending, use_parts, use_splits⟩ :=
    Datum.elements?_withTail_singleton head arguments position
  have here : (Datum.withTail [head] arguments position).position = position := by
    cases arguments <;> rfl
  simp only [expand, List.findSome?_cons, List.findSome?_nil, Rule.expand?, Rule.bindings?, is_shape,
    use_parts, here]
  cases matched : Pattern.shapeBindings? used? shape uses ending position with
  | none => exact .inr ⟨_, rfl, rfl, rfl⟩
  | some bound =>
    obtain ⟨result, made, alike⟩ := restores used? position (bound.map some) arguments uses ending
      position bound use_splits matched normal (carries_self _)
    exact .inl ⟨result, made, alike, alike.same⟩

/-- Nested ellipses and a dotted rest: `((key value ...) ... . rest)` and
`((a 1 2) (b) (c #t) . d)`. -/
theorem expand_identityRules_nested :
    let symbol := fun name => Datum.ofSymbol name {}
    let pattern := Datum.dotted
      [.list [symbol "key", symbol "value", symbol "..."] {}, symbol "..."] (symbol "rest") {}
    let arguments := Datum.dotted
      [.list [symbol "a", .atom (.integer 1) {}, .atom (.integer 2) {}] {}, .list [symbol "b"] {},
        .list [symbol "c", .atom (.boolean true) {}] {}] (symbol "d") {}
    ∃ kind result, TransformerKind.ofDatum (fun _ => none) (Datum.identityRules pattern) = .ok kind ∧
      kind.expand (fun _ => none) (.withTail [symbol "m"] arguments {}) = .ok result ∧
      arguments.Alike result := by
  intro symbol pattern arguments
  have answer : (match TransformerKind.ofDatum (fun _ => none) (Datum.identityRules pattern) with
      | .ok kind => (kind.expand (fun _ => none) (.withTail [symbol "m"] arguments {})).isOk
      | .error _ => false) = true := by
    decide +kernel
  have normal : arguments.NormalForm :=
    .dotted (.cons (.list (.cons (.atom _ _) (.cons (.atom _ _) (.cons (.atom _ _) .nil))))
      (.cons (.list (.cons (.atom _ _) .nil)) (.cons (.list (.cons (.atom _ _) (.cons (.atom _ _)
      .nil))) .nil))) (.atom _ _) nofun rfl
  split at answer
  · rename_i kind accepted
    rcases expand_identityRules rfl (by decide) accepted normal {} with
      ⟨result, found, alike, -⟩ | ⟨error, found, -⟩
    · exact ⟨kind, result, accepted, found, alike⟩
    · rw [found] at answer
      cases answer
  · cases answer

end TransformerKind

end MiniScheme
