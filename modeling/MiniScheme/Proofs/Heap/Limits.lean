import MiniScheme.Proofs.Heap.Collection
import MiniScheme.Value.Equality
import Mathlib.Data.Fintype.EquivFin
import Mathlib.Data.Fintype.Quotient

/-!
# Limits that do not matter

Walking down a list and comparing two structures are limited by the number of slots, so that they
come to an end on structures with cycles. Here is what they find without mention of the limits: a
proper list has no more pairs than there are slots, and values that are equal within any number of
levels are so within that number.

The latter does not follow from how deep structures without cycles are, since structures with cycles
can be equal where they share a part. Values of the same shape up to some level fall into classes, and
where a further level makes a difference there are fewer classes. Atoms do not matter for this, so
nothing has to be known of how they are compared.
-/

namespace MiniScheme.Heap

variable {heap : Heap} {left mid right : Value} {levels : Nat} {h : Handle}
  {v : Value} {lefts rights : List Value}

/-! ### Proper lists -/

/-- The value is a chain of pairs with some elements and what comes behind them. -/
inductive Chains (heap : Heap) (last : Value) : Value → List Value → Prop where
  | nil : Chains heap last last []
  | cons {handle : Handle} {car cdr : Value} {rest : List Value}
      (held : heap.get? handle = some (.pair car cdr)) (tail : Chains heap last cdr rest) :
      Chains heap last (.pair handle) (car :: rest)

namespace Chains

variable {last v : Value} {vals vals' : List Value} (ends : ∀ h, last ≠ .pair h)
include ends

theorem unique (chains : heap.Chains last v vals) (chains' : heap.Chains last v vals') :
    vals = vals' := by
  induction chains generalizing vals' with
  | nil =>
    cases chains' with
    | nil => rfl
    | cons => exact absurd rfl (ends _)
  | cons held _ ih =>
    cases chains' with
    | nil => exact absurd rfl (ends _)
    | cons held' tail =>
      cases held.symm.trans held'
      rw [ih tail]

theorem exists_indices (chains : heap.Chains last v vals) :
    ∃ indices : List Nat, indices.length = vals.length ∧ indices.Nodup ∧ ∀ i ∈ indices,
      ∃ h car cdr rest, h.index = i ∧ heap.get? h = some (.pair car cdr) ∧
        heap.Chains last cdr rest ∧ rest.length < vals.length := by
  induction chains with
  | nil => exact ⟨[], rfl, List.nodup_nil, nofun⟩
  | @cons h car cdr rest held tail ih =>
    obtain ⟨indices, length, nodup, each⟩ := ih
    refine ⟨h.index :: indices, by simp [length], List.nodup_cons.mpr ⟨?_, nodup⟩, ?_⟩
    · -- a pair that comes again would start chains of different lengths
      intro mem
      obtain ⟨h', _, _, rest', same, held', again, shorter⟩ := each _ mem
      obtain rfl := eq_of_index_eq held' held same
      cases held.symm.trans held'
      exact absurd (congrArg List.length (again.unique ends tail)) shorter.ne
    · rw [List.forall_mem_cons]
      refine ⟨⟨h, car, cdr, rest, rfl, held, tail, Nat.lt_succ_self _⟩, fun i mem => ?_⟩
      obtain ⟨h', car', cdr', rest', same, held', again, shorter⟩ := each i mem
      exact ⟨h', car', cdr', rest', same, held', again, Nat.lt_succ_of_lt shorter⟩

theorem length_le (chains : heap.Chains last v vals) : vals.length ≤ heap.slots.size := by
  obtain ⟨indices, length, nodup, each⟩ := chains.exists_indices ends
  have inside : indices ⊆ List.range heap.slots.size := by
    intro i mem
    obtain ⟨h, _, _, _, rfl, held, -⟩ := each i mem
    obtain ⟨slot, found, -⟩ := get?_eq_some_iff.mp held
    exact List.mem_range.mpr (lt_size found)
  have few := (List.subperm_of_subset nodup inside).length_le
  rwa [List.length_range, length] at few

end Chains

/-- The value is the proper list of some elements. -/
inductive Spells (heap : Heap) : Value → List Value → Prop where
  | nil : Spells heap .emptyList []
  | cons {handle : Handle} {car cdr : Value} {rest : List Value}
      (held : heap.get? handle = some (.pair car cdr)) (tail : Spells heap cdr rest) :
      Spells heap (.pair handle) (car :: rest)

theorem spells_iff {vals : List Value} : heap.Spells v vals ↔ heap.Chains .emptyList v vals := by
  constructor
  · intro spells
    induction spells with
    | nil => exact .nil
    | cons held _ ih => exact .cons held ih
  · intro chains
    induction chains with
    | nil => exact .nil
    | cons held _ ih => exact .cons held ih

theorem Spells.unique {vals vals' : List Value} (spells : heap.Spells v vals)
    (spells' : heap.Spells v vals') : vals = vals' :=
  (spells_iff.mp spells).unique (by simp) (spells_iff.mp spells')

theorem Spells.length_le {vals : List Value} (spells : heap.Spells v vals) :
    vals.length ≤ heap.slots.size :=
  (spells_iff.mp spells).length_le (by simp)

theorem walk_eq_some_iff {gathered res : List Value} {steps : Nat} :
    heap.walk gathered steps v = some res ↔ ∃ vals, heap.Spells v vals ∧ vals.length < steps ∧
        res = gathered.reverse ++ vals := by
  induction steps generalizing gathered v with
  | zero => simp [walk]
  | succ steps ih =>
    cases v
    case emptyList =>
      rw [walk]
      constructor
      · intro found
        exact ⟨[], .nil, Nat.succ_pos steps, by simpa using (Option.some.inj found).symm⟩
      · rintro ⟨vals, spells, -, rfl⟩
        cases spells
        simp
    case pair h =>
      rw [walk]
      cases held : heap.pair? h with
      | some halves =>
        obtain ⟨car, cdr⟩ := halves
        rw [pair?_eq_some_iff] at held
        refine ih.trans ?_
        constructor
        · rintro ⟨vals, spells, bound, rfl⟩
          exact ⟨car :: vals, .cons held spells, Nat.succ_lt_succ bound, by simp⟩
        · rintro ⟨vals, spells, bound, rfl⟩
          cases spells with
          | cons held' tail =>
            cases held.symm.trans held'
            exact ⟨_, tail, Nat.lt_of_succ_lt_succ bound, by simp⟩
      | none =>
        simp only [reduceCtorEq, false_iff, not_exists, not_and]
        intro vals spells
        cases spells with
        | cons held' _ => cases held.symm.trans (pair?_eq_some_iff.mpr held')
    all_goals
      simp only [walk, reduceCtorEq, false_iff, not_exists, not_and]
      intro vals spells
      cases spells

/-- The limit on a walk never decides whether a value is a proper list. -/
theorem elements?_eq_some_iff {vals : List Value} :
    heap.elements? v = some vals ↔ heap.Spells v vals := by
  rw [elements?, walk_eq_some_iff]
  constructor
  · rintro ⟨vals, spells, -, rfl⟩
    exact spells
  · intro spells
    exact ⟨vals, spells, Nat.lt_succ_of_le spells.length_le, rfl⟩

/-! ### Comparisons -/

def EqualWithin (heap : Heap) : Nat → Value → Value → Prop
  | 0, left, right => heap.verdict left right = .equal
  | levels + 1, left, right => heap.verdict left right = .equal ∨
      ∃ lefts rights, heap.verdict left right = .parts lefts rights ∧
        List.Forall₂ (heap.EqualWithin levels) lefts rights

/-- The parts of a value that a comparison goes into. -/
def parts? (heap : Heap) : Value → Option (List Value)
  | .pair handle => (heap.pair? handle).map fun (car, cdr) => [car, cdr]
  | .vector handle => (heap.vector? handle).map Array.toList
  | _ => none

/-- Parts are compared one by one, and only if the values are not the same. -/
theorem parts_of_verdict (verdict_eq : heap.verdict left right = .parts lefts rights) :
    heap.parts? left = some lefts ∧ heap.parts? right = some rights ∧
      lefts.length = rights.length ∧ left ≠ right := by
  have distinct : left ≠ right := by
    rintro rfl
    unfold verdict at verdict_eq
    split at verdict_eq
    · cases verdict_eq
    · rename_i different
      cases left with
      | pair | vector => exact different (by simp [Value.eqv])
      | _ => first | cases verdict_eq | (simp only at verdict_eq; split at verdict_eq <;> cases verdict_eq)
  unfold verdict at verdict_eq
  repeat' split at verdict_eq
  all_goals first
    | contradiction
    | skip
  all_goals cases verdict_eq
  · rename_i held held' same
    exact ⟨by simp [parts?, held], by simp [parts?, held'], by simpa using same, distinct⟩
  · rename_i held held'
    exact ⟨by simp [parts?, held], by simp [parts?, held'], rfl, distinct⟩

theorem equalWithin_of_equal (same : heap.verdict left right = .equal) (levels : Nat) :
    heap.EqualWithin levels left right := by
  cases levels with
  | zero => exact same
  | succ => exact .inl same

theorem allEqual_iff (pending : List Comparison) : heap.allEqual pending = true ↔
    ∀ comparison ∈ pending,
      heap.EqualWithin comparison.levels comparison.left comparison.right := by
  fun_induction heap.allEqual pending with
  | case1 => simp
  | case2 levels left right rest same ih =>
    rw [ih, List.forall_mem_cons]
    exact (and_iff_right (equalWithin_of_equal same levels)).symm
  | case3 levels left right rest different =>
    simp only [Bool.false_eq_true, List.forall_mem_cons, false_iff, not_and]
    intro within
    cases levels with
    | zero => cases within.symm.trans different
    | succ levels =>
      rcases within with same | ⟨lefts, rights, parted, -⟩
      · cases same.symm.trans different
      · cases parted.symm.trans different
  | case4 left right rest lefts rights parted =>
    simp only [Bool.false_eq_true, List.forall_mem_cons, false_iff, not_and]
    intro within
    cases within.symm.trans parted
  | case5 left right rest lefts rights parted levels ih =>
    have whole : heap.EqualWithin (levels + 1) left right ↔
        List.Forall₂ (heap.EqualWithin levels) lefts rights := by
      simp [EqualWithin, parted]
    have each : (∀ comparison ∈ comparisons levels lefts rights,
        heap.EqualWithin comparison.levels comparison.left comparison.right) ↔
          List.Forall₂ (heap.EqualWithin levels) lefts rights := by
      rw [List.forall₂_iff_zip, and_iff_right (parts_of_verdict parted).2.2.1]
      simp only [comparisons, ← List.map_uncurry_zip_eq_zipWith, List.mem_map,
        forall_exists_index, and_imp, Prod.forall]
      constructor
      · intro met left right mem
        exact met _ left right mem rfl
      · rintro met _ left right mem rfl
        exact met mem
    rw [ih, List.forall_mem_append, List.forall_mem_cons, whole, each]

/-! ### The shape of values -/

def Shaped (heap : Heap) : Nat → Value → Value → Prop
  | 0, left, right => left = right ∨ heap.parts? left = none ∧ heap.parts? right = none
  | levels + 1, left, right => left = right ∨
      heap.parts? left = none ∧ heap.parts? right = none ∨
      ∃ lefts rights, heap.parts? left = some lefts ∧ heap.parts? right = some rights ∧
        List.Forall₂ (heap.Shaped levels) lefts rights

/-- Relating lists item by item is transitive if relating their items is. -/
theorem forall₂_trans {related : Value → Value → Prop}
    (chain : ∀ left mid right, related left mid → related mid right →
      related left right) {middles : List Value} (first : List.Forall₂ related lefts middles)
    (second : List.Forall₂ related middles rights) : List.Forall₂ related lefts rights := by
  induction first generalizing rights with
  | nil => exact second
  | cons head _ ih =>
    cases second with
    | cons head' tail => exact .cons (chain _ _ _ head head') (ih tail)

namespace Shaped

theorem refl (levels : Nat) (v : Value) : heap.Shaped levels v v := by
  cases levels <;> exact .inl rfl

theorem symm (shaped : heap.Shaped levels left right) : heap.Shaped levels right left := by
  induction levels generalizing left right with
  | zero => exact shaped.imp Eq.symm And.symm
  | succ levels ih =>
    refine shaped.imp Eq.symm (Or.imp And.symm ?_)
    rintro ⟨lefts, rights, parted, parted', each⟩
    exact ⟨rights, lefts, parted', parted, (each.imp fun _ _ => ih).flip⟩

theorem trans (first : heap.Shaped levels left mid) (second : heap.Shaped levels mid right) :
    heap.Shaped levels left right := by
  induction levels generalizing left mid right with
  | zero =>
    rcases first with rfl | ⟨none_left, none_middle⟩
    · exact second
    · rcases second with rfl | ⟨-, none_right⟩
      · exact .inr ⟨none_left, none_middle⟩
      · exact .inr ⟨none_left, none_right⟩
  | succ levels ih =>
    rcases first with rfl | ⟨none_left, none_middle⟩ | ⟨lefts, middles, parted, parted', each⟩
    · exact second
    · rcases second with rfl | ⟨-, none_right⟩ | ⟨_, _, parted, -⟩
      · exact .inr (.inl ⟨none_left, none_middle⟩)
      · exact .inr (.inl ⟨none_left, none_right⟩)
      · cases none_middle.symm.trans parted
    · rcases second with rfl | ⟨none_middle, -⟩ | ⟨middles', rights, parted'', parted''', each'⟩
      · exact .inr (.inr ⟨lefts, middles, parted, parted', each⟩)
      · cases none_middle.symm.trans parted'
      · cases Option.some.inj (parted'.symm.trans parted'')
        refine .inr (.inr ⟨lefts, rights, parted, parted''', ?_⟩)
        refine forall₂_trans ?_ each each'
        exact fun _ _ _ => ih

theorem succ (shaped : heap.Shaped levels left right) : heap.Shaped (levels + 1) left right := by
  induction levels generalizing left right with
  | zero => exact shaped.imp_right .inl
  | succ levels ih =>
    refine shaped.imp_right (Or.imp_right ?_)
    rintro ⟨lefts, rights, parted, parted', each⟩
    exact ⟨lefts, rights, parted, parted', each.imp fun _ _ => ih⟩

end Shaped

/-- The value that refers to the pair or vector in a slot. -/
def valueAt (heap : Heap) (index : Nat) : Value :=
  match heap.slots[index]? with
  | some { generation, object := some (.pair _ _) } => .pair { index, generation }
  | some { generation, object := some (.vector _) } => .vector { index, generation }
  | _ => .unspecified

theorem exists_valueAt {parts : List Value} (parted : heap.parts? left = some parts) :
    ∃ i : Fin heap.slots.size, heap.valueAt i = left := by
  unfold parts? at parted
  split at parted
  case h_1 h =>
    obtain ⟨⟨car, cdr⟩, found, -⟩ := Option.map_eq_some_iff.mp parted
    obtain ⟨⟨_, _⟩, there, rfl, rfl⟩ := get?_eq_some_iff.mp (pair?_eq_some_iff.mp found)
    exact ⟨⟨h.index, lt_size there⟩, by simp [valueAt, there]⟩
  case h_2 h =>
    obtain ⟨xs, found, -⟩ := Option.map_eq_some_iff.mp parted
    obtain ⟨⟨_, _⟩, there, rfl, rfl⟩ := get?_eq_some_iff.mp (vector?_eq_some_iff.mp found)
    exact ⟨⟨h.index, lt_size there⟩, by simp [valueAt, there]⟩
  case h_3 => cases parted

def shapes (heap : Heap) (levels : Nat) : Setoid (Fin heap.slots.size) where
  r left right := heap.Shaped levels (heap.valueAt left) (heap.valueAt right)
  iseqv := ⟨fun _ => .refl _ _, .symm, .trans⟩

open Classical in
/-- Where a further level makes a difference, there are fewer shapes. -/
theorem card_shapes_succ_lt (shaped : heap.Shaped (levels + 1) left right)
    (unshaped : ¬ heap.Shaped levels left right) :
    Fintype.card (Quotient (heap.shapes (levels + 1))) <
      Fintype.card (Quotient (heap.shapes levels)) := by
  have parts : (∃ lefts, heap.parts? left = some lefts) ∧
      ∃ rights, heap.parts? right = some rights := by
    rcases shaped with rfl | bare | ⟨lefts, rights, parted, parted', -⟩
    · exact absurd (.refl _ _) unshaped
    · cases levels with
      | zero => exact absurd (.inr bare) unshaped
      | succ => exact absurd (.inr (.inl bare)) unshaped
    · exact ⟨⟨lefts, parted⟩, rights, parted'⟩
  obtain ⟨⟨_, parted⟩, _, parted'⟩ := parts
  obtain ⟨i, rfl⟩ := exists_valueAt parted
  obtain ⟨i', rfl⟩ := exists_valueAt parted'
  refine Fintype.card_lt_of_surjective_not_injective
    (Quotient.map id fun _ _ (same : heap.Shaped _ _ _) => same.succ) ?_ ?_
  · exact fun shape => shape.inductionOn fun i => ⟨Quotient.mk _ i, rfl⟩
  · intro injective
    exact unshaped (Quotient.exact (injective
      (Quotient.sound shaped : Quotient.map id _ (Quotient.mk _ i) =
        Quotient.map id _ (Quotient.mk _ i'))))

theorem exists_unshaped (shaped : heap.Shaped (levels + 2) left right)
    (unshaped : ¬ heap.Shaped (levels + 1) left right) :
    ∃ left right, heap.Shaped (levels + 1) left right ∧ ¬ heap.Shaped levels left right := by
  rcases shaped with rfl | bare | ⟨lefts, rights, parted, parted', each⟩
  · exact absurd (.refl _ _) unshaped
  · exact absurd (.inr (.inl bare)) unshaped
  · by_contra! none
    exact unshaped (.inr (.inr ⟨lefts, rights, parted, parted', each.imp (none · ·)⟩))

open Classical in
/-- A difference at some level makes for differences at all levels before. -/
theorem card_shapes_add_le (shaped : heap.Shaped (levels + 1) left right)
    (unshaped : ¬ heap.Shaped levels left right) :
    Fintype.card (Quotient (heap.shapes (levels + 1))) + (levels + 1) ≤ heap.slots.size := by
  have fewer := card_shapes_succ_lt shaped unshaped
  induction levels generalizing left right with
  | zero =>
    have := Fintype.card_quotient_le (heap.shapes 0)
    rw [Fintype.card_fin] at this
    omega
  | succ levels ih =>
    obtain ⟨left, right, shaped, unshaped⟩ := exists_unshaped shaped unshaped
    have := ih shaped unshaped (card_shapes_succ_lt shaped unshaped)
    omega

theorem Shaped.add (shaped : heap.Shaped levels left right) (more : Nat) :
    heap.Shaped (levels + more) left right := by
  induction more with
  | zero => exact shaped
  | succ more ih => exact ih.succ

/-- As many levels as there are slots show all of a shape. -/
theorem Shaped.within_size (shaped : heap.Shaped levels left right) :
    heap.Shaped heap.slots.size left right := by
  rcases Nat.le_total levels heap.slots.size with enough | more
  · rw [← Nat.add_sub_cancel' enough]
    exact shaped.add _
  · induction levels, more using Nat.le_induction with
    | base => exact shaped
    | succ levels more ih =>
      refine ih (by_contra fun unshaped => ?_)
      have := card_shapes_add_le shaped unshaped
      omega

/-! ### What is found equal -/

/-- What is equal at first sight is the same, or has no parts. -/
theorem same_of_equal (eq : heap.verdict left right = .equal) :
    left = right ∨ heap.parts? left = none ∧ heap.parts? right = none := by
  unfold verdict at eq
  split at eq
  · rename_i same
    unfold Value.eqv at same
    split at same <;> simp_all [parts?]
  · repeat' split at eq
    all_goals simp_all [parts?]

theorem EqualWithin.shaped (within : heap.EqualWithin levels left right) :
    heap.Shaped levels left right := by
  induction levels generalizing left right with
  | zero => exact same_of_equal within
  | succ levels ih =>
    rcases within with eq | ⟨lefts, rights, parted, each⟩
    · exact (same_of_equal eq).imp_right .inl
    · obtain ⟨parted, parted', -⟩ := parts_of_verdict parted
      exact .inr (.inr ⟨lefts, rights, parted, parted', each.imp fun _ _ => ih⟩)

/-- Values that are equal within some number of levels are so within as many as their shape has. -/
theorem EqualWithin.of_shaped {levels' : Nat} (within : heap.EqualWithin levels left right)
    (shaped : heap.Shaped levels' left right) : heap.EqualWithin levels' left right := by
  induction levels' generalizing levels left right with
  | zero =>
    cases levels with
    | zero => exact within
    | succ levels =>
      rcases within with eq | ⟨lefts, rights, parted, -⟩
      · exact eq
      · obtain ⟨parted, -, -, distinct⟩ := parts_of_verdict parted
        rcases shaped with same | ⟨bare, -⟩
        · exact absurd same distinct
        · cases bare.symm.trans parted
  | succ levels' ih =>
    cases levels with
    | zero => exact .inl within
    | succ levels =>
      rcases within with eq | ⟨lefts, rights, parting, each⟩
      · exact .inl eq
      · obtain ⟨parted, parted', -, distinct⟩ := parts_of_verdict parting
        rcases shaped with same | ⟨bare, -⟩ | ⟨lefts', rights', found, found', each'⟩
        · exact absurd same distinct
        · cases bare.symm.trans parted
        · cases Option.some.inj (parted.symm.trans found)
          cases Option.some.inj (parted'.symm.trans found')
          refine .inr ⟨lefts, rights, parting, ?_⟩
          rw [List.forall₂_iff_zip] at each each' ⊢
          exact ⟨each.1, fun mem => ih (each.2 mem) (each'.2 mem)⟩

/-- The limit on the levels of a comparison never decides it: values are equal if some number of
levels shows them to be. -/
theorem equal_iff : heap.equal left right = true ↔ ∃ levels, heap.EqualWithin levels left right := by
  simp only [equal, allEqual_iff, List.forall_mem_singleton]
  constructor
  · exact fun within => ⟨_, within⟩
  · rintro ⟨levels, within⟩
    exact within.of_shaped within.shaped.within_size.succ

/-- Values are equal if they are at first sight or if their parts are. -/
theorem equal_iff_parts : heap.equal left right = true ↔ heap.verdict left right = .equal ∨
    ∃ lefts rights, heap.verdict left right = .parts lefts rights ∧
      List.Forall₂ (heap.equal · · = true) lefts rights := by
  constructor
  · intro eq
    obtain ⟨levels, within⟩ := equal_iff.mp eq
    cases levels with
    | zero => exact .inl within
    | succ levels =>
      refine within.imp_right ?_
      rintro ⟨lefts, rights, parted, each⟩
      exact ⟨lefts, rights, parted, each.imp fun _ _ within => equal_iff.mpr ⟨levels, within⟩⟩
  · rintro (eq | ⟨lefts, rights, parted, each⟩)
    · exact equal_iff.mpr ⟨0, eq⟩
    · refine equal_iff.mpr ⟨heap.slots.size + 1, .inr ⟨lefts, rights, parted, each.imp ?_⟩⟩
      intro left right eq
      obtain ⟨levels, within⟩ := equal_iff.mp eq
      exact within.of_shaped within.shaped.within_size

end MiniScheme.Heap
