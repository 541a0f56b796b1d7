import Mathlib.Data.Set.Finite.List
import Mathlib.Order.OrderIsoNat
import MiniScheme.Proofs.Heap.Limits

/-!
# Proper lists

From a value, the second halves of pairs lead to the empty list, to something else that is no pair,
or round in a circle: there are only finitely many values that pairs and vectors hold. `elements?`
tells the first case from the other two, although all it has is a limit on its steps.
-/

namespace MiniScheme.Heap

open Relation (ReflTransGen TransGen)

variable {heap : Heap} {value v next : Value} {values vals : List Value}

/-- The values that pairs and vectors hold. -/
def held (heap : Heap) : Set Value :=
  ⋃ index : Fin heap.slots.size, {value | value ∈ (heap.parts? (heap.valueAt index)).getD []}

theorem finite_held (heap : Heap) : heap.held.Finite :=
  Set.finite_iUnion fun _ => List.finite_toSet _

theorem mem_held {parts : List Value} (parted : heap.parts? v = some parts) :
    ∀ part ∈ parts, part ∈ heap.held := by
  intro part mem
  obtain ⟨index, place⟩ := exists_valueAt parted
  exact Set.mem_iUnion.mpr ⟨index, by simpa [place, parted] using mem⟩

theorem parts?_of_pair {h : Handle} {car cdr : Value}
    (present : heap.get? h = some (.pair car cdr)) : heap.parts? (.pair h) = some [car, cdr] := by
  rw [parts?, pair?_eq_some_iff.mpr present, Option.map_some]

/-- In an infinite sequence over a finite set something comes again. -/
theorem exists_cycle {α : Type} {leads : α → α → Prop} {sequence : Nat → α} {vals : Set α}
    (finite : vals.Finite) (inside : ∀ n, sequence n ∈ vals)
    (step : ∀ n, leads (sequence n) (sequence (n + 1))) :
    ∃ n, ReflTransGen leads (sequence 0) (sequence n) ∧ TransGen leads (sequence n) (sequence n) := by
  have apart {i j : Nat} (before : i < j) : TransGen leads (sequence i) (sequence j) :=
    Nat.rel_of_forall_rel_succ_of_lt (TransGen leads) (fun n => .single (step n)) before
  obtain ⟨i, j, before, same⟩ := Set.Finite.exists_lt_map_eq_of_forall_mem inside finite
  refine ⟨i, ?_, by simpa only [← same] using apart before⟩
  cases i with
  | zero => exact .refl
  | succ i => exact (apart i.succ_pos).to_reflTransGen

/-- What leads on without end through values of the heap leads round in a circle. -/
theorem exists_cycle_of_endless {leads : Value → Value → Prop}
    (kept : ∀ v next, leads v next → next ∈ heap.held)
    (endless : ¬ Acc (fun next v => leads v next) v) :
    ∃ again, ReflTransGen leads v again ∧ TransGen leads again again := by
  obtain ⟨chain, rfl, step⟩ := not_acc_iff_exists_descending_chain.mp endless
  have inside (n : Nat) : chain n ∈ insert (chain 0) heap.held := by
    cases n with
    | zero => exact Set.mem_insert _ _
    | succ n => exact Set.mem_insert_of_mem _ (kept _ _ (step n))
  obtain ⟨n, before, again⟩ := exists_cycle (heap.finite_held.insert _) inside step
  exact ⟨chain n, before, again⟩

/-! ### Following second halves -/

/-- The value is a pair that has not been reclaimed, with that second half. -/
def Links (heap : Heap) (value next : Value) : Prop :=
  ∃ handle car, value = .pair handle ∧ heap.get? handle = some (.pair car next)

theorem Links.mem_held (links : heap.Links v next) : next ∈ heap.held := by
  obtain ⟨h, car, rfl, present⟩ := links
  exact Heap.mem_held (parts?_of_pair present) next (by simp)

/-- The value leads to a pair that leads to itself. -/
def Cyclic (heap : Heap) (value : Value) : Prop :=
  ∃ again, ReflTransGen heap.Links value again ∧ TransGen heap.Links again again

/-- The value leads to an end that is not the empty list. -/
def Improper (heap : Heap) (value : Value) : Prop :=
  ∃ last, ReflTransGen heap.Links value last ∧ last ≠ .emptyList ∧ ∀ next, ¬ heap.Links last next

theorem spells_or_improper (ends : Acc (fun next v => heap.Links v next) v) :
    (∃ vals, heap.Spells v vals) ∨ heap.Improper v := by
  induction ends with
  | intro v _ ih =>
    by_cases last : ∀ next, ¬ heap.Links v next
    · by_cases empty : v = .emptyList
      · exact .inl ⟨[], empty ▸ .nil⟩
      · exact .inr ⟨v, .refl, empty, last⟩
    · obtain ⟨next, links⟩ := not_forall_not.mp last
      rcases ih next links with ⟨vals, spells⟩ | ⟨last, leads, ends⟩
      · obtain ⟨h, car, rfl, present⟩ := links
        exact .inl ⟨car :: vals, .cons present spells⟩
      · exact .inr ⟨last, .head links leads, ends⟩

namespace Spells

section

variable (spells : heap.Spells v vals)

include spells

/-- What a proper list leads to is a proper list, and a shorter one. -/
theorem of_links (links : heap.Links v next) :
    ∃ rest, heap.Spells next rest ∧ rest.length < vals.length := by
  obtain ⟨h, car, rfl, present⟩ := links
  cases spells with
  | cons present' tail =>
    cases present.symm.trans present'
    exact ⟨_, tail, Nat.lt_succ_self _⟩

theorem of_reflTransGen (leads : ReflTransGen heap.Links v next) :
    ∃ rest, heap.Spells next rest ∧ rest.length ≤ vals.length := by
  induction leads with
  | refl => exact ⟨vals, spells, le_rfl⟩
  | tail _ links ih =>
    obtain ⟨mid, spells, short⟩ := ih
    obtain ⟨rest, spells, shorter⟩ := spells.of_links links
    exact ⟨rest, spells, shorter.le.trans short⟩

theorem not_cyclic : ¬ heap.Cyclic v := by
  rintro ⟨again, leads, cycle⟩
  obtain ⟨rest, spells, -⟩ := spells.of_reflTransGen leads
  obtain ⟨mid, links, leads⟩ := TransGen.head'_iff.mp cycle
  obtain ⟨mid, spells', shorter⟩ := spells.of_links links
  obtain ⟨rest', spells', short⟩ := spells'.of_reflTransGen leads
  exact absurd (congrArg List.length (spells'.unique spells)) (short.trans_lt shorter).ne

theorem not_improper : ¬ heap.Improper v := by
  rintro ⟨last, leads, other, ends⟩
  obtain ⟨rest, spells, -⟩ := spells.of_reflTransGen leads
  cases spells with
  | nil => exact other rfl
  | cons present _ => exact ends _ ⟨_, _, rfl, present⟩

end

end Spells

/-- Exactly the proper lists have elements; circles, ends that are not the empty list and pairs that
have been reclaimed have none, and a higher limit on the steps would make no difference. -/
theorem elements?_exact (heap : Heap) (value : Value) :
    (∀ values, heap.elements? value = some values ↔ heap.Spells value values) ∧
      (heap.elements? value = none ↔ heap.Cyclic value ∨ heap.Improper value) ∧
      ∀ more, heap.walk [] (heap.slots.size + 1 + more) value = heap.elements? value := by
  refine ⟨fun values => elements?_eq_some_iff, ⟨fun none => ?_, fun other => ?_⟩, fun more => ?_⟩
  · by_contra! neither
    have ends : Acc (fun next value => heap.Links value next) value := by
      by_contra endless
      exact neither.1 (exists_cycle_of_endless (fun _ _ => Links.mem_held) endless)
    rcases spells_or_improper ends with ⟨values, spells⟩ | improper
    · cases none.symm.trans (elements?_eq_some_iff.mpr spells)
    · exact neither.2 improper
  · rw [Option.eq_none_iff_forall_ne_some]
    intro values found
    have spells := elements?_eq_some_iff.mp found
    exact other.elim spells.not_cyclic spells.not_improper
  · refine Option.ext fun values => ?_
    rw [elements?_eq_some_iff, walk_eq_some_iff]
    constructor
    · rintro ⟨values, spells, -, rfl⟩
      exact spells
    · exact fun spells => ⟨values, spells, by have := spells.length_le; omega, rfl⟩

end MiniScheme.Heap
