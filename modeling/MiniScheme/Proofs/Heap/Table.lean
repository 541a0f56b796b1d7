import MiniScheme.Heap.Collector
import Mathlib.Data.List.Nodup

/-!
# The slot table

The free list holds exactly the indices of the empty slots, each once. In such a heap the table is
a finite map from handles to objects: allocating adds an entry under a handle that was not in use,
and changing an object in place changes the entry of its handle alone. Everything else about the
heap is stated over this map.
-/

namespace MiniScheme

/-- Places where something is found lie within the table. -/
theorem lt_size {α : Type} {table : Array α} {place : Nat} {e : α}
    (found : table[place]? = some e) : place < table.size :=
  (Array.getElem?_eq_some_iff.mp found).1

namespace Heap

variable {heap : Heap} {h other : Handle} {obj : Object}

/-- The free list holds exactly the indices of the empty slots, each once. -/
structure Consistent (heap : Heap) : Prop where
  free_nodup : heap.free.Nodup
  mem_free_iff (index : Nat) :
    index ∈ heap.free ↔ ∃ slot, heap.slots[index]? = some slot ∧ slot.object = none

theorem get?_eq_some_iff :
    heap.get? h = some obj ↔
      ∃ slot, heap.slots[h.index]? = some slot ∧ slot.generation = h.generation ∧
        slot.object = some obj := by
  unfold get?
  cases heap.slots[h.index]? with
  | none => simp
  | some slot => by_cases same : slot.generation = h.generation <;> simp [same]

theorem isLive_iff : heap.isLive h = true ↔ ∃ obj, heap.get? h = some obj := by
  simp [isLive, Option.isSome_iff_exists]

theorem eq_of_index_eq {first second : Object} (left : heap.get? h = some first)
    (right : heap.get? other = some second) (same : h.index = other.index) : h = other := by
  obtain ⟨slot, found, generation, -⟩ := get?_eq_some_iff.mp left
  obtain ⟨slot', found', generation', -⟩ := get?_eq_some_iff.mp right
  rw [same, found'] at found
  cases found
  cases h
  cases other
  simp_all

/-! ### Allocation -/

section

variable (sane : heap.Consistent) (obj : Object)

include sane

/-- Where an object goes: the first empty slot, or a new one behind all others. -/
theorem alloc_eq :
    (∃ i free slot, heap.free = i :: free ∧ heap.slots[i]? = some slot ∧
        slot.object = none ∧ heap.alloc obj = ({ index := i, generation := slot.generation },
          { slots := heap.slots.setIfInBounds i { slot with object := some obj }
            free, nextStamp := heap.nextStamp })) ∨
      (heap.free = [] ∧ heap.alloc obj = ({ index := heap.slots.size, generation := 0 },
        { slots := heap.slots.push { object := some obj }
          free := [], nextStamp := heap.nextStamp })) := by
  obtain ⟨slots, free, nextStamp⟩ := heap
  cases free with
  | nil => exact Or.inr ⟨rfl, rfl⟩
  | cons i free =>
    obtain ⟨slot, found, empty⟩ := (sane.mem_free_iff i).mp (by simp)
    refine Or.inl ⟨i, free, slot, rfl, found, empty, ?_⟩
    simp only at found
    simp [alloc, found]

theorem get?_alloc_fresh : heap.get? (heap.alloc obj).1 = none := by
  rcases alloc_eq sane obj with ⟨i, free, slot, -, found, empty, eq⟩ | ⟨-, eq⟩
  · simp [eq, get?, found, empty]
  · simp [eq, get?]

/-- Allocating adds the new object and leaves all others alone. -/
theorem get?_alloc (other : Handle) :
    (heap.alloc obj).2.get? other =
      if other = (heap.alloc obj).1 then some obj else heap.get? other := by
  obtain ⟨place, generation⟩ := other
  rcases alloc_eq sane obj with ⟨i, free, slot, -, found, empty, eq⟩ | ⟨-, eq⟩
  · have bound := lt_size found
    rw [eq]
    by_cases here : place = i
    · subst here
      have before : heap.get? { index := place, generation } = none := by
        simp [get?, found, empty]
      rw [before]
      simp [get?, bound, eq_comm]
    · simp [get?, here, Ne.symm here]
  · rw [eq]
    by_cases here : place = heap.slots.size
    · subst here
      simp [get?, eq_comm]
    · simp [get?, here, Array.getElem?_push]

theorem get?_alloc_self : (heap.alloc obj).2.get? (heap.alloc obj).1 = some obj := by
  simp [get?_alloc sane]

/-- Objects stay where they are when another one is allocated. -/
theorem get?_alloc_of_live {present : Object} (live : heap.get? other = some present) :
    (heap.alloc obj).2.get? other = some present := by
  rw [get?_alloc sane, if_neg, live]
  rintro rfl
  simp [get?_alloc_fresh sane] at live

theorem Consistent.alloc : (heap.alloc obj).2.Consistent := by
  rcases alloc_eq sane obj with
    ⟨i, free, slot, free_eq, found, empty, eq⟩ | ⟨free_eq, eq⟩
  · have nodup := sane.free_nodup
    rw [free_eq, List.nodup_cons] at nodup
    have bound := lt_size found
    rw [eq]
    refine ⟨nodup.2, fun place => ?_⟩
    have known := sane.mem_free_iff place
    rw [free_eq, List.mem_cons] at known
    by_cases here : place = i
    · subst here
      simp [nodup.1, bound]
    · simp only [here, false_or] at known
      simpa [Array.getElem?_setIfInBounds, Ne.symm here] using known
  · rw [eq]
    refine ⟨List.nodup_nil, fun place => ?_⟩
    have known := sane.mem_free_iff place
    rw [free_eq] at known
    by_cases here : place = heap.slots.size
    · subst here
      simp
    · simpa [Array.getElem?_push, here] using known

end

/-! ### Changes in place -/

/-- Changing an object changes what its handle refers to and nothing else. -/
theorem get?_modify (heap : Heap) (h : Handle) (change : Object → Object) (other : Handle) :
    (heap.modify h change).get? other =
      if other = h then (heap.get? other).map change else heap.get? other := by
  obtain ⟨place, generation⟩ := other
  obtain ⟨i, current⟩ := h
  by_cases here : place = i
  · subst here
    cases found : heap.slots[place]? with
    | none => simp [modify, get?, Array.getElem?_modify, found]
    | some slot =>
      by_cases same : slot.generation = current
      · subst same
        by_cases mine : generation = slot.generation <;>
          simp [modify, get?, Array.getElem?_modify, found, mine, eq_comm]
      · by_cases mine : generation = current <;>
          simp [modify, get?, Array.getElem?_modify, found, same, mine]
  · simp [modify, get?, Array.getElem?_modify, here, Ne.symm here]

@[simp] theorem free_modify (heap : Heap) (h : Handle) (change : Object → Object) :
    (heap.modify h change).free = heap.free := rfl

theorem Consistent.modify (sane : heap.Consistent) (h : Handle)
    (change : Object → Object) : (heap.modify h change).Consistent := by
  refine ⟨sane.free_nodup, fun i => ?_⟩
  rw [free_modify, sane.mem_free_iff]
  by_cases here : h.index = i
  · cases found : heap.slots[i]? with
    | none => simp [Heap.modify, Array.getElem?_modify, here, found]
    | some slot =>
      by_cases same : slot.generation = h.generation <;>
        simp [Heap.modify, Array.getElem?_modify, here, found, same]
  · simp [Heap.modify, Array.getElem?_modify, here]

theorem Consistent.stamp (sane : heap.Consistent) (stamp : Stamp) :
    Consistent { heap with nextStamp := stamp } :=
  ⟨sane.free_nodup, sane.mem_free_iff⟩

theorem consistent_empty : Consistent {} :=
  ⟨List.nodup_nil, by simp⟩

/-! ### Objects of a kind -/

theorem pair?_eq_some_iff {car cdr : Value} :
    heap.pair? h = some (car, cdr) ↔ heap.get? h = some (.pair car cdr) := by
  unfold pair?
  split <;> simp_all

theorem vector?_eq_some_iff {xs : Array Value} :
    heap.vector? h = some xs ↔ heap.get? h = some (.vector xs) := by
  unfold vector?
  split <;> simp_all

theorem closure?_eq_some_iff {lam : Lambda} {parent : Option Handle} :
    heap.closure? h = some (lam, parent) ↔ heap.get? h = some (.closure lam parent) := by
  unfold closure?
  split <;> simp_all

theorem slots?_eq_some_iff {slots : Array Value} :
    heap.slots? h = some slots ↔ ∃ proc, heap.get? h = some (.invocation proc slots) := by
  unfold slots?
  split <;> simp_all

theorem continuation?_eq_some_iff {snapshot : Snapshot} :
    heap.continuation? h = some snapshot ↔ heap.get? h = some (.continuation snapshot) := by
  unfold continuation?
  split <;> simp_all

end Heap

end MiniScheme
