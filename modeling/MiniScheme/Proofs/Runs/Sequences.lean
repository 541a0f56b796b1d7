import Mathlib.Data.List.Forall2

/-!
# Sequences step by step

Steps that may fail succeed one by one. A function that may fail maps a list to another if it maps
each item to its counterpart.
-/

namespace MiniScheme

/-- What the first of two steps answered, and then the second. -/
theorem Except.bind_ok {ε α β : Type} {first : Except ε α} {next : α → Except ε β} {res : β}
    (done : (first >>= next) = .ok res) : ∃ mid, first = .ok mid ∧ next mid = .ok res := by
  cases first with
  | error error => cases done
  | ok mid => exact ⟨mid, rfl, done⟩

variable {α β : Type} {inputs : List α} {outputs : List β}

theorem mapM_eq_some_iff {make : α → Option β} : inputs.mapM make = some outputs ↔
    List.Forall₂ (fun input output => make input = some output) inputs outputs := by
  induction inputs generalizing outputs with
  | nil => cases outputs <;> simp
  | cons input inputs ih => cases outputs <;> simp [List.mapM_cons, Option.bind_eq_some_iff, ih]

theorem exists_of_mem_mapM {ε : Type} {make : α → Except ε β} (made : inputs.mapM make = .ok outputs) :
    ∀ output ∈ outputs, ∃ input ∈ inputs, make input = .ok output := by
  induction inputs generalizing outputs with
  | nil =>
    cases made
    exact nofun
  | cons input inputs ih =>
    rw [List.mapM_cons] at made
    obtain ⟨first, found, made⟩ := Except.bind_ok made
    obtain ⟨others, rest, done⟩ := Except.bind_ok made
    cases done
    refine List.forall_mem_cons.mpr ⟨⟨input, List.mem_cons_self, found⟩, fun output mem => ?_⟩
    obtain ⟨other, among, found⟩ := ih rest output mem
    exact ⟨other, List.mem_cons_of_mem _ among, found⟩

end MiniScheme
