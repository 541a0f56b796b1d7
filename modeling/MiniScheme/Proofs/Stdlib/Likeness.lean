import MiniScheme.Proofs.Stdlib.Plans

/-!
# Standard procedures in heaps that only code can tell apart

No standard procedure looks into a closure or a continuation. In stores that are alike it answers
alike: with the same value or the same failure, printing the same text, and leaving stores that are
alike again. The notes that the machine adds to the journal on its own account do not count.
-/

namespace MiniScheme

/-- What scripts have said: the text that they printed and what they asked to be noted. -/
def Journal.said (journal : Journal) : String × List Note :=
  (journal.printed, journal.notes.toList.filter fun note => decide (note.detail = .info))

namespace Journal

theorem said_note_info (journal : Journal) (message : Unit → String) :
    (journal.note .info message).said =
      (journal.said.1, journal.said.2 ++ [{ detail := .info, message := message () }]) := by
  have kept : journal.keeps .info = true := by
    simp [keeps, Detail.rank]
  simp [note, kept, said]

theorem said_note (journal : Journal) {detail : Detail} (aside : detail ≠ .info)
    (message : Unit → String) : (journal.note detail message).said = journal.said := by
  unfold note
  split
  · simp [said, aside]
  · rfl

theorem said_print (journal : Journal) (text : String) :
    (journal.print text).said = (journal.said.1 ++ text, journal.said.2) := rfl

end Journal

/-- The stores differ at most in code, and in notes that scripts did not ask for. -/
structure Store.Alike (rel : Handle → Object → Object → Prop) (store store' : Store) : Prop where
  heap : store.heap.Alike rel store'.heap
  hosts : store'.hosts = store.hosts
  said : store'.journal.said = store.journal.said

namespace Store.Alike

variable {rel : Handle → Object → Object → Prop} {store store' : Store}

theorem print (alike : store.Alike rel store') (text : String) :
    (store.print text).Alike rel (store'.print text) := by
  refine ⟨alike.heap, alike.hosts, ?_⟩
  change (store'.journal.print text).said = (store.journal.print text).said
  rw [Journal.said_print, Journal.said_print, alike.said]

theorem note (alike : store.Alike rel store') (detail : Detail) (message : Unit → String) :
    (store.note detail message).Alike rel (store'.note detail message) := by
  refine ⟨alike.heap, alike.hosts, ?_⟩
  change (store'.journal.note detail message).said = (store.journal.note detail message).said
  by_cases aside : detail = .info
  · subst aside
    rw [Journal.said_note_info, Journal.said_note_info, alike.said]
  · rw [Journal.said_note _ aside, Journal.said_note _ aside, alike.said]

theorem withHeap (alike : store.Alike rel store') {heap heap' : Heap}
    (heaps : heap.Alike rel heap') :
    Store.Alike rel { store with heap } { store' with heap := heap' } :=
  ⟨heaps, alike.hosts, alike.said⟩

end Store.Alike

namespace StoreM

variable {α : Type} {stores : Store → Store → Prop}

/-- Both outcomes are the same failure or the same result, and leave related stores behind. -/
inductive Alike (stores : Store → Store → Prop) :
    EStateM.Result Fault Store α → EStateM.Result Fault Store α → Prop
  | ok {result : α} {store store' : Store} (related : stores store store') :
      Alike stores (.ok result store) (.ok result store')
  | error {fault : Fault} {store store' : Store} (related : stores store store') :
      Alike stores (.error fault store) (.error fault store')

/-- The action ends alike in related stores. -/
def Respects (stores : Store → Store → Prop) (action : StoreM α) : Prop :=
  ∀ ⦃store store' : Store⦄, stores store store' → Alike stores (action store) (action store')

end StoreM

/-- The native procedure answers at once, and alike in stores that are alike. -/
structure Native.Impartial (rel : Handle → Object → Object → Prop) (native : Native) : Prop where
  respects (arguments : List Value) : StoreM.Respects (Store.Alike rel) (native.run arguments)
  answers {arguments : List Value} {store after : Store} {result : Option Value} :
    native.run arguments store = .ok result after → result.isSome = true

namespace Stdlib

variable {rel : Handle → Object → Object → Prop} {store store' : Store}

theorem Effect.alike (like : Likeness rel) (alike : store.Alike rel store') (effect : Effect) :
    (effect.apply store').1 = (effect.apply store).1 ∧
      (effect.apply store).2.Alike rel (effect.apply store').2 := by
  have building {work : Heap → Value × Heap}
      (built : Heap.Matches rel (work store.heap) (work store'.heap)) :
      (store'.onHeap work).1 = (store.onHeap work).1 ∧
        (store.onHeap work).2.Alike rel (store'.onHeap work).2 :=
    ⟨built.result, built.heaps, alike.hosts, alike.said⟩
  cases effect with
  | answer v => exact ⟨rfl, alike⟩
  | list vals tail => exact building (alike.heap.listWithTail like vals tail)
  | vector xs => exact building (alike.heap.vector like xs)
  | string text => exact building (alike.heap.string text)
  | bytes content => exact building (alike.heap.bytes content)
  | variant given => exact building (alike.heap.toValue like given)
  | change h update =>
    refine ⟨rfl, ?_, alike.hosts, alike.said⟩
    apply alike.heap.modifyData like
    · intro obj hidden
      cases update <;> cases obj <;> first | rfl | cases hidden
    · intro obj
      cases update <;> cases obj <;> rfl
  | print text => exact ⟨rfl, alike.print text⟩
  | note text => exact ⟨rfl, alike.note _ _⟩
  | setHost id obj => exact ⟨rfl, alike.heap, by simp only [Effect.apply, alike.hosts], alike.said⟩

theorem Planned.impartial {native : Native} (like : Likeness rel) (planned : Planned native) :
    native.Impartial rel := by
  obtain ⟨plan, plans, runs⟩ := planned
  constructor
  · intro args store store' alike
    rw [runs, runs, plans.blind (alike.heap.resembles like) alike.hosts]
    cases plan store args with
    | ok effect =>
      obtain ⟨same, after⟩ := effect.alike like alike
      dsimp only
      rw [same]
      exact .ok after
    | error fault => exact .error alike
  · intro args store after res answered
    rw [runs] at answered
    split at answered
    · cases answered
      rfl
    · cases answered

theorem impartial_registry (like : Likeness rel) : ∀ native ∈ registry, native.Impartial rel :=
  fun native mem => (planned_procedures native (by simpa [registry] using mem)).impartial like

end Stdlib

end MiniScheme
