import MiniScheme.Proofs.Stdlib.Plans

/-!
# Tame actions

An action on the store is tame if it only grows the heap and answers with sound values, or fails
without claiming that the code is broken. All standard procedures are tame. They pass on what the
application's objects say when they fail, so the objects are asked not to speak of internal errors
themselves.
-/

namespace MiniScheme

open Store

/-- The wording of failures that scripts must never cause. -/
def SpeaksOfInternalError (message : String) : Prop :=
  ∃ rest, message = "Internal error" ++ rest

/-- The failure is reported as an internal error. -/
def Fault.IsInternal (fault : Fault) : Prop :=
  SpeaksOfInternalError fault.message

/-- The object never speaks of internal errors when it refuses something. -/
structure HostObject.Civil (object : HostObject) : Prop where
  refuses (name reason : String) : object.refuses name = some reason →
    ¬ SpeaksOfInternalError reason
  invoke (self : HostRef) (method : String) (arguments : List Variant) (reason : String) :
    object.invoke self method arguments = .error reason → ¬ SpeaksOfInternalError reason

/-- All objects of the application are civil. -/
def Store.Civil (store : Store) : Prop :=
  ∀ object ∈ store.hosts, object.Civil

/-- `before.Calm discipline after`: data may have been added or changed, and the application's
objects are as civil as before. -/
structure Store.Calm (discipline : Discipline) (before after : Store) : Prop where
  grown : before.heap.Grown discipline after.heap
  civil : before.Civil → after.Civil

/-- The outcome of a tame action on a store. -/
def Store.Tame {α : Type} (discipline : Discipline) (before : Store) (good : Heap → α → Prop) :
    EStateM.Result Fault Store α → Prop
  | .ok result after => before.Calm discipline after ∧ good after.heap result
  | .error fault after => before.Calm discipline after ∧ (before.Civil → ¬ fault.IsInternal)

def Native.Tame (discipline : Discipline) (native : Native) : Prop :=
  ∀ (arguments : List Value) (store : Store), store.heap.Sound discipline →
    (∀ value ∈ arguments, value.Sound discipline store.heap) →
    store.Tame discipline (fun heap result => ∀ value, result = some value →
      value.Sound discipline heap) (native.run arguments store)

/-- A message that starts differently does not speak of an internal error. -/
theorem not_speaksOfInternalError {message start rest : String} (eq : message = start ++ rest)
    (long : 5 ≤ start.toList.length) (differs : start.toList.take 5 ≠ "Inter".toList) :
    ¬ SpeaksOfInternalError message := by
  rintro ⟨other, claimed⟩
  apply differs
  have heads := congrArg (fun text => text.toList.take 5) (eq.symm.trans claimed)
  simpa [String.toList_append, List.take_append_of_le_length long] using heads

theorem Arity.complaint_eq (arity : Arity) : ∃ rest, arity.complaint = "Requires " ++ rest := by
  unfold Arity.complaint
  dsimp only
  split <;> exact ⟨_, by simp only [String.append_assoc]; rfl⟩

theorem Fault.IsOrdinary.not_internal {fault : Fault} (ordinary : fault.IsOrdinary) :
    ¬ fault.IsInternal := by
  unfold Fault.IsInternal
  cases fault with
  | defect defect => exact ordinary.elim
  | host message => exact ordinary.elim
  | wrongArity arity =>
    obtain ⟨rest, eq⟩ := arity.complaint_eq
    exact not_speaksOfInternalError eq (by decide) (by decide)
  | unknownProperty name =>
    exact not_speaksOfInternalError (String.append_assoc ..) (by decide) (by decide)
  | notAProcedure | invalidArgument | invalidIndex | integerOverflow | divisionByZero
  | stackOverflow | endlessApply =>
    exact not_speaksOfInternalError (String.append_empty ..).symm (by decide) (by decide)

theorem Fault.IsRefusal.not_internal {fault : Fault} (refusal : fault.IsRefusal) :
    ¬ fault.IsInternal := by
  apply Fault.IsOrdinary.not_internal
  cases fault <;> trivial

namespace Stdlib

variable {law : Discipline} {store : Store}

theorem closed_sound {heap : Heap} (sound : heap.Sound law) :
    heap.Closed fun v => v.Sound law heap where
  atom atom := .of_data atom.unbound atom.data
  pair _ found := sound.objects _ _ (Heap.pair?_eq_some_iff.mp found)
  vector _ found := sound.objects _ _ (Heap.vector?_eq_some_iff.mp found)

theorem Excused.not_internal {arity : Arity} {n : Nat} {fault : Fault}
    (excused : Excused store arity n fault) (civil : store.Civil) : ¬ fault.IsInternal := by
  cases excused with
  | refusal refusal => exact refusal.not_internal
  | arity => exact Fault.IsOrdinary.not_internal trivial
  | property mem refused => exact (civil _ mem).refuses _ _ refused
  | method mem failed => exact (civil _ mem).invoke _ _ _ _ failed

theorem civil_setProperty {obj changed : HostObject} (civil : obj.Civil)
    {name : String} {v : Variant} (set : obj.setProperty name v = .ok changed) : changed.Civil := by
  unfold HostObject.setProperty at set
  split at set
  · cases set
  · cases set
    exact ⟨civil.refuses, civil.invoke⟩

theorem grown_change (sound : store.heap.Sound law) (h : Handle) {update : Change}
    (value_sound : update.value.Sound law store.heap) :
    store.heap.Grown law (store.heap.modify h update.apply) := by
  apply Heap.Grown.modify sound
  · intro obj
    cases update <;> cases obj <;> rfl
  · intro obj control
    cases update <;> cases obj <;> first | rfl | cases control
  · intro obj object_sound
    cases update <;> cases obj
    case car.pair => exact ⟨value_sound, object_sound.2⟩
    case cdr.pair => exact ⟨object_sound.1, value_sound⟩
    case item.vector =>
      intro other mem
      rcases Array.mem_or_eq_of_mem_setIfInBounds mem with before | rfl
      · exact object_sound other before
      · exact value_sound
    case fill.vector =>
      intro other mem
      obtain ⟨_, -, rfl⟩ := Array.mem_map.mp mem
      exact value_sound
    all_goals exact object_sound

theorem Effect.Fits.calm (sound : store.heap.Sound law) {effect : Effect} {target : Handle → Prop}
    (fits : effect.Fits store (fun v => v.Sound law store.heap) target) :
    store.Calm law (effect.apply store).2 ∧
      (effect.apply store).1.Sound law (effect.apply store).2.heap := by
  have building {built : Value × Heap} (builds : store.heap.Builds law built) :
      store.Calm law { store with heap := built.2 } ∧ built.1.Sound law built.2 :=
    ⟨⟨builds.grown, id⟩, builds.value⟩
  cases fits with
  | answer value_sound => exact ⟨⟨.refl sound, id⟩, value_sound⟩
  | list values_sound tail_sound =>
    exact building (Heap.builds_listWithTail sound values_sound tail_sound)
  | vector items_sound => exact building (Heap.builds_vector sound items_sound)
  | string text => exact building (Heap.builds_string sound text)
  | bytes content => exact building (Heap.builds_bytes sound content)
  | variant given => exact building (Heap.builds_toValue sound given)
  | change _ _ _ value_sound =>
    exact ⟨⟨grown_change sound _ value_sound, id⟩, Value.sound_unspecified⟩
  | print | note => exact ⟨⟨.refl sound, id⟩, Value.sound_unspecified⟩
  | setHost mem set =>
    refine ⟨⟨.refl sound, fun civil other present => ?_⟩, Value.sound_unspecified⟩
    rcases Array.mem_or_eq_of_mem_setIfInBounds present with before | rfl
    · exact civil other before
    · exact civil_setProperty (civil _ mem) set

theorem Planned.tame {native : Native} (planned : Planned native) : native.Tame law := by
  obtain ⟨plan, plans, runs⟩ := planned
  intro args store sound arguments_sound
  have decided := plans.decides (closed_sound sound) arguments_sound
  rw [runs]
  generalize plan store args = decision at decided
  cases decision with
  | ok effect =>
    obtain ⟨calm, value_sound⟩ := Effect.Fits.calm sound decided
    exact ⟨calm, fun _ eq => Option.some.inj eq ▸ value_sound⟩
  | error fault => exact ⟨⟨.refl sound, id⟩, decided.not_internal⟩

theorem tame_registry : ∀ native ∈ registry, native.Tame law :=
  fun native mem => (planned_procedures native (by simpa [registry] using mem)).tame

end Stdlib

end MiniScheme
