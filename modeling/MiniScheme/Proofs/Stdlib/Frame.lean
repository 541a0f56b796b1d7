import MiniScheme.Proofs.Heap.Variants
import MiniScheme.Proofs.Stdlib.Plans

/-!
# What standard procedures leave alone

A standard procedure decides before it does anything, so it fails without a trace. What it does in
the end leaves every object as it was, apart from the one object that four procedures change. The
answer does not bring up dangling handles that were not behind the arguments.
-/

namespace MiniScheme

theorem Heap.closed_intact (heap : Heap) : heap.Closed heap.Intact := by
  have part {v part : Value} {h : Handle} {obj : Object} {ref : Reference}
      (tagged : v.handle? = some h) (held : heap.get? h = some obj)
      (intact : heap.Intact v) (refers : obj.Refers ref)
      (known : part.reference? = some ref) : heap.Intact part := by
    intro other reached
    refine intact other (reached.of_roots fun root mem => ?_)
    rw [part.handle?_eq, known] at mem
    cases List.mem_singleton.mp mem
    exact .through (.root (by simp [tagged])) held refers
  have whole (v : Value) (referring : ∀ ref, v.reference? = some ref →
      heap.Intact v) : heap.Intact v := by
    cases known : v.reference? with
    | none => exact .of_atom (by rw [v.handle?_eq, known]; rfl)
    | some ref => exact referring ref known
  refine ⟨fun atom => .of_atom (by rw [Value.handle?_eq, atom.unbound]; rfl), ?_, ?_⟩
  · intro h car cdr intact found
    have held := pair?_eq_some_iff.mp found
    exact ⟨whole car fun _ known => part rfl held intact (.car known) known,
      whole cdr fun _ known => part rfl held intact (.cdr known) known⟩
  · intro h xs intact found v mem
    have held := vector?_eq_some_iff.mp found
    exact whole v fun _ known => part rfl held intact (.item mem known) known

namespace Stdlib

variable {store : Store} {good : Value → Prop} {target : Handle → Prop} {effect : Effect}

/-- Every object is as it was, except that a target may have been changed in a place that it has. -/
def Leaves (target : Handle → Prop) (old new : Heap) : Prop :=
  ∀ handle object, old.get? handle = some object → new.get? handle = some object ∨
    target handle ∧ ∃ update : Change, update.Applies object ∧
      new.get? handle = some (update.apply object)

theorem Leaves.of_adds {old new : Heap} (adds : old.Adds new) : Leaves target old new :=
  fun h obj held => .inl (adds.preserves h obj held)

/-- What is done in the end leaves the other objects alone, and answers with an intact value if it
passes on intact values. -/
theorem Effect.Fits.leaves (sane : store.heap.Consistent) (fits : effect.Fits store good target) :
    Leaves target store.heap (effect.apply store).2.heap := by
  cases fits with
  | answer | print | note | setHost => exact .of_adds (.refl sane)
  | list => exact .of_adds (Heap.adds_listWithTail sane _ _)
  | vector => exact .of_adds (.alloc sane _)
  | string | bytes => exact .of_adds (Heap.Gains.stamp sane _).adds
  | variant given =>
    obtain ⟨_, -, gains⟩ := (Variant.arrives_toValue sane given).gains
    exact .of_adds gains.adds
  | @change changed obj update is_target held applies _ =>
    intro h other present
    by_cases here : h = changed
    · subst here
      cases held.symm.trans present
      exact .inr ⟨is_target, update, applies, (Heap.get?_modify ..).trans (by simp [held])⟩
    · exact .inl ((Heap.get?_modify ..).trans (by simp [here, present]))

theorem Effect.Fits.intact (sane : store.heap.Consistent)
    (fits : effect.Fits store store.heap.Intact target) :
    (effect.apply store).2.heap.Intact (effect.apply store).1 := by
  cases fits with
  | answer intact => exact intact
  | list each tail => exact Heap.intact_listWithTail sane tail each
  | vector each =>
    refine .vector (Heap.get?_alloc_self sane _) fun item mem => ?_
    exact (each item mem).mono (Heap.Adds.alloc sane _).preserves
  | variant given => exact (Variant.arrives_toValue sane given).intact
  | string | bytes | change | print | note | setHost => exact .of_atom rfl

/-- Standard procedures are safe and fail cleanly. One that is given as many arguments as it takes
may refuse, or pass on what an object of the application says, and then the store is as it was.
Otherwise it answers with a value. Every object is then as it was, except for the first argument of a
procedure that is there to change it, and the answer is intact if the arguments are. -/
theorem procedures_leave_no_trace {native : Native} (member : native ∈ procedures) {store : Store}
    (built : store.heap.Built) {arguments : List Value}
    (accepted : native.arity.accepts arguments.length = true) :
    match native.run arguments store with
    | .error fault after =>
      after = store ∧ (fault.IsRefusal ∨ ∃ message, fault = .host message)
    | .ok answer after => ∃ value, answer = some value ∧
      Leaves (Targets native.name arguments) store.heap after.heap ∧
      ((∀ argument ∈ arguments, store.heap.Intact argument) → after.heap.Intact value) := by
  obtain ⟨plan, plans, runs⟩ := planned_procedures native member
  have anything : store.heap.Closed Any :=
    ⟨fun _ => trivial, fun _ _ => ⟨trivial, trivial⟩, fun _ _ _ _ => trivial⟩
  have decided : Decides store native.arity arguments.length
      (Effect.Fits store Any (Targets native.name arguments)) (plan store arguments) :=
    plans.decides anything fun _ _ => trivial
  have careful (each : ∀ argument ∈ arguments, store.heap.Intact argument) :=
    plans.decides store.heap.closed_intact each
  rw [runs]
  generalize plan store arguments = decision at decided careful
  cases decision with
  | ok effect =>
    exact ⟨_, rfl, decided.leaves built.consistent, fun each => (careful each).intact built.consistent⟩
  | error fault =>
    refine ⟨rfl, ?_⟩
    cases decided with
    | refusal refusal => exact .inl refusal
    | arity wrong => cases accepted.symm.trans wrong
    | property | method => exact .inr ⟨_, rfl⟩

def furnished : Store :=
  { heap := ((({} : Heap).alloc (.vector #[.integer 1, .integer 2])).2.alloc
      (.pair .emptyList .emptyList)).2 }

/-- The pair becomes an item of the vector, and is left alone itself. -/
theorem procedures_leave_no_trace_vectorSet :
    let native := Native.prompt "vector-set!" 3 false (perform vectorSet)
    let arguments := [Value.vector ⟨0, 0⟩, .integer 1, .pair ⟨1, 0⟩]
    native ∈ procedures ∧ furnished.heap.Built ∧ native.arity.accepts arguments.length = true ∧
      ∃ after, native.run arguments furnished = .ok (some .unspecified) after ∧
        Leaves (Targets "vector-set!" arguments) furnished.heap after.heap ∧
        after.heap.Intact .unspecified ∧
        after.heap.get? ⟨0, 0⟩ = some (.vector #[.integer 1, .pair ⟨1, 0⟩]) := by
  intro native arguments
  have member : native ∈ procedures := List.mem_of_getElem? (i := 62) rfl
  have built : furnished.heap.Built := .alloc (.alloc .new _) _
  have number (value : Int64) : furnished.heap.Intact (.integer value) := .of_atom rfl
  have pair : furnished.heap.Intact (.pair ⟨1, 0⟩) := .pair rfl (.of_atom rfl) (.of_atom rfl)
  have vector : furnished.heap.Intact (.vector ⟨0, 0⟩) :=
    .vector rfl (by simp [number])
  have accepted : native.arity.accepts arguments.length = true := rfl
  obtain ⟨value, answered, leaves, intact⟩ := procedures_leave_no_trace member built accepted
  cases answered
  refine ⟨member, built, accepted, _, rfl, leaves, intact ?_, rfl⟩
  simp [arguments, vector, number, pair]

end Stdlib

end MiniScheme
