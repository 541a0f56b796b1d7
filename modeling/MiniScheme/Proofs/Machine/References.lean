import MiniScheme.Proofs.Machine.Stability

/-!
# References of a running machine

Whatever code a machine is given, and however runs, resumptions, resets and collections follow
each other, it never comes to hold a reference to an object that is gone or of another kind.
-/

namespace MiniScheme.Machine

/-- The states that a machine can get into. In between, others may work on the store, as long as
they keep its objects and leave no reference in vain. -/
inductive Reached : Machine → Prop where
  | initial (ceiling : Nat) : Reached (.initial ceiling)
  | addNative {machine : Machine} (reached : Reached machine) {native : Native}
      (sound : native.Sound .full) : Reached (machine.addNative native).2
  | work {machine : Machine} (reached : Reached machine) (store : Store)
      (keeps : machine.heap.Keeps store.heap) (sound : store.heap.Sound .full) :
      Reached { machine with store }
  /-- The code is arbitrary; its constants are live. -/
  | append {machine after : Machine} (reached : Reached machine) (constants : Array Constant)
      (code : Bytecode) (live : ∀ constant ∈ constants, constant.Sound .full machine.heap)
      (appended : machine.append constants code = .ok after) : Reached after
  | execute {machine : Machine} (reached : Reached machine) {σ : Type} (observe : Op → σ → σ)
      (observed : σ) (cycles : Nat) : Reached (machine.execute observe observed cycles).2.2
  | wake {machine : Machine} (reached : Reached machine) {value : Value}
      (live : value.Sound .full machine.heap) : Reached (machine.wake value).2
  | reset {machine : Machine} (reached : Reached machine) : Reached machine.reset
  | collect {machine : Machine} (reached : Reached machine) : Reached machine.collect.2

/-- `machine.Reaches reference`: the machine holds the reference, or an object does that the
machine can reach. -/
inductive Reaches (machine : Machine) : Reference → Prop where
  | stack {value : Value} {reference : Reference} (member : value ∈ machine.stack.items)
      (tagged : value.reference? = some reference) : Reaches machine reference
  | calls {frame : Frame} {reference : Reference} (member : frame ∈ machine.calls.items)
      (held : frame.Refers reference) : Reaches machine reference
  | current {reference : Reference} (held : machine.current.Refers reference) :
      Reaches machine reference
  | global : Reaches machine { kind := .invocation, handle := machine.global }
  | topLevel : Reaches machine { kind := .invocation, handle := machine.topLevel }
  | topClosure : Reaches machine { kind := .closure, handle := machine.topClosure }
  | through {holder reference : Reference} {object : Object} (reached : Reaches machine holder)
      (held : machine.heap.get? holder.handle = some object) (refers : object.Refers reference) :
      Reaches machine reference

variable {m : Machine}

theorem Reached.sound (reached : m.Reached) : m.Sound .full := by
  induction reached with
  | initial cap =>
    apply sound_initial
    exact ⟨fun _ _ => trivial, fun _ => trivial⟩
  | addNative _ native_sound ih => exact ih.addNative native_sound
  | work _ _ keeps heap_sound ih =>
    exact ih.move ⟨rfl, rfl, rfl, rfl⟩ heap_sound keeps (ih.control.mono keeps)
  | append _ _ _ live appended ih => exact ih.append live appended
  | execute _ observe observed cycles ih => exact ih.execute observe observed cycles
  | wake _ live ih => exact ih.wake live
  | reset _ ih => exact ih.reset
  | collect _ ih => exact ih.collect

theorem Sound.holds (sound : m.Sound .full) {ref : Reference}
    (reaches : m.Reaches ref) : m.heap.Holds ref := by
  have control := sound.control
  induction reaches with
  | stack mem tagged => exact (control.stack _ mem).held _ tagged trivial
  | calls mem held => exact (control.calls _ mem).holds held
  | current held => exact control.current.holds held
  | global => exact sound.global
  | topLevel => exact sound.topLevel
  | topClosure => exact sound.topClosure
  | through _ held refers _ => exact (sound.heap.objects _ _ held).holds refers

/-- No dangling references: every reference that a machine can reach, in any state that it can get
into, is to a live object of the kind that the reference promises. -/
theorem no_dangling_reference {machine : Machine} (reached : machine.Reached)
    {reference : Reference} (reaches : machine.Reaches reference) :
    machine.heap.Holds reference :=
  reached.sound.holds reaches

/-- A machine that has pushed a constant pair and then collected. -/
theorem no_dangling_reference_pushedPair : ∃ (machine : Machine) (pair : Handle),
    machine.Reached ∧ machine.stack.items = [.pair pair] ∧
      machine.heap.Holds { kind := .pair, handle := pair } := by
  have start := Reached.initial 16
  have built := Heap.builds_cons start.sound.heap Value.sound_emptyList Value.sound_emptyList
  have worked := start.work { heap := ((initial 16).heap.cons .emptyList .emptyList).2 }
    built.grown.keeps built.grown.sound
  have live : ∀ constant ∈ #[Constant.value ((initial 16).heap.cons .emptyList .emptyList).1],
      constant.Sound .full ((initial 16).heap.cons .emptyList .emptyList).2 := by
    intro constant member
    rw [Array.mem_singleton.mp member]
    exact built.value
  have appended := worked.append _ (.ofOp .constant [0]) live rfl
  have collected := (appended.execute (fun _ seen => seen) () 1).collect
  refine ⟨_, ⟨3, 0⟩, collected, rfl, ?_⟩
  apply no_dangling_reference collected
  exact .stack (List.mem_singleton.mpr rfl) rfl

end MiniScheme.Machine
