import MiniScheme.Proofs.Machine.Outcome
import MiniScheme.Proofs.Stdlib.Safety

/-!
# Sound machines

A machine is sound if everything that it holds, on its stacks, in its registers and as the places
of its scopes, refers to live objects of the right kinds in a sound heap. No change that a machine
makes to itself, and no collection, is an exception.
-/

namespace MiniScheme

/-- Running code creates closures other than that of the top level, and continuations; they may
occur. -/
structure Discipline.Admits (discipline : Discipline) (topClosure : Handle) : Prop where
  closures (handle : Handle) : handle ≠ topClosure → discipline.allows (.closure handle)
  continuations (handle : Handle) : discipline.allows (.continuation handle)

/-- The native procedure leaves the heap sound, frees nothing, and answers with a sound value. -/
def Native.Sound (discipline : Discipline) (native : Native) : Prop :=
  ∀ (arguments : List Value) (store : Store), store.heap.Sound discipline →
    (∀ value ∈ arguments, value.Sound discipline store.heap) →
    match native.run arguments store with
    | .ok result after => after.heap.Sound discipline ∧ store.heap.Keeps after.heap ∧
        ∀ value, result = some value → value.Sound discipline after.heap
    | .error _ after => after.heap.Sound discipline ∧ store.heap.Keeps after.heap

theorem Native.Tame.sound {law : Discipline} {native : Native}
    (tame : native.Tame law) : native.Sound law := by
  intro args store store_sound arguments_sound
  have out := tame args store store_sound arguments_sound
  cases res : native.run args store with
  | ok res after =>
    rw [res] at out
    exact ⟨out.1.grown.sound, out.1.grown.keeps, out.2⟩
  | error fault after =>
    rw [res] at out
    exact ⟨out.1.grown.sound, out.1.grown.keeps⟩

namespace Machine

/-- The machine refers to live objects of the right kinds only. -/
structure Sound (discipline : Discipline) (machine : Machine) : Prop where
  heap : machine.heap.Sound discipline
  /-- The stacks and the registers. -/
  control : (machine.snapshot false).Sound discipline machine.heap
  global : machine.heap.Holds { kind := .invocation, handle := machine.global }
  topLevel : machine.heap.Holds { kind := .invocation, handle := machine.topLevel }
  topClosure : machine.heap.Holds { kind := .closure, handle := machine.topClosure }
  natives : ∀ native ∈ machine.natives, native.Sound discipline
  admits : discipline.Admits machine.topClosure

/-- `before.Anchors after`: both have the same scopes and native procedures. -/
structure Anchors (before after : Machine) : Prop where
  global : after.global = before.global
  topLevel : after.topLevel = before.topLevel
  topClosure : after.topClosure = before.topClosure
  natives : after.natives = before.natives

theorem Anchors.refl (m : Machine) : m.Anchors m :=
  ⟨rfl, rfl, rfl, rfl⟩

theorem Anchors.trans {before mid after : Machine} (first : before.Anchors mid)
    (second : mid.Anchors after) : before.Anchors after :=
  ⟨second.global.trans first.global, second.topLevel.trans first.topLevel,
    second.topClosure.trans first.topClosure, second.natives.trans first.natives⟩

theorem Anchors.note (m : Machine) (detail : Detail) (message : Unit → String) :
    m.Anchors (m.note detail message) := by
  obtain ⟨journal, eq⟩ := m.note_eq detail message
  rw [eq]
  exact ⟨rfl, rfl, rfl, rfl⟩

variable {law : Discipline} {m before after : Machine}

/-- A machine stays sound if its heap does and its new control state is sound. -/
theorem Sound.move (sound : before.Sound law) (anchors : before.Anchors after)
    (heap : after.heap.Sound law) (keeps : before.heap.Keeps after.heap)
    (control : (after.snapshot false).Sound law after.heap) : after.Sound law := by
  refine ⟨heap, control, ?_, ?_, ?_, ?_, ?_⟩
  · rw [anchors.global]
    exact sound.global.mono keeps
  · rw [anchors.topLevel]
    exact sound.topLevel.mono keeps
  · rw [anchors.topClosure]
    exact sound.topClosure.mono keeps
  · rw [anchors.natives]
    exact sound.natives
  · rw [anchors.topClosure]
    exact sound.admits

variable {α : Type} {v : Value} {lam : Lambda} {heap : Heap} {args : List Value}
  {closure inv : Handle} {constants : Array Constant}

section

variable (sound : m.Sound law)

include sound

/-- Work on the heap alone leaves the control state as it was. -/
theorem Sound.onHeap (work : Heap → α × Heap) (heap : (work m.heap).2.Sound law)
    (keeps : m.heap.Keeps (work m.heap).2) : (m.onHeap work).2.Sound law :=
  sound.move ⟨rfl, rfl, rfl, rfl⟩ heap keeps (sound.control.mono keeps)

theorem Sound.note (detail : Detail) (message : Unit → String) :
    (m.note detail message).Sound law := by
  obtain ⟨journal, eq⟩ := m.note_eq detail message
  rw [eq]
  exact sound.move ⟨rfl, rfl, rfl, rfl⟩ sound.heap (.refl _) sound.control

/-- New stacks and registers may take the place of the old ones. -/
theorem Sound.steer {stack : Stack Value} {calls : Stack Frame} {current : Frame}
    (control : Snapshot.Sound law m.heap { stack, calls, current }) :
    Sound law { m with stack, calls, current } :=
  sound.move ⟨rfl, rfl, rfl, rfl⟩ sound.heap (.refl _) control

theorem Sound.push (value_sound : v.Sound law m.heap) : (m.push v).Sound law := by
  refine sound.steer ⟨?_, sound.control.calls, sound.control.current.invocation,
    sound.control.current.lambda⟩
  exact List.forall_mem_cons.mpr ⟨value_sound, sound.control.stack⟩

end

theorem pop?_sound {stack rest : Stack α} {item : α} {good : α → Prop}
    (popped : stack.pop? = some (item, rest)) (all : ∀ other ∈ stack.items, good other) :
    good item ∧ ∀ other ∈ rest.items, good other := by
  obtain ⟨xs, height, height_eq⟩ := stack
  cases xs with
  | nil => cases popped
  | cons first xs =>
    cases popped
    exact List.forall_mem_cons.mp all

section

variable (sound : m.Sound law)

include sound

theorem Sound.snapshot (tail : Bool) : (m.snapshot tail).Sound law m.heap := by
  cases tail with
  | false => exact sound.control
  | true =>
    unfold Machine.snapshot
    cases popped : m.calls.pop? with
    | none => exact sound.control
    | some pair =>
      have parts := pop?_sound popped sound.control.calls
      exact ⟨sound.control.stack, parts.2, parts.1⟩

theorem Sound.restore {snapshot : Snapshot} (snapshot_sound : snapshot.Sound law m.heap)
    (value_sound : v.Sound law m.heap) : (m.restore snapshot v).Sound law := by
  have restored : Sound law { m with
      stack := snapshot.stack, calls := snapshot.calls, current := snapshot.current } :=
    sound.steer snapshot_sound
  exact restored.push value_sound

theorem Sound.complete (tail : Bool) (value_sound : v.Sound law m.heap) :
    (m.complete v tail).Sound law := by
  unfold Machine.complete
  split
  · split
    · rename_i frame calls popped
      have parts := pop?_sound popped sound.control.calls
      have returned : Sound law { m with calls, current := frame } :=
        sound.steer ⟨sound.control.stack, parts.2, parts.1⟩
      exact returned.push value_sound
    · exact sound.push value_sound
  · exact sound.push value_sound

end

/-! ### Calls -/

theorem slots_fixed (fixed : lam.rest = false) (args : List Value) (heap : Heap) :
    slots lam args heap =
      (args.toArray ++ Array.replicate (lam.slotCount - args.length) .unspecified, heap) := by
  simp [slots, fixed]

theorem slots_rest (rest : lam.rest = true) (args : List Value) (heap : Heap) :
    slots lam args heap =
      let surplus := heap.list (args.drop lam.argumentCount)
      let filled := (args.take lam.argumentCount).toArray.push surplus.1
      (filled ++ Array.replicate (lam.slotCount - filled.size) .unspecified, surplus.2) := by
  simp [slots, rest]

/-- The slots hold the arguments, a list of the surplus ones, and unspecified values. -/
theorem slots_sound (sound : heap.Sound law) (lam : Lambda)
    (arguments_sound : ∀ v ∈ args, v.Sound law heap) :
    heap.Grown law (slots lam args heap).2 ∧ ∀ v ∈ (slots lam args heap).1,
        v.Sound law (slots lam args heap).2 := by
  cases kind : lam.rest with
  | false =>
    rw [slots_fixed kind]
    refine ⟨.refl sound, fun v mem => ?_⟩
    rcases Array.mem_append.mp mem with filled | blank
    · exact arguments_sound v (List.mem_toArray.mp filled)
    · rw [(Array.mem_replicate.mp blank).2]
      exact Value.sound_unspecified
  | true =>
    rw [slots_rest kind]
    have surplus_sound : ∀ v ∈ args.drop lam.argumentCount, v.Sound law heap :=
      fun v mem => arguments_sound v (List.mem_of_mem_drop mem)
    have built := Heap.builds_list sound surplus_sound
    refine ⟨built.grown, fun v mem => ?_⟩
    rcases Array.mem_append.mp mem with filled | blank
    · rcases Array.mem_push.mp filled with front | rfl
      · have mem := List.mem_of_mem_take (List.mem_toArray.mp front)
        exact (arguments_sound v mem).mono built.grown.keeps
      · exact built.value
    · rw [(Array.mem_replicate.mp blank).2]
      exact Value.sound_unspecified

section

variable (sound : m.Sound law)

include sound

theorem Sound.invoke (held : m.heap.Holds { kind := .closure, handle := closure })
    (lam : Lambda) (arguments_sound : ∀ v ∈ args, v.Sound law m.heap) :
    (m.invoke closure lam args).2.Sound law ∧ m.heap.Keeps (m.invoke closure lam args).2.heap ∧
      (m.invoke closure lam args).2.heap.Holds
        { kind := .invocation, handle := (m.invoke closure lam args).1 } := by
  obtain ⟨grown, filled⟩ := slots_sound sound.heap lam arguments_sound
  have object_sound : Object.Sound law (slots lam args m.heap).2
      (.invocation (some closure) (slots lam args m.heap).1) := by
    refine ⟨fun h eq => ?_, filled⟩
    cases eq
    exact held.mono grown.keeps
  have keeps := grown.keeps.trans (.alloc grown.sound.consistent
    (.invocation (some closure) (slots lam args m.heap).1))
  exact ⟨sound.onHeap _ (grown.sound.alloc object_sound) keeps, keeps,
    Heap.holds_alloc grown.sound.consistent _⟩

theorem Sound.enter (held : m.heap.Holds { kind := .invocation, handle := inv })
    (lambda_sound : lam.Sound law m.heap) (tail : Bool) : (m.enter lam inv tail).Sound law := by
  obtain ⟨journal, entered⟩ := enter_eq lam inv tail m
  rw [entered]
  refine sound.move ⟨rfl, rfl, rfl, rfl⟩ sound.heap (.refl _)
    ⟨sound.control.stack, ?_, held, lambda_sound⟩
  cases tail with
  | true => exact sound.control.calls
  | false => exact List.forall_mem_cons.mpr ⟨sound.control.current, sound.control.calls⟩

theorem Sound.remember (tail : Bool) :
    (m.remember tail).2.Sound law ∧ m.heap.Keeps (m.remember tail).2.heap ∧
      (Value.continuation (m.remember tail).1).Sound law (m.remember tail).2.heap := by
  obtain ⟨journal, remembered⟩ := remember_eq tail m
  rw [remembered]
  have object_sound : Object.Sound law m.heap (.continuation (m.snapshot tail)) :=
    sound.snapshot tail
  have keeps := Heap.Keeps.alloc sound.heap.consistent (.continuation (m.snapshot tail))
  refine ⟨sound.move ⟨rfl, rfl, rfl, rfl⟩ (sound.heap.alloc object_sound) keeps
    (sound.control.mono keeps), keeps, sound.admits.continuations _, fun ref tagged _ => ?_⟩
  cases tagged
  exact Heap.holds_alloc sound.heap.consistent _

end

structure Callable (discipline : Discipline) (machine : Machine) (callee : Value)
    (arguments : List Value) : Prop where
  sound : machine.Sound discipline
  callee : callee.Sound discipline machine.heap
  arguments : ∀ value ∈ arguments, value.Sound discipline machine.heap

theorem Callable.capture {receiver : Value}
    (callable : Callable law m .capture [receiver]) (tail : Bool) :
    Callable law (m.remember tail).2 receiver [.continuation (m.remember tail).1] := by
  obtain ⟨captured, keeps, cont⟩ := callable.sound.remember tail
  exact ⟨captured, (callable.arguments receiver List.mem_cons_self).mono keeps,
    List.forall_mem_singleton.mpr cont⟩

theorem Callable.apply {proc list : Value} {front vals : List Value}
    (callable : Callable law m .apply (proc :: (front ++ [list])))
    (found : m.heap.elements? list = some vals) : Callable law m proc (front ++ vals) := by
  refine ⟨callable.sound, callable.arguments proc List.mem_cons_self,
    List.forall_mem_append.mpr ⟨fun v before => callable.arguments v (by simp [before]), ?_⟩⟩
  exact Stdlib.walk_good (Stdlib.closed_sound callable.sound.heap) (by simp)
    (callable.arguments list (by simp)) found

/-! ### Instructions -/

theorem slot_sound (sound : m.Sound law) {slot : Nat}
    (found : ((m.heap.slots? inv).bind fun slots => slots[slot]?) = some v) :
    v.Sound law m.heap := by
  obtain ⟨slots, held, found⟩ := Option.bind_eq_some_iff.mp found
  obtain ⟨proc, held⟩ := Heap.slots?_eq_some_iff.mp held
  exact (sound.heap.objects inv _ held).2 v (Array.mem_of_getElem? found)

theorem modifySlots_sound (sound : heap.Sound law) (inv : Handle)
    {change : Array Value → Array Value}
    (change_sound : ∀ slots : Array Value, (∀ v ∈ slots, v.Sound law heap) →
      ∀ v ∈ change slots, v.Sound law heap) :
    (heap.modifySlots inv change).Sound law ∧ heap.Keeps (heap.modifySlots inv change) := by
  refine ⟨sound.modify inv (fun obj => ?_) fun obj _ object_sound => ?_,
    .modify heap inv fun obj => ?_⟩
  · cases obj <;> rfl
  · cases obj with
    | invocation proc slots => exact ⟨object_sound.1, change_sound slots object_sound.2⟩
    | pair | vector | closure | continuation => exact object_sound
  · cases obj <;> rfl

theorem constant_sound {place : Nat} {constant : Constant} (sound : lam.Sound law heap)
    (found : lam.constants[place]? = some constant) : constant.Sound law heap :=
  Lambda.sound_iff.mp sound constant (Array.mem_of_getElem? found)

/-- A new closure is not that of the top level, which is live already. -/
theorem Sound.close (sound : m.Sound law) {lam : Lambda} (lambda_sound : lam.Sound law m.heap) :
    (m.close lam).2.Sound law ∧ (Value.closure (m.close lam).1).Sound law (m.close lam).2.heap := by
  have object_sound : Object.Sound law m.heap (.closure lam (some m.current.invocation)) := by
    refine ⟨lambda_sound, fun h eq => ?_⟩
    cases eq
    exact sound.control.current.invocation
  have fresh := Heap.get?_alloc_fresh sound.heap.consistent
    (.closure lam (some m.current.invocation))
  have held := Heap.holds_alloc sound.heap.consistent (.closure lam (some m.current.invocation))
  refine ⟨sound.onHeap _ (sound.heap.alloc object_sound) (.alloc sound.heap.consistent _),
    sound.admits.closures _ fun same => ?_, fun ref tagged _ => ?_⟩
  · obtain ⟨obj, live, _⟩ := sound.topClosure
    rw [← same] at live
    exact Option.some_ne_none obj (live.symm.trans fresh)
  · cases tagged
    exact held

/-! ### Runs -/

theorem Sound.reset (sound : m.Sound law) : m.reset.Sound law := by
  unfold Machine.reset
  split
  · rename_i lam parent found
    have lambda_sound := (sound.heap.objects _ _ (Heap.closure?_eq_some_iff.mp found)).1
    exact sound.move ⟨rfl, rfl, rfl, rfl⟩ sound.heap (.refl _)
      ⟨nofun, nofun, sound.topLevel, lambda_sound⟩
  · exact sound.move ⟨rfl, rfl, rfl, rfl⟩ sound.heap (.refl _)
      ⟨nofun, nofun, sound.topLevel, sound.control.current.lambda⟩

theorem Sound.fail (sound : m.Sound law) (fault : Fault) : (m.fail fault).2.Sound law :=
  (sound.note .debug _).reset

theorem Sound.advance (sound : m.Sound law) (op : Op) : (m.advance op).Sound law :=
  sound.steer ⟨sound.control.stack, sound.control.calls, sound.control.current.invocation,
    sound.control.current.lambda⟩

theorem Sound.wake (sound : m.Sound law) (value_sound : v.Sound law m.heap) :
    (m.wake v).2.Sound law := by
  unfold Machine.wake
  split
  · rename_i tail _
    have resumed : Sound law { m with suspended := none } :=
      sound.move ⟨rfl, rfl, rfl, rfl⟩ sound.heap (.refl _) sound.control
    exact resumed.complete tail value_sound
  · exact sound

theorem Sound.addNative (sound : m.Sound law) {native : Native}
    (native_sound : native.Sound law) : (m.addNative native).2.Sound law := by
  refine ⟨sound.heap, sound.control, sound.global, sound.topLevel, sound.topClosure, ?_,
    sound.admits⟩
  intro other mem
  rcases Array.mem_push.mp mem with known | rfl
  · exact sound.natives other known
  · exact native_sound

theorem modifyLambda_sound (sound : heap.Sound law) (closure : Handle)
    (lambda_sound : lam.Sound law heap) :
    (heap.modifyLambda closure fun _ => lam).Sound law ∧
      heap.Keeps (heap.modifyLambda closure fun _ => lam) := by
  refine ⟨sound.modify closure (fun obj => ?_) fun obj _ object_sound => ?_,
    .modify heap closure fun obj => ?_⟩
  · cases obj <;> rfl
  · cases obj with
    | closure => exact ⟨lambda_sound, object_sound.2⟩
    | pair | vector | invocation | continuation => exact object_sound
  · cases obj <;> rfl

theorem extend_sound (lambda_sound : lam.Sound law heap)
    (constants_sound : ∀ constant ∈ constants, constant.Sound law heap) (code : Bytecode) :
    (extend lam constants code).Sound law heap := by
  apply Lambda.sound_iff.mpr
  intro constant mem
  rcases Array.mem_append.mp mem with known | added
  · exact Lambda.sound_iff.mp lambda_sound constant known
  · obtain ⟨place, bound, rfl⟩ := Array.mem_extract_iff_getElem.mp added
    exact constants_sound _ (Array.getElem_mem _)

theorem Sound.append (sound : m.Sound law) {code : Bytecode}
    (constants_sound : ∀ constant ∈ constants, constant.Sound law m.heap)
    (appended : m.append constants code = .ok after) : after.Sound law := by
  obtain ⟨obj, held, kind⟩ := sound.topClosure
  cases obj with
  | closure lam parent =>
    have extended := extend_sound (sound.heap.objects _ _ held).1 constants_sound code
    obtain ⟨heap_sound, keeps⟩ := modifyLambda_sound sound.heap m.topClosure extended
    rw [append_eq (Heap.closure?_eq_some_iff.mpr held)] at appended
    cases appended
    exact sound.move ⟨rfl, rfl, rfl, rfl⟩ heap_sound keeps
      ⟨nofun, nofun, sound.topLevel.mono keeps, extended.mono keeps⟩
  | pair | vector | invocation | continuation => cases kind

theorem roots_eq (m : Machine) : m.roots = (m.snapshot false).handles ++
      [m.global, m.topLevel, m.topClosure] := rfl

/-- All that a machine holds is among the roots of the collection, so it survives. -/
theorem Sound.collect (sound : m.Sound law) : m.collect.2.Sound law := by
  have scopes {h : Handle} (mem : h ∈ [m.global, m.topLevel, m.topClosure]) :
      m.heap.Reachable m.roots h := .root (List.mem_append_right _ mem)
  have control : (m.snapshot false).Sound law (m.heap.collect m.roots).2 := by
    apply sound.control.collect
    intro ref held
    have mem : ref.handle ∈ (m.snapshot false).handles :=
      Snapshot.mem_handles_iff.mpr ⟨ref.kind, held⟩
    exact .root (roots_eq m ▸ List.mem_append_left _ mem)
  obtain ⟨journal, collected⟩ := m.collect_eq
  rw [collected]
  constructor
  · exact sound.heap.collect m.roots
  · exact control
  · exact sound.global.collect (scopes (by simp))
  · exact sound.topLevel.collect (scopes (by simp))
  · exact sound.topClosure.collect (scopes (by simp))
  · exact sound.natives
  · exact sound.admits

theorem blank_sound (heap : Heap) : Lambda.Sound law heap .empty :=
  Lambda.sound_iff.mpr nofun

theorem scopes_sound (law : Discipline) {global topLevel : Handle}
    {first second third : Heap} (globals : Heap.alloc {} (.invocation none #[]) = (global, first))
    (code : first.alloc (.closure .empty (some global)) = (closure, second))
    (definitions : second.alloc (.invocation (some closure) #[]) = (topLevel, third)) :
    third.Sound law ∧ third.Holds { kind := .invocation, handle := global } ∧
      third.Holds { kind := .invocation, handle := topLevel } ∧
      third.Holds { kind := .closure, handle := closure } := by
  have empty : Heap.Sound law {} :=
    ⟨Heap.consistent_empty, fun h obj held => by simp [Heap.get?] at held⟩
  obtain ⟨first_sound, -, global_held⟩ := empty.allocated globals (by simp [Object.Sound])
  have parent_held : ∀ h, some global = some h →
      first.Holds { kind := .invocation, handle := h } := by
    rintro h ⟨⟩
    exact global_held
  obtain ⟨second_sound, keeps, closure_held⟩ := first_sound.allocated code
    ⟨blank_sound _, parent_held⟩
  have procedure_held : ∀ h, some closure = some h →
      second.Holds { kind := .closure, handle := h } := by
    rintro h ⟨⟩
    exact closure_held
  obtain ⟨third_sound, keeps', topLevel_held⟩ := second_sound.allocated definitions
    ⟨procedure_held, by simp⟩
  exact ⟨third_sound, (global_held.mono keeps).mono keeps', topLevel_held, closure_held.mono keeps'⟩

/-- A new machine is sound: its scopes are empty and it has the standard procedures only. -/
theorem sound_initial (cap : Nat) (admits : law.Admits (Machine.initial cap).topClosure) :
    (Machine.initial cap).Sound law := by
  obtain ⟨heap, global, topLevel, closure⟩ := scopes_sound law rfl rfl rfl
  constructor
  · exact heap
  · exact ⟨nofun, nofun, topLevel, blank_sound _⟩
  · exact global
  · exact topLevel
  · exact closure
  · exact fun native mem => (Stdlib.tame_registry native mem).sound
  · exact admits

end Machine

end MiniScheme
