import MiniScheme.Proofs.Heap.Collection

/-!
# Sound heaps

A reference is sound if its handle is live and refers to an object of the kind that the reference
promises. In a sound heap every object holds sound references only. How much is asked of values
varies: a `Discipline` says which values may occur at all and which kinds of references have to be
sound. Structural references (parents, procedures, the invocations of frames) always are.
-/

namespace MiniScheme

/-- What is asked of the values in a heap. -/
structure Discipline where
  /-- The values that may occur. -/
  allows : Value → Prop
  /-- The kinds of objects that values must not refer to in vain. -/
  guards : Kind → Prop
  /-- Data may always occur. -/
  allows_data : ∀ value : Value, value.isProcedure = false → allows value

/-- Every value may occur, and every reference has to be sound. -/
def Discipline.full : Discipline :=
  { allows := fun _ => True, guards := fun _ => True, allows_data := fun _ _ => trivial }

/-- `heap.Holds reference`: the handle is live and refers to an object of the right kind. -/
def Heap.Holds (heap : Heap) (reference : Reference) : Prop :=
  ∃ object, heap.get? reference.handle = some object ∧ object.kind = reference.kind

section

variable (discipline : Discipline) (heap : Heap)

/-- The value may occur and does not refer in vain. -/
structure Value.Sound (value : Value) : Prop where
  allowed : discipline.allows value
  held (reference : Reference) : value.reference? = some reference →
    discipline.guards reference.kind → heap.Holds reference

/-- The constants of the procedure are sound. -/
def Lambda.Sound (lambda : Lambda) : Prop :=
  ∀ value, lambda.Mentions value → value.Sound discipline heap

/-- The constant is a sound value or a sound procedure. -/
def Constant.Sound : Constant → Prop
  | .value content => content.Sound discipline heap
  | .lambda inner => inner.Sound discipline heap

/-- The frame has an invocation and a sound procedure. -/
structure Frame.Sound (frame : Frame) : Prop where
  invocation : heap.Holds { kind := .invocation, handle := frame.invocation }
  lambda : frame.lambda.Sound discipline heap

/-- All values and frames of a captured state are sound. -/
structure Snapshot.Sound (snapshot : Snapshot) : Prop where
  stack : ∀ value ∈ snapshot.stack.items, value.Sound discipline heap
  calls : ∀ frame ∈ snapshot.calls.items, frame.Sound discipline heap
  current : snapshot.current.Sound discipline heap

def Object.Sound : Object → Prop
  | .pair car cdr => car.Sound discipline heap ∧ cdr.Sound discipline heap
  | .vector items => ∀ value ∈ items, value.Sound discipline heap
  | .closure lambda parent => lambda.Sound discipline heap ∧
      ∀ handle, parent = some handle → heap.Holds { kind := .invocation, handle }
  | .invocation procedure slots =>
      (∀ handle, procedure = some handle → heap.Holds { kind := .closure, handle }) ∧
      ∀ value ∈ slots, value.Sound discipline heap
  | .continuation snapshot => snapshot.Sound discipline heap

/-- The slot table is consistent and every object is sound. -/
structure Heap.Sound : Prop where
  consistent : heap.Consistent
  objects (handle : Handle) (object : Object) :
    heap.get? handle = some object → object.Sound discipline heap

end

/-- `old.Keeps new`: every object is still live and of the same kind. -/
def Heap.Keeps (old new : Heap) : Prop :=
  ∀ handle object, old.get? handle = some object →
    ∃ object', new.get? handle = some object' ∧ object'.kind = object.kind

variable {law : Discipline} {heap old new : Heap}

/-! ### Values that need no heap -/

variable {v : Value} {h : Handle} {lam : Lambda}

theorem Value.Sound.of_data (unbound : v.reference? = none) (data : v.isProcedure = false) :
    v.Sound law heap :=
  ⟨law.allows_data v data, by simp [unbound]⟩

theorem Value.sound_unspecified : Value.unspecified.Sound law heap :=
  .of_data rfl rfl

theorem Value.sound_emptyList : Value.emptyList.Sound law heap :=
  .of_data rfl rfl

theorem Value.Sound.pair (held : heap.Holds { kind := .pair, handle := h }) :
    (Value.pair h).Sound law heap :=
  ⟨law.allows_data _ rfl, fun ref tagged _ => by
    cases tagged
    exact held⟩

theorem Value.Sound.vector (held : heap.Holds { kind := .vector, handle := h }) :
    (Value.vector h).Sound law heap :=
  ⟨law.allows_data _ rfl, fun ref tagged _ => by
    cases tagged
    exact held⟩

theorem Lambda.sound_iff : lam.Sound law heap ↔
    ∀ constant ∈ lam.constants, constant.Sound law heap := by
  constructor
  · intro sound constant mem
    cases constant with
    | value v => exact sound v (.constant mem)
    | lambda inner => exact fun v mentioned => sound v (.nested mem mentioned)
  · intro sound v mentioned
    cases mentioned with
    | constant mem => exact sound _ mem
    | nested mem mentioned => exact sound _ mem v mentioned

/-! ### Heaps that keep their objects -/

theorem Heap.Keeps.refl (heap : Heap) : heap.Keeps heap :=
  fun _ obj held => ⟨obj, held, rfl⟩

theorem Heap.Keeps.trans {mid : Heap} (first : old.Keeps mid) (second : mid.Keeps new) :
    old.Keeps new := by
  intro h obj held
  obtain ⟨obj', held', kind⟩ := first h obj held
  obtain ⟨obj'', held'', kind'⟩ := second h obj' held'
  exact ⟨obj'', held'', kind'.trans kind⟩

theorem Heap.Holds.mono {ref : Reference} (holds : old.Holds ref)
    (keeps : old.Keeps new) : new.Holds ref := by
  obtain ⟨obj, held, kind⟩ := holds
  obtain ⟨obj', held', kind'⟩ := keeps _ _ held
  exact ⟨obj', held', kind'.trans kind⟩

theorem Value.Sound.mono (sound : v.Sound law old) (keeps : old.Keeps new) : v.Sound law new :=
  ⟨sound.allowed, fun ref tagged guarded => (sound.held ref tagged guarded).mono keeps⟩

theorem Lambda.Sound.mono (sound : lam.Sound law old) (keeps : old.Keeps new) : lam.Sound law new :=
  fun v mentioned => (sound v mentioned).mono keeps

theorem Frame.Sound.mono {frame : Frame} (sound : frame.Sound law old)
    (keeps : old.Keeps new) : frame.Sound law new :=
  ⟨sound.invocation.mono keeps, sound.lambda.mono keeps⟩

theorem Snapshot.Sound.mono {snapshot : Snapshot} (sound : snapshot.Sound law old)
    (keeps : old.Keeps new) : snapshot.Sound law new :=
  ⟨fun v mem => (sound.stack v mem).mono keeps,
    fun frame mem => (sound.calls frame mem).mono keeps, sound.current.mono keeps⟩

theorem Object.Sound.mono {obj : Object} (sound : obj.Sound law old)
    (keeps : old.Keeps new) : obj.Sound law new := by
  cases obj with
  | pair car cdr => exact ⟨sound.1.mono keeps, sound.2.mono keeps⟩
  | vector xs => exact fun v mem => (sound v mem).mono keeps
  | closure lam parent =>
    exact ⟨sound.1.mono keeps, fun h eq => (sound.2 h eq).mono keeps⟩
  | invocation proc slots =>
    exact ⟨fun h eq => (sound.1 h eq).mono keeps, fun v mem => (sound.2 v mem).mono keeps⟩
  | continuation snapshot => exact Snapshot.Sound.mono sound keeps

/-! ### Asking less -/

/-- `strict.Implies lax`: what is in order under one discipline is so under the other. -/
structure Discipline.Implies (strict lax : Discipline) : Prop where
  allows (value : Value) : strict.allows value → lax.allows value
  guards (kind : Kind) : lax.guards kind → strict.guards kind

section

variable {strict lax : Discipline}

theorem Value.Sound.relax {v : Value} (sound : v.Sound strict heap)
    (implies : strict.Implies lax) : v.Sound lax heap :=
  ⟨implies.allows v sound.allowed, fun ref tagged guarded =>
    sound.held ref tagged (implies.guards _ guarded)⟩

theorem Lambda.Sound.relax {lam : Lambda} (sound : lam.Sound strict heap)
    (implies : strict.Implies lax) : lam.Sound lax heap :=
  fun v mentioned => (sound v mentioned).relax implies

theorem Snapshot.Sound.relax {snapshot : Snapshot} (sound : snapshot.Sound strict heap)
    (implies : strict.Implies lax) : snapshot.Sound lax heap := by
  have frames {frame : Frame} (frame_sound : frame.Sound strict heap) : frame.Sound lax heap :=
    ⟨frame_sound.invocation, frame_sound.lambda.relax implies⟩
  exact ⟨fun v mem => (sound.stack v mem).relax implies,
    fun frame mem => frames (sound.calls frame mem), frames sound.current⟩

theorem Heap.Sound.relax (sound : heap.Sound strict) (implies : strict.Implies lax) :
    heap.Sound lax := by
  refine ⟨sound.consistent, fun h obj held => ?_⟩
  have before := sound.objects h obj held
  cases obj with
  | pair car cdr => exact ⟨before.1.relax implies, before.2.relax implies⟩
  | vector xs => exact fun v mem => (before v mem).relax implies
  | closure lam parent => exact ⟨before.1.relax implies, before.2⟩
  | invocation proc slots =>
    exact ⟨before.1, fun v mem => (before.2 v mem).relax implies⟩
  | continuation snapshot => exact Snapshot.Sound.relax before implies

end

/-! ### What the heap operations do to soundness -/

namespace Heap

theorem Keeps.alloc (sane : heap.Consistent) (obj : Object) : heap.Keeps (heap.alloc obj).2 :=
  fun _ present held => ⟨present, get?_alloc_of_live sane obj held, rfl⟩

theorem holds_alloc (sane : heap.Consistent) (obj : Object) :
    (heap.alloc obj).2.Holds { kind := obj.kind, handle := (heap.alloc obj).1 } :=
  ⟨obj, get?_alloc_self sane obj, rfl⟩

variable {obj : Object} {change : Object → Object}

theorem Sound.alloc (sound : heap.Sound law) (object_sound : obj.Sound law heap) :
    (heap.alloc obj).2.Sound law := by
  refine ⟨sound.consistent.alloc obj, fun h present held => ?_⟩
  rw [get?_alloc sound.consistent] at held
  split at held
  · cases held
    exact object_sound.mono (.alloc sound.consistent obj)
  · exact (sound.objects h present held).mono (.alloc sound.consistent obj)

theorem Sound.allocated (sound : heap.Sound law) {h : Handle}
    (allocated : heap.alloc obj = (h, new)) (object_sound : obj.Sound law heap) :
    new.Sound law ∧ heap.Keeps new ∧ new.Holds { kind := obj.kind, handle := h } := by
  have new_sound := sound.alloc object_sound
  have keeps := Keeps.alloc sound.consistent obj
  have held := holds_alloc sound.consistent obj
  rw [allocated] at new_sound keeps held
  exact ⟨new_sound, keeps, held⟩

theorem Keeps.modify (heap : Heap) (h : Handle)
    (same_kind : ∀ obj, (change obj).kind = obj.kind) : heap.Keeps (heap.modify h change) := by
  intro other obj held
  rw [get?_modify]
  split
  · exact ⟨change obj, by simp [held], same_kind obj⟩
  · exact ⟨obj, held, rfl⟩

/-- Changing objects soundly and without changing their kind leaves the heap sound. -/
theorem Sound.modify (sound : heap.Sound law) (h : Handle)
    (same_kind : ∀ obj, (change obj).kind = obj.kind)
    (change_sound : ∀ obj, heap.get? h = some obj → obj.Sound law heap →
      (change obj).Sound law heap) : (heap.modify h change).Sound law := by
  have keeps := Keeps.modify heap h same_kind
  refine ⟨sound.consistent.modify h change, fun other obj held => ?_⟩
  rw [get?_modify] at held
  split at held
  · rename_i here
    subst here
    obtain ⟨before, held', rfl⟩ := Option.map_eq_some_iff.mp held
    exact (change_sound before held' (sound.objects _ _ held')).mono keeps
  · exact (sound.objects other obj held).mono keeps

theorem Keeps.stamp (heap : Heap) (stamp : Stamp) : heap.Keeps { heap with nextStamp := stamp } :=
  fun _ obj held => ⟨obj, held, rfl⟩

theorem Sound.stamp (sound : heap.Sound law) (stamp : Stamp) :
    Heap.Sound law { heap with nextStamp := stamp } :=
  ⟨sound.consistent.stamp stamp, fun h obj held =>
    (sound.objects h obj held).mono (.stamp heap stamp)⟩

/-- What can be reached survives a collection. -/
theorem Holds.collect {roots : List Handle} {ref : Reference} (holds : heap.Holds ref)
    (reached : heap.Reachable roots ref.handle) : (heap.collect roots).2.Holds ref := by
  obtain ⟨obj, held, kind⟩ := holds
  exact ⟨obj, (get?_collect ..).mpr ⟨held, reaches_iff_reachable.mpr reached⟩, kind⟩

end Heap

section

variable {roots : List Handle}

theorem Value.Sound.collect {v : Value} (sound : v.Sound law heap)
    (reached : ∀ ref, v.reference? = some ref → heap.Reachable roots ref.handle) :
    v.Sound law (heap.collect roots).2 :=
  ⟨sound.allowed, fun ref tagged guarded =>
    (sound.held ref tagged guarded).collect (reached ref tagged)⟩

theorem Frame.Sound.collect {frame : Frame} (sound : frame.Sound law heap)
    (reached : ∀ ref, frame.Refers ref → heap.Reachable roots ref.handle) :
    frame.Sound law (heap.collect roots).2 :=
  ⟨sound.invocation.collect (reached _ .invocation), fun v mentioned =>
    (sound.lambda v mentioned).collect fun ref tagged =>
      reached ref (.constant mentioned tagged)⟩

theorem Snapshot.Sound.collect {snapshot : Snapshot} (sound : snapshot.Sound law heap)
    (reached : ∀ ref, snapshot.Refers ref → heap.Reachable roots ref.handle) :
    snapshot.Sound law (heap.collect roots).2 :=
  ⟨fun v mem => (sound.stack v mem).collect fun ref tagged =>
      reached ref (.stack mem tagged),
    fun frame mem => (sound.calls frame mem).collect fun ref held =>
      reached ref (.calls mem held),
    sound.current.collect fun ref held => reached ref (.current held)⟩

theorem Object.Sound.collect {obj : Object} (sound : obj.Sound law heap)
    (reached : ∀ ref, obj.Refers ref → heap.Reachable roots ref.handle) :
    obj.Sound law (heap.collect roots).2 := by
  cases obj with
  | pair car cdr =>
    exact ⟨sound.1.collect fun ref tagged => reached ref (.car tagged),
      sound.2.collect fun ref tagged => reached ref (.cdr tagged)⟩
  | vector xs =>
    exact fun v mem => (sound v mem).collect fun ref tagged =>
      reached ref (.item mem tagged)
  | closure lam parent =>
    refine ⟨fun v mentioned => (sound.1 v mentioned).collect fun ref tagged =>
      reached ref (.constant mentioned tagged), fun h eq => ?_⟩
    subst eq
    exact (sound.2 h rfl).collect (reached _ .parent)
  | invocation proc slots =>
    refine ⟨fun h eq => ?_, fun v mem => (sound.2 v mem).collect
      fun ref tagged => reached ref (.slot mem tagged)⟩
    subst eq
    exact (sound.1 h rfl).collect (reached _ .procedure)
  | continuation snapshot =>
    exact Snapshot.Sound.collect sound fun ref held => reached ref (.snapshot held)

/-- A collection leaves a sound heap sound: what a survivor holds can be reached through it. -/
theorem Heap.Sound.collect (sound : heap.Sound law) (roots : List Handle) :
    (heap.collect roots).2.Sound law := by
  refine ⟨sound.consistent.collect roots, fun h obj survived => ?_⟩
  obtain ⟨held, reaches⟩ := (get?_collect ..).mp survived
  exact (sound.objects h obj held).collect fun ref refers =>
    .through (reaches_iff_reachable.mp reaches) held refers

end

/-! ### What is held is live -/

section

variable {ref : Reference}

theorem Lambda.Sound.holds {lam : Lambda} {v : Value} (sound : lam.Sound .full heap)
    (mentioned : lam.Mentions v) (tagged : v.reference? = some ref) : heap.Holds ref :=
  (sound v mentioned).held ref tagged trivial

theorem Frame.Sound.holds {frame : Frame} (sound : frame.Sound .full heap)
    (refers : frame.Refers ref) : heap.Holds ref := by
  cases refers with
  | invocation => exact sound.invocation
  | constant mentioned tagged => exact sound.lambda.holds mentioned tagged

/-- In a sound heap, what an object holds is live and of the right kind. -/
theorem Object.Sound.holds {obj : Object} (sound : obj.Sound .full heap)
    (refers : obj.Refers ref) : heap.Holds ref := by
  cases refers with
  | car tagged => exact sound.1.held ref tagged trivial
  | cdr tagged => exact sound.2.held ref tagged trivial
  | item mem tagged => exact (sound _ mem).held ref tagged trivial
  | parent => exact sound.2 _ rfl
  | constant mentioned tagged => exact sound.1.holds mentioned tagged
  | procedure => exact sound.1 _ rfl
  | slot mem tagged => exact (sound.2 _ mem).held ref tagged trivial
  | snapshot held =>
    cases held with
    | stack mem tagged => exact (sound.stack _ mem).held ref tagged trivial
    | calls mem held => exact (sound.calls _ mem).holds held
    | current held => exact sound.current.holds held

end

end MiniScheme
