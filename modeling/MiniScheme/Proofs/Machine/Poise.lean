import MiniScheme.Proofs.Code.Heights
import MiniScheme.Proofs.Machine.Stability

/-!
# Well-formed control state

A frame is poised if its code is what has been loaded, control gets to that place in it with as many
operands, its invocation and those around it have the slots that the code counts on, and the operand
stack is laid out the way the code expects, down to where the operands of the caller start. A frame
that waits for the result of a call is directly behind the instruction that made it, and when a
procedure was entered the stacks had room for its frame. Closures are to have sane code, and what a
continuation captured is to be poised to receive a value. All this survives as long as invocations
and closures do.
-/

namespace MiniScheme

/-- What scripts may get hold of: any closure but that of the top level, and the native procedures
that are registered. Pairs and vectors may be gone: constants of code that was listed but never run
are not kept. -/
def Discipline.script (topClosure : Handle) (natives : Nat) : Discipline where
  allows
    | .closure handle => handle ≠ topClosure
    | .native id => id < natives
    | _ => True
  guards kind := kind = .closure ∨ kind = .continuation
  allows_data value data := by
    cases value <;> trivial

theorem Layout.length {n : Nat} {saved : List Nat} {xs below : List Value}
    (layout : Layout n saved xs below) : xs.length = below.length + Height.size ⟨n, saved⟩ := by
  induction layout with
  | base => rfl
  | value _ _ ih =>
    simp only [List.length_cons, ih, Height.size]
    omega
  | count _ _ ih =>
    simp only [List.length_cons, ih, Height.size, List.sum_cons]
    omega

/-- The frame is directly behind an instruction that makes a call. -/
def Frame.Called (data : List Lambda) (frame : Frame) : Prop :=
  ∃ pc height, frame.pc = pc + 1 ∧ frame.lambda.body.op? pc = some .call ∧
    frame.lambda.Located data pc height

namespace Heap

/-- Control gets to where a frame is with what it has on the stack once `due` values have been pushed,
and its invocation has the slots for it. -/
structure Supports (heap : Heap) (data : List Lambda) (level : Level) (due : Nat) (frame : Frame)
    (saved : List Nat) : Prop where
  sited : ∃ shape, heap.Encloses shape frame.invocation ∧
    frame.lambda.Sited data level shape frame.pc ⟨frame.operandCount + due, saved⟩
  called : 0 < due → frame.Called data

/-- `heap.Poised data ceiling due frame calls items`: once `due` values have been pushed, the frame
can go on, and so can the frames of the pending calls once they receive a value each. The last of
them, or the frame itself if there are none, belongs to a script. -/
inductive Poised (heap : Heap) (data : List Lambda) (ceiling : Nat) :
    Nat → Frame → List Frame → List Value → Prop where
  | script {due : Nat} {frame : Frame} {items : List Value} {saved : List Nat}
      (supports : heap.Supports data .script due frame saved)
      (layout : Layout frame.operandCount saved items []) :
      Poised heap data ceiling due frame [] items
  | procedure {due : Nat} {frame caller : Frame} {calls : List Frame} {items below : List Value}
      {saved : List Nat} (supports : heap.Supports data .procedure due frame saved)
      (layout : Layout frame.operandCount saved items below)
      (room : below.length + calls.length < ceiling)
      (waits : Poised heap data ceiling 1 caller calls below) :
      Poised heap data ceiling due frame (caller :: calls) items

/-- What lies below the operands of a frame: nothing below a script's, and the operands of the
caller, which waits for a value, below a procedure's. -/
def Beneath (heap : Heap) (data : List Lambda) (ceiling : Nat) :
    Level → List Frame → List Value → Prop
  | .script, calls, below => calls = [] ∧ below = []
  | .procedure, calls, below => ∃ caller rest, calls = caller :: rest ∧
      below.length + rest.length < ceiling ∧ heap.Poised data ceiling 1 caller rest below

variable {heap old new : Heap} {data data' : List Lambda} {cap due : Nat} {frame : Frame}
  {calls : List Frame} {xs below : List Value} {level : Level} {saved : List Nat}
  {topClosure : Handle}

theorem poised_iff :
    heap.Poised data cap due frame calls xs ↔ ∃ level saved below,
      heap.Supports data level due frame saved ∧ Layout frame.operandCount saved xs below ∧
        heap.Beneath data cap level calls below := by
  constructor
  · intro poised
    cases poised with
    | script supports layout => exact ⟨.script, _, [], supports, layout, rfl, rfl⟩
    | procedure supports layout room waits =>
      exact ⟨.procedure, _, _, supports, layout, _, _, rfl, room, waits⟩
  · rintro ⟨level, saved, below, supports, layout, beneath⟩
    cases level with
    | script =>
      obtain ⟨rfl, rfl⟩ := beneath
      exact .script supports layout
    | procedure =>
      obtain ⟨caller, rest, rfl, room, waits⟩ := beneath
      exact .procedure supports layout room waits

theorem Supports.mono (supports : old.Supports data level due frame saved)
    (persists : old.Persists new) (more : data ⊆ data') :
    new.Supports data' level due frame saved := by
  obtain ⟨⟨shape, encloses, sited⟩, called⟩ := supports
  refine ⟨⟨shape, encloses.mono persists, sited.mono more⟩, fun waits => ?_⟩
  obtain ⟨pc, height, behind, fetched, located⟩ := called waits
  exact ⟨pc, height, behind, fetched, located.mono more⟩

theorem Poised.mono (poised : old.Poised data cap due frame calls xs)
    (persists : old.Persists new) (more : data ⊆ data') :
    new.Poised data' cap due frame calls xs := by
  induction poised with
  | script supports layout => exact .script (supports.mono persists more) layout
  | procedure supports layout room _ ih =>
    exact .procedure (supports.mono persists more) layout room ih

theorem Beneath.mono (beneath : old.Beneath data cap level calls below)
    (persists : old.Persists new) : new.Beneath data cap level calls below := by
  cases level with
  | script => exact beneath
  | procedure =>
    obtain ⟨caller, rest, rfl, room, waits⟩ := beneath
    exact ⟨caller, rest, rfl, room, waits.mono persists (List.Subset.refl _)⟩

/-- A frame that receives the value it waits for can go on. -/
theorem Poised.push (poised : heap.Poised data cap 1 frame calls xs) (v : Value) :
    heap.Poised data cap 0 { frame with operandCount := frame.operandCount + 1 } calls
      (v :: xs) := by
  cases poised with
  | script supports layout =>
    exact .script ⟨supports.sited, nofun⟩ (.value v layout)
  | procedure supports layout room waits =>
    exact .procedure ⟨supports.sited, nofun⟩ (.value v layout) room waits

/-- What lies below the current frame is within the ceiling, together with the frames. -/
theorem Beneath.room (beneath : heap.Beneath data cap level calls below) :
    below.length + calls.length ≤ cap := by
  cases level with
  | script =>
    obtain ⟨rfl, rfl⟩ := beneath
    exact Nat.zero_le _
  | procedure =>
    obtain ⟨caller, rest, rfl, room, -⟩ := beneath
    exact room

/-- The stacks are within the ceiling, the operands of the current frame aside. Those are as many as
its code tells. -/
theorem Poised.bound (poised : heap.Poised data cap due frame calls xs) :
    calls.length ≤ cap ∧ ∃ size ∈ heights data, xs.length + due + calls.length ≤ cap + size := by
  obtain ⟨level, saved, below, supports, layout, beneath⟩ := poised_iff.mp poised
  have room := beneath.room
  have length := layout.length
  obtain ⟨shape, -, sited⟩ := supports.sited
  obtain ⟨src, front, offset, loaded, -, -, -, reaches⟩ := sited.located
  refine ⟨by omega, _, ⟨src, offset, _, loaded, reaches, rfl⟩, ?_⟩
  simp only [Height.size] at length ⊢
  omega

theorem Poised.collect {roots : List Handle} (poised : heap.Poised data cap due frame calls xs)
    (reached : ∀ other ∈ frame :: calls, heap.Reachable roots other.invocation) :
    (heap.collect roots).2.Poised data cap due frame calls xs := by
  have kept {level : Level} {due : Nat} {frame : Frame} {saved : List Nat}
      (supports : heap.Supports data level due frame saved)
      (reached : heap.Reachable roots frame.invocation) :
      (heap.collect roots).2.Supports data level due frame saved := by
    obtain ⟨⟨shape, encloses, sited⟩, called⟩ := supports
    exact ⟨⟨shape, encloses.collect reached, sited⟩, called⟩
  induction poised with
  | script supports layout => exact .script (kept supports (reached _ (by simp))) layout
  | procedure supports layout room _ ih =>
    exact .procedure (kept supports (reached _ (by simp))) layout room
      (ih fun other mem => reached other (List.mem_cons_of_mem _ mem))

/-! ### Closures and captured states -/

def Founds (heap : Heap) (data : List Lambda) (lambda : Lambda) (parent : Option Handle) : Prop :=
  Loaded data lambda ∧ ∃ outer shape,
    parent = some outer ∧ heap.Encloses shape outer ∧ lambda.body.Proper (lambda.setting shape)

structure Verified (heap : Heap) (data : List Lambda) (ceiling : Nat) (topClosure : Handle) : Prop
    where
  closure (handle : Handle) (lambda : Lambda) (parent : Option Handle) : handle ≠ topClosure →
    heap.get? handle = some (.closure lambda parent) → heap.Founds data lambda parent
  continuation (handle : Handle) (snapshot : Snapshot) :
    heap.get? handle = some (.continuation snapshot) →
      heap.Poised data ceiling 1 snapshot.current snapshot.calls.items snapshot.stack.items

theorem Founds.mono {lam : Lambda} {parent : Option Handle}
    (founds : old.Founds data lam parent) (persists : old.Persists new) (more : data ⊆ data') :
    new.Founds data' lam parent := by
  obtain ⟨loaded, outer, shape, created, encloses, proper⟩ := founds
  exact ⟨loaded.mono more, outer, shape, created, encloses.mono persists, proper⟩

theorem Verified.of_persists (verified : old.Verified data cap topClosure)
    (persists : old.Persists new) (more : data ⊆ data') (closures : ∀ h lam parent, h ≠ topClosure →
      new.get? h = some (.closure lam parent) → old.get? h = some (.closure lam parent))
    (continuations : ∀ h snapshot, new.get? h = some (.continuation snapshot) →
      old.get? h = some (.continuation snapshot)) : new.Verified data' cap topClosure := by
  constructor
  · intro h lam parent other held
    have founds := verified.closure h lam parent other (closures h _ _ other held)
    exact founds.mono persists more
  · intro h snapshot held
    have poised := verified.continuation h snapshot (continuations h snapshot held)
    exact poised.mono persists more

section

variable (verified : heap.Verified data cap topClosure)

include verified

theorem Verified.grown {law : Discipline} (grown : heap.Grown law new) :
    new.Verified data cap topClosure :=
  verified.of_persists grown.steady.persists (List.Subset.refl _)
    (fun h _ _ _ held => (grown.spares h _ rfl).mpr held)
    (fun h _ held => (grown.spares h _ rfl).mpr held)

/-- A new object is verified if it is a closure with sane code, a continuation that can receive
a value, or neither. -/
theorem Verified.alloc (sane : heap.Consistent) (obj : Object)
    (closure : ∀ lam parent, obj = .closure lam parent → heap.Founds data lam parent)
    (cont : ∀ snapshot, obj = .continuation snapshot →
      heap.Poised data cap 1 snapshot.current snapshot.calls.items snapshot.stack.items) :
    (heap.alloc obj).2.Verified data cap topClosure := by
  have persists := (Steady.alloc sane obj).persists
  have same := List.Subset.refl data
  constructor
  · intro h lam parent other held
    rw [get?_alloc sane] at held
    split at held
    · exact (closure lam parent (Option.some.inj held)).mono persists same
    · exact (verified.closure h lam parent other held).mono persists same
  · intro h snapshot held
    rw [get?_alloc sane] at held
    split at held
    · exact (cont snapshot (Option.some.inj held)).mono persists same
    · exact (verified.continuation h snapshot held).mono persists same

theorem Verified.modifySlots (inv : Handle) {change : Array Value → Array Value}
    (same : ∀ slots, (change slots).size = slots.size) :
    (heap.modifySlots inv change).Verified data cap topClosure :=
  verified.of_persists (Steady.modifySlots heap inv same).persists (List.Subset.refl _)
    (fun _ _ _ _ held => get?_of_modifySlots (by simp [Object.kind]) held)
    (fun _ _ held => get?_of_modifySlots (by simp [Object.kind]) held)

/-- New code of the top level is nothing that scripts could get hold of. -/
theorem Verified.modifyLambda (change : Lambda → Lambda) (more : data ⊆ data') :
    (heap.modifyLambda topClosure change).Verified data' cap topClosure := by
  apply verified.of_persists (.modifyLambda heap topClosure change) more
  · intro h lam parent other held
    rw [get?_modifyLambda, if_neg other] at held
    exact held
  · intro h snapshot held
    rw [get?_modifyLambda] at held
    split at held
    · obtain ⟨before, present, eq⟩ := Option.map_eq_some_iff.mp held
      cases before with
      | closure => cases eq
      | pair | vector | invocation | continuation => exact present.trans (congrArg some eq)
    · exact held

theorem Verified.collect (roots : List Handle) :
    (heap.collect roots).2.Verified data cap topClosure := by
  constructor
  · intro h lam parent other survived
    obtain ⟨held, reaches⟩ := (get?_collect ..).mp survived
    obtain ⟨loaded, outer, shape, rfl, encloses, proper⟩ := verified.closure h lam parent other held
    have reached := (reaches_iff_reachable.mp reaches).through held .parent
    exact ⟨loaded, outer, shape, rfl, encloses.collect reached, proper⟩
  · intro h snapshot survived
    obtain ⟨held, reaches⟩ := (get?_collect ..).mp survived
    have reached := reaches_iff_reachable.mp reaches
    apply (verified.continuation h snapshot held).collect
    exact List.forall_mem_cons.mpr ⟨reached.through held (.snapshot (.current .invocation)),
      fun frame mem => reached.through held (.snapshot (.calls mem .invocation))⟩

end

end Heap

/-! ### Machines -/

namespace Machine

/-- What the scripts of the machine may get hold of. -/
def discipline (machine : Machine) : Discipline :=
  .script machine.topClosure machine.natives.size

def ground (machine : Machine) :=
  (machine.heap, machine.store.hosts, machine.ceiling, machine.natives, machine.global,
    machine.topLevel, machine.topClosure)

structure Secure (data : List Lambda) (machine : Machine) : Prop where
  sound : machine.Sound machine.discipline
  /-- Native procedures are tame, whichever others are registered after them. -/
  tame (id : NativeId) (native : Native) : machine.natives[id]? = some native →
    ∀ limit, id < limit → native.Tame (.script machine.topClosure limit)
  civil : machine.store.Civil
  verified : machine.heap.Verified data machine.ceiling machine.topClosure

/-- `before.Follows data after`: what a run keeps of the scopes, the objects and the heap. -/
structure Follows (data : List Lambda) (before after : Machine) : Prop
    extends Maintains before after where
  ceiling : after.ceiling = before.ceiling
  civil : after.store.Civil
  verified : after.heap.Verified data after.ceiling after.topClosure

/-- The machine can go on. -/
structure Runs (data : List Lambda) (machine : Machine) : Prop where
  active : machine.suspended = none
  poised : machine.heap.Poised data machine.ceiling 0 machine.current machine.calls.items
    machine.stack.items

/-- The machine can go on once the result of a call is delivered. -/
def Awaits (data : List Lambda) (machine : Machine) : Bool → Prop
  | false => machine.heap.Poised data machine.ceiling 1 machine.current machine.calls.items
      machine.stack.items
  | true => machine.heap.Beneath data machine.ceiling .procedure machine.calls.items
      machine.stack.items

/-- The machine can go on, at once or when it is woken. -/
def Ready (data : List Lambda) (machine : Machine) : Prop :=
  machine.Runs data ∨ ∃ tail, machine.suspended = some tail ∧ machine.Awaits data tail

variable {data : List Lambda} {m before mid after : Machine} {tail : Bool}

theorem Anchors.discipline (anchors : before.Anchors after) :
    after.discipline = before.discipline := by
  rw [Machine.discipline, Machine.discipline, anchors.topClosure, anchors.natives]

theorem Follows.trans (first : before.Follows data mid) (second : mid.Follows data after) :
    before.Follows data after :=
  ⟨first.toMaintains.trans second.toMaintains, second.ceiling.trans first.ceiling, second.civil,
    second.verified⟩

theorem Secure.stays (secure : m.Secure data) : m.Follows data m :=
  ⟨.refl m, rfl, secure.civil, secure.verified⟩

theorem Follows.control (follows : before.Follows data mid)
    (same : after.ground = mid.ground) : before.Follows data after := by
  simp only [ground, Prod.mk.injEq] at same
  obtain ⟨heap, hosts, cap, natives, global, topLevel, topClosure⟩ := same
  refine ⟨follows.toMaintains.trans (.control ⟨global, topLevel, topClosure, natives⟩ heap),
    cap.trans follows.ceiling, ?_, ?_⟩
  · rw [Store.Civil, hosts]
    exact follows.civil
  · rw [heap, cap, topClosure]
    exact follows.verified

theorem Follows.secure (follows : before.Follows data after) (secure : before.Secure data)
    (sound : after.Sound before.discipline) : after.Secure data := by
  have anchors := follows.anchors
  refine ⟨?_, fun id native found limit bound => ?_, follows.civil, follows.verified⟩
  · rw [anchors.discipline]
    exact sound
  · rw [anchors.natives] at found
    rw [anchors.topClosure]
    exact secure.tame id native found limit bound

theorem Follows.reset (follows : before.Follows data after) : before.Follows data after.reset := by
  rw [Machine.reset]
  split <;> exact follows.control rfl

theorem ground_complete (m : Machine) (v : Value) (tail : Bool) :
    (m.complete v tail).ground = m.ground := by
  rw [complete]
  split
  · split <;> rfl
  · rfl

theorem Awaits.mono {store : Store} (awaits : m.Awaits data tail)
    (persists : m.heap.Persists store.heap) : Awaits data { m with store } tail := by
  cases tail with
  | false => exact Heap.Poised.mono awaits persists (List.Subset.refl _)
  | true =>
    have beneath : m.heap.Beneath data m.ceiling .procedure _ _ := awaits
    exact beneath.mono persists

theorem Ready.mono {store : Store} (ready : m.Ready data)
    (persists : m.heap.Persists store.heap) : Ready data { m with store } := by
  rcases ready with runs | ⟨tail, suspended, awaits⟩
  · exact .inl ⟨runs.active, runs.poised.mono persists (List.Subset.refl _)⟩
  · exact .inr ⟨tail, suspended, awaits.mono persists⟩

/-- Delivering the result of a call lets the machine go on. -/
theorem Awaits.complete (awaits : m.Awaits data tail) (active : m.suspended = none)
    (v : Value) : (m.complete v tail).Runs data := by
  cases tail with
  | false => exact ⟨active, Heap.Poised.push awaits v⟩
  | true =>
    obtain ⟨caller, calls, pending, -, poised⟩ := awaits
    have completed : m.complete v true =
        push v { m with calls := .ofItems calls, current := caller } := by
      simp [Machine.complete, Stack.pop?_of_items pending]
    rw [completed]
    exact ⟨active, poised.push v⟩

/-- The state that a capture saves waits for a value. -/
theorem Awaits.snapshot (awaits : m.Awaits data tail) :
    m.heap.Poised data m.ceiling 1 (m.snapshot tail).current
      (m.snapshot tail).calls.items (m.snapshot tail).stack.items := by
  cases tail with
  | false => exact awaits
  | true =>
    obtain ⟨caller, calls, pending, -, poised⟩ := awaits
    have saved : m.snapshot true =
        { stack := m.stack, calls := .ofItems calls, current := caller } := by
      simp [Machine.snapshot, Stack.pop?_of_items pending]
    rw [saved]
    exact poised

theorem Ready.wake (ready : m.Ready data) (v : Value) : (m.wake v).2.Ready data := by
  rcases ready with runs | ⟨tail, suspended, awaits⟩
  · simp only [Machine.wake, runs.active]
    exact .inl runs
  · have awaits : Awaits data { m with suspended := none } tail := by
      cases tail <;> exact awaits
    simp only [Machine.wake, suspended]
    exact .inl (awaits.complete rfl v)

theorem Follows.wake (follows : before.Follows data m) (v : Value) :
    before.Follows data (m.wake v).2 := by
  rw [Machine.wake]
  split
  · exact follows.control (ground_complete ..)
  · exact follows

end Machine

end MiniScheme
