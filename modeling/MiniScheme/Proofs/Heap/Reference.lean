import MiniScheme.Proofs.Heap.Table

/-!
# References

Which references an object holds, said without the functions that the collector uses to trace it.
A reference is a handle together with the kind of object that its holder takes it to refer to: the
tag of a value tells the kind, the parent of a closure and the invocation of a frame are
invocations, and the procedure of an invocation is a closure. The constants of a procedure count
as held by whatever holds the procedure, and so do those of the procedures nested in it.
-/

namespace MiniScheme

/-- The kinds of heap objects. -/
inductive Kind where
  | pair
  | vector
  | closure
  | invocation
  | continuation
  deriving DecidableEq, Repr

def Object.kind : Object → Kind
  | .pair _ _ => .pair
  | .vector _ => .vector
  | .closure _ _ => .closure
  | .invocation _ _ => .invocation
  | .continuation _ => .continuation

/-- A handle and the kind of object that it is taken to refer to. -/
structure Reference where
  kind : Kind
  handle : Handle
  deriving DecidableEq, Repr

/-- The reference that a value is, if it refers to the heap. -/
def Value.reference? : Value → Option Reference
  | .pair handle => some { kind := .pair, handle }
  | .vector handle => some { kind := .vector, handle }
  | .closure handle => some { kind := .closure, handle }
  | .continuation handle => some { kind := .continuation, handle }
  | _ => none

/-- `lambda.Mentions value`: the value is a constant of the procedure or of one nested in it. -/
inductive Lambda.Mentions : Lambda → Value → Prop where
  | constant {lambda : Lambda} {value : Value} (member : .value value ∈ lambda.constants) :
      Mentions lambda value
  | nested {lambda inner : Lambda} {value : Value} (member : .lambda inner ∈ lambda.constants)
      (mentioned : Mentions inner value) : Mentions lambda value

/-- `frame.Refers reference`: the frame holds the reference. -/
inductive Frame.Refers (frame : Frame) : Reference → Prop where
  | invocation : Refers frame { kind := .invocation, handle := frame.invocation }
  | constant {value : Value} {reference : Reference} (mentioned : frame.lambda.Mentions value)
      (tagged : value.reference? = some reference) : Refers frame reference

/-- `snapshot.Refers reference`: the captured state holds the reference. -/
inductive Snapshot.Refers (snapshot : Snapshot) : Reference → Prop where
  | stack {value : Value} {reference : Reference} (member : value ∈ snapshot.stack.items)
      (tagged : value.reference? = some reference) : Refers snapshot reference
  | calls {frame : Frame} {reference : Reference} (member : frame ∈ snapshot.calls.items)
      (held : frame.Refers reference) : Refers snapshot reference
  | current {reference : Reference} (held : snapshot.current.Refers reference) :
      Refers snapshot reference

/-- `object.Refers reference`: the object holds the reference. -/
inductive Object.Refers : Object → Reference → Prop where
  | car {car cdr : Value} {reference : Reference} (tagged : car.reference? = some reference) :
      Refers (.pair car cdr) reference
  | cdr {car cdr : Value} {reference : Reference} (tagged : cdr.reference? = some reference) :
      Refers (.pair car cdr) reference
  | item {items : Array Value} {value : Value} {reference : Reference} (member : value ∈ items)
      (tagged : value.reference? = some reference) : Refers (.vector items) reference
  | parent {lambda : Lambda} {parent : Handle} :
      Refers (.closure lambda (some parent)) { kind := .invocation, handle := parent }
  | constant {lambda : Lambda} {parent : Option Handle} {value : Value} {reference : Reference}
      (mentioned : lambda.Mentions value) (tagged : value.reference? = some reference) :
      Refers (.closure lambda parent) reference
  | procedure {procedure : Handle} {slots : Array Value} :
      Refers (.invocation (some procedure) slots) { kind := .closure, handle := procedure }
  | slot {procedure : Option Handle} {slots : Array Value} {value : Value} {reference : Reference}
      (member : value ∈ slots) (tagged : value.reference? = some reference) :
      Refers (.invocation procedure slots) reference
  | snapshot {snapshot : Snapshot} {reference : Reference} (held : snapshot.Refers reference) :
      Refers (.continuation snapshot) reference

/-- `heap.Reachable roots handle`: the handle can be reached from the roots through live
objects. -/
inductive Heap.Reachable (heap : Heap) (roots : List Handle) : Handle → Prop where
  | root {handle : Handle} (member : handle ∈ roots) : Reachable heap roots handle
  | through {holder : Handle} {object : Object} {reference : Reference}
      (reached : Reachable heap roots holder) (held : heap.get? holder = some object)
      (refers : object.Refers reference) : Reachable heap roots reference.handle

/-! ### Tracing finds every reference -/

theorem Value.handle?_eq (v : Value) : v.handle? = v.reference?.map Reference.handle := by
  cases v <;> rfl

variable {v : Value} {h : Handle} {lam : Lambda}

theorem Value.handle?_eq_some_iff :
    v.handle? = some h ↔ ∃ kind, v.reference? = some { kind, handle := h } := by
  rw [v.handle?_eq, Option.map_eq_some_iff]
  constructor
  · rintro ⟨ref, tagged, rfl⟩
    exact ⟨ref.kind, tagged⟩
  · rintro ⟨kind, tagged⟩
    exact ⟨_, tagged, rfl⟩

theorem mem_constantHandles {constants : List Constant} :
    h ∈ constantHandles constants ↔ ∃ constant ∈ constants, h ∈ constant.handles := by
  induction constants with
  | nil => simp [constantHandles]
  | cons constant constants ih => simp [constantHandles, ih]

theorem Lambda.mem_handles :
    h ∈ lam.handles ↔ ∃ constant ∈ lam.constants, h ∈ constant.handles := by
  obtain ⟨name, argumentCount, rest, slotCount, ⟨constants⟩, body⟩ := lam
  simp [Lambda.handles, mem_constantHandles]

theorem Lambda.mem_handles_of_mentions (mentioned : lam.Mentions v)
    (tagged : v.handle? = some h) : h ∈ lam.handles := by
  induction mentioned with
  | constant mem =>
    exact Lambda.mem_handles.mpr ⟨_, mem, by simp [Constant.handles, tagged]⟩
  | nested mem _ ih =>
    exact Lambda.mem_handles.mpr ⟨_, mem, by simpa [Constant.handles] using ih tagged⟩

theorem Lambda.mentions_of_mem_handles (lam : Lambda) (mem : h ∈ lam.handles) :
    ∃ v, lam.Mentions v ∧ v.handle? = some h := by
  obtain ⟨constant, held, mem⟩ := Lambda.mem_handles.mp mem
  cases constant with
  | value v =>
    rw [Constant.handles, Option.mem_toList] at mem
    exact ⟨v, .constant held, mem⟩
  | lambda inner =>
    rw [Constant.handles] at mem
    obtain ⟨v, mentioned, tagged⟩ := inner.mentions_of_mem_handles mem
    exact ⟨v, .nested held mentioned, tagged⟩
termination_by sizeOf lam
decreasing_by exact Lambda.sizeOf_lt_of_mem held

theorem Lambda.mem_handles_iff :
    h ∈ lam.handles ↔ ∃ v kind, lam.Mentions v ∧ v.reference? = some { kind, handle := h } := by
  constructor
  · intro mem
    obtain ⟨v, mentioned, tagged⟩ := lam.mentions_of_mem_handles mem
    obtain ⟨kind, tagged⟩ := Value.handle?_eq_some_iff.mp tagged
    exact ⟨v, kind, mentioned, tagged⟩
  · rintro ⟨v, kind, mentioned, tagged⟩
    exact Lambda.mem_handles_of_mentions mentioned (Value.handle?_eq_some_iff.mpr ⟨kind, tagged⟩)

theorem Frame.mem_handles_iff {frame : Frame} :
    h ∈ frame.handles ↔ ∃ kind, frame.Refers { kind, handle := h } := by
  rw [Frame.handles, List.mem_cons, Lambda.mem_handles_iff]
  constructor
  · rintro (rfl | ⟨v, kind, mentioned, tagged⟩)
    · exact ⟨_, .invocation⟩
    · exact ⟨kind, .constant mentioned tagged⟩
  · rintro ⟨kind, held⟩
    cases held with
    | invocation => exact Or.inl rfl
    | constant mentioned tagged => exact Or.inr ⟨_, kind, mentioned, tagged⟩

theorem Snapshot.mem_handles_iff {snapshot : Snapshot} :
    h ∈ snapshot.handles ↔ ∃ kind, snapshot.Refers { kind, handle := h } := by
  simp only [Snapshot.handles, List.mem_append, List.mem_filterMap, List.mem_flatMap,
    Frame.mem_handles_iff, Value.handle?_eq_some_iff]
  constructor
  · rintro ((⟨v, mem, kind, tagged⟩ | ⟨frame, mem, kind, held⟩) | ⟨kind, held⟩)
    · exact ⟨kind, .stack mem tagged⟩
    · exact ⟨kind, .calls mem held⟩
    · exact ⟨kind, .current held⟩
  · rintro ⟨kind, held⟩
    cases held with
    | stack mem tagged => exact Or.inl (Or.inl ⟨_, mem, kind, tagged⟩)
    | calls mem held => exact Or.inl (Or.inr ⟨_, mem, kind, held⟩)
    | current held => exact Or.inr ⟨kind, held⟩

/-- Tracing an object yields the handles that it holds, and no others. -/
theorem Object.mem_handles_iff {obj : Object} :
    h ∈ obj.handles ↔ ∃ kind, obj.Refers { kind, handle := h } := by
  cases obj with
  | pair car cdr =>
    simp only [Object.handles, List.mem_append, Option.mem_toList, Value.handle?_eq_some_iff]
    constructor
    · rintro (⟨kind, tagged⟩ | ⟨kind, tagged⟩)
      · exact ⟨kind, .car tagged⟩
      · exact ⟨kind, .cdr tagged⟩
    · rintro ⟨kind, held⟩
      cases held with
      | car tagged => exact Or.inl ⟨kind, tagged⟩
      | cdr tagged => exact Or.inr ⟨kind, tagged⟩
  | vector xs =>
    simp only [Object.handles, List.mem_filterMap, Array.mem_toList_iff, Value.handle?_eq_some_iff]
    constructor
    · rintro ⟨v, mem, kind, tagged⟩
      exact ⟨kind, .item mem tagged⟩
    · rintro ⟨kind, held⟩
      cases held with
      | item mem tagged => exact ⟨_, mem, kind, tagged⟩
  | closure lam parent =>
    rw [Object.handles, List.mem_append, Option.mem_toList, Lambda.mem_handles_iff]
    constructor
    · rintro (eq | ⟨v, kind, mentioned, tagged⟩)
      · cases eq
        exact ⟨_, .parent⟩
      · exact ⟨kind, .constant mentioned tagged⟩
    · rintro ⟨kind, held⟩
      cases held with
      | parent => exact Or.inl rfl
      | constant mentioned tagged => exact Or.inr ⟨_, kind, mentioned, tagged⟩
  | invocation proc slots =>
    simp only [Object.handles, List.mem_append, Option.mem_toList, List.mem_filterMap,
      Array.mem_toList_iff, Value.handle?_eq_some_iff]
    constructor
    · rintro (eq | ⟨v, mem, kind, tagged⟩)
      · cases eq
        exact ⟨_, .procedure⟩
      · exact ⟨kind, .slot mem tagged⟩
    · rintro ⟨kind, held⟩
      cases held with
      | procedure => exact Or.inl rfl
      | slot mem tagged => exact Or.inr ⟨_, mem, kind, tagged⟩
  | continuation snapshot =>
    rw [Object.handles, Snapshot.mem_handles_iff]
    constructor
    · rintro ⟨kind, held⟩
      exact ⟨kind, .snapshot held⟩
    · rintro ⟨kind, held⟩
      cases held with
      | snapshot held => exact ⟨kind, held⟩

theorem Heap.reaches_iff_reachable {heap : Heap} {roots : List Handle} :
    heap.Reaches roots h ↔ heap.Reachable roots h := by
  constructor
  · intro reached
    induction reached with
    | root mem => exact .root mem
    | through _ held mem ih =>
      obtain ⟨kind, refers⟩ := Object.mem_handles_iff.mp mem
      exact .through ih held refers
  · intro reached
    induction reached with
    | root mem => exact .root mem
    | through _ held refers ih =>
      exact .through ih held (Object.mem_handles_iff.mpr ⟨_, refers⟩)

end MiniScheme
