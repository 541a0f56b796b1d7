import MiniScheme.Proofs.Machine.Progress
import MiniScheme.Proofs.Stdlib.Likeness

/-!
# Padded call stacks

A frame whose code only leaves the procedure hands on the value that it receives. Two machines that
differ in such frames, those of the current call stack and those of the call stacks that
continuations have captured, mirror each other: every instruction that does not touch the call stack
is carried out alike by both.
-/

namespace MiniScheme

def Op.isCall : Op → Bool
  | .call | .tailCall | .return => true
  | _ => false

/-! ### Padded call stacks -/

/-- `Padded frames frames'`: the second stack has further frames in it that only hand on the value
that they receive. -/
inductive Padded : List Frame → List Frame → Prop where
  | nil : Padded [] []
  | keep {frames frames' : List Frame} (frame : Frame) (rest : Padded frames frames') :
      Padded (frame :: frames) (frame :: frames')
  | pad {frames frames' : List Frame} {frame : Frame}
      (returns : frame.lambda.body.Returns frame.pc) (rest : Padded frames frames') :
      Padded frames (frame :: frames')

namespace Padded

theorem refl (frames : List Frame) : Padded frames frames := by
  induction frames with
  | nil => exact .nil
  | cons frame frames ih => exact .keep frame ih

variable {frames frames' : List Frame}

theorem length_le (padded : Padded frames frames') : frames.length ≤ frames'.length := by
  induction padded with
  | nil => exact Nat.le_refl _
  | keep frame _ ih => exact Nat.succ_le_succ ih
  | pad _ _ ih => exact Nat.le_succ_of_le ih

theorem exists_cons {frame : Frame} (padded : Padded (frame :: frames) frames') :
    ∃ frame' rest, frames' = frame' :: rest := by
  cases padded with
  | keep => exact ⟨_, _, rfl⟩
  | pad => exact ⟨_, _, rfl⟩

end Padded

/-- The snapshots are of the same operands and of call stacks of which the second is padded. -/
structure Snapshot.Pads (snapshot snapshot' : Snapshot) : Prop where
  stack : snapshot'.stack = snapshot.stack
  frames : Padded (snapshot.current :: snapshot.calls.items)
    (snapshot'.current :: snapshot'.calls.items)

/-- The objects are the same, or continuations that differ in padding. -/
inductive Object.Pads : Object → Object → Prop where
  | same (object : Object) : Pads object object
  | continuation {snapshot snapshot' : Snapshot} (pads : snapshot.Pads snapshot') :
      Pads (.continuation snapshot) (.continuation snapshot')

theorem likeness_pads : Likeness fun _ => Object.Pads := by
  constructor
  · intro _ obj _
    exact .same obj
  · intro _ obj obj' pads plain
    cases pads with
    | same => rfl
    | continuation => cases plain
  · intro _ obj obj' pads
    cases pads with
    | same => rfl
    | continuation => rfl

namespace Heap

variable {heap heap' : Heap}

section

variable (alike : heap.Alike (fun _ => Object.Pads) heap')

include alike

theorem Alike.closure?_eq : heap'.closure? = heap.closure? := by
  funext h
  have related := alike.get? h
  unfold Heap.closure?
  generalize heap.get? h = found at related
  generalize heap'.get? h = found' at related
  cases related with
  | none => rfl
  | some objects =>
    cases objects with
    | same => rfl
    | continuation => rfl

theorem Alike.continuation? (h : Handle) :
    Option.Rel Snapshot.Pads (heap.continuation? h) (heap'.continuation? h) := by
  have related := alike.get? h
  unfold Heap.continuation?
  generalize heap.get? h = found at related
  generalize heap'.get? h = found' at related
  cases related with
  | none => exact .none
  | @some obj obj' objects =>
    cases objects with
    | same =>
      cases obj with
      | continuation snapshot => exact .some ⟨rfl, .refl _⟩
      | pair | vector | closure | invocation => exact .none
    | continuation pads => exact .some pads

theorem Alike.modifyLambda (h : Handle) (change : Lambda → Lambda) :
    (heap.modifyLambda h change).Alike (fun _ => Object.Pads) (heap'.modifyLambda h change) := by
  apply alike.modify
  intro _ obj obj' pads
  cases pads with
  | same => exact .same _
  | continuation pads => exact .continuation pads

theorem Alike.enclosing? : Machine.enclosing? heap' = Machine.enclosing? heap := by
  funext depth inv
  induction depth generalizing inv with
  | zero => rfl
  | succ depth ih =>
    simp only [Machine.enclosing?, alike.procedure?_eq likeness_pads, alike.closure?_eq, ih]

end

end Heap

namespace Machine

/-- The machines are the same but for padding. -/
inductive Mirrors (machine : Machine) : Machine → Prop where
  | intro {store : Store} {calls : Stack Frame}
      (stores : machine.store.Alike (fun _ => Object.Pads) store)
      (padded : Padded machine.calls.items calls.items) :
      Mirrors machine { machine with store, calls }

theorem note_aside (m : Machine) {detail : Detail} (aside : detail ≠ .info)
    (message : Unit → String) : ∃ journal, journal.said = m.store.journal.said ∧
      m.note detail message = { m with store := { m.store with journal } } := by
  unfold note
  split
  · exact ⟨_, m.store.journal.said_note aside message, rfl⟩
  · exact ⟨_, rfl, rfl⟩

namespace Mirrors

variable {m m' : Machine}

theorem push (mirrors : m.Mirrors m') (v : Value) : (m.push v).Mirrors (m'.push v) := by
  cases mirrors with
  | intro stores padded => exact .intro stores padded

theorem moved (mirrors : m.Mirrors m') (frame : Frame) :
    Mirrors { m with current := frame } { m' with current := frame } := by
  cases mirrors with
  | intro stores padded => exact .intro stores padded

theorem full (mirrors : m.Mirrors m') (full : m.ceiling ≤ m.stack.height + m.calls.height) :
    m'.ceiling ≤ m'.stack.height + m'.calls.height := by
  cases mirrors with
  | @intro store calls stores padded =>
    have longer := padded.length_le
    rw [← m.calls.height_eq, ← calls.height_eq] at longer
    exact full.trans (Nat.add_le_add_left longer _)

theorem withStore {store store' : Store} (mirrors : m.Mirrors m')
    (stores : store.Alike (fun _ => Object.Pads) store') :
    Mirrors { m with store } { m' with store := store' } := by
  cases mirrors with
  | intro _ padded => exact .intro stores padded

theorem stores (mirrors : m.Mirrors m') : m.store.Alike (fun _ => Object.Pads) m'.store := by
  cases mirrors with
  | intro stores padded => exact stores

variable {detail : Detail}

/-- Notes that no script asked for keep the stores alike. -/
theorem note_eq (mirrors : m.Mirrors m') (aside : detail ≠ .info)
    (message message' : Unit → String) : ∃ store store', store.Alike (fun _ => Object.Pads) store' ∧
      m.note detail message = { m with store } ∧
      m'.note detail message' = { m' with store := store' } := by
  obtain ⟨journal, said, eq⟩ := m.note_aside aside message
  obtain ⟨journal', said', eq'⟩ := m'.note_aside aside message'
  have stores := mirrors.stores
  exact ⟨{ m.store with journal }, { m'.store with journal := journal' },
    ⟨stores.heap, stores.hosts, (said'.trans stores.said).trans said.symm⟩, eq, eq'⟩

theorem noted (mirrors : m.Mirrors m') (aside : detail ≠ .info) (message message' : Unit → String) :
    (m.note detail message).Mirrors (m'.note detail message') := by
  obtain ⟨store, store', stores, eq, eq'⟩ := mirrors.note_eq aside message message'
  rw [eq, eq']
  exact mirrors.withStore stores

end Mirrors

end Machine

namespace MachineM

variable {α β : Type}

/-- Both outcomes are the same failure or the same result, with machines that are the same but for
padding. -/
inductive Alike : EStateM.Result Fault Machine α → EStateM.Result Fault Machine α → Prop
  | ok {result : α} {machine machine' : Machine} (mirrors : machine.Mirrors machine') :
      Alike (.ok result machine) (.ok result machine')
  | error {fault : Fault} {machine machine' : Machine} (mirrors : machine.Mirrors machine') :
      Alike (.error fault machine) (.error fault machine')

/-- The action does not depend on the padding. -/
def Respects (action : MachineM α) : Prop :=
  ∀ ⦃machine machine' : Machine⦄, machine.Mirrors machine' →
    Alike (action machine) (action machine')

namespace Respects

theorem pure (res : α) : Respects (Pure.pure res : MachineM α) :=
  fun _ _ mirrors => .ok mirrors

theorem bind {action : MachineM α} {next : α → MachineM β} (first : Respects action)
    (second : ∀ res, Respects (next res)) : Respects (action >>= next) := by
  intro m m' mirrors
  rw [bind_apply, bind_apply]
  have outcomes := first mirrors
  generalize action m = out at outcomes
  generalize action m' = out' at outcomes
  cases outcomes with
  | ok mirrors => exact second _ mirrors
  | error mirrors => exact .error mirrors

theorem modify {change : Machine → Machine} (kept : ∀ m m', m.Mirrors m' →
      (change m).Mirrors (change m')) : Respects (modify change : MachineM Unit) :=
  fun _ _ mirrors => .ok (kept _ _ mirrors)

theorem find (defect : Defect) {view : Machine → Option α}
    (same : ∀ m m', m.Mirrors m' → view m' = view m) : Respects (MachineM.find defect view) := by
  intro m m' mirrors
  simp only [MachineM.find, same m m' mirrors]
  cases view m with
  | some res => exact .ok mirrors
  | none => exact .error mirrors

theorem onHeap {work : Heap → α × Heap}
    (matched : ∀ heap heap', heap.Alike (fun _ => Object.Pads) heap' →
      Heap.Matches (fun _ => Object.Pads) (work heap) (work heap')) :
    Respects (MachineM.onHeap work) := by
  intro m m' mirrors
  cases mirrors with
  | @intro store calls stores padded =>
    have outcomes := matched _ _ stores.heap
    simp only [MachineM.onHeap, Machine.onHeap, Machine.onStore, Store.onHeap]
    rw [outcomes.result]
    exact .ok (.intro (stores.withHeap outcomes.heaps) padded)

theorem pop : Respects MachineM.pop := by
  intro m m' mirrors
  cases mirrors with
  | @intro store calls stores padded =>
    unfold MachineM.pop
    dsimp only
    split
    · exact .ok (.intro stores padded)
    · exact .error (.intro stores padded)

theorem operand (offset : Nat) : Respects (MachineM.operand offset) := by
  apply find
  intro m m' mirrors
  cases mirrors
  rfl

theorem variableAt (offset : Nat) : Respects (Machine.variableAt offset) := by
  apply (operand offset).bind
  intro depth
  apply bind
  · apply find
    intro m m' mirrors
    cases mirrors with
    | intro stores padded =>
      exact congrFun (congrFun stores.heap.enclosing? depth.toInt.toNat) m.current.invocation
  · intro inv
    apply (operand (offset + 4)).bind
    intro slot
    exact .pure _

theorem jump (offset : Int32) : Respects (Machine.jump offset) := by
  intro m m' mirrors
  cases mirrors with
  | @intro store calls stores padded =>
    simp only [Machine.jump, MachineM.bind_apply, MachineM.get_apply, MachineM.ite_apply]
    split
    · exact .error (.intro stores padded)
    · exact .ok (.intro stores padded)

end Respects

end MachineM

namespace Machine

/-! ### Instructions that call nothing -/

theorem respects_slot (inv : Handle) (slot : Nat) :
    MachineM.Respects (MachineM.find .badVariable fun m =>
      (m.heap.slots? inv).bind fun slots => slots[slot]?) := by
  apply MachineM.Respects.find
  intro m m' mirrors
  cases mirrors with
  | @intro store calls stores padded =>
    change (store.heap.slots? inv).bind _ = (m.store.heap.slots? inv).bind _
    rw [stores.heap.slots?_eq likeness_pads]

theorem respects_push (v : Value) : MachineM.Respects (do
    modify (push v)
    return Flow.next) := by
  apply MachineM.Respects.bind (.modify fun _ _ mirrors => mirrors.push v)
  intro _
  exact .pure _

/-- Instructions other than calls and returns do not depend on the padding. -/
theorem respects_step {op : Op} (straight : op.isCall = false) (pc : Nat) :
    MachineM.Respects (step op pc) := by
  cases op
  case call | tailCall | «return» => cases straight
  case constant =>
    apply (MachineM.Respects.operand (pc + 1)).bind
    intro place
    apply MachineM.Respects.bind
    · apply MachineM.Respects.find
      intro m m' mirrors
      cases mirrors
      rfl
    · exact respects_push
  case «variable» =>
    apply (MachineM.Respects.variableAt (pc + 1)).bind
    intro ⟨inv, slot⟩
    exact (respects_slot inv slot).bind respects_push
  case setVariable =>
    apply (MachineM.Respects.variableAt (pc + 1)).bind
    intro ⟨inv, slot⟩
    apply MachineM.Respects.pop.bind
    intro v
    apply (respects_slot inv slot).bind
    intro _
    apply MachineM.Respects.bind (.onHeap fun _ _ alike =>
      ⟨rfl, alike.modifySlots likeness_pads inv _⟩)
    intro _
    exact .pure _
  case resetOperandCount =>
    intro m m' mirrors
    cases mirrors with
    | intro stores padded => exact .ok (.intro stores padded)
  case lambda =>
    apply (MachineM.Respects.operand (pc + 1)).bind
    intro place
    apply MachineM.Respects.bind
    · apply MachineM.Respects.find
      intro m m' mirrors
      cases mirrors
      rfl
    · intro lam m m' mirrors
      cases mirrors with
      | @intro store calls stores padded =>
        have closed : MachineM.Respects (MachineM.onHeap fun heap =>
            heap.alloc (.closure lam (some m.current.invocation))) :=
          .onHeap fun _ _ alike => alike.alloc (.same _)
        exact (closed.bind fun closure => respects_push (.closure closure)) (.intro stores padded)
  case pop =>
    apply MachineM.Respects.pop.bind
    intro _
    exact .pure _
  case jump =>
    apply (MachineM.Respects.operand (pc + 1)).bind
    intro offset
    apply (MachineM.Respects.jump offset).bind
    intro _
    exact .pure _
  case conditionalJump =>
    apply (MachineM.Respects.operand (pc + 1)).bind
    intro offset
    apply MachineM.Respects.pop.bind
    intro v
    cases v.isTrue with
    | true => exact .pure _
    | false =>
      apply (MachineM.Respects.jump offset).bind
      intro _
      exact .pure _
  case exit =>
    apply MachineM.Respects.pop.bind
    intro v
    exact .pure _
  case lambdaExit => exact .pure _

end Machine

end MiniScheme
