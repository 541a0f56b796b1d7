import MiniScheme.Proofs.Core.Evaluation
import MiniScheme.Proofs.Core.Translation
import MiniScheme.Proofs.Machine.Control
import MiniScheme.Proofs.Stdlib.Likeness

/-!
# Evaluation and the machine's store

How the states that direct evaluation goes through are found in the machine. An environment is a
chain of invocations. The heaps are the same, place by place, except that the machine's closures
have code: code of the procedure that evaluation knows the closure as, if it knows it, created where
the environment of that procedure is found.
-/

namespace MiniScheme

/-! ### Environments -/

/-- `heap.Represents environment invocation`: the machine finds the invocations of the environment
around the given one. -/
def Heap.Represents (heap : Heap) (environment : Environment) (invocation : Handle) : Prop :=
  ∀ (depth : Nat) (rib : Rib), environment[depth]? = some rib →
    Machine.enclosing? heap depth invocation = some rib.invocation

theorem Environment.find?_of_place {env : Environment} {name : String} {depth slot : Nat}
    (place : place? env.namings name = some (depth, slot)) :
    ∃ rib, env[depth]? = some rib ∧ env.find? name = some (rib.invocation, slot) := by
  induction env generalizing depth with
  | nil => cases place
  | cons rib outer ih =>
    rw [Environment.namings, List.map_cons, place?] at place
    rw [Environment.find?]
    cases known : rib.naming name with
    | some here =>
      rw [known] at place
      cases place
      exact ⟨rib, rfl, rfl⟩
    | none =>
      rw [known] at place
      obtain ⟨⟨further, index⟩, found, eq⟩ := Option.map_eq_some_iff.mp place
      cases eq
      exact ih found

namespace Heap

variable {heap old new : Heap} {env : Environment} {inv closure parent : Handle}
  {lam : Lambda}

variable {slots : Array Value} {depth : Nat}

theorem enclosing?_succ (held : heap.get? inv = some (.invocation (some closure) slots))
    (created : heap.get? closure = some (.closure lam (some parent))) (depth : Nat) :
    Machine.enclosing? heap (depth + 1) inv = Machine.enclosing? heap depth parent := by
  rw [Machine.enclosing?, procedure?, held, Option.bind_some, closure?_eq_some_iff.mpr created]

theorem Steady.enclosing? (steady : old.Steady new) {outer : Handle}
    (found : Machine.enclosing? old depth inv = some outer) :
    Machine.enclosing? new depth inv = some outer := by
  induction depth generalizing inv with
  | zero => exact found
  | succ depth ih =>
    rw [Machine.enclosing?, procedure?] at found
    split at found
    · rename_i lam parent link
      split at link
      · rename_i proc slots held
        cases proc with
        | none => cases link
        | some closure =>
          obtain ⟨slots', held', -⟩ := steady.invocation _ _ _ held
          have created := steady.closure _ _ _ (closure?_eq_some_iff.mp link)
          rw [enclosing?_succ held' created]
          exact ih found
      · cases link
    · cases found

theorem Represents.mono (represents : old.Represents env inv)
    (steady : old.Steady new) : new.Represents env inv :=
  fun depth rib found => steady.enclosing? (represents depth rib found)

theorem Represents.cons (outer : heap.Represents env parent) {slots : Array Value}
    (held : heap.get? inv = some (.invocation (some closure) slots))
    (created : heap.get? closure = some (.closure lam (some parent))) (naming : Naming) :
    heap.Represents ({ naming, invocation := inv } :: env) inv := by
  intro depth rib found
  cases depth with
  | zero =>
    cases found
    rfl
  | succ depth =>
    rw [enclosing?_succ held created]
    exact outer depth rib found

theorem Represents.enclosing (represents : heap.Represents env inv) {name : String}
    {slot : Nat} (place : place? env.namings name = some (depth, slot)) :
    ∃ outer, env.find? name = some (outer, slot) ∧
      Machine.enclosing? heap depth inv = some outer := by
  obtain ⟨rib, there, found⟩ := Environment.find?_of_place place
  exact ⟨rib.invocation, found, represents depth rib there⟩

end Heap

/-! ### Closures -/

/-- A closure with this code, created there, behaves as the procedure. -/
structure Procedure.Compiled (heap : Heap) (lambda : Lambda) (parent : Option Handle)
    (procedure : Procedure) : Prop where
  implements : Implements procedure.environment.namings lambda procedure.abstraction
  created : ∃ outer, parent = some outer ∧ heap.Represents procedure.environment outer

/-- `Object.Embodies procedures heap handle object object'`: what is at a place of the heap that
evaluation works on, and what the machine has there. -/
inductive Object.Embodies (procedures : Handle → Option Procedure) (heap : Heap) (handle : Handle) :
    Object → Object → Prop where
  | plain {object : Object} (visible : object.kind.isOpaque = false) :
      Embodies procedures heap handle object object
  | closure {lambda lambda' : Lambda} {parent parent' : Option Handle}
      (code : ∀ procedure, procedures handle = some procedure →
        procedure.Compiled heap lambda' parent') :
      Embodies procedures heap handle (.closure lambda parent) (.closure lambda' parent')
  | continuation {snapshot snapshot' : Snapshot} :
      Embodies procedures heap handle (.continuation snapshot) (.continuation snapshot')

theorem likeness_embodies (procedures : Handle → Option Procedure) (heap : Heap) :
    Likeness (Object.Embodies procedures heap) := by
  constructor
  · intro _ obj visible
    exact .plain visible
  · intro _ obj obj' embodies visible
    cases embodies with
    | plain => rfl
    | closure => cases visible
    | continuation => cases visible
  · intro _ obj obj' embodies
    cases embodies with
    | plain => rfl
    | closure => rfl
    | continuation => rfl

theorem Object.Embodies.mono {procedures : Handle → Option Procedure} {old new : Heap}
    {h : Handle} {obj obj' : Object}
    (embodies : Embodies procedures old h obj obj') (steady : old.Steady new) :
    Embodies procedures new h obj obj' := by
  cases embodies with
  | plain visible => exact .plain visible
  | continuation => exact .continuation
  | closure code =>
    refine .closure fun proc known => ?_
    obtain ⟨implements, outer, rfl, represents⟩ := code proc known
    exact ⟨implements, outer, rfl, represents.mono steady⟩

namespace Heap

variable {rel rel' : Handle → Object → Object → Prop} {heap heap' : Heap}

/-- Heaps that are alike in one way are so in another if all their objects are. -/
theorem Alike.mono (alike : heap.Alike rel heap') (weaker : ∀ h obj obj', heap.get? h = some obj →
      rel h obj obj' → rel' h obj obj') : heap.Alike rel' heap' := by
  refine ⟨fun index => ?_, alike.free, alike.stamp⟩
  have here := alike.slots index
  generalize place : heap.slots[index]? = slot, heap'.slots[index]? = slot' at here
  cases here with
  | none => exact .none
  | @some slot slot' places =>
    refine .some ⟨places.generation, ?_⟩
    have objects := places.object
    generalize held : slot.object = obj, slot'.object = obj' at objects
    cases objects with
    | none => exact .none
    | some related =>
      refine .some (weaker _ _ _ ?_ related)
      rw [Heap.get?, place]
      simp [held]

/-- Objects get the same place in heaps that are alike, whatever they are. -/
theorem Alike.fst_alloc (alike : heap.Alike rel heap') (obj obj' : Object) :
    (heap'.alloc obj').1 = (heap.alloc obj).1 :=
  (Alike.alloc (alike.mono fun _ _ _ _ _ => trivial : heap.Alike (fun _ _ _ => True) heap')
    trivial).result

end Heap

/-! ### States -/

/-- `state.Describes store`: the machine's store is what evaluation takes it for. -/
def EvalState.Describes (state : EvalState) (store : Store) : Prop :=
  state.store.Alike (Object.Embodies state.procedures store.heap) store

namespace EvalState.Describes

variable {st : EvalState} {store : Store}

section

variable (describes : st.Describes store)

include describes

theorem noted {journal : Journal} (said : journal.said = store.journal.said) :
    st.Describes { store with journal } :=
  ⟨describes.heap, describes.hosts, said.trans describes.said⟩

theorem slots?_eq : store.heap.slots? = st.store.heap.slots? :=
  Heap.Alike.slots?_eq (likeness_embodies _ _) describes.heap

/-- The machine has code for a procedure that evaluation knows. -/
theorem closure {closure : Handle} {proc : Procedure}
    (known : st.procedure? closure = some proc) : ∃ lam parent,
      store.heap.get? closure = some (.closure lam parent) ∧
        proc.Compiled store.heap lam parent := by
  obtain ⟨⟨lam, parent⟩, found, known⟩ := Option.bind_eq_some_iff.mp known
  have held := Heap.closure?_eq_some_iff.mp found
  have related := describes.heap.get? closure
  rw [held] at related
  generalize store.heap.get? closure = obj at related
  cases related with
  | some embodies =>
    cases embodies with
    | plain visible => cases visible
    | closure code => exact ⟨_, _, rfl, code proc known⟩

theorem onHeap {α : Type} (work work' : Heap → α × Heap)
    (matched : Heap.Matches (Object.Embodies st.procedures store.heap) (work st.store.heap)
      (work' store.heap)) (steady : store.heap.Steady (work' store.heap).2) :
    (work' store.heap).1 = (work st.store.heap).1 ∧
      EvalState.Describes { st with store := (st.store.onHeap work).2 }
        { store with heap := (work' store.heap).2 } := by
  refine ⟨matched.result, matched.heaps.mono fun _ _ _ _ embodies => embodies.mono steady,
    describes.hosts, describes.said⟩

end

def record (procedures : Handle → Option Procedure) (closure : Handle) (procedure : Procedure) :
    Handle → Option Procedure :=
  fun other => if other = closure then some procedure else procedures other

theorem close (describes : st.Describes store) (sane : store.heap.Consistent)
    {proc : Procedure} {lam : Lambda} {inv : Handle}
    (implements : Implements proc.environment.namings lam proc.abstraction)
    (represents : store.heap.Represents proc.environment inv) :
    ∃ after, Expression.close proc st =
        some (.ok (.closure (store.heap.alloc (.closure lam (some inv))).1, after)) ∧
      after.Describes { store with heap := (store.heap.alloc (.closure lam (some inv))).2 } := by
  have steady := Heap.Steady.alloc sane (.closure lam (some inv))
  have fresh := Heap.get?_alloc_fresh sane (.closure lam (some inv))
  have same := describes.heap.fst_alloc (.closure .empty none) (.closure lam (some inv))
  generalize added : store.heap.alloc (.closure lam (some inv)) = built at steady fresh same
  have before : st.store.heap.Alike
      (Object.Embodies (record st.procedures built.1 proc) built.2) store.heap := by
    refine describes.heap.mono fun h obj obj' held embodies => ?_
    -- Nothing was at the new place before, on either side.
    have other : h ≠ built.1 := by
      rintro rfl
      have related := describes.heap.get? built.1
      rw [held, fresh] at related
      cases related
    cases embodies.mono steady with
    | plain visible => exact .plain visible
    | continuation => exact .continuation
    | closure code =>
      refine .closure fun proc known => code proc ?_
      rwa [record, if_neg other] at known
  have related : Object.Embodies (record st.procedures built.1 proc) built.2
      (st.store.heap.alloc (.closure .empty none)).1 (.closure .empty none)
      (.closure lam (some inv)) := by
    refine .closure fun known found => ?_
    rw [record, if_pos same.symm] at found
    cases found
    exact ⟨implements, inv, rfl, represents.mono steady⟩
  have after := before.alloc related
  rw [added] at after
  refine ⟨{ store := { st.store with heap := (st.store.heap.alloc (.closure .empty none)).2 }
            procedures := record st.procedures built.1 proc }, ?_, after.heaps,
    describes.hosts, describes.said⟩
  rw [same]
  rfl

end EvalState.Describes

end MiniScheme
