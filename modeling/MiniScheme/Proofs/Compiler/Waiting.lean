import Mathlib.Data.List.Nodup
import Mathlib.Data.List.Perm.Subperm
import MiniScheme.Compiler
import MiniScheme.Proofs.Code.Verifier
import MiniScheme.Proofs.Compiler.Scopes

/-!
# Initializers that wait

The initializers of a scope wait by their slots, and leave in the order of the slots. A log of what
happens while a body is compiled has the definitions in the order in which they are written. Code
stores the values of initializers in that order exactly if the slots ascend among the definitions
that wait together.
-/

namespace MiniScheme

/-- The initializers that wait, by the slots of their variables. -/
abbrev Queue := Nat → Option Datum

namespace Queue

def empty : Queue := fun _ => none

/-- With the initializer of a definition, if it has one. It takes the place of another that waits
for the same slot. -/
def enter (queue : Queue) (index : Nat) : Option Datum → Queue
  | some form => fun other => if other = index then some form else queue other
  | none => queue

end Queue

namespace Scopes

variable {scopes before mid after : Scopes} {scope other : ScopeRef} {e : Scope}

def queue (scopes : Scopes) (scope : ScopeRef) : Queue := fun index =>
  (scopes.stack.getD scope default).deferred[index]?.join.map Deferred.form

/-- Every variable has room for an initializer. -/
def Level (scopes : Scopes) : Prop :=
  ∀ (scope : ScopeRef) (entry : Scope), scopes.stack[scope]? = some entry →
    entry.deferred.size = entry.variableCount

theorem queue_eq (found : scopes.stack[scope]? = some e) (i : Nat) :
    scopes.queue scope i = e.deferred[i]?.join.map Deferred.form := by
  rw [queue, getD_eq found]

theorem queue_congr (same : after.stack[scope]? = before.stack[scope]?) :
    after.queue scope = before.queue scope := by
  funext i
  rw [queue, queue, Array.getD_eq_getD_getElem?, Array.getD_eq_getD_getElem?, same]

/-- `before.Undisturbed after`: in the scopes that there were, the same initializers wait. -/
def Undisturbed (before after : Scopes) : Prop :=
  before.Level → after.Level ∧ ∀ scope < before.stack.size, after.queue scope = before.queue scope

theorem Undisturbed.refl (scopes : Scopes) : scopes.Undisturbed scopes :=
  fun level => ⟨level, fun _ _ => rfl⟩

theorem Undisturbed.trans (first : before.Undisturbed mid) (second : mid.Undisturbed after)
    (size : before.stack.size ≤ mid.stack.size) : before.Undisturbed after := by
  intro level
  obtain ⟨level, same⟩ := first level
  obtain ⟨level, same'⟩ := second level
  exact ⟨level, fun scope bound =>
    (same' scope (Nat.lt_of_lt_of_le bound size)).trans (same scope bound)⟩

theorem Undisturbed.of_stack (same : after.stack = before.stack) : before.Undisturbed after := by
  refine fun level => ⟨fun scope e found => level scope e (same ▸ found), fun scope _ => ?_⟩
  rw [queue_congr]
  rw [same]

theorem Undisturbed.modify {change : Scope → Scope} {target : ScopeRef}
    (keeps : ∀ e, (change e).deferred = e.deferred ∧ (change e).variableCount = e.variableCount) :
    scopes.Undisturbed (scopes.modify target change) := by
  intro level
  constructor
  · refine forall_modify (fun scope e _ => level scope e) fun e found => ?_
    rw [(keeps e).1, (keeps e).2]
    exact level _ _ found
  · intro scope bound
    funext i
    have found := Array.getElem?_eq_getElem bound
    rw [queue_eq found]
    by_cases here : target = scope
    · rw [queue_eq ((getElem?_modify ..).trans ((if_pos here).trans (congrArg _ found))),
        (keeps _).1]
    · rw [queue_eq ((getElem?_modify ..).trans ((if_neg here).trans found))]

theorem Undisturbed.push (scopes : Scopes) (parent : Option ScopeRef) (syntactic : Bool) :
    scopes.Undisturbed (scopes.push parent syntactic none).2 := by
  refine fun level => ⟨fun scope e found => ?_, fun scope bound => queue_congr ?_⟩
  · rw [Scopes.push, Array.getElem?_push] at found
    split at found
    · cases found
      rfl
    · exact level scope e found
  · exact (Array.getElem?_push ..).trans (if_neg (Nat.ne_of_lt bound))

theorem queue_push (scopes : Scopes) (parent : Option ScopeRef) (syntactic : Bool) :
    (scopes.push parent syntactic none).2.queue scopes.stack.size = .empty := by
  funext i
  have found : (scopes.push parent syntactic none).2.stack[scopes.stack.size]? = some _ :=
    Array.getElem?_push_size
  rw [queue_eq found]
  rfl

theorem queue_truncate {n : Nat} (inside : scope < n) :
    (scopes.truncate n).queue scope = scopes.queue scope :=
  queue_congr (by rw [getElem?_truncate, if_pos inside])

theorem Level.truncate (level : scopes.Level) (n : Nat) : (scopes.truncate n).Level :=
  fun scope e found => level scope e (getElem?_of_truncate found).2

theorem Undisturbed.truncate (since : before.Undisturbed after) :
    before.Undisturbed (after.truncate before.stack.size) := by
  intro level
  obtain ⟨level, same⟩ := since level
  exact ⟨level.truncate _, fun scope bound => (queue_truncate bound).trans (same scope bound)⟩

/-! ### Taking and adding initializers -/

structure Aside (scope : ScopeRef) (before after : Scopes) : Prop where
  level : after.Level
  others : ∀ other < before.stack.size, other ≠ before.owner scope →
    after.queue other = before.queue other

theorem Aside.trans (first : Aside scope before mid) (second : Aside scope mid after)
    (owner : mid.owner scope = before.owner scope)
    (size : before.stack.size ≤ mid.stack.size) : Aside scope before after :=
  ⟨second.level, fun other bound distinct =>
    (second.others other (Nat.lt_of_lt_of_le bound size) (owner.symm ▸ distinct)).trans
      (first.others other bound distinct)⟩

theorem Aside.modify {change : Scope → Scope} (level : scopes.Level)
    (levelled : ∀ e, scopes.stack[scopes.owner scope]? = some e →
      (change e).deferred.size = (change e).variableCount) :
    Aside scope scopes (scopes.modify (scopes.owner scope) change) :=
  ⟨forall_modify (fun scope e _ => level scope e) levelled, fun _ _ distinct =>
    queue_congr ((getElem?_modify ..).trans (if_neg distinct.symm))⟩

theorem Undisturbed.aside (undisturbed : before.Undisturbed after) (level : before.Level) :
    Aside scope before after :=
  ⟨(undisturbed level).1, fun other bound _ => (undisturbed level).2 other bound⟩

theorem Undisturbed.idle (undisturbed : before.Undisturbed after) (nested : before.Nested)
    (bound : scope < before.stack.size) (level : before.Level) :
    after.queue (before.owner scope) = before.queue (before.owner scope) :=
  (undisturbed level).2 _ (nested.owner_lt bound)

structure Clears (scope : ScopeRef) (before after : Scopes) : Prop
    extends Aside scope before after where
  queue : after.queue (before.owner scope) = .empty

/-- `Settles scope before after`: nothing waits any more. -/
def Settles (scope : ScopeRef) (before after : Scopes) : Prop :=
  before.Level → after.queue (before.owner scope) = .empty

theorem clears_takeDeferred (level : scopes.Level) (scope : ScopeRef) :
    Clears scope scopes (scopes.takeDeferred scope).2 := by
  refine ⟨.modify level fun e found => ?_, ?_⟩
  · rw [Array.size_map]
    exact level _ _ found
  · funext i
    rw [Scopes.queue, Array.getD_eq_getD_getElem?, takeDeferred, getElem?_modify, if_pos rfl]
    cases there : scopes.stack[scopes.owner scope]? with
    | none => rfl
    | some e => cases slot : e.deferred[i]? <;> simp [slot, Queue.empty]

theorem queue_of_not_hasDeferred (none_waits : scopes.hasDeferred scope = false) :
    scopes.queue (scopes.owner scope) = .empty := by
  rw [hasDeferred, Array.any_eq_false'] at none_waits
  funext i
  cases held : (scopes.ownerScope scope).deferred[i]?.join with
  | none => exact congrArg (Option.map Deferred.form) held
  | some waiting =>
    exact absurd rfl (none_waits _ (Array.mem_of_getElem? (Option.join_eq_some_iff.mp held)))

def Idle (scopes : Scopes) (scope : ScopeRef) : Prop :=
  (scopes.takeDeferred scope).1 = []

theorem Idle.takeDeferred (idle : scopes.Idle scope) : (scopes.takeDeferred scope).2 = scopes := by
  have none_waits : ∀ e, scopes.stack[scopes.owner scope]? = some e →
      (e.deferred.map fun _ => none) = e.deferred := by
    intro e found
    rw [Idle, Scopes.takeDeferred, ownerScope, getD_eq found] at idle
    have each := List.filterMap_eq_nil_iff.mp idle
    apply Array.ext_getElem?
    intro index
    rw [Array.getElem?_map]
    cases here : e.deferred[index]? with
    | none => rfl
    | some deferred =>
      cases deferred with
      | none => rfl
      | some waiting =>
        have mem := each _ (List.mem_mapIdx.mpr ⟨index, by
          rw [Array.length_toList]
          exact lt_size here, rfl⟩)
        rw [Array.getElem_toList, (Array.getElem?_eq_some_iff.mp here).2] at mem
        cases mem
  have same : (scopes.takeDeferred scope).2.stack = scopes.stack := by
    apply Array.ext_getElem?
    intro place
    rw [Scopes.takeDeferred, getElem?_modify]
    split
    · rename_i here
      cases found : scopes.stack[place]? with
      | none => rfl
      | some e =>
        rw [Option.map_some, none_waits e (here ▸ found)]
    · rfl
  exact congrArg (fun stack => { scopes with stack }) same

theorem idle_of_not_hasDeferred (none_waits : scopes.hasDeferred scope = false) :
    scopes.Idle scope := by
  rw [hasDeferred, Array.any_eq_false'] at none_waits
  refine List.filterMap_eq_nil_iff.mpr fun waiting mem => ?_
  obtain ⟨index, bound, rfl⟩ := List.mem_mapIdx.mp mem
  have empty := none_waits _ (Array.mem_toList_iff.mp (List.getElem_mem bound))
  rw [Option.not_isSome_iff_eq_none.mp empty]
  rfl

theorem mem_takeDeferred (i : Nat) (form : Datum) :
    (∃ pending ∈ (scopes.takeDeferred scope).1, pending.index = i ∧ pending.form = form) ↔
      scopes.queue (scopes.owner scope) i = some form := by
  simp only [takeDeferred, List.mem_filterMap, id_eq, exists_eq_right, List.mem_mapIdx,
    Array.getElem_toList, Array.length_toList, ownerScope, queue, Option.map_eq_some_iff,
    Option.join_eq_some_iff]
  constructor
  · rintro ⟨_, ⟨place, bound, waiting, held, rfl⟩, rfl, rfl⟩
    exact ⟨waiting, Array.getElem?_eq_some_iff.mpr ⟨bound, held⟩, rfl⟩
  · rintro ⟨waiting, held, rfl⟩
    obtain ⟨bound, held⟩ := Array.getElem?_eq_some_iff.mp held
    exact ⟨_, ⟨i, bound, waiting, held, rfl⟩, rfl, rfl⟩

theorem pairwise_takeDeferred (scopes : Scopes) (scope : ScopeRef) :
    (scopes.takeDeferred scope).1.Pairwise fun left right => left.index < right.index := by
  rw [takeDeferred, List.pairwise_filterMap, List.pairwise_iff_getElem]
  intro i j _ _ before left found right found'
  simp only [List.getElem_mapIdx, id_eq, Option.map_eq_some_iff] at found found'
  obtain ⟨_, -, rfl⟩ := found
  obtain ⟨_, -, rfl⟩ := found'
  exact before

/-- A variable keeps the slot that its name has, and gets the next one if it has none. -/
theorem index_addVariable (found : scopes.stack[scopes.owner scope]? = some e) (name : String)
    (initializer : Option Datum) (heap : Heap) :
    (scopes.addVariable scope name initializer none heap).1.index =
      (slot? e name).getD e.variableCount := by
  simp only [addVariable, getD_eq found]
  cases slot? e name <;> rfl

/-- The initializer of a definition comes to wait for the slot of its variable. -/
theorem queue_addVariable (valid : scopes.Valid) (level : scopes.Level)
    (bound : scope < scopes.stack.size) (name : String) (initializer : Option Datum) (heap : Heap) :
    Aside scope scopes (scopes.addVariable scope name initializer none heap).2.1 ∧
      (scopes.addVariable scope name initializer none heap).2.1.queue (scopes.owner scope) =
        (scopes.queue (scopes.owner scope)).enter
          (scopes.addVariable scope name initializer none heap).1.index initializer := by
  obtain ⟨e, found, -⟩ := valid.toNested.owner bound
  have size := level _ _ found
  rw [index_addVariable found]
  -- The scope that the variable belongs to is changed, and no other.
  have changed {change : Scope → Scope} {i : Nat}
      (levelled : (change e).deferred.size = (change e).variableCount)
      (enters : ∀ other, (change e).deferred[other]?.join.map Deferred.form =
        (scopes.queue (scopes.owner scope)).enter i initializer other) :
      Aside scope scopes (scopes.modify (scopes.owner scope) change) ∧
        (scopes.modify (scopes.owner scope) change).queue (scopes.owner scope) =
          (scopes.queue (scopes.owner scope)).enter i initializer := by
    have here : (scopes.modify (scopes.owner scope) change).stack[scopes.owner scope]? =
        some (change e) := by rw [getElem?_modify, if_pos rfl, found, Option.map_some]
    refine ⟨.modify level fun e' found' => ?_, funext fun i => ?_⟩
    · cases Option.some.inj (found'.symm.trans found)
      exact levelled
    · rw [queue_eq here, enters]
  cases known : slot? e name with
  | some i =>
    have inside : i < e.deferred.size := size.symm ▸ slot?_lt
        (fun name place mem => ((valid.entries _ _ found).places name place mem).2) known
    rw [addVariable_known (getD_eq found) known]
    refine changed ?_ fun other => ?_
    · cases initializer <;> simpa [postpone, defer] using size
    · cases initializer with
      | none => exact (queue_eq found other).symm
      | some form =>
        simp only [postpone, defer, Option.map_some, Queue.enter, queue_eq found, Option.getD_some,
          Array.getElem?_setIfInBounds, inside, if_true]
        by_cases here : i = other
        · rw [if_pos here, if_pos here.symm]
          rfl
        · rw [if_neg here, if_neg (Ne.symm here)]
  | none =>
    rw [addVariable_new (getD_eq found) known]
    refine changed ?_ fun other => ?_
    · simp [declare, size]
    · simp only [declare, Array.getElem?_push, size, Option.getD_none]
      by_cases last : other = e.variableCount
      · subst last
        cases initializer <;> simp [defer, Queue.enter, queue_eq found, ← size]
      · cases initializer <;> simp [Queue.enter, queue_eq found, last]

theorem undisturbed_addVariable (valid : scopes.Valid) (bound : scope < scopes.stack.size)
    (name : String) (heap : Heap) :
    scopes.Undisturbed (scopes.addVariable scope name none none heap).2.1 := by
  intro level
  obtain ⟨aside, same⟩ := queue_addVariable valid level bound name none heap
  refine ⟨aside.level, fun other inside => ?_⟩
  by_cases own : other = scopes.owner scope
  · rw [own]
    exact same
  · exact aside.others other inside own

end Scopes

namespace Compiler

/-! ### What happens while a body is compiled -/

/-- The code of an initializer, and the slot that its value is stored in. -/
structure Stored where
  index : Nat
  form : Datum
  code : Bytecode

namespace Stored

/-- The code, followed by the instruction that stores its value. -/
def bytes (stored : Stored) : List UInt8 :=
  stored.code.stream ++ (Bytecode.ofOp .setVariable [0, .ofNat stored.index]).stream

def initializer (stored : Stored) : Nat × Datum :=
  (stored.index, stored.form)

end Stored

/-- `Compiles room scope state waiting batch after`: initializers are compiled one after the other,
each while nothing waits. -/
inductive Compiles (room : Nat) (scope : ScopeRef) :
    Compilation → List Initializer → List Stored → Compilation → Prop
  | done (state : Compilation) : Compiles room scope state [] [] state
  | next {state middle after : Compilation} {pending : Initializer} {waiting : List Initializer}
      {code : Bytecode} {batch : List Stored} : state.scopes.Idle scope →
      initializer (compile room) pending state = .ok code middle →
      Compiles room scope middle waiting batch after →
      Compiles room scope state (pending :: waiting) (⟨pending.index, pending.form, code⟩ :: batch)
        after

/-- All initializers that wait are taken and compiled, and then nothing waits. -/
structure Flushes (room : Nat) (scope : ScopeRef) (state : Compilation) (batch : List Stored)
    (settled : Compilation) : Prop where
  compiles : Compiles room scope { state with scopes := (state.scopes.takeDeferred scope).2 }
    (state.scopes.takeDeferred scope).1 batch settled
  idle : settled.scopes.Idle scope

/-- What happens while a body is compiled. -/
inductive Event where
  /-- There is a definition of the variable with the given slot. -/
  | define (index : Nat) (form : Option Datum)
  /-- The initializers that wait are compiled. -/
  | flush (batch : List Stored)
  /-- Other code follows. -/
  | emit (bytes : List UInt8)

namespace Event

def bytes : Event → List UInt8
  | define _ _ => []
  | flush batch => batch.flatMap Stored.bytes
  | emit bytes => bytes

def written : Event → List (Nat × Datum)
  | define index (some form) => [(index, form)]
  | _ => []

/-- The initializers of which the values are stored here. -/
def stored : Event → List (Nat × Datum)
  | flush batch => batch.map Stored.initializer
  | _ => []

end Event

/-- All initializers that wait are compiled, in the order of their slots. -/
structure Batch (queue : Queue) (batch : List Stored) : Prop where
  ascending : batch.Pairwise fun left right => left.index < right.index
  waiting (index : Nat) (form : Datum) :
    (index, form) ∈ batch.map Stored.initializer ↔ queue index = some form

/-- `Runs queue events last`: definitions enter the queue, which is emptied as a whole. Other code
follows only when nothing waits. -/
inductive Runs : Queue → List Event → Queue → Prop
  | done (queue : Queue) : Runs queue [] queue
  | define {queue last : Queue} {index : Nat} {form : Option Datum} {events : List Event} :
      Runs (queue.enter index form) events last → Runs queue (.define index form :: events) last
  | flush {queue last : Queue} {batch : List Stored} {events : List Event} :
      Batch queue batch → Runs .empty events last → Runs queue (.flush batch :: events) last
  | emit {last : Queue} (bytes : List UInt8) {events : List Event} :
      Runs .empty events last → Runs .empty (.emit bytes :: events) last

/-- The definitions that wait together have ascending slots; `waiting` has those of the definitions
so far, the latest first. -/
def Ascends : List Nat → List Event → Prop
  | _, [] => True
  | waiting, .define index (some _) :: events => Ascends (index :: waiting) events
  | waiting, .define _ none :: events => Ascends waiting events
  | waiting, .flush _ :: events => waiting.Pairwise (· > ·) ∧ Ascends [] events
  | waiting, .emit _ :: events => Ascends waiting events

variable {queue mid last : Queue} {batch : List Stored} {events others : List Event}
  {recent : List (Nat × Datum)}

theorem Runs.append (runs : Runs queue events mid) (further : Runs mid others last) :
    Runs queue (events ++ others) last := by
  induction runs with
  | done => exact further
  | define _ ih => exact .define (ih further)
  | flush batch _ ih => exact .flush batch (ih further)
  | emit bytes _ ih => exact .emit bytes (ih further)

theorem Compiles.listed {room : Nat} {scope : ScopeRef} {state after : Compilation}
    {waiting : List Initializer} (compiles : Compiles room scope state waiting batch after) :
    batch.map Stored.initializer = waiting.map fun pending => (pending.index, pending.form) := by
  induction compiles with
  | done => rfl
  | next _ _ _ ih => exact congrArg (_ :: ·) ih

theorem Flushes.found {room : Nat} {scope : ScopeRef} {state settled : Compilation}
    (flushes : Flushes room scope state batch settled) :
    Batch (state.scopes.queue (state.scopes.owner scope)) batch := by
  have listed := flushes.compiles.listed
  constructor
  · have mapped : (batch.map Stored.initializer).Pairwise fun left right => left.1 < right.1 := by
      rw [listed]
      exact List.pairwise_map.mpr (Scopes.pairwise_takeDeferred state.scopes scope)
    have pairs := List.pairwise_map.mp mapped
    exact pairs
  · intro index form
    rw [listed, ← Scopes.mem_takeDeferred]
    simp

namespace Batch

theorem nodup (found : Batch queue batch) : (batch.map Stored.initializer).Nodup := by
  refine List.pairwise_map.mpr (found.ascending.imp fun less same => ?_)
  exact absurd (congrArg Prod.fst same) (Nat.ne_of_lt less)

variable (found : Batch queue batch) (tells : ∀ i, queue i = recent.lookup i)

include found tells

theorem subset : batch.map Stored.initializer ⊆ recent := by
  rintro ⟨i, form⟩ mem
  have held := (found.waiting i form).mp mem
  rw [tells] at held
  obtain ⟨before, after, rfl, -⟩ := List.lookup_eq_some_iff.mp held
  simp

theorem length_le : batch.length ≤ recent.length := by
  have less := (found.nodup.subperm (found.subset tells)).length_le
  rwa [List.length_map] at less

/-- Where all slots are different, no initializer is lost. -/
theorem perm (distinct : (recent.map Prod.fst).Nodup) :
    (batch.map Stored.initializer).Perm recent.reverse := by
  refine .trans ((List.perm_ext_iff_of_nodup found.nodup (List.Nodup.of_map _ distinct)).mpr fun e => ?_)
    recent.reverse_perm.symm
  refine ⟨fun mem => found.subset tells mem, fun mem => ?_⟩
  obtain ⟨before, after, rfl⟩ := List.append_of_mem mem
  refine (found.waiting e.1 e.2).mpr ((tells _).trans (List.lookup_eq_some_iff.mpr ?_))
  refine ⟨before, after, rfl, fun other there => ?_⟩
  rw [List.map_append, List.map_cons] at distinct
  have apart := (List.nodup_append.mp distinct).2.2 other.1 (List.mem_map_of_mem there) e.1
    List.mem_cons_self
  simpa using apart.symm

theorem eq_reverse_iff : batch.map Stored.initializer = recent.reverse ↔
    (recent.map Prod.fst).Pairwise (· > ·) := by
  have ascending : (batch.map Stored.initializer).Pairwise fun left right => left.1 < right.1 :=
    List.pairwise_map.mpr found.ascending
  constructor
  · intro same
    rw [same, List.pairwise_reverse] at ascending
    exact List.pairwise_map.mpr ascending
  · intro descending
    have distinct : (recent.map Prod.fst).Nodup := descending.imp Nat.ne_of_gt
    refine (found.perm tells distinct).eq_of_pairwise ?_ ascending
      (List.pairwise_reverse.mpr (List.pairwise_map.mp descending))
    intro left right _ _ less more
    exact absurd less (Nat.lt_asymm more)

end Batch

theorem enter_tells (tells : ∀ i, queue i = recent.lookup i) (i : Nat)
    (form : Datum) (other : Nat) :
    queue.enter i (some form) other = ((i, form) :: recent).lookup other := by
  by_cases same : other = i
  · simp [Queue.enter, same]
  · simp [Queue.enter, same, List.lookup_cons, beq_eq_false_iff_ne.mpr same, tells]

theorem eq_nil_of_tells (tells : ∀ i, Queue.empty i = recent.lookup i) : recent = [] := by
  cases recent with
  | nil => rfl
  | cons e recent =>
    have waits := tells e.1
    rw [List.lookup_cons, beq_self_eq_true] at waits
    cases waits

namespace Runs

variable (runs : Runs queue events .empty) (tells : ∀ i, queue i = recent.lookup i)

include runs tells

/-- No initializer is compiled more often than it is written. -/
theorem length_le : (events.flatMap Event.stored).length ≤
    recent.length + (events.flatMap Event.written).length := by
  generalize ending : Queue.empty = last at runs
  induction runs generalizing recent with
  | done => simp
  | @define queue last i form events _ ih =>
    cases form with
    | none => exact ih tells ending
    | some form =>
      have further := ih (enter_tells tells i form) ending
      simp only [List.flatMap_cons, Event.stored, Event.written, List.nil_append,
        List.length_append, List.length_cons, List.length_nil] at further ⊢
      omega
  | flush found _ ih =>
    have further := @ih [] (fun _ => rfl) ending
    have here := found.length_le tells
    simp only [List.flatMap_cons, Event.stored, Event.written, List.nil_append,
      List.length_append, List.length_map, List.length_nil] at further ⊢
    omega
  | emit _ _ ih => exact ih tells ending

/-- Where all slots are different, every initializer is compiled once. -/
theorem perm (distinct : (recent.map Prod.fst ++
      (events.flatMap Event.written).map Prod.fst).Nodup) :
    (events.flatMap Event.stored).Perm (recent.reverse ++ events.flatMap Event.written) := by
  generalize ending : Queue.empty = last at runs
  induction runs generalizing recent with
  | done =>
    subst ending
    rw [eq_nil_of_tells tells]
    rfl
  | @define queue last i form events _ ih =>
    cases form with
    | none => exact ih tells distinct ending
    | some form =>
      simpa [Event.stored, Event.written] using
        ih (enter_tells tells i form) (List.perm_middle.nodup_iff.mp distinct) ending
  | flush found _ ih =>
    obtain ⟨old, new, -⟩ := List.nodup_append.mp distinct
    exact (found.perm tells old).append (@ih [] (fun _ => rfl) new ending)
  | emit _ _ ih => exact ih tells distinct ending

/-- The initializers are compiled as they are written exactly if the slots ascend among those that
wait together. -/
theorem stored_eq_iff : events.flatMap Event.stored =
    recent.reverse ++ events.flatMap Event.written ↔ Ascends (recent.map Prod.fst) events := by
  generalize ending : Queue.empty = last at runs
  induction runs generalizing recent with
  | done =>
    subst ending
    simp [eq_nil_of_tells tells, Ascends]
  | @define queue last i form events _ ih =>
    cases form with
    | none => exact ih tells ending
    | some form =>
      simpa [Event.stored, Event.written, Ascends] using ih (enter_tells tells i form) ending
  | @flush queue last batch events found runs ih =>
    subst ending
    have further := @ih [] (fun _ => rfl) rfl
    have most := Runs.length_le runs (fun _ => (rfl : _ = [].lookup _))
    have here := found.length_le tells
    rw [Ascends, ← found.eq_reverse_iff tells, List.map_nil.symm, ← further]
    constructor
    · intro same
      have total := congrArg List.length same
      simp only [List.flatMap_cons, Event.stored, Event.written, List.nil_append,
        List.length_append, List.length_map, List.length_reverse, List.length_nil] at total most
      have eq : batch.length = recent.length := by omega
      exact List.append_inj same (by simpa [Event.stored] using eq)
    · rintro ⟨same, others⟩
      exact congr_arg₂ (· ++ ·) same others
  | emit _ _ ih => exact ih tells ending

end Runs

/-- Nothing waits before or after a body. Its initializers are compiled once each, if they belong to
different variables, and as they are written exactly if the slots of those that wait together
ascend. -/
structure Initializes (events : List Event) : Prop where
  runs : Runs .empty events .empty
  once : ((events.flatMap Event.written).map Prod.fst).Nodup →
    (events.flatMap Event.stored).Perm (events.flatMap Event.written)
  ordered : events.flatMap Event.stored = events.flatMap Event.written ↔ Ascends [] events

theorem Runs.initializes (runs : Runs .empty events .empty) : Initializes events :=
  ⟨runs, runs.perm (fun _ => (rfl : _ = [].lookup _)),
    runs.stored_eq_iff (fun _ => (rfl : _ = [].lookup _))⟩

end Compiler

end MiniScheme
