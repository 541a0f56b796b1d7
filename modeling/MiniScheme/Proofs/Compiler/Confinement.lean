import MiniScheme.Proofs.Compiler.Congruence
import MiniScheme.Proofs.Compiler.Rollback

/-!
# What compiling a script leaves alone

The code of a script is compiled in the top level and in scopes within it. Meanwhile the global
scope stays as it is. So does every object that exists already, except that the invocation of the
top level gets slots for new variables behind those that it has. Going back to a checkpoint takes
these away again, so a datum that does not compile leaves the scopes and all objects as they were.
-/

namespace MiniScheme

namespace Heap

/-- `old.Preserves new`: every object is still there, as it was. -/
def Preserves (old new : Heap) : Prop :=
  ∀ handle object, old.get? handle = some object → new.get? handle = some object

/-- `old.Adds new`: objects have been added. -/
structure Adds (old new : Heap) : Prop where
  preserves : old.Preserves new
  consistent : new.Consistent

variable {heap old mid new : Heap}

theorem Preserves.trans (first : old.Preserves mid) (second : mid.Preserves new) :
    old.Preserves new :=
  fun h obj held => second h obj (first h obj held)

theorem Adds.refl (sane : heap.Consistent) : heap.Adds heap :=
  ⟨fun _ _ held => held, sane⟩

theorem Adds.trans (first : old.Adds mid) (second : mid.Adds new) : old.Adds new :=
  ⟨first.preserves.trans second.preserves, second.consistent⟩

theorem Adds.alloc (sane : heap.Consistent) (obj : Object) : heap.Adds (heap.alloc obj).2 :=
  ⟨fun _ _ held => get?_alloc_of_live sane obj held, sane.alloc obj⟩

theorem adds_listWithTail (sane : heap.Consistent) (vals : List Value) (tail : Value) :
    heap.Adds (heap.listWithTail vals tail).2 := by
  induction vals with
  | nil => exact .refl sane
  | cons v vals ih =>
    rw [listWithTail_cons]
    exact ih.trans (.alloc ih.consistent _)

theorem adds_ofAtom (sane : heap.Consistent) (atom : Atom) : heap.Adds (heap.ofAtom atom).2 := by
  have stamped : heap.Adds { heap with nextStamp := heap.nextStamp + 1 } :=
    ⟨fun _ _ held => held, sane.stamp _⟩
  cases atom
  case string => exact stamped
  case bytes => exact stamped
  all_goals exact .refl sane

mutual

theorem adds_ofDatum {heap : Heap} (sane : heap.Consistent) :
    (d : Datum) → heap.Adds (heap.ofDatum d).2
  | .atom atom _ => by
    rw [ofDatum]
    exact adds_ofAtom sane atom
  | .list xs _ => by
    rw [ofDatum]
    have built := adds_ofData sane xs
    exact built.trans (adds_listWithTail built.consistent _ _)
  | .dotted xs tail _ => by
    rw [ofDatum]
    have built := adds_ofData sane xs
    have ended := adds_ofDatum built.consistent tail
    exact (built.trans ended).trans (adds_listWithTail ended.consistent _ _)
  | .vector xs _ => by
    rw [ofDatum]
    have built := adds_ofData sane xs
    exact built.trans (.alloc built.consistent _)

theorem adds_ofData {heap : Heap} (sane : heap.Consistent) :
    (data : List Datum) → heap.Adds (heap.ofData data).2
  | [] => by
    rw [ofData]
    exact .refl sane
  | item :: xs => by
    rw [ofData]
    have first := adds_ofDatum sane item
    exact first.trans (adds_ofData first.consistent xs)

end

/-- What can be reached among old and new objects could be reached before, unless a handle that
dangled has been handed out again. -/
theorem Preserves.reachable (preserves : old.Preserves new) {roots : List Handle} {h : Handle}
    (reached : new.Reachable roots h) : old.Reachable roots h ∨
      ∃ lost, old.Reachable roots lost ∧ old.isLive lost = false ∧ new.isLive lost = true := by
  induction reached with
  | root mem => exact .inl (.root mem)
  | @through holder obj ref _ held refers ih =>
    rcases ih with before | reissued
    · cases there : old.get? holder with
      | some obj' =>
        cases Option.some.inj ((preserves holder obj' there).symm.trans held)
        exact .inl (.through before there refers)
      | none => exact .inr ⟨holder, before, by simp [isLive, there], by simp [isLive, held]⟩
    · exact .inr reissued

end Heap

/-! ### Scopes within the top level -/

/-- A scope is the global one, as given, or lies within the top level, which alone has slots that
exist already. -/
structure Scope.Confined (entry global : Scope) (topLevel : Handle) (scope : ScopeRef) : Prop where
  outermost : scope = globalScope → entry = global
  top : scope = topLevelScope → entry.syntactic = false ∧ entry.invocation = some topLevel
  inner : topLevelScope < scope →
    (∃ parent, entry.parent = some parent ∧ globalScope < parent) ∧ entry.invocation = none
  /-- No initializer was written in the global scope. -/
  homes (waiting : Deferred) : globalScope < scope → some waiting ∈ entry.deferred →
    waiting.scope = globalScope → waiting.scopeId ≠ global.id

structure Scopes.Confined (global : Scope) (topLevel : Handle) (scopes : Scopes) : Prop where
  base : topLevelScope < scopes.stack.size
  entries (scope : ScopeRef) (entry : Scope) : scopes.stack[scope]? = some entry →
    entry.Confined global topLevel scope

namespace Scopes

variable {global : Scope} {topLevel : Handle} {scopes : Scopes} {scope target : ScopeRef}

section

variable (confined : scopes.Confined global topLevel)

include confined

theorem Confined.outermost : scopes.stack[globalScope]? = some global := by
  have found := Array.getElem?_eq_getElem (Nat.lt_trans (Nat.lt_succ_self 0) confined.base)
  exact found.trans (congrArg some ((confined.entries _ _ found).outermost rfl))

/-- A variable defined within the top level does not belong to the global scope. -/
theorem Confined.owner (inside : globalScope < scope) : globalScope < scopes.owner scope := by
  have first : ∀ link, (scopes.chain scope).find? (fun link => !link.2.syntactic) = some link →
      globalScope < link.1 := by
    induction scope using Nat.strongRecOn with
    | ind scope ih =>
      intro link found
      rw [chain] at found
      split at found
      · cases found
      · rename_i e there
        rw [List.find?_cons] at found
        split at found
        · cases found
          exact inside
        · rename_i syntactic
          -- The top level has slots, so the scope lies within it.
          have held := confined.entries scope e there
          have deeper : topLevelScope < scope := Nat.lt_of_le_of_ne inside fun here => by
            simp [(held.top here.symm).1] at syntactic
          obtain ⟨⟨parent, outer, above⟩, -⟩ := held.inner deeper
          rw [outer] at found
          dsimp only at found
          split at found
          · exact ih parent ‹_› above link found
          · cases found
  rw [Scopes.owner]
  split
  · exact first _ ‹_›
  · exact inside

theorem Confined.modify (inside : globalScope < target) {change : Scope → Scope}
    (parent : ∀ e, (change e).parent = e.parent)
    (syntactic : ∀ e, (change e).syntactic = e.syntactic)
    (inv : ∀ e, (change e).invocation = e.invocation)
    (homes : ∀ e waiting, some waiting ∈ (change e).deferred →
      some waiting ∈ e.deferred ∨ globalScope < waiting.scope) :
    (scopes.modify target change).Confined global topLevel := by
  refine ⟨(size_modify ..).symm ▸ confined.base, forall_modify
    (fun scope e _ => confined.entries scope e) fun e found => ?_⟩
  have before := confined.entries target e found
  refine ⟨fun outermost => absurd outermost (Nat.ne_of_gt inside), ?_, ?_, ?_⟩
  · rw [syntactic, inv]
    exact before.top
  · rw [parent, inv]
    exact before.inner
  · intro waiting above mem written
    rcases homes e waiting mem with known | elsewhere
    · exact before.homes waiting above known written
    · exact absurd elsewhere (Nat.not_lt.mpr (Nat.le_of_eq written))

theorem Confined.push {parent : ScopeRef} (inside : globalScope < parent) (syntactic : Bool) :
    globalScope < scopes.stack.size ∧
      (scopes.push (some parent) syntactic none).2.Confined global topLevel := by
  have base := confined.base
  have bound : globalScope < scopes.stack.size := Nat.lt_trans (Nat.lt_succ_self 0) base
  refine ⟨bound, Nat.lt_trans base (by simp [Scopes.push]), forall_push confined.entries ?_⟩
  exact ⟨fun outermost => absurd outermost (Nat.ne_of_gt bound),
    fun top => absurd top (Nat.ne_of_gt base), fun _ => ⟨⟨parent, rfl, inside⟩, rfl⟩, by simp⟩

theorem Confined.truncate {n : Nat} (more : topLevelScope < n) :
    (scopes.truncate n).Confined global topLevel :=
  ⟨(size_truncate ..).symm ▸ Nat.lt_min.mpr ⟨more, confined.base⟩,
    fun scope e found => confined.entries scope e (getElem?_of_truncate found).2⟩

theorem Confined.pop : (scopes.pop scope).Confined global topLevel := by
  rw [Scopes.pop]
  split
  · exact confined.truncate ‹_›
  · exact confined

theorem Confined.takeDeferred (inside : globalScope < scope) :
    (∀ pending ∈ (scopes.takeDeferred scope).1, globalScope < pending.scope) ∧
      (scopes.takeDeferred scope).2.Confined global topLevel := by
  have above := confined.owner inside
  constructor
  · intro pending mem
    obtain ⟨waiting, waits, home, -⟩ := waits_of_taken mem
    rw [home, homeOf]
    split
    · rename_i home there
      split
      · rename_i numbered
        refine Nat.pos_of_ne_zero fun (written : waiting.scope = globalScope) => ?_
        cases (confined.entries _ home there).outermost written
        cases found : scopes.stack[scopes.owner scope]? with
        | none =>
          rw [ownerScope, Array.getD_eq_getD_getElem?, found] at waits
          cases waits
        | some e =>
          rw [ownerScope, getD_eq found] at waits
          exact (confined.entries _ e found).homes waiting above
            (Array.mem_of_getElem? waits) written numbered.symm
      · exact above
    · exact above
  · apply Confined.modify confined above
    · exact fun _ => rfl
    · exact fun _ => rfl
    · exact fun _ => rfl
    · intro e waiting mem
      simp at mem

end

/-- Adding a variable changes the scope that it belongs to, and its slots if they exist. -/
theorem addVariable_eq (scopes : Scopes) (scope : ScopeRef) (name : String)
    (initializer : Option Datum) (v : Option Value) : ∃ (i : Nat) (change : Scope → Scope),
      (∀ heap, (scopes.addVariable scope name initializer v heap).2 =
        (scopes.modify (scopes.owner scope) change,
          widen heap (scopes.ownerScope scope).invocation i v)) ∧
      ∀ e, (change e).parent = e.parent ∧ (change e).syntactic = e.syntactic ∧
        (change e).invocation = e.invocation ∧ (change e).constants = e.constants ∧
        (∀ name transformer, (name, .transformer transformer) ∈ (change e).bindings →
          (name, .transformer transformer) ∈ e.bindings) ∧
        ∀ waiting, some waiting ∈ (change e).deferred → some waiting ∈ e.deferred ∨
          waiting.scope = scope ∧ waiting.form ∈ initializer := by
  have written {waiting : Deferred} (eq : scopes.defer scope name initializer = some waiting) :
      waiting.scope = scope ∧ waiting.form ∈ initializer := by
    obtain ⟨form, given, rfl⟩ := Option.map_eq_some_iff.mp eq
    exact ⟨rfl, given⟩
  cases known : slot? (scopes.ownerScope scope) name with
  | some i =>
    refine ⟨i, _, fun heap => addVariable_known rfl known, fun e => ?_⟩
    cases deferred : scopes.defer scope name initializer with
    | none => exact ⟨rfl, rfl, rfl, rfl, fun _ _ mem => mem, fun _ mem => .inl mem⟩
    | some latest =>
      refine ⟨rfl, rfl, rfl, rfl, fun _ _ mem => mem, fun waiting mem => ?_⟩
      rcases Array.mem_or_eq_of_mem_setIfInBounds mem with before | here
      · exact .inl before
      · cases here
        exact .inr (written deferred)
  | none =>
    refine ⟨_, _, fun heap => addVariable_new rfl known, fun e =>
      ⟨rfl, rfl, rfl, rfl, fun _ _ mem => by simpa [declare] using mem, fun waiting mem => ?_⟩⟩
    rcases Array.mem_push.mp mem with before | here
    · exact .inl before
    · exact .inr (written here.symm)

/-- The slots that exist already are those of the top level. -/
theorem Confined.invocation (confined : scopes.Confined global topLevel)
    (inside : globalScope < scope) : (scopes.ownerScope scope).invocation = none ∨
      (scopes.ownerScope scope).invocation = some topLevel := by
  have above := confined.owner inside
  cases found : scopes.stack[scopes.owner scope]? with
  | none =>
    rw [ownerScope, Array.getD_eq_getD_getElem?, found]
    exact .inl rfl
  | some e =>
    have held := confined.entries _ e found
    rw [ownerScope, getD_eq found]
    rcases Nat.lt_or_eq_of_le above with deeper | here
    · exact .inl (held.inner deeper).2
    · exact .inr (held.top here.symm).2

end Scopes

/-! ### Objects that exist already -/

/-- `old.Spared topLevel new`: objects have been added, and slots to the invocation of the top level;
there may be new notes. -/
structure Store.Spared (topLevel : Handle) (old new : Store) : Prop where
  hosts : new.hosts = old.hosts
  detail : new.journal.detail = old.journal.detail
  printed : new.journal.printed = old.journal.printed
  consistent : new.heap.Consistent
  others (handle : Handle) (object : Object) : handle ≠ topLevel →
    old.heap.get? handle = some object → new.heap.get? handle = some object
  slots (procedure : Option Handle) (slots : Array Value) :
    old.heap.get? topLevel = some (.invocation procedure slots) →
      ∃ added, new.heap.get? topLevel = some (.invocation procedure (slots ++ added))

namespace Store

variable {topLevel : Handle} {old new : Store}

theorem Spared.note (spared : Spared topLevel old new) (detail : Detail) (message : Unit → String) :
    Spared topLevel old (new.note detail message) := by
  refine ⟨spared.hosts, ?_, ?_, spared.consistent, spared.others, spared.slots⟩
  · rw [← spared.detail]
    simp only [Store.note, Journal.note]
    split <;> rfl
  · rw [← spared.printed]
    simp only [Store.note, Journal.note]
    split <;> rfl

theorem Spared.adds (spared : Spared topLevel old new) {heap : Heap} (adds : new.heap.Adds heap) :
    Spared topLevel old { new with heap } := by
  refine ⟨spared.hosts, spared.detail, spared.printed, adds.consistent, ?_, ?_⟩
  · intro h obj distinct held
    exact adds.preserves _ _ (spared.others h obj distinct held)
  · intro procedure slots held
    obtain ⟨added, present⟩ := spared.slots procedure slots held
    exact ⟨added, adds.preserves _ _ present⟩

theorem Spared.widen (spared : Spared topLevel old new) {inv : Option Handle}
    (own : inv = none ∨ inv = some topLevel) (i : Nat) :
    Spared topLevel old { new with heap := Scopes.widen new.heap inv i none } := by
  rcases own with rfl | rfl
  · exact spared
  · refine ⟨spared.hosts, spared.detail, spared.printed, spared.consistent.modify _ _, ?_, ?_⟩
    · intro h obj distinct held
      simp only [Scopes.widen, Heap.get?_modifySlots, if_neg distinct]
      exact spared.others h obj distinct held
    · intro procedure slots held
      obtain ⟨added, present⟩ := spared.slots procedure slots held
      refine ⟨added ++ Array.replicate (i + 1 - (slots ++ added).size) .unspecified, ?_⟩
      simp [Scopes.widen, Heap.get?_modifySlots, present, Scopes.fillSlot, Array.append_assoc]

end Store

namespace Compiler

open CompileM

/-- Compiling within the top level changes neither the global scope nor an object. -/
theorem congruence_confined (global : Scope) (topLevel : Handle) (origin : Store) :
    Congruence (fun _ => True) (fun _ => True) (fun _ => True) (globalScope < ·)
      (Scopes.Confined global topLevel)
      (fun store store' => store = store' ∧ Store.Spared topLevel origin store) where
  code := composes_trivial
  value _ := trivial
  lambda _ _ := trivial
  keeps _ _ _ _ _ _ _ := .any _
  push syntactic confined inside := confined.push inside syntactic
  pop confined _ := confined.pop
  finish confined inside := ⟨fun _ _ => trivial, Scopes.Confined.pop
    (confined.modify inside (fun _ => rfl) (fun _ => rfl) (fun _ => rfl) fun _ _ mem => .inl mem)⟩
  number confined := ⟨confined.base, confined.entries⟩
  bind name _ _ confined inside :=
    confined.modify inside (fun _ => rfl) (fun _ => rfl) (fun _ => rfl) fun _ _ mem => .inl mem
  addConstant _ confined inside :=
    confined.modify (confined.owner inside) (fun _ => rfl) (fun _ => rfl) (fun _ => rfl)
      fun _ _ mem => .inl mem
  takeDeferred confined inside :=
    (confined.takeDeferred inside).imp_left fun homes pending mem => ⟨homes pending mem, .any _⟩
  addVariable {scope} name initializer _ inside := by
    rintro _ ⟨_, store⟩ ⟨scopes, store'⟩ ⟨rfl, confined, same, spared⟩
    obtain rfl : store = store' := same
    obtain ⟨i, change, eq, changes⟩ := scopes.addVariable_eq scope name initializer none
    have out : CompileM.addVariable scope name initializer ⟨scopes, store⟩ =
        .ok () ⟨scopes.modify (scopes.owner scope) change, { store with
          heap := Scopes.widen store.heap (scopes.ownerScope scope).invocation i none }⟩ := by
      have both := eq store.heap
      simp only [CompileM.addVariable, Store.onHeap, both]
    rw [out]
    refine .ok le_rfl ⟨rfl, trivial⟩ ⟨rfl, ?_, rfl, spared.widen (confined.invocation inside) i⟩
    refine confined.modify (confined.owner inside) (fun e => (changes e).1)
      (fun e => (changes e).2.1) (fun e => (changes e).2.2.1) ?_
    intro e waiting mem
    rcases (changes e).2.2.2.2.2 waiting mem with before | ⟨written, -⟩
    · exact .inl before
    · exact .inr (written.symm ▸ inside)
  note := by
    rintro store _ detail message ⟨rfl, spared⟩
    exact ⟨rfl, spared.note detail message⟩
  quoted := by
    rintro store _ d ⟨rfl, spared⟩
    exact ⟨rfl, rfl, spared.adds (Heap.adds_ofDatum spared.consistent d)⟩

end Compiler

namespace Compilation

variable {before after : Compilation} {global top : Scope} {topLevel : Handle}

variable {scopes : Scopes} {heap : Heap}

theorem rollback_stack (size : before.scopes.stack.size = 2)
    (further : before.scopes.Extends after.scopes)
    (found : before.scopes.stack[globalScope]? = some global)
    (top_found : before.scopes.stack[topLevelScope]? = some top)
    (confined : after.scopes.Confined global topLevel)
    (rolled : after.scopes.rollback before.scopes.checkpoint after.store.heap = (scopes, heap)) :
    scopes.stack = before.scopes.stack := by
  rw [Scopes.rollback_eq size further top_found] at rolled
  cases rolled
  have truncated := further.truncate
  rw [size] at truncated
  obtain ⟨latest, there, -⟩ := truncated.embeds _ _ top_found
  apply Array.ext_getElem?
  intro place
  match place with
  | 0 =>
    rw [Scopes.getElem?_modify, if_neg (by decide), Scopes.getElem?_truncate, if_pos (by decide)]
    exact confined.outermost.trans found.symm
  | 1 =>
    rw [Scopes.getElem?_modify, if_pos (by decide)]
    exact (congrArg (Option.map fun _ => top) there).trans top_found.symm
  | place + 2 =>
    have beyond : topLevelScope ≠ place + 2 := by simp [topLevelScope]
    rw [Scopes.getElem?_modify, if_neg beyond, Scopes.getElem?_truncate, if_neg (by simp)]
    exact (Array.getElem?_eq_none (by rw [size]; exact Nat.le_add_left 2 place)).symm

/-- Going back to a checkpoint restores the slots of the top level, so all objects are as before. -/
theorem rollback_preserves (size : before.scopes.stack.size = 2)
    (further : before.scopes.Extends after.scopes)
    (top_found : before.scopes.stack[topLevelScope]? = some top)
    (anchored : top.invocation = some topLevel) {procedure : Option Handle} {slots : Array Value}
    (held : before.store.heap.get? topLevel = some (.invocation procedure slots))
    (n : slots.size = top.variableCount) (spared : before.store.Spared topLevel after.store)
    (rolled : after.scopes.rollback before.scopes.checkpoint after.store.heap = (scopes, heap)) :
    before.store.heap.Preserves heap := by
  rw [Scopes.rollback_eq size further top_found, anchored] at rolled
  cases rolled
  intro h obj present
  rw [Heap.get?_modifySlots]
  split
  · rename_i here
    subst here
    cases Option.some.inj (held.symm.trans present)
    obtain ⟨added, latest⟩ := spared.slots procedure slots held
    rw [latest, ← n]
    simp
  · exact spared.others h obj ‹_› present

end Compilation

end MiniScheme
