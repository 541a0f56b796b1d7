import MiniScheme.Proofs.Code.Heights
import MiniScheme.Proofs.Compiler.Confinement

/-!
# Where code comes from

A call in compiled code is recorded at the position of a form that comes from the data. What the
scopes hold from one datum to the next has that origin as well: transformers keep it, initializers
that wait have it, and so does the code of the procedures among the constants.
-/

namespace MiniScheme

variable {source : Datum → Prop}

/-- All calls in the code of a constant, and of the procedures that it creates, are recorded at the
positions of their forms. -/
inductive Constant.Attributed (source : Datum → Prop) : Constant → Prop where
  | value (value : Value) : Attributed source (.value value)
  | lambda {lambda : Lambda} (body : lambda.body.Attributed source)
      (constants : ∀ constant ∈ lambda.constants, Attributed source constant) :
      Attributed source (.lambda lambda)

/-- What has been loaded is as well attributed as the data are. -/
theorem Loaded.attributed {data : List Lambda} {lambda : Lambda} (loaded : Loaded data lambda)
    (each : ∀ lambda ∈ data, (Constant.lambda lambda).Attributed source) :
    (Constant.lambda lambda).Attributed source := by
  induction loaded with
  | datum member => exact each _ member
  | inside _ creates ih =>
    cases ih with
    | lambda _ constants =>
      obtain ⟨_, _, _, _, -, -, -, -, found⟩ := creates
      exact constants _ (Array.mem_of_getElem? found)

structure Scope.Drawn (source : Datum → Prop) (entry : Scope) : Prop where
  transformers (name : String) (transformer : Transformer) :
    (name, .transformer transformer) ∈ entry.bindings → transformer.kind.Keeps source
  waiting (deferred : Deferred) : some deferred ∈ entry.deferred → Stems source deferred.form
  constants (constant : Constant) : constant ∈ entry.constants → constant.Attributed source

def Scopes.Drawn (source : Datum → Prop) (scopes : Scopes) : Prop :=
  ∀ (scope : ScopeRef) (entry : Scope), scopes.stack[scope]? = some entry → entry.Drawn source

namespace Scopes

variable {scopes old : Scopes} {name : String} {transformer : Transformer}

theorem mem_of_find? {depth : Nat} {chain : List (ScopeRef × Scope)}
    (found : find? name depth chain = some (.transformer transformer)) :
    ∃ link ∈ chain, (name, .transformer transformer) ∈ link.2.bindings := by
  induction chain generalizing depth with
  | nil => cases found
  | cons link outer ih =>
    rw [find?] at found
    split at found
    · cases found
    · rename_i binding _ listed
      cases found
      obtain ⟨front, back, same, -⟩ := List.lookup_eq_some_iff.mp listed
      refine ⟨link, List.mem_cons_self, ?_⟩
      rw [same]
      exact List.mem_append_right _ List.mem_cons_self
    · obtain ⟨link, mem, listed⟩ := ih found
      exact ⟨link, List.mem_cons_of_mem _ mem, listed⟩

namespace Drawn

variable (drawn : scopes.Drawn source)

include drawn

theorem keeps {scope : ScopeRef} (found : scopes.resolve scope name = some (.transformer transformer)) :
    transformer.kind.Keeps source := by
  obtain ⟨link, mem, listed⟩ := mem_of_find? found
  exact (drawn _ _ (mem_chain mem)).transformers name transformer listed

theorem getD (scope : ScopeRef) : (scopes.stack.getD scope default).Drawn source := by
  cases found : scopes.stack[scope]? with
  | none =>
    rw [Array.getD_eq_getD_getElem?, found]
    exact ⟨nofun, nofun, nofun⟩
  | some entry =>
    rw [getD_eq found]
    exact drawn scope entry found

theorem modify (target : ScopeRef) {change : Scope → Scope}
    (changed : ∀ entry : Scope, entry.Drawn source → (change entry).Drawn source) :
    (scopes.modify target change).Drawn source :=
  forall_modify (fun scope entry _ => drawn scope entry) fun entry found =>
    changed entry (drawn target entry found)

theorem push (parent : Option ScopeRef) (syntactic : Bool) (invocation : Option Handle) :
    (scopes.push parent syntactic invocation).2.Drawn source :=
  forall_push drawn ⟨nofun, nofun, nofun⟩

theorem truncate (n : Nat) : (scopes.truncate n).Drawn source :=
  fun scope entry found => drawn scope entry (getElem?_of_truncate found).2

theorem pop (scope : ScopeRef) : (scopes.pop scope).Drawn source := by
  rw [Scopes.pop]
  split
  · exact drawn.truncate scope
  · exact drawn

theorem bind (scope : ScopeRef) (name : String) {binding : Binding}
    (keeps : ∀ transformer, binding = .transformer transformer → transformer.kind.Keeps source) :
    (scopes.bind scope name binding).Drawn source := by
  refine drawn.modify scope fun entry held => ⟨fun name transformer mem => ?_, held.2, held.3⟩
  rcases List.mem_cons.mp mem with here | there
  · cases here
    exact keeps transformer rfl
  · exact held.transformers name transformer there

theorem addVariable (scope : ScopeRef) (name : String) {initializer : Option Datum}
    (stem : ∀ form ∈ initializer, Stems source form) (value : Option Value) (heap : Heap) :
    (scopes.addVariable scope name initializer value heap).2.1.Drawn source := by
  obtain ⟨index, change, same, changes⟩ := scopes.addVariable_eq scope name initializer value
  rw [same heap]
  refine drawn.modify _ fun entry held => ?_
  obtain ⟨-, -, -, constants, transformers, waits⟩ := changes entry
  refine ⟨fun name transformer mem => ?_, fun deferred mem => ?_, fun constant mem => ?_⟩
  · exact held.transformers name transformer (transformers name transformer mem)
  · rcases waits deferred mem with before | ⟨-, written⟩
    · exact held.waiting deferred before
    · exact stem _ written
  · exact held.constants constant (constants ▸ mem)

theorem takeDeferred (scope : ScopeRef) :
    (∀ pending ∈ (scopes.takeDeferred scope).1, Stems source pending.form) ∧
      (scopes.takeDeferred scope).2.Drawn source := by
  constructor
  · intro pending mem
    obtain ⟨deferred, waits, -, same⟩ := waits_of_taken mem
    rw [same]
    exact (drawn.getD _).waiting deferred (Array.mem_of_getElem? waits)
  · exact drawn.modify _ fun entry held => ⟨held.1, fun deferred mem => by simp at mem, held.3⟩

theorem rollback (before : old.Drawn source) (heap : Heap) :
    (scopes.rollback old.checkpoint heap).1.Drawn source := by
  have top := before.getD topLevelScope
  refine (drawn.truncate (topLevelScope + 1)).modify topLevelScope fun entry held =>
    ⟨top.transformers, top.waiting, fun constant mem => held.constants constant ?_⟩
  obtain ⟨index, bound, rfl⟩ := Array.mem_iff_getElem.mp mem
  simp

end Drawn

end Scopes

namespace Compiler

open CompileM

theorem composes_attributed (source : Datum → Prop) :
    Composes source (Bytecode.Attributed source) :=
  ⟨.nothing, .append, .plain, .call⟩

/-- Compiling data keeps the origin of what the scopes hold. -/
theorem congruence_drawn (source : Datum → Prop) :
    Congruence source (Bytecode.Attributed source) (Constant.Attributed source) (fun _ => True)
      (Scopes.Drawn source) Eq where
  code := composes_attributed source
  value := .value
  lambda := .lambda
  keeps drawn := drawn.keeps
  push syntactic drawn _ := ⟨trivial, drawn.push _ syntactic none⟩
  pop drawn _ := drawn.pop _
  finish {_ scope} drawn _ := by
    refine ⟨(drawn.getD scope).constants, Scopes.Drawn.pop (drawn.modify scope ?_) scope⟩
    exact fun _ held => ⟨held.1, held.2, nofun⟩
  number drawn := drawn
  bind name _ keeps drawn _ := drawn.bind _ name fun _ same => by
    cases same
    exact keeps
  addConstant fine drawn _ := drawn.modify _ fun _ held => ⟨held.1, held.2, fun constant mem =>
    (Array.mem_push.mp mem).elim (held.constants constant) fun same => same ▸ fine⟩
  takeDeferred {_ scope} drawn _ := (drawn.takeDeferred scope).imp_left fun stem pending mem =>
    ⟨trivial, stem pending mem⟩
  addVariable {scope} name _ stem _ := by
    rintro _ ⟨_, store⟩ ⟨scopes, store'⟩ ⟨rfl, drawn, same⟩
    obtain rfl : store = store' := same
    exact .ok le_rfl ⟨rfl, trivial⟩ ⟨rfl, drawn.addVariable scope name stem none store.heap, rfl⟩
  note _ _ same := by rw [same]
  quoted _ same := by
    subst same
    exact ⟨rfl, rfl⟩

end Compiler

end MiniScheme
