import MiniScheme.Proofs.Compiler.Parallel
import Mathlib.Order.CompleteBooleanAlgebra
import Mathlib.Order.CompletePartialOrder

/-!
# Compiling in two stores

Compiling asks its state for little: what names mean, where a scope keeps its slots, which values
quoted data become. A relation between stores that these few steps respect is respected by compiling
as a whole: with the same scopes it ends alike in both stores, with the same result or the same
error, and leaves the same scopes and related stores behind. What holds of the scopes meanwhile, and
of the constants in them, is carried along.
-/

namespace MiniScheme

namespace CompileM

variable {α : Type} {inv : Scopes → Prop} {stores : Store → Store → Prop} {good : α → Prop}

/-- The compilations have the same scopes, of which the invariant holds, and related stores. -/
def Joined (inv : Scopes → Prop) (stores : Store → Store → Prop) (state state' : Compilation) :
    Prop :=
  state'.scopes = state.scopes ∧ inv state.scopes ∧ stores state.store state'.store

theorem parallel_onScopes {work : Scopes → α × Scopes}
    (keeps : ∀ scopes, inv scopes → good (work scopes).1 ∧ inv (work scopes).2) :
    Parallel (fun _ : Unit => Joined inv stores) good (CompileM.onScopes work) := by
  rintro _ ⟨_, store⟩ ⟨scopes, store'⟩ ⟨rfl, holds, related⟩
  exact .ok le_rfl ⟨rfl, (keeps scopes holds).1⟩ ⟨rfl, (keeps scopes holds).2, related⟩

end CompileM

namespace Compiler

open CompileM

/-- What has to be known of each step for compiling as a whole. Forms are compiled in scopes that
are `inside` only. -/
structure Congruence (source : Datum → Prop) (fine : Bytecode → Prop) (sound : Constant → Prop)
    (inside : ScopeRef → Prop) (inv : Scopes → Prop) (stores : Store → Store → Prop) : Prop where
  code : Composes source fine
  value (value : Value) : sound (.value value)
  lambda {lambda : Lambda} : fine lambda.body → (∀ constant ∈ lambda.constants, sound constant) →
    sound (.lambda lambda)
  keeps {scopes : Scopes} {scope : ScopeRef} {name : String} {transformer : Transformer} :
    inv scopes → scopes.resolve scope name = some (.transformer transformer) →
      transformer.kind.Keeps source
  push {scopes : Scopes} {parent : ScopeRef} (syntactic : Bool) : inv scopes → inside parent →
    inside scopes.stack.size ∧ inv (scopes.push (some parent) syntactic none).2
  pop {scopes : Scopes} {scope : ScopeRef} : inv scopes → inside scope → inv (scopes.pop scope)
  finish {scopes : Scopes} {scope : ScopeRef} : inv scopes → inside scope →
    (∀ constant ∈ (scopes.finish scope).2.1, sound constant) ∧ inv (scopes.finish scope).2.2
  number {scopes : Scopes} : inv scopes → inv { scopes with nextId := scopes.nextId + 1 }
  bind {scopes : Scopes} {scope : ScopeRef} (name : String) {transformer : Transformer} :
    transformer.kind.Keeps source → inv scopes → inside scope →
      inv (scopes.bindTransformer scope name transformer)
  addConstant {scopes : Scopes} {scope : ScopeRef} {constant : Constant} : sound constant →
    inv scopes → inside scope → inv (scopes.addConstant scope constant).2
  takeDeferred {scopes : Scopes} {scope : ScopeRef} : inv scopes → inside scope →
    (∀ pending ∈ (scopes.takeDeferred scope).1, inside pending.scope ∧
      Stems source pending.form) ∧ inv (scopes.takeDeferred scope).2
  addVariable {scope : ScopeRef} (name : String) {initializer : Option Datum} :
    (∀ form ∈ initializer, Stems source form) → inside scope → Parallel (fun _ : Unit => Joined inv stores) (fun _ => True)
      (CompileM.addVariable scope name initializer)
  note {store store' : Store} (detail : Detail) (message : Unit → String) : stores store store' →
    stores (store.note detail message) (store'.note detail message)
  quoted {store store' : Store} (datum : Datum) : stores store store' →
    (store.heap.ofDatum datum).1 = (store'.heap.ofDatum datum).1 ∧
      stores { store with heap := (store.heap.ofDatum datum).2 }
        { store' with heap := (store'.heap.ofDatum datum).2 }

variable {source : Datum → Prop} {fine : Bytecode → Prop} {sound : Constant → Prop}
  {inside : ScopeRef → Prop} {inv : Scopes → Prop} {stores : Store → Store → Prop}

/-- Steps that respect a relation between stores go alike from states with the same scopes. -/
theorem Congruence.parallels (congruence : Congruence source fine sound inside inv stores) :
    Parallels source fine inside (fun _ constant constant' => constant' = constant ∧ sound constant)
      (fun _ : Unit => Joined inv stores) where
  code := congruence.code
  later _ same := same
  data _ := ⟨rfl, congruence.value _⟩
  lambda lam inner inner' clean same := by
    have equal : inner = inner' := by
      rw [← Array.toList_inj, ← List.forall₂_eq_eq_eq]
      exact same.imp fun _ _ both => both.1.symm
    subst equal
    refine ⟨rfl, congruence.lambda clean fun constant mem => ?_⟩
    exact (List.forall₂_same.mp same constant (Array.mem_def.mp mem)).2
  resolve scope name joined := by rw [joined.1]
  keeps joined found := congruence.keeps joined.2.1 found
  hasDeferred scope joined := by rw [joined.1]
  note detail message := by
    rintro _ ⟨_, store⟩ ⟨scopes, store'⟩ ⟨rfl, holds, related⟩
    exact .ok le_rfl ⟨rfl, trivial⟩ ⟨rfl, holds, congruence.note detail message related⟩
  push syntactic home := parallel_onScopes fun _ holds => congruence.push syntactic holds home
  pop home := parallel_onScopes fun _ holds => ⟨trivial, congruence.pop holds home⟩
  finish home := by
    rintro _ ⟨_, store⟩ ⟨scopes, store'⟩ ⟨rfl, holds, related⟩
    obtain ⟨each, holds'⟩ := congruence.finish holds home
    refine .ok le_rfl ⟨rfl, ?_⟩ ⟨rfl, holds', related⟩
    exact List.forall₂_same.mpr fun constant mem => ⟨rfl, each constant (Array.mem_def.mpr mem)⟩
  createTransformer scope spec described := by
    rintro _ ⟨_, store⟩ ⟨scopes, store'⟩ ⟨rfl, holds, related⟩
    cases created : scopes.createTransformer scope spec with
    | error error =>
      simp only [CompileM.createTransformer, created]
      exact .error le_rfl error ⟨rfl, holds, related⟩
    | ok res =>
      obtain ⟨transformer, after⟩ := res
      simp only [CompileM.createTransformer, created]
      rcases Scopes.createTransformer_cases created with ⟨rfl, name, found⟩ | ⟨rfl, kind⟩
      · exact .ok le_rfl ⟨rfl, congruence.keeps holds found⟩ ⟨rfl, holds, related⟩
      · refine .ok le_rfl ⟨rfl, ?_⟩ ⟨rfl, congruence.number holds, related⟩
        exact fun _ _ _ stems expands => stems.expansion described kind expands
  bindTransformer name transformer keeps home :=
    parallel_onScopes fun _ holds => ⟨trivial, congruence.bind name keeps holds home⟩
  addVariable name initializer stem home := congruence.addVariable name stem home
  addConstant home same := by
    rintro ⟨_, store⟩ ⟨scopes, store'⟩ ⟨rfl, holds, related⟩
    rw [same.1]
    exact .ok le_rfl rfl ⟨rfl, congruence.addConstant same.2 holds home, related⟩
  takeDeferred home := parallel_onScopes fun _ holds => congruence.takeDeferred holds home
  built _ d := by
    rintro ⟨_, store⟩ ⟨scopes, store'⟩ ⟨rfl, holds, related⟩
    obtain ⟨same, related⟩ := congruence.quoted d related
    exact .ok le_rfl ⟨congrArg Constant.value same.symm, congruence.value _⟩ ⟨rfl, holds, related⟩

end Compiler

end MiniScheme
