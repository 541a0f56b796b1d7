import Mathlib.Data.List.Forall2
import MiniScheme.Proofs.Heap.Reference
import MiniScheme.Scope
import MiniScheme.Stdlib

/-!
# Well-formed scopes

What the compiler relies on when it turns a name into a place: scopes nest properly, variables lie
within the slots of the scope that they belong to, and a waiting initializer is compiled in a scope
with the same slots as the one it was written in. Scopes only ever gain variables and constants, so
code that was compiled earlier stays right.
-/

namespace MiniScheme

/-- Data and the standard procedures, which mean the same in every heap. -/
def Value.IsStandard (value : Value) : Prop :=
  value.isProcedure = false ∨ ∃ name, (name, value) ∈ Stdlib.definitions

/-- All values in the constant are standard. -/
def Constant.IsStandard : Constant → Prop
  | .value content => content.IsStandard
  | .lambda inner => ∀ value, inner.Mentions value → value.IsStandard

/-- `old.Evolves new`: the scope is the same, perhaps with more variables and constants. -/
structure Scope.Evolves (old new : Scope) : Prop where
  id : new.id = old.id
  parent : new.parent = old.parent
  syntactic : new.syntactic = old.syntactic
  invocation : new.invocation = old.invocation
  slots : old.variableCount ≤ new.variableCount
  constants : ∃ added, new.constants = old.constants ++ added

theorem Scope.Evolves.refl (scope : Scope) : scope.Evolves scope :=
  ⟨rfl, rfl, rfl, rfl, Nat.le_refl _, #[], by simp⟩

theorem Scope.Evolves.trans {old mid new : Scope} (first : old.Evolves mid)
    (second : mid.Evolves new) : old.Evolves new := by
  obtain ⟨added, eq⟩ := first.constants
  obtain ⟨added', eq'⟩ := second.constants
  exact ⟨second.id.trans first.id, second.parent.trans first.parent,
    second.syntactic.trans first.syntactic, second.invocation.trans first.invocation,
    Nat.le_trans first.slots second.slots, added ++ added', by simp [eq', eq]⟩

/-- The number of slots, if the scope has any of its own. -/
def Scope.slotCount? (scope : Scope) : Option Nat :=
  if scope.syntactic then none else some scope.variableCount

namespace Scopes

variable {scopes old mid new : Scopes} {scope parent : ScopeRef} {e : Scope}

/-- `old.Embeds new`: all scopes are still there. -/
def Embeds (old new : Scopes) : Prop :=
  ∀ (scope : ScopeRef) (entry : Scope), old.stack[scope]? = some entry →
    ∃ entry' : Scope, new.stack[scope]? = some entry' ∧ entry.Evolves entry'

/-- `old.Extends new`: all scopes are still there, and others have new numbers. -/
structure Extends (old new : Scopes) : Prop where
  embeds : old.Embeds new
  numbers : old.nextId ≤ new.nextId
  fresh (scope : ScopeRef) (entry : Scope) : old.stack.size ≤ scope →
    new.stack[scope]? = some entry → old.nextId ≤ entry.id

/-- `old.Retains places new`: the scopes at these places have the same constants. -/
def Retains (old : Scopes) (places : ScopeRef → Prop) (new : Scopes) : Prop :=
  ∀ (scope : ScopeRef) (entry entry' : Scope), places scope → old.stack[scope]? = some entry →
    new.stack[scope]? = some entry' → entry'.constants = entry.constants

/-- Every scope lies in one below it in the stack, except for the outermost, which has slots. -/
structure Nested (scopes : Scopes) : Prop where
  outermost (entry : Scope) : scopes.stack[0]? = some entry →
    entry.parent = none ∧ entry.syntactic = false
  inner (scope : ScopeRef) (entry : Scope) : scopes.stack[scope + 1]? = some entry →
    ∃ parent, entry.parent = some parent ∧ parent ≤ scope

/-- The number of slots of each scope that has any, innermost first. -/
def shape (scopes : Scopes) (scope : ScopeRef) : List Nat :=
  (scopes.chain scope).filterMap fun link => link.2.slotCount?

theorem Embeds.refl (scopes : Scopes) : scopes.Embeds scopes :=
  fun _ e found => ⟨e, found, .refl e⟩

theorem Embeds.trans (first : old.Embeds mid) (second : mid.Embeds new) : old.Embeds new := by
  intro scope e found
  obtain ⟨e', found', evolves⟩ := first scope e found
  obtain ⟨e'', found'', evolves'⟩ := second scope e' found'
  exact ⟨e'', found'', evolves.trans evolves'⟩

theorem Embeds.size_le (embeds : old.Embeds new) : old.stack.size ≤ new.stack.size := by
  rcases Nat.eq_zero_or_pos old.stack.size with empty | positive
  · omega
  · have last : old.stack.size - 1 < old.stack.size := by omega
    obtain ⟨e, found, -⟩ := embeds _ _ (Array.getElem?_eq_getElem last)
    have bound := lt_size found
    omega

theorem Extends.of_size_le (embeds : old.Embeds new) (numbers : old.nextId ≤ new.nextId)
    (size : new.stack.size ≤ old.stack.size) : old.Extends new :=
  ⟨embeds, numbers, fun _ _ outside found =>
    absurd (lt_size found) (Nat.not_lt.mpr (Nat.le_trans size outside))⟩

theorem Extends.refl (scopes : Scopes) : scopes.Extends scopes :=
  .of_size_le (.refl scopes) (Nat.le_refl _) (Nat.le_refl _)

theorem Extends.trans (first : old.Extends mid) (second : mid.Extends new) : old.Extends new := by
  refine ⟨first.embeds.trans second.embeds, Nat.le_trans first.numbers second.numbers, ?_⟩
  intro scope e outside found
  by_cases inside : scope < mid.stack.size
  · have there := Array.getElem?_eq_getElem inside
    obtain ⟨e', found', evolves⟩ := second.embeds scope _ there
    rw [found] at found'
    cases found'
    rw [evolves.id]
    exact first.fresh scope _ outside there
  · exact Nat.le_trans first.numbers (second.fresh scope e (Nat.le_of_not_lt inside) found)

theorem Retains.refl (scopes : Scopes) (places : ScopeRef → Prop) :
    scopes.Retains places scopes := by
  intro scope e e' _ found found'
  rw [found] at found'
  cases found'
  rfl

variable {places : ScopeRef → Prop}

theorem Retains.trans (first : old.Retains places mid) (second : mid.Retains places new)
    (embeds : old.Embeds mid) : old.Retains places new := by
  intro scope e e'' inside found found''
  obtain ⟨e', found', -⟩ := embeds scope e found
  exact (second scope e' e'' inside found' found'').trans (first scope e e' inside found found')

theorem Retains.mono {fewer : ScopeRef → Prop} (retains : old.Retains places new)
    (included : ∀ scope, fewer scope → places scope) : old.Retains fewer new :=
  fun scope e e' inside => retains scope e e' (included scope inside)

/-! ### Chains -/

theorem chain_of_parent (found : scopes.stack[scope]? = some e)
    (inside : e.parent = some parent) (below : parent < scope) :
    scopes.chain scope = (scope, e) :: scopes.chain parent := by
  rw [chain, found]
  simp only [inside, if_pos below]

theorem chain_of_root (found : scopes.stack[scope]? = some e) (root : e.parent = none) :
    scopes.chain scope = [(scope, e)] := by
  rw [chain, found]
  simp only [root]

theorem chain_length_le (scopes : Scopes) (scope : ScopeRef) :
    (scopes.chain scope).length ≤ scope + 1 := by
  induction scope using Nat.strongRecOn with
  | ind scope ih =>
    rw [chain]
    split
    · simp
    · split
      · split
        · rename_i parent _ below
          exact Nat.succ_le_succ (Nat.le_trans (ih parent below) below)
        · simp
      · simp

theorem mem_chain {outer : ScopeRef} (mem : (outer, e) ∈ scopes.chain scope) :
    scopes.stack[outer]? = some e := by
  induction scope using Nat.strongRecOn with
  | ind scope ih =>
    rw [chain] at mem
    split at mem
    · cases mem
    · rename_i found
      rcases List.mem_cons.mp mem with here | further
      · cases here
        exact found
      · split at further
        · split at further
          · rename_i below
            exact ih _ below further
          · cases further
        · cases further

/-- Scopes are built from the outermost inwards. -/
@[elab_as_elim]
theorem Nested.induct (nested : scopes.Nested) {motive : ScopeRef → Prop}
    (outermost : ∀ e, scopes.stack[0]? = some e → e.parent = none → e.syntactic = false → motive 0)
    (inner : ∀ scope e parent, scopes.stack[scope]? = some e →
      e.parent = some parent → parent < scope → motive parent → motive scope)
    (scope : ScopeRef) (bound : scope < scopes.stack.size) : motive scope := by
  induction scope using Nat.strongRecOn with
  | ind scope ih =>
    have found := Array.getElem?_eq_getElem bound
    cases scope with
    | zero =>
      obtain ⟨root, slots⟩ := nested.outermost _ found
      exact outermost _ found root slots
    | succ scope =>
      obtain ⟨parent, inside, below⟩ := nested.inner _ _ found
      have below : parent < scope + 1 := Nat.lt_succ_of_le below
      exact inner _ _ parent found inside below (ih parent below (Nat.lt_trans below bound))

/-- The chain of a scope only changes in what its scopes contain. -/
theorem Embeds.chain (nested : old.Nested) (embeds : old.Embeds new)
    (bound : scope < old.stack.size) :
    List.Forall₂ (fun before after => after.1 = before.1 ∧ before.2.Evolves after.2)
      (old.chain scope) (new.chain scope) := by
  refine nested.induct ?_ ?_ scope bound
  · intro e found root _
    obtain ⟨e', found', evolves⟩ := embeds _ _ found
    rw [chain_of_root found root, chain_of_root found' (evolves.parent.trans root)]
    exact .cons ⟨rfl, evolves⟩ .nil
  · intro scope e parent found inside below outer
    obtain ⟨e', found', evolves⟩ := embeds _ _ found
    rw [chain_of_parent found inside below,
      chain_of_parent found' (evolves.parent.trans inside) below]
    exact .cons ⟨rfl, evolves⟩ outer

theorem Nested.owner (nested : scopes.Nested) (bound : scope < scopes.stack.size) :
    ∃ e, scopes.stack[scopes.owner scope]? = some e ∧ e.syntactic = false ∧
      (scopes.chain scope).find? (fun (_, e) => !e.syntactic) = some (scopes.owner scope, e) := by
  suffices found : ((scopes.chain scope).find? fun (_, e) => !e.syntactic).isSome by
    obtain ⟨⟨owner, e⟩, eq⟩ := Option.isSome_iff_exists.mp found
    have here : scopes.owner scope = owner := by
      rw [Scopes.owner, eq]
    have slots := List.find?_some eq
    rw [here]
    exact ⟨e, mem_chain (List.mem_of_find?_eq_some eq), by simpa using slots, eq⟩
  refine nested.induct ?_ ?_ scope bound
  · intro e found root slots
    rw [chain_of_root found root]
    simp [slots]
  · intro scope e parent found inside below outer
    rw [chain_of_parent found inside below, List.find?_cons]
    split
    · rfl
    · exact outer

theorem Nested.owner_lt (nested : scopes.Nested) (bound : scope < scopes.stack.size) :
    scopes.owner scope < scopes.stack.size := by
  obtain ⟨e, found, -⟩ := nested.owner bound
  exact lt_size found

theorem owner_of_root (found : scopes.stack[scope]? = some e) (slots : e.syntactic = false) :
    scopes.owner scope = scope := by
  have here : ∃ outer, scopes.chain scope = (scope, e) :: outer := by
    rw [chain, found]
    exact ⟨_, rfl⟩
  obtain ⟨outer, eq⟩ := here
  rw [owner, eq]
  simp [slots]

theorem owner_of_syntactic (nested : scopes.Nested) (found : scopes.stack[scope]? = some e)
    (inside : e.parent = some parent) (below : parent < scope)
    (slotless : e.syntactic = true) : scopes.owner scope = scopes.owner parent := by
  have bound := lt_size found
  obtain ⟨_, _, _, eq⟩ := nested.owner (Nat.lt_trans below bound)
  rw [owner, chain_of_parent found inside below, List.find?_cons_of_neg (by simp [slotless]), eq]

theorem shape_of_slots (found : scopes.stack[scope]? = some e)
    (inside : e.parent = some parent) (below : parent < scope) (slots : e.syntactic = false) :
    scopes.shape scope = e.variableCount :: scopes.shape parent := by
  rw [shape, chain_of_parent found inside below]
  simp only [List.filterMap_cons, Scope.slotCount?, slots, Bool.false_eq_true, if_false]
  rfl

theorem shape_of_syntactic (found : scopes.stack[scope]? = some e)
    (inside : e.parent = some parent) (below : parent < scope)
    (slotless : e.syntactic = true) : scopes.shape scope = scopes.shape parent := by
  rw [shape, chain_of_parent found inside below]
  simp only [List.filterMap_cons, Scope.slotCount?, slotless, if_true]
  rfl

theorem shape_of_root (found : scopes.stack[scope]? = some e) (root : e.parent = none)
    (slots : e.syntactic = false) : scopes.shape scope = [e.variableCount] := by
  rw [shape, chain_of_root found root]
  simp [Scope.slotCount?, slots]

/-- Scopes without slots of their own see those of the scope they belong to. -/
theorem Nested.shape_owner (nested : scopes.Nested) (bound : scope < scopes.stack.size) :
    scopes.shape (scopes.owner scope) = scopes.shape scope := by
  refine nested.induct ?_ ?_ scope bound
  · intro e found root slots
    rw [owner_of_root found slots]
  · intro scope e parent found inside below outer
    cases kind : e.syntactic with
    | false => rw [owner_of_root found kind]
    | true =>
      rw [owner_of_syntactic nested found inside below kind,
        shape_of_syntactic found inside below kind, outer]

theorem Embeds.owner (nested : old.Nested) (embeds : old.Embeds new)
    (bound : scope < old.stack.size) : new.owner scope = old.owner scope := by
  have chains := embeds.chain nested bound
  obtain ⟨e, -, -, found⟩ := nested.owner bound
  have related : ∃ e', (new.chain scope).find? (fun (_, e) => !e.syntactic) =
      some (old.owner scope, e') := by
    generalize old.chain scope = before, new.chain scope = after at chains found
    induction chains with
    | nil => cases found
    | @cons before after _ _ here _ ih =>
      obtain ⟨outer, e⟩ := before
      obtain ⟨outer', e'⟩ := after
      obtain ⟨rfl, evolves⟩ : outer' = outer ∧ e.Evolves e' := here
      simp only [List.find?_cons, evolves.syntactic] at found ⊢
      cases kind : e.syntactic with
      | false =>
        simp only [kind] at found ⊢
        cases found
        exact ⟨e', rfl⟩
      | true =>
        simp only [kind] at found ⊢
        exact ih found
  obtain ⟨e', eq⟩ := related
  rw [Scopes.owner, eq]

theorem Embeds.shape (nested : old.Nested) (embeds : old.Embeds new)
    (bound : scope < old.stack.size) :
    List.Forall₂ (· ≤ ·) (old.shape scope) (new.shape scope) := by
  have chains := embeds.chain nested bound
  rw [Scopes.shape, Scopes.shape]
  generalize old.chain scope = before, new.chain scope = after at chains
  induction chains with
  | nil => exact .nil
  | @cons before after _ _ here _ ih =>
    simp only [List.filterMap_cons, Scope.slotCount?, here.2.syntactic]
    cases before.2.syntactic with
    | false => exact .cons here.2.slots ih
    | true => exact ih

theorem getD_eq (found : scopes.stack[scope]? = some e) : scopes.stack.getD scope default = e := by
  rw [Array.getD_eq_getD_getElem?, found, Option.getD_some]

theorem constants_eq (found : scopes.stack[scopes.owner scope]? = some e) :
    scopes.constants scope = e.constants := by
  rw [constants, ownerScope, getD_eq found]

theorem Embeds.constants (nested : old.Nested) (embeds : old.Embeds new)
    (bound : scope < old.stack.size) :
    ∃ added, new.constants scope = old.constants scope ++ added := by
  obtain ⟨e, found, -⟩ := nested.owner bound
  obtain ⟨e', found', evolves⟩ := embeds _ _ found
  rw [← embeds.owner nested bound] at found'
  rw [constants_eq found, constants_eq found']
  exact evolves.constants

theorem Retains.constants (retains : old.Retains places new) (nested : old.Nested)
    (embeds : old.Embeds new) (bound : scope < old.stack.size) (inside : places (old.owner scope)) :
    new.constants scope = old.constants scope := by
  obtain ⟨e, found, -⟩ := nested.owner bound
  obtain ⟨e', found', -⟩ := embeds _ _ found
  have same := retains _ _ _ inside found found'
  rw [← embeds.owner nested bound] at found'
  rw [constants_eq found, constants_eq found', same]

end Scopes

/-! ### Validity -/

/-- The scope contains what the compiler relies on. -/
structure Scope.Valid (scopes : Scopes) (scope : ScopeRef) (entry : Scope) : Prop where
  number : entry.id < scopes.nextId
  places (name : String) (place : Variable) : (name, .variable place) ∈ entry.bindings →
    entry.syntactic = false ∧ place.index < entry.variableCount
  deferred : entry.deferred.size ≤ entry.variableCount
  /-- An initializer was written in a scope with the same slots, if that is still there. -/
  homes (waiting : Deferred) : some waiting ∈ entry.deferred →
    waiting.scopeId < scopes.nextId ∧ ∀ home : Scope, scopes.stack[waiting.scope]? = some home →
      home.id = waiting.scopeId → scopes.owner waiting.scope = scope
  constants : ∀ constant ∈ entry.constants, constant.IsStandard

theorem Scope.Valid.mono {old new : Scopes} {scope : ScopeRef} {e : Scope}
    (valid : e.Valid old scope) (nested : old.Nested) (further : old.Extends new) :
    e.Valid new scope := by
  refine ⟨Nat.lt_of_lt_of_le valid.number further.numbers, valid.places, valid.deferred, ?_,
    valid.constants⟩
  intro waiting mem
  obtain ⟨number, same⟩ := valid.homes waiting mem
  refine ⟨Nat.lt_of_lt_of_le number further.numbers, fun home found numbered => ?_⟩
  by_cases inside : waiting.scope < old.stack.size
  · have before := Array.getElem?_eq_getElem inside
    obtain ⟨after, found', evolves⟩ := further.embeds _ _ before
    rw [found] at found'
    cases found'
    rw [further.embeds.owner nested inside]
    exact same _ before (evolves.id.symm.trans numbered)
  · -- A scope that came later cannot have the number of one that is gone.
    have later := further.fresh _ home (Nat.le_of_not_lt inside) found
    omega

namespace Scopes

/-- The scopes nest and are valid each. -/
structure Valid (scopes : Scopes) : Prop extends scopes.Nested where
  entries (scope : ScopeRef) (entry : Scope) : scopes.stack[scope]? = some entry →
    entry.Valid scopes scope

variable {scopes old new : Scopes} {scope parent : ScopeRef} {e : Scope}

theorem getElem?_modify (scopes : Scopes) (target : ScopeRef) (change : Scope → Scope) :
    (scopes.modify target change).stack[scope]? =
      if target = scope then (scopes.stack[scope]?).map change else scopes.stack[scope]? :=
  Array.getElem?_modify

variable {target : ScopeRef} {change : Scope → Scope} {syntactic : Bool} {n i : Nat}
  {name : String} {binding : Binding} {place : Variable} {spec : Datum} {transformer : Transformer}
  {waiting : Deferred}

/-- What holds of every other scope holds of all if it holds of the one that is changed. -/
theorem forall_modify {holds : ScopeRef → Scope → Prop}
    (each : ∀ scope e, target ≠ scope → scopes.stack[scope]? = some e → holds scope e)
    (changed : ∀ e, scopes.stack[target]? = some e → holds target (change e)) :
    ∀ scope e, (scopes.modify target change).stack[scope]? = some e → holds scope e := by
  intro scope e found
  rw [getElem?_modify] at found
  split at found
  · rename_i here
    subst here
    obtain ⟨e, there, rfl⟩ := Option.map_eq_some_iff.mp found
    exact changed e there
  · exact each scope e ‹_› found

theorem Extends.modify (evolves : ∀ e, scopes.stack[target]? = some e → e.Evolves (change e)) :
    scopes.Extends (scopes.modify target change) := by
  refine .of_size_le (fun scope e found => ?_) (Nat.le_refl _) (Nat.le_of_eq Array.size_modify)
  rw [getElem?_modify]
  split
  · rename_i here
    subst here
    exact ⟨change e, by rw [found, Option.map_some], evolves e found⟩
  · exact ⟨e, found, .refl e⟩

theorem Retains.modify {places : ScopeRef → Prop}
    (same : ∀ e, scopes.stack[target]? = some e → places target →
      (change e).constants = e.constants) :
    scopes.Retains places (scopes.modify target change) := by
  intro scope e e' inside found found'
  rw [getElem?_modify, found] at found'
  split at found'
  · rename_i here
    subst here
    cases found'
    exact same e found inside
  · cases found'
    rfl

theorem Nested.modify (nested : scopes.Nested) (same : ∀ e, scopes.stack[target]? = some e →
      (change e).parent = e.parent ∧ (change e).syntactic = e.syntactic) :
    (scopes.modify target change).Nested := by
  have each := @forall_modify scopes target change (fun scope e => ∃ e',
    scopes.stack[scope]? = some e' ∧ e.parent = e'.parent ∧
      e.syntactic = e'.syntactic) (fun _ e _ found => ⟨e, found, rfl, rfl⟩)
    fun e found => ⟨e, found, same e found⟩
  refine ⟨fun e found => ?_, fun scope e found => ?_⟩
  · obtain ⟨e', found', parent, syntactic⟩ := each _ e found
    rw [parent, syntactic]
    exact nested.outermost e' found'
  · obtain ⟨e', found', parent, -⟩ := each _ e found
    rw [parent]
    exact nested.inner scope e' found'

/-- Changing one scope keeps all of them valid if it keeps that one valid. -/
theorem Valid.modify (valid : scopes.Valid)
    (evolves : ∀ e, scopes.stack[target]? = some e → e.Evolves (change e))
    (changed : ∀ e, scopes.stack[target]? = some e → e.Valid scopes target →
      (change e).Valid scopes target) : (scopes.modify target change).Valid := by
  have each := forall_modify (fun scope e _ => valid.entries scope e) fun e found =>
    changed e found (valid.entries target e found)
  refine ⟨valid.toNested.modify fun e found =>
    ⟨(evolves e found).parent, (evolves e found).syntactic⟩, fun scope e found => ?_⟩
  exact (each scope e found).mono valid.toNested (.modify evolves)

theorem getElem?_push (scopes : Scopes) (parent : Option ScopeRef) (syntactic : Bool)
    (inv : Option Handle) : (scopes.push parent syntactic inv).2.stack[scope]? =
      if scope = scopes.stack.size then
        some { id := scopes.nextId, parent, syntactic, invocation := inv }
      else scopes.stack[scope]? :=
  Array.getElem?_push

theorem forall_push {holds : ScopeRef → Scope → Prop} {parent : Option ScopeRef}
    {inv : Option Handle} (each : ∀ scope e, scopes.stack[scope]? = some e → holds scope e)
    (pushed : holds scopes.stack.size { id := scopes.nextId, parent, syntactic, invocation := inv }) :
    ∀ scope e, (scopes.push parent syntactic inv).2.stack[scope]? = some e → holds scope e := by
  intro scope e found
  rw [getElem?_push] at found
  split at found
  · cases found
    exact ‹scope = _› ▸ pushed
  · exact each scope e found

theorem Extends.push (scopes : Scopes) (parent : Option ScopeRef) (syntactic : Bool)
    (inv : Option Handle) : scopes.Extends (scopes.push parent syntactic inv).2 := by
  refine ⟨?_, Nat.le_succ _, ?_⟩
  · intro scope e found
    have bound := lt_size found
    rw [getElem?_push, if_neg (Nat.ne_of_lt bound)]
    exact ⟨e, found, .refl e⟩
  · intro scope e outside found
    rw [getElem?_push] at found
    split at found
    · cases found
      exact Nat.le_refl _
    · have bound := lt_size found
      exact absurd bound (Nat.not_lt.mpr outside)

theorem Retains.push (scopes : Scopes) (places : ScopeRef → Prop) (parent : Option ScopeRef)
    (syntactic : Bool) (inv : Option Handle) :
    scopes.Retains places (scopes.push parent syntactic inv).2 := by
  intro scope e e' _ found found'
  have bound := lt_size found
  rw [getElem?_push, if_neg (Nat.ne_of_lt bound), found] at found'
  cases found'
  rfl

/-- Where a new scope may be pushed: one with slots at the very bottom, any other into one that is
there. -/
def Admits (scopes : Scopes) (syntactic : Bool) : Option ScopeRef → Prop
  | none => scopes.stack.size = 0 ∧ syntactic = false
  | some parent => parent < scopes.stack.size

theorem Nested.push (nested : scopes.Nested) {parent : Option ScopeRef}
    (admits : scopes.Admits syntactic parent) (inv : Option Handle) :
    (scopes.push parent syntactic inv).2.Nested := by
  refine ⟨fun e found => ?_, fun scope e found => ?_⟩
  all_goals rw [getElem?_push] at found; split at found
  · rename_i here
    cases found
    cases parent with
    | none => exact ⟨rfl, admits.2⟩
    | some parent =>
      rw [Admits, ← here] at admits
      exact absurd admits (Nat.not_lt_zero _)
  · exact nested.outermost e found
  · rename_i here
    cases found
    cases parent with
    | none => exact absurd (here.trans admits.1) (Nat.succ_ne_zero _)
    | some parent =>
      rw [Admits, ← here] at admits
      exact ⟨parent, rfl, Nat.le_of_lt_succ admits⟩
  · exact nested.inner scope e found

theorem Valid.push (valid : scopes.Valid) {parent : Option ScopeRef}
    (admits : scopes.Admits syntactic parent) (inv : Option Handle) :
    (scopes.push parent syntactic inv).2.Valid := by
  have further := Extends.push scopes parent syntactic inv
  refine ⟨valid.toNested.push admits inv, forall_push (fun scope e found => ?_)
    ⟨Nat.lt_succ_self _, nofun, Nat.le_refl _, nofun, nofun⟩⟩
  exact (valid.entries scope e found).mono valid.toNested further

theorem valid_initial (global topLevel : Handle) : (initial global topLevel).Valid := by
  have empty : Scopes.Valid {} := ⟨⟨nofun, nofun⟩, nofun⟩
  have outer := empty.push (show Admits {} false none from ⟨rfl, rfl⟩) (some global)
  exact outer.push (show Admits _ false (some 0) from Nat.lt_succ_self 0) (some topLevel)

theorem constants_push (scopes : Scopes) (parent : Option ScopeRef) (inv : Option Handle) :
    (scopes.push parent false inv).2.constants scopes.stack.size = #[] := by
  have found : (scopes.push parent false inv).2.stack[scopes.stack.size]? =
      some { id := scopes.nextId, parent, syntactic := false, invocation := inv } := by
    rw [getElem?_push, if_pos rfl]
  have owner := owner_of_root found rfl
  rw [constants_eq (owner.symm ▸ found)]

/-! ### Dropping scopes -/

def truncate (scopes : Scopes) (count : Nat) : Scopes :=
  { scopes with stack := scopes.stack.take count }

theorem getElem?_truncate (scopes : Scopes) (n : Nat) :
    (scopes.truncate n).stack[scope]? = if scope < n then scopes.stack[scope]? else none := by
  simp only [truncate, Array.take_eq_extract, Array.getElem?_extract, Nat.zero_add, Nat.sub_zero]
  grind

theorem size_truncate (scopes : Scopes) (n : Nat) :
    (scopes.truncate n).stack.size = min n scopes.stack.size := by
  simp [truncate]

theorem getElem?_of_truncate (found : (scopes.truncate n).stack[scope]? = some e) :
    scope < n ∧ scopes.stack[scope]? = some e := by
  rw [getElem?_truncate] at found
  split at found
  · exact ⟨‹_›, found⟩
  · cases found

theorem chain_truncate (scopes : Scopes) (inside : scope < n) :
    (scopes.truncate n).chain scope = scopes.chain scope := by
  induction scope using Nat.strongRecOn with
  | ind scope ih =>
    rw [chain, chain, getElem?_truncate, if_pos inside]
    split
    · rfl
    · split
      · split
        · rename_i below
          rw [ih _ below (Nat.lt_trans below inside)]
        · rfl
      · rfl

theorem owner_truncate (scopes : Scopes) (inside : scope < n) :
    (scopes.truncate n).owner scope = scopes.owner scope := by
  rw [owner, owner, chain_truncate scopes inside]

theorem shape_truncate (scopes : Scopes) (inside : scope < n) :
    (scopes.truncate n).shape scope = scopes.shape scope := by
  rw [shape, shape, chain_truncate scopes inside]

theorem Nested.owner_le (nested : scopes.Nested) (bound : scope < scopes.stack.size) :
    scopes.owner scope ≤ scope := by
  refine nested.induct ?_ ?_ scope bound
  · intro e found _ slots
    exact Nat.le_of_eq (owner_of_root found slots)
  · intro scope e parent found inside below outer
    cases kind : e.syntactic with
    | false => exact Nat.le_of_eq (owner_of_root found kind)
    | true =>
      rw [owner_of_syntactic nested found inside below kind]
      exact Nat.le_trans outer (Nat.le_of_lt below)

theorem constants_truncate (nested : scopes.Nested) (inside : scope < n)
    (bound : scope < scopes.stack.size) :
    (scopes.truncate n).constants scope = scopes.constants scope := by
  obtain ⟨e, found, -⟩ := nested.owner bound
  have below := Nat.lt_of_le_of_lt (nested.owner_le bound) inside
  rw [constants_eq found]
  apply constants_eq
  rw [owner_truncate scopes inside, getElem?_truncate, if_pos below, found]

theorem Nested.truncate (nested : scopes.Nested) (n : Nat) : (scopes.truncate n).Nested :=
  ⟨fun e found => nested.outermost e (getElem?_of_truncate found).2,
    fun scope e found => nested.inner scope e (getElem?_of_truncate found).2⟩

theorem Valid.truncate (valid : scopes.Valid) (n : Nat) : (scopes.truncate n).Valid := by
  refine ⟨valid.toNested.truncate n, fun scope e found => ?_⟩
  have before := valid.entries scope e (getElem?_of_truncate found).2
  refine ⟨before.number, before.places, before.deferred, ?_, before.constants⟩
  intro waiting mem
  obtain ⟨number, same⟩ := before.homes waiting mem
  refine ⟨number, fun home found numbered => ?_⟩
  obtain ⟨inside, found⟩ := getElem?_of_truncate found
  rw [owner_truncate scopes inside]
  exact same home found numbered

theorem Extends.truncate (further : old.Extends new) :
    old.Extends (new.truncate old.stack.size) := by
  refine .of_size_le (fun scope e found => ?_) further.numbers (size_truncate .. ▸ Nat.min_le_left ..)
  rw [getElem?_truncate, if_pos (lt_size found)]
  exact further.embeds scope e found

/-- A scope that was pushed is found where it was pushed. -/
theorem Extends.pushed {parent : Option ScopeRef}
    (further : (scopes.push parent syntactic none).2.Extends new) :
    ∃ e : Scope, new.stack[scopes.stack.size]? = some e ∧ e.parent = parent ∧
      e.syntactic = syntactic := by
  have found : (scopes.push parent syntactic none).2.stack[scopes.stack.size]? =
      some { id := scopes.nextId, parent, syntactic, invocation := none } := by
    rw [getElem?_push, if_pos rfl]
  obtain ⟨e, found', evolves⟩ := further.embeds _ _ found
  exact ⟨e, found', evolves.parent, evolves.syntactic⟩

theorem Retains.truncate {parent : Option ScopeRef}
    (retains : (scopes.push parent syntactic none).2.Retains (· ≠ scopes.stack.size) new) :
    scopes.Retains (fun _ => True) (new.truncate scopes.stack.size) := by
  intro place e e' _ found found'
  obtain ⟨below, found'⟩ := getElem?_of_truncate found'
  refine retains place e e' (Nat.ne_of_lt below) ?_ found'
  rw [getElem?_push, if_neg (Nat.ne_of_lt below), found]

theorem pop_eq (scopes : Scopes) (inner : topLevelScope < scope) :
    scopes.pop scope = scopes.truncate scope := by
  rw [pop, if_pos inner]
  rfl

theorem truncate_modify (scopes : Scopes) (change : Scope → Scope) :
    (scopes.modify scope change).truncate scope = scopes.truncate scope := by
  have same : (scopes.stack.modify scope change).take scope = scopes.stack.take scope := by
    apply Array.ext_getElem?
    intro place
    simp only [Array.take_eq_extract, Array.getElem?_extract, Array.size_modify,
      Array.getElem?_modify]
    grind
  simp only [truncate, modify, same]

theorem finish_eq (found : scopes.stack[scope]? = some e) (inner : topLevelScope < scope) :
    scopes.finish scope = (e.variableCount, e.constants, scopes.truncate scope) := by
  simp only [finish, getD_eq found, pop_eq _ inner, truncate_modify]

/-! ### Names -/

theorem mem_of_lookup {bindings : List (String × Binding)}
    (found : bindings.lookup name = some binding) : (name, binding) ∈ bindings := by
  obtain ⟨front, back, rfl, -⟩ := List.lookup_eq_some_iff.mp found
  simp

/-- The place of a variable lies within the slots of the scopes. -/
theorem find?_variable {depth : Nat} {chain : List (ScopeRef × Scope)}
    (places : ∀ link ∈ chain, ∀ name place, (name, Binding.variable place) ∈ link.2.bindings →
      link.2.syntactic = false ∧ place.index < link.2.variableCount)
    (found : find? name depth chain = some (.variable place)) :
    ∃ further size, place.depth = depth + further ∧
      (chain.filterMap fun link => link.2.slotCount?)[further]? = some size ∧
      place.index < size := by
  induction chain generalizing depth with
  | nil => cases found
  | cons link outer ih =>
    obtain ⟨scope, e⟩ := link
    rw [find?] at found
    split at found
    · rename_i bound
      cases found
      obtain ⟨slots, inside⟩ : e.syntactic = false ∧ _ :=
        places _ List.mem_cons_self _ _ (mem_of_lookup bound)
      refine ⟨0, e.variableCount, rfl, ?_, inside⟩
      rw [List.filterMap_cons_some (b := e.variableCount) (by simp [Scope.slotCount?, slots])]
      rfl
    · rename_i binding other bound
      cases found
      exact absurd rfl (other _)
    · obtain ⟨further, size, eq, shape, inside⟩ :=
        ih (fun link mem => places link (List.mem_cons_of_mem _ mem)) found
      cases kind : e.syntactic with
      | false =>
        simp only [kind, Bool.false_eq_true, if_false] at eq
        refine ⟨further + 1, size, by omega, ?_, inside⟩
        rw [List.filterMap_cons_some (b := e.variableCount) (by simp [Scope.slotCount?, kind])]
        exact shape
      | true =>
        simp only [kind, if_true] at eq
        refine ⟨further, size, eq, ?_, inside⟩
        rw [List.filterMap_cons_none (by simp [Scope.slotCount?, kind])]
        exact shape

/-- A name that stands for a variable stands for a slot that is there. -/
theorem resolve_variable (places : ∀ (scope : ScopeRef) (e : Scope), scopes.stack[scope]? = some e →
      ∀ name place, (name, Binding.variable place) ∈ e.bindings →
        e.syntactic = false ∧ place.index < e.variableCount)
    (found : scopes.resolve scope name = some (.variable place)) :
    place.depth ≤ scope ∧ ∃ size, (scopes.shape scope)[place.depth]? = some size ∧
      place.index < size := by
  obtain ⟨further, size, eq, there, inside⟩ :=
    find?_variable (fun _ mem => places _ _ (mem_chain mem)) found
  rw [Nat.zero_add] at eq
  subst eq
  have bound := (List.getElem?_eq_some_iff.mp there).1
  have length := List.length_filterMap_le (fun link : ScopeRef × Scope => link.2.slotCount?)
    (scopes.chain scope)
  have chain := chain_length_le scopes scope
  exact ⟨Nat.le_of_lt_succ (by omega), size, there, inside⟩

theorem Valid.bind (valid : scopes.Valid) (target : ScopeRef) (name : String)
    (other : ∀ place, binding ≠ .variable place) :
    (scopes.bind target name binding).Valid ∧ scopes.Extends (scopes.bind target name binding) := by
  have evolves (e : Scope) : e.Evolves { e with bindings := (name, binding) :: e.bindings } :=
    ⟨rfl, rfl, rfl, rfl, Nat.le_refl _, #[], by simp⟩
  refine ⟨valid.modify (fun e _ => evolves e) ?_, .modify fun e _ => evolves e⟩
  intro e _ before
  refine ⟨before.number, fun name place mem => ?_, before.deferred, before.homes, before.constants⟩
  rcases List.mem_cons.mp mem with here | there
  · cases here
    exact absurd rfl (other place)
  · exact before.places name place there

/-- A transformer that is new takes a number; nothing else changes. -/
theorem createTransformer_cases
    (created : scopes.createTransformer scope spec = .ok (transformer, new)) :
    (new = scopes ∧ ∃ name, scopes.resolve scope name = some (.transformer transformer)) ∨
      new = { scopes with nextId := scopes.nextId + 1 } ∧
        TransformerKind.ofDatum (scopes.meaning? scope) spec = .ok transformer.kind := by
  rw [Scopes.createTransformer] at created
  split at created
  · split at created
    · rename_i found
      cases created
      exact .inl ⟨rfl, _, found⟩
    · cases created
    · cases created
  · cases kind : TransformerKind.ofDatum (scopes.meaning? scope) spec with
    | error error =>
      rw [kind] at created
      cases created
    | ok res =>
      rw [kind] at created
      cases created
      exact .inr ⟨rfl, rfl⟩

theorem Valid.createTransformer (valid : scopes.Valid)
    (created : scopes.createTransformer scope spec = .ok (transformer, new)) :
    new.Valid ∧ scopes.Extends new ∧ new.stack = scopes.stack := by
  rcases createTransformer_cases created with ⟨rfl, -⟩ | ⟨rfl, -⟩
  · exact ⟨valid, .refl new, rfl⟩
  · have further : scopes.Extends { scopes with nextId := scopes.nextId + 1 } :=
      .of_size_le (.refl scopes) (Nat.le_succ _) (Nat.le_refl _)
    exact ⟨⟨⟨valid.outermost, valid.inner⟩, fun scope e found =>
      (valid.entries scope e found).mono valid.toNested further⟩, further, rfl⟩

/-! ### Constants and initializers -/

theorem size_modify (scopes : Scopes) (target : ScopeRef) (change : Scope → Scope) :
    (scopes.modify target change).stack.size = scopes.stack.size :=
  Array.size_modify

theorem Valid.addConstant (valid : scopes.Valid) (bound : scope < scopes.stack.size)
    {constant : Constant} (standard : constant.IsStandard) :
    (scopes.addConstant scope constant).1 = (scopes.constants scope).size ∧
      (scopes.addConstant scope constant).2.Valid ∧
      scopes.Extends (scopes.addConstant scope constant).2 ∧
      scopes.Retains (· ≠ scopes.owner scope) (scopes.addConstant scope constant).2 ∧
      (scopes.addConstant scope constant).2.constants scope =
        (scopes.constants scope).push constant := by
  have evolves (e : Scope) : e.Evolves { e with constants := e.constants.push constant } :=
    ⟨rfl, rfl, rfl, rfl, Nat.le_refl _, #[constant], by simp⟩
  have further : scopes.Extends (scopes.addConstant scope constant).2 :=
    .modify fun e _ => evolves e
  obtain ⟨e, found, -⟩ := valid.toNested.owner bound
  have found' : (scopes.addConstant scope constant).2.stack[
      (scopes.addConstant scope constant).2.owner scope]? =
        some { e with constants := e.constants.push constant } := by
    rw [further.embeds.owner valid.toNested bound]
    simp only [Scopes.addConstant, getElem?_modify, if_true, found, Option.map_some]
  refine ⟨rfl, valid.modify (fun e _ => evolves e) ?_, further,
    .modify fun _ _ elsewhere => absurd rfl elsewhere, ?_⟩
  · intro e _ before
    refine ⟨before.number, before.places, before.deferred, before.homes, fun other mem => ?_⟩
    rcases Array.mem_push.mp mem with known | rfl
    · exact before.constants other known
    · exact standard
  · rw [constants_eq found, constants_eq found']

theorem homeOf_valid (valid : scopes.Valid) (bound : scope < scopes.stack.size)
    (same : ∀ home : Scope, scopes.stack[waiting.scope]? = some home →
      home.id = waiting.scopeId → scopes.owner waiting.scope = scopes.owner scope) :
    scopes.homeOf (scopes.owner scope) waiting < scopes.stack.size ∧
      scopes.owner (scopes.homeOf (scopes.owner scope) waiting) = scopes.owner scope := by
  obtain ⟨e, found, slots, -⟩ := valid.toNested.owner bound
  have fallback : scopes.owner scope < scopes.stack.size ∧
      scopes.owner (scopes.owner scope) = scopes.owner scope :=
    ⟨lt_size found, owner_of_root found slots⟩
  rw [homeOf]
  split
  · rename_i home there
    split
    · exact ⟨lt_size there, same home there ‹_›⟩
    · exact fallback
  · exact fallback

theorem Nested.shape_head (nested : scopes.Nested) (bound : scope < scopes.stack.size)
    (found : scopes.stack[scopes.owner scope]? = some e) :
    (scopes.shape scope)[0]? = some e.variableCount := by
  obtain ⟨e', found', slots, -⟩ := nested.owner bound
  rw [found] at found'
  cases found'
  rw [← nested.shape_owner bound]
  cases place : scopes.owner scope with
  | zero =>
    rw [place] at found
    rw [shape_of_root found (nested.outermost _ found).1 slots]
    rfl
  | succ outer =>
    rw [place] at found
    obtain ⟨parent, inside, below⟩ := nested.inner _ _ found
    rw [shape_of_slots found inside (Nat.lt_succ_of_le below) slots]
    rfl

/-- An initializer that is taken was waiting for its slot. -/
theorem waits_of_taken {pending : Initializer}
    (taken : pending ∈ (scopes.takeDeferred scope).1) : ∃ waiting,
      (scopes.ownerScope scope).deferred[pending.index]? = some (some waiting) ∧
        pending.scope = scopes.homeOf (scopes.owner scope) waiting ∧
          pending.form = waiting.form := by
  simp only [Scopes.takeDeferred, List.mem_filterMap, List.mem_mapIdx, id] at taken
  obtain ⟨_, ⟨i, inside, rfl⟩, eq⟩ := taken
  obtain ⟨waiting, here, rfl⟩ := Option.map_eq_some_iff.mp eq
  rw [Array.length_toList] at inside
  exact ⟨waiting, Array.getElem?_eq_some_iff.mpr ⟨inside, here⟩, rfl, rfl⟩

/-- Taken initializers belong to slots of the same scope and are compiled where these are seen. -/
theorem Valid.takeDeferred (valid : scopes.Valid) (bound : scope < scopes.stack.size) :
    (scopes.takeDeferred scope).2.Valid ∧ scopes.Extends (scopes.takeDeferred scope).2 ∧
      scopes.Retains (fun _ => True) (scopes.takeDeferred scope).2 ∧
      ∀ pending ∈ (scopes.takeDeferred scope).1, pending.scope < scopes.stack.size ∧
        scopes.owner pending.scope = scopes.owner scope ∧
        ∃ size, (scopes.shape scope)[0]? = some size ∧ pending.index < size := by
  have evolves (e : Scope) : e.Evolves { e with deferred := e.deferred.map fun _ => none } :=
    ⟨rfl, rfl, rfl, rfl, Nat.le_refl _, #[], by simp⟩
  have further : scopes.Extends (scopes.takeDeferred scope).2 := .modify fun e _ => evolves e
  obtain ⟨e, found, -⟩ := valid.toNested.owner bound
  have before := valid.entries _ _ found
  refine ⟨valid.modify (fun e _ => evolves e) ?_, further, .modify fun _ _ _ => rfl, ?_⟩
  · intro e _ before
    refine ⟨before.number, before.places, by simpa using before.deferred, fun waiting mem => ?_,
      before.constants⟩
    simp at mem
  · intro pending mem
    obtain ⟨waiting, waits, scope_eq, -⟩ := waits_of_taken mem
    rw [ownerScope, getD_eq found] at waits
    rw [scope_eq]
    obtain ⟨home, same⟩ :=
      homeOf_valid valid bound (before.homes waiting (Array.mem_of_getElem? waits)).2
    refine ⟨home, same, e.variableCount, valid.toNested.shape_head bound found, ?_⟩
    exact Nat.lt_of_lt_of_le (lt_size waits) before.deferred

/-! ### Variables -/

theorem slot?_lt (places : ∀ name place, (name, .variable place) ∈ e.bindings →
      place.index < e.variableCount) (found : slot? e name = some i) : i < e.variableCount := by
  rw [slot?] at found
  split at found
  · rename_i place bound
    split at found
    · cases found
      exact places name place (mem_of_lookup bound)
    · cases found
  · cases found

def widen (heap : Heap) (invocation : Option Handle) (index : Nat) (value : Option Value) : Heap :=
  match invocation with
  | some invocation => heap.modifySlots invocation (fillSlot index value)
  | none => heap

def defer (scopes : Scopes) (scope : ScopeRef) (name : String) (initializer : Option Datum) :
    Option Deferred :=
  initializer.map fun form =>
    { name, form, scope, scopeId := (scopes.stack.getD scope default).id }

theorem defer_valid (valid : scopes.Valid) (bound : scope < scopes.stack.size)
    {initializer : Option Datum} (deferred : scopes.defer scope name initializer = some waiting) :
    waiting.scopeId < scopes.nextId ∧ ∀ home : Scope, scopes.stack[waiting.scope]? = some home →
      home.id = waiting.scopeId → scopes.owner waiting.scope = scopes.owner scope := by
  obtain ⟨form, -, rfl⟩ := Option.map_eq_some_iff.mp deferred
  have found := Array.getElem?_eq_getElem bound
  refine ⟨?_, fun _ _ _ => rfl⟩
  rw [getD_eq found]
  exact (valid.entries _ _ found).number

def postpone (index : Nat) (deferred : Option Deferred) (entry : Scope) : Scope :=
  match deferred with
  | some _ => { entry with deferred := entry.deferred.setIfInBounds index deferred }
  | none => entry

def declare (name : String) (index : Nat) (deferred : Option Deferred) (entry : Scope) : Scope :=
  { entry with
    variableCount := index + 1
    deferred := entry.deferred.push deferred
    bindings := (name, .variable { depth := 0, index, scope := entry.id }) :: entry.bindings }

theorem modify_self (scopes : Scopes) (target : ScopeRef) :
    scopes.modify target (fun e => e) = scopes := by
  have same : scopes.stack.modify target (fun e => e) = scopes.stack := by
    apply Array.ext_getElem?
    intro place
    rw [Array.getElem?_modify]
    split <;> simp
  rw [modify, same]

section

variable {name : String} {i : Nat} {initializer : Option Datum} {v : Option Value}
  {heap : Heap}

theorem addVariable_known (owned : scopes.ownerScope scope = e) (known : slot? e name = some i) :
    (scopes.addVariable scope name initializer v heap).2 =
      (scopes.modify (scopes.owner scope) (postpone i (scopes.defer scope name initializer)),
        widen heap e.invocation i v) := by
  simp only [addVariable, ← ownerScope.eq_def, owned, known]
  cases initializer with
  | none =>
    have same : postpone i (scopes.defer scope name none) = fun e => e := rfl
    rw [same, modify_self]
    rfl
  | some form => rfl

theorem addVariable_new (owned : scopes.ownerScope scope = e) (unknown : slot? e name = none) :
    (scopes.addVariable scope name initializer v heap).2 = (scopes.modify (scopes.owner scope)
        (declare name e.variableCount (scopes.defer scope name initializer)),
        widen heap e.invocation e.variableCount v) := by
  simp only [addVariable, ← ownerScope.eq_def, owned, unknown]
  rfl

end

/-- A variable is added by a change to the scope that it belongs to. -/
theorem Valid.addVariable (valid : scopes.Valid) (bound : scope < scopes.stack.size)
    (found : scopes.stack[scopes.owner scope]? = some e) (slots : e.syntactic = false)
    (name : String) (initializer : Option Datum) (v : Option Value) (heap : Heap) :
    ∃ (i : Nat) (change : Scope → Scope), i ≤ e.variableCount ∧
      (scopes.addVariable scope name initializer v heap).2 =
        (scopes.modify (scopes.owner scope) change, widen heap e.invocation i v) ∧
      e.Evolves (change e) ∧ (change e).constants = e.constants ∧
      (change e).variableCount = max e.variableCount (i + 1) ∧
      (change e).Valid scopes (scopes.owner scope) := by
  have before := valid.entries _ _ found
  have same : e.Evolves e := .refl e
  cases known : slot? e name with
  | some i =>
    have inside := slot?_lt (fun name place mem => (before.places name place mem).2) known
    refine ⟨i, _, Nat.le_of_lt inside, addVariable_known (getD_eq found) known, ?_⟩
    cases deferred : scopes.defer scope name initializer with
    | none => exact ⟨same, rfl, (Nat.max_eq_left inside).symm, before⟩
    | some waiting =>
      refine ⟨⟨rfl, rfl, rfl, rfl, Nat.le_refl _, same.constants⟩, rfl,
        (Nat.max_eq_left inside).symm, before.number, before.places, ?_, ?_, before.constants⟩
      · simpa [postpone] using before.deferred
      · intro other mem
        rcases Array.mem_or_eq_of_mem_setIfInBounds mem with there | here
        · exact before.homes other there
        · cases here
          exact defer_valid valid bound deferred
  | none =>
    refine ⟨e.variableCount, _, Nat.le_refl _, addVariable_new (getD_eq found) known, ?_⟩
    refine ⟨⟨rfl, rfl, rfl, rfl, Nat.le_succ _, same.constants⟩, rfl,
      (Nat.max_eq_right (Nat.le_succ _)).symm, before.number, ?_, ?_, ?_, before.constants⟩
    · intro other place mem
      rcases List.mem_cons.mp mem with here | there
      · cases here
        exact ⟨slots, Nat.lt_succ_self _⟩
      · obtain ⟨_, inside⟩ := before.places other place there
        exact ⟨slots, Nat.lt_succ_of_lt inside⟩
    · simpa [declare] using before.deferred
    · intro other mem
      rcases Array.mem_push.mp mem with there | here
      · exact before.homes other there
      · exact defer_valid valid bound here.symm

/-! ### Slots that exist already -/

/-- `old.Anchors new`: slots that exist already belong to the same scopes as before. -/
def Anchors (old new : Scopes) : Prop :=
  ∀ (scope : ScopeRef) (entry : Scope) (invocation : Handle), new.stack[scope]? = some entry →
    entry.invocation = some invocation → ∃ before : Scope, old.stack[scope]? = some before ∧
      before.invocation = some invocation ∧ before.variableCount = entry.variableCount

theorem Anchors.of_stack (same : new.stack = old.stack) : old.Anchors new :=
  fun _ e _ found held => ⟨e, same ▸ found, held, rfl⟩

theorem Anchors.modify (same : ∀ e, (change e).invocation = e.invocation ∧
      (change e).variableCount = e.variableCount) :
    scopes.Anchors (scopes.modify target change) := by
  intro scope e inv found held
  rw [getElem?_modify] at found
  split at found
  · obtain ⟨before, found', rfl⟩ := Option.map_eq_some_iff.mp found
    exact ⟨before, found', (same before).1.symm.trans held, (same before).2.symm⟩
  · exact ⟨e, found, held, rfl⟩

theorem Anchors.push (scopes : Scopes) (parent : Option ScopeRef) (syntactic : Bool) :
    scopes.Anchors (scopes.push parent syntactic none).2 := by
  intro scope e inv found held
  rw [getElem?_push] at found
  split at found
  · cases found
    cases held
  · exact ⟨e, found, held, rfl⟩

theorem Anchors.truncate (scopes : Scopes) (n : Nat) : scopes.Anchors (scopes.truncate n) :=
  fun _ e _ found held => ⟨e, (getElem?_of_truncate found).2, held, rfl⟩

theorem size_fillSlot (i : Nat) (v : Option Value) (slots : Array Value) :
    (fillSlot i v slots).size = max slots.size (i + 1) := by
  cases v <;>
  · simp only [fillSlot, Array.size_setIfInBounds, Array.size_append, Array.size_replicate]
    omega

theorem mem_fillSlot {v : Option Value} {slots : Array Value} {content : Value}
    (mem : content ∈ fillSlot i v slots) :
    content ∈ slots ∨ content = .unspecified ∨ v = some content := by
  have old {content : Value}
      (mem : content ∈ slots ++ Array.replicate (i + 1 - slots.size) .unspecified) :
      content ∈ slots ∨ content = .unspecified := by
    rcases Array.mem_append.mp mem with there | blank
    · exact .inl there
    · exact .inr (Array.eq_of_mem_replicate blank)
  cases v with
  | none => exact (old mem).imp_right .inl
  | some v =>
    rcases Array.mem_or_eq_of_mem_setIfInBounds mem with mem | rfl
    · exact (old mem).imp_right .inl
    · exact .inr (.inr rfl)

end Scopes

end MiniScheme
