import MiniScheme.Proofs.Compiler.Emission
import MiniScheme.Proofs.Core.Expression

/-!
# Names in scopes

Where the compiler finds the names of an expression, and which definitions wait for their
initializers there. Neither depends on the constants that a scope has gathered, so it is enough to
know that compiling leaves the rest of the scopes alone. The scope of a body lists the names of the
procedure in the order of their slots, first the arguments and then the definitions.
-/

namespace MiniScheme

def Scope.outline (entry : Scope) : Scope :=
  { entry with constants := #[] }

namespace Scopes

def outline (scopes : Scopes) : Scopes :=
  { stack := scopes.stack.map Scope.outline }

variable {scopes before after : Scopes} {scope outer : ScopeRef} {e : Scope} {name : String}
  {namings : List Naming}

theorem getElem?_outline (scopes : Scopes) (scope : ScopeRef) :
    scopes.outline.stack[scope]? = (scopes.stack[scope]?).map Scope.outline :=
  Array.getElem?_map

theorem chain_outline (scopes : Scopes) (scope : ScopeRef) :
    scopes.outline.chain scope = (scopes.chain scope).map (Prod.map id Scope.outline) := by
  induction scope using Nat.strongRecOn with
  | ind scope ih =>
    rw [chain, chain, getElem?_outline]
    cases scopes.stack[scope]? with
    | none => rfl
    | some e =>
      have same : e.outline.parent = e.parent := rfl
      simp only [Option.map_some, same]
      cases inside : e.parent with
      | none => rfl
      | some parent =>
        by_cases below : parent < scope
        · simp only [if_pos below, ih parent below, List.map_cons, Prod.map, id]
        · simp only [if_neg below, List.map_cons, List.map_nil, Prod.map, id]

/-- Names are looked up along the parents of a scope, by their bindings. -/
theorem find?_chain_congr (same : ∀ place : ScopeRef,
      Option.Rel (fun e e' : Scope => e'.parent = e.parent ∧
        e'.syntactic = e.syntactic ∧ e'.bindings = e.bindings)
      before.stack[place]? after.stack[place]?) (scope : ScopeRef) (name : String) (depth : Nat) :
    find? name depth (after.chain scope) = find? name depth (before.chain scope) := by
  induction scope using Nat.strongRecOn generalizing depth with
  | ind scope ih =>
    have here := same scope
    rw [chain, chain]
    generalize before.stack[scope]? = e, after.stack[scope]? = e' at here
    cases here with
    | none => rfl
    | @some e e' agrees =>
      obtain ⟨parent, syntactic, bindings⟩ := agrees
      simp only [find?, bindings, syntactic, parent]
      cases e.parent with
      | none => rfl
      | some outer =>
        by_cases below : outer < scope
        · simp only [if_pos below, ih outer below]
        · simp only [if_neg below]

theorem find?_chain_eq (same : after.outline = before.outline) (scope : ScopeRef) (name : String)
    (depth : Nat) :
    find? name depth (after.chain scope) = find? name depth (before.chain scope) := by
  refine find?_chain_congr (fun place => ?_) scope name depth
  have here := congrArg (fun scopes => scopes.stack[place]?) same
  simp only [getElem?_outline] at here
  cases found : before.stack[place]? with
  | none =>
    rw [found] at here
    rw [Option.map_eq_none_iff.mp here]
    exact .none
  | some e =>
    rw [found] at here
    obtain ⟨e', found', eq⟩ := Option.map_eq_some_iff.mp here
    rw [found']
    have parent : e'.outline.parent = e.outline.parent := by rw [eq]
    have syntactic : e'.outline.syntactic = e.outline.syntactic := by rw [eq]
    have bindings : e'.outline.bindings = e.outline.bindings := by rw [eq]
    exact .some ⟨parent, syntactic, bindings⟩

theorem find?_chain_modify (scopes : Scopes) (target : ScopeRef) {change : Scope → Scope}
    (same : ∀ e : Scope, (change e).parent = e.parent ∧
      (change e).syntactic = e.syntactic ∧ (change e).bindings = e.bindings)
    (scope : ScopeRef) (name : String) (depth : Nat) :
    find? name depth ((scopes.modify target change).chain scope) =
      find? name depth (scopes.chain scope) := by
  refine find?_chain_congr (fun place => ?_) scope name depth
  rw [getElem?_modify]
  cases scopes.stack[place]? with
  | none => split <;> exact .none
  | some e =>
    split
    · exact .some (same e)
    · exact .some ⟨rfl, rfl, rfl⟩

theorem owner_outline (scopes : Scopes) (scope : ScopeRef) :
    scopes.outline.owner scope = scopes.owner scope := by
  rw [owner, owner, chain_outline, List.find?_map]
  have same : ((fun link : ScopeRef × Scope => !link.2.syntactic) ∘ Prod.map id Scope.outline) =
      fun link => !link.2.syntactic := rfl
  rw [same]
  cases (scopes.chain scope).find? fun link => !link.2.syntactic <;> rfl

theorem ownerScope_outline (scopes : Scopes) (scope : ScopeRef) :
    scopes.outline.ownerScope scope = (scopes.ownerScope scope).outline := by
  rw [ownerScope, ownerScope, owner_outline, Array.getD_eq_getD_getElem?,
    Array.getD_eq_getD_getElem?, getElem?_outline]
  cases scopes.stack[scopes.owner scope]? <;> rfl

theorem homeOf_outline (scopes : Scopes) (owner : ScopeRef) (deferred : Deferred) :
    scopes.outline.homeOf owner deferred = scopes.homeOf owner deferred := by
  rw [homeOf, homeOf, getElem?_outline]
  cases scopes.stack[deferred.scope]? <;> rfl

theorem outline_modify (scopes : Scopes) (target : ScopeRef) {change change' : Scope → Scope}
    (commutes : ∀ e, (change e).outline = change' e.outline) :
    (scopes.modify target change).outline = scopes.outline.modify target change' := by
  have same : (scopes.modify target change).outline.stack =
      (scopes.outline.modify target change').stack := by
    apply Array.ext_getElem?
    intro place
    rw [getElem?_outline, getElem?_modify, getElem?_modify, getElem?_outline]
    cases scopes.stack[place]? with
    | none => split <;> rfl
    | some e =>
      split
      · exact congrArg some (commutes e)
      · rfl
  exact congrArg (fun stack => ({ stack } : Scopes)) same

/-- Which initializers wait has nothing to do with constants. -/
theorem takeDeferred_outline (scopes : Scopes) (scope : ScopeRef) :
    scopes.outline.takeDeferred scope =
      ((scopes.takeDeferred scope).1, (scopes.takeDeferred scope).2.outline) := by
  let clear (e : Scope) : Scope :=
    { e with deferred := e.deferred.map fun _ => none }
  have cleared := @outline_modify scopes (scopes.owner scope) clear clear fun _ => rfl
  simp only [takeDeferred, owner_outline, ownerScope_outline, homeOf_outline]
  exact Prod.ext rfl cleared.symm

/-! ### Waiting initializers -/

theorem Idle.of_outline (idle : before.Idle scope) (same : after.outline = before.outline) :
    after.Idle scope := by
  have taken := takeDeferred_outline after scope
  rw [same, takeDeferred_outline] at taken
  exact (congrArg Prod.fst taken).symm.trans idle

theorem idle_takeDeferred (valid : scopes.Valid) (bound : scope < scopes.stack.size) :
    (scopes.takeDeferred scope).2.Idle scope := by
  obtain ⟨-, further, -⟩ := valid.takeDeferred bound
  obtain ⟨e, found, -⟩ := valid.toNested.owner bound
  have found' : (scopes.takeDeferred scope).2.stack[(scopes.takeDeferred scope).2.owner scope]? =
        some { e with deferred := e.deferred.map fun _ => none } := by
    rw [further.embeds.owner valid.toNested bound]
    simp only [Scopes.takeDeferred, getElem?_modify, if_true, found, Option.map_some]
  rw [Idle, Scopes.takeDeferred, ownerScope, getD_eq found']
  refine List.filterMap_eq_nil_iff.mpr fun waiting mem => ?_
  obtain ⟨index, inside, rfl⟩ := List.mem_mapIdx.mp mem
  simp

/-! ### Names -/

/-- `scopes.Knows scope namings`: names are found where they are known to be. -/
def Knows (scopes : Scopes) (scope : ScopeRef) (namings : List Naming) : Prop :=
  ∀ (name : String) (depth slot : Nat), place? namings name = some (depth, slot) →
    ∃ id, scopes.resolve scope name = some (.variable { depth, index := slot, scope := id })

theorem Knows.of_outline (knows : before.Knows scope namings)
    (same : after.outline = before.outline) : after.Knows scope namings := by
  intro name depth slot place
  obtain ⟨id, found⟩ := knows name depth slot place
  exact ⟨id, (find?_chain_eq same scope name 0).trans found⟩

theorem Knows.takeDeferred (knows : scopes.Knows scope namings) (other : ScopeRef) :
    (scopes.takeDeferred other).2.Knows scope namings := by
  intro name depth slot place
  obtain ⟨id, found⟩ := knows name depth slot place
  have same : (scopes.takeDeferred other).2.resolve scope name = scopes.resolve scope name := by
    apply find?_chain_modify
    exact fun _ => ⟨rfl, rfl, rfl⟩
  exact ⟨id, same.trans found⟩

variable {depth : Nat}

theorem Knows.small (knows : scopes.Knows scope namings) (valid : scopes.Valid)
    (bound : scope < operandLimit) {setting : Setting} (hosts : setting.Hosts scopes scope)
    {slot : Nat} (place : place? namings name = some (depth, slot)) :
    depth < operandLimit ∧ slot < operandLimit := by
  obtain ⟨id, found⟩ := knows name depth slot place
  obtain ⟨near, size, there, inside⟩ :=
    Scopes.resolve_variable (fun _ _ there => (valid.entries _ _ there).places) found
  obtain ⟨_, _, _, small⟩ := hosts.slot there inside
  exact ⟨Nat.lt_of_le_of_lt near bound, small⟩

/-- A variable is as much further away as the scopes around it are. -/
theorem find?_add {chain : List (ScopeRef × Scope)} {place : Variable}
    (found : find? name depth chain = some (.variable place)) (further : Nat) :
    find? name (depth + further) chain =
      some (.variable { place with depth := place.depth + further }) := by
  induction chain generalizing depth with
  | nil => cases found
  | cons link outer ih =>
    rw [find?] at found ⊢
    cases bound : link.2.bindings.lookup name with
    | none =>
      rw [bound] at found
      have onward := ih found
      cases kind : link.2.syntactic with
      | true =>
        rw [kind] at onward
        exact onward
      | false =>
        rw [kind] at onward
        rw [Nat.add_right_comm]
        exact onward
    | some binding =>
      rw [bound] at found
      cases binding with
      | «variable» known =>
        cases found
        rfl
      | transformer => cases found
      | keyword => cases found

/-- What is found at the places of a list, against what comes of the items themselves. -/
theorem forall₂_mapIdx {α β γ δ : Type} {related : β → γ → Prop} {wrap : α → δ}
    {view : Nat → δ → Option β} {view' : α → Option γ} {xs : List α}
    (each : ∀ index item, xs[index]? = some item →
      Option.Rel related (view index (wrap item)) (view' item)) :
    List.Forall₂ related (((xs.map wrap).mapIdx view).filterMap id) (xs.filterMap view') := by
  induction xs generalizing view with
  | nil => exact .nil
  | cons item xs ih =>
    rw [List.map_cons, List.mapIdx_cons]
    have rest := @ih (fun index => view (index + 1)) fun index item found =>
      each (index + 1) item found
    have here := each 0 item rfl
    generalize first : view 0 (wrap item) = res, second : view' item = res' at here
    cases here with
    | none => rwa [List.filterMap_cons_none rfl, List.filterMap_cons_none second]
    | some same =>
      rw [List.filterMap_cons_some second]
      exact .cons same rest

/-- `scopes.Awaits scope namings waiting`: these definitions wait for their initializers. -/
def Awaits (scopes : Scopes) (scope : ScopeRef) (namings : List Naming)
    (waiting : List (String × Datum)) : Prop :=
  List.Forall₂ (fun (pending : Initializer) (definition : String × Datum) =>
    pending.form = definition.2 ∧ pending.scope = scope ∧
      place? namings definition.1 = some (0, pending.index)) (scopes.takeDeferred scope).1 waiting

/-! ### The scope of a body -/

def within (scopes : Scopes) (entry : Scope) : Scopes :=
  { stack := scopes.stack.push entry, nextId := scopes.nextId + 1 }

theorem getElem?_within (scopes : Scopes) (e : Scope) :
    (scopes.within e).stack[scopes.stack.size]? = some e :=
  Array.getElem?_push_size

theorem modify_within (scopes : Scopes) (e : Scope) (change : Scope → Scope) :
    (scopes.within e).modify scopes.stack.size change = scopes.within (change e) := by
  have same : (scopes.stack.push e).modify scopes.stack.size change =
      scopes.stack.push (change e) := by
    apply Array.ext_getElem?
    intro place
    rw [Array.getElem?_modify, Array.getElem?_push, Array.getElem?_push]
    split
    · rename_i here
      rw [if_pos here.symm, if_pos here.symm]
      rfl
    · rename_i other
      rw [if_neg (Ne.symm other), if_neg (Ne.symm other)]
  exact congrArg (fun stack => ({ stack, nextId := scopes.nextId + 1 } : Scopes)) same

theorem outline_truncate (inside : after.outline = (before.within e).outline) :
    (after.truncate before.stack.size).outline = before.outline := by
  have same : (after.truncate before.stack.size).outline.stack = before.outline.stack := by
    apply Array.ext_getElem?
    intro place
    rw [getElem?_outline, getElem?_outline, getElem?_truncate]
    have there := congrArg (fun scopes => scopes.stack[place]?) inside
    simp only [getElem?_outline] at there
    split
    · rename_i below
      rw [there, within, Array.getElem?_push, if_neg (Nat.ne_of_lt below)]
    · rw [Array.getElem?_eq_none (Nat.not_lt.mp ‹_›)]
  exact congrArg (fun stack => ({ stack } : Scopes)) same

end Scopes

/-- `entry.Declares scopes outer definitions`: the scope, to be pushed onto the others, has slots
for these names, in order, and no other names. -/
structure Scope.Declares (entry : Scope) (scopes : Scopes) (outer : ScopeRef)
    (definitions : List (String × Option Datum)) : Prop where
  parent : entry.parent = some outer
  slots : entry.syntactic = false
  detached : entry.invocation = none
  count : entry.variableCount = definitions.length
  names (name : String) : entry.bindings.lookup name =
    ((definitions.map Prod.fst).idxOf? name).map fun index =>
      .variable { depth := 0, index, scope := entry.id }
  deferred : entry.deferred.toList = definitions.map fun (name, value) =>
    value.map fun form => { name, form, scope := scopes.stack.size, scopeId := entry.id }

theorem Scope.declares_nil (scopes : Scopes) (outer : ScopeRef) :
    Scope.Declares { id := scopes.nextId, parent := some outer, syntactic := false } scopes outer
      [] :=
  ⟨rfl, rfl, rfl, rfl, fun _ => rfl, rfl⟩

namespace Scope.Declares

variable {e : Scope} {scopes : Scopes} {outer : ScopeRef}
  {definitions : List (String × Option Datum)} {namings : List Naming}

section

variable (declares : e.Declares scopes outer definitions)

include declares

theorem add {name : String} (fresh : name ∉ definitions.map Prod.fst) (v : Option Datum) :
    ∃ e' : Scope, e'.Declares scopes outer (definitions ++ [(name, v)]) ∧
      ∀ store : Store, CompileM.addVariable scopes.stack.size name v
        { scopes := scopes.within e, store } = .ok () { scopes := scopes.within e', store } := by
  have here := scopes.getElem?_within e
  have owner := Scopes.owner_of_root here declares.slots
  have unknown : Scopes.slot? e name = none := by
    rw [Scopes.slot?, declares.names, List.idxOf?_eq_none_iff.mpr fresh]
    rfl
  let deferred := (scopes.within e).defer scopes.stack.size name v
  refine ⟨Scopes.declare name e.variableCount deferred e, ?_, fun store => ?_⟩
  · refine ⟨declares.parent, declares.slots, declares.detached, ?_, fun other => ?_, ?_⟩
    · rw [List.length_append, ← declares.count]
      rfl
    · have before := declares.names other
      have length : (definitions.map Prod.fst).length = e.variableCount := by
        rw [List.length_map, declares.count]
      have appended : (definitions.map Prod.fst ++ [name]).idxOf? other =
          ((definitions.map Prod.fst).idxOf? other).or
            (([name].idxOf? other).map (· + e.variableCount)) := by
        rw [← length]
        exact List.findIdx?_append
      simp only [Scopes.declare, List.lookup_cons, List.map_append, List.map_cons, List.map_nil,
        appended, List.idxOf?_cons, List.idxOf?_nil, before]
      by_cases same : other = name
      · subst same
        simp [List.idxOf?_eq_none_iff.mpr fresh]
      · simp [beq_false_of_ne same, Ne.symm same]
    · simp only [Scopes.declare, Array.toList_push, declares.deferred, List.map_append,
        List.map_cons, List.map_nil, deferred, Scopes.defer, Scopes.getD_eq here]
  · have added := @Scopes.addVariable_new _ _ _ _ v none store.heap
      (Scopes.getD_eq (owner.symm ▸ here)) unknown
    rw [owner, declares.detached, Scopes.modify_within] at added
    simp only [CompileM.addVariable, Store.onHeap]
    generalize (scopes.within e).addVariable scopes.stack.size name v none store.heap = out at added
    obtain ⟨place, scopes', heap'⟩ := out
    obtain ⟨rfl, rfl⟩ := Prod.mk.inj added
    rfl

theorem addAll {names : List String} (distinct : (definitions.map Prod.fst ++ names).Nodup) :
    ∃ e' : Scope, e'.Declares scopes outer (definitions ++ names.map fun name => (name, none)) ∧
      ∀ store : Store, names.forM (fun name => CompileM.addVariable scopes.stack.size name none)
        { scopes := scopes.within e, store } = .ok () { scopes := scopes.within e', store } := by
  induction names generalizing e definitions with
  | nil => exact ⟨e, by simpa using declares, fun _ => rfl⟩
  | cons name names ih =>
    have fresh : name ∉ definitions.map Prod.fst := fun mem =>
      (List.nodup_append.mp distinct).2.2 name mem name List.mem_cons_self rfl
    obtain ⟨mid, added, first⟩ := declares.add fresh none
    obtain ⟨e', all, rest⟩ := ih added (by simpa using distinct)
    refine ⟨e', by simpa using all, fun store => ?_⟩
    change (CompileM.addVariable scopes.stack.size name none >>= fun _ =>
      names.forM fun name => CompileM.addVariable scopes.stack.size name none) _ = _
    rw [CompileM.bind_apply, first]
    exact rest store

theorem knows (below : outer < scopes.stack.size) (outside : scopes.Knows outer namings) :
    (scopes.within e).Knows scopes.stack.size (.ofNames (definitions.map Prod.fst) :: namings) := by
  intro name depth slot place
  have around : Scopes.find? name 0 ((scopes.within e).chain outer) =
      scopes.resolve outer name := by
    rw [← Scopes.chain_truncate (scopes.within e) below]
    exact Scopes.find?_chain_eq (@Scopes.outline_truncate scopes _ e rfl) outer name 0
  rw [Scopes.resolve, Scopes.chain_of_parent (scopes.getElem?_within e) declares.parent below,
    Scopes.find?, declares.names]
  rw [place?, Naming.ofNames] at place
  cases known : (definitions.map Prod.fst).idxOf? name with
  | some index =>
    rw [known] at place
    cases place
    exact ⟨e.id, rfl⟩
  | none =>
    rw [known] at place
    obtain ⟨⟨further, index⟩, found, eq⟩ := Option.map_eq_some_iff.mp place
    cases eq
    obtain ⟨id, resolved⟩ := outside name further slot found
    rw [declares.slots]
    exact ⟨id, Scopes.find?_add (around.trans resolved) 1⟩

/-- The initializers wait in the order of the definitions. -/
theorem awaits (distinct : (definitions.map Prod.fst).Nodup) :
    (scopes.within e).Awaits scopes.stack.size
      (.ofNames (definitions.map Prod.fst) :: namings) (Expression.initialized definitions) := by
  have here := scopes.getElem?_within e
  have owner := Scopes.owner_of_root here declares.slots
  rw [Scopes.Awaits, Scopes.takeDeferred, Scopes.ownerScope, owner, Scopes.getD_eq here,
    declares.deferred]
  refine Scopes.forall₂_mapIdx fun index definition found => ?_
  obtain ⟨name, v⟩ := definition
  cases v with
  | none => exact .none
  | some form =>
    refine .some ⟨rfl, ?_, ?_⟩
    · simp [Scopes.homeOf, here]
    · obtain ⟨bound, eq⟩ := List.getElem?_eq_some_iff.mp found
      have bound' : index < (definitions.map Prod.fst).length := by rwa [List.length_map]
      have eq' : (definitions.map Prod.fst)[index] = name := by rw [List.getElem_map, eq]
      have known : (definitions.map Prod.fst).idxOf? name = some index :=
        List.idxOf?_eq_some_iff.mpr ⟨bound', eq', fun other before same =>
          Nat.ne_of_lt before (distinct.getElem_inj_iff.mp (same.trans eq'.symm))⟩
      simp only [place?, Naming.ofNames, known]

/-- The scope as it is found when its initializers have been compiled. -/
theorem found {after : Scopes}
    (same : after.outline = ((scopes.within e).takeDeferred scopes.stack.size).2.outline) :
    (after.truncate scopes.stack.size).outline = scopes.outline ∧
      ∃ e' : Scope, after.stack[scopes.stack.size]? = some e' ∧
        e'.parent = some outer ∧ e'.syntactic = false ∧ e'.variableCount = definitions.length := by
  have here := scopes.getElem?_within e
  have owner := Scopes.owner_of_root here declares.slots
  rw [Scopes.takeDeferred, owner, Scopes.modify_within] at same
  refine ⟨Scopes.outline_truncate same, ?_⟩
  have there := congrArg (fun scopes' => scopes'.stack[scopes.stack.size]?) same
  simp only [Scopes.getElem?_outline, Scopes.getElem?_within, Option.map_some] at there
  obtain ⟨e', found, eq⟩ := Option.map_eq_some_iff.mp there
  have parent : e'.outline.parent = e.parent := by rw [eq]; rfl
  have slots : e'.outline.syntactic = e.syntactic := by rw [eq]; rfl
  have n : e'.outline.variableCount = e.variableCount := by rw [eq]; rfl
  exact ⟨e', found, parent.trans declares.parent, slots.trans declares.slots,
    n.trans declares.count⟩

end

end Scope.Declares

end MiniScheme
