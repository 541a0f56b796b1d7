import MiniScheme.Proofs.Compiler.Waiting
import MiniScheme.Proofs.Machine.Control
import MiniScheme.Proofs.Machine.Soundness

/-!
# What compiling leaves behind

Compiling builds quoted data and makes room for new variables; whether it succeeds or fails, the
scopes stay valid, and slots that exist already match the variables of their scope. One rule for
each way in which compiling steps are put together.
-/

namespace MiniScheme

/-- `old.Widens discipline new`: data and slots have been added; all code is the same. -/
structure Heap.Widens (discipline : Discipline) (old new : Heap) : Prop where
  keeps : old.Keeps new
  persists : old.Persists new
  code (handle : Handle) (object : Object) : object.kind = .closure ∨ object.kind = .continuation →
    (old.get? handle = some object ↔ new.get? handle = some object)
  sound : new.Sound discipline

namespace Heap

variable {law : Discipline} {heap old mid new : Heap}

theorem Widens.refl (sound : heap.Sound law) : heap.Widens law heap :=
  ⟨.refl heap, .refl heap, fun _ _ _ => Iff.rfl, sound⟩

theorem Widens.trans (first : old.Widens law mid) (second : mid.Widens law new) :
    old.Widens law new :=
  ⟨first.keeps.trans second.keeps, first.persists.trans second.persists, fun h obj kind =>
    (first.code h obj kind).trans (second.code h obj kind), second.sound⟩

theorem Grown.widens (grown : old.Grown law new) : old.Widens law new := by
  refine ⟨grown.keeps, grown.steady.persists, fun h obj kind => ?_, grown.sound⟩
  apply grown.spares
  rcases kind with kind | kind <;> rw [kind] <;> rfl

end Heap

namespace Compilation

/-- The scopes are valid, and where slots exist already there are as many as variables. -/
structure Valid (discipline : Discipline) (state : Compilation) : Prop where
  scopes : state.scopes.Valid
  base : topLevelScope < state.scopes.stack.size
  heap : state.store.heap.Sound discipline
  slots (scope : ScopeRef) (entry : Scope) (invocation : Handle) :
    state.scopes.stack[scope]? = some entry → entry.invocation = some invocation →
      ∃ procedure slots, state.store.heap.get? invocation = some (.invocation procedure slots) ∧
        slots.size = entry.variableCount
  apart (scope other : ScopeRef) (entry entry' : Scope) (invocation : Handle) :
    state.scopes.stack[scope]? = some entry → state.scopes.stack[other]? = some entry' →
      entry.invocation = some invocation → entry'.invocation = some invocation → scope = other

/-- What compiling does to the scopes and the store. -/
structure Advances (discipline : Discipline) (before after : Compilation) : Prop where
  valid : after.Valid discipline
  scopes : before.scopes.Extends after.scopes
  widens : before.store.heap.Widens discipline after.store.heap
  hosts : after.store.hosts = before.store.hosts

variable {law : Discipline} {st before mid after : Compilation}

theorem Advances.refl (valid : st.Valid law) : st.Advances law st :=
  ⟨valid, .refl _, .refl valid.heap, rfl⟩

theorem Advances.trans (first : before.Advances law mid)
    (second : mid.Advances law after) : before.Advances law after :=
  ⟨second.valid, first.scopes.trans second.scopes, first.widens.trans second.widens,
    second.hosts.trans first.hosts⟩

/-! ### Scopes without new slots -/

variable {scopes : Scopes} {heap : Heap} {v : Option Value}

theorem Valid.withScopes (valid : st.Valid law) (scopes_valid : scopes.Valid)
    (base : topLevelScope < scopes.stack.size) (anchors : st.scopes.Anchors scopes) :
    Valid law { st with scopes } := by
  refine ⟨scopes_valid, base, valid.heap, ?_, ?_⟩
  · intro scope e inv found held
    obtain ⟨before, found', held', same⟩ := anchors scope e inv found held
    obtain ⟨procedure, slots, present, size⟩ := valid.slots scope before inv found' held'
    exact ⟨procedure, slots, present, size.trans same⟩
  · intro scope other e e' inv found found' held held'
    obtain ⟨before, there, anchored, -⟩ := anchors scope e inv found held
    obtain ⟨before', there', anchored', -⟩ := anchors other e' inv found' held'
    exact valid.apart scope other before before' inv there there' anchored anchored'

theorem Advances.withScopes (since : before.Advances law st) (scopes_valid : scopes.Valid)
    (base : topLevelScope < scopes.stack.size) (anchors : st.scopes.Anchors scopes)
    (further : before.scopes.Extends scopes) : before.Advances law { st with scopes } :=
  ⟨since.valid.withScopes scopes_valid base anchors, further, since.widens, since.hosts⟩

theorem Valid.push (valid : st.Valid law) {parent : ScopeRef}
    (bound : parent < st.scopes.stack.size) (syntactic : Bool) : st.Advances law
      { st with scopes := (st.scopes.push (some parent) syntactic none).2 } := by
  have further := Scopes.Extends.push st.scopes (some parent) syntactic none
  have admits : st.scopes.Admits syntactic (some parent) := bound
  exact (Advances.refl valid).withScopes (valid.scopes.push admits none)
    (Nat.lt_of_lt_of_le valid.base further.embeds.size_le) (.push _ _ _) further

theorem Valid.takeDeferred (valid : st.Valid law) {scope : ScopeRef}
    (bound : scope < st.scopes.stack.size) :
    st.Advances law { st with scopes := (st.scopes.takeDeferred scope).2 } ∧
      (st.scopes.takeDeferred scope).2.stack.size = st.scopes.stack.size := by
  obtain ⟨valid', further, -⟩ := valid.scopes.takeDeferred bound
  exact ⟨(Advances.refl valid).withScopes valid' (Nat.lt_of_lt_of_le valid.base
    further.embeds.size_le) (.modify fun _ => ⟨rfl, rfl⟩) further, Scopes.size_modify ..⟩

theorem Advances.truncate (since : before.Advances law after)
    (base : topLevelScope < before.scopes.stack.size) :
    before.Advances law { after with scopes := after.scopes.truncate before.scopes.stack.size } ∧
      (after.scopes.truncate before.scopes.stack.size).stack.size = before.scopes.stack.size := by
  have size : (after.scopes.truncate before.scopes.stack.size).stack.size =
      before.scopes.stack.size := by
    rw [Scopes.size_truncate]
    exact Nat.min_eq_left since.scopes.embeds.size_le
  exact ⟨since.withScopes (since.valid.scopes.truncate _) (size.symm ▸ base) (.truncate _ _)
    since.scopes.truncate, size⟩

/-! ### Slots that exist already -/

theorem widens_fill (sound : heap.Sound law) (inv : Option Handle) (index : Nat)
    (value_sound : ∀ content, v = some content → content.Sound law heap) :
    heap.Widens law (Scopes.widen heap inv index v) := by
  cases inv with
  | none => exact .refl sound
  | some inv =>
    have slots_sound : ∀ slots : Array Value, (∀ content ∈ slots, content.Sound law heap) →
        ∀ content ∈ Scopes.fillSlot index v slots, content.Sound law heap := by
      intro slots all content mem
      rcases Scopes.mem_fillSlot mem with there | rfl | here
      · exact all content there
      · exact Value.sound_unspecified
      · exact value_sound content here
    obtain ⟨new_sound, keeps⟩ := Machine.modifySlots_sound sound inv slots_sound
    refine ⟨keeps, .modifySlots heap inv fun slots => ?_, fun h obj kind => ?_, new_sound⟩
    · rw [Scopes.size_fillSlot]
      omega
    · apply Heap.get?_modifySlots_iff
      rcases kind with kind | kind <;> simp [kind]

/-- Adding a variable keeps slots and variables together. -/
theorem Valid.addVariable (valid : st.Valid law) {scope : ScopeRef}
    (bound : scope < st.scopes.stack.size) (name : String) (initializer : Option Datum)
    (value_sound : ∀ content, v = some content → content.Sound law st.store.heap) {place : Variable}
    (added : st.scopes.addVariable scope name initializer v st.store.heap = (place, scopes, heap)) :
    st.Advances law { scopes, store := { st.store with heap } } ∧
      scopes.stack.size = st.scopes.stack.size ∧ st.scopes.Retains (fun _ => True) scopes := by
  obtain ⟨e, found, own, -⟩ := valid.scopes.toNested.owner bound
  obtain ⟨index, change, inside, eq, evolves, constants, n, changed⟩ :=
    valid.scopes.addVariable bound found own name initializer v st.store.heap
  rw [added] at eq
  cases eq
  have only {e' : Scope} (found' : st.scopes.stack[st.scopes.owner scope]? = some e') :
      e' = e := Option.some.inj (found'.symm.trans found)
  have further : st.scopes.Extends (st.scopes.modify (st.scopes.owner scope) change) :=
    .modify fun e' found' => only found' ▸ evolves
  have widens := widens_fill valid.heap e.invocation index value_sound
  -- A scope is the one that the variable belongs to, or it is as before.
  have back {other : ScopeRef} {e' : Scope} {inv : Handle}
      (found' : (st.scopes.modify (st.scopes.owner scope) change).stack[other]? = some e')
      (held : e'.invocation = some inv) : ∃ before : Scope,
        st.scopes.stack[other]? = some before ∧ before.invocation = some inv ∧
          (other = st.scopes.owner scope ∧ before = e ∧ e' = change e ∨
            e' = before ∧ st.scopes.owner scope ≠ other) := by
    rw [Scopes.getElem?_modify] at found'
    split at found'
    · rename_i this
      subst this
      obtain ⟨before, there, rfl⟩ := Option.map_eq_some_iff.mp found'
      cases only there
      exact ⟨e, found, evolves.invocation.symm.trans held, .inl ⟨rfl, rfl, rfl⟩⟩
    · exact ⟨e', found', held, .inr ⟨rfl, ‹_›⟩⟩
  refine ⟨⟨⟨?_, ?_, widens.sound, ?_, ?_⟩, further, widens, rfl⟩, Scopes.size_modify ..,
    .modify fun e' found' _ => only found' ▸ constants⟩
  · exact valid.scopes.modify (fun e' found' => only found' ▸ evolves)
      (fun e' found' _ => only found' ▸ changed)
  · rw [Scopes.size_modify]
    exact valid.base
  · intro other e' inv found' held
    obtain ⟨before, there, held', changes⟩ := back found' held
    obtain ⟨procedure, slots, present, size⟩ := valid.slots other before inv there held'
    rcases changes with ⟨rfl, rfl, rfl⟩ | ⟨rfl, elsewhere⟩
    · refine ⟨procedure, Scopes.fillSlot index v slots, ?_, ?_⟩
      · simp [held', Scopes.widen, Heap.get?_modifySlots, present]
      · rw [Scopes.size_fillSlot, n, size]
    · refine ⟨procedure, slots, ?_, size⟩
      cases owned : e.invocation with
      | none => exact present
      | some inv' =>
        have distinct : inv ≠ inv' := by
          rintro rfl
          exact elsewhere (valid.apart _ _ _ _ inv found there owned held')
        simp only [Scopes.widen, Heap.get?_modifySlots, if_neg distinct, present]
  · intro other other' e' e'' inv found' found'' held held'
    obtain ⟨before, there, anchored, -⟩ := back found' held
    obtain ⟨before', there', anchored', -⟩ := back found'' held'
    exact valid.apart other other' before before' inv there there' anchored anchored'

end Compilation

namespace CompileM

variable {law : Discipline} {origin st : Compilation} {α β : Type} {n n' : Nat}
  {good : α → Compilation → Prop} {good' : β → Compilation → Prop}

/-- `Meets discipline origin count good outcome`: the outcome goes back to `origin`; with a result
there are `count` scopes again and all is as `good` says. -/
def Meets (discipline : Discipline) (origin : Compilation) (count : Nat)
    (good : α → Compilation → Prop) : EStateM.Result CompileError Compilation α → Prop
  | .ok result after => origin.Advances discipline after ∧ after.scopes.stack.size = count ∧
      good result after
  | .error _ after => origin.Advances discipline after

theorem Meets.ran {out : EStateM.Result CompileError Compilation α}
    (meets : Meets law origin n good out) : Meets law origin n
      (fun res after => out = .ok res after ∧ good res after) out := by
  cases out with
  | ok res after => exact ⟨meets.1, meets.2.1, rfl, meets.2.2⟩
  | error => exact meets

theorem Meets.of_run {out : EStateM.Result CompileError Compilation α} {after : Compilation}
    {res : α} (meets : Meets law origin n good out) (run : out = .ok res after) :
    origin.Advances law after ∧ after.scopes.stack.size = n ∧ good res after := by
  rw [run] at meets
  exact meets

theorem bind_apply (action : CompileM α) (next : α → CompileM β) (st : Compilation) :
    (action >>= next) st = match action st with
      | .ok res after => next res after
      | .error error after => .error error after := by
  change EStateM.bind action next st = _
  unfold EStateM.bind
  cases action st <;> rfl

variable {action : CompileM α} {next : α → CompileM β}

/-- A step of compiling and those after it have succeeded. -/
theorem bind_ok {after : Compilation} {res : β} (compiled : (action >>= next) st = .ok res after) :
    ∃ first mid, action st = .ok first mid ∧ next first mid = .ok res after := by
  rw [bind_apply] at compiled
  cases first : action st with
  | ok found mid =>
    rw [first] at compiled
    exact ⟨found, mid, rfl, compiled⟩
  | error =>
    rw [first] at compiled
    cases compiled

theorem ofExcept_ok {out : Except CompileError α} {after : Compilation} {res : β}
    (compiled : (CompileM.ofExcept out >>= next) st = .ok res after) :
    ∃ found, out = .ok found ∧ next found st = .ok res after := by
  cases out with
  | ok found => exact ⟨found, rfl, compiled⟩
  | error => cases compiled

section

variable (since : origin.Advances law st)

include since

theorem Meets.bind (first : Meets law st n good (action st))
    (second : ∀ res after, st.Advances law after → after.scopes.stack.size = n → good res after →
        Meets law origin n' good' (next res after)) :
    Meets law origin n' good' ((action >>= next) st) := by
  rw [bind_apply]
  cases out : action st with
  | ok res after =>
    rw [out] at first
    exact second res after first.1 first.2.1 first.2.2
  | error error after =>
    rw [out] at first
    exact since.trans first

theorem Meets.mono {other : α → Compilation → Prop}
    {out : EStateM.Result CompileError Compilation α} (meets : Meets law st n good out)
    (weaker : ∀ res after, st.Advances law after → good res after →
      other res after) : Meets law origin n other out := by
  cases out with
  | ok res after =>
    exact ⟨since.trans meets.1, meets.2.1, weaker res after meets.1 meets.2.2⟩
  | error error after => exact since.trans meets

theorem Meets.pure {res : α} (size : st.scopes.stack.size = n) (met : good res st) :
    Meets law origin n good ((Pure.pure res : CompileM α) st) :=
  ⟨since, size, met⟩

theorem Meets.throw (error : CompileError) :
    Meets law origin n good ((MonadExcept.throw error : CompileM α) st) :=
  since

theorem Meets.fail (fault : CompileFault) (form : Datum) :
    Meets law origin n good ((CompileM.fail fault form : CompileM α) st) :=
  since

end

/-! ### Single steps -/

theorem look_bind (view : Scopes → α) (next : α → CompileM β) (st : Compilation) :
    (look view >>= next) st = next (view st.scopes) st := rfl

theorem onScopes_bind (work : Scopes → α × Scopes) (next : α → CompileM β) (st : Compilation) :
    (onScopes work >>= next) st =
      next (work st.scopes).1 { st with scopes := (work st.scopes).2 } := rfl

theorem note_bind (detail : Detail) (message : Unit → String) (next : Unit → CompileM β)
    (st : Compilation) : (note detail message >>= next) st =
      next () { st with store := st.store.note detail message } := rfl

theorem advances_note (since : origin.Advances law st) (detail : Detail) (message : Unit → String) :
    origin.Advances law { st with store := st.store.note detail message } :=
  ⟨⟨since.valid.scopes, since.valid.base, since.valid.heap, since.valid.slots, since.valid.apart⟩,
    since.scopes, since.widens, since.hosts⟩

theorem Meets.ofExcept (since : origin.Advances law st) {out : Except CompileError α}
    (second : ∀ res, out = .ok res → Meets law origin n good' (next res st)) :
    Meets law origin n good' ((CompileM.ofExcept out >>= next) st) := by
  cases out with
  | ok res => exact second res rfl
  | error error => exact since

variable {scope : ScopeRef}

theorem meets_addVariable (valid : st.Valid law) (bound : scope < st.scopes.stack.size)
    (name : String) (initializer : Option Datum) :
    Meets law st st.scopes.stack.size
      (fun _ after => st.scopes.Retains (fun _ => True) after.scopes)
      (addVariable scope name initializer st) := by
  cases added : st.scopes.addVariable scope name initializer none st.store.heap with
  | mk place rest =>
    obtain ⟨scopes, heap⟩ := rest
    have blank : ∀ content : Value, none = some content → content.Sound law st.store.heap := nofun
    obtain ⟨advances, size, retains⟩ := valid.addVariable bound name initializer blank added
    have out : addVariable scope name initializer st =
        .ok () { scopes, store := { st.store with heap } } := by
      simp only [addVariable, Store.onHeap, added]
    rw [out]
    exact ⟨advances, size, retains⟩

theorem meets_addVariables (valid : st.Valid law)
    (bound : scope < st.scopes.stack.size) (names : List String) :
    Meets law st st.scopes.stack.size
      (fun _ after => st.scopes.Retains (fun _ => True) after.scopes ∧
        st.scopes.Undisturbed after.scopes)
      (names.forM (fun name => addVariable scope name none) st) := by
  induction names generalizing st with
  | nil => exact .pure (.refl valid) rfl ⟨.refl _ _, .refl _⟩
  | cons name names ih =>
    change Meets _ _ _ _ ((addVariable scope name none >>= fun _ =>
      names.forM fun name => addVariable scope name none) st)
    refine Meets.bind (.refl valid) (meets_addVariable valid bound name none).ran ?_
    rintro _ _ advances size ⟨⟨⟩, retains⟩
    have others := ih advances.valid (size.symm ▸ bound)
    rw [size] at others
    refine others.mono advances fun _ _ _ later =>
      ⟨retains.trans later.1 advances.scopes.embeds, ?_⟩
    exact (Scopes.undisturbed_addVariable valid.scopes bound name st.store.heap).trans later.2
      advances.scopes.embeds.size_le

theorem meets_createTransformer (valid : st.Valid law) (spec : Datum) :
    Meets law st st.scopes.stack.size (fun _ after => after.scopes.stack = st.scopes.stack)
      (createTransformer scope spec st) := by
  rw [createTransformer]
  split
  · rename_i transformer scopes created
    obtain ⟨scopes_valid, further, same⟩ := valid.scopes.createTransformer created
    refine ⟨(Compilation.Advances.refl valid).withScopes scopes_valid ?_ (.of_stack same) further,
      congrArg Array.size same, same⟩
    rw [same]
    exact valid.base
  · exact .refl valid

/-- Binding a name to a transformer, before whatever comes next. -/
theorem Meets.bindSyntax {next : CompileM β} (since : origin.Advances law st)
    (home : ScopeRef) (name : String) (spec : Datum) (second : ∀ after, st.Advances law after →
      after.scopes.stack.size = st.scopes.stack.size →
      st.scopes.Retains (fun _ => True) after.scopes → st.scopes.Undisturbed after.scopes →
        Meets law origin n good' (next after)) :
    Meets law origin n good' ((do
      let transformer ← CompileM.createTransformer home spec
      CompileM.onScopes fun scopes => ((), scopes.bindTransformer scope name transformer)
      next) st) := by
  refine Meets.bind since (meets_createTransformer since.valid spec) ?_
  intro transformer after advances size same
  have binding (place : Variable) : Binding.transformer transformer ≠ .variable place := nofun
  obtain ⟨scopes_valid, further⟩ := advances.valid.scopes.bind scope name binding
  rw [onScopes_bind]
  apply second
  · refine advances.withScopes scopes_valid ?_ (.modify fun _ => ⟨rfl, rfl⟩)
      (advances.scopes.trans further)
    exact (Scopes.size_modify ..).symm ▸ advances.valid.base
  · exact (Scopes.size_modify ..).trans size
  · have retains : st.scopes.Retains (fun _ => True) after.scopes := by
      intro place e e' _ found found'
      rw [same, found] at found'
      cases found'
      rfl
    exact retains.trans (.modify fun _ _ _ => rfl) advances.scopes.embeds
  · exact (Scopes.Undisturbed.of_stack same).trans (.modify fun _ => ⟨rfl, rfl⟩)
      advances.scopes.embeds.size_le

end CompileM

/-- What a definition defines depends on its form alone. -/
theorem Compiler.definition_eq (form target : Datum) (rest : List Datum) :
    ∃ out, Compiler.definition form target rest = CompileM.ofExcept out := by
  rw [Compiler.definition.eq_def]
  split
  iterate 4 exact ⟨.ok _, rfl⟩
  exact ⟨.error _, rfl⟩

end MiniScheme
