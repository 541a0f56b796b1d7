import MiniScheme.Proofs.Compiler.Emission
import MiniScheme.Proofs.Compiler.Origins

/-!
# Compiled code is balanced

A form leaves one value on the operands, a definition none, wherever the code of the form may come
to stand. The statement is proved for each kind of form, given that it holds of the forms in it, and
then for all of them by induction on the nesting that is left.
-/

namespace MiniScheme

structure Compilation.Roomy (discipline : Discipline) (room : Nat) (scope : ScopeRef)
    (state : Compilation) : Prop where
  valid : state.Valid discipline
  bound : scope < state.scopes.stack.size
  limit : state.scopes.stack.size + room ≤ operandLimit

section

variable {law : Discipline} {room : Nat} {scope : ScopeRef} {st : Compilation}

theorem Compilation.Roomy.less (roomy : st.Roomy law (room + 1) scope) : st.Roomy law room scope :=
  ⟨roomy.valid, roomy.bound, Nat.le_of_succ_le roomy.limit⟩

theorem Compilation.Roomy.next {after : Compilation} (roomy : st.Roomy law room scope)
    (advances : st.Advances law after) (size : after.scopes.stack.size = st.scopes.stack.size) :
    after.Roomy law room scope :=
  ⟨advances.valid, size.symm ▸ roomy.bound, size.symm ▸ roomy.limit⟩

theorem Compilation.Roomy.push (roomy : st.Roomy law (room + 1) scope) (syntactic : Bool) :
    let pushed := { st with scopes := (st.scopes.push (some scope) syntactic none).2 }
    st.Advances law pushed ∧ pushed.Roomy law room st.scopes.stack.size := by
  have pushed := roomy.valid.push roomy.bound syntactic
  have size : (st.scopes.push (some scope) syntactic none).2.stack.size =
      st.scopes.stack.size + 1 := Array.size_push _
  refine ⟨pushed, pushed.valid, size.symm ▸ Nat.lt_succ_self _, ?_⟩
  rw [size, Nat.add_assoc, Nat.add_comm 1]
  exact roomy.limit

variable {α β : Type} {good : α → Compilation → Prop} {good' : β → Compilation → Prop}
  {action : CompileM α} {next : α → CompileM β}

/-- One step after another, each of which leaves as many scopes as it has found. -/
theorem CompileM.Meets.chain (roomy : st.Roomy law room scope)
    (first : Meets law st st.scopes.stack.size good (action st))
    (second : ∀ res after, st.Advances law after → after.Roomy law room scope → good res after →
        Meets law after after.scopes.stack.size good' (next res after)) :
    Meets law st st.scopes.stack.size good' ((action >>= next) st) := by
  refine .bind (.refl roomy.valid) first fun res after advances size met => ?_
  rw [← size]
  exact (second res after advances (roomy.next advances size) met).mono advances fun _ _ _ => id

end

namespace Compiler

structure Emits (context : Context) (before after : Scopes) (fragment : Fragment) : Prop where
  emission : Emission context.scope before after fragment.code fragment.pushes.toNat context.tail
    (!context.definitions)
  value : context.definitions = false → fragment.pushes = true
  settles : fragment.pushes = true → Scopes.Settles context.scope before after

structure Reliable (discipline : Discipline) (room : Nat) (recur : Recur) : Prop where
  emits (datum : Datum) (context : Context) (state : Compilation) : state.Valid discipline →
    context.scope < state.scopes.stack.size → state.scopes.stack.size + room ≤ operandLimit →
      CompileM.Meets discipline state state.scopes.stack.size
        (fun fragment after => Emits context state.scopes after.scopes fragment)
        (recur datum context state)

abbrev Emitting (discipline : Discipline) (context : Context) (state : Compilation)
    (outcome : EStateM.Result CompileError Compilation Fragment) : Prop :=
  CompileM.Meets discipline state state.scopes.stack.size
    (fun fragment after => Emits context state.scopes after.scopes fragment) outcome

abbrev Valued (discipline : Discipline) (scope : ScopeRef) (state : Compilation)
    (outcome : EStateM.Result CompileError Compilation Bytecode) : Prop :=
  CompileM.Meets discipline state state.scopes.stack.size
    (fun code after => Emission scope state.scopes after.scopes code 1 false true) outcome

abbrev Extending (discipline : Discipline) (scope : ScopeRef) (state : Compilation)
    (code : Bytecode) (count : Nat)
    (outcome : EStateM.Result CompileError Compilation Bytecode) : Prop :=
  CompileM.Meets discipline state state.scopes.stack.size
    (fun result after => ∃ more, result = code ++ more ∧
      Emission scope state.scopes after.scopes more count false true) outcome

open CompileM

variable {law : Discipline} {room : Nat} {recur : Recur} {origin st : Compilation}
  {ctx : Context}

theorem Reliable.expression (reliable : Reliable law room recur) (ctx : Context)
    (roomy : st.Roomy law (room + 1) ctx.scope) (closed : ctx.definitions = false) (d : Datum) :
    Meets law st st.scopes.stack.size (fun fragment after => Emission ctx.scope
      st.scopes after.scopes fragment.code 1 ctx.tail true ∧
        Scopes.Settles ctx.scope st.scopes after.scopes) (recur d ctx st) := by
  obtain ⟨valid, bound, limit⟩ := roomy.less
  refine (reliable.emits d ctx st valid bound limit).mono (.refl valid) ?_
  intro fragment after _ emits
  have emission := emits.emission
  rw [emits.value closed, closed] at emission
  exact ⟨emission, emits.settles (emits.value closed)⟩

theorem Extending.nil {scope : ScopeRef} (valid : st.Valid law)
    (bound : scope < st.scopes.stack.size) (code : Bytecode) :
    Extending law scope st code 0 ((pure code : CompileM Bytecode) st) :=
  .pure (.refl valid) rfl ⟨{}, (Bytecode.append_nil code).symm, .refl valid.scopes bound⟩

theorem Emits.anywhere {before after : Scopes} {code : Bytecode}
    (emission : Emission ctx.scope before after code 1 false true)
    (settles : Scopes.Settles ctx.scope before after) : Emits ctx before after (yields code) :=
  ⟨emission.anywhere.loosen, fun _ => rfl, fun _ => settles⟩

/-! ### Sequences -/

theorem emits_sequenceFrom (reliable : Reliable law room recur) (since : origin.Advances law st)
    (size : st.scopes.stack.size = origin.scopes.stack.size)
    (bound : ctx.scope < origin.scopes.stack.size)
    (limit : origin.scopes.stack.size + room ≤ operandLimit) (forms : List Datum) {done : Fragment}
    (emission : Emission ctx.scope origin.scopes st.scopes done.code done.pushes.toNat
      (ctx.tail && forms.isEmpty) (!ctx.definitions))
    (v : forms = [] → ctx.definitions = false → done.pushes = true)
    (settles : done.pushes = true → Scopes.Settles ctx.scope origin.scopes st.scopes) :
    Meets law origin origin.scopes.stack.size
      (fun fragment after => Emits ctx origin.scopes after.scopes fragment)
      (sequenceFrom recur ctx done forms st) := by
  induction forms generalizing st done with
  | nil =>
    rw [sequenceFrom]
    rw [List.isEmpty_nil, Bool.and_true] at emission
    exact .pure since size ⟨emission, v rfl, settles⟩
  | cons form forms ih =>
    rw [List.isEmpty_cons, Bool.and_false] at emission
    have dropped : Emission ctx.scope origin.scopes st.scopes
        (if done.pushes then done.code ++ .ofOp .pop else done.code) 0 false
        (!ctx.definitions) := by
      cases pushes : done.pushes with
      | false =>
        rw [pushes] at emission
        exact emission
      | true =>
        rw [pushes] at emission
        exact emission.drop
    rw [sequenceFrom]
    refine Meets.bind since (reliable.emits form _ st since.valid (size.symm ▸ bound)
      (size.symm ▸ limit)) ?_
    intro next after advances size' emits
    refine ih (since.trans advances) (size'.trans size) ?_ (fun _ => emits.value)
      fun pushes => dropped.settles_after (emits.settles pushes)
    have whole := dropped.append emits.emission
    rw [Nat.zero_add] at whole
    exact whole

theorem emits_sequence (reliable : Reliable law room recur)
    (roomy : st.Roomy law room ctx.scope) (forms : List Datum)
    (v : forms = [] → ctx.definitions = true) :
    Emitting law ctx st (sequence recur ctx forms st) := by
  obtain ⟨valid, bound, limit⟩ := roomy
  refine emits_sequenceFrom reliable (.refl valid) rfl bound limit forms
    (.refl valid.scopes bound) ?_ nofun
  intro empty expr
  rw [v empty] at expr
  cases expr

/-! ### Procedures -/

def enclosed (name : Option String) (formals : Formals) (code : Bytecode) (entry : Scope) :
    Lambda :=
  { name, argumentCount := formals.fixed.length, rest := formals.rest.isSome
    slotCount := entry.variableCount, constants := entry.constants
    body := code ++ .ofOp .return }

structure Enclosed (discipline : Discipline) (room : Nat) (recur : Recur) (outer : ScopeRef)
    (formals : Formals) (body : List Datum) (state ready done : Compilation) (result : Fragment)
    (entry : Scope) : Prop where
  entered : formals.names.forM
    (fun argument => CompileM.addVariable state.scopes.stack.size argument none)
      { state with scopes := (state.scopes.pushValueScope outer).2 } = .ok () ready
  compiled : sequence recur (.ofBody state.scopes.stack.size) body ready = .ok result done
  pushes : result.pushes = true
  bound : outer < state.scopes.stack.size
  roomy : ready.Roomy discipline room state.scopes.stack.size
  since : state.Advances discipline done
  found : done.scopes.stack[state.scopes.stack.size]? = some entry
  parent : entry.parent = some outer
  slots : entry.syntactic = false
  owner : ready.scopes.owner state.scopes.stack.size = state.scopes.stack.size
  fresh : (ready.scopes.constants state.scopes.stack.size).size = 0
  /-- Only the constants and variables of the new scope have changed. -/
  retains : state.scopes.Retains (fun _ => True) (done.scopes.truncate state.scopes.stack.size)
  idle : state.scopes.Level →
    ready.scopes.Level ∧ ready.scopes.queue state.scopes.stack.size = .empty
  undisturbed : state.scopes.Undisturbed done.scopes
  emission : Emission state.scopes.stack.size ready.scopes done.scopes result.code 1 true false
  settles : Scopes.Settles state.scopes.stack.size ready.scopes done.scopes

namespace Enclosed

variable {outer : ScopeRef} {formals : Formals} {body : List Datum} {ready done : Compilation}
  {res : Fragment} {e : Scope} {name : Option String} {setting : Setting}
  (made : Enclosed law room recur outer formals body st ready done res e)

include made

theorem isStandard : (Constant.lambda (enclosed name formals res.code e)).IsStandard := by
  have each := (made.since.valid.scopes.entries _ _ made.found).constants
  intro v mentioned
  cases mentioned with
  | constant mem => exact each _ mem
  | @nested _ inner _ mem mentioned => exact each (.lambda inner) mem v mentioned

theorem constants : done.scopes.constants st.scopes.stack.size = e.constants :=
  Scopes.constants_eq ((Scopes.owner_of_root made.found made.slots).symm ▸ made.found)

/-- Where the procedure has become a constant, its body can stand inside it. -/
theorem hosts (base : topLevelScope < st.scopes.stack.size) (hosts : setting.Hosts
    ((done.scopes.truncate st.scopes.stack.size).addConstant outer
      (.lambda (enclosed name formals res.code e))).2 outer) :
    (enclosed name formals res.code e).Fits ∧
      ((enclosed name formals res.code e).setting setting.shape).Hosts done.scopes
        st.scopes.stack.size := by
  obtain ⟨closed, -⟩ := made.since.truncate base
  have bound := Nat.lt_of_lt_of_le made.bound closed.scopes.embeds.size_le
  obtain ⟨-, -, further, -, added⟩ := closed.valid.scopes.addConstant bound made.isStandard
  have held := (hosts.constant (by rw [added, Array.getElem?_push_size])).1
  have fits := hosts.fits _ (Array.mem_of_getElem? held)
  have around := (hosts.before closed.valid.scopes.toNested further bound).of_truncate
    made.since.valid.scopes.toNested made.bound
    (Nat.lt_of_lt_of_le made.bound made.since.scopes.embeds.size_le)
  obtain ⟨short, narrow⟩ := fits _ .self
  rw [enclosed, Bytecode.size_append, Bytecode.size_ofOp] at short
  have growth := made.emission.growth
  rw [made.fresh, made.constants] at growth
  refine ⟨fits, ⟨#[], by simp [Lambda.setting, enclosed, made.constants]⟩, ?_, ?_, ?_,
    fun _ => fits.inside⟩
  · rw [Scopes.shape_of_slots made.found made.parent made.bound made.slots]
    exact .cons (Nat.le_refl _) around.shape
  · exact List.forall_mem_cons.mpr ⟨narrow, around.slots⟩
  · simp only [Lambda.setting, enclosed]
    omega

variable (fits : (enclosed name formals res.code e).Fits)
  (hosts : ((enclosed name formals res.code e).setting setting.shape).Hosts done.scopes
    st.scopes.stack.size)

include fits hosts

theorem proper : (enclosed name formals res.code e).body.Proper
    ((enclosed name formals res.code e).setting setting.shape) :=
  (made.emission.leads _ hosts (fun _ => rfl) 0 []).proper ⟨.return, [], rfl⟩
    ⟨rfl, rfl, rfl, rfl, fun _ => rfl⟩ (Nat.le_of_lt (fits _ .self).1)

theorem passes : (enclosed name formals res.code e).Passes setting.shape := by
  obtain ⟨sane, -⟩ := made.proper fits hosts
  refine .intro sane.toPasses fun inner mem => ?_
  obtain ⟨index, held⟩ := Array.mem_iff_getElem?.mp mem
  exact made.emission.lambdas _ hosts index inner (made.fresh ▸ Nat.zero_le _)
    (made.constants.symm ▸ held)

end Enclosed

section

variable (reliable : Reliable law room recur) {outer : ScopeRef}
  (roomy : st.Roomy law (room + 1) outer) (form : Datum) (formals : Formals)
  (body : List Datum) (name : Option String)

include reliable roomy

/-- A procedure becomes a constant when its body has been compiled. -/
theorem encloses_procedure :
    Meets law st st.scopes.stack.size (fun code after => ∃ ready done res e,
        Enclosed law room recur outer formals body st ready done res e ∧
        code = .ofOp .lambda [.ofNat ((done.scopes.truncate st.scopes.stack.size).addConstant
          outer (.lambda (enclosed name formals res.code e))).1] ∧
        after.scopes = ((done.scopes.truncate st.scopes.stack.size).addConstant outer
          (.lambda (enclosed name formals res.code e))).2 ∧ after.store.heap = done.store.heap)
      (procedure recur form formals body outer name st) := by
  rw [procedure, onScopes_bind]
  have ⟨valid, bound, _⟩ := roomy
  obtain ⟨pushed, inside⟩ := roomy.push false
  refine Meets.bind pushed (meets_addVariables pushed.valid inside.bound formals.names).ran ?_
  rintro _ ready advances size ⟨entered, retains, args⟩
  refine Meets.bind (pushed.trans advances) (@emits_sequence _ _ _ _
    (.ofBody st.scopes.stack.size) reliable (inside.next advances size) body fun _ => rfl).ran ?_
  rintro res done advances' - ⟨compiled, emits⟩
  have since := (pushed.trans advances).trans advances'
  cases pushes : res.pushes with
  | false => exact since
  | true =>
    have emission := emits.emission
    rw [pushes] at emission
    obtain ⟨_, here, _, own⟩ := advances.scopes.pushed
    obtain ⟨e, found, parent, slots⟩ := (advances.scopes.trans advances'.scopes).pushed
    have owner : ready.scopes.owner st.scopes.stack.size = st.scopes.stack.size :=
      Scopes.owner_of_root here own
    have others := emission.others
    rw [Context.ofBody, owner] at others
    have before := Scopes.Undisturbed.push st.scopes (some outer) false
    have made : Enclosed law room recur outer formals body st ready done res e := by
      refine ⟨entered, compiled, pushes, bound, inside.next advances size, since,
        found, parent, slots, owner, ?_,
        ((retains.mono fun _ _ => trivial).trans others advances.scopes.embeds).truncate, ?_, ?_,
        emission, emits.settles pushes⟩
      · rw [retains.constants pushed.valid.scopes.toNested advances.scopes.embeds inside.bound
          trivial, Scopes.constants_push]
        rfl
      · intro level
        obtain ⟨level, same⟩ := args (before level).1
        exact ⟨level, (same _ inside.bound).trans (Scopes.queue_push ..)⟩
      · intro level
        obtain ⟨level, same⟩ := before.trans args pushed.scopes.embeds.size_le level
        have aside := emission.aside level
        refine ⟨aside.level, fun other below => (aside.others other ?_ ?_).trans (same other below)⟩
        · exact Nat.lt_trans below (inside.next advances size).bound
        · exact owner.symm ▸ Nat.ne_of_lt below
    obtain ⟨closed, closed_size⟩ := since.truncate valid.base
    simp only [if_true, onScopes_bind, Scopes.pushValueScope, Scopes.push,
      Scopes.finish_eq found valid.base, note_bind]
    refine .pure (advances_addConstant (advances_note closed _ _)
      (Nat.lt_of_lt_of_le bound closed.scopes.embeds.size_le) made.isStandard) ?_
      ⟨ready, done, res, e, made, rfl, rfl, rfl⟩
    exact (Scopes.size_modify ..).trans closed_size

theorem emits_procedure :
    Valued law outer st (procedure recur form formals body outer name st) := by
  have ⟨valid, bound, _⟩ := roomy
  refine (encloses_procedure reliable roomy form formals body name).mono (.refl valid) ?_
  rintro _ after - ⟨ready, done, res, e, made, rfl, same, -⟩
  obtain ⟨closed, -⟩ := made.since.truncate valid.base
  have front : Emission outer st.scopes (done.scopes.truncate st.scopes.stack.size) {} 0
      false true := .still valid.scopes closed.valid.scopes closed.scopes bound made.retains
    made.undisturbed.truncate
  rw [same]
  refine front.since (emission_addConstant closed.valid.scopes
    (Nat.lt_of_lt_of_le bound closed.scopes.embeds.size_le) made.isStandard rfl nofun rfl
    ?_ (fun _ _ => rfl) ?_)
  · intro setting place index hosts operand held
    refine ⟨⟨index, _, operand, held⟩, ?_, nofun⟩
    rintro inner ⟨found⟩
    rw [index_eq operand, held] at found
    cases found
    obtain ⟨fits, inside⟩ := made.hosts valid.base hosts
    exact made.proper fits inside
  · rintro setting inner ⟨⟩ hosts
    obtain ⟨fits, inside⟩ := made.hosts valid.base hosts
    exact made.passes fits inside

end

/-! ### Initializers -/

variable {pending : Initializer} {scope : ScopeRef}

theorem emits_initializer (reliable : Reliable law room recur)
    (roomy : st.Roomy law (room + 1) pending.scope) :
    Valued law pending.scope st (initializer recur pending st) := by
  have expr : Valued law pending.scope st
      ((do return (← recur pending.form { scope := pending.scope }).code) st) :=
    .chain roomy (reliable.expression { scope := pending.scope } roomy rfl _)
      fun _ _ _ roomy met => .pure (.refl roomy.valid) rfl met.1
  rw [initializer]
  match pending.form.list? with
  | none => exact expr
  | some [] => exact expr
  | some (keyword :: xs) =>
    dsimp only
    cases keyword.isSymbol "lambda" with
    | false => exact expr
    | true =>
      exact .ofExcept (.refl roomy.valid) fun _ _ => emits_procedure reliable roomy ..

structure Belongs (scopes : Scopes) (scope : ScopeRef) (pending : Initializer) : Prop where
  bound : pending.scope < scopes.stack.size
  owner : scopes.owner pending.scope = scopes.owner scope
  slot : ∃ size, (scopes.shape scope)[0]? = some size ∧ pending.index < size

theorem Belongs.mono {old new : Scopes} (belongs : Belongs old scope pending) (nested : old.Nested)
    (further : old.Extends new) (bound : scope < old.stack.size) : Belongs new scope pending := by
  obtain ⟨size, found, inside⟩ := belongs.slot
  refine ⟨Nat.lt_of_lt_of_le belongs.bound further.embeds.size_le, ?_, ?_⟩
  · rw [further.embeds.owner nested belongs.bound, further.embeds.owner nested bound, belongs.owner]
  · have wider := further.embeds.shape nested bound
    generalize old.shape scope = before, new.shape scope = after at found wider
    cases wider with
    | nil => cases found
    | cons less _ =>
      cases found
      exact ⟨_, rfl, Nat.lt_of_lt_of_le inside less⟩

section

variable (reliable : Reliable law room recur) (roomy : st.Roomy law (room + 1) scope)

include reliable roomy

theorem emits_initializers (code : Bytecode) (waiting : List Initializer)
    (belong : ∀ pending ∈ waiting, Belongs st.scopes scope pending) :
    Extending law scope st code 0 (initializers recur code waiting st) := by
  induction waiting generalizing st code with
  | nil => exact .nil roomy.valid roomy.bound code
  | cons pending others ih =>
    have here := belong pending List.mem_cons_self
    rw [initializers]
    refine .chain roomy (emits_initializer reliable ⟨roomy.valid, here.bound, roomy.limit⟩) ?_
    intro v after advances roomy' emission
    obtain ⟨slots, found, inside⟩ := here.slot
    have stored := Emission.store found inside (by decide)
      (emission.of_owner roomy.bound here.owner.symm)
    have rest := ih roomy' (code ++ v ++ .ofOp .setVariable [0, .ofNat pending.index])
      fun other mem => (belong other (List.mem_cons_of_mem _ mem)).mono
        roomy.valid.scopes.toNested advances.scopes roomy.bound
    refine rest.mono (.refl roomy'.valid) ?_
    rintro res final - ⟨more, rfl, later⟩
    refine ⟨_, ?_, stored.append later⟩
    simp only [Bytecode.append_assoc]
    rfl

/-- Compiling the initializers that wait leaves the operands as they are, and none wait then. -/
theorem emits_flush :
    Meets law st st.scopes.stack.size
      (fun code after => Emission scope st.scopes after.scopes code 0 false true ∧
        Scopes.Settles scope st.scopes after.scopes) (flush recur scope st) := by
  have ⟨valid, bound, _⟩ := roomy
  rw [flush, look_bind]
  split
  · rw [onScopes_bind]
    obtain ⟨valid', further, retains, belong⟩ := valid.scopes.takeDeferred bound
    obtain ⟨taken, size⟩ := valid.takeDeferred bound
    have compiled := emits_initializers reliable (roomy.next taken size) {}
      (st.scopes.takeDeferred scope).1 fun pending mem => by
        obtain ⟨home, owner, slot⟩ := belong pending mem
        exact Belongs.mono ⟨home, owner, slot⟩ valid.scopes.toNested further bound
    rw [Extending, size] at compiled
    refine compiled.mono taken ?_
    rintro _ after - ⟨code, rfl, emission⟩
    have clears (level : st.scopes.Level) := Scopes.clears_takeDeferred level scope
    have front : Emission scope st.scopes (st.scopes.takeDeferred scope).2 {} 0 false true :=
      .nothing valid.scopes valid' further bound retains (fun level => (clears level).toAside)
        fun _ level _ => (clears level).queue
    exact ⟨front.append emission,
      front.settles (fun level => (clears level).queue) emission.toPassage⟩
  · rename_i none_waits
    exact .pure (.refl valid) rfl ⟨.refl valid.scopes bound,
      fun _ => Scopes.queue_of_not_hasDeferred (Bool.eq_false_iff.mpr none_waits)⟩

end

/-! ### Expressions -/

/-- A variable that is found is at a place that an instruction can name. -/
theorem place_of_resolve (roomy : st.Roomy law (room + 1) ctx.scope) {place : Variable}
    (found : ∃ name, st.scopes.resolve ctx.scope name = some (.variable place)) :
    ∃ size, (st.scopes.shape ctx.scope)[place.depth]? = some size ∧ place.index < size ∧
      place.depth < operandLimit := by
  obtain ⟨name, resolved⟩ := found
  obtain ⟨near, size, found, inside⟩ := Scopes.resolve_variable
    (fun _ _ there => (roomy.valid.scopes.entries _ _ there).places) resolved
  exact ⟨size, found, inside, Nat.lt_of_le_of_lt near
    (Nat.lt_of_lt_of_le roomy.bound (Nat.le_of_add_right_le roomy.limit))⟩

theorem Extending.cons {mid : Compilation} {code v : Bytecode} {n : Nat}
    {out : EStateM.Result CompileError Compilation Bytecode}
    (emission : Emission ctx.scope st.scopes mid.scopes v 1 false true)
    (rest : Extending law ctx.scope mid (code ++ v) n out) :
    Meets law mid mid.scopes.stack.size (fun res after => ∃ more, res = code ++ more ∧
        Emission ctx.scope st.scopes after.scopes more (n + 1) false true) out := by
  cases out with
  | error => exact rest
  | ok res after =>
    obtain ⟨advances, size, more, rfl, later⟩ := rest
    refine ⟨advances, size, v ++ more, Bytecode.append_assoc .., ?_⟩
    rw [Nat.add_comm]
    exact emission.append later

section

variable (reliable : Reliable law room recur)
  (roomy : st.Roomy law (room + 1) ctx.scope)

include reliable roomy

/-- Most forms first make up for the initializers that wait. -/
theorem emits_flushed {action : CompileM Bytecode}
    (valued : ∀ st : Compilation, st.Roomy law (room + 1) ctx.scope →
      Valued law ctx.scope st (action st)) :
    Emitting law ctx st (flushed recur ctx.scope action st) := by
  refine .chain roomy (emits_flush reliable roomy) fun before _ _ roomy met => ?_
  refine .chain roomy (valued _ roomy) fun code _ _ roomy emission => ?_
  exact .pure (.refl roomy.valid) rfl
    (.anywhere (met.1.append emission) (met.1.settles met.2 emission.toPassage))

theorem emits_operands (code : Bytecode) (xs : List Datum) :
    Extending law ctx.scope st code xs.length (operands recur ctx code xs st) := by
  induction xs generalizing st code with
  | nil => exact .nil roomy.valid roomy.bound code
  | cons item xs ih =>
    rw [operands]
    refine .chain roomy (reliable.expression ctx.operand roomy rfl item) ?_
    exact fun v _ _ roomy met => Extending.cons met.1 (ih roomy (code ++ v.code))

theorem emits_call (form head : Datum) (xs : List Datum) :
    Emitting law ctx st (call recur form (head :: xs) ctx st) := by
  rw [call]
  refine .chain roomy (emits_flush reliable roomy) ?_
  rintro before _ - roomy ⟨front, settles⟩
  refine .chain roomy (emits_operands reliable roomy (before ++ .ofOp .resetOperandCount)
    (head :: xs)) ?_
  rintro _ _ - roomy ⟨code, rfl, operands⟩
  exact .pure (.refl roomy.valid) rfl ⟨(front.call operands ctx.tail _).loosen, fun _ => rfl,
    fun _ => front.settles settles operands.toPassage⟩

theorem emits_conditional (condition consequent : Datum) (alternate : Option Datum) :
    Emitting law ctx st (conditional recur ctx condition consequent alternate st) := by
  rw [conditional]
  refine .chain roomy (reliable.expression ctx.operand roomy rfl condition) ?_
  rintro test tested - roomy ⟨condition', settles⟩
  refine .chain roomy (reliable.expression ctx.branch roomy rfl consequent) ?_
  rintro yes chosen - roomy ⟨consequent', -⟩
  have whole (no : Bytecode) (after : Compilation) (roomy : after.Roomy law (room + 1) ctx.scope)
      (alternate' : Emission ctx.scope chosen.scopes after.scopes no 1 ctx.tail true) :
      Meets law after after.scopes.stack.size (fun fragment after =>
        Emits ctx st.scopes after.scopes fragment) ((pure (yields (test.code ++
          .ofOp .conditionalJump [.ofNat (yes.code.size + Op.jump.size)] ++ yes.code ++
          .ofOp .jump [.ofNat no.size] ++ no)) : CompileM Fragment) after) :=
    .pure (.refl roomy.valid) rfl ⟨(condition'.branch consequent' alternate').loosen, fun _ => rfl,
      fun _ => condition'.settles settles (consequent'.trans alternate'.toPassage)⟩
  cases alternate with
  | none =>
    refine .chain roomy (emits_constant roomy.valid roomy.bound (.inl rfl)) ?_
    exact fun no after _ roomy emission => whole no after roomy emission.anywhere
  | some form =>
    refine .chain roomy (reliable.expression ctx.branch roomy rfl form) ?_
    exact fun no after _ roomy met => whole no.code after roomy met.1

end

/-! ### Local transformers -/

theorem meets_bindLocal (valid : st.Valid law) (scope home : ScopeRef) (entries : List Datum) :
    Meets law st st.scopes.stack.size
      (fun _ after => st.scopes.Retains (fun _ => True) after.scopes ∧
        st.scopes.Undisturbed after.scopes) (bindLocal scope home entries st) := by
  induction entries generalizing st with
  | nil => exact .pure (.refl valid) rfl ⟨.refl _ _, .refl _⟩
  | cons e entries ih =>
    generalize compiled : bindLocal scope home (e :: entries) = action
    rw [bindLocal] at compiled
    split at compiled
    · rename_i name _ spec _
      subst compiled
      refine .bindSyntax (.refl valid) home name spec ?_
      intro after advances size retains same
      have rest := ih advances.valid
      rw [size] at rest
      refine rest.mono advances fun _ _ _ ⟨retains', same'⟩ => ?_
      exact ⟨retains.trans retains' advances.scopes.embeds,
        same.trans same' advances.scopes.embeds.size_le⟩
    · subst compiled
      exact .fail (.refl valid) ..

/-- A body with local transformers is compiled in a scope that sees the same slots. -/
theorem emits_scoped (reliable : Reliable law room recur)
    (roomy : st.Roomy law (room + 1) ctx.scope) (form : Datum) (recursive : Bool)
    (bindings : List Datum) (first : Datum) (body : List Datum) :
    Emitting law ctx st
      ((Plan.scoped recursive bindings first body).compile recur form ctx st) := by
  have ⟨valid, bound, _⟩ := roomy
  rw [Plan.compile, onScopes_bind]
  obtain ⟨pushed, inside⟩ := roomy.push true
  refine Meets.bind pushed (meets_bindLocal pushed.valid _ _ bindings) ?_
  rintro _ ready advances size ⟨retains, entered⟩
  refine Meets.bind (pushed.trans advances) (@emits_sequence _ _ _ _
    { ctx with scope := st.scopes.stack.size } reliable (inside.next advances size)
    (first :: body) nofun) ?_
  intro res done advances' size' emits
  have since := (pushed.trans advances).trans advances'
  obtain ⟨e, here, parent, slotless⟩ := advances.scopes.pushed
  have owner := Scopes.owner_of_syntactic advances.valid.scopes.toNested here parent bound slotless
  have retains' : st.scopes.Retains (fun _ => True) ready.scopes :=
    .trans (.push _ _ _ _ _) retains pushed.scopes.embeds
  have bound' := Nat.lt_of_lt_of_le bound (pushed.trans advances).scopes.embeds.size_le
  have undisturbed : st.scopes.Undisturbed ready.scopes :=
    .trans (.push _ _ _) entered pushed.scopes.embeds.size_le
  have front : Emission ctx.scope st.scopes ready.scopes {} 0 false (!ctx.definitions) :=
    .still valid.scopes advances.valid.scopes (pushed.trans advances).scopes bound retains'
      undisturbed
  have whole := (front.since (emits.emission.of_owner bound' owner.symm)).truncate
  have settles (pushes : res.pushes = true) : Scopes.Settles ctx.scope st.scopes
      (done.scopes.truncate st.scopes.stack.size) := by
    have inside := emits.settles pushes
    rw [Scopes.Settles, owner] at inside
    exact fun level => (Scopes.queue_truncate (valid.scopes.owner_lt bound)).trans
      (front.settles_after inside level)
  rw [onScopes_bind]
  have popped : done.scopes.pop st.scopes.stack.size =
      done.scopes.truncate st.scopes.stack.size := Scopes.pop_eq _ valid.base
  obtain ⟨closed, closed_size⟩ := since.truncate valid.base
  rw [← popped] at closed closed_size whole settles
  exact .pure closed closed_size ⟨whole, emits.value, settles⟩

/-! ### Quasiquotation -/

mutual

theorem emits_quasi (reliable : Reliable law room recur) {st : Compilation}
    (roomy : st.Roomy law (room + 1) ctx.scope) :
    (plan : Quasi) → Valued law ctx.scope st (quasi recur ctx plan st)
  | .constant template => by
    rw [quasi]
    exact emits_quoted roomy.valid roomy.bound template
  | .evaluate form => by
    rw [quasi]
    refine .chain roomy (reliable.expression ctx.operand roomy rfl form) ?_
    exact fun _ _ _ roomy met => .pure (.refl roomy.valid) rfl met.1
  | .nothing => by
    rw [quasi]
    exact emits_constant roomy.valid roomy.bound (.inl rfl)
  | .call name pos args => by
    have start : Emission ctx.scope st.scopes st.scopes {} 0 false true :=
      .refl roomy.valid.scopes roomy.bound
    rw [quasi]
    refine .chain roomy
      (emits_constant roomy.valid roomy.bound (Stdlib.isStandard_procedure? name)) ?_
    intro callee _ _ roomy emission
    refine .chain roomy (emits_quasiAll reliable roomy (.ofOp .resetOperandCount ++ callee) args) ?_
    rintro _ after - roomy ⟨code, rfl, emission'⟩
    have operands := emission.append emission'
    rw [Nat.add_comm] at operands
    have whole := start.call operands false pos
    rw [Bytecode.nil_append, ← Bytecode.append_assoc (.ofOp _)] at whole
    exact .pure (.refl roomy.valid) rfl whole
  | .invalid pos => by
    rw [quasi]
    exact .throw (.refl roomy.valid) _

theorem emits_quasiAll (reliable : Reliable law room recur) {st : Compilation}
    (roomy : st.Roomy law (room + 1) ctx.scope) (code : Bytecode) :
    (plans : List Quasi) →
      Extending law ctx.scope st code plans.length (quasiAll recur ctx code plans st)
  | [] => by
    rw [quasiAll]
    exact .nil roomy.valid roomy.bound code
  | plan :: plans => by
    rw [quasiAll]
    refine .chain roomy (emits_quasi reliable roomy plan) ?_
    exact fun v _ _ roomy emission =>
      Extending.cons emission (emits_quasiAll reliable roomy (code ++ v) plans)

end

/-! ### All forms -/

theorem emits_nothing {after : Compilation} (valid : st.Valid law)
    (bound : ctx.scope < st.scopes.stack.size) (allowed : ctx.allowsDefinition = true)
    (advances : st.Advances law after) (retains : st.scopes.Retains (fun _ => True) after.scopes)
    (aside : st.scopes.Level → Scopes.Aside ctx.scope st.scopes after.scopes) :
    Emits ctx st.scopes after.scopes {} := by
  have definitions : ctx.definitions = true := (Bool.and_eq_true_iff.mp allowed).1
  refine ⟨.nothing valid.scopes advances.valid.scopes advances.scopes bound retains aside ?_, ?_,
    nofun⟩
  · rw [definitions]
    exact nofun
  · rw [definitions]
    exact nofun

theorem emits_plan (reliable : Reliable law room recur)
    (roomy : st.Roomy law (room + 1) ctx.scope) (form : Datum) : (plan : Plan) →
      plan.Fits (st.scopes.resolve ctx.scope) ctx →
        Emitting law ctx st (plan.compile recur form ctx st)
  | .literal d, _ =>
    emits_flushed reliable roomy fun _ roomy => emits_quoted roomy.valid roomy.bound d
  | .reference place, found => by
    obtain ⟨slots, found, inside, small⟩ := place_of_resolve roomy found
    refine .chain roomy (emits_flush reliable roomy) fun before _ _ roomy met => ?_
    exact .pure (.refl roomy.valid) rfl (.anywhere (met.1.load found inside small) met.2)
  | .expansion res noted, _ => by
    cases noted with
    | false => exact reliable.emits res ctx st roomy.valid roomy.bound roomy.less.limit
    | true =>
      have noted := advances_note (Compilation.Advances.refl roomy.valid) .trace fun _ =>
        "expanded " ++ form.text ++ " into " ++ res.text
      exact (reliable.emits res ctx _ noted.valid roomy.bound roomy.less.limit).mono noted
        fun _ _ _ emits => emits
  | .quasi template, _ => emits_flushed reliable roomy fun _ roomy =>
      emits_quasi reliable roomy _
  | .conditional condition consequent alternate, _ => emits_conditional reliable roomy ..
  | .nothing, _ => emits_flushed reliable roomy fun _ roomy =>
      emits_constant roomy.valid roomy.bound (.inl rfl)
  | .sequence first others, _ => emits_sequence reliable roomy.less _ nofun
  | .lambda formals body, _ =>
    emits_flushed reliable roomy fun _ roomy => emits_procedure reliable roomy ..
  | .assignment place v, found => by
    obtain ⟨slots, found, inside, small⟩ := place_of_resolve roomy found
    refine .chain roomy (reliable.expression ctx.operand roomy rfl v) ?_
    rintro res _ - roomy ⟨emission, settles⟩
    have stored := emission.store found inside small
    refine .chain roomy (emits_constant roomy.valid roomy.bound (.inl rfl)) ?_
    intro after _ _ roomy emission'
    exact .pure (.refl roomy.valid) rfl
      (.anywhere (stored.append emission') (emission.settles settles emission'.toPassage))
  | .definition target rest, allowed => by
    obtain ⟨out, eq⟩ := definition_eq form target rest
    rw [Plan.compile, eq]
    refine .ofExcept (.refl roomy.valid) fun res _ => ?_
    refine Meets.bind (.refl roomy.valid)
      (meets_addVariable roomy.valid roomy.bound res.1 res.2).ran ?_
    rintro _ after advances size ⟨ran, retains⟩
    cases ran
    exact .pure advances size (emits_nothing roomy.valid roomy.bound allowed advances retains
      fun level => (Scopes.queue_addVariable roomy.valid.scopes level roomy.bound res.1 res.2
        st.store.heap).1)
  | .transformer name spec, allowed => by
    refine .bindSyntax (.refl roomy.valid) ctx.scope name spec ?_
    intro after advances size retains same
    exact .pure advances size (emits_nothing roomy.valid roomy.bound allowed advances retains
      same.aside)
  | .scoped recursive bindings first body, _ => emits_scoped reliable roomy ..
  | .call head xs, _ => emits_call reliable roomy ..

theorem emits_form (reliable : Reliable law room recur) : Reliable law (room + 1) (form recur) := by
  refine ⟨fun d ctx st valid bound limit => ?_⟩
  rw [form, look_bind]
  exact .ofExcept (.refl valid) fun plan planned =>
    emits_plan reliable ⟨valid, bound, limit⟩ d plan (Plan.fits_ofDatum planned)

/-- All forms compile to balanced code, however deep they nest. -/
theorem reliable_compile (room : Nat) : Reliable law room (compile room) := by
  induction room with
  | zero => exact ⟨fun _ _ _ valid _ _ => .fail (.refl valid) ..⟩
  | succ room ih => exact emits_form ih

section

variable (roomy : st.Roomy law (maxDepth + 1) scope) (d : Datum)

include roomy

/-- The code of a datum ends by handing over the value that it has left, if it has left one. -/
theorem emits_topLevel :
    Meets law st st.scopes.stack.size (fun code after => ∃ (front : Bytecode) (pushes : Bool),
        code = front ++ .ofOp (if pushes then .exit else .lambdaExit) ∧
        Emission scope st.scopes after.scopes front pushes.toNat false false)
      (compileTopLevel d scope st) := by
  rw [compileTopLevel]
  refine .chain roomy ((reliable_compile maxDepth).emits d (.ofTopLevel scope) st roomy.valid
    roomy.bound roomy.less.limit) fun res _ _ roomy emits => ?_
  refine .chain roomy (emits_flush (reliable_compile maxDepth) roomy) ?_
  rintro last _ - roomy ⟨emission, -⟩
  rw [note_bind]
  exact .pure (advances_note (.refl roomy.valid) .debug _) rfl
    ⟨res.code ++ last, res.pushes, rfl, emits.emission.append emission.loosen⟩

/-- The code of a datum is sane code of a script, in every setting with what the scopes have in the
end, and the procedures that it has made constants pass the verifier. -/
theorem meets_compileTopLevel :
    Meets law st st.scopes.stack.size
      (fun code after => (∀ setting : Setting, setting.level = .script →
        setting.Hosts after.scopes scope → code.size ≤ operandLimit → code.Proper setting) ∧
          Certified scope st.scopes after.scopes) (compileTopLevel d scope st) := by
  refine (emits_topLevel roomy d).mono (.refl roomy.valid) ?_
  rintro _ after - ⟨front, pushes, rfl, emission⟩
  refine ⟨fun setting level hosts small => ?_, emission.lambdas⟩
  have leads := emission.leads setting hosts nofun 0 []
  cases pushes with
  | false =>
    exact leads.proper ⟨.lambdaExit, [], rfl⟩ ⟨rfl, rfl, level ▸ rfl, rfl, nofun⟩ small
  | true =>
    exact leads.proper ⟨.exit, [], rfl⟩ ⟨rfl, rfl, level ▸ rfl, rfl, nofun⟩ small

end

end Compiler

end MiniScheme
