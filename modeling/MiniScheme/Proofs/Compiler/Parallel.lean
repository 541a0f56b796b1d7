import MiniScheme.Proofs.Code.Attribution
import MiniScheme.Proofs.Compiler.Outcome
import MiniScheme.Proofs.Runs.Tracking

/-!
# Compiling side by side

Compiling asks its state for little: what names mean, which initializers wait, where a scope keeps
its slots, which values quoted data become. If two states agree in what these few steps tell and the
steps keep them related, compiling as a whole goes alike from both: it comes to the same code or to
the same error, and leaves related states behind. Constants need only be related, since compiling
never looks into them. What holds of code that is put together from instructions, and of the calls
that forms compile to, holds of the code of every datum.
-/

namespace MiniScheme

namespace CompileM

variable {W α β : Type} [Preorder W] {states : W → Compilation → Compilation → Prop}
  {good : α → Prop} {good' : β → Prop}

/-- From related states the action comes to the same error or to the same result, which is good. -/
def Parallel (states : W → Compilation → Compilation → Prop) (good : α → Prop)
    (action : CompileM α) : Prop :=
  ∀ world, Tracks states (fun _ result result' => result' = result ∧ good result) world action
    action

theorem Parallel.bind {action : CompileM α} {next : α → CompileM β}
    (first : Parallel states good action)
    (second : ∀ res, good res → Parallel states good' (next res)) :
    Parallel states good' (action >>= next) := by
  intro world
  refine (first world).bind fun later res res' _ met => ?_
  rw [met.1]
  exact second res met.2 later

theorem Parallel.pure {res : α} (met : good res) : Parallel states good (pure res : CompileM α) :=
  fun _ => .pure ⟨rfl, met⟩

theorem Parallel.throw (error : CompileError) :
    Parallel states good (MonadExcept.throw error : CompileM α) :=
  fun _ => .throw error

theorem Parallel.fail (fault : CompileFault) (form : Datum) :
    Parallel states good (CompileM.fail fault form : CompileM α) :=
  .throw _

theorem Parallel.ofExcept (out : Except CompileError α) :
    Parallel states (fun _ => True) (CompileM.ofExcept out) := by
  cases out with
  | ok res => exact .pure trivial
  | error error => exact .throw error

theorem Parallel.look {view : Scopes → α} (same : ∀ world st st', states world st st' →
      view st'.scopes = view st.scopes) : Parallel states (fun _ => True) (CompileM.look view) :=
  fun _ _ _ related => .ok le_rfl ⟨same _ _ _ related, trivial⟩ related

theorem Parallel.mono {action : CompileM α} {better : α → Prop}
    (parallel : Parallel states good action) (weaker : ∀ res, good res → better res) :
    Parallel states better action := by
  intro world st st' related
  have outcomes := parallel world related
  generalize action st = out, action st' = out' at outcomes
  cases outcomes with
  | ok le met related => exact .ok le ⟨met.1, weaker _ met.2⟩ related
  | error le error related => exact .error le error related

theorem Parallel.ran {action : CompileM α} (parallel : Parallel states good action) :
    Parallel states (fun result => good result ∧ ∃ state after, action state = .ok result after)
      action := by
  intro world st st' related
  have outcomes := parallel world related
  generalize ran : action st = out at outcomes ⊢
  generalize action st' = out' at outcomes
  cases outcomes with
  | ok le met related => exact .ok le ⟨met.1, met.2, st, _, ran⟩ related
  | error le error related => exact .error le error related

def built (datum : Datum) : CompileM Value := fun state =>
  match state with
  | { scopes, store } =>
    let (value, store) := store.onHeap fun heap => heap.ofDatum datum
    .ok value { scopes, store }

theorem quoted_eq (scope : ScopeRef) (d : Datum) :
    quoted scope d = built d >>= constant scope := rfl

end CompileM

namespace Compiler

open CompileM

/-- What is asked of code holds of instructions, of codes one behind the other, and of calls that
forms or templates with the given origin compile to. -/
structure Composes (source : Datum → Prop) (fine : Bytecode → Prop) : Prop where
  nothing : fine {}
  append {first second : Bytecode} : fine first → fine second → fine (first ++ second)
  plain (instruction : Instruction) : instruction.op ≠ .call ∧ instruction.op ≠ .tailCall →
    fine (.ofOp instruction.op instruction.operands)
  call {code : Bytecode} {op : Op} {position : Position} : fine code →
    op = .call ∨ op = .tailCall → (code ++ .ofOpAt op position).CompiledFrom source position →
      fine (code ++ .ofOpAt op position)

theorem composes_trivial : Composes (fun _ => True) fun _ => True :=
  ⟨trivial, fun _ _ => trivial, fun _ _ => trivial, fun _ _ _ => trivial⟩

/-- What has to be known of each step for compiling as a whole. Forms are compiled in scopes that
are `inside` only, and come from the data of the `source`. -/
structure Parallels {W : Type} [Preorder W] (source : Datum → Prop) (fine : Bytecode → Prop)
    (inside : ScopeRef → Prop) (constants : W → Constant → Constant → Prop)
    (states : W → Compilation → Compilation → Prop) : Prop where
  later {world later : W} {constant constant' : Constant} : world ≤ later →
    constants world constant constant' → constants later constant constant'
  data {world : W} {value : Value} : value.handle? = none →
    constants world (.value value) (.value value)
  lambda {world : W} (lambda : Lambda) {inner inner' : Array Constant} : fine lambda.body →
    List.Forall₂ (constants world) inner.toList inner'.toList →
    constants world (.lambda { lambda with constants := inner })
      (.lambda { lambda with constants := inner' })
  resolve {world : W} {state state' : Compilation} (scope : ScopeRef) (name : String) :
    states world state state' →
      state'.scopes.resolve scope name = state.scopes.resolve scope name
  keeps {world : W} {state state' : Compilation} {scope : ScopeRef} {name : String}
    {transformer : Transformer} : states world state state' →
      state.scopes.resolve scope name = some (.transformer transformer) →
        transformer.kind.Keeps source
  hasDeferred {world : W} {state state' : Compilation} (scope : ScopeRef) :
    states world state state' → state'.scopes.hasDeferred scope = state.scopes.hasDeferred scope
  note (detail : Detail) (message : Unit → String) :
    Parallel states (fun _ => True) (CompileM.note detail message)
  push {parent : ScopeRef} (syntactic : Bool) : inside parent →
    Parallel states inside
      (CompileM.onScopes fun scopes => scopes.push (some parent) syntactic none)
  pop {scope : ScopeRef} : inside scope →
    Parallel states (fun _ => True) (CompileM.onScopes fun scopes => ((), scopes.pop scope))
  finish {scope : ScopeRef} : inside scope → ∀ world, Tracks states (fun later result result' =>
      result'.1 = result.1 ∧ List.Forall₂ (constants later) result.2.toList result'.2.toList) world
    (CompileM.onScopes fun scopes =>
      let (slotCount, constants, scopes) := scopes.finish scope
      ((slotCount, constants), scopes))
    (CompileM.onScopes fun scopes =>
      let (slotCount, constants, scopes) := scopes.finish scope
      ((slotCount, constants), scopes))
  createTransformer (scope : ScopeRef) {spec : Datum} : Stems source spec →
    Parallel states (fun transformer => transformer.kind.Keeps source)
      (CompileM.createTransformer scope spec)
  bindTransformer {scope : ScopeRef} (name : String) {transformer : Transformer} :
    transformer.kind.Keeps source → inside scope → Parallel states (fun _ => True)
      (CompileM.onScopes fun scopes => ((), scopes.bindTransformer scope name transformer))
  addVariable {scope : ScopeRef} (name : String) {initializer : Option Datum} :
    (∀ form ∈ initializer, Stems source form) → inside scope →
      Parallel states (fun _ => True) (CompileM.addVariable scope name initializer)
  addConstant {scope : ScopeRef} {world : W} {constant constant' : Constant} : inside scope →
    constants world constant constant' → Tracks states (fun _ => Eq) world
      (CompileM.onScopes fun scopes => scopes.addConstant scope constant)
      (CompileM.onScopes fun scopes => scopes.addConstant scope constant')
  takeDeferred {scope : ScopeRef} : inside scope →
    Parallel states (fun waiting => ∀ pending ∈ waiting, inside pending.scope ∧
        Stems source pending.form)
      (CompileM.onScopes fun scopes => scopes.takeDeferred scope)
  built (world : W) (datum : Datum) : Tracks states (fun later value value' =>
      constants later (.value value) (.value value')) world (CompileM.built datum)
    (CompileM.built datum)
  code : Composes source fine

/-- Forms compile alike from related states, with some nesting left. -/
def Uniform {W : Type} [Preorder W] (source : Datum → Prop) (fine : Bytecode → Prop)
    (inside : ScopeRef → Prop) (states : W → Compilation → Compilation → Prop) (room : Nat) : Prop :=
  ∀ (datum : Datum) (context : Context), Stems source datum → inside context.scope →
    CompileM.Parallel states (fun fragment => fine fragment.code) (compile room datum context)

variable {W : Type} [Preorder W] {source : Datum → Prop} {fine : Bytecode → Prop}
  {inside : ScopeRef → Prop} {constants : W → Constant → Constant → Prop}
  {states : W → Compilation → Compilation → Prop} {room : Nat}

section

variable (parallels : Parallels source fine inside constants states)

include parallels

/-! ### Single steps -/

variable {scope : ScopeRef}

theorem parallel_constant (home : inside scope) {v : Value} (bare : v.handle? = none) :
    Parallel states fine (CompileM.constant scope v) := by
  intro world
  refine (parallels.addConstant home (parallels.data bare)).bind_eq fun _ index _ => ?_
  exact .pure ⟨rfl, parallels.code.plain ⟨.constant, [_], rfl⟩ (by simp)⟩

theorem parallel_quoted (home : inside scope) (d : Datum) :
    Parallel states fine (CompileM.quoted scope d) := by
  intro world
  rw [quoted_eq]
  refine (parallels.built world d).bind fun _ _ _ _ same => ?_
  refine (parallels.addConstant home same).bind_eq fun _ index _ => ?_
  exact .pure ⟨rfl, parallels.code.plain ⟨.constant, [_], rfl⟩ (by simp)⟩

theorem parallel_addVariables (home : inside scope) (names : List String) :
    Parallel states (fun _ => True)
      (names.forM fun name => CompileM.addVariable scope name none) := by
  induction names with
  | nil => exact .pure trivial
  | cons name names ih => exact (parallels.addVariable name (by simp) home).bind fun _ _ => ih

/-! ### Sequences and procedures -/

variable (uniform : Uniform source fine inside states room)

include uniform

theorem parallel_sequenceFrom {ctx : Context} (home : inside ctx.scope) {forms : List Datum}
    (stem : ∀ form ∈ forms, Stems source form) {done : Fragment} (clean : fine done.code) :
    Parallel states (fun fragment => fine fragment.code)
      (sequenceFrom (compile room) ctx done forms) := by
  induction forms generalizing done with
  | nil => exact .pure clean
  | cons form forms ih =>
    obtain ⟨first, others⟩ := List.forall_mem_cons.mp stem
    rw [sequenceFrom]
    refine (uniform form _ first ?_).bind fun _ clean' =>
      ih others (parallels.code.append ?_ clean')
    · exact home
    · split
      · exact parallels.code.append clean (parallels.code.plain ⟨.pop, [], rfl⟩ (by simp))
      · exact clean

theorem parallel_procedure {outer : ScopeRef} (home : inside outer) (form : Datum)
    (formals : Formals) {body : List Datum} (stem : ∀ form ∈ body, Stems source form)
    (name : Option String) :
    Parallel states fine (procedure (compile room) form formals body outer name) := by
  rw [procedure]
  refine (parallels.push false home).bind fun scope within => ?_
  refine (parallel_addVariables parallels within formals.names).bind fun _ _ => ?_
  have compiled : Parallel states (fun fragment => fine fragment.code)
      (sequence (compile room) (.ofBody scope) body) :=
    parallel_sequenceFrom parallels uniform within stem parallels.code.nothing
  refine compiled.bind fun res clean => ?_
  cases res.pushes with
  | false => exact .fail _ _
  | true =>
    simp only [if_true]
    intro world
    refine (parallels.finish within world).bind fun later parts parts' _ same => ?_
    obtain ⟨slotCount, inner⟩ := parts
    obtain ⟨slotCount', inner'⟩ := parts'
    obtain ⟨rfl, inner⟩ := same
    refine (parallels.note _ _ later).bind fun last _ _ le _ => ?_
    have inner := inner.imp fun _ _ => parallels.later le
    have same := parallels.lambda { Lambda.empty with
      name, argumentCount := formals.fixed.length, rest := formals.rest.isSome
      slotCount := slotCount', body := res.code ++ .ofOp .return }
      (parallels.code.append clean (parallels.code.plain ⟨.return, [], rfl⟩ (by simp))) inner
    exact (parallels.addConstant home same).bind_eq fun _ index _ =>
      .pure ⟨rfl, parallels.code.plain ⟨.lambda, [_], rfl⟩ (by simp)⟩

/-! ### Initializers -/

omit parallels uniform in
theorem parallel_parts (form first : Datum) (body : List Datum) :
    Parallel states (fun result => result.2 = body)
      (CompileM.ofExcept (parts form (first :: body))) := by
  rw [parts]
  cases Formals.ofDatum first with
  | ok formals => exact .pure rfl
  | error error => exact .throw error

theorem parallel_initializer {pending : Initializer} (home : inside pending.scope)
    (stems : Stems source pending.form) :
    Parallel states fine (initializer (compile room) pending) := by
  have expr : Parallel states fine
      (do return (← compile room pending.form { scope := pending.scope }).code) :=
    (uniform _ _ stems home).bind fun _ clean => .pure clean
  rw [initializer]
  cases listed : pending.form.list? with
  | none => exact expr
  | some xs =>
    cases xs with
    | nil => exact expr
    | cons keyword xs =>
      dsimp only
      cases keyword.isSymbol "lambda" with
      | false => exact expr
      | true =>
        cases xs with
        | nil => exact Parallel.throw _
        | cons first body =>
          refine (parallel_parts _ first body).bind fun res same =>
            parallel_procedure parallels uniform home _ _ ?_ _
          rw [same]
          refine fun item member => stems.part ?_
          rw [Datum.children_of_list? listed]
          exact List.mem_cons_of_mem _ (List.mem_cons_of_mem _ member)

theorem parallel_initializers {waiting : List Initializer}
    (homes : ∀ pending ∈ waiting, inside pending.scope ∧ Stems source pending.form)
    {code : Bytecode} (clean : fine code) :
    Parallel states fine (initializers (compile room) code waiting) := by
  induction waiting generalizing code with
  | nil => exact .pure clean
  | cons pending others ih =>
    obtain ⟨⟨home, stems⟩, homes⟩ := List.forall_mem_cons.mp homes
    refine (parallel_initializer parallels uniform home stems).bind fun _ clean' => ih homes ?_
    exact parallels.code.append (parallels.code.append clean clean')
      (parallels.code.plain ⟨.setVariable, [_, _], rfl⟩ (by simp))

theorem parallel_flush (home : inside scope) :
    Parallel states fine (flush (compile room) scope) := by
  refine (Parallel.look fun _ _ _ => parallels.hasDeferred scope).bind fun waiting _ => ?_
  cases waiting with
  | false => exact .pure parallels.code.nothing
  | true =>
    exact (parallels.takeDeferred home).bind fun waiting homes =>
      parallel_initializers parallels uniform homes parallels.code.nothing

/-! ### Expressions -/

section

variable {ctx : Context} (home : inside ctx.scope)

include home

/-- Most forms first make up for the initializers that wait. -/
theorem parallel_flushed {action : CompileM Bytecode} (respects : Parallel states fine action) :
    Parallel states (fun fragment => fine fragment.code)
      (flushed (compile room) ctx.scope action) :=
  (parallel_flush parallels uniform home).bind fun _ clean => respects.bind fun _ clean' =>
    .pure (parallels.code.append clean clean')

theorem parallel_operands {xs : List Datum} (stem : ∀ item ∈ xs, Stems source item)
    {code : Bytecode} (clean : fine code) :
    Parallel states fine (operands (compile room) ctx code xs) := by
  induction xs generalizing code with
  | nil => exact .pure clean
  | cons item xs ih =>
    obtain ⟨first, others⟩ := List.forall_mem_cons.mp stem
    exact (uniform item ctx.operand first home).bind fun _ clean' =>
      ih others (parallels.code.append clean clean')

theorem parallel_conditional {condition consequent : Datum} {alternate : Option Datum}
    (tests : Stems source condition) (chooses : Stems source consequent)
    (others : ∀ other ∈ alternate, Stems source other) :
    Parallel states (fun fragment => fine fragment.code)
      (conditional (compile room) ctx condition consequent alternate) := by
  refine (uniform condition ctx.operand tests home).bind fun _ test => ?_
  refine (uniform consequent ctx.branch chooses home).bind fun _ yes => ?_
  have code := parallels.code
  have whole {first second third : Bytecode} (test : fine first) (yes : fine second)
      (no : fine third) (skip back : Int32) : fine (first ++ .ofOp .conditionalJump [skip] ++
        second ++ .ofOp .jump [back] ++ third) :=
    code.append (code.append (code.append (code.append test
      (code.plain ⟨.conditionalJump, [_], rfl⟩ (by simp))) yes)
      (code.plain ⟨.jump, [_], rfl⟩ (by simp))) no
  cases alternate with
  | none =>
    exact (parallel_constant parallels home rfl).bind fun _ no => .pure (whole test yes no _ _)
  | some form =>
    exact (uniform form ctx.branch (others form rfl) home).bind fun _ no =>
      .pure (whole test yes no _ _)

omit uniform home in
theorem parallel_bindLocal {scope : ScopeRef} (within : inside scope) (outer : ScopeRef)
    {entries : List Datum} (stem : ∀ entry ∈ entries, Stems source entry) :
    Parallel states (fun _ => True) (bindLocal scope outer entries) := by
  induction entries with
  | nil => exact .pure trivial
  | cons e entries ih =>
    obtain ⟨first, others⟩ := List.forall_mem_cons.mp stem
    rw [bindLocal]
    split
    · rename_i name pos spec listed
      have described : Stems source spec :=
        first.part (by simp [Datum.children_of_list? listed])
      refine (parallels.createTransformer _ described).bind fun transformer keeps => ?_
      exact (parallels.bindTransformer _ keeps within).bind fun _ _ => ih others
    · exact .fail _ _

end

end

/-! ### Quasiquotation -/

theorem handle?_definitions {name : String} {v : Value}
    (mem : (name, v) ∈ Stdlib.definitions) : v.handle? = none := by
  rcases List.mem_append.mp mem with control | native
  · simp only [Stdlib.controls, List.mem_cons, Prod.mk.injEq, List.not_mem_nil, or_false] at control
    rcases control with ⟨-, rfl⟩ | ⟨-, rfl⟩ | ⟨-, rfl⟩ <;> rfl
  · obtain ⟨place, bound, eq⟩ := List.mem_mapIdx.mp native
    cases eq
    rfl

theorem handle?_procedure? (name : String) :
    ((Stdlib.procedure? name).getD .unspecified).handle? = none := by
  cases found : Stdlib.procedure? name with
  | none => rfl
  | some v =>
    obtain ⟨front, back, eq, -⟩ := List.lookup_eq_some_iff.mp found
    apply handle?_definitions
    rw [eq]
    exact List.mem_append_right _ List.mem_cons_self

mutual

theorem parallel_quasi (parallels : Parallels source fine inside constants states)
    (uniform : Uniform source fine inside states room) {ctx : Context} (home : inside ctx.scope) :
    (plan : Quasi) → (∀ part, plan.Within part → part.MadeFrom source) →
      Parallel states fine (quasi (compile room) ctx plan)
  | .constant template, _ => by
    rw [quasi]
    exact parallel_quoted parallels home template
  | .evaluate form, made => by
    rw [quasi]
    exact (uniform form ctx.operand (made _ (.self _)) home).bind fun _ clean => .pure clean
  | .nothing, _ => by
    rw [quasi]
    exact parallel_constant parallels home rfl
  | .call name pos args, made => by
    have parts : Parallel states (fun res => ∃ code, fine code ∧ res = code ++ .ofOpAt .call pos)
        (quasi (compile room) ctx (.call name pos args)) := by
      rw [quasi]
      refine (parallel_constant parallels home (handle?_procedure? name)).bind fun _ callee => ?_
      refine (parallel_quasiAll parallels uniform home args
        (fun plan mem part inside => made part (.argument mem inside)) _ (parallels.code.append
          (parallels.code.plain ⟨.resetOperandCount, [], rfl⟩ (by simp)) callee)).bind ?_
      exact fun code clean => .pure ⟨code, clean, rfl⟩
    refine parts.ran.mono ?_
    rintro _ ⟨⟨code, clean, rfl⟩, _, _, ran⟩
    exact parallels.code.call clean (.inl rfl) (.template (made _ (.self _)) ran)
  | .invalid pos, _ => by
    rw [quasi]
    exact .throw _

theorem parallel_quasiAll (parallels : Parallels source fine inside constants states)
    (uniform : Uniform source fine inside states room) {ctx : Context} (home : inside ctx.scope) :
    (plans : List Quasi) →
      (∀ plan ∈ plans, ∀ part, plan.Within part → part.MadeFrom source) →
      (code : Bytecode) → fine code →
      Parallel states fine (quasiAll (compile room) ctx code plans)
  | [], _, code, clean => by
    rw [quasiAll]
    exact .pure clean
  | plan :: plans, made, code, clean => by
    obtain ⟨first, others⟩ := List.forall_mem_cons.mp made
    rw [quasiAll]
    exact (parallel_quasi parallels uniform home plan first).bind fun _ clean' =>
      parallel_quasiAll parallels uniform home plans others _ (parallels.code.append clean clean')

end

/-! ### All forms -/

section

variable (parallels : Parallels source fine inside constants states)
  (uniform : Uniform source fine inside states room)

include parallels uniform

theorem parallel_call {ctx : Context} (home : inside ctx.scope) (form : Datum) {xs : List Datum}
    (stem : ∀ item ∈ xs, Stems source item) :
    Parallel states (fun fragment => ∃ code, fine code ∧ fragment =
        yields (code ++ .ofOpAt (if ctx.tail then .tailCall else .call) form.position))
      (call (compile room) form xs ctx) := by
  refine (parallel_flush parallels uniform home).bind fun _ clean => ?_
  refine (parallel_operands parallels uniform home stem (parallels.code.append clean
    (parallels.code.plain ⟨.resetOperandCount, [], rfl⟩ (by simp)))).bind fun code clean => ?_
  exact .pure ⟨code, clean, rfl⟩

/-- What is no call compiles to code that is fine. -/
theorem parallel_plan {ctx : Context} (home : inside ctx.scope) {form : Datum}
    (stems : Stems source form) : (plan : Plan) → plan.Drawn source form →
      (∀ head xs, plan ≠ .call head xs) →
      Parallel states (fun fragment => fine fragment.code) (plan.compile (compile room) form ctx)
  | .literal d, _, _ => parallel_flushed parallels uniform home (parallel_quoted parallels home d)
  | .reference place, _, _ => parallel_flushed parallels uniform home
      (.pure (parallels.code.plain ⟨.variable, [_, _], rfl⟩ (by simp)))
  | .expansion res noted, drawn, _ => by
    cases noted with
    | false => exact uniform res ctx drawn home
    | true => exact (parallels.note _ _).bind fun _ _ => uniform res ctx drawn home
  | .quasi template, drawn, _ => parallel_flushed parallels uniform home
      (parallel_quasi parallels uniform home _ fun _ => Quasi.madeFrom_of_within drawn)
  | .conditional _ _ _, ⟨tests, chooses, others⟩, _ =>
    parallel_conditional parallels uniform home tests chooses others
  | .nothing, _, _ => parallel_flushed parallels uniform home (parallel_constant parallels home rfl)
  | .sequence _ _, drawn, _ =>
    parallel_sequenceFrom parallels uniform home drawn parallels.code.nothing
  | .lambda _ _, drawn, _ => parallel_flushed parallels uniform home
      (parallel_procedure parallels uniform home _ _ drawn _)
  | .assignment _ v, drawn, _ => (uniform v ctx.operand drawn home).bind fun _ clean =>
      (parallel_constant parallels home rfl).bind fun _ clean' =>
        .pure (parallels.code.append (parallels.code.append clean
          (parallels.code.plain ⟨.setVariable, [_, _], rfl⟩ (by simp))) clean')
  | .definition target rest, ⟨head, pos, same⟩, _ => by
    subst same
    have defining : Parallel states (fun _ => True)
        (definition (.list (head :: target :: rest) pos) target rest) := by
      obtain ⟨out, same⟩ := definition_eq (.list (head :: target :: rest) pos) target rest
      exact same ▸ Parallel.ofExcept out
    refine defining.ran.bind fun res ran => ?_
    refine (parallels.addVariable res.1 ?_ home).bind fun _ _ => .pure parallels.code.nothing
    obtain ⟨name, value⟩ := res
    obtain ⟨-, _, _, defines⟩ := ran
    intro v found
    cases Option.mem_def.mp found
    exact stems.initializer defines
  | .transformer _ _, drawn, _ =>
    (parallels.createTransformer _ drawn).bind fun transformer keeps =>
      (parallels.bindTransformer _ keeps home).bind fun _ _ => .pure parallels.code.nothing
  | .scoped _ bindings first body, ⟨described, stem⟩, _ => by
    refine (parallels.push true home).bind fun scope within => ?_
    refine (parallel_bindLocal parallels within _ described).bind fun _ _ => ?_
    have compiled : Parallel states (fun fragment => fine fragment.code)
        (sequence (compile room) { ctx with scope } (first :: body)) :=
      parallel_sequenceFrom parallels uniform within stem parallels.code.nothing
    exact compiled.bind fun _ clean => (parallels.pop within).bind fun _ _ => .pure clean
  | .call head xs, _, other => absurd rfl (other head xs)

theorem parallel_form : Uniform source fine inside states (room + 1) := by
  intro d ctx stems home world st st' related
  have same : st'.scopes.resolve ctx.scope = st.scopes.resolve ctx.scope :=
    funext fun name => parallels.resolve ctx.scope name related
  have look {other : Compilation} : compile (room + 1) d ctx other =
      (CompileM.ofExcept (Plan.ofDatum (other.scopes.resolve ctx.scope) ctx d) >>=
        Plan.compile (compile room) d ctx) other := rfl
  rw [look, look, same]
  cases planned : Plan.ofDatum (st.scopes.resolve ctx.scope) ctx d with
  | error error => exact .error le_rfl error related
  | ok plan =>
    obtain ⟨drawn, -⟩ := Plan.suits_ofDatum (fun _ _ => parallels.keeps related) stems planned
    by_cases called : ∃ head xs, plan = .call head xs
    · obtain ⟨head, xs, rfl⟩ := called
      have outcomes := parallel_call parallels uniform home d drawn world related
      have run : compile (room + 1) d ctx st = call (compile room) d (head :: xs) ctx st := by
        rw [look, planned]
        rfl
      change Agree _ _ _ (call (compile room) d (head :: xs) ctx st)
        (call (compile room) d (head :: xs) ctx st')
      generalize ran : call (compile room) d (head :: xs) ctx st = out at outcomes run ⊢
      generalize call (compile room) d (head :: xs) ctx st' = out' at outcomes
      cases outcomes with
      | error le error related => exact .error le error related
      | ok le met related =>
        obtain ⟨rfl, code, clean, rfl⟩ := met
        refine .ok le ⟨rfl, ?_⟩ related
        exact parallels.code.call clean (by cases ctx.tail <;> simp) (.form stems planned run)
    · exact parallel_plan parallels uniform home stems plan drawn
        (fun head xs same => called ⟨head, xs, same⟩) world related

omit uniform in
/-- All forms compile alike in related stores, however deep they nest. -/
theorem parallel_compile (room : Nat) : Uniform source fine inside states room := by
  induction room with
  | zero =>
    intro d ctx stems home
    exact .fail _ _
  | succ room ih => exact parallel_form parallels ih

omit uniform in
/-- Compiling a datum ends alike in related stores. -/
theorem parallel_compileTopLevel {scope : ScopeRef} (home : inside scope) (d : Datum)
    (known : source d) : Parallel states fine (compileTopLevel d scope) := by
  have uniform := parallel_compile parallels maxDepth
  refine (uniform d (.ofTopLevel scope) (.datum known) home).bind fun res clean => ?_
  refine (parallel_flush parallels uniform home).bind fun after clean' => ?_
  refine (parallels.note _ _).bind fun _ _ => .pure (parallels.code.append
    (parallels.code.append clean clean') ?_)
  split
  · exact parallels.code.plain ⟨.exit, [], rfl⟩ (by simp)
  · exact parallels.code.plain ⟨.lambdaExit, [], rfl⟩ (by simp)

end

end Compiler

end MiniScheme
