import MiniScheme.Proofs.Compiler.Balance
import MiniScheme.Proofs.Core.Scoping
import MiniScheme.Proofs.Core.Translation

/-!
# Compiling expressions

Where a datum can be read as an expression and compiles, the code that comes of it is code of that
expression. Quoted data are built by the compiler as they are by reading. The initializers that wait
come first in the code of whatever is compiled next. The statement is proved for each kind of form,
given that it holds of the forms in it.
-/

namespace MiniScheme

open Bytecode

theorem Expression.bind_some {α β : Type} {action : ReadM α} {next : α → ReadM β}
    {heap after : Heap} {res : β} (read : (action >>= next) heap = some (res, after)) :
    ∃ first mid, action heap = some (first, mid) ∧
      next first mid = some (res, after) := by
  obtain ⟨⟨first, mid⟩, found, rest⟩ := Option.bind_eq_some_iff.mp read
  exact ⟨first, mid, found, rest⟩

/-- The state once the initializers that wait have been taken. -/
def Compilation.flushed (scope : ScopeRef) (state : Compilation) : Compilation :=
  { state with scopes := (state.scopes.takeDeferred scope).2 }

theorem Scopes.Idle.flushed {scope : ScopeRef} {st : Compilation}
    (idle : st.scopes.Idle scope) : st.flushed scope = st := by
  rw [Compilation.flushed, idle.takeDeferred]

namespace Compiler

open CompileM
open Expression (bind_some)

/-- Expressions with these names can be compiled in the scope. -/
structure Ready (discipline : Discipline) (room : Nat) (scope : ScopeRef) (namings : List Naming)
    (state : Compilation) : Prop where
  valid : state.Valid discipline
  bound : scope < state.scopes.stack.size
  limit : state.scopes.stack.size + room ≤ operandLimit
  knows : state.scopes.Knows scope namings

/-- Expressions can be compiled in the scope. The definitions that wait there are these, and reading
them has led to the heap. -/
structure Due (discipline : Discipline) (room : Nat) (scope : ScopeRef) (namings : List Naming)
    (definitions : List (String × Expression)) (heap : Heap) (state : Compilation) : Prop where
  ready : Ready discipline room scope namings state
  awaits : ∃ waiting limit, state.scopes.Awaits scope namings waiting ∧
    Expression.initializers (Expression.read limit namings) waiting state.store.heap =
      some (definitions, heap)

/-- `Renders discipline scope before heap after code`: compiling has led from one state to the other
while reading has led to the heap, and `code` holds of the constants of every procedure that the
code may come to stand in. -/
structure Renders (discipline : Discipline) (scope : ScopeRef) (before : Compilation) (heap : Heap)
    (after : Compilation) (code : Array Constant → Prop) : Prop where
  advances : before.Advances discipline after
  outline : after.scopes.outline = before.scopes.outline
  heap : after.store.heap = heap
  code (setting : Setting) : setting.Hosts after.scopes scope → code setting.pool

/-- `Writes discipline context before namings definitions expression heap fragment after`: the
fragment is code of the definitions that were waiting and of the expression. -/
structure Writes (discipline : Discipline) (context : Context) (before : Compilation)
    (namings : List Naming) (definitions : List (String × Expression)) (expression : Expression)
    (heap : Heap) (fragment : Fragment) (after : Compilation) : Prop where
  pushes : fragment.pushes = true
  renders : Renders discipline context.scope (before.flushed context.scope) heap after fun pool =>
    TranslatesWith pool namings definitions context.tail expression fragment.code.stream

/-- `Faithful discipline room recur`: forms compile to code of the expressions that they are read
as. -/
structure Faithful (discipline : Discipline) (room : Nat) (recur : Recur) : Prop where
  definition {datum : Datum} {name : String} {value : Option Datum} {context : Context}
    {state after : Compilation} {fragment : Fragment} :
    Expression.definition? datum = some (name, value) →
      recur datum context state = .ok fragment after →
        fragment = {} ∧ CompileM.addVariable context.scope name value state = .ok () after
  expression {datum : Datum} {context : Context} {state after : Compilation} {fragment : Fragment}
    {namings : List Naming} {definitions : List (String × Expression)} {expression : Expression}
    {depth : Nat} {heap heap' : Heap} :
    recur datum context state = .ok fragment after →
      Due discipline room context.scope namings definitions heap state →
      Expression.read depth namings datum heap = some (expression, heap') →
        Writes discipline context state namings definitions expression heap' fragment after

variable {law : Discipline} {room : Nat} {recur : Recur} {ctx : Context}
  {st before mid after : Compilation} {scope : ScopeRef} {namings : List Naming}
  {heap heap' : Heap} {code code' : Array Constant → Prop}

theorem Renders.size_stack (renders : Renders law scope before heap after code) :
    after.scopes.stack.size = before.scopes.stack.size := by
  simpa [Scopes.outline] using congrArg (·.stack.size) renders.outline

theorem Ready.next (ready : Ready law room scope namings before)
    (renders : Renders law scope before heap after code) : Ready law room scope namings after := by
  have size := renders.size_stack
  exact ⟨renders.advances.valid, size.symm ▸ ready.bound, size.symm ▸ ready.limit,
    ready.knows.of_outline renders.outline⟩

theorem Ready.flushed (ready : Ready law room scope namings st) :
    st.Advances law (st.flushed scope) ∧ Ready law room scope namings (st.flushed scope) ∧
      (st.flushed scope).scopes.Idle scope := by
  obtain ⟨advances, size⟩ := ready.valid.takeDeferred ready.bound
  exact ⟨advances, ⟨advances.valid, size.symm ▸ ready.bound, size.symm ▸ ready.limit,
    ready.knows.takeDeferred scope⟩, Scopes.idle_takeDeferred ready.valid.scopes ready.bound⟩

theorem Ready.below (ready : Ready law (room + 1) scope namings st) :
    Ready law room scope namings st :=
  ⟨ready.valid, ready.bound, Nat.le_of_succ_le ready.limit, ready.knows⟩

theorem Ready.due (ready : Ready law room scope namings st) (idle : st.scopes.Idle scope) :
    Due law room scope namings [] st.store.heap st :=
  ⟨ready, [], 0, by rw [Scopes.Awaits, idle]; exact .nil, rfl⟩

theorem Due.below {definitions : List (String × Expression)}
    (due : Due law (room + 1) scope namings definitions heap st) :
    Due law room scope namings definitions heap st :=
  ⟨due.ready.below, due.awaits⟩

variable {name : String} {res : Bytecode} {d : Datum}

theorem Ready.small (ready : Ready law room scope namings st) {setting : Setting}
    (hosts : setting.Hosts st.scopes scope) {depth slot : Nat}
    (place : place? namings name = some (depth, slot)) :
    depth < operandLimit ∧ slot < operandLimit := by
  have few := Nat.le_trans (Nat.le_add_right ..) ready.limit
  exact ready.knows.small ready.valid.scopes (Nat.lt_of_lt_of_le ready.bound few) hosts place

namespace Renders

theorem refl (valid : st.Valid law) (holds : ∀ pool, code pool) :
    Renders law scope st st.store.heap st code :=
  ⟨.refl valid, rfl, rfl, fun setting _ => holds setting.pool⟩

theorem mono (renders : Renders law scope before heap after code)
    (weaker : ∀ pool, code pool → code' pool) : Renders law scope before heap after code' :=
  { renders with code := fun setting hosts => weaker _ (renders.code setting hosts) }

theorem trans (bound : scope < before.scopes.stack.size)
    (first : Renders law scope before heap mid code)
    (second : Renders law scope mid heap' after code') :
    Renders law scope before heap' after fun pool => code pool ∧ code' pool := by
  refine ⟨first.advances.trans second.advances, second.outline.trans first.outline, second.heap,
    fun setting hosts => ⟨first.code setting ?_, second.code setting hosts⟩⟩
  exact hosts.before first.advances.valid.scopes.toNested second.advances.scopes
    (Nat.lt_of_lt_of_le bound first.advances.scopes.embeds.size_le)

theorem idle (renders : Renders law scope before heap after code)
    (idle : before.scopes.Idle scope) : after.scopes.Idle scope :=
  idle.of_outline renders.outline

end Renders

/-! ### Constants -/

theorem outline_addConstant (scopes : Scopes) (scope : ScopeRef) (constant : Constant) :
    (scopes.addConstant scope constant).2.outline = scopes.outline := by
  have same := @Scopes.outline_modify scopes (scopes.owner scope)
    (fun e => { e with constants := e.constants.push constant }) (fun e => e) fun _ => rfl
  rwa [Scopes.modify_self] at same

theorem renders_addConstant (valid : st.Valid law)
    (bound : scope < st.scopes.stack.size) {constant : Constant} (standard : constant.IsStandard) :
    Renders law scope st st.store.heap
      { st with scopes := (st.scopes.addConstant scope constant).2 } fun pool =>
        pool[(st.scopes.addConstant scope constant).1]? = some constant := by
  refine ⟨advances_addConstant (.refl valid) bound standard, outline_addConstant .., rfl,
    fun setting hosts => ?_⟩
  obtain ⟨index, -, -, -, constants⟩ := valid.scopes.addConstant bound standard
  exact (hosts.constant (by rw [constants, index, Array.getElem?_push_size])).1

theorem renders_constant (ready : Ready law room scope namings st) {v : Value}
    (standard : v.IsStandard) (compiled : CompileM.constant scope v st = .ok res after) :
    Renders law scope st st.store.heap after fun pool => ∃ index,
      res = .ofOp .constant [.ofNat index] ∧ pool[index]? = some (.value v) := by
  have standard' : (Constant.value v).IsStandard := standard
  cases compiled
  exact (renders_addConstant ready.valid ready.bound standard').mono fun _ found => ⟨_, rfl, found⟩

theorem renders_quoted (ready : Ready law room scope namings st) {expr : Expression}
    (tail : Bool) (compiled : CompileM.quoted scope d st = .ok res after)
    (read : Expression.quoted d st.store.heap = some (expr, heap)) :
    Renders law scope st heap after fun pool =>
      Translates pool namings tail expr res.stream := by
  obtain ⟨advances, -⟩ := (emits_quoted ready.valid ready.bound d).of_run compiled
  cases read
  cases compiled
  have standard : (Constant.value (st.store.heap.ofDatum d).1).IsStandard :=
    .inl (Heap.isProcedure_ofDatum ..)
  exact ⟨advances, outline_addConstant .., rfl, fun setting hosts =>
    .literal ((renders_addConstant ready.valid ready.bound standard).code setting hosts)⟩

theorem nodup_of_not_hasDuplicate {names : List String}
    (distinct : Formals.hasDuplicate names = false) : names.Nodup := by
  induction names with
  | nil => exact .nil
  | cons name names ih =>
    rw [Formals.hasDuplicate, Bool.or_eq_false_iff] at distinct
    exact List.nodup_cons.mpr ⟨by simpa using distinct.1, ih distinct.2⟩

/-! ### Forms in sequence -/

section

variable (faithful : Faithful law room recur)

include faithful

variable {expr : Expression} {depth : Nat} {forms body xs : List Datum} {res : Fragment}
  {definitions : List (String × Expression)} {outer : ScopeRef} {e : Scope}
  {defined : List (String × Option Datum)} {formals : Formals} {declared : Compilation}
  {name : Option String} {head : Datum}

/-- Where nothing waits, the code is code of the expression alone. -/
theorem Faithful.operand {d : Datum} {fragment : Fragment}
    (compiled : recur d ctx st = .ok fragment after)
    (ready : Ready law room ctx.scope namings st) (idle : st.scopes.Idle ctx.scope)
    (read : Expression.read depth namings d st.store.heap = some (expr, heap)) :
    fragment.pushes = true ∧ Renders law ctx.scope st heap after fun pool =>
      Translates pool namings ctx.tail expr fragment.code.stream := by
  have writes := faithful.expression compiled (ready.due idle) read
  have renders := writes.renders
  rw [idle.flushed] at renders
  exact ⟨writes.pushes, renders.mono fun _ translates => translates.translates⟩

/-- Forms that are read in sequence are compiled in sequence. -/
theorem writes_sequence {done : Fragment}
    (compiled : sequenceFrom recur ctx done forms st = .ok res after)
    (due : Due law room ctx.scope namings definitions heap st)
    (read : Expression.sequenced (Expression.read depth namings) forms heap = some (expr, heap')) :
    res.pushes = true ∧ ∃ bytes, res.code.stream =
        (if done.pushes then done.code ++ .ofOp .pop else done.code).stream ++ bytes ∧
      Renders law ctx.scope (st.flushed ctx.scope) heap' after fun pool =>
        TranslatesWith pool namings definitions ctx.tail expr bytes := by
  induction forms generalizing done st definitions expr heap with
  | nil => cases read
  | cons form forms ih =>
    obtain ⟨next, mid, first, rest⟩ := bind_ok compiled
    cases forms with
    | nil =>
      have writes := faithful.expression first due read
      cases rest
      have renders := writes.renders
      rw [List.isEmpty_nil, Bool.and_true] at renders
      exact ⟨writes.pushes, next.code.stream, stream_append .., renders⟩
    | cons other others =>
      obtain ⟨v, heap'', here, read⟩ := bind_some read
      obtain ⟨last, _, there, done'⟩ := bind_some read
      cases done'
      have writes := faithful.expression first due here
      have renders := writes.renders
      rw [List.isEmpty_cons, Bool.and_false] at renders
      obtain ⟨-, ready', idle⟩ := due.ready.flushed
      have idle' := renders.idle idle
      have heap_eq : mid.store.heap = heap'' := renders.heap
      rw [← heap_eq] at there
      obtain ⟨pushes, bytes, eq, behind⟩ := ih rest ((ready'.next renders).due idle') there
      rw [idle'.flushed] at behind
      refine ⟨pushes, next.code.stream ++ ((ofOp .pop).stream ++ bytes), ?_,
        (renders.trans ready'.bound behind).mono ?_⟩
      · rw [eq, writes.pushes]
        simp
      · rintro pool ⟨⟨before, code, same, defines, translates⟩, second⟩
        refine ⟨before, code ++ ((ofOp .pop).stream ++ bytes), ?_, defines,
          .sequence translates second.translates⟩
        rw [same, List.append_assoc]

/-- Definitions at the start of a body become names of its scope. -/
theorem declares_definitions {scopes : Scopes} {store : Store}
    (declares : e.Declares scopes outer defined) (same : ctx.scope = scopes.stack.size)
    (valid : Compilation.Valid law { scopes := scopes.within e, store })
    (distinct : (defined.map Prod.fst ++ (Expression.definitions body).1.map Prod.fst).Nodup)
    (compiled : sequenceFrom recur ctx {} body { scopes := scopes.within e, store } =
      .ok res after) :
    ∃ e' : Scope, e'.Declares scopes outer (defined ++ (Expression.definitions body).1) ∧
      Compilation.Valid law { scopes := scopes.within e', store } ∧
      sequenceFrom recur ctx {} (Expression.definitions body).2
        { scopes := scopes.within e', store } = .ok res after := by
  induction body generalizing e defined with
  | nil => exact ⟨e, by simpa [Expression.definitions] using declares, valid, compiled⟩
  | cons form forms ih =>
    rw [Expression.definitions] at distinct ⊢
    cases meaning : Expression.definition? form with
    | none => exact ⟨e, by simpa using declares, valid, compiled⟩
    | some definition =>
      obtain ⟨name, v⟩ := definition
      rw [meaning] at distinct
      obtain ⟨next, mid, first, rest⟩ := bind_ok compiled
      obtain ⟨rfl, bound⟩ := faithful.definition meaning first
      have fresh : name ∉ defined.map Prod.fst := fun mem =>
        (List.nodup_append.mp distinct).2.2 name mem name List.mem_cons_self rfl
      obtain ⟨e', added, run⟩ := declares.add fresh v
      have inside : scopes.stack.size < (scopes.within e).stack.size := by
        rw [Scopes.within, Array.size_push]
        exact Nat.lt_succ_self _
      obtain ⟨advances, -⟩ := (meets_addVariable valid inside name v).of_run (run store)
      rw [same, run] at bound
      cases bound
      have nothing : (({} : Bytecode) ++ ({} : Bytecode)) = {} := by
        change append {} {} = {}
        simp [append]
      simp only [Bool.false_eq_true, if_false, nothing] at rest
      obtain ⟨e'', all, valid', onward⟩ := ih added advances.valid (by simpa using distinct) rest
      exact ⟨e'', by simpa using all, valid', onward⟩

/-- The body of a procedure is compiled in a scope that lists the names of the procedure. -/
theorem writes_body {names : List String} (ready : Ready law (room + 1) scope namings st)
    (split : Expression.definitions body = (defined, forms))
    (all : names = formals.names ++ defined.map Prod.fst) (distinct : names.Nodup)
    (made : Enclosed law room recur scope formals body st declared after res e)
    (initialized : Expression.initializers (Expression.read depth (.ofNames names :: namings))
      (Expression.initialized defined) st.store.heap = some (definitions, heap))
    (read : Expression.sequenced (Expression.read depth (.ofNames names :: namings)) forms heap =
      some (expr, heap')) :
    ∃ e : Scope, e.Declares st.scopes scope
        ((formals.names.map fun name => (name, none)) ++ defined) ∧ Renders law st.scopes.stack.size
        (Compilation.flushed st.scopes.stack.size
          { scopes := st.scopes.within e, store := st.store }) heap' after fun pool =>
        TranslatesWith pool (.ofNames names :: namings) definitions true expr res.code.stream := by
  have plain : (formals.names.map fun name => (name, (none : Option Datum))).map Prod.fst =
      formals.names := by
    rw [List.map_map]
    exact List.map_id _
  have same : ((formals.names.map fun name => (name, none)) ++ defined).map Prod.fst = names := by
    rw [List.map_append, plain, all]
  have inside (e : Scope) : st.scopes.stack.size < (st.scopes.within e).stack.size := by
    rw [Scopes.within, Array.size_push]
    exact Nat.lt_succ_self _
  have separate : formals.names.Nodup := by
    rw [all] at distinct
    exact (List.nodup_append.mp distinct).1
  obtain ⟨args, declares, run⟩ := @Scope.Declares.addAll _ _ _ []
    (Scope.declares_nil st.scopes scope) formals.names separate
  cases made.entered.symm.trans (run st.store)
  rw [List.nil_append] at declares
  obtain ⟨e, declares, valid, onward⟩ := declares_definitions faithful declares rfl
    made.roomy.valid (by rw [plain, split, ← all]; exact distinct) made.compiled
  rw [split] at declares onward
  have ready' : Ready law room st.scopes.stack.size (.ofNames names :: namings)
      { scopes := st.scopes.within e, store := st.store } := by
    refine ⟨valid, inside e, ?_, same ▸ declares.knows ready.bound ready.knows⟩
    have limit := ready.limit
    rw [Scopes.within, Array.size_push]
    omega
  have awaits := @Scope.Declares.awaits _ _ _ _ namings declares (same.symm ▸ distinct)
  have waiting : Expression.initialized ((formals.names.map fun name => (name, none)) ++ defined) =
      Expression.initialized defined := by
    simp [Expression.initialized, List.filterMap_append]
  rw [same, waiting] at awaits
  obtain ⟨-, bytes, eq, renders⟩ := writes_sequence faithful onward
    ⟨ready', _, depth, awaits, initialized⟩ read
  rw [eq]
  exact ⟨e, declares, renders⟩

omit faithful in
/-- A procedure with the code of the body as its own implements what was read. -/
theorem implements_body {code : Bytecode} {setting : Setting} (n : e.variableCount =
      ((formals.names.map fun name => (name, (none : Option Datum))) ++ defined).length)
    (fits : (enclosed name formals code e).Fits)
    (hosts : ((enclosed name formals code e).setting setting.shape).Hosts after.scopes scope)
    (renders : Renders law scope before heap after fun pool => TranslatesWith pool
      (.ofNames (formals.names ++ defined.map Prod.fst) :: namings) definitions true expr
        code.stream) :
    Implements namings (enclosed name formals code e)
      { formals, locals := defined.map Prod.fst, initializers := definitions
        body := expr } := by
  obtain ⟨first, second, same, defines, translates⟩ := renders.code _ hosts
  refine .intro rfl rfl ?_ ⟨Nat.le_of_lt (fits _ .self).1, hosts.capacity⟩ ?_ defines translates
  · simpa [Abstraction.names, enclosed] using n
  · rw [enclosed, stream_append, same, List.append_assoc]

/-- A procedure compiles to a constant that implements it. -/
theorem renders_procedure {form args : Datum} {res : Bytecode} {abstraction : Abstraction}
    (reliable : Reliable law room recur) (ready : Ready law (room + 1) scope namings st)
    (compiled : procedure recur form formals body scope name st = .ok res after)
    (given : Formals.ofDatum args = .ok formals)
    (read : Expression.procedure (Expression.read depth) namings args body st.store.heap =
      some (abstraction, heap)) (tail : Bool) :
    Renders law scope st heap after fun pool =>
      Translates pool namings tail (.lambda abstraction) res.stream := by
  obtain ⟨whole, -, declared, done, fragment, e, made, rfl, closed, same⟩ :=
    (encloses_procedure reliable ⟨ready.valid, ready.bound, ready.limit⟩ form formals body
      name).of_run compiled
  rw [Expression.procedure, given] at read
  cases split : Expression.definitions body with
  | mk defined forms =>
    cases duplicate : Formals.hasDuplicate (formals.names ++ defined.map Prod.fst) with
    | true =>
      simp only [split, duplicate] at read
      cases read
    | false =>
      simp only [split, duplicate, Bool.false_eq_true, if_false] at read
      obtain ⟨definitions, _, initialized, read⟩ := bind_some read
      obtain ⟨expr, _, body_read, read⟩ := bind_some read
      cases read
      obtain ⟨_, declares, renders⟩ := writes_body faithful ready split rfl
        (nodup_of_not_hasDuplicate duplicate) made initialized body_read
      obtain ⟨outside, e', found, -, -, n⟩ := declares.found renders.outline
      cases Option.some.inj (found.symm.trans made.found)
      obtain ⟨truncated, -⟩ := made.since.truncate ready.valid.base
      have bound := Nat.lt_of_lt_of_le ready.bound truncated.scopes.embeds.size_le
      refine ⟨whole, ?_, same.trans renders.heap, fun setting hosts => ?_⟩
      · rw [closed]
        exact (outline_addConstant ..).trans outside
      · rw [closed] at hosts
        have held := (renders_addConstant truncated.valid bound made.isStandard).code setting hosts
        obtain ⟨fits, inside⟩ := made.hosts ready.valid.base hosts
        exact .lambda held (implements_body n fits inside renders)

/-! ### Initializers -/

omit faithful in
theorem parts_ok {form : Datum} (split : parts form xs = .ok (formals, body)) :
    ∃ args, xs = args :: body ∧ Formals.ofDatum args = .ok formals := by
  cases xs with
  | nil => cases split
  | cons args rest =>
    obtain ⟨found, given, done⟩ := Except.bind_ok split
    cases done
    exact ⟨args, rfl, given⟩

omit faithful in
theorem read_lambda
    (read : Expression.special (Expression.read depth) namings "lambda" head xs heap =
      some (expr, heap')) : ∃ args body abstraction, xs = args :: body ∧
        expr = .lambda abstraction ∧
        Expression.procedure (Expression.read depth) namings args body heap =
          some (abstraction, heap') := by
  cases xs with
  | nil => cases read
  | cons args body =>
    obtain ⟨abstraction, _, read, done⟩ := bind_some read
    cases done
    exact ⟨args, body, abstraction, rfl, rfl, read⟩

section

variable (reliable : Reliable law room recur)

include reliable

variable {res : Bytecode} {d head : Datum} {xs : List Datum} {name : String}

theorem renders_initializer {pending : Initializer} {expr : Expression} {depth : Nat}
    (ready : Ready law (room + 1) scope namings st) (idle : st.scopes.Idle scope)
    (home : pending.scope = scope) (compiled : initializer recur pending st = .ok res after)
    (read : Expression.read depth namings pending.form st.store.heap = some (expr, heap)) :
    Renders law scope st heap after fun pool =>
      Translates pool namings false expr res.stream := by
  have plain (compiled : (do return (← recur pending.form { scope := pending.scope }).code) st =
      .ok res after) : Renders law scope st heap after fun pool =>
        Translates pool namings false expr res.stream := by
    obtain ⟨fragment, mid, compiled, done⟩ := bind_ok compiled
    cases done
    rw [home] at compiled
    exact (faithful.operand compiled ready.below idle read).2
  obtain ⟨index, name, form, origin⟩ := pending
  cases form with
  | atom | dotted | vector => exact plain compiled
  | list xs pos =>
    cases xs with
    | nil => exact plain compiled
    | cons head xs =>
      cases kind : head.isSymbol "lambda" with
      | false =>
        refine plain ?_
        rw [initializer] at compiled
        simpa only [Datum.list?, kind, Bool.false_eq_true, if_false] using compiled
      | true =>
        have keyword : head.symbol? = some "lambda" := beq_iff_eq.mp kind
        rw [initializer] at compiled
        simp only [Datum.list?, kind, if_true] at compiled
        obtain ⟨⟨formals, body⟩, split, made⟩ := ofExcept_ok compiled
        obtain ⟨args, rfl, given⟩ := parts_ok split
        cases depth with
        | zero => cases read
        | succ depth =>
          rw [Expression.read, Expression.form, keyword] at read
          obtain ⟨_, _, abstraction, same, rfl, read⟩ := read_lambda read
          cases same
          subst home
          exact renders_procedure faithful reliable ready made given read false

theorem renders_initializers {pending : List Initializer} {waiting : List (String × Datum)}
    {definitions : List (String × Expression)} {code : Bytecode} {limit : Nat}
    (ready : Ready law (room + 1) scope namings st) (idle : st.scopes.Idle scope)
    (awaits : List.Forall₂ (fun (pending : Initializer) (definition : String × Datum) =>
      pending.form = definition.2 ∧ pending.scope = scope ∧
        place? namings definition.1 = some (0, pending.index)) pending waiting)
    (compiled : initializers recur code pending st = .ok res after)
    (read : Expression.initializers (Expression.read limit namings) waiting st.store.heap =
      some (definitions, heap)) :
    ∃ bytes, res.stream = code.stream ++ bytes ∧ Renders law scope st heap after fun pool =>
        Defines pool namings definitions bytes := by
  induction awaits generalizing st code definitions with
  | nil =>
    cases compiled
    cases read
    exact ⟨[], (List.append_nil _).symm, .refl ready.valid fun _ => .nil⟩
  | @cons pending definition others waiting this _ ih =>
    obtain ⟨form, home, place⟩ := this
    obtain ⟨v, mid, first, rest⟩ := bind_ok compiled
    obtain ⟨expr, heap'', here, read⟩ := bind_some read
    obtain ⟨expressions, _, there, done⟩ := bind_some read
    cases done
    rw [← form] at here
    have stored := renders_initializer faithful reliable ready idle home first here
    have ready' := ready.next stored
    rw [← stored.heap] at there
    obtain ⟨bytes, eq, behind⟩ := ih ready' (stored.idle idle) rest there
    refine ⟨v.stream ++ ((ofOp .setVariable [.ofNat 0, .ofNat pending.index]).stream ++
      bytes), ?_, ?_⟩
    · rw [eq]
      simp only [stream_append, List.append_assoc]
      rfl
    · have both := stored.trans ready.bound behind
      refine { both with code := fun setting hosts => ?_ }
      obtain ⟨translates, defines⟩ := both.code setting hosts
      exact .cons place ((ready.next both).small hosts place).2 translates defines

variable {definitions : List (String × Expression)} {fragment : Fragment} {expr : Expression}
  {depth : Nat} (due : Due law (room + 1) ctx.scope namings definitions heap st)

include due

theorem renders_flush (compiled : flush recur ctx.scope st = .ok res after) :
    Renders law ctx.scope (st.flushed ctx.scope) heap after fun pool =>
      Defines pool namings definitions res.stream := by
  obtain ⟨ready, waiting, limit, awaits, initialized⟩ := due
  obtain ⟨-, ready', idle⟩ := ready.flushed
  rw [flush, look_bind] at compiled
  split at compiled
  · rw [onScopes_bind] at compiled
    obtain ⟨bytes, eq, renders⟩ := renders_initializers faithful reliable ready' idle awaits
      compiled initialized
    rw [eq]
    exact renders
  · rename_i none_waits
    have idle := Scopes.idle_of_not_hasDeferred (Bool.eq_false_iff.mpr none_waits)
    rw [Scopes.Awaits, idle] at awaits
    cases awaits
    cases compiled
    cases initialized
    rw [idle.flushed]
    exact .refl ready.valid fun _ => .nil

/-! ### Expressions -/

/-- Most forms first make up for the initializers that wait. -/
theorem writes_flushed {action : CompileM Bytecode}
    (compiled : flushed recur ctx.scope action st = .ok fragment after)
    (second : ∀ {mid after : Compilation} {res : Bytecode},
      Ready law (room + 1) ctx.scope namings mid →
      mid.scopes.Idle ctx.scope → mid.store.heap = heap → action mid = .ok res after →
        Renders law ctx.scope mid heap' after fun pool =>
          Translates pool namings ctx.tail expr res.stream) :
    Writes law ctx st namings definitions expr heap' fragment after := by
  obtain ⟨first, mid, flushed, compiled⟩ := bind_ok compiled
  obtain ⟨res, _, made, done⟩ := bind_ok compiled
  cases done
  have front := renders_flush faithful reliable due flushed
  obtain ⟨-, ready', idle⟩ := due.ready.flushed
  have back := second (ready'.next front) (front.idle idle) front.heap made
  refine ⟨rfl, (front.trans ready'.bound back).mono ?_⟩
  rintro pool ⟨defines, translates⟩
  exact ⟨first.stream, res.stream, stream_append .., defines, translates⟩

variable {form : Datum}

theorem writes_literal (compiled : (Plan.literal d).compile recur form ctx st = .ok fragment after)
    (read : Expression.quoted d heap = some (expr, heap')) :
    Writes law ctx st namings definitions expr heap' fragment after := by
  refine writes_flushed faithful reliable due compiled ?_
  intro mid after res ready' idle same made
  subst same
  exact renders_quoted ready' ctx.tail made read

theorem writes_nothing (compiled : Plan.nothing.compile recur form ctx st = .ok fragment after) :
    Writes law ctx st namings definitions (.literal .unspecified) heap fragment after := by
  refine writes_flushed faithful reliable due compiled ?_
  intro mid after res ready' idle same made
  subst same
  refine (renders_constant ready' (.inl rfl) made).mono ?_
  rintro pool ⟨index, rfl, found⟩
  exact .literal found

theorem writes_lambda {formals : Formals} {body : List Datum}
    (split : parts form xs = .ok (formals, body))
    (compiled : (Plan.lambda formals body).compile recur form ctx st = .ok fragment after)
    (read : Expression.special (Expression.read depth) namings "lambda" head xs heap =
      some (expr, heap')) : Writes law ctx st namings definitions expr heap' fragment after := by
  obtain ⟨args, rfl, given⟩ := parts_ok split
  obtain ⟨_, _, abstraction, same, rfl, read⟩ := read_lambda read
  cases same
  refine writes_flushed faithful reliable due compiled ?_
  intro mid after res ready' idle same made
  subst same
  exact renders_procedure faithful reliable ready' made given read ctx.tail

omit faithful reliable due in
theorem named_some {res : Unit} (read : Expression.named namings name heap = some (res, heap')) :
    heap' = heap ∧ ∃ depth slot, place? namings name = some (depth, slot) := by
  rw [Expression.named] at read
  cases place : place? namings name with
  | none =>
    rw [place] at read
    cases read
  | some found =>
    rw [place] at read
    cases read
    exact ⟨rfl, found.1, found.2, rfl⟩

theorem writes_reference {place : Variable}
    (compiled : (Plan.reference place).compile recur form ctx st = .ok fragment after)
    (found : place? namings name = some (place.depth, place.index)) :
    Writes law ctx st namings definitions (.variable name) heap fragment after := by
  obtain ⟨first, mid, flushed, done⟩ := bind_ok compiled
  cases done
  have front := renders_flush faithful reliable due flushed
  obtain ⟨-, ready', idle⟩ := due.ready.flushed
  refine ⟨rfl, { front with code := fun setting hosts => ?_ }⟩
  obtain ⟨near, small⟩ := (ready'.next front).small hosts found
  exact ⟨first.stream, _, stream_append .., front.code setting hosts, .variable found near small⟩

omit reliable due in
theorem renders_operands {expressions : List Expression} {code : Bytecode}
    (ready : Ready law room ctx.scope namings st) (idle : st.scopes.Idle ctx.scope)
    (compiled : operands recur ctx code xs st = .ok res after)
    (read : Expression.all (Expression.read depth namings) xs st.store.heap =
      some (expressions, heap)) :
    ∃ bytes, res.stream = code.stream ++ bytes ∧ Renders law ctx.scope st heap after fun pool =>
        TranslatesAll pool namings expressions bytes := by
  induction xs generalizing st code expressions with
  | nil =>
    cases compiled
    cases read
    exact ⟨[], (List.append_nil _).symm, .refl ready.valid fun _ => .nil⟩
  | cons item xs ih =>
    obtain ⟨v, mid, first, rest⟩ := bind_ok compiled
    obtain ⟨expr, heap'', here, read⟩ := bind_some read
    obtain ⟨others, _, there, done⟩ := bind_some read
    cases done
    obtain ⟨-, front⟩ := faithful.operand first ready idle here
    rw [← front.heap] at there
    obtain ⟨bytes, eq, back⟩ := ih (ready.next front) (front.idle idle) rest there
    refine ⟨v.code.stream ++ bytes, ?_, (front.trans ready.bound back).mono ?_⟩
    · rw [eq, stream_append, List.append_assoc]
    · rintro pool ⟨translates, all⟩
      exact .cons translates all

theorem writes_call (compiled : call recur form (head :: xs) ctx st = .ok fragment after)
    (read : Expression.application (Expression.read depth) namings head xs heap =
      some (expr, heap')) : Writes law ctx st namings definitions expr heap' fragment after := by
  obtain ⟨first, mid, flushed, compiled⟩ := bind_ok compiled
  obtain ⟨code, _, made, done⟩ := bind_ok compiled
  cases done
  obtain ⟨callee, heap'', here, read⟩ := bind_some read
  obtain ⟨args, _, there, done⟩ := bind_some read
  cases done
  have front := renders_flush faithful reliable due flushed
  obtain ⟨-, ready', idle⟩ := due.ready.flushed
  have all : Expression.all (Expression.read depth namings) (head :: xs) mid.store.heap =
      some (callee :: args, heap') := by
    rw [front.heap, Expression.all]
    simp only [bind, StateT.bind, here, Option.bind_some, there]
    rfl
  obtain ⟨bytes, eq, back⟩ := renders_operands faithful
    (ready'.next front).below (front.idle idle) made all
  refine ⟨rfl, (front.trans ready'.bound back).mono ?_⟩
  rintro pool ⟨defines, translates⟩
  refine ⟨first.stream, _, ?_, defines, .call translates⟩
  change (code ++ _).stream = _
  rw [stream_append, eq, stream_append, List.append_assoc, List.append_assoc]
  rfl

omit reliable in
theorem writes_conditional {test consequent : Datum} {alternate : Option Datum}
    {tested chosen other : Expression} {heap₁ heap₂ : Heap}
    (compiled : (Plan.conditional test consequent alternate).compile recur form ctx st =
      .ok fragment after)
    (read_test : Expression.read depth namings test heap = some (tested, heap₁))
    (read_chosen : Expression.read depth namings consequent heap₁ = some (chosen, heap₂))
    (read_other : (match alternate with
      | some form => Expression.read depth namings form heap₂
      | none => some (.literal .unspecified, heap₂)) = some (other, heap')) :
    Writes law ctx st namings definitions (.conditional tested chosen other) heap'
      fragment after := by
  obtain ⟨condition, state₁, first, compiled⟩ := bind_ok compiled
  obtain ⟨yes, state₂, second, compiled⟩ := bind_ok compiled
  obtain ⟨-, ready', idle⟩ := due.ready.flushed
  have front := (faithful.expression first due.below read_test).renders
  change Renders law ctx.scope (st.flushed ctx.scope) heap₁ state₁ _ at front
  have ready₁ := ready'.next front
  have idle₁ := front.idle idle
  rw [← front.heap] at read_chosen
  obtain ⟨-, mid⟩ := faithful.operand second ready₁.below idle₁ read_chosen
  change Renders law ctx.scope state₁ heap₂ state₂ _ at mid
  have ready₂ := ready₁.next mid
  have idle₂ := mid.idle idle₁
  rw [← mid.heap] at read_other
  obtain ⟨no, back, rfl⟩ : ∃ no : Bytecode, (Renders law ctx.scope state₂ heap' after fun pool =>
        Translates pool namings ctx.tail other no.stream) ∧ fragment = yields (condition.code ++
        .ofOp .conditionalJump [.ofNat (yes.code.size + Op.jump.size)] ++ yes.code ++
        .ofOp .jump [.ofNat no.size] ++ no) := by
    cases alternate with
    | none =>
      obtain ⟨no, _, third, done⟩ := bind_ok compiled
      cases done
      cases read_other
      refine ⟨no, (renders_constant ready₂ (.inl rfl) third).mono ?_, rfl⟩
      rintro pool ⟨index, rfl, found⟩
      exact .literal found
    | some form =>
      obtain ⟨branch, _, third, done⟩ := bind_ok compiled
      cases done
      exact ⟨branch.code, (faithful.operand third ready₂.below idle₂ read_other).2, rfl⟩
  refine ⟨rfl, ((front.trans ready'.bound mid).trans ready'.bound back).mono ?_⟩
  rintro pool ⟨⟨⟨before, code, same, defines, translates⟩, branch⟩, branch'⟩
  refine ⟨before, _, ?_, defines, .conditional translates branch branch'⟩
  simp only [yields, stream_append, same, List.append_assoc, length_stream]

omit reliable in
theorem writes_assignment {v : Datum} {assigned : Expression} {place : Variable}
    (compiled : (Plan.assignment place v).compile recur form ctx st =
      .ok fragment after) (found : place? namings name = some (place.depth, place.index))
    (read : Expression.read depth namings v heap = some (assigned, heap')) :
    Writes law ctx st namings definitions (.assignment name assigned) heap' fragment after := by
  obtain ⟨res, mid, first, compiled⟩ := bind_ok compiled
  obtain ⟨constant, _, second, done⟩ := bind_ok compiled
  cases done
  obtain ⟨-, ready', idle⟩ := due.ready.flushed
  have front := (faithful.expression first due.below read).renders
  change Renders law ctx.scope (st.flushed ctx.scope) heap' mid _ at front
  have back := renders_constant (ready'.next front) (.inl rfl) second
  rw [front.heap] at back
  have both := front.trans ready'.bound back
  refine ⟨rfl, { both with code := fun setting hosts => ?_ }⟩
  obtain ⟨⟨before, code, same, defines, translates⟩, index, rfl, held⟩ := both.code setting hosts
  obtain ⟨near, small⟩ := (ready'.next both).small hosts found
  refine ⟨before, _, ?_, defines, .assignment found near small translates held⟩
  change (res.code ++ _ ++ _).stream = _
  simp only [stream_append, same, List.append_assoc]

omit faithful reliable due in
theorem place_of_read (symbol : d.symbol? = some name)
    (read : Expression.read depth namings d heap = some (expr, heap')) :
    ∃ depth slot, place? namings name = some (depth, slot) := by
  cases depth with
  | zero => cases read
  | succ depth =>
    rw [Datum.symbol?.eq_def] at symbol
    split at symbol
    · cases symbol
      obtain ⟨_, _, known, -⟩ := bind_some read
      exact (named_some known).2
    · cases symbol

variable {plan : Plan}

/-- Special forms are read by their keywords, as they are compiled. -/
theorem writes_special {keyword : String} (symbol : head.symbol? = some keyword)
    (planned : Plan.ofKeyword (st.scopes.resolve ctx.scope) ctx form head keyword xs = .ok plan)
    (compiled : plan.compile recur form ctx st = .ok fragment after)
    (read : Expression.special (Expression.read depth) namings keyword head xs heap =
      some (expr, heap')) : Writes law ctx st namings definitions expr heap' fragment after := by
  by_cases lam : keyword = "lambda"
  · subst lam
    obtain ⟨⟨formals, body⟩, split, planned⟩ := Except.bind_ok planned
    cases planned
    exact writes_lambda faithful reliable due split compiled read
  rw [Expression.special.eq_def] at read
  split at read
  · split at read
    · cases planned
      exact writes_literal faithful reliable due compiled read
    · cases read
  · split at read
    · obtain ⟨test, _, first, read⟩ := bind_some read
      obtain ⟨consequent, _, second, read⟩ := bind_some read
      cases read
      cases planned
      exact writes_conditional faithful due compiled first second rfl
    · obtain ⟨test, _, first, read⟩ := bind_some read
      obtain ⟨consequent, _, second, read⟩ := bind_some read
      obtain ⟨alternate, _, third, read⟩ := bind_some read
      cases read
      cases planned
      exact writes_conditional faithful due compiled first second third
    · cases read
  · split at read
    · cases read
      cases planned
      exact writes_nothing faithful reliable due compiled
    · cases xs with
      | nil => cases read
      | cons item xs =>
        cases planned
        obtain ⟨pushes, bytes, eq, renders⟩ := writes_sequence faithful compiled due.below read
        refine ⟨pushes, ?_⟩
        rw [eq]
        exact renders
  · exact absurd rfl lam
  · split at read
    · obtain ⟨_, _, known, read⟩ := bind_some read
      obtain ⟨v, _, here, read⟩ := bind_some read
      cases read
      obtain ⟨rfl, depth', slot, place⟩ := named_some known
      obtain ⟨id, found⟩ := due.ready.knows _ depth' slot place
      simp only [Plan.ofKeyword, Datum.symbol?, found, Plan.named] at planned
      cases planned
      exact writes_assignment faithful due compiled place here
    · cases read
  iterate 5 cases read
  -- Where a procedure is called by name, the name is not that of a transformer.
  · obtain ⟨callee, _, here, -⟩ := bind_some read
    obtain ⟨depth', slot, place⟩ := place_of_read symbol here
    obtain ⟨id, found⟩ := due.ready.knows keyword depth' slot place
    have call : plan = .call head xs := by
      rw [Plan.ofKeyword.eq_def] at planned
      split at planned <;> simp_all
    subst call
    exact writes_call faithful reliable due compiled read

theorem writes_form (planned : Plan.ofDatum (st.scopes.resolve ctx.scope) ctx d = .ok plan)
    (compiled : plan.compile recur d ctx st = .ok fragment after)
    (read : Expression.read depth namings d heap = some (expr, heap')) :
    Writes law ctx st namings definitions expr heap' fragment after := by
  cases depth with
  | zero => cases read
  | succ depth =>
    cases d with
    | atom v pos =>
      cases v
      case symbol name =>
        obtain ⟨_, _, known, done⟩ := bind_some read
        cases done
        obtain ⟨rfl, depth, slot, place⟩ := named_some known
        obtain ⟨id, found⟩ := due.ready.knows name depth slot place
        simp only [Plan.ofDatum, found, Plan.named] at planned
        cases planned
        exact writes_reference faithful reliable due compiled place
      all_goals
        cases planned
        exact writes_literal faithful reliable due compiled read
    | vector =>
      cases planned
      exact writes_literal faithful reliable due compiled read
    | dotted => cases read
    | list xs pos =>
      cases xs with
      | nil => cases read
      | cons head xs =>
        rw [Expression.read, Expression.form] at read
        cases symbol : head.symbol? with
        | none =>
          simp only [Plan.ofDatum, symbol] at read planned
          cases planned
          exact writes_call faithful reliable due compiled read
        | some keyword =>
          simp only [Plan.ofDatum, symbol] at read planned
          exact writes_special faithful reliable due symbol planned compiled read

end

end

theorem definition_ok {v : Option Datum} (meaning : Expression.definition? d = some (name, v)) :
    ∃ keyword target rest pos, d = .list (keyword :: target :: rest) pos ∧
      keyword.symbol? = some "define" ∧ definition d target rest = pure (name, v) := by
  rw [Expression.definition?.eq_def] at meaning
  split at meaning
  · rename_i keyword target rest pos
    split at meaning
    · rename_i kind
      refine ⟨keyword, target, rest, pos, rfl, beq_iff_eq.mp kind, ?_⟩
      split at meaning <;> cases meaning <;> rfl
    · cases meaning
  · cases meaning

theorem faithful_form (faithful : Faithful law room recur) (reliable : Reliable law room recur) :
    Faithful law (room + 1) (form recur) where
  definition meaning compiled := by
    obtain ⟨keyword, target, rest, pos, rfl, symbol, known⟩ := definition_ok meaning
    rw [form, look_bind] at compiled
    obtain ⟨plan, planned, compiled⟩ := ofExcept_ok compiled
    simp only [Plan.ofDatum, symbol, Plan.ofKeyword] at planned
    obtain ⟨-, eq⟩ := Plan.defining_cases planned
    cases eq
    simp only [Plan.compile, known, pure_bind] at compiled
    obtain ⟨_, _, bound, done⟩ := bind_ok compiled
    cases done
    exact ⟨rfl, bound⟩
  expression compiled due read := by
    rw [form, look_bind] at compiled
    obtain ⟨plan, planned, compiled⟩ := ofExcept_ok compiled
    exact writes_form faithful reliable due planned compiled read

/-- Whatever is read as an expression compiles to code of it. -/
theorem faithful_compile (room : Nat) : Faithful law room (compile room) := by
  induction room with
  | zero => exact ⟨nofun, nofun⟩
  | succ room faithful => exact faithful_form faithful (reliable_compile room)

end Compiler

end MiniScheme
