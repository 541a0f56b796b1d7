import MiniScheme.Proofs.Compiler.Waiting
import MiniScheme.Proofs.Session.Safety

/-!
# When definitions are initialized

The definitions of a body wait for the first code that could need them. Then their initializers are
compiled by the slots of their variables, each followed by the instruction that stores its value,
and before any other code. A name that has a slot already, such as an argument, is initialized
before those that are new, wherever its definition is written.
-/

namespace MiniScheme

namespace Compiler

open CompileM Scopes Bytecode

/-! ### What a body is made of -/

/-- What a form is to the body that it stands in. -/
inductive Makeup where
  | definition (target : Datum) (rest : List Datum)
  | transformer
  | forms (forms : List Datum)
  | scoped (recursive : Bool) (entries : Datum) (body : List Datum)
  | expansion (expansion : Datum)
  | expression

/-- What becomes of a form that may be a use of a transformer. -/
def used (scopes : Scopes) (scope : ScopeRef) (name : String)
    (expand : TransformerKind → Except CompileError Datum) : Makeup :=
  match scopes.resolve scope name with
  | some (.transformer transformer) => match expand transformer.kind with
    | .ok expansion => .expansion expansion
    | .error _ => .expression
  | _ => .expression

def makeup (scopes : Scopes) (scope : ScopeRef) (form : Datum) : Makeup :=
  let use := fun name => used scopes scope name fun kind => kind.expand (scopes.meaning? scope) form
  match form with
  | .atom (.symbol name) _ => use name
  | .list (head :: items) _ => match head.symbol?, items with
    | some "define", target :: rest => .definition target rest
    | some "define-syntax", _ => .transformer
    | some "begin", first :: forms => .forms (first :: forms)
    | some "let-syntax", entries :: body => .scoped false entries body
    | some "letrec-syntax", entries :: body => .scoped true entries body
    | some "set!", target :: _ => match target.symbol? with
      | some name => used scopes scope name fun kind =>
          kind.expandAssignment (scopes.meaning? scope) form
      | none => .expression
    | some name, _ =>
      if name ∈ ["quote", "quasiquote", "if", "begin", "lambda"] then .expression else use name
    | none, _ => .expression
  | _ => .expression

/-- The code of a sequence before its next form. -/
def dropped (done : Fragment) : Bytecode :=
  if done.pushes then done.code ++ .ofOp .pop else done.code

/-- The context of the next form of a sequence. -/
def nextContext (context : Context) (done : Fragment) (forms : List Datum) : Context :=
  { context with
    tail := context.tail && forms.isEmpty
    started := context.started || !(dropped done).isEmpty }

/-- The code of the other branch of a conditional. -/
def otherwise (recur : Recur) (context : Context) : Option Datum → CompileM Bytecode
  | some form => do return (← recur form context.branch).code
  | none => CompileM.constant context.scope .unspecified

mutual

/-- `Unfolds room context form state events`: what happens while a form of a body is compiled. The
definitions in it are met in the order in which they are written. -/
inductive Unfolds : Nat → Context → Datum → Compilation → List Event → Prop
  | definition {room : Nat} {context : Context} {form target : Datum} {rest : List Datum}
      {state : Compilation} {name : String} {value : Option Datum} :
      makeup state.scopes context.scope form = .definition target rest →
      definition form target rest state = .ok (name, value) state →
      Unfolds (room + 1) context form state [.define
        (state.scopes.addVariable context.scope name value none state.store.heap).1.index value]
  | transformer {room : Nat} {context : Context} {form : Datum} {state : Compilation} :
      makeup state.scopes context.scope form = .transformer →
      Unfolds (room + 1) context form state []
  | forms {room : Nat} {context : Context} {form : Datum} {forms : List Datum}
      {state : Compilation} {events : List Event} :
      makeup state.scopes context.scope form = .forms forms →
      UnfoldsAll room context {} forms state events → Unfolds (room + 1) context form state events
  | scoped {room : Nat} {context : Context} {form entries : Datum} {bindings body : List Datum}
      {recursive : Bool} {state ready : Compilation} {scope : ScopeRef} {scopes : Scopes}
      {events : List Event} :
      makeup state.scopes context.scope form = .scoped recursive entries body →
      entries.list? = some bindings →
      state.scopes.pushSyntacticScope context.scope = (scope, scopes) →
      bindLocal scope (if recursive then scope else context.scope) bindings { state with scopes } =
        .ok () ready →
      UnfoldsAll room { context with scope } {} body ready events →
      Unfolds (room + 1) context form state events
  | expansion {room : Nat} {context : Context} {form expansion : Datum} {state : Compilation}
      {events : List Event} (store : Store) :
      makeup state.scopes context.scope form = .expansion expansion →
      Unfolds room context expansion { state with store } events →
      Unfolds (room + 1) context form state events
  /-- An expression comes behind the initializers that wait, with the code that it has when nothing
  waits. -/
  | expression {room : Nat} {context : Context} {form : Datum} {plan : Plan}
      {state settled after : Compilation} {batch : List Stored} {code : Bytecode} :
      makeup state.scopes context.scope form = .expression →
      Plan.ofDatum (state.scopes.resolve context.scope) context form = .ok plan →
      Flushes room context.scope state batch settled →
      plan.compile (compile room) form context settled = .ok (yields code) after →
      Unfolds (room + 1) context form state [.flush batch, .emit code.stream]
  /-- A conditional begins with its test, and when the branches are compiled nothing waits. -/
  | conditional {room : Nat} {context : Context} {form condition consequent : Datum}
      {alternate : Option Datum} {state tested chosen after : Compilation} {test yes : Fragment}
      {no : Bytecode} {events : List Event} :
      makeup state.scopes context.scope form = .expression →
      Plan.ofDatum (state.scopes.resolve context.scope) context form =
        .ok (.conditional condition consequent alternate) →
      Unfolds room context.operand condition state events →
      compile room condition context.operand state = .ok test tested →
      tested.scopes.Idle context.scope →
      compile room consequent context.branch tested = .ok yes chosen →
      chosen.scopes.Idle context.scope →
      otherwise (compile room) context alternate chosen = .ok no after →
      Unfolds (room + 1) context form state (events ++ [.emit
        (.ofOp .conditionalJump [.ofNat (yes.code.size + Op.jump.size)] ++ yes.code ++
          .ofOp .jump [.ofNat no.size] ++ no : Bytecode).stream])
  /-- An assignment begins with the value that is assigned. -/
  | assignment {room : Nat} {context : Context} {form value : Datum} {place : Variable}
      {state assigned after : Compilation} {result : Fragment} {code : Bytecode}
      {events : List Event} :
      makeup state.scopes context.scope form = .expression →
      Plan.ofDatum (state.scopes.resolve context.scope) context form =
        .ok (.assignment place value) →
      Unfolds room context.operand value state events →
      compile room value context.operand state = .ok result assigned →
      assigned.scopes.Idle context.scope →
      CompileM.constant context.scope .unspecified assigned = .ok code after →
      Unfolds (room + 1) context form state (events ++ [.emit
        (.ofOp .setVariable [.ofNat place.depth, .ofNat place.index] ++ code : Bytecode).stream])

/-- What happens while the forms of a sequence are compiled, one after the other. -/
inductive UnfoldsAll : Nat → Context → Fragment → List Datum → Compilation → List Event → Prop
  | nil {room : Nat} {context : Context} {done : Fragment} {state : Compilation} :
      UnfoldsAll room context done [] state []
  | cons {room : Nat} {context : Context} {done next : Fragment} {form : Datum}
      {forms : List Datum} {state middle : Compilation} {events others : List Event} :
      Unfolds room (nextContext context done forms) form state events →
      compile room form (nextContext context done forms) state = .ok next middle →
      UnfoldsAll room context { code := dropped done ++ next.code, pushes := next.pushes } forms
        middle others →
      UnfoldsAll room context done (form :: forms) state
        ((if done.pushes then [.emit (ofOp .pop).stream] else []) ++ (events ++ others))

end

/-! ### What is known of a form -/

/-- The log of a form agrees with what waits before and after it. -/
def Unrolls (room : Nat) (context : Context) (form : Datum) (state : Compilation)
    (fragment : Fragment) (after : Compilation) : Prop :=
  state.scopes.Level → ∃ events, Unfolds room context form state events ∧
    fragment.code.stream = events.flatMap Event.bytes ∧
    Runs (state.scopes.queue (state.scopes.owner context.scope)) events
      (after.scopes.queue (state.scopes.owner context.scope))

/-- Forms that nest at most `room` deep are put together as their definitions ask. -/
def Orderly (discipline : Discipline) (room : Nat) : Prop :=
  ∀ (context : Context) {datum : Datum} {state after : Compilation} {fragment : Fragment},
    state.Roomy discipline room context.scope →
      compile room datum context state = .ok fragment after →
        Unrolls room context datum state fragment after

variable {discipline law : Discipline} {room : Nat} {state st after : Compilation} {ctx : Context}
  {scope : ScopeRef} {form : Datum} {xs : List Datum} {fragment : Fragment}

theorem emits_of_run (ctx : Context) (roomy : st.Roomy law room ctx.scope)
    (run : compile room form ctx st = .ok fragment after) :
    st.Advances law after ∧ after.scopes.stack.size = st.scopes.stack.size ∧
      Emits ctx st.scopes after.scopes fragment :=
  ((reliable_compile room).emits form ctx st roomy.valid roomy.bound roomy.limit).of_run run

/-! ### Sequences -/

section

variable (orderly : Orderly law room)

include orderly

/-- The log of a sequence of which a part has been compiled. -/
theorem unrolls_sequenceFrom (roomy : st.Roomy law room ctx.scope)
    (forms : List Datum) {done : Fragment}
    (run : sequenceFrom (compile room) ctx done forms st = .ok fragment after)
    (level : st.scopes.Level) (idle : done.pushes = true →
      st.scopes.queue (st.scopes.owner ctx.scope) = .empty) :
    ∃ events, UnfoldsAll room ctx done forms st events ∧
      fragment.code.stream = done.code.stream ++ events.flatMap Event.bytes ∧
      Runs (st.scopes.queue (st.scopes.owner ctx.scope)) events
        (after.scopes.queue (st.scopes.owner ctx.scope)) := by
  induction forms generalizing st done with
  | nil =>
    cases run
    exact ⟨[], .nil, by simp, .done _⟩
  | cons form forms ih =>
    rw [sequenceFrom] at run
    obtain ⟨next, mid, compiled, run⟩ := bind_ok run
    obtain ⟨advances, size, emits⟩ := emits_of_run (nextContext ctx done forms) roomy compiled
    have owner : mid.scopes.owner ctx.scope = st.scopes.owner ctx.scope := emits.emission.owner
    obtain ⟨events, unfolds, eq, runs⟩ :=
      orderly (nextContext ctx done forms) roomy compiled level
    obtain ⟨others, unfolds', eq', runs'⟩ := ih (roomy.next advances size) run
      (emits.emission.aside level).level fun pushes => owner.symm ▸ emits.settles pushes level
    rw [owner] at runs'
    refine ⟨_, .cons unfolds compiled unfolds', ?_, .append ?_ (runs.append runs')⟩
    · simp only [eq', stream_append, eq, List.flatMap_append]
      cases done.pushes <;> simp [Event.bytes]
    · split
      · rename_i pushes
        change Runs (st.scopes.queue (st.scopes.owner ctx.scope)) _
          (st.scopes.queue (st.scopes.owner ctx.scope))
        rw [idle pushes]
        exact .emit _ (.done _)
      · exact .done _

end

/-! ### Procedures and initializers -/

/-- The code makes a procedure, and this is what happened while its body was compiled. -/
def Encloses (room : Nat) (formals : Formals) (body : List Datum) (outer : ScopeRef)
    (state : Compilation) (code : Bytecode) (after : Compilation) : Prop :=
  ∃ (ready : Compilation) (scopes : Scopes) (lambda : Lambda) (events : List Event),
    (formals.names.forM fun argument =>
      CompileM.addVariable state.scopes.stack.size argument none)
        { state with scopes := (state.scopes.pushValueScope outer).2 } = .ok () ready ∧
    UnfoldsAll room (.ofBody state.scopes.stack.size) {} body ready events ∧ Initializes events ∧
    lambda.body.stream = events.flatMap Event.bytes ++ (ofOp .return).stream ∧
    code = .ofOp .lambda [.ofNat (scopes.addConstant outer (.lambda lambda)).1] ∧
    after.scopes = (scopes.addConstant outer (.lambda lambda)).2

/-- The body of a procedure has its definitions in a scope of its own. -/
theorem Orderly.encloses (orderly : Orderly law room) {outer : ScopeRef}
    (roomy : st.Roomy law (room + 1) outer) {formals : Formals} {body : List Datum}
    {name : Option String} {code : Bytecode}
    (run : procedure (compile room) form formals body outer name st = .ok code after)
    (level : st.scopes.Level) : Encloses room formals body outer st code after := by
  obtain ⟨-, -, ready, done, res, e, made, rfl, same, -⟩ :=
    (encloses_procedure (reliable_compile room) roomy form formals body name).of_run run
  obtain ⟨level, idle⟩ := made.idle level
  obtain ⟨events, unfolds, eq, runs⟩ := @unrolls_sequenceFrom _ _ _ _
    (.ofBody st.scopes.stack.size) _ orderly made.roomy body _ made.compiled level nofun
  have settled := made.settles level
  change Runs (ready.scopes.queue (ready.scopes.owner st.scopes.stack.size)) _
    (done.scopes.queue (ready.scopes.owner st.scopes.stack.size)) at runs
  rw [settled, made.owner, idle] at runs
  refine ⟨ready, _, _, events, made.entered, unfolds, runs.initializes, ?_, rfl, same⟩
  rw [enclosed, stream_append, eq]
  rfl

section

variable {plan : Plan} (roomy : st.Roomy law (room + 1) ctx.scope)
  (shape : makeup st.scopes ctx.scope form = .expression)
  (planned : Plan.ofDatum (st.scopes.resolve ctx.scope) ctx form = .ok plan)

include roomy shape planned

end

section

variable (orderly : Orderly law room)
  (roomy : st.Roomy law (room + 1) ctx.scope)

include orderly roomy

end

/-- What a form with the plan is to the body that it stands in. -/
def Plan.Shows : Plan → Makeup → Prop
  | .expansion result _, shape => shape = .expansion result
  | .sequence first others, shape => shape = .forms (first :: others)
  | .definition target rest, shape => shape = .definition target rest
  | .transformer _ _, shape => shape = .transformer
  | .scoped recursive bindings first body, shape => ∃ entries,
    shape = .scoped recursive entries (first :: body) ∧ entries.list? = some bindings
  | _, shape => shape = .expression

section

variable {scopes : Scopes} {plan : Plan}

end

/-- The code delivers a datum of its own, and this is what happened while it was compiled. -/
def Delivers (datum : Datum) (scope : ScopeRef) (state : Compilation) (code : Bytecode)
    (after : Compilation) : Prop :=
  ∃ (events : List Event) (last : List Stored) (fragment : Fragment) (middle settled : Compilation),
    Unfolds maxDepth (.ofTopLevel scope) datum state events ∧
    compile maxDepth datum (.ofTopLevel scope) state = .ok fragment middle ∧
    Flushes maxDepth scope middle last settled ∧
    Initializes (events ++ [.flush last]) ∧
    code.stream = (events ++ [Event.flush last]).flatMap Event.bytes ++
      (ofOp (if fragment.pushes then .exit else .lambdaExit)).stream ∧
    after.scopes.Level ∧ after.scopes.queue (after.scopes.owner scope) = .empty

end Compiler

end MiniScheme
