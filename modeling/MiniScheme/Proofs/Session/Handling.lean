import MiniScheme.Proofs.Session.Attained

/-!
# How requests are handled

Each request leaves the scopes and the machine of a session in order, and what it reports as an
error is never that code was found broken. As long as code stays within what the operands of
instructions can express, this goes for any request at any time: while a computation is suspended,
after a failure, or after a collection. A request is made of things that happen to sessions, so
that no request leads to a session that has not come about as sessions do.
-/

namespace MiniScheme

namespace Session

variable {s before after : Session} {good : Prop}

structure Secure (session : Session) : Prop where
  arises : session.Arises
  fits : session.Fits

theorem Secure.serves (secure : s.Secure) : s.machine.Serves s.scopes := by
  obtain ⟨_, _, attained⟩ := secure.arises
  exact attained.capped.1

theorem Handles.secure (handles : before.Handles good after) (secure : before.Secure)
    (fits : after.Fits) : after.Secure ∧ good :=
  ⟨⟨handles.arises secure.arises, fits⟩, handles.met secure.arises fits⟩

def Blameless {α : Type} : Except ScriptError α → Prop
  | .ok _ => True
  | .error error => ¬ error.IsInternal

theorem not_internal_ofCompile (error : CompileError) : ¬ (ScriptError.ofCompile error).IsInternal := by
  rintro ⟨fault, caused, -⟩
  cases caused

theorem not_internal_ofRead (src : Source) (error : ReadError) :
    ¬ (ScriptError.ofRead src error).IsInternal := by
  rintro ⟨fault, caused, -⟩
  cases caused

/-- A machine is not suspended when a datum has been loaded. -/
theorem suspended_load {loaded : Session} {d : Datum}
    (loads : s.load d = (.ok (), loaded)) : loaded.machine.suspended = none := by
  unfold load at loads
  split at loads
  · cases loads
  · rename_i code mid _
    cases found : mid.machine.heap.closure? mid.machine.topClosure with
    | none =>
      simp only [Machine.append, found] at loads
      cases loads
    | some res =>
      obtain ⟨lam, parent⟩ := res
      simp only [Machine.append_eq found] at loads
      cases loads
      rfl

/-- Loading neither looks at what is queued or running nor changes it. -/
theorem load_queue (d : Datum) (s : Session) : ∃ out m scopes,
    ∀ pending running last, load d { s with pending, running, last } =
      (out, { s with machine := m, scopes, pending, running, last }) := by
  obtain ⟨m, scopes, src, _, _, _⟩ := s
  simp only [load, compile]
  generalize m.onStore _ = compiled
  obtain ⟨⟨out, scopes⟩, m⟩ := compiled
  cases out with
  | error error => exact ⟨_, _, _, fun _ _ _ => rfl⟩
  | ok code =>
    dsimp only
    cases m.append _ code <;> exact ⟨_, _, _, fun _ _ _ => rfl⟩

/-- A session does not run anything once a text has been queued. -/
theorem running_start (text : String) (s : Session) : (s.start text).2.running = false := by
  simp only [start]
  split <;> rfl

/-! ### Running data -/

theorem runMachine_eq {σ : Type} (observe : Op → σ → σ) (cycles : Nat) (observed : σ) (s : Session) :
    s.runMachine observe cycles observed = ((s.machine.execute observe observed cycles).1,
        (s.machine.execute observe observed cycles).2.1,
        { s with machine := (s.machine.execute observe observed cycles).2.2 }) := rfl

section

variable (serves : s.machine.Serves s.scopes)

include serves

theorem handles_runMachine (running : s.running = true) (cycles : Nat) :
    ∃ out m, s.machine.execute (fun _ => id) () cycles = (out, (), m) ∧ s.Handles (Blameless out)
        { s with machine := m, running := Machine.isUnfinished out } := by
  cases suspended : s.machine.isSuspended with
  | true =>
    refine ⟨.ok none, s.machine, by simp [Machine.execute, suspended], ?_⟩
    obtain ⟨m, scopes, src, pending, _, last⟩ := s
    cases running
    exact ⟨serves, .refl _, id, fun _ _ => trivial⟩
  | false =>
    have active : s.machine.suspended = none := Option.not_isSome_iff_eq_none.mp
      (Bool.eq_false_iff.mp suspended)
    have executed : s.machine.execute (fun _ => id) () cycles =
        s.machine.run (fun _ => id) (Machine.budget cycles) () := by
      simp only [Machine.execute, suspended, Bool.false_eq_true, if_false]
    rw [executed]
    rcases ran : s.machine.run (fun _ => id) (Machine.budget cycles) () with
      ⟨out, _, m⟩
    have handles := (becomes_run serves running active ran).handles trivial
    refine ⟨out, m, rfl, handles.serves, handles.precedes, handles.arises, ?_⟩
    rintro ⟨_, _, attained⟩ fits
    obtain ⟨-, -, stocked, abides⟩ := attained.capped.2 (handles.precedes.fits fits)
    have runs := abides.runs running active
    obtain ⟨-, stops⟩ := runs.run (fun _ => id) (Machine.budget cycles) () stocked
    rw [ran] at stops
    match out, stops with
    | .ok _, _ => trivial
    | .error error, ⟨_, _, _, blames⟩ => exact blames.not_internal

/-- Each datum is loaded and then run; what was compiled for those before it stays. -/
theorem handles_runData (cycles : Nat) (data : List Datum) (idle : s.running = false) :
    s.Handles (Blameless (runData (fun _ => id) cycles data () s).1)
      (runData (fun _ => id) cycles data () s).2.2 := by
  induction data generalizing s with
  | nil => exact (becomes_queue serves s.source [] .unspecified).handles trivial
  | cons d data ih =>
    obtain ⟨scopes, store, -, -, out⟩ := load_spec serves d
    rcases out with ⟨error, compiles, failed⟩ | ⟨code, lam, compiles, loads, -⟩
    · have compiled := becomes_compile serves d (.inr rfl)
      rw [compiles] at compiled
      have queued := (compiled.handles (not_internal_ofCompile error)).then
        (becomes_queue compiled.serves s.source [] s.last)
      simp only [runData, failed, abandon]
      obtain ⟨m, _, src, pending, _, last⟩ := s
      cases idle
      exact queued
    · have loaded := handles_load serves compiles loads
      obtain ⟨out, m, ran, handles⟩ := handles_runMachine loaded.serves rfl cycles
      have unfolded : ((s.advanced scopes store).loaded lam code).runMachine (fun _ => id)
          cycles () = (out, (),
            { (s.advanced scopes store).loaded lam code with machine := m }) := by
        rw [runMachine_eq, ran]
      have handles := loaded.trans handles
      have queued (pending : List Datum) (last : Value) :=
        becomes_queue handles.serves s.source pending last
      simp only [runData, loads, unfolded]
      match out, handles, queued with
      | .error error, handles, queued => exact handles.then (queued [] s.last)
      | .ok none, handles, queued => exact handles.then (queued data s.last)
      | .ok (some v), handles, queued =>
        have followed := (handles.mono fun _ => trivial).then (queued s.pending v)
        obtain ⟨_, _, src, pending, _, last⟩ := s
        cases idle
        exact followed.trans (ih followed.serves rfl)

theorem handles_execute (cycles : Nat) :
    s.Handles (Blameless (s.execute cycles).1) (s.execute cycles).2 := by
  cases running : s.running with
  | false =>
    simp only [execute, executeWith, running, Bool.false_eq_true, if_false]
    exact handles_runData serves cycles s.pending running
  | true =>
    obtain ⟨out, m, ran, handles⟩ := handles_runMachine serves running cycles
    have queued (pending : List Datum) (last : Value) :=
      becomes_queue handles.serves s.source pending last
    simp only [execute, executeWith, running, if_true, runMachine_eq, ran]
    match out, handles, queued with
    | .error error, handles, queued => exact handles.then (queued [] s.last)
    | .ok none, handles, queued =>
      obtain ⟨_, scopes, src, pending, _, last⟩ := s
      cases running
      exact handles
    | .ok (some v), handles, queued =>
      have followed := (handles.mono fun _ => trivial).then (queued s.pending v)
      exact followed.trans (handles_runData followed.serves cycles s.pending rfl)

/-! ### Requests -/

theorem handles_start (text : String) :
    s.Handles (Blameless (s.start text).1) (s.start text).2 := by
  have cancelled := becomes_cancel serves
  simp only [start, readText]
  cases read { text, name := s.cancel.source } with
  | ok data =>
    exact (cancelled.handles trivial).then
      (becomes_queue cancelled.serves s.cancel.source data s.cancel.last)
  | error error => exact cancelled.handles (not_internal_ofRead _ error)

theorem handles_evaluate (text : String) :
    s.Handles (Blameless (s.evaluate text).1) (s.evaluate text).2 := by
  have started := handles_start serves text
  rw [evaluate]
  generalize s.start text = res at started
  obtain ⟨out, queued⟩ := res
  cases out with
  | error error => exact started
  | ok =>
    have executed := Handles.trans started (handles_execute started.serves 0)
    dsimp only
    generalize queued.execute 0 = res at executed
    obtain ⟨out, after⟩ := res
    match out with
    | .error error => exact executed
    | .ok (some v) => exact executed
    | .ok none =>
      refine executed.mono fun _ => ?_
      rintro ⟨fault, caused, -⟩
      cases caused

theorem handles_evaluateAs (src text : String) :
    s.Handles (Blameless (s.evaluateAs src text).1) (s.evaluateAs src text).2 := by
  have named := becomes_queue serves (some src) s.pending s.last
  have evaluated := (named.handles trivial).trans (handles_evaluate named.serves text)
  exact evaluated.then (becomes_queue evaluated.serves s.source _ _)

theorem handles_listData (data : List Datum) (listing : String) :
    s.Handles (Blameless (listData data listing s).1) (listData data listing s).2 := by
  induction data generalizing s listing with
  | nil => exact (becomes_queue serves ..).handles trivial
  | cons d data ih =>
    have compiled := becomes_compile serves d (.inr rfl)
    rw [listData]
    generalize s.compile d topLevelScope = res at compiled
    obtain ⟨out, after⟩ := res
    cases out with
    | error error => exact compiled.handles (not_internal_ofCompile error)
    | ok code => exact (compiled.handles trivial).trans (ih compiled.serves _)

theorem handles_disassemble (text : String) :
    s.Handles (Blameless (s.disassemble text).1) (s.disassemble text).2 := by
  simp only [disassemble, readText]
  cases read { text, name := s.source } with
  | ok data => exact handles_listData serves data ""
  | error error => exact (becomes_queue serves ..).handles (not_internal_ofRead _ error)

end

theorem handles_keywords (serves : s.machine.Serves s.scopes) (names : List String) :
    s.Handles True { s with
      scopes := names.foldl (fun scopes name => scopes.bindKeyword globalScope name)
        s.scopes } :=
  List.foldlRecOn (motive := fun scopes => s.Handles True { s with scopes }) _ _
    ((becomes_queue serves ..).handles trivial)
    fun _ handles name _ => handles.then (becomes_keyword handles.serves name)

/-- The standard procedures are defined and the prelude is compiled as anything else would be. -/
theorem handles_create (src : Option String) (cap : Nat) :
    (blank src cap).Handles True (create src cap) := by
  have defined : (blank src cap).Handles True
      (Stdlib.definitions.foldl (fun s named => s.define named.1 named.2) (blank src cap)) := by
    refine List.foldlRecOn _ _ ((becomes_queue (Machine.serves_initial cap) ..).handles trivial) ?_
    rintro s handles ⟨name, v⟩ mem
    exact handles.then (becomes_define handles.serves name
      (Value.IsStandard.sound (.inr ⟨name, mem⟩) handles.serves.standard _ _))
  have keyed := defined.trans (handles_keywords defined.serves Compiler.keywords)
  exact List.foldlRecOn _ _ keyed fun s handles d _ =>
    handles.then (becomes_compile handles.serves d (.inl rfl))

end Session

end MiniScheme
