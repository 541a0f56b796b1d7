import MiniScheme.Proofs.Session.Invariant

/-!
# What can become of a session

`Attained` follows a session through everything that happens in it, one instruction at a time, and
keeps a list of the code that has been loaded. In every such state the scopes and the machine belong
together. As long as code stays within what the operands of instructions can express, the machine is
in order as well, at any time: while a computation is suspended, after a failure, or after a
collection.
-/

namespace MiniScheme

namespace Machine

theorem get?_initial (cap : Nat) (h : Handle) :
    (initial cap).heap.get? h = if h = (initial cap).topLevel then
        some (.invocation (some (initial cap).topClosure) #[])
      else if h = (initial cap).topClosure then
        some (.closure .empty (some (initial cap).global))
      else if h = (initial cap).global then some (.invocation none #[])
      else none := by
  have first := Heap.consistent_empty
  have second := first.alloc (.invocation none #[])
  have third := second.alloc (.closure .empty (some (initial cap).global))
  have allocated := Heap.get?_alloc third (.invocation (some (initial cap).topClosure) #[]) h
  rw [Heap.get?_alloc second, Heap.get?_alloc first] at allocated
  rw [show (initial cap).heap.get? h = _ from allocated]
  rfl

theorem verified_initial (cap : Nat) :
    (initial cap).heap.Verified [] cap (initial cap).topClosure := by
  constructor
  · intro h lam parent other held
    rw [get?_initial, if_neg other] at held
    split at held
    · cases held
    · split at held <;> cases held
  · intro h snapshot held
    rw [get?_initial] at held
    split at held
    · cases held
    · split at held
      · cases held
      · split at held <;> cases held

theorem serves_initial (cap : Nat) : (initial cap).Serves
    (.initial (initial cap).global (initial cap).topLevel) := by
  have admits : (initial cap).discipline.Admits (initial cap).topClosure :=
    ⟨fun _ distinct => distinct, fun _ => trivial⟩
  have sound := sound_initial cap admits
  have distinct : (initial cap).global ≠ (initial cap).topLevel := by
    intro same
    cases same
  have valid := Scopes.valid_initial (initial cap).global (initial cap).topLevel
  constructor
  · exact sound
  · intro id native found limit _
    exact Stdlib.tame_registry native (Array.mem_of_getElem? found)
  · exact Nat.le_refl _
  · refine ⟨valid, Nat.lt_succ_self 1, sound.heap, ?_, ?_⟩
    · intro scope e inv found anchored
      match scope with
      | 0 =>
        cases found
        cases anchored
        exact ⟨none, #[], get?_initial cap _, rfl⟩
      | 1 =>
        cases found
        cases anchored
        exact ⟨_, #[], get?_initial cap _, rfl⟩
      | scope + 2 => cases found
    · intro scope other e e' inv found found' anchored anchored'
      match scope, other with
      | 0, 0 => rfl
      | 1, 1 => rfl
      | 0, 1 =>
        cases found
        cases found'
        exact absurd (Option.some.inj (anchored.trans anchored'.symm)) distinct
      | 1, 0 =>
        cases found
        cases found'
        exact absurd (Option.some.inj (anchored'.trans anchored.symm)) distinct
      | scope + 2, _ => cases found
      | _, other + 2 => cases found'
  · rfl
  · exact ⟨_, rfl, rfl⟩
  · exact ⟨_, rfl, rfl, rfl⟩
  · refine ⟨.empty, ⟨#[], get?_initial cap _⟩, get?_initial cap _, #[], ?_⟩
    exact Scopes.constants_push (Scopes.push {} none false (some (initial cap).global)).2
      (some globalScope) (some (initial cap).topLevel)

variable {data : List Lambda} {m : Machine} {scopes : Scopes} {store : Store}

theorem Serves.tamed (serves : m.Serves scopes) :
    ∀ native ∈ m.natives, native.Tame m.discipline := by
  intro native mem
  obtain ⟨id, found⟩ := Array.mem_iff_getElem?.mp mem
  exact serves.tame id native found _ (lt_size found)

theorem Secure.onStore (secure : m.Secure data)
    (widens : m.heap.Widens m.discipline store.heap) (civil : store.Civil) :
    Secure data { m with store } := by
  refine ⟨secure.sound.move ⟨rfl, rfl, rfl, rfl⟩ widens.sound widens.keeps
    (secure.sound.control.mono widens.keeps), secure.tame, civil, ?_⟩
  exact secure.verified.of_persists widens.persists (List.Subset.refl _)
    (fun h _ _ _ held => (widens.code h _ (.inl rfl)).mpr held)
    (fun h _ held => (widens.code h _ (.inr rfl)).mpr held)

theorem Ready.collect (ready : m.Ready data) : m.collect.2.Ready data := by
  have reached {frame : Frame} (mem : frame ∈ m.current :: m.calls.items) :
      m.heap.Reachable m.roots frame.invocation := by
    apply Heap.Reachable.root
    rcases List.mem_cons.mp mem with rfl | mem
    · simp [roots, Frame.handles]
    · simp only [roots, List.mem_append, List.mem_flatMap]
      exact .inl (.inl (.inr ⟨frame, mem, by simp [Frame.handles]⟩))
  obtain ⟨journal, collected⟩ := m.collect_eq
  rw [collected]
  rcases ready with runs | ⟨tail, suspended, awaits⟩
  · exact .inl ⟨runs.active, runs.poised.collect fun frame mem => reached mem⟩
  · refine .inr ⟨tail, suspended, ?_⟩
    cases tail with
    | false => exact Heap.Poised.collect awaits fun frame mem => reached mem
    | true =>
      obtain ⟨caller, calls, pending, room, poised⟩ := awaits
      refine ⟨caller, calls, pending, room, poised.collect fun frame mem => ?_⟩
      exact reached (List.mem_cons_of_mem _ (pending ▸ mem))

end Machine

namespace Session

/-- A session without standard procedures, keywords and prelude. -/
def blank (source : Option String) (ceiling : Nat) : Session :=
  let machine := Machine.initial ceiling
  { machine, scopes := .initial machine.global machine.topLevel, source }

/-- The value may be handed to the session: what it refers to exists, and it is not the code of the
top level, which scripts cannot get hold of. -/
def Live (session : Session) (value : Value) : Prop :=
  value.Sound session.machine.discipline session.heap

/-- The code of a datum that was compiled for the top level, with the constants it may refer to. -/
def script (session : Session) (code : Bytecode) : Lambda :=
  { Lambda.empty with constants := session.scopes.constants topLevelScope, body := code }

/-- `AttainedFrom given ceiling data session`: what can become of a new session, after the code of
these data has been loaded, if only given data are compiled in it. A session is running from when
code is loaded until the code is done or fails, and then any number of instructions may be carried
out. -/
inductive AttainedFrom (given : Datum → Prop) (ceiling : Nat) : List Lambda → Session → Prop where
  | blank (source : Option String) : AttainedFrom given ceiling [] (blank source ceiling)
  | keyword {data : List Lambda} {session : Session} (attained : AttainedFrom given ceiling data session)
      (name : String) :
      AttainedFrom given ceiling data { session with scopes := session.scopes.bindKeyword globalScope name }
  | define {data : List Lambda} {session : Session} (attained : AttainedFrom given ceiling data session)
      (name : String) {value : Value} (live : session.Live value) :
      AttainedFrom given ceiling data (session.define name value)
  | defineNative {data : List Lambda} {session : Session}
      (attained : AttainedFrom given ceiling data session) {native : Native}
      (tame : ∀ limit, session.machine.natives.size < limit →
        native.Tame (.script session.machine.topClosure limit)) :
      AttainedFrom given ceiling data (session.defineNative native)
  | work {data : List Lambda} {session : Session} (attained : AttainedFrom given ceiling data session)
      {store : Store} (calm : session.machine.store.Calm session.machine.discipline store) :
      AttainedFrom given ceiling data (session.advanced session.scopes store)
  | compile {data : List Lambda} {session : Session} (attained : AttainedFrom given ceiling data session)
      {datum : Datum} (known : given datum) {scope : ScopeRef} (home : scope = globalScope ∨ scope = topLevelScope) :
      AttainedFrom given ceiling data (session.compile datum scope).2
  | load {data : List Lambda} {session compiled loaded : Session}
      (attained : AttainedFrom given ceiling data session) {datum : Datum} (known : given datum)
      {code : Bytecode} (compiles : session.compile datum topLevelScope = (.ok code, compiled))
      (loads : session.load datum = (.ok (), loaded)) :
      AttainedFrom given ceiling (data ++ [compiled.script code]) { loaded with running := true }
  | run {data : List Lambda} {session : Session} (attained : AttainedFrom given ceiling data session)
      (running : session.running = true) (active : session.machine.suspended = none) {room : Nat}
      {outcome : Except ScriptError (Option Value)} {machine : Machine}
      (ran : session.machine.run (fun _ => id) room () = (outcome, (), machine)) :
      AttainedFrom given ceiling data { session with machine, running := Machine.isUnfinished outcome }
  | wake {data : List Lambda} {session : Session} (attained : AttainedFrom given ceiling data session)
      {value : Value} (live : session.Live value) : AttainedFrom given ceiling data (session.wake value).2
  | cancel {data : List Lambda} {session : Session} (attained : AttainedFrom given ceiling data session) :
      AttainedFrom given ceiling data session.cancel
  | collect {data : List Lambda} {session : Session} (attained : AttainedFrom given ceiling data session) :
      AttainedFrom given ceiling data session.collect.2
  | queue {data : List Lambda} {session : Session} (attained : AttainedFrom given ceiling data session)
      (source : Option String) (pending : List Datum) (last : Value) :
      AttainedFrom given ceiling data { session with source, pending, last }

/-- What can become of a new session, whatever data are compiled. -/
abbrev Attained (ceiling : Nat) (data : List Lambda) (session : Session) : Prop :=
  AttainedFrom (fun _ => True) ceiling data session

variable {given : Datum → Prop} {s before mid after : Session} {good : Prop} {cap : Nat}
  {data : List Lambda}

theorem lt_of_home {scope : ScopeRef} (home : scope = globalScope ∨ scope = topLevelScope) :
    scope < 2 := by
  rcases home with rfl | rfl
  · exact Nat.zero_lt_succ 1
  · exact Nat.lt_succ_self 1

/-- A datum that can be loaded has been compiled before. -/
theorem AttainedFrom.loads (attained : AttainedFrom given cap data s) (d : Datum)
    (known : given d) (loads : (s.load d).1.isOk = true) : ∃ code compiled,
      s.compile d topLevelScope = (.ok code, compiled) ∧
      AttainedFrom given cap (data ++ [compiled.script code]) { (s.load d).2 with running := true } := by
  cases loaded : s.load d with
  | mk out after =>
    cases compiles : s.compile d topLevelScope with
    | mk res compiled =>
      cases res with
      | error error =>
        rw [Session.load, compiles] at loads
        cases loads
      | ok code =>
        rw [loaded] at loads
        cases out with
        | error => cases loads
        | ok => exact ⟨code, compiled, rfl, .load attained known compiles loaded⟩

theorem live_addNative (s : Session) (native : Native) :
    Live { s with machine := (s.machine.addNative native).2 } (s.machine.addNative native).1 :=
  ⟨Nat.lt_of_lt_of_eq (Nat.lt_succ_self _) (Array.size_push _).symm, nofun⟩

/-- `before.Becomes after`: something has happened to a session, but no code was loaded. -/
structure Becomes (before after : Session) : Prop where
  serves : after.machine.Serves after.scopes
  scopes : before.scopes.Extends after.scopes
  code : before.machine.Rests after.machine
  attained {ceiling : Nat} {data : List Lambda} :
    Attained ceiling data before → Attained ceiling data after

def Arises (session : Session) : Prop :=
  ∃ ceiling data, Attained ceiling data session

/-- `before.Handles good after`: the scopes are still served and have only grown; and if the session
has come about as sessions do, it still has, and the answer is good if code has stayed small
enough. -/
structure Handles (before : Session) (good : Prop) (after : Session) : Prop where
  serves : after.machine.Serves after.scopes
  precedes : before.Precedes after
  arises : before.Arises → after.Arises
  met : before.Arises → after.Fits → good

theorem Becomes.handles (becomes : before.Becomes after) (met : good) : before.Handles good after :=
  ⟨becomes.serves, ⟨becomes.scopes, becomes.code.grows⟩,
    fun ⟨cap, data, attained⟩ => ⟨cap, data, becomes.attained attained⟩, fun _ _ => met⟩

theorem Handles.trans (first : before.Handles True mid) (second : mid.Handles good after) :
    before.Handles good after :=
  ⟨second.serves, first.precedes.trans second.precedes, second.arises ∘ first.arises,
    second.met ∘ first.arises⟩

theorem Handles.mono {better : Prop} (handles : before.Handles good after)
    (weaker : good → better) : before.Handles better after :=
  ⟨handles.serves, handles.precedes, handles.arises, fun arises fits =>
    weaker (handles.met arises fits)⟩

theorem Handles.then (first : before.Handles good mid) (second : mid.Becomes after) :
    before.Handles good after := by
  have further := second.handles trivial
  exact ⟨further.serves, first.precedes.trans further.precedes, further.arises ∘ first.arises,
    fun arises fits => first.met arises (further.precedes.fits fits)⟩

variable {scopes : Scopes} {store : Store} {lam : Lambda} {code : Bytecode} {v : Value}

/-! ### What happens to a session -/

section

variable (serves : s.machine.Serves s.scopes)

include serves

/-- What a session has queued, and the value of its latest datum, do not matter. -/
theorem becomes_queue (src : Option String) (pending : List Datum) (last : Value) :
    s.Becomes { s with source := src, pending, last } :=
  ⟨serves, .refl _, .refl _, fun attained => attained.queue src pending last⟩

theorem becomes_advanced (advances : s.Advances scopes store) (size : scopes.stack.size = 2)
    (attained : ∀ {cap data}, Attained cap data s →
      Attained cap data (s.advanced scopes store)) : s.Becomes (s.advanced scopes store) := by
  obtain ⟨serves', code⟩ := serves_advanced serves advances size
  exact ⟨serves', advances.scopes, code, attained⟩

theorem becomes_compile (d : Datum) {scope : ScopeRef}
    (home : scope = globalScope ∨ scope = topLevelScope) : s.Becomes (s.compile d scope).2 := by
  obtain ⟨out, scopes, store, compiled, advances, size, -⟩ :=
    compile_spec serves d (lt_of_home home)
  have kept {cap : Nat} {data : List Lambda} (attained : Attained cap data s) :
      Attained cap data (s.compile d scope).2 := attained.compile trivial home
  rw [compiled] at kept ⊢
  exact becomes_advanced serves advances size kept

theorem advances_keyword (name : String) :
    s.Advances (s.scopes.bindKeyword globalScope name) s.machine.store ∧
      (s.scopes.bindKeyword globalScope name).stack.size = 2 := by
  have binding (place : Variable) : Binding.keyword name ≠ .variable place := nofun
  obtain ⟨valid, further⟩ := serves.compilation.scopes.bind globalScope name binding
  have size : (s.scopes.bindKeyword globalScope name).stack.size = 2 :=
    (Scopes.size_modify ..).trans serves.size
  exact ⟨(Compilation.Advances.refl serves.compilation).withScopes valid
    (size.symm ▸ Nat.lt_succ_self 1) (.modify fun _ => ⟨rfl, rfl⟩) further, size⟩

theorem becomes_keyword (name : String) :
    s.Becomes { s with scopes := s.scopes.bindKeyword globalScope name } := by
  obtain ⟨advances, size⟩ := advances_keyword serves name
  exact becomes_advanced serves advances size fun attained => attained.keyword name

theorem define_spec (name : String) (sound : v.Sound s.machine.discipline s.heap) :
    ∃ scopes store, s.define name v = s.advanced scopes store ∧
      s.Advances scopes store ∧ scopes.stack.size = 2 := by
  have bound : globalScope < s.scopes.stack.size := serves.size.symm ▸ Nat.zero_lt_succ 1
  cases added : s.scopes.addVariable globalScope name none (some v) s.machine.store.heap with
  | mk place rest =>
    obtain ⟨scopes, heap⟩ := rest
    have value_sound : ∀ content, some v = some content →
        content.Sound s.machine.discipline s.heap := by
      rintro _ ⟨⟩
      exact sound
    obtain ⟨advances, size, -⟩ := serves.compilation.addVariable bound name none value_sound added
    refine ⟨scopes, { s.machine.store with heap }, ?_, advances, size.trans serves.size⟩
    simp only [define, Machine.onHeap, Machine.onStore, Store.onHeap, added]
    rfl

theorem becomes_define (name : String) (sound : v.Sound s.machine.discipline s.heap) :
    s.Becomes (s.define name v) := by
  obtain ⟨scopes, store, defined, advances, size⟩ := define_spec serves name sound
  have kept {cap : Nat} {data : List Lambda} (attained : Attained cap data s) :
      Attained cap data (s.define name v) := attained.define name sound
  rw [defined] at kept ⊢
  exact becomes_advanced serves advances size kept

/-- Others may build data and change the objects of the application. -/
theorem becomes_work (calm : s.machine.store.Calm s.machine.discipline store) :
    s.Becomes (s.advanced s.scopes store) := by
  have valid := serves.compilation.onStore calm.grown.sound
    fun _ _ _ proc slots _ _ held => calm.grown.steady.invocation _ proc slots held
  obtain ⟨served, code⟩ := serves.advance valid (.refl _) serves.size calm.grown.widens
  exact ⟨served, .refl _, code, fun attained => attained.work calm⟩

theorem becomes_note (detail : Detail) (message : Unit → String) :
    s.Becomes (s.note detail message) := by
  obtain ⟨journal, noted⟩ := s.machine.note_eq detail message
  rw [note, noted]
  exact becomes_work serves ⟨.refl serves.sound.heap, id⟩

theorem becomes_defineNative {native : Native} (tame : ∀ limit, s.machine.natives.size < limit →
      native.Tame (.script s.machine.topClosure limit)) : s.Becomes (s.defineNative native) := by
  have defined : Becomes { s with machine := (s.machine.addNative native).2 }
      (s.defineNative native) :=
    becomes_define (serves.addNative tame) native.name (live_addNative s native)
  have added : s.machine.Rests (s.machine.addNative native).2 := ⟨rfl, fun _ _ held => held⟩
  exact ⟨defined.serves, defined.scopes, added.trans defined.code,
    fun attained => attained.defineNative tame⟩

theorem becomes_cancel : s.Becomes s.cancel := by
  have reset {s : Session} (serves : s.machine.Serves s.scopes) :
      s.machine.reset.Serves s.scopes ∧ s.machine.Rests s.machine.reset := by
    have maintains := Machine.Maintains.reset s.machine
    exact ⟨serves.maintain maintains serves.sound.reset, maintains.rests⟩
  have kept : s.cancel.machine.Serves s.cancel.scopes ∧ s.scopes.Extends s.cancel.scopes ∧
        s.machine.Rests s.cancel.machine := by
    rw [cancel]
    split
    · have noted := becomes_note serves .debug fun _ =>
        "cancelling with " ++ toString s.pending.length ++ " data queued"
      obtain ⟨served, code⟩ := reset noted.serves
      exact ⟨served, noted.scopes, noted.code.trans code⟩
    · obtain ⟨served, code⟩ := reset serves
      exact ⟨served, .refl _, code⟩
  exact ⟨kept.1, kept.2.1, kept.2.2, fun attained => attained.cancel⟩

theorem becomes_wake (live : s.Live v) : s.Becomes (s.wake v).2 := by
  have maintains := Machine.Maintains.wake s.machine v
  exact ⟨serves.maintain maintains (serves.sound.wake live), .refl _, maintains.rests,
    fun attained => attained.wake live⟩

theorem becomes_collect : s.Becomes s.collect.2 := by
  obtain ⟨served, code⟩ := serves.collect
  have noted : Becomes { s with machine := s.machine.collect.2 } s.collect.2 :=
    becomes_note served _ _
  exact ⟨noted.serves, noted.scopes, code.trans noted.code, fun attained => attained.collect⟩

theorem becomes_run (running : s.running = true) (active : s.machine.suspended = none)
    {room : Nat} {out : Except ScriptError (Option Value)} {m : Machine}
    (ran : s.machine.run (fun _ => id) room () = (out, (), m)) :
    s.Becomes { s with machine := m, running := Machine.isUnfinished out } := by
  have maintains := Machine.Maintains.run (fun _ => id) room () serves.sound serves.tamed
  have sound := serves.sound.run (fun _ => id) room ()
  rw [ran] at maintains sound
  exact ⟨serves.maintain maintains sound, .refl _, maintains.rests,
    fun attained => attained.run running active ran⟩

theorem handles_load {compiled loaded : Session} {d : Datum}
    (compiles : s.compile d topLevelScope = (.ok code, compiled))
    (loads : s.load d = (.ok (), loaded)) : s.Handles True { loaded with running := true } := by
  obtain ⟨scopes, store, advances, size, out⟩ := load_spec serves d
  obtain ⟨served, kept⟩ := serves_advanced serves advances size
  have arises : s.Arises → Arises { loaded with running := true } :=
    fun ⟨_, _, attained⟩ => ⟨_, _, attained.load trivial compiles loads⟩
  rcases out with ⟨error, -, failed⟩ | ⟨code, lam, -, loads', script, -⟩
  · cases loads.symm.trans failed
  · cases loads.symm.trans loads'
    obtain ⟨-, served, grows⟩ := served.load script code
    exact ⟨served, ⟨advances.scopes, kept.grows.trans grows⟩, arises, fun _ _ => trivial⟩

end

/-! ### The machine is in order -/

/-- The machine is in order, and the stacks are within the ceiling, now and whenever a captured state
is restored. -/
structure Capped (ceiling : Nat) (data : List Lambda) (session : Session) : Prop where
  ceiling : session.machine.ceiling = ceiling
  runnable : Runnable data
  stocked : session.machine.Secure data
  abides : session.machine.Abides data session.running

/-- Only the closure of the top level is there at first, and nothing is on the stacks. -/
theorem capped_blank (src : Option String) (cap : Nat) : (blank src cap).Capped cap [] := by
  have serves := Machine.serves_initial cap
  have civil : (Machine.initial cap).store.Civil := by
    intro obj mem
    exact absurd mem (Array.not_mem_empty obj)
  exact ⟨rfl, nofun, ⟨serves.sound, serves.tame, civil, Machine.verified_initial cap⟩,
    rfl, Nat.zero_le _, 0, Set.mem_insert _ _, Nat.zero_le _⟩

theorem Capped.follow (capped : before.Capped cap data)
    (follows : before.machine.Follows data after.machine)
    (sound : after.machine.Sound before.machine.discipline)
    (abides : after.machine.Abides data after.running) : after.Capped cap data :=
  ⟨follows.ceiling.trans capped.ceiling, capped.runnable, follows.secure capped.stocked sound, abides⟩

/-- Operands can express what the code of the top level refers to, if they can once it is loaded. -/
theorem hosts_of_fits (serves : s.machine.Serves s.scopes) (script : s.machine.Script s.scopes lam)
    (fits : (s.loaded lam code).Fits) :
    Setting.Hosts ⟨.script, s.scopes.shape topLevelScope,
      s.scopes.constants topLevelScope⟩ s.scopes topLevelScope ∧ code.size ≤ operandLimit := by
  obtain ⟨e, top, found, top_found, shape, own⟩ := serves.shape
  obtain ⟨added, constants⟩ := script.constants
  have code_fits := fits.code _ _ (script.get?_loaded code)
  refine ⟨⟨⟨#[], by simp⟩, List.forall₂_refl _, ?_, ?_, ?_⟩, ?_⟩
  · intro size mem
    simp only [shape, List.mem_cons, List.not_mem_nil, or_false] at mem
    rcases mem with rfl | rfl
    · exact fits.slots top (Array.mem_of_getElem? top_found)
    · exact fits.slots e (Array.mem_of_getElem? found)
  · change (s.scopes.constants topLevelScope).size ≤ operandLimit
    rw [own]
    exact fits.constants top (Array.mem_of_getElem? top_found)
  · intro inner mem
    apply code_fits.inside
    rw [Machine.constants_extend constants]
    exact mem
  · have bound := (code_fits _ .self).1
    simp only [Machine.extend, Bytecode.size_append] at bound
    omega

section

variable (capped : s.Capped cap data)

include capped

theorem Capped.onStore (widens : s.heap.Widens s.machine.discipline store.heap)
    (civil : store.Civil) (scopes : Scopes) : (s.advanced scopes store).Capped cap data :=
  ⟨capped.ceiling, capped.runnable, capped.stocked.onStore widens civil,
    capped.abides.mono widens.persists⟩

theorem Capped.advanced (advances : s.Advances scopes store) :
    (s.advanced scopes store).Capped cap data := by
  refine capped.onStore advances.widens (fun obj mem => ?_) scopes
  exact capped.stocked.civil obj (advances.hosts ▸ mem)

theorem Capped.define (serves : s.machine.Serves s.scopes) (name : String)
    (live : s.Live v) : (s.define name v).Capped cap data := by
  obtain ⟨scopes, store, defined, advances, -⟩ := define_spec serves name live
  exact defined ▸ capped.advanced advances

theorem Capped.addNative (serves : s.machine.Serves s.scopes) {native : Native}
    (tame : ∀ limit, s.machine.natives.size < limit →
      native.Tame (.script s.machine.topClosure limit)) :
    Capped cap data { s with machine := (s.machine.addNative native).2 } := by
  have served := serves.addNative tame
  refine ⟨capped.ceiling, capped.runnable, ⟨served.sound, served.tame, capped.stocked.civil,
    capped.stocked.verified⟩, ?_⟩
  have abides := capped.abides
  change Machine.Abides _ _ s.running
  match s.running, abides with
  | false, abides => exact abides
  | true, .inl ⟨active, poised⟩ => exact .inl ⟨active, poised⟩
  | true, .inr ⟨false, suspended, awaits⟩ => exact .inr ⟨false, suspended, awaits⟩
  | true, .inr ⟨true, suspended, awaits⟩ => exact .inr ⟨true, suspended, awaits⟩

theorem Capped.note (detail : Detail) (message : Unit → String) :
    (s.note detail message).Capped cap data := by
  obtain ⟨journal, noted⟩ := s.machine.note_eq detail message
  rw [Session.note, noted]
  let store : Store := { s.machine.store with journal }
  have widens : s.heap.Widens s.machine.discipline store.heap := .refl capped.stocked.sound.heap
  exact capped.onStore widens capped.stocked.civil s.scopes

theorem Capped.cancel : s.cancel.Capped cap data := by
  have reset {s : Session} (capped : s.Capped cap data) :
      Capped cap data
        { s with
          machine := s.machine.reset, pending := [], running := false
          last := .unspecified } :=
    capped.follow capped.stocked.stays.reset capped.stocked.sound.reset (Machine.abides_reset _)
  rw [Session.cancel]
  split
  · exact reset (capped.note ..)
  · exact reset capped

theorem Capped.collect : s.collect.2.Capped cap data := by
  have sound := capped.stocked.sound.collect
  have abides : s.machine.collect.2.Abides data s.running := by
    have abides := capped.abides
    cases flag : s.running with
    | true =>
      rw [flag] at abides
      exact Machine.Ready.collect abides
    | false =>
      rw [flag] at abides
      obtain ⟨journal, collected⟩ := s.machine.collect_eq
      rw [collected]
      exact abides
  have swept : Capped cap data { s with machine := s.machine.collect.2 } := by
    obtain ⟨journal, collected⟩ := s.machine.collect_eq
    rw [collected] at sound abides ⊢
    exact ⟨capped.ceiling, capped.runnable, ⟨sound, capped.stocked.tame, capped.stocked.civil,
      capped.stocked.verified.collect _⟩, abides⟩
  exact swept.note ..

/-- Code that is loaded can run if its operands express what they should. It starts with nothing on
the stacks. -/
theorem Capped.load (serves : s.machine.Serves s.scopes) (script : s.machine.Script s.scopes lam)
    (proper : ∀ setting : Setting, setting.level = .script →
      setting.Hosts s.scopes topLevelScope → code.size ≤ operandLimit → code.Proper setting)
    (fits : (s.loaded lam code).Fits) :
    Capped cap (data ++ [s.script code]) { s.loaded lam code with running := true } := by
  obtain ⟨-, served, -⟩ := serves.load script code
  obtain ⟨added, constants⟩ := script.constants
  have pool : (Machine.extend lam (s.scopes.constants topLevelScope) code).constants =
      s.scopes.constants topLevelScope := Machine.constants_extend constants code
  obtain ⟨hosts, small⟩ := hosts_of_fits serves script fits
  have sane := proper _ rfl hosts small
  have more : data ⊆ data ++ [s.script code] := List.subset_append_left ..
  refine ⟨capped.ceiling, ?_, ⟨served.sound, capped.stocked.tame, capped.stocked.civil,
    capped.stocked.verified.modifyLambda _ more⟩, .inl ⟨rfl, .script ⟨⟨_, served.encloses,
      s.script code, lam.body, 0, .datum (by simp), pool.symm, rfl, rfl, .entry, ?_⟩, nofun⟩ .base⟩⟩
  · exact List.forall_mem_append.mpr ⟨capped.runnable, List.forall_mem_singleton.mpr ⟨_, sane⟩⟩
  · exact pool.symm ▸ sane

end

/-- What holds after something has happened to a session. -/
theorem Handles.capped {data' : List Lambda} (handles : before.Handles good after)
    (known : before.Fits → before.Capped cap data)
    (keeps : before.Capped cap data → after.Fits → after.Capped cap data') :
    after.machine.Serves after.scopes ∧ (after.Fits → after.Capped cap data') :=
  ⟨handles.serves, fun fits => keeps (known (handles.precedes.fits fits)) fits⟩

/-- Whatever happens, the scopes are served, and unless code has become too large the machine is in
order. -/
theorem AttainedFrom.capped (attained : AttainedFrom given cap data s) :
    s.machine.Serves s.scopes ∧ (s.Fits → s.Capped cap data) := by
  induction attained with
  | blank src => exact ⟨Machine.serves_initial cap, fun _ => capped_blank src cap⟩
  | keyword _ name ih =>
    exact ((becomes_keyword ih.1 name).handles trivial).capped ih.2 fun capped _ =>
      capped.advanced (advances_keyword ih.1 name).1
  | define _ name live ih =>
    exact ((becomes_define ih.1 name live).handles trivial).capped ih.2 fun capped _ =>
      capped.define ih.1 name live
  | defineNative _ tame ih =>
    exact ((becomes_defineNative ih.1 tame).handles trivial).capped ih.2 fun capped _ =>
      (capped.addNative ih.1 tame).define (ih.1.addNative tame) _ (live_addNative ..)
  | work _ calm ih =>
    exact ((becomes_work ih.1 calm).handles trivial).capped ih.2 fun capped _ =>
      capped.onStore calm.grown.widens (calm.civil capped.stocked.civil) _
  | @compile _ _ _ d _ _ home ih =>
    refine ((becomes_compile ih.1 d home).handles trivial).capped ih.2 fun capped _ => ?_
    obtain ⟨out, scopes, store, compiled, advances, -⟩ := compile_spec ih.1 d (lt_of_home home)
    exact compiled ▸ capped.advanced advances
  | @load _ s compiled loaded _ d _ code compiles loads ih =>
    refine (handles_load ih.1 compiles loads).capped ih.2 fun capped fits => ?_
    obtain ⟨scopes, store, advances, size, out⟩ := load_spec ih.1 d
    obtain ⟨served, -⟩ := serves_advanced ih.1 advances size
    rcases out with ⟨error, -, failed⟩ | ⟨code', lam, compiles', loads', script, runs⟩
    · cases loads.symm.trans failed
    · cases compiles.symm.trans compiles'
      cases loads.symm.trans loads'
      exact (capped.advanced advances).load served script runs
        ⟨fits.slots, fits.constants, fits.code⟩
  | @run _ s _ running active room out m ran ih =>
    refine ((becomes_run ih.1 running active ran).handles trivial).capped ih.2 fun capped _ => ?_
    have runs := capped.abides.runs running active
    obtain ⟨follows, stops⟩ := runs.run (fun _ => id) room () capped.stocked
    have sound := capped.stocked.sound.run (fun _ => id) room ()
    rw [ran] at follows stops sound
    exact capped.follow follows sound stops.abides
  | wake _ live ih =>
    exact ((becomes_wake ih.1 live).handles trivial).capped ih.2 fun capped _ =>
      capped.follow (capped.stocked.stays.wake _) (capped.stocked.sound.wake live)
        (capped.abides.wake _)
  | cancel _ ih =>
    exact ((becomes_cancel ih.1).handles trivial).capped ih.2 fun capped _ => capped.cancel
  | collect _ ih =>
    exact ((becomes_collect ih.1).handles trivial).capped ih.2 fun capped _ => capped.collect
  | queue _ src pending last ih =>
    exact ((becomes_queue ih.1 src pending last).handles trivial).capped ih.2 fun capped _ =>
      ⟨capped.ceiling, capped.runnable, capped.stocked, capped.abides⟩

end Session

end MiniScheme
