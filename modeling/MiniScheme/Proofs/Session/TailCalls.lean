import MiniScheme.Proofs.Compiler.Congruence
import MiniScheme.Proofs.Machine.TailCalls
import MiniScheme.Proofs.Session.Safety

/-!
# Sessions without tail calls

A session answers the same whether its machine eliminates calls in tail position or makes them like
any other call, as long as there is room for the frames that stay behind: the same values in text,
the same output, the same errors at the same positions. Reading and compiling are not concerned, and
every run is mirrored by the other.
-/

namespace MiniScheme

open Machine (unlimited)

theorem Compiler.congruence_pads : Congruence (fun _ => True) (fun _ => True) (fun _ => True)
    (fun _ => True) (fun _ => True) (Store.Alike fun _ => Object.Pads) := by
  constructor
  case code => exact composes_trivial
  case keeps => exact fun _ _ _ _ _ _ _ => .any _
  case addVariable =>
    rintro scope name initializer - - _ ⟨scopes, store⟩ ⟨_, store'⟩ ⟨rfl, -, alike⟩
    simp only [CompileM.addVariable, Store.onHeap, Scopes.addVariable]
    refine .ok le_rfl ⟨trivial, trivial⟩ ⟨rfl, trivial, alike.withHeap ?_⟩
    split
    · exact alike.heap.modifySlots likeness_pads _ _
    · exact alike.heap
  case note => exact fun detail message alike => alike.note detail message
  case quoted =>
    intro store store' d alike
    have built := alike.heap.ofDatum likeness_pads d
    exact ⟨built.result.symm, alike.withHeap built.heaps⟩
  all_goals simp

theorem Machine.Mirrors.closure?_topClosure {m m' : Machine} (mirrors : m.Mirrors m') :
    m'.heap.closure? m'.topClosure = m.heap.closure? m.topClosure := by
  obtain ⟨stores, padded⟩ := mirrors
  exact congrFun stores.heap.closure?_eq m.topClosure

namespace Session

def proceed (onward : Session → Except ScriptError (Option Value) × Session) (data : List Datum)
    (session : Session) :
    Except ScriptError (Option Value) × Machine → Except ScriptError (Option Value) × Session
  | (.error error, machine) => (.error error, { session with machine }.abandon)
  | (.ok none, machine) => (.ok none, { session with machine, pending := data, running := true })
  | (.ok (some value), machine) => onward { session with machine, last := value }

/-- Compiles and runs data one by one, each for at most a number of instructions, which are carried
out as they are read. -/
def runDataAs (read : Op → Op) (room : Nat) :
    List Datum → Session → Except ScriptError (Option Value) × Session
  | [], session =>
    (.ok (some session.last), { session with pending := [], last := .unspecified })
  | datum :: data, session =>
    match session.load datum with
    | (.error error, session) => (.error error, session.abandon)
    | (.ok (), session) =>
      proceed (runDataAs read room data) data session (session.machine.runAs read room)

/-- The answer to a text whose data have been run. -/
def conclude : Except ScriptError (Option Value) × Session → Except ScriptError Value × Session
  | (.error error, session) => (.error error, session)
  | (.ok (some value), session) => (.ok value, session)
  | (.ok none, session) => (.error { cause := .suspended }, session)

/-- Evaluates a text, each datum with at most a number of instructions, which are carried out as they
are read. -/
def evaluateReading (read : Op → Op) (room : Nat) (text : String) (session : Session) :
    Except ScriptError Value × Session :=
  match session.start text with
  | (.error error, session) => (.error error, session)
  | (.ok (), session) => conclude (runDataAs read room session.pending session)

theorem execute_eq {m : Machine} (active : m.suspended = none) :
    m.execute (fun _ => id) () 0 = ((m.runAs id unlimited).1, (), (m.runAs id unlimited).2) := by
  rw [Machine.execute, if_neg (by simp [Machine.isSuspended, active]), Machine.runAs_id]
  rfl

/-- This is how data are run if instructions are read as they are. -/
theorem runDataAs_id (data : List Datum) (s : Session) :
    runDataAs id unlimited data s = ((runData (fun _ => id) 0 data () s).1,
        (runData (fun _ => id) 0 data () s).2.2) := by
  induction data generalizing s with
  | nil => rfl
  | cons d data ih =>
    cases loads : s.load d with
    | mk out loaded =>
      cases out with
      | error error => simp only [runDataAs, runData, loads]
      | ok =>
        simp only [runDataAs, runData, loads, runMachine_eq, execute_eq (suspended_load loads)]
        generalize loaded.machine.runAs id unlimited = res
        obtain ⟨_ | _ | _, _⟩ := res
        case ok.some => exact ih _
        all_goals rfl

/-- This is how texts are evaluated if instructions are read as they are. -/
theorem evaluateReading_id (text : String) (s : Session) :
    s.evaluateReading id unlimited text = s.evaluate text := by
  have idle := running_start text s
  unfold evaluateReading evaluate
  generalize s.start text = res at idle
  obtain ⟨out, queued⟩ := res
  cases out with
  | error error => rfl
  | ok =>
    change queued.running = false at idle
    simp only [execute, executeWith, idle, Bool.false_eq_true, if_false, runDataAs_id]
    generalize runData (fun _ => id) 0 queued.pending () queued = res
    obtain ⟨_ | _ | _, _, _⟩ := res <;> rfl

/-- The sessions are the same but for padding. -/
inductive Mirrors (session : Session) : Session → Prop where
  | intro {machine : Machine} (mirrors : session.machine.Mirrors machine) :
      Mirrors session { session with machine }

namespace Mirrors

variable {s s' : Session}

section

variable (mirrors : s.Mirrors s')

include mirrors

theorem compile (d : Datum) (scope : ScopeRef) :
    (s'.compile d scope).1 = (s.compile d scope).1 ∧
      (s.compile d scope).2.Mirrors (s'.compile d scope).2 := by
  obtain @⟨m, mirrors⟩ := mirrors
  obtain @⟨store, calls, stores, padded⟩ := mirrors
  have alike : Agree _ _ () (Compiler.compileTopLevel d scope ⟨s.scopes, s.machine.store⟩)
      (Compiler.compileTopLevel d scope ⟨s.scopes, store⟩) :=
    Compiler.parallel_compileTopLevel Compiler.congruence_pads.parallels trivial d trivial ()
      ⟨rfl, trivial, stores⟩
  simp only [Session.compile, Machine.onStore]
  generalize Compiler.compileTopLevel d scope ⟨s.scopes, s.machine.store⟩ = out at alike ⊢
  generalize Compiler.compileTopLevel d scope ⟨s.scopes, store⟩ = out' at alike ⊢
  cases alike with
  | @ok _ _ _ st st' _ met related =>
    obtain ⟨rfl, -⟩ := met
    obtain ⟨same, -, stores⟩ := related
    simp only [same]
    exact ⟨trivial, .intro (.intro stores padded)⟩
  | @error _ st st' _ _ related =>
    obtain ⟨same, -, stores⟩ := related
    simp only [same]
    refine ⟨trivial, .intro (.intro (stores.withHeap ?_) padded)⟩
    dsimp only
    split
    · exact stores.heap.modifySlots likeness_pads _ _
    · exact stores.heap

theorem load (d : Datum) : (s'.load d).1 = (s.load d).1 ∧ (s.load d).2.Mirrors (s'.load d).2 := by
  obtain ⟨same, compiled⟩ := mirrors.compile d topLevelScope
  unfold Session.load
  generalize s.compile d topLevelScope = res at same compiled ⊢
  generalize s'.compile d topLevelScope = res' at same compiled ⊢
  obtain ⟨out, mid⟩ := res
  obtain ⟨_, mid'⟩ := res'
  cases same
  cases out with
  | error error => exact ⟨rfl, compiled⟩
  | ok code =>
    obtain ⟨mirrors⟩ := compiled
    have known := mirrors.closure?_topClosure
    cases found : mid.machine.heap.closure? mid.machine.topClosure with
    | none =>
      simp only [Machine.append, known, found]
      exact ⟨trivial, .intro mirrors⟩
    | some res =>
      obtain ⟨lam, parent⟩ := res
      simp only [Machine.append_eq found, Machine.append_eq (known.trans found)]
      obtain ⟨stores, padded⟩ := mirrors
      exact ⟨trivial, .intro (.intro (stores.withHeap (stores.heap.modifyLambda _ _)) .nil)⟩

theorem cancel : s.cancel.Mirrors s'.cancel := by
  have debug : Detail.debug ≠ .info := nofun
  obtain ⟨mirrors⟩ := mirrors
  unfold Session.cancel
  dsimp only
  split
  · exact .intro (mirrors.noted debug _ _).reset
  · exact .intro mirrors.reset

theorem start (text : String) :
    (s'.start text).1 = (s.start text).1 ∧ (s.start text).2.Mirrors (s'.start text).2 := by
  have cancelled := mirrors.cancel
  unfold Session.start
  generalize s.cancel = idle at cancelled ⊢
  generalize s'.cancel = idle' at cancelled ⊢
  obtain ⟨mirrors⟩ := cancelled
  dsimp only [readText]
  cases read { text, name := idle.source } <;> exact ⟨rfl, .intro mirrors⟩

end

end Mirrors

/-! ### Data -/

/-- A session whose native procedures look at data only, and one that mirrors it. -/
structure Twins (session session' : Session) : Prop where
  mirrors : session.Mirrors session'
  impartial : ∀ native ∈ session.machine.natives, native.Impartial fun _ => Object.Pads

structure Pairs (session session' : Session) : Prop extends Twins session session' where
  secure : session.Secure
  idle : session.running = false

structure Launches (session : Session) (machine' : Machine) : Prop where
  mirrors : session.machine.Mirrors machine'
  impartial : ∀ native ∈ session.machine.natives, native.Impartial fun _ => Object.Pads
  ready : ∃ data, session.machine.Secure data ∧ session.machine.Runs data
  natives : (session.machine.runAs id Machine.unlimited).2.natives = session.machine.natives
  /-- If the machines mirror each other again, the next datum can be run. -/
  continues {value : Value} {machine machine' : Machine} :
    session.machine.runAs id Machine.unlimited = (.ok (some value), machine) →
      machine.Mirrors machine' → Pairs { session with machine, last := value }
        { session with machine := machine', last := value }

variable {s s' : Session}

variable {data : List Datum} {room : Nat}

/-- What is small enough after all data is so after the first of them. -/
theorem fits_first {loaded : Session} {d : Datum} (loads : s.load d = (.ok (), loaded))
    (served : (loaded.machine.runAs id unlimited).2.Serves loaded.scopes)
    (idle : loaded.running = false) (fits : (runDataAs id unlimited (d :: data) s).2.Fits) :
    Fits { loaded with machine := (loaded.machine.runAs id unlimited).2 } := by
  simp only [runDataAs, loads] at fits
  generalize loaded.machine.runAs id unlimited = res at served fits
  match res with
  | (.error _, m) | (.ok none, m) => exact ⟨fits.slots, fits.constants, fits.code⟩
  | (.ok (some v), m) =>
    have handles : Handles { loaded with machine := m, last := v } _ _ :=
      handles_runData served 0 data idle
    simp only [proceed, runDataAs_id] at fits
    have fits := handles.precedes.fits fits
    exact ⟨fits.slots, fits.constants, fits.code⟩

/-- What happens to a datum in both sessions: it does not compile, or both machines are ready to run
it. -/
theorem Pairs.load (pairs : s.Pairs s') (d : Datum) (data : List Datum)
    (fits : (runDataAs id unlimited (d :: data) s).2.Fits) :
    (∃ error after after', s.load d = (.error error, after) ∧
      s'.load d = (.error error, after') ∧ after.Twins after') ∨
    ∃ loaded m', s.load d = (.ok (), loaded) ∧
      s'.load d = (.ok (), { loaded with machine := m' }) ∧ loaded.Launches m' := by
  obtain ⟨same, mirrors⟩ := pairs.mirrors.load d
  generalize s'.load d = res' at same mirrors ⊢
  obtain ⟨out', after'⟩ := res'
  cases same
  obtain ⟨scopes, store, -, -, out⟩ := load_spec pairs.secure.serves d
  rcases out with ⟨error, -, failed⟩ | ⟨code, lam, compiles, loads, -⟩
  · rw [failed] at mirrors ⊢
    exact .inl ⟨_, _, _, rfl, rfl, mirrors, pairs.impartial⟩
  · have handles := handles_load pairs.secure.serves compiles loads
    have idle : ((s.advanced scopes store).loaded lam code).running = false := pairs.idle
    have impartial : ∀ native ∈ ((s.advanced scopes store).loaded lam code).machine.natives,
      native.Impartial fun _ => Object.Pads := pairs.impartial
    rw [loads] at mirrors ⊢
    generalize (s.advanced scopes store).loaded lam code = loaded at *
    have active := suspended_load loads
    obtain ⟨out, m, executed, ran⟩ := handles_runMachine handles.serves rfl 0
    rw [execute_eq active] at executed
    cases executed
    have fits := fits_first loads ran.serves idle fits
    have fits : Fits { loaded with
        machine := (loaded.machine.runAs id unlimited).2
        running := Machine.isUnfinished (loaded.machine.runAs id unlimited).1 } :=
      ⟨fits.slots, fits.constants, fits.code⟩
    have arises := handles.arises pairs.secure.arises
    obtain ⟨cap, loadedData, attained⟩ := arises
    have capped := attained.capped.2 (ran.precedes.fits fits)
    have runs := capped.abides.runs rfl active
    obtain ⟨follows, -⟩ := runs.run (fun _ => id) unlimited () capped.stocked
    have natives : (loaded.machine.runAs id unlimited).2.natives = loaded.machine.natives := by
      rw [Machine.runAs_id]
      exact follows.anchors.natives
    obtain ⟨mirrors⟩ := mirrors
    refine .inr ⟨loaded, _, rfl, rfl, mirrors, impartial, ⟨loadedData, capped.stocked, runs⟩, natives,
      ?_⟩
    intro v m m' ended mirrored
    rw [ended] at ran natives fits
    obtain ⟨_, _, attained⟩ := ran.arises ⟨_, _, attained⟩
    have attained := attained.queue loaded.source loaded.pending v
    obtain ⟨_, _, src, pending, _, last⟩ := loaded
    cases idle
    exact ⟨⟨.intro mirrored, natives ▸ impartial⟩, ⟨⟨_, _, attained⟩,
      ⟨fits.slots, fits.constants, fits.code⟩⟩, rfl⟩

theorem settled_of_proceed {onward : Session → Except ScriptError (Option Value) × Session}
    {res : Except ScriptError (Option Value) × Machine}
    (settled : (proceed onward data s res).1 ≠ .ok none) : res.1 ≠ .ok none := by
  intro unfinished
  apply settled
  obtain ⟨out, m⟩ := res
  cases unfinished
  rfl

section

variable (data : List Datum) (pairs : s.Pairs s')
  (fits : (runDataAs id unlimited data s).2.Fits)

include pairs fits

/-- What data end with where calls are not eliminated is what they end with where calls are, unless
there is no room for padding. -/
theorem emulates_runData : Machine.Emulates Twins (· ≠ .ok none)
    (runDataAs id unlimited data s) fun room => runDataAs Op.plain room data s' := by
  induction data generalizing s s' with
  | nil =>
    obtain ⟨mirrors⟩ := pairs.mirrors
    simp only [runDataAs]
    exact .of_accords (.ok _ ⟨.intro mirrors, pairs.impartial⟩)
  | cons d data ih =>
    rcases pairs.load d data fits with
      ⟨error, after, after', failed, failed', ⟨⟨mirrors⟩, impartial⟩⟩ |
      ⟨loaded, m', loads, loads', launches⟩
    · simp only [runDataAs, failed, failed']
      exact .of_accords (.error rfl rfl ⟨.intro mirrors, impartial⟩)
    · simp only [runDataAs, loads, loads'] at fits ⊢
      obtain ⟨_, secure, runs⟩ := launches.ready
      have emulates := Machine.emulates_run runs secure launches.mirrors launches.impartial
      have continues := @launches.continues
      have impartial := launches.natives ▸ launches.impartial
      generalize loaded.machine.runAs id unlimited = res at *
      constructor
      · intro room settled enough
        have accords := emulates.accords (settled_of_proceed settled)
          (enough.imp_right settled_of_proceed)
        generalize m'.runAs Op.plain room = res' at accords settled ⊢
        rcases accords with ⟨error, failed, overflow⟩ | accords
        · obtain ⟨_, m⟩ := res'
          cases failed
          exact .inl ⟨error, rfl, overflow⟩
        · cases accords with
          | error cause pos mirrors =>
            exact .inr (.error cause pos ⟨.intro mirrors, impartial⟩)
          | ok v mirrors =>
            cases v with
            | none => exact absurd rfl settled
            | some v => exact (ih (continues rfl mirrors) fits).accords settled enough
      · intro settled
        obtain ⟨enough, final, constant, accords⟩ := emulates.settles (settled_of_proceed settled)
        rcases accords with ⟨error, failed, overflow⟩ | accords
        · obtain ⟨_, m⟩ := final
          cases failed
          exact ⟨enough, _, fun room more => by rw [constant room more]; rfl,
            .inl ⟨error, rfl, overflow⟩⟩
        · cases accords with
          | error cause pos mirrors =>
            exact ⟨enough, _, fun room more => by rw [constant room more]; rfl,
              .inr (.error cause pos ⟨.intro mirrors, impartial⟩)⟩
          | ok v mirrors =>
            cases v with
            | none => exact absurd rfl settled
            | some v =>
              obtain ⟨further, final, constant', accords⟩ :=
                (ih (continues rfl mirrors) fits).settles settled
              refine ⟨max enough further, final, fun room more => ?_, accords⟩
              rw [constant room (le_of_max_le_left more)]
              exact constant' room (le_of_max_le_right more)

end

/-! ### Texts -/

def Unfinished (answer : Except ScriptError Value) : Prop :=
  ∃ error, answer = .error error ∧ error.cause = .suspended

theorem natives_start (text : String) (s : Session) :
    (s.start text).2.machine.natives = s.machine.natives := by
  have cancelled : s.cancel.machine.natives = s.machine.natives := by
    unfold cancel
    split
    · obtain ⟨journal, noted⟩ := s.machine.note_eq .debug fun _ =>
        "cancelling with " ++ toString s.pending.length ++ " data queued"
      rw [note, noted]
      rfl
    · rfl
  simp only [start]
  split
  · exact cancelled
  · exact cancelled

section

variable {res res' : Except ScriptError (Option Value) × Session}

theorem conclude_snd : (conclude res).2 = res.2 := by
  match res with
  | (.error _, _) => rfl
  | (.ok (some _), _) => rfl
  | (.ok none, _) => rfl

theorem settled_of_conclude (finished : ¬ Unfinished (conclude res).1) : res.1 ≠ .ok none := by
  intro unfinished
  apply finished
  obtain ⟨_, s⟩ := res
  cases unfinished
  exact ⟨_, rfl, rfl⟩

theorem overflows_conclude (overflows : Overflows res.1) : Overflows (conclude res).1 := by
  obtain ⟨error, failed, cause⟩ := overflows
  obtain ⟨_, s⟩ := res
  cases failed
  exact ⟨error, rfl, cause⟩

theorem accords_conclude (accords : Accords Twins res res') :
    Accords Twins (conclude res) (conclude res') := by
  cases accords with
  | error cause pos twins => exact .error cause pos twins
  | ok v twins =>
    cases v with
    | some v => exact .ok v twins
    | none => exact .error rfl rfl twins

end

section

variable (twins : s.Twins s') (secure : s.Secure) (text : String)
  (fits : (s.evaluate text).2.Fits)

include twins secure fits

/-- A text is read alike: it is not readable, or both sessions have the same data to run. -/
theorem Twins.start :
    (∃ error queued queued', s.start text = (.error error, queued) ∧
      s'.start text = (.error error, queued') ∧ queued.Twins queued') ∨
    ∃ queued queued', s.start text = (.ok (), queued) ∧
      s'.start text = (.ok (), queued') ∧ queued.Pairs queued' ∧ queued'.pending = queued.pending ∧
      (runDataAs id unlimited queued.pending queued).2.Fits := by
  obtain ⟨same, mirrors⟩ := twins.mirrors.start text
  have natives := natives_start text s
  have idle := running_start text s
  have handles := handles_start secure.serves text
  rw [← evaluateReading_id, evaluateReading] at fits
  generalize s.start text = started at *
  generalize s'.start text = started' at *
  obtain ⟨out, queued⟩ := started
  obtain ⟨out', queued'⟩ := started'
  cases same
  have impartial : ∀ native ∈ queued.machine.natives, native.Impartial fun _ => Object.Pads :=
    natives ▸ twins.impartial
  cases out with
  | error error => exact .inl ⟨error, queued, queued', rfl, rfl, mirrors, impartial⟩
  | ok =>
    have pending : queued'.pending = queued.pending := by
      obtain ⟨mirrors⟩ := mirrors
      rfl
    have ran := handles_runData handles.serves 0 queued.pending idle
    simp only [conclude_snd, runDataAs_id] at fits
    obtain ⟨secure, -⟩ := handles.secure secure (ran.precedes.fits fits)
    refine .inr ⟨queued, queued', rfl, rfl, ⟨⟨mirrors, impartial⟩, secure, idle⟩, pending, ?_⟩
    rwa [runDataAs_id]

/-- A text is answered alike where calls are eliminated and where they are not, unless there is no
room for padding or for more instructions. -/
theorem emulates_evaluate : Machine.Emulates Twins (¬ Unfinished ·) (s.evaluate text)
    fun room => s'.evaluateReading Op.plain room text := by
  have started := twins.start secure text fits
  rw [← evaluateReading_id]
  unfold evaluateReading
  rcases started with ⟨error, queued, queued', started, started', twins⟩ |
    ⟨queued, queued', started, started', pairs, pending, fits⟩
  · simp only [started, started']
    exact .of_accords (.error rfl rfl twins)
  · simp only [started, started', pending]
    have emulates := emulates_runData queued.pending pairs fits
    refine ⟨fun finished enough => ?_, fun finished => ?_⟩
    · exact (emulates.accords (settled_of_conclude finished)
        (enough.imp_right settled_of_conclude)).imp overflows_conclude accords_conclude
    · obtain ⟨enough, final, constant, accords⟩ := emulates.settles (settled_of_conclude finished)
      exact ⟨enough, _, fun room more => congrArg conclude (constant room more),
        accords.imp overflows_conclude accords_conclude⟩

end

/-! ### Transcripts -/

end Session

/-- What is seen of the evaluation of a text: the text of the value, or the error without its
backtrace, and what scripts have said so far. -/
structure Answer where
  result : Except (Cause × Position) String
  said : String × List Note

namespace Answer

def ofOutcome : Except ScriptError Value × Session → Answer
  | (.ok value, session) =>
    { result := .ok (session.heap.writeText value), said := session.journal.said }
  | (.error error, session) =>
    { result := .error (error.cause, error.position), said := session.journal.said }

/-- The cause of the error, if there is one. -/
def cause? (answer : Answer) : Option Cause :=
  match answer.result with
  | .ok _ => none
  | .error (cause, _) => some cause

variable {out out' : Except ScriptError Value × Session}

theorem ofOutcome_eq (accords : Accords Session.Twins out out') :
    ofOutcome out' = ofOutcome out := by
  cases accords with
  | ok v twins =>
    obtain @⟨⟨⟨stores, padded⟩⟩, -⟩ := twins
    have same := (stores.heap.resembles likeness_pads).writeText
    simp only [ofOutcome, Session.heap, Machine.heap, Session.journal, same, stores.said]
  | error cause pos twins =>
    obtain ⟨⟨⟨stores, padded⟩⟩, -⟩ := twins
    simp only [ofOutcome, Session.journal, cause, pos, stores.said]

theorem cause?_of_overflows (overflows : Overflows out.1) :
    (ofOutcome out).cause? = some (.failed .stackOverflow) := by
  obtain ⟨error, failed, cause⟩ := overflows
  obtain ⟨_, s⟩ := out
  cases failed
  exact congrArg some cause

theorem cause?_of_unfinished (unfinished : Session.Unfinished out.1) :
    (ofOutcome out).cause? = some .suspended := by
  obtain ⟨error, failed, cause⟩ := unfinished
  obtain ⟨_, s⟩ := out
  cases failed
  exact congrArg some cause

end Answer

namespace Session

variable {session s s' : Session}

/-- The answers to texts that a session is given one after the other. -/
def transcript (evaluate : String → Session → Except ScriptError Value × Session) :
    List String → Session → List Answer
  | [], _ => []
  | text :: texts, session =>
    .ofOutcome (evaluate text session) :: transcript evaluate texts (evaluate text session).2

/-- The session after it has evaluated texts. -/
def evaluateAll (texts : List String) (session : Session) : Session :=
  texts.foldl (fun session text => (session.evaluate text).2) session

theorem precedes_evaluateAll (serves : s.machine.Serves s.scopes)
    (texts : List String) : s.Precedes (s.evaluateAll texts) := by
  induction texts generalizing s with
  | nil => exact .refl s
  | cons text texts ih =>
    have handles := handles_evaluate serves text
    exact handles.precedes.trans (ih handles.serves)

theorem secure_evaluate (secure : s.Secure) {text : String} {texts : List String}
    (fits : (s.evaluateAll (text :: texts)).Fits) :
    (s.evaluate text).2.Fits ∧ (s.evaluate text).2.Secure := by
  have handles := handles_evaluate secure.serves text
  have fits := (precedes_evaluateAll handles.serves texts).fits fits
  exact ⟨fits, (handles.secure secure fits).1⟩

section

variable (texts : List String) (twins : s.Twins s') (secure : s.Secure)
  (fits : (s.evaluateAll texts).Fits)

include twins secure fits

/-- Texts that are all answered where calls are not eliminated are answered in the same way where
they are. -/
theorem transcript_eq {room : Nat}
    (answered : ∀ answer ∈ transcript (evaluateReading Op.plain room) texts s',
      answer.cause? ≠ some (.failed .stackOverflow) ∧ answer.cause? ≠ some .suspended)
    (enough : room ≤ unlimited ∨
      ∀ answer ∈ transcript evaluate texts s, answer.cause? ≠ some .suspended) :
    transcript (evaluateReading Op.plain room) texts s' = transcript evaluate texts s := by
  induction texts generalizing s s' with
  | nil => rfl
  | cons text texts ih =>
    obtain ⟨fits', secured⟩ := secure_evaluate secure fits
    simp only [transcript, List.forall_mem_cons] at answered enough ⊢
    obtain ⟨⟨room_left, finished⟩, answered⟩ := answered
    have accords := (emulates_evaluate twins secure text fits').accords
      (fun unfinished => finished (Answer.cause?_of_unfinished unfinished))
      (enough.imp_right fun ⟨finished, _⟩ unfinished =>
        finished (Answer.cause?_of_unfinished unfinished))
    rcases accords with overflows | accords
    · exact absurd (Answer.cause?_of_overflows overflows) room_left
    · rw [Answer.ofOutcome_eq accords,
        ih accords.states secured fits answered (enough.imp_right And.right)]

/-- Texts that are all answered where calls are eliminated are answered in the same way where they
are not, unless there is no room for padding. -/
theorem transcript_eventually
    (answered : ∀ answer ∈ transcript evaluate texts s, answer.cause? ≠ some .suspended) :
    ∃ enough, ∀ room, enough ≤ room →
      (∃ answer ∈ transcript (evaluateReading Op.plain room) texts s',
        answer.cause? = some (.failed .stackOverflow)) ∨
      transcript (evaluateReading Op.plain room) texts s' = transcript evaluate texts s := by
  induction texts generalizing s s' with
  | nil => exact ⟨0, fun _ _ => .inr rfl⟩
  | cons text texts ih =>
    obtain ⟨fits', secured⟩ := secure_evaluate secure fits
    simp only [transcript, List.forall_mem_cons, List.exists_mem_cons_iff] at answered ⊢
    obtain ⟨finished, answered⟩ := answered
    obtain ⟨enough, out, reaches, accords⟩ := (emulates_evaluate twins secure text fits').settles
      fun unfinished => finished (Answer.cause?_of_unfinished unfinished)
    rcases accords with overflows | accords
    · refine ⟨enough, fun room more => .inl (.inl ?_)⟩
      rw [reaches room more]
      exact Answer.cause?_of_overflows overflows
    · obtain ⟨further, follows⟩ := ih accords.states secured fits answered
      refine ⟨max enough further, fun room more => ?_⟩
      rw [reaches room (le_of_max_le_left more), Answer.ofOutcome_eq accords]
      rcases follows room (le_of_max_le_right more) with overflows | same
      · exact .inl (.inr overflows)
      · exact .inr (congrArg _ same)

end

/-- A session that has not been given a text yet, with or without the standard library. -/
inductive Fresh : Session → Prop where
  | create (source : Option String) (ceiling : Nat) : Fresh (create source ceiling)
  | blank (source : Option String) (ceiling : Nat) : Fresh (blank source ceiling)

theorem natives_foldl {α : Type} {step : Session → α → Session}
    (each : ∀ s item, (step s item).machine.natives = s.machine.natives)
    (xs : List α) (s : Session) : (xs.foldl step s).machine.natives = s.machine.natives := by
  induction xs generalizing s with
  | nil => rfl
  | cons item xs ih => exact (ih _).trans (each s item)

theorem Fresh.natives (fresh : s.Fresh) : s.machine.natives = Stdlib.registry := by
  cases fresh with
  | blank src cap => rfl
  | create src cap =>
    unfold Session.create
    extract_lets m start defined scopes
    have natives : defined.machine.natives = start.machine.natives := by
      apply natives_foldl
      intro s binding
      rfl
    -- Otherwise the scopes would be computed to compare the sessions.
    clear_value scopes defined
    refine (natives_foldl ?_ preludeData _).trans natives
    intro s d
    rfl

theorem Fresh.secure (fresh : s.Fresh) : s.machine.Serves s.scopes ∧ (s.Fits → s.Secure) := by
  cases fresh with
  | blank src cap => exact Reached.secure (.blank src cap)
  | create src cap => exact Reached.secure (.create src cap)

theorem Fresh.twins (fresh : s.Fresh) : s.Twins s := by
  constructor
  · have heaps := Heap.Alike.refl (fun _ obj => Object.Pads.same obj) s.heap
    exact .intro (.intro ⟨heaps, rfl, rfl⟩ (.refl _))
  · rw [fresh.natives]
    exact Stdlib.impartial_registry likeness_pads

/-- Eliminating calls in tail position preserves meaning. Take the answers of a session to any texts,
as values in text, output and errors, and those that it would give if each call in tail position
were made like any other and left the procedure later. If every text is answered by the latter, and
none because the stacks are full, then the answers are the same. Conversely, if every text is
answered by the former, so it is by the latter, given room for enough instructions; and the answers
are the same then, or the stacks are full at some point. -/
theorem transcript_without_elimination (fresh : session.Fresh) (texts : List String)
    (fits : (session.evaluateAll texts).Fits) :
    (∀ room, (room ≤ Machine.unlimited ∨
        ∀ answer ∈ transcript evaluate texts session, answer.cause? ≠ some .suspended) →
      (∀ answer ∈ transcript (evaluateReading Op.plain room) texts session,
        answer.cause? ≠ some (.failed .stackOverflow) ∧ answer.cause? ≠ some .suspended) →
      transcript (evaluateReading Op.plain room) texts session =
        transcript evaluate texts session) ∧
    ((∀ answer ∈ transcript evaluate texts session, answer.cause? ≠ some .suspended) →
      ∃ enough, ∀ room, enough ≤ room →
        (∃ answer ∈ transcript (evaluateReading Op.plain room) texts session,
          answer.cause? = some (.failed .stackOverflow)) ∨
        transcript (evaluateReading Op.plain room) texts session =
          transcript evaluate texts session) := by
  obtain ⟨serves, secured⟩ := fresh.secure
  have secure := secured ((precedes_evaluateAll serves texts).fits fits)
  constructor
  · intro room enough answered
    exact transcript_eq texts fresh.twins secure fits answered enough
  · exact transcript_eventually texts fresh.twins secure fits

/-- A procedure that calls others in tail position, among them one that is not a procedure. -/
def relay : List String :=
  ["(define (same x) x)", "(define (relay f x) (if x (f x) (x)))", "(relay same 5)",
    "(relay same #f)"]

/-- The stacks have room for both ways of calling, and the last text fails in both. -/
theorem transcript_without_elimination_relay :
    transcript (evaluateReading Op.plain 40) relay (blank none 16) =
        transcript evaluate relay (blank none 16) ∧
      (transcript evaluate relay (blank none 16)).map (fun answer => answer.result.toOption) =
        [some "", some "", some "5", none] ∧
      (transcript evaluate relay (blank none 16)).map (fun answer => answer.cause?) =
        [none, none, none, some (.failed .notAProcedure)] := by
  have fits : ((blank none 16).evaluateAll relay).fitsWithin 3 = true := by
    decide +kernel
  have answered : (transcript (evaluateReading Op.plain 40) relay (blank none 16)).all (fun answer =>
      decide (answer.cause? ≠ some (.failed .stackOverflow) ∧ answer.cause? ≠ some .suspended)) =
        true := by
    decide +kernel
  simp only [List.all_eq_true, decide_eq_true_eq] at answered
  have same := (transcript_without_elimination (.blank none 16) relay (fits_of_fitsWithin fits)).1 40
    (.inl (by decide)) answered
  refine ⟨same, ?_, ?_⟩
  · rw [← same]
    decide +kernel
  · rw [← same]
    decide +kernel

end Session

end MiniScheme
