import MiniScheme.Compiler
import MiniScheme.Machine.Run
import MiniScheme.Session.Prelude

/-!
# Sessions

A session reads, compiles and runs script text. Definitions accumulate from one text to the next.
The data of a text are compiled one by one, each after the one before it has run, so a datum sees
the definitions that were made before it. A datum that does not compile leaves no trace.
-/

namespace MiniScheme

/-- A machine, the scopes that its code is compiled in, and the data still to be run. -/
structure Session where
  machine : Machine
  scopes : Scopes
  /-- The name that positions are attributed to, such as that of a file. -/
  source : Option String := none
  /-- Data read but not compiled yet. -/
  pending : List Datum := []
  running : Bool := false
  /-- The value of the latest datum. -/
  last : Value := .unspecified

namespace Session

/-- How much the stacks may hold unless a session is told otherwise. -/
def defaultCeiling : Nat := 100000

@[inline] def onStore {α : Type} (work : Store → α × Store) (session : Session) : α × Session :=
  match session with
  | { machine, scopes, source, pending, running, last } =>
    let (result, machine) := machine.onStore work
    (result, { machine, scopes, source, pending, running, last })

@[inline] def onHeap {α : Type} (work : Heap → α × Heap) (session : Session) : α × Session :=
  session.onStore fun store => store.onHeap work

def note (detail : Detail) (message : Unit → String) (session : Session) : Session :=
  { session with machine := session.machine.note detail message }

def heap (session : Session) : Heap :=
  session.machine.heap

/-- What scripts printed and what was noted. -/
def journal (session : Session) : Journal :=
  session.machine.store.journal

def withJournal (journal : Journal) (session : Session) : Session :=
  (session.onStore fun store => ((), { store with journal })).2

/-- Binds a name in the global scope, where every script sees it unless it defines the name
itself. -/
def define (name : String) (value : Value) (session : Session) : Session :=
  match session with
  | { machine, scopes, source, pending, running, last } =>
    let (scopes, machine) := machine.onHeap fun heap =>
      let (_, scopes, heap) := scopes.addVariable globalScope name none (some value) heap
      (scopes, heap)
    { machine, scopes, source, pending, running, last }

def defineNative (native : Native) (session : Session) : Session :=
  let (value, machine) := session.machine.addNative native
  { session with machine }.define native.name value

/-- Shows an object of the application to scripts. -/
def addHost (object : HostObject) (session : Session) : HostRef × Session :=
  session.onStore fun store => store.addHost object

/-- Compiles a datum. If it fails, the scopes are as they were. -/
def compile (datum : Datum) (scope : ScopeRef) (session : Session) :
    Except CompileError Bytecode × Session :=
  match session with
  | { machine, scopes, source, pending, running, last } =>
    let checkpoint := scopes.checkpoint
    let ((outcome, scopes), machine) := machine.onStore fun store =>
      match Compiler.compileTopLevel datum scope { scopes, store } with
      | .ok code { scopes, store } => ((.ok code, scopes), store)
      | .error error { scopes, store } =>
        let (scopes, store) := store.onHeap fun heap => scopes.rollback checkpoint heap
        ((.error error, scopes), store)
    (outcome, { machine, scopes, source, pending, running, last })

def preludeData : List Datum :=
  match read { text := prelude, name := some "prelude" } with
  | .ok data => data
  | .error _ => []

/-- Compiles the prelude. It only defines transformers, so nothing has to run. -/
def loadPrelude (session : Session) : Session :=
  preludeData.foldl (fun session datum => (session.compile datum globalScope).2) session

/-- A session with the standard procedures, the keywords and the prelude. -/
def create (source : Option String) (ceiling : Nat := defaultCeiling) : Session :=
  let machine := Machine.initial ceiling
  let session : Session :=
    { machine, scopes := .initial machine.global machine.topLevel, source }
  let session := Stdlib.definitions.foldl (fun session (name, value) => session.define name value)
    session
  let scopes := Compiler.keywords.foldl (fun scopes name => scopes.bindKeyword globalScope name)
    session.scopes
  { session with scopes }.loadPrelude

/-- Abandons the current computation and the data still to be run. Definitions stay. -/
def cancel (session : Session) : Session :=
  let session :=
    if session.running || !session.pending.isEmpty then
      session.note .debug fun _ =>
        "cancelling with " ++ toString session.pending.length ++ " data queued"
    else session
  { session with
    machine := session.machine.reset, pending := [], running := false, last := .unspecified }

/-- Reads a text whose positions are attributed to the session's source. -/
def readText (text : String) (session : Session) : Except ScriptError (List Datum) :=
  let source : Source := { text, name := session.source }
  match read source with
  | .ok data => .ok data
  | .error error => .error (.ofRead source error)

/-- Reads a text and queues its data without running anything. Whatever was running is
abandoned. -/
def start (text : String) (session : Session) : Except ScriptError Unit × Session :=
  let session := session.cancel
  match session.readText text with
  | .ok data => (.ok (), { session with pending := data })
  | .error error => (.error error, session)

/-- Compiles a datum and appends it to the code of the top level. -/
def load (datum : Datum) (session : Session) : Except ScriptError Unit × Session :=
  match session.compile datum topLevelScope with
  | (.error error, session) => (.error (.ofCompile error), session)
  | (.ok code, session) =>
    match session with
    | { machine, scopes, source, pending, running, last } =>
      let constants := scopes.constants topLevelScope
      match machine.append constants code with
      | .ok machine => (.ok (), { machine, scopes, source, pending, running, last })
      | .error fault =>
        (.error { cause := .failed fault, position := datum.position },
          { machine, scopes, source, pending, running, last })

/-- Abandons the data still to be run after an error. -/
def abandon (session : Session) : Session :=
  { session with pending := [], running := false }

/-- Runs the machine on the current datum. -/
@[specialize] def runMachine {σ : Type} (observe : Op → σ → σ) (cycles : Nat) (observed : σ)
    (session : Session) : Except ScriptError (Option Value) × σ × Session :=
  match session with
  | { machine, scopes, source, pending, running, last } =>
    let (outcome, observed, machine) := machine.execute observe observed cycles
    (outcome, observed, { machine, scopes, source, pending, running, last })

/-- Compiles and runs data one by one, each for at most a number of instructions. -/
@[specialize] def runData {σ : Type} (observe : Op → σ → σ) (cycles : Nat) :
    List Datum → σ → Session → Except ScriptError (Option Value) × σ × Session
  | [], observed, session =>
    let value := session.last
    (.ok (some value), observed, { session with pending := [], last := .unspecified })
  | datum :: data, observed, session =>
    match session.load datum with
    | (.error error, session) => (.error error, observed, session.abandon)
    | (.ok (), session) =>
      match session.runMachine observe cycles observed with
      | (.error error, observed, session) => (.error error, observed, session.abandon)
      | (.ok none, observed, session) =>
        (.ok none, observed, { session with pending := data, running := true })
      | (.ok (some value), observed, session) =>
        runData observe cycles data observed { session with last := value }

/-- Runs what is queued, for at most a number of instructions per datum (none for no limit). Without
a value there is more to do: run again, or wake the session first if it is suspended. -/
@[specialize] def executeWith {σ : Type} (observe : Op → σ → σ) (observed : σ) (cycles : Nat)
    (session : Session) : Except ScriptError (Option Value) × σ × Session :=
  if session.running then
    match session.runMachine observe cycles observed with
    | (.error error, observed, session) => (.error error, observed, session.abandon)
    | (.ok none, observed, session) => (.ok none, observed, session)
    | (.ok (some value), observed, session) =>
      let data := session.pending
      runData observe cycles data observed { session with last := value, running := false }
  else
    let data := session.pending
    runData observe cycles data observed session

def execute (cycles : Nat) (session : Session) : Except ScriptError (Option Value) × Session :=
  let (outcome, (), session) := session.executeWith (fun _ => id) () cycles
  (outcome, session)

/-- Reads, compiles and runs a text and answers with the value of its last datum. A native procedure
that defers its result is an error here, but the session can be woken and run on. -/
def evaluate (text : String) (session : Session) : Except ScriptError Value × Session :=
  match session.start text with
  | (.error error, session) => (.error error, session)
  | (.ok (), session) => match session.execute 0 with
    | (.error error, session) => (.error error, session)
    | (.ok (some value), session) => (.ok value, session)
    | (.ok none, session) => (.error { cause := .suspended }, session)

/-- Evaluates a text whose positions are attributed to another source. -/
def evaluateAs (source : String) (text : String) (session : Session) :
    Except ScriptError Value × Session :=
  let previous := session.source
  let (outcome, session) := { session with source := some source }.evaluate text
  (outcome, { session with source := previous })

/-- Supplies the result that a native procedure owes; false if none does. -/
def wake (value : Value) (session : Session) : Bool × Session :=
  let (woke, machine) := session.machine.wake value
  (woke, { session with machine })

/-- Whether a native procedure owes its result. -/
def isSuspended (session : Session) : Bool :=
  session.machine.isSuspended

/-- Frees every object that scripts can no longer reach. -/
def collect (session : Session) : CollectStats × Session :=
  let (stats, machine) := session.machine.collect
  (stats, { session with machine }.note .debug fun _ => "collected: " ++ stats.text)

/-- Compiles data without running them and lists their code, after a listing made so far. -/
def listData : List Datum → String → Session → Except ScriptError String × Session
  | [], listing, session => (.ok listing, session)
  | datum :: data, listing, session =>
    match session.compile datum topLevelScope with
    | (.error error, session) => (.error (.ofCompile error), session)
    | (.ok code, session) =>
      let lambda : Lambda :=
        { Lambda.empty with
          name := some "top-level", constants := session.scopes.constants topLevelScope
          body := code }
      listData data (listing ++ lambda.listing session.heap) session

/-- Compiles a text without running it and lists its code. Definitions are kept, so later data can
refer to them. -/
def disassemble (text : String) (session : Session) : Except ScriptError String × Session :=
  match session.readText text with
  | .ok data => listData data "" session
  | .error error => (.error error, session)

end Session

end MiniScheme
