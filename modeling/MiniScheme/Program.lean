import MiniScheme.Session
import MiniScheme.Machine.Tally

/-!
# The two programs

One program runs scripts, the other lists their code. Each takes a file, or reads lines and treats
every line as a text of its own. What a program writes is a function of what it reads.
-/

namespace MiniScheme.Program

/-- What a program writes, and the code that it ends with. -/
structure Report where
  output : String := ""
  errors : String := ""
  code : Nat := 0
  deriving DecidableEq, Repr, Inhabited

/-- The report on a file that does not exist. -/
def missingFile (name : String) : Report :=
  { errors := "Unable to read " ++ name ++ ": No such file or directory (os error 2)\n", code := 1 }

/-- A line without a carriage return at its end. -/
def trimReturn (line : String) : String :=
  if line.endsWith "\r" then (line.dropEnd 1).toString else line

/-- The lines among the pieces between line feeds. What follows the last line feed is a line as it
is, unless it is empty. -/
def ofPieces : List String → List String
  | [] => []
  | [last] => if last.isEmpty then [] else [last]
  | piece :: pieces => trimReturn piece :: ofPieces pieces

/-- The lines of an input, without their ends. -/
def lines (input : String) : List String :=
  ofPieces (input.splitOn "\n")

/-- Takes what scripts printed out of the session. -/
def takePrinted (session : Session) : String × Session :=
  (session.journal.printed, session.withJournal session.journal.clear)

/-- The report on a script that was run. -/
def reportRun (printed : String) : Except ScriptError Value → Report
  | .ok _ => { output := printed }
  | .error error => { output := printed ++ error.expanded ++ "\n", code := 1 }

def runFile (name text : String) : Report :=
  let (outcome, session) := (Session.create (some name)).evaluate text
  reportRun (takePrinted session).1 outcome

/-- Runs a line: what is written, and the session after it. Values without text are not shown. -/
def runLine (line : String) (session : Session) : String × Session :=
  let (outcome, session) := session.evaluate line
  let (printed, session) := takePrinted session
  match outcome with
  | .ok .unspecified => (printed, session)
  | .ok value => (printed ++ session.heap.writeText value ++ "\n", session)
  | .error error => (printed ++ error.expanded ++ "\n", session)

/-- The session that lines are run in. -/
def lineSession : Session :=
  Session.create (some "repl")

/-- Runs lines one after the other. -/
def runLines (input : String) : Report :=
  let (output, _) := (lines input).foldl (fun (output, session) line =>
    let (text, session) := runLine line session
    (output ++ text, session)) ("", lineSession)
  { output := output }

/-- Lists the code of a script from a file. -/
def listFile (name text : String) : Report :=
  match ((Session.create (some name)).disassemble text).1 with
  | .ok listing => { output := listing }
  | .error error => { output := error.expanded ++ "\n", code := 1 }

/-- What is written before a line is read. -/
def prompt : String := "> "

/-- Lists the code of a line: what is written, and the session after it. -/
def listLine (line : String) (session : Session) : String × Session :=
  match session.disassemble line with
  | (.ok listing, session) => (listing, session)
  | (.error error, session) => (error.expanded ++ "\n", session)

def listLines (input : String) : Report :=
  let (output, _) := (lines input).foldl (fun (output, session) line =>
    let (text, session) := listLine line session
    (output ++ text ++ prompt, session)) (prompt, Session.create none)
  { output := output }

end MiniScheme.Program
