import MiniScheme.Program

/-!
# The command line

With a file the script in it is run, or with `--list` its code is listed. Without a file every line
of the input is taken as a text of its own. If the variable `PROFILE` is not empty, the shares of
the instructions that a script from a file carried out are written to the error stream.
-/

namespace MiniScheme.Main

/-- Writes text without waiting for the end of a line. -/
def write (text : String) : IO Unit := do
  let output ← IO.getStdout
  output.putStr text
  output.flush

/-- Writes a report and answers with its code. -/
def finish (report : Program.Report) : IO UInt32 := do
  write report.output
  (← IO.getStderr).putStr report.errors
  return report.code.toUInt32

/-- The content of a file, or the report on why it cannot be read. -/
def contentOf (name : String) : IO (Except Program.Report String) := do
  try
    return .ok (← IO.FS.readFile name)
  catch
    | .noFileOrDirectory .. => return .error (Program.missingFile name)
    | error =>
      let reason := "Unable to read " ++ name ++ ": " ++ toString error ++ "\n"
      return .error { errors := reason, code := 1 }

/-- How many instructions are carried out before printed text is written. -/
def slice : Nat := 1000000

/-- Runs what a session has queued, writing printed text as it comes. -/
partial def runOn (session : Session) (tally : Tally) : IO (Except ScriptError Value × Tally) := do
  let (outcome, tally, session) := session.executeWith Tally.count tally slice
  let (printed, session) := Program.takePrinted session
  write printed
  match outcome with
  | .error error => return (.error error, tally)
  | .ok (some value) => return (.ok value, tally)
  | .ok none =>
    if session.isSuspended then return (.error { cause := .suspended }, tally)
    else runOn session tally

def runFile (name text : String) : IO UInt32 := do
  let (outcome, session) := (Session.create (some name)).start text
  let (outcome, tally) ← match outcome with
    | .error error => pure (.error error, {})
    | .ok () => runOn session {}
  if (← IO.getEnv "PROFILE").any fun value => !value.isEmpty then
    for line in tally.shares.getD [] do (← IO.getStderr).putStrLn line
  finish (Program.reportRun "" outcome)

/-- Treats every line of the input as a text of its own. -/
partial def eachLine (prompt : String) (work : String → Session → String × Session)
    (session : Session) : IO Unit := do
  write prompt
  let line ← (← IO.getStdin).getLine
  match Program.lines line with
  | [] => return ()
  | text :: _ =>
    let (written, session) := work text session
    write written
    eachLine prompt work session

end MiniScheme.Main

/-- The command line of the program. -/
def main (arguments : List String) : IO UInt32 := do
  match arguments with
  | [] =>
    MiniScheme.Main.eachLine "" MiniScheme.Program.runLine MiniScheme.Program.lineSession
    return 0
  | ["--list"] =>
    MiniScheme.Main.eachLine MiniScheme.Program.prompt MiniScheme.Program.listLine
      (MiniScheme.Session.create none)
    return 0
  | ["--list", name] => match ← MiniScheme.Main.contentOf name with
    | .ok text => MiniScheme.Main.finish (MiniScheme.Program.listFile name text)
    | .error report => MiniScheme.Main.finish report
  | name :: _ => match ← MiniScheme.Main.contentOf name with
    | .ok text => MiniScheme.Main.runFile name text
    | .error report => MiniScheme.Main.finish report
