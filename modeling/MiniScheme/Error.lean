import MiniScheme.Datum.Reader
import MiniScheme.Fault

/-!
# Errors reported to the embedding application

A `ScriptError` has a cause, the position it is reported at and, for runtime errors, one further
position for every pending call. Its wording is a function of the cause.
-/

namespace MiniScheme

/-- Why a datum cannot be compiled. -/
inductive CompileFault where
  | invalidExpression
  | unresolvedSymbol
  | notAVariable
  | misplacedDefinition
  | invalidDefinition
  | invalidLambda
  | invalidFormals
  | invalidArgument
  | duplicateArgument
  | emptyBody
  | tooDeep
  | notATransformer
  | invalidTransformer
  | invalidRules
  | invalidLiterals
  | invalidRule
  | invalidPattern
  | duplicateVariable
  | invalidTemplate
  | noMatchingRule
  deriving DecidableEq, Repr, Inhabited

def CompileFault.message : CompileFault → String
  | .invalidExpression => "Invalid expression."
  | .unresolvedSymbol => "Unresolved symbol."
  | .notAVariable => "Not a variable."
  | .misplacedDefinition => "Definitions not allowed here."
  | .invalidDefinition => "Invalid definition."
  | .invalidLambda => "Invalid lambda."
  | .invalidFormals => "Invalid formals."
  | .invalidArgument => "Invalid argument."
  | .duplicateArgument => "Duplicate argument."
  | .emptyBody => "Function has no body."
  | .tooDeep => "Expression too deeply nested."
  | .notATransformer => "Not a macro transformer."
  | .invalidTransformer => "Invalid macro transformer."
  | .invalidRules => "Invalid syntax rules."
  | .invalidLiterals => "Invalid literals."
  | .invalidRule => "Invalid rule."
  | .invalidPattern => "Invalid pattern."
  | .duplicateVariable => "Duplicate variable."
  | .invalidTemplate => "Invalid template."
  | .noMatchingRule => "No matching syntax rule."

/-- A compile-time fault and the position of the form at fault. -/
structure CompileError where
  fault : CompileFault
  position : Position
  deriving DecidableEq, Repr, Inhabited

/-- The cause of an error. -/
inductive Cause where
  /-- The text could not be read into data. -/
  | unreadable (error : ReadError)
  /-- A datum could not be compiled; nothing of it was run. -/
  | uncompilable (fault : CompileFault)
  /-- A procedure failed while running. -/
  | failed (fault : Fault)
  /-- A native procedure deferred its result during a synchronous evaluation. -/
  | suspended
  deriving DecidableEq, Repr, Inhabited

def Cause.message : Cause → String
  | .unreadable error => error.message
  | .uncompilable fault => fault.message
  | .failed fault => fault.message
  | .suspended => "Suspended."

/-- An error raised while reading, compiling or running a script. -/
structure ScriptError where
  cause : Cause
  position : Position := {}
  /-- The positions of the pending calls, innermost first. -/
  backtrace : List Position := []
  deriving DecidableEq, Repr, Inhabited

namespace ScriptError

def ofRead (source : Source) (error : ReadError) : ScriptError :=
  { cause := .unreadable error, position := { source := some source, location := error.location } }

def ofCompile (error : CompileError) : ScriptError :=
  { cause := .uncompilable error.fault, position := error.position }

/-- A runtime error at the innermost of a number of frames; the others form the backtrace. -/
def ofFrames (fault : Fault) : List Position → ScriptError
  | [] => { cause := .failed fault }
  | position :: backtrace => { cause := .failed fault, position, backtrace }

def message (error : ScriptError) : String :=
  error.cause.message

/-- One line for every pending call. -/
def trail (error : ScriptError) : String :=
  error.backtrace.foldl (fun text position => text ++ "\n  at " ++ position.compact) ""

/-- The position in compact form, the message, and the backtrace. -/
def compact (error : ScriptError) : String :=
  error.position.compact ++ ": " ++ error.message ++ error.trail

/-- The position with its source line, the message, and the backtrace. -/
def expanded (error : ScriptError) : String :=
  error.position.expanded ++ error.message ++ error.trail

end ScriptError

end MiniScheme
