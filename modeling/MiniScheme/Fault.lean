/-!
# What goes wrong while a procedure runs

A `Fault` is the cause of a runtime error. A `Defect` is a fault of the code itself rather than of
the script: compiled code never shows one, but the machine also runs code from elsewhere.
-/

namespace MiniScheme

/-- Ways in which code can be broken. -/
inductive Defect where
  | invalidInstruction
  | missingOperand
  | emptyStack
  | shortStack
  | noOperandCount
  | emptyCall
  | noEnclosingFrame
  | badConstant
  | badVariable
  | badLambda
  | returnWithoutCaller
  | jumpOutOfBounds
  | danglingClosure
  | danglingContinuation
  | danglingNative
  | noTopLevelClosure
  deriving DecidableEq, Repr, Inhabited

def Defect.text : Defect → String
  | .invalidInstruction => "invalid instruction"
  | .missingOperand => "missing operand"
  | .emptyStack => "empty stack"
  | .shortStack => "short stack"
  | .noOperandCount => "no operand count"
  | .emptyCall => "empty call"
  | .noEnclosingFrame => "no enclosing frame"
  | .badConstant => "bad constant"
  | .badVariable => "bad variable"
  | .badLambda => "bad lambda"
  | .returnWithoutCaller => "return without caller"
  | .jumpOutOfBounds => "jump out of bounds"
  | .danglingClosure => "dangling closure"
  | .danglingContinuation => "dangling continuation"
  | .danglingNative => "dangling native"
  | .noTopLevelClosure => "no top-level closure"

/-- How many arguments a procedure takes: a number, and possibly more. -/
structure Arity where
  required : Nat
  variadic : Bool := false
  deriving DecidableEq, Repr, Inhabited

def Arity.accepts (arity : Arity) (count : Nat) : Bool :=
  count == arity.required || (arity.variadic && arity.required < count)

/-- Why a procedure failed. -/
inductive Fault where
  | wrongArity (arity : Arity)
  | notAProcedure
  | invalidArgument
  | invalidIndex
  | integerOverflow
  | divisionByZero
  | stackOverflow
  | unknownProperty (name : String)
  /-- A call that keeps applying `apply` without ever reaching a procedure. -/
  | endlessApply
  | defect (defect : Defect)
  /-- A failure in the words of the embedding application. -/
  | host (message : String)
  deriving DecidableEq, Repr, Inhabited

def Arity.complaint (arity : Arity) : String :=
  let bound := if arity.variadic then "at least" else "exactly"
  if arity.required = 1 then "Requires " ++ bound ++ " one argument."
  else "Requires " ++ bound ++ " " ++ toString arity.required ++ " arguments."

def Fault.message : Fault → String
  | .wrongArity arity => arity.complaint
  | .notAProcedure => "Not a procedure."
  | .invalidArgument => "Invalid argument."
  | .invalidIndex => "Invalid index."
  | .integerOverflow => "Integer overflow."
  | .divisionByZero => "Division by zero."
  | .stackOverflow => "Stack overflow."
  | .unknownProperty name => "Unknown property " ++ name ++ "."
  | .endlessApply => "Endless apply."
  | .defect broken => "Internal error: " ++ broken.text ++ "."
  | .host words => words

end MiniScheme
