import MiniScheme.Compiler.Form

/-!
# The compiler

Turns data into code, one at a time. Forms and expansions nest to a fixed depth.
-/

namespace MiniScheme.Compiler

/-- How deep forms and expansions may nest. -/
def maxDepth : Nat := 256

/-- The names that only have a meaning as part of other forms. -/
def keywords : List String :=
  ["else", "=>", wildcard, ellipsis, Quasi.unquote, Quasi.unquoteSplicing]

/-- Compiles a form with the given nesting left. -/
def compile : Nat → Recur
  | 0 => fun datum _ => CompileM.fail .tooDeep datum
  | room + 1 => form (compile room)

/-- Compiles a datum of its own. The code ends by handing over a value, or without one if the datum
only defined something. -/
def compileTopLevel (datum : Datum) (scope : ScopeRef) : CompileM Bytecode := do
  let result ← compile maxDepth datum (.ofTopLevel scope)
  let after ← flush (compile maxDepth) scope
  let code := result.code ++ after ++ .ofOp (if result.pushes then .exit else .lambdaExit)
  CompileM.note .debug fun _ => "compiled " ++ datum.text ++ ":\n" ++ code.listing
  return code

end MiniScheme.Compiler
