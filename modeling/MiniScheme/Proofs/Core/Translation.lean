import MiniScheme.Proofs.Code.Verifier
import MiniScheme.Proofs.Core.Expression

/-!
# Code of expressions

Which bytes are code of an expression, given the constants of the procedure that they are part of
and the names that are known there. The relation says how code is laid out and nothing about what it
does.
-/

namespace MiniScheme

/-- Operands can count the bytes and the constants of the procedure. -/
structure Lambda.Addressable (lambda : Lambda) : Prop where
  code : lambda.body.size ≤ operandLimit
  constants : lambda.constants.size ≤ operandLimit

mutual

/-- `Translates pool namings tail expression bytes`: the bytes are code of the expression. In tail
position, calls take the place of the procedure. -/
inductive Translates :
    Array Constant → List Naming → Bool → Expression → List UInt8 → Prop where
  | literal {pool : Array Constant} {namings : List Naming} {tail : Bool} {value : Value}
      {index : Nat} (found : pool[index]? = some (.value value)) :
      Translates pool namings tail (.literal value)
        (Bytecode.ofOp .constant [.ofNat index]).stream
  | variable {pool : Array Constant} {namings : List Naming} {tail : Bool} {name : String}
      {depth slot : Nat} (place : place? namings name = some (depth, slot))
      (near : depth < operandLimit) (small : slot < operandLimit) :
      Translates pool namings tail (.variable name)
        (Bytecode.ofOp .variable [.ofNat depth, .ofNat slot]).stream
  | conditional {pool : Array Constant} {namings : List Naming} {tail : Bool}
      {test consequent alternate : Expression} {tested yes no : List UInt8}
      (condition : Translates pool namings false test tested)
      (chosen : Translates pool namings tail consequent yes)
      (other : Translates pool namings tail alternate no) :
      Translates pool namings tail (.conditional test consequent alternate)
        (tested ++
          ((Bytecode.ofOp .conditionalJump [.ofNat (yes.length + Op.jump.size)]).stream ++
            (yes ++ ((Bytecode.ofOp .jump [.ofNat no.length]).stream ++ no))))
  | sequence {pool : Array Constant} {namings : List Naming} {tail : Bool}
      {first second : Expression} {bytes bytes' : List UInt8}
      (dropped : Translates pool namings false first bytes)
      (last : Translates pool namings tail second bytes') :
      Translates pool namings tail (.sequence first second)
        (bytes ++ ((Bytecode.ofOp .pop).stream ++ bytes'))
  | assignment {pool : Array Constant} {namings : List Naming} {tail : Bool} {name : String}
      {expression : Expression} {bytes : List UInt8} {depth slot index : Nat}
      (place : place? namings name = some (depth, slot)) (near : depth < operandLimit)
      (small : slot < operandLimit) (value : Translates pool namings false expression bytes)
      (found : pool[index]? = some (.value .unspecified)) :
      Translates pool namings tail (.assignment name expression)
        (bytes ++ ((Bytecode.ofOp .setVariable [.ofNat depth, .ofNat slot]).stream ++
          (Bytecode.ofOp .constant [.ofNat index]).stream))
  | lambda {pool : Array Constant} {namings : List Naming} {tail : Bool}
      {abstraction : Abstraction} {lambda : Lambda} {index : Nat}
      (found : pool[index]? = some (.lambda lambda))
      (implements : Implements namings lambda abstraction) :
      Translates pool namings tail (.lambda abstraction)
        (Bytecode.ofOp .lambda [.ofNat index]).stream
  | call {pool : Array Constant} {namings : List Naming} {tail : Bool} {callee : Expression}
      {arguments : List Expression} {bytes : List UInt8}
      (operands : TranslatesAll pool namings (callee :: arguments) bytes) :
      Translates pool namings tail (.call callee arguments)
        ((Bytecode.ofOp .resetOperandCount).stream ++
          (bytes ++ [(if tail then Op.tailCall else Op.call).toByte]))

/-- The bytes are code of the expressions, one after the other. -/
inductive TranslatesAll :
    Array Constant → List Naming → List Expression → List UInt8 → Prop where
  | nil {pool : Array Constant} {namings : List Naming} : TranslatesAll pool namings [] []
  | cons {pool : Array Constant} {namings : List Naming} {expression : Expression}
      {others : List Expression} {bytes bytes' : List UInt8}
      (first : Translates pool namings false expression bytes)
      (rest : TranslatesAll pool namings others bytes') :
      TranslatesAll pool namings (expression :: others) (bytes ++ bytes')

/-- The bytes are code that gives names of the innermost procedure their values. -/
inductive Defines :
    Array Constant → List Naming → List (String × Expression) → List UInt8 → Prop where
  | nil {pool : Array Constant} {namings : List Naming} : Defines pool namings [] []
  | cons {pool : Array Constant} {namings : List Naming} {name : String} {expression : Expression}
      {others : List (String × Expression)} {bytes bytes' : List UInt8} {slot : Nat}
      (place : place? namings name = some (0, slot)) (small : slot < operandLimit)
      (value : Translates pool namings false expression bytes)
      (rest : Defines pool namings others bytes') :
      Defines pool namings ((name, expression) :: others)
        (bytes ++ ((Bytecode.ofOp .setVariable [.ofNat 0, .ofNat slot]).stream ++ bytes'))

/-- `Implements namings lambda abstraction`: the procedure has been compiled where these names are
known. -/
inductive Implements : List Naming → Lambda → Abstraction → Prop where
  | intro {namings : List Naming} {lambda : Lambda} {abstraction : Abstraction}
      {bytes bytes' : List UInt8}
      (required : lambda.argumentCount = abstraction.formals.fixed.length)
      (variadic : lambda.rest = abstraction.formals.rest.isSome)
      (slots : lambda.slotCount = abstraction.names.length)
      (addressable : lambda.Addressable)
      (code : lambda.body.stream = bytes ++ (bytes' ++ (Bytecode.ofOp .return).stream))
      (defines : Defines lambda.constants (abstraction.namings namings)
        abstraction.initializers bytes)
      (translates : Translates lambda.constants (abstraction.namings namings) true
        abstraction.body bytes') :
      Implements namings lambda abstraction

end

variable {pool : Array Constant} {namings : List Naming} {tail : Bool} {bytes : List UInt8}

variable {expr : Expression}

theorem Translates.length_pos (translates : Translates pool namings tail expr bytes) :
    0 < bytes.length := by
  cases translates <;>
    simp only [List.length_append, Bytecode.length_stream, Bytecode.size_ofOp, List.length_cons] <;>
    omega

theorem TranslatesAll.length_le {expressions : List Expression}
    (translates : TranslatesAll pool namings expressions bytes) :
    expressions.length ≤ bytes.length := by
  induction expressions generalizing bytes with
  | nil => exact Nat.zero_le _
  | cons expr expressions ih =>
    cases translates with
    | cons first rest =>
      have here := first.length_pos
      have others := ih rest
      rw [List.length_cons, List.length_append]
      omega

/-- The bytes are code of the definitions, and then of the expression. -/
def TranslatesWith (pool : Array Constant) (namings : List Naming)
    (definitions : List (String × Expression)) (tail : Bool) (expression : Expression)
    (bytes : List UInt8) : Prop :=
  ∃ first second, bytes = first ++ second ∧ Defines pool namings definitions first ∧
    Translates pool namings tail expression second

theorem TranslatesWith.translates (translates : TranslatesWith pool namings [] tail expr bytes) :
    Translates pool namings tail expr bytes := by
  obtain ⟨first, second, rfl, defines, translates⟩ := translates
  cases defines
  exact translates

end MiniScheme
