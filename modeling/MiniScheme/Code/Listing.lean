import MiniScheme.Value.Printer

/-!
# Listings of code

One line for every instruction: its offset, its name and its operands. The listing of a procedure
has a heading, its instructions, its constants, and the listings of the procedures among them.
-/

namespace MiniScheme

/-- A number with at least four digits. -/
def offsetText (offset : Nat) : String :=
  let digits := toString offset
  String.ofList (List.replicate (4 - digits.length) '0') ++ digits

/-- The lines of a listing, each with its end. -/
def joinLines (lines : List String) : String :=
  lines.foldl (fun text line => text ++ line ++ "\n") ""

namespace Bytecode

/-- The operands of the instruction at an offset, as far as there are bytes for them. -/
def operandTexts (code : Bytecode) (op : Op) (offset : Nat) : String :=
  (List.range op.operandCount).foldl (fun text place =>
    match code.operand? (offset + 1 + 4 * place) with
    | some operand => text ++ " " ++ toString operand.toInt
    | none => text) ""

def linesFrom (code : Bytecode) (offset : Nat) : List String :=
  if h : offset < code.bytes.size then
    match code.op? offset with
    | some op =>
      (offsetText offset ++ " " ++ op.name ++ code.operandTexts op offset) ::
        code.linesFrom (offset + op.size)
    | none =>
      (offsetText offset ++ " <invalid " ++ toString code.bytes[offset].toNat ++ ">") ::
        code.linesFrom (offset + 1)
  else []
termination_by code.bytes.size - offset
decreasing_by
  · have := op.size_pos
    omega
  · omega

def listing (code : Bytecode) : String :=
  joinLines (code.linesFrom 0)

end Bytecode

namespace Lambda

/-- The heading of a procedure's listing. -/
def heading (lambda : Lambda) : String :=
  "lambda " ++ lambda.name.getD "<anonymous>" ++ " (arguments: " ++
    toString lambda.argumentCount ++ (if lambda.rest then " + rest" else "") ++ ", slots: " ++
    toString lambda.slotCount ++ ")"

mutual

def lines (heap : Heap) : Lambda → List String
  | { name, argumentCount, rest, slotCount, constants := ⟨constants⟩, body } =>
    heading { name, argumentCount, rest, slotCount, constants := #[], body } ::
      (body.linesFrom 0).map ("  " ++ ·) ++ constantLines heap 0 constants

/-- The lines of a run of constants, of which the first has the given number. -/
def constantLines (heap : Heap) (number : Nat) : List Constant → List String
  | [] => []
  | .value value :: constants =>
    ("  #" ++ toString number ++ " = " ++ heap.writeText value) ::
      constantLines heap (number + 1) constants
  | .lambda lambda :: constants =>
    ("  #" ++ toString number ++ " =") :: (lambda.lines heap).map ("    " ++ ·) ++
      constantLines heap (number + 1) constants

end

def listing (heap : Heap) (lambda : Lambda) : String :=
  joinLines (lambda.lines heap)

end Lambda

end MiniScheme
