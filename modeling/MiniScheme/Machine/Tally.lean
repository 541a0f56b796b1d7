import MiniScheme.Code

/-!
# Counting instructions

A tally counts how often each instruction was carried out, and gives each one's share.
-/

namespace MiniScheme

/-- How often each instruction was carried out, by opcode. -/
structure Tally where
  counts : Array Nat := Array.replicate 13 0
  deriving DecidableEq, Repr, Inhabited

namespace Tally

def count (op : Op) (tally : Tally) : Tally :=
  { counts := tally.counts.modify op.toByte.toNat (· + 1) }

/-- The instructions that were carried out, and how often. -/
def entries (tally : Tally) : List (Op × Nat) :=
  (Op.all.map fun op => (op, tally.counts.getD op.toByte.toNat 0)).filter fun entry => 0 < entry.2

def total (tally : Tally) : Nat :=
  tally.counts.foldl (· + ·) 0

/-- The share of a number in a total, in whole percent. -/
def percent (count total : Nat) : String :=
  Decimal.wholeText 0 (100.0 * count.toFloat / total.toFloat)

/-- The shares of all instructions that were carried out, in alphabetical order, if any were. -/
def shares (tally : Tally) : Option (List String) :=
  if tally.total = 0 then none
  else
    let lines := tally.entries.map fun (op, count) =>
      op.name ++ " " ++ percent count tally.total ++ "% of total ins."
    some (lines.mergeSort fun left right => left ≤ right)

end Tally

end MiniScheme
