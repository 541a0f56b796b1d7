/-!
# Stacks

A stack is a list, top first, that knows its height.
-/

namespace MiniScheme

/-- Items on top of each other. -/
structure Stack (α : Type) where
  /-- The items, the topmost first. -/
  items : List α
  height : Nat
  height_eq : height = items.length

namespace Stack

variable {α : Type}

def empty : Stack α :=
  { items := [], height := 0, height_eq := rfl }

instance : Inhabited (Stack α) := ⟨empty⟩

def push (stack : Stack α) (item : α) : Stack α :=
  { items := item :: stack.items, height := stack.height + 1
    height_eq := by simp [stack.height_eq] }

/-- The topmost item and the stack below it. -/
def pop? (stack : Stack α) : Option (α × Stack α) :=
  match stack with
  | ⟨[], _, _⟩ => none
  | ⟨item :: items, height, height_eq⟩ =>
    some (item, { items, height := height - 1, height_eq := by simp [height_eq] })

/-- The topmost items, lowest first, and the stack below them. -/
def splitTop? (stack : Stack α) (count : Nat) : Option (List α × Stack α) :=
  if count ≤ stack.height then
    some ((stack.items.take count).reverse,
      { items := stack.items.drop count, height := stack.height - count
        height_eq := by simp [stack.height_eq] })
  else none

def isEmpty (stack : Stack α) : Bool :=
  stack.height == 0

end Stack

end MiniScheme
