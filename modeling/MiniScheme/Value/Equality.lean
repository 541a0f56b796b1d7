import MiniScheme.Heap

/-!
# Structural equality

Two values are equal if they are identical, if they are strings or byte vectors of the same
content, or if they are pairs or vectors with equal parts. Comparisons still to be made are kept
in a list, each with the number of levels it may go down. A structure without cycles is no deeper
than the heap has slots, so running out of levels means that both structures are cyclic.
-/

namespace MiniScheme.Heap

/-- A comparison still to be made, and the number of levels it may go down. -/
structure Comparison where
  levels : Nat
  left : Value
  right : Value

/-- What comparing two values comes down to. -/
inductive Verdict where
  | equal
  | different
  | parts (lefts rights : List Value)

/-- Compares two values without going into their parts. -/
def verdict (heap : Heap) (left right : Value) : Verdict :=
  if left.eqv right then .equal
  else match left, right with
    | .string _ left, .string _ right => if left = right then .equal else .different
    | .bytes _ left, .bytes _ right => if left = right then .equal else .different
    | .vector left, .vector right => match heap.vector? left, heap.vector? right with
      | some left, some right =>
        if left.size = right.size then .parts left.toList right.toList else .different
      | _, _ => .different
    | .pair left, .pair right => match heap.pair? left, heap.pair? right with
      | some (car, cdr), some (car', cdr') => .parts [car, cdr] [car', cdr']
      | _, _ => .different
    | _, _ => .different

/-- The comparisons of parts, one level down. -/
def comparisons (levels : Nat) (lefts rights : List Value) : List Comparison :=
  List.zipWith (fun left right => { levels, left, right }) lefts rights

/-- The number of items in a slot that holds a vector. -/
def itemCount (slot : Slot) : Nat :=
  match slot.object with
  | some (.vector items) => items.size
  | _ => 0

/-- The number of items in all slots that hold vectors. -/
def itemTotal : List Slot → Nat
  | [] => 0
  | slot :: slots => itemCount slot + itemTotal slots

/-- More parts than any object of the heap has. -/
def width (heap : Heap) : Nat :=
  itemTotal heap.slots.toList + 3

theorem itemCount_le_itemTotal {slots : List Slot} {slot : Slot} (member : slot ∈ slots) :
    itemCount slot ≤ itemTotal slots := by
  induction slots with
  | nil => cases member
  | cons first slots ih =>
    rw [itemTotal]
    rcases List.mem_cons.mp member with rfl | later
    · omega
    · have := ih later
      omega

theorem size_lt_width {heap : Heap} {handle : Handle} {items : Array Value}
    (held : heap.vector? handle = some items) : items.size < heap.width := by
  unfold vector? get? at held
  split at held
  case h_2 => cases held
  case h_1 object =>
    cases held
    split at object
    case h_2 => cases object
    case h_1 slot found =>
      split at object
      case isFalse => cases object
      case isTrue =>
        have counted : itemCount slot = items.size := by simp [itemCount, object]
        have := itemCount_le_itemTotal (Array.mem_toList_iff.mpr (Array.mem_of_getElem? found))
        unfold width
        omega

theorem length_lt_width {heap : Heap} {left right : Value} {lefts rights : List Value}
    (verdict_eq : heap.verdict left right = .parts lefts rights) : lefts.length < heap.width := by
  unfold verdict at verdict_eq
  repeat' split at verdict_eq
  all_goals first
    | contradiction
    | skip
  all_goals cases verdict_eq
  · rename_i held _ _
    simpa using size_lt_width held
  · simp [width]

/-- The work that pending comparisons can make, if no object has `width` parts or more. -/
def work (width : Nat) : List Comparison → Nat
  | [] => 0
  | comparison :: pending => Nat.pow width comparison.levels + work width pending

theorem work_append (width : Nat) (first second : List Comparison) :
    work width (first ++ second) = work width first + work width second := by
  induction first with
  | nil => simp [work]
  | cons comparison first ih =>
    simp only [List.cons_append, work, ih]
    omega

theorem work_comparisons_le (width levels : Nat) (lefts rights : List Value) :
    work width (comparisons levels lefts rights) ≤ lefts.length * Nat.pow width levels := by
  induction lefts generalizing rights with
  | nil => simp [work, comparisons]
  | cons left lefts ih =>
    cases rights with
    | nil => simp [work, comparisons]
    | cons right rights =>
      have rest := ih rights
      simp only [work, comparisons, List.zipWith_cons_cons, List.length_cons, Nat.add_mul,
        Nat.one_mul] at rest ⊢
      omega

/-- Going down one level into fewer than `width` parts makes less work. -/
theorem work_parts_lt {width levels : Nat} {left right : Value} {lefts rights : List Value}
    {rest : List Comparison} (narrow : lefts.length < width) :
    work width (comparisons levels lefts rights ++ rest) <
      work width ({ levels := levels + 1, left, right } :: rest) := by
  have bound := work_comparisons_le width levels lefts rights
  have positive : 0 < Nat.pow width levels := Nat.pow_pos (by omega)
  have less := Nat.mul_lt_mul_of_pos_right narrow positive
  have raised : Nat.pow width (levels + 1) = width * Nat.pow width levels :=
    Nat.mul_comm (Nat.pow width levels) width
  simp only [work_append, work, raised]
  omega

/-- Whether all pending comparisons come out equal. -/
def allEqual (heap : Heap) (pending : List Comparison) : Bool :=
  match pending with
  | [] => true
  | { levels, left, right } :: rest =>
    match _verdict_eq : heap.verdict left right with
    | .equal => heap.allEqual rest
    | .different => false
    | .parts lefts rights =>
      match levels with
      | 0 => false
      | levels + 1 => heap.allEqual (comparisons levels lefts rights ++ rest)
termination_by (work heap.width pending, pending.length)
decreasing_by
  · have : 0 < Nat.pow heap.width levels := Nat.pow_pos (by simp [width])
    exact Prod.Lex.left _ _ (by simp only [work]; omega)
  · exact Prod.Lex.left _ _ (work_parts_lt (length_lt_width _verdict_eq))

/-- Structural equality. -/
def equal (heap : Heap) (left right : Value) : Bool :=
  heap.allEqual [{ levels := heap.slots.size + 1, left, right }]

end MiniScheme.Heap
