import MiniScheme.Heap

/-!
# Garbage collection

`Heap.collect` keeps the objects that can be reached from a number of roots and empties the slots
of all others. Marking goes through a list of pending handles; it ends because every object is
marked once at most.
-/

namespace MiniScheme

/-- The handles of a frame: its invocation and the constants of its procedure. -/
def Frame.handles (frame : Frame) : List Handle :=
  frame.invocation :: frame.lambda.handles

def Snapshot.handles (snapshot : Snapshot) : List Handle :=
  snapshot.stack.items.filterMap Value.handle? ++ snapshot.calls.items.flatMap Frame.handles ++
    snapshot.current.handles

def Object.handles : Object → List Handle
  | .pair car cdr => car.handle?.toList ++ cdr.handle?.toList
  | .vector items => items.toList.filterMap Value.handle?
  | .closure lambda parent => parent.toList ++ lambda.handles
  | .invocation procedure slots => procedure.toList ++ slots.toList.filterMap Value.handle?
  | .continuation snapshot => snapshot.handles

/-- What a collection did. -/
structure CollectStats where
  marked : Nat
  freed : Nat
  live : Nat
  deriving DecidableEq, Repr, Inhabited

def CollectStats.text (stats : CollectStats) : String :=
  "CollectStats \x7b marked: " ++ toString stats.marked ++ ", freed: " ++ toString stats.freed ++
    ", live: " ++ toString stats.live ++ " \x7d"

/-- Empties a slot, after which its handles dangle. -/
def Slot.release (slot : Slot) : Slot :=
  { generation := slot.generation + 1, object := none }

namespace Heap

/-- `Reaches heap roots handle`: the handle can be reached from the roots through live objects. -/
inductive Reaches (heap : Heap) (roots : List Handle) : Handle → Prop where
  | root {handle : Handle} (member : handle ∈ roots) : Reaches heap roots handle
  | through {holder handle : Handle} {object : Object} (reached : Reaches heap roots holder)
      (held : heap.get? holder = some object) (member : handle ∈ object.handles) :
      Reaches heap roots handle

/-- Marking one more slot leaves fewer unmarked. -/
theorem count_set_lt {marked : Array Bool} {index : Nat} (unmarked : marked[index]? = some false) :
    (marked.setIfInBounds index true).count false < marked.count false := by
  obtain ⟨bound, value⟩ := Array.getElem?_eq_some_iff.mp unmarked
  have here := Array.count_pos_iff.mpr (value ▸ Array.getElem_mem bound)
  have entry : (marked[index] == false) = true := by simp [value]
  rw [Array.setIfInBounds, dif_pos bound, Array.count_set bound, entry]
  simp only [beq_iff_eq, if_true, Bool.true_eq_false, if_false]
  omega

/-- Marks the live slots that can be reached from the pending handles. -/
def mark (heap : Heap) (marked : Array Bool) : List Handle → Array Bool
  | [] => marked
  | handle :: pending =>
    match heap.get? handle with
    | none => heap.mark marked pending
    | some object =>
      match _unmarked : marked[handle.index]? with
      | some false =>
        heap.mark (marked.setIfInBounds handle.index true) (object.handles ++ pending)
      | _ => heap.mark marked pending
termination_by pending => (marked.count false, pending.length)
decreasing_by
  · exact Prod.Lex.right _ (by simp)
  · exact Prod.Lex.left _ _ (count_set_lt _unmarked)
  · exact Prod.Lex.right _ (by simp)

/-- The indices of the occupied slots that are not marked. -/
def unmarked (heap : Heap) (marked : Array Bool) : List Nat :=
  (List.range heap.slots.size).filter fun index =>
    (heap.slots[index]?.bind Slot.object).isSome && marked[index]? != some true

/-- Empties the occupied slots that are not marked, in ascending order. -/
def sweep (heap : Heap) (marked : Array Bool) : Heap :=
  { heap with
    slots := heap.slots.mapIdx fun index slot =>
      if slot.object.isSome && marked[index]? != some true then slot.release else slot
    free := (heap.unmarked marked).reverse ++ heap.free }

/-- Frees every object that cannot be reached from the roots. -/
def collect (heap : Heap) (roots : List Handle) : CollectStats × Heap :=
  let marked := heap.mark (Array.replicate heap.slots.size false) roots
  let swept := heap.sweep marked
  ({ marked := marked.count true, freed := (heap.unmarked marked).length, live := swept.liveCount },
    swept)

end Heap

end MiniScheme
