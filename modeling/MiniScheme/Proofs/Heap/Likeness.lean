import MiniScheme.Proofs.Heap.Growth
import MiniScheme.Value.Equality
import MiniScheme.Value.Printer
import Mathlib.Data.Option.Defs

/-!
# Heaps that only code can tell apart

Two heaps are alike if they have the same places and the same objects in them, except that closures
and continuations may differ in a given way. Data show no difference: whatever looks at pairs and
vectors only, finds the same in both heaps, and whatever is built or changed, is built and changed at
the same places of both.
-/

namespace MiniScheme

/-- Data cannot look into objects of such a kind. -/
def Kind.isOpaque : Kind → Bool
  | .closure => true
  | .continuation => true
  | _ => false

/-- A relation between the objects at the same place of two heaps. Only closures and continuations
may differ. -/
structure Likeness (rel : Handle → Object → Object → Prop) : Prop where
  refl (handle : Handle) (object : Object) : object.kind.isOpaque = false → rel handle object object
  eq {handle : Handle} {object object' : Object} : rel handle object object' →
    object.kind.isOpaque = false → object' = object
  kind {handle : Handle} {object object' : Object} : rel handle object object' →
    object'.kind = object.kind

/-- The slots are of the same generation, and their objects are related. -/
structure Slot.Alike (rel : Object → Object → Prop) (slot slot' : Slot) : Prop where
  generation : slot'.generation = slot.generation
  object : Option.Rel rel slot.object slot'.object

/-- The tables have slots that are alike at the same places. -/
def Slot.AllAlike (rel : Handle → Object → Object → Prop) (slots slots' : Array Slot) : Prop :=
  ∀ index : Nat, Option.Rel
    (fun slot slot' => slot.Alike (rel { index, generation := slot.generation }) slot')
    slots[index]? slots'[index]?

namespace Slot.AllAlike

variable {rel : Handle → Object → Object → Prop} {slots slots' : Array Slot}

theorem size (alike : AllAlike rel slots slots') : slots'.size = slots.size := by
  have same (i : Nat) : slots'.size ≤ i ↔ slots.size ≤ i := by
    rw [← Array.getElem?_eq_none_iff, ← Array.getElem?_eq_none_iff]
    have related := alike i
    generalize slots[i]? = place at related
    generalize slots'[i]? = place' at related
    cases related <;> simp
  exact Nat.le_antisymm ((same _).mpr (Nat.le_refl _)) ((same _).mp (Nat.le_refl _))

variable {slot slot' : Slot}

theorem push (alike : AllAlike rel slots slots')
    (added : slot.Alike (rel { index := slots.size, generation := slot.generation }) slot') :
    AllAlike rel (slots.push slot) (slots'.push slot') := by
  intro i
  rw [Array.getElem?_push, Array.getElem?_push, alike.size]
  split
  · rename_i last
    subst last
    exact .some added
  · exact alike i

theorem set (alike : AllAlike rel slots slots') {place : Nat}
    (placed : slot.Alike (rel { index := place, generation := slot.generation }) slot') :
    AllAlike rel (slots.setIfInBounds place slot) (slots'.setIfInBounds place slot') := by
  intro i
  rw [Array.getElem?_setIfInBounds, Array.getElem?_setIfInBounds, alike.size]
  split
  · rename_i here
    subst here
    split
    · exact .some placed
    · exact .none
  · exact alike i

end Slot.AllAlike

namespace Heap

/-- The heaps have the same places with related objects in them. -/
structure Alike (rel : Handle → Object → Object → Prop) (heap heap' : Heap) : Prop where
  slots : Slot.AllAlike rel heap.slots heap'.slots
  free : heap'.free = heap.free
  stamp : heap'.nextStamp = heap.nextStamp

structure Resembles (heap heap' : Heap) : Prop where
  pair : heap'.pair? = heap.pair?
  vector : heap'.vector? = heap.vector?
  size : heap'.slots.size = heap.slots.size

structure Matches {α : Type} (rel : Handle → Object → Object → Prop)
    (outcome outcome' : α × Heap) : Prop where
  result : outcome'.1 = outcome.1
  heaps : outcome.2.Alike rel outcome'.2

variable {rel : Handle → Object → Object → Prop} {heap heap' : Heap}

namespace Alike

theorem refl (reflexive : ∀ h obj, rel h obj obj) (heap : Heap) : heap.Alike rel heap := by
  refine ⟨fun i => ?_, rfl, rfl⟩
  cases heap.slots[i]? with
  | none => exact .none
  | some slot =>
    refine .some ⟨rfl, ?_⟩
    cases slot.object with
    | none => exact .none
    | some obj => exact .some (reflexive _ obj)

theorem get? (alike : heap.Alike rel heap') (h : Handle) :
    Option.Rel (rel h) (heap.get? h) (heap'.get? h) := by
  have related := alike.slots h.index
  unfold Heap.get?
  generalize heap.slots[h.index]? = place at related
  generalize heap'.slots[h.index]? = place' at related
  cases related with
  | none => exact .none
  | @some slot slot' places =>
    simp only [places.generation]
    split
    · rename_i same
      have here : ({ index := h.index, generation := slot.generation } : Handle) = h := by
        rw [same]
      rw [← here]
      exact places.object
    · exact .none

section

variable (like : Likeness rel) (alike : heap.Alike rel heap')

include like alike

theorem get?_cases (h : Handle) : heap'.get? h = heap.get? h ∨
    ∃ obj obj', heap.get? h = some obj ∧ heap'.get? h = some obj' ∧
      obj.kind.isOpaque = true ∧ obj'.kind.isOpaque = true := by
  have related := alike.get? h
  generalize heap.get? h = found at related ⊢
  generalize heap'.get? h = found' at related ⊢
  cases related with
  | none => exact .inl rfl
  | @some obj obj' objects =>
    cases plain : obj.kind.isOpaque with
    | false => exact .inl (by rw [like.eq objects plain])
    | true => exact .inr ⟨obj, obj', rfl, rfl, plain, (like.kind objects).symm ▸ plain⟩

theorem pair?_eq : heap'.pair? = heap.pair? := by
  funext h
  unfold Heap.pair?
  rcases alike.get?_cases like h with same | ⟨obj, obj', held, held', hidden, hidden'⟩
  · rw [same]
  · rw [held, held']
    cases obj <;> cases hidden <;> cases obj' <;> cases hidden' <;> rfl

theorem vector?_eq : heap'.vector? = heap.vector? := by
  funext h
  unfold Heap.vector?
  rcases alike.get?_cases like h with same | ⟨obj, obj', held, held', hidden, hidden'⟩
  · rw [same]
  · rw [held, held']
    cases obj <;> cases hidden <;> cases obj' <;> cases hidden' <;> rfl

theorem slots?_eq : heap'.slots? = heap.slots? := by
  funext h
  unfold Heap.slots?
  rcases alike.get?_cases like h with same | ⟨obj, obj', held, held', hidden, hidden'⟩
  · rw [same]
  · rw [held, held']
    cases obj <;> cases hidden <;> cases obj' <;> cases hidden' <;> rfl

theorem procedure?_eq : heap'.procedure? = heap.procedure? := by
  funext h
  unfold Heap.procedure?
  rcases alike.get?_cases like h with same | ⟨obj, obj', held, held', hidden, hidden'⟩
  · rw [same]
  · rw [held, held']
    cases obj <;> cases hidden <;> cases obj' <;> cases hidden' <;> rfl

theorem resembles : heap.Resembles heap' :=
  ⟨alike.pair?_eq like, alike.vector?_eq like, alike.slots.size⟩

end

/-! ### Building and changing objects -/

section

variable (alike : heap.Alike rel heap')

include alike

theorem alloc {obj obj' : Object} (related : rel (heap.alloc obj).1 obj obj') :
    Matches rel (heap.alloc obj) (heap'.alloc obj') := by
  obtain ⟨slots, free, nextStamp⟩ := heap
  obtain ⟨slots', free', nextStamp'⟩ := heap'
  obtain ⟨alike, same_free, same_stamp⟩ := alike
  dsimp only at alike same_free same_stamp
  subst same_free
  subst same_stamp
  cases free' with
  | nil =>
    simp only [Heap.alloc] at related ⊢
    rw [alike.size]
    exact ⟨rfl, alike.push ⟨rfl, .some related⟩, rfl, rfl⟩
  | cons i free =>
    have here := alike i
    simp only [Heap.alloc] at related ⊢
    generalize slots[i]? = place at here related
    generalize slots'[i]? = place' at here
    cases here with
    | none =>
      rw [alike.size]
      exact ⟨rfl, alike.push ⟨rfl, .some related⟩, rfl, rfl⟩
    | some places =>
      have generation := places.generation
      dsimp only at related ⊢
      exact ⟨by rw [generation], alike.set ⟨generation, .some related⟩, rfl, rfl⟩

theorem modify (h : Handle) {change change' : Object → Object}
    (related : ∀ h obj obj', rel h obj obj' → rel h (change obj) (change' obj')) :
    (heap.modify h change).Alike rel (heap'.modify h change') := by
  refine ⟨fun i => ?_, alike.free, alike.stamp⟩
  have here := alike.slots i
  simp only [Heap.modify, Array.getElem?_modify]
  generalize heap.slots[i]? = place at here
  generalize heap'.slots[i]? = place' at here
  cases here with
  | none => split <;> exact .none
  | @some slot slot' places =>
    split
    · rw [Option.map_some, Option.map_some]
      apply Option.Rel.some
      simp only [places.generation]
      split
      · refine ⟨rfl, ?_⟩
        obtain ⟨_, obj⟩ := slot
        obtain ⟨_, obj'⟩ := slot'
        cases places.object with
        | none => exact .none
        | some objects => exact .some (related _ _ _ objects)
      · exact places
    · exact .some places

theorem stamped :
    Alike rel { heap with nextStamp := heap.nextStamp + 1 }
      { heap' with nextStamp := heap'.nextStamp + 1 } :=
  ⟨alike.slots, alike.free, by simp only [alike.stamp]⟩

theorem string (text : String) : Matches rel (heap.string text) (heap'.string text) := by
  refine ⟨?_, alike.stamped⟩
  simp only [Heap.string, alike.stamp]

theorem bytes (content : List UInt8) : Matches rel (heap.bytes content) (heap'.bytes content) := by
  refine ⟨?_, alike.stamped⟩
  simp only [Heap.bytes, alike.stamp]

end

section

variable (like : Likeness rel) (alike : heap.Alike rel heap')

include like alike

theorem cons (car cdr : Value) : Matches rel (heap.cons car cdr) (heap'.cons car cdr) := by
  obtain ⟨same, allocated⟩ := alike.alloc (like.refl _ (.pair car cdr) rfl)
  refine ⟨?_, allocated⟩
  simp only [Heap.cons, same]

theorem vector (xs : Array Value) : Matches rel (heap.vector xs) (heap'.vector xs) := by
  obtain ⟨same, allocated⟩ := alike.alloc (like.refl _ (.vector xs) rfl)
  refine ⟨?_, allocated⟩
  simp only [Heap.vector, same]

theorem listWithTail (vals : List Value) (tail : Value) :
    Matches rel (heap.listWithTail vals tail) (heap'.listWithTail vals tail) := by
  induction vals with
  | nil => exact ⟨rfl, alike⟩
  | cons v vals ih =>
    rw [listWithTail_cons, listWithTail_cons, ih.result]
    exact ih.heaps.cons like v _

theorem list (vals : List Value) : Matches rel (heap.list vals) (heap'.list vals) :=
  alike.listWithTail like vals .emptyList

theorem modifyData (h : Handle) {change : Object → Object}
    (spared : ∀ obj, obj.kind.isOpaque = true → change obj = obj)
    (kept : ∀ obj, (change obj).kind = obj.kind) :
    (heap.modify h change).Alike rel (heap'.modify h change) := by
  apply alike.modify
  intro h obj obj' related
  cases plain : obj.kind.isOpaque with
  | false =>
    rw [like.eq related plain]
    apply like.refl
    rw [kept, plain]
  | true =>
    have plain' : obj'.kind.isOpaque = true := by rw [like.kind related, plain]
    rw [spared obj plain, spared obj' plain']
    exact related

theorem modifySlots (h : Handle) (change : Array Value → Array Value) :
    (heap.modifySlots h change).Alike rel (heap'.modifySlots h change) := by
  apply alike.modifyData like
  · intro obj hidden
    cases obj <;> first | rfl | cases hidden
  · intro obj
    cases obj <;> rfl

end

theorem ofAtom (alike : heap.Alike rel heap') (atom : Atom) :
    Matches rel (heap.ofAtom atom) (heap'.ofAtom atom) := by
  cases atom with
  | string v => exact alike.string v
  | bytes v => exact alike.bytes v
  | boolean | integer | float | character | symbol => exact ⟨rfl, alike⟩

mutual

theorem ofDatum {heap heap' : Heap} (like : Likeness rel) (alike : heap.Alike rel heap') :
    (d : Datum) → Matches rel (heap.ofDatum d) (heap'.ofDatum d)
  | .atom v _ => by
    rw [Heap.ofDatum, Heap.ofDatum]
    exact alike.ofAtom v
  | .list xs _ => by
    have parts := ofData like alike xs
    simp only [Heap.ofDatum]
    rw [parts.result]
    exact parts.heaps.list like _
  | .dotted xs tail _ => by
    have parts := ofData like alike xs
    have last := ofDatum like parts.heaps tail
    simp only [Heap.ofDatum]
    rw [parts.result, last.result]
    exact last.heaps.listWithTail like _ _
  | .vector xs _ => by
    have parts := ofData like alike xs
    simp only [Heap.ofDatum]
    rw [parts.result]
    exact parts.heaps.vector like _

theorem ofData {heap heap' : Heap} (like : Likeness rel) (alike : heap.Alike rel heap') :
    (data : List Datum) → Matches rel (heap.ofData data) (heap'.ofData data)
  | [] => by
    rw [Heap.ofData, Heap.ofData]
    exact ⟨rfl, alike⟩
  | d :: data => by
    have first := ofDatum like alike d
    have others := ofData like first.heaps data
    simp only [Heap.ofData]
    refine ⟨?_, others.heaps⟩
    rw [first.result, others.result]

end

mutual

theorem toValue {heap heap' : Heap} (like : Likeness rel) (alike : heap.Alike rel heap') :
    (variant : Variant) → Matches rel (variant.toValue heap) (variant.toValue heap')
  | .null | .bool _ | .int _ | .float _ | .object _ => by
    simp only [Variant.toValue]
    exact ⟨rfl, alike⟩
  | .string v => by
    simp only [Variant.toValue]
    exact alike.string v
  | .bytes v => by
    simp only [Variant.toValue]
    exact alike.bytes v
  | .list xs => by
    have parts := toValues like alike xs
    simp only [Variant.toValue]
    rw [parts.result]
    exact parts.heaps.list like _

theorem toValues {heap heap' : Heap} (like : Likeness rel) (alike : heap.Alike rel heap') :
    (variants : List Variant) →
      Matches rel (Variant.toValues heap variants) (Variant.toValues heap' variants)
  | [] => by
    simp only [Variant.toValues]
    exact ⟨rfl, alike⟩
  | variant :: variants => by
    have first := toValue like alike variant
    have others := toValues like first.heaps variants
    simp only [Variant.toValues]
    refine ⟨?_, others.heaps⟩
    rw [first.result, others.result]

end

end Alike

/-! ### Looking at data -/

namespace Resembles

variable (resembles : heap.Resembles heap')

include resembles

theorem walk (gathered : List Value) (steps : Nat) (v : Value) :
    heap'.walk gathered steps v = heap.walk gathered steps v := by
  induction steps generalizing gathered v with
  | zero => rfl
  | succ steps ih =>
    cases v
    case pair h =>
      simp only [Heap.walk, resembles.pair]
      split
      · apply ih
      · rfl
    all_goals rfl

theorem elements? : heap'.elements? = heap.elements? := by
  funext v
  rw [Heap.elements?, Heap.elements?, resembles.size, resembles.walk]

theorem verdict : heap'.verdict = heap.verdict := by
  funext left right
  simp only [Heap.verdict, resembles.pair, resembles.vector]

theorem allEqual (pending : List Comparison) : heap'.allEqual pending = heap.allEqual pending := by
  have same (left right : Value) : heap'.verdict left right = heap.verdict left right := by
    rw [resembles.verdict]
  fun_induction Heap.allEqual heap pending with
  | case1 => rw [Heap.allEqual]
  | case2 | case3 | case4 | case5 => grind [Heap.allEqual]

theorem equal : heap'.equal = heap.equal := by
  funext left right
  rw [Heap.equal, Heap.equal, resembles.size, resembles.allEqual]

theorem printSpine {print print' : Path → String → Value → String} (same : print' = print) :
    heap'.printSpine print' = heap.printSpine print := by
  subst same
  funext steps path first out current
  induction steps generalizing path first out current with
  | zero => rfl
  | succ steps ih =>
    cases current
    case pair h =>
      simp only [Heap.printSpine, resembles.pair]
      split
      · rfl
      · split
        · rfl
        · apply ih
    all_goals rfl

theorem print (style : Style) (room : Nat) : heap'.print style room = heap.print style room := by
  induction room with
  | zero =>
    funext path out v
    rw [Heap.print.eq_def, Heap.print.eq_def]
  | succ room ih =>
    funext path out v
    rw [Heap.print.eq_def, Heap.print.eq_def]
    cases v
    case pair h => simp only [resembles.printSpine ih, resembles.size]
    case vector h => simp only [ih, resembles.vector]
    all_goals rfl

theorem writeText : heap'.writeText = heap.writeText := by
  funext v
  rw [Heap.writeText, Heap.writeText, resembles.print]

theorem displayText : heap'.displayText = heap.displayText := by
  funext v
  rw [Heap.displayText, Heap.displayText, resembles.print]

theorem ofValueWithin (levels : Nat) :
    Variant.ofValueWithin heap' levels = Variant.ofValueWithin heap levels := by
  induction levels with
  | zero =>
    funext v
    rw [Variant.ofValueWithin.eq_def, Variant.ofValueWithin.eq_def]
    simp only [resembles.elements?, resembles.vector]
  | succ levels ih =>
    funext v
    rw [Variant.ofValueWithin.eq_def, Variant.ofValueWithin.eq_def]
    simp only [resembles.elements?, resembles.vector, ih]

theorem ofValue : Variant.ofValue heap' = Variant.ofValue heap := by
  funext v
  rw [Variant.ofValue, Variant.ofValue, resembles.size, resembles.ofValueWithin]

end Resembles

end Heap

end MiniScheme
