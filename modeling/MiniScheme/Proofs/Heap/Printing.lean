import MiniScheme.Proofs.Heap.Depiction
import Std.Data.TreeSet.Lemmas

/-!
# Printing quoted data

A datum has a text, and so has the value that quoting builds from it. The printer of values elides
what it is inside of and what is nested too deep, and it bounds its walk along a list. None of this
shows on a value that was built from a datum: its parts were there before it, so none of them is
among the objects that contain it.
-/

namespace MiniScheme

/-- The atom is not a float that is infinite or not a number. -/
def Atom.isFinite : Atom → Bool
  | .float value => !value.isNaN && !value.isInf
  | _ => true

namespace Datum

mutual

/-- How deep lists and vectors are nested. What stands behind a dot is inside of the list. -/
def nesting : Datum → Nat
  | .atom _ _ => 0
  | .list items _ => nestingItems items + 1
  | .dotted items tail _ => max (nestingItems items) tail.nesting + 1
  | .vector items _ => nestingItems items + 1

/-- How deep the data of a sequence are nested. -/
def nestingItems : List Datum → Nat
  | [] => 0
  | item :: items => max item.nesting (nestingItems items)

end

mutual

def atoms : Datum → List Atom
  | .atom value _ => [value]
  | .list items _ => atomsItems items
  | .dotted items tail _ => atomsItems items ++ tail.atoms
  | .vector items _ => atomsItems items

def atomsItems : List Datum → List Atom
  | [] => []
  | item :: items => item.atoms ++ atomsItems items

end

def spaced : List Datum → String
  | [] => ""
  | item :: items => " " ++ item.text ++ spaced items

theorem itemsText_cons (item : Datum) (xs : List Datum) :
    itemsText (item :: xs) = item.text ++ spaced xs := by
  induction xs generalizing item with
  | nil => simp [itemsText, spaced]
  | cons next xs ih => simp [itemsText, spaced, ih, String.append_assoc]

end Datum

open Datum (itemsText nestingItems atomsItems spaced NormalForm NormalItems)

instance : Std.TransCmp Handle.compare :=
  inferInstanceAs (Std.TransCmp (compareLex (compareOn Handle.index) (compareOn Handle.generation)))

theorem Handle.compare_eq_iff {left right : Handle} : left.compare right = .eq ↔ left = right := by
  obtain ⟨index, generation⟩ := left
  obtain ⟨index', generation'⟩ := right
  simp [Handle.compare]

namespace Heap

variable {heap old new : Heap} {path : Path} {out : String} {room : Nat}
variable {v tail : Value} {vals : List Value} {xs : List Datum}

/-! ### Paths -/

def Clear (heap : Heap) (path : Path) : Prop :=
  ∀ handle ∈ path, heap.get? handle = none

theorem Clear.mono (preserves : old.Preserves new) (clear : new.Clear path) : old.Clear path := by
  intro h mem
  rw [Option.eq_none_iff_forall_ne_some]
  intro obj held
  simpa [clear h mem] using preserves h obj held

/-- An object that has just been allocated is not on the path, and entering it leads to a path
outside of the heap as it was. -/
theorem Clear.enter (sane : heap.Consistent) {obj : Object}
    (clear : (heap.alloc obj).2.Clear path) :
    path.contains (heap.alloc obj).1 = false ∧ heap.Clear (path.insert (heap.alloc obj).1) := by
  constructor
  · rw [Bool.eq_false_iff]
    intro mem
    simpa [get?_alloc_self sane] using clear _ (Std.TreeSet.mem_iff_contains.mpr mem)
  · intro h mem
    rcases Std.TreeSet.mem_insert.mp mem with same | before
    · rw [← Handle.compare_eq_iff.mp same, get?_alloc_fresh sane]
    · exact clear.mono (Adds.alloc sane obj).preserves h before

/-! ### Parts -/

/-- The value prints as the datum in `new`, inside of any objects that are not among those of
`old`. -/
def Prints (new old : Heap) (room : Nat) (value : Value) (datum : Datum) : Prop :=
  ∀ path out, old.Clear path → new.print .write room path out value = out ++ datum.text

theorem Prints.mono {mid : Heap} {d : Datum} (preserves : old.Preserves mid)
    (prints : new.Prints old room v d) : new.Prints mid room v d :=
  fun path out clear => prints path out (clear.mono preserves)

theorem floatText_eq {v : Float} (finite : (Atom.float v).isFinite = true) :
    Value.floatLayout.text v = Token.floatLayout.text v := by
  simp only [Atom.isFinite, Bool.and_eq_true, Bool.not_eq_true'] at finite
  simp only [Decimal.Layout.text, finite, Bool.false_eq_true, if_false]
  rfl

theorem prints_ofAtom {atom : Atom} {pos : Position} (finite : atom.isFinite = true) :
    new.Prints old room (heap.ofAtom atom).1 (.atom atom pos) := by
  intro path out _
  cases atom
  case float v => simp [ofAtom, print, Value.atomText, Datum.text, Atom.text, floatText_eq finite]
  all_goals simp [ofAtom, string, bytes, print, Value.atomText, Datum.text, Atom.text]

theorem printItems_eq (clear : old.Clear path) (each : List.Forall₂ (new.Prints old room) vals xs) :
    printItems (new.print .write room path) out vals = out ++ itemsText xs := by
  induction each generalizing out with
  | nil => simp [printItems, itemsText]
  | cons first others ih =>
    cases others with
    | nil => exact first path out clear
    | cons =>
      simp [printItems, ih, first path out clear, Datum.itemsText_cons, spaced, String.append_assoc]

theorem print_vector (sane : heap.Consistent)
    (preserves : (heap.alloc (.vector vals.toArray)).2.Preserves new)
    (clear : (heap.alloc (.vector vals.toArray)).2.Clear path)
    (each : List.Forall₂ (new.Prints heap room) vals xs) :
    new.print .write (room + 1) path out (heap.vector vals.toArray).1 =
      out ++ ("#(" ++ itemsText xs ++ ")") := by
  obtain ⟨outside, inside⟩ := clear.enter sane
  have held := vector?_eq_some_iff.mpr (preserves _ _ (get?_alloc_self sane _))
  simp [vector, print, outside, held, printItems_eq inside each, String.append_assoc]

/-! ### Lists -/

theorem printSpine_cons (sane : heap.Consistent) (preserves : (heap.cons v tail).2.Preserves new)
    (clear : (heap.cons v tail).2.Clear path) :
    heap.Preserves new ∧ ∃ inner, heap.Clear inner ∧ ∀ print steps first out,
      new.printSpine print (steps + 1) path first out (heap.cons v tail).1 =
        new.printSpine print steps inner false
          (print inner (if first then out else out ++ " ") v) tail := by
  obtain ⟨outside, inside⟩ := clear.enter sane
  refine ⟨(Adds.alloc sane _).preserves.trans preserves, _, inside, ?_⟩
  intro print steps first out
  have held := pair?_eq_some_iff.mpr (preserves _ _ (get?_alloc_self sane _))
  simp [cons, printSpine, outside, held]

theorem printSpine_tail {print : Path → String → Value → String} {first : Bool} {steps : Nat}
    (unpaired : ∀ h, tail ≠ .pair h) (occupied : tail ≠ .emptyList) :
    new.printSpine print (steps + 1) path first out tail = print path (out ++ " . ") tail := by
  cases tail <;> simp_all [printSpine]

section

variable (sane : heap.Consistent) (ending : String)
  (ended : ∀ steps path out, heap.Clear path →
    new.printSpine (new.print .write room) (steps + 1) path false out tail = out ++ ending)
  (each : List.Forall₂ (new.Prints heap room) vals xs)
include sane ended each

/-- A walk along a list that has just been built prints its items and what comes behind them. -/
theorem printSpine_listWithTail {steps : Nat}
    (preserves : (heap.listWithTail vals tail).2.Preserves new)
    (clear : (heap.listWithTail vals tail).2.Clear path) (enough : vals.length < steps) :
    new.printSpine (new.print .write room) steps path false out (heap.listWithTail vals tail).1 =
      out ++ (spaced xs ++ ending) := by
  induction each generalizing path out steps with
  | nil =>
    obtain ⟨steps, rfl⟩ := Nat.exists_eq_add_one_of_ne_zero (Nat.ne_zero_of_lt enough)
    simpa [spaced, listWithTail] using ended steps path out clear
  | @cons v item vals xs first others ih =>
    obtain ⟨steps, rfl⟩ := Nat.exists_eq_add_one_of_ne_zero (Nat.ne_zero_of_lt enough)
    have built := adds_listWithTail sane vals tail
    rw [listWithTail_cons] at preserves clear ⊢
    obtain ⟨kept, inner, inside, step⟩ := printSpine_cons built.consistent preserves clear
    rw [step, ih kept inside (Nat.lt_of_succ_lt_succ enough),
      first inner _ (inside.mono built.preserves)]
    simp [spaced, String.append_assoc]

/-- A list that has just been built prints within parentheses. The walk along it is long enough,
as no chain has more pairs than there are slots. -/
theorem print_listWithTail (ends : ∀ h, tail ≠ .pair h) (filled : xs ≠ [])
    (preserves : (heap.listWithTail vals tail).2.Preserves new)
    (clear : (heap.listWithTail vals tail).2.Clear path) :
    new.print .write (room + 1) path out (heap.listWithTail vals tail).1 =
      out ++ ("(" ++ itemsText xs ++ ending ++ ")") := by
  have enough := ((chains_listWithTail sane vals tail).mono preserves).length_le ends
  cases each with
  | nil => exact absurd rfl filled
  | @cons v item vals xs first others =>
    have built := adds_listWithTail sane vals tail
    rw [listWithTail_cons] at preserves clear ⊢
    obtain ⟨kept, inner, inside, step⟩ := printSpine_cons built.consistent preserves clear
    have opened : new.print .write (room + 1) path out
        ((heap.listWithTail vals tail).2.cons v (heap.listWithTail vals tail).1).1 =
        new.printSpine (new.print .write room) (new.slots.size + 1 + 1) path true (out ++ "(")
          ((heap.listWithTail vals tail).2.cons v (heap.listWithTail vals tail).1).1 ++ ")" := by
      simp only [cons, print]
    rw [opened, step, printSpine_listWithTail sane ending ended others kept inside
      (Nat.lt_succ_of_lt enough), first inner _ (inside.mono built.preserves)]
    simp [Datum.itemsText_cons, String.append_assoc]

end

/-! ### Data -/

theorem ofDatum_atomic (heap : Heap) {d : Datum} (atomic : d.elements? = none) :
    (∀ h, (heap.ofDatum d).1 ≠ .pair h) ∧ (heap.ofDatum d).1 ≠ .emptyList := by
  cases d with
  | atom atom => cases atom <;> simp [ofDatum, ofAtom, string, bytes]
  | list | dotted => cases atomic
  | vector => simp [ofDatum, vector]

mutual

theorem prints_ofDatum {heap new : Heap} {room : Nat} (sane : heap.Consistent) :
    {d : Datum} → d.NormalForm → (∀ atom ∈ d.atoms, atom.isFinite = true) →
      d.nesting ≤ room → (heap.ofDatum d).2.Preserves new →
        new.Prints (heap.ofDatum d).2 room (heap.ofDatum d).1 d
  | .atom atom _, _, finite, _, _ => by
    rw [ofDatum]
    exact prints_ofAtom (finite atom (by simp [Datum.atoms]))
  | .list [] _, _, _, _, _ => by
    intro path out _
    simp [ofDatum, ofData, list, listWithTail, print, Value.atomText, Datum.text, itemsText]
  | .list (item :: xs) _, .list normal, finite, shallow, preserves => by
    intro path out clear
    obtain ⟨room, rfl⟩ := Nat.exists_eq_add_one_of_ne_zero (Nat.ne_zero_of_lt shallow)
    have built := adds_ofData sane (item :: xs)
    have joined := adds_listWithTail built.consistent (heap.ofData (item :: xs)).1 .emptyList
    have each := prints_ofData sane normal finite (Nat.le_of_succ_le_succ shallow)
      (joined.preserves.trans preserves)
    rw [ofDatum] at preserves clear ⊢
    refine (print_listWithTail built.consistent "" (by simp [printSpine]) each (by simp) (by simp)
      preserves clear).trans ?_
    simp [Datum.text]
  | .dotted xs tail _, .dotted normal ending filled atomic, finite, shallow, preserves => by
    intro path out clear
    obtain ⟨room, rfl⟩ := Nat.exists_eq_add_one_of_ne_zero (Nat.ne_zero_of_lt shallow)
    rw [Datum.nesting, Nat.add_le_add_iff_right, Nat.max_le] at shallow
    rw [Datum.atoms, List.forall_mem_append] at finite
    have built := adds_ofData sane xs
    have last := adds_ofDatum built.consistent tail
    have joined := adds_listWithTail last.consistent (heap.ofData xs).1
      ((heap.ofData xs).2.ofDatum tail).1
    rw [ofDatum] at preserves clear ⊢
    have kept := joined.preserves.trans preserves
    have each := prints_ofData sane normal finite.1 shallow.1 (last.preserves.trans kept)
    have behind := prints_ofDatum built.consistent ending finite.2 shallow.2 kept
    obtain ⟨unpaired, occupied⟩ := ofDatum_atomic (heap.ofData xs).2 atomic
    have ended (steps : Nat) (path : Path) (out : String)
        (clear : ((heap.ofData xs).2.ofDatum tail).2.Clear path) :
        new.printSpine (new.print .write room) (steps + 1) path false out
          ((heap.ofData xs).2.ofDatum tail).1 = out ++ (" . " ++ tail.text) := by
      rw [printSpine_tail unpaired occupied, behind path _ clear, String.append_assoc]
    rw [print_listWithTail last.consistent _ ended (each.imp fun _ _ => .mono last.preserves) unpaired
      filled preserves clear]
    simp [Datum.text, String.append_assoc]
  | .vector xs _, .vector normal, finite, shallow, preserves => by
    intro path out clear
    obtain ⟨room, rfl⟩ := Nat.exists_eq_add_one_of_ne_zero (Nat.ne_zero_of_lt shallow)
    have built := adds_ofData sane xs
    have added := Adds.alloc built.consistent (.vector (heap.ofData xs).1.toArray)
    have each := prints_ofData sane normal finite (Nat.le_of_succ_le_succ shallow)
      (added.preserves.trans preserves)
    exact print_vector built.consistent preserves clear each

theorem prints_ofData {heap new : Heap} {room : Nat} (sane : heap.Consistent) :
    {data : List Datum} → NormalItems data → (∀ atom ∈ atomsItems data, atom.isFinite = true) →
      nestingItems data ≤ room → (heap.ofData data).2.Preserves new →
        List.Forall₂ (new.Prints (heap.ofData data).2 room) (heap.ofData data).1 data
  | [], _, _, _, _ => .nil
  | item :: xs, .cons normal others, finite, shallow, preserves => by
    have first := adds_ofDatum sane item
    have rest := adds_ofData first.consistent xs
    rw [Datum.atomsItems, List.forall_mem_append] at finite
    rw [Datum.nestingItems, Nat.max_le] at shallow
    rw [ofData] at preserves ⊢
    have printed := prints_ofDatum sane normal finite.1 shallow.1 (rest.preserves.trans preserves)
    exact .cons (printed.mono rest.preserves)
      (prints_ofData first.consistent others finite.2 shallow.2 preserves)

end

/-- The two printers agree: in every heap, what quoting builds prints as the text of the datum, if it
is not nested too deep and its floats are finite. All other objects are left alone. -/
theorem writeText_ofDatum {heap : Heap} (built : heap.Built) {datum : Datum}
    (normal : datum.NormalForm) (finite : ∀ atom ∈ datum.atoms, atom.isFinite = true)
    (shallow : datum.nesting ≤ maxPrintDepth) :
    (heap.ofDatum datum).2.writeText (heap.ofDatum datum).1 = datum.text ∧
      ∀ handle object, heap.get? handle = some object →
        (heap.ofDatum datum).2.get? handle = some object := by
  refine ⟨?_, (adds_ofDatum built.consistent datum).preserves⟩
  have printed := prints_ofDatum built.consistent normal finite shallow fun _ _ held => held
  exact (printed {} "" (by simp [Clear])).trans String.empty_append

/-- `(a #(b ()) . c)`, written at the start of a text. -/
def pairedVector : Datum :=
  .dotted [.atom (.symbol "a") default,
    .vector [.atom (.symbol "b") default, .list [] default] default]
    (.atom (.symbol "c") default) default

def usedHeap : Heap :=
  ((({} : Heap).alloc (.pair .emptyList .emptyList)).2.collect []).2

theorem writeText_pairedVector :
    (usedHeap.ofDatum pairedVector).2.writeText (usedHeap.ofDatum pairedVector).1 =
      "(a #(b ()) . c)" :=
  have normal : pairedVector.NormalForm :=
    .dotted (.cons (.atom _ _) (.cons (.vector (.cons (.atom _ _) (.cons (.list .nil) .nil))) .nil))
      (.atom _ _) (by simp) rfl
  (writeText_ofDatum (.collect (.alloc .new _) []) normal (by decide) (by decide)).1.trans
    (by decide +kernel)

end Heap

end MiniScheme
