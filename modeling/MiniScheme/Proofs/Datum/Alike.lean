import MiniScheme.Datum

/-!
# Data apart from positions

Two notions of what stays of a datum when positions are left aside: `Datum.unplaced` forgets them,
and `Datum.Alike` compares without them. `Datum.Splits` says what a datum behind a dot contributes
to a list, so that `Datum.withTail` can be undone.
-/

namespace MiniScheme

namespace Datum

mutual

/-- The datum without the positions of its parts. -/
def unplaced : Datum → Datum
  | .atom value _ => .atom value {}
  | .list items _ => .list (unplacedItems items) {}
  | .dotted items tail _ => .dotted (unplacedItems items) tail.unplaced {}
  | .vector items _ => .vector (unplacedItems items) {}

/-- A sequence of data without the positions of their parts. -/
def unplacedItems : List Datum → List Datum
  | [] => []
  | item :: items => item.unplaced :: unplacedItems items

end

variable {d : Datum} {more xs : List Datum}

theorem eq_ofSymbol_of_isSymbol {name : String} (named : d.isSymbol name = true) :
    ∃ pos, d = ofSymbol name pos := by
  rcases d with ⟨⟨⟩, pos⟩ | _ | _ | _ <;>
    simp only [isSymbol, symbol?, beq_iff_eq, Option.some.injEq, reduceCtorEq] at named
  exact ⟨pos, named ▸ rfl⟩

theorem isSymbol_unplaced (d : Datum) (name : String) :
    d.unplaced.isSymbol name = d.isSymbol name := by
  rcases d with ⟨⟨⟩, _⟩ | _ | _ | _ <;> rfl

theorem isSymbol_eq_of_unplaced {copy : Datum} (copies : copy.unplaced = d.unplaced)
    (name : String) : copy.isSymbol name = d.isSymbol name := by
  rw [← isSymbol_unplaced copy, copies, isSymbol_unplaced]

mutual

/-- Equality of data, wherever they were read, in which an atom is also like itself: a float that
is not a number is not equal to itself. -/
inductive Alike : Datum → Datum → Prop where
  | atom {left right : Atom} {here there : Position}
      (equal : left = right ∨ (left == right) = true) : Alike (.atom left here) (.atom right there)
  | list {left right : List Datum} {here there : Position} (items : AlikeItems left right) :
      Alike (.list left here) (.list right there)
  | dotted {left right : List Datum} {leftTail rightTail : Datum} {here there : Position}
      (items : AlikeItems left right) (tails : Alike leftTail rightTail) :
      Alike (.dotted left leftTail here) (.dotted right rightTail there)
  | vector {left right : List Datum} {here there : Position} (items : AlikeItems left right) :
      Alike (.vector left here) (.vector right there)

/-- Data in sequence that are alike one by one. -/
inductive AlikeItems : List Datum → List Datum → Prop where
  | nil : AlikeItems [] []
  | cons {left right : Datum} {lefts rights : List Datum} (first : Alike left right)
      (others : AlikeItems lefts rights) : AlikeItems (left :: lefts) (right :: rights)

end

mutual

theorem Alike.refl (d : Datum) : Alike d d := by
  cases d with
  | atom v pos => exact .atom (.inl rfl)
  | list xs pos => exact .list (AlikeItems.refl xs)
  | dotted xs tail pos => exact .dotted (AlikeItems.refl xs) (Alike.refl tail)
  | vector xs pos => exact .vector (AlikeItems.refl xs)

theorem AlikeItems.refl (xs : List Datum) : AlikeItems xs xs := by
  cases xs with
  | nil => exact .nil
  | cons item xs => exact .cons (Alike.refl item) (AlikeItems.refl xs)

end

theorem AlikeItems.append {left right others : List Datum} (first : AlikeItems left right)
    (second : AlikeItems more others) : AlikeItems (left ++ more) (right ++ others) := by
  induction left generalizing right with
  | nil => cases first; exact second
  | cons item xs ih =>
    cases first with
    | cons head tail => exact .cons head (ih tail)

mutual

theorem Alike.same {left right : Datum} (alike : Alike left right)
    (reflexive : left.same left = true) : left.same right = true := by
  cases alike with
  | atom eq =>
    rcases eq with rfl | eq
    · simpa only [Datum.same] using reflexive
    · simpa only [Datum.same] using eq
  | list xs | vector xs =>
    rw [Datum.same] at reflexive ⊢
    exact xs.same reflexive
  | dotted xs tails =>
    rw [Datum.same, Bool.and_eq_true] at reflexive ⊢
    exact ⟨xs.same reflexive.1, tails.same reflexive.2⟩

theorem AlikeItems.same {left right : List Datum} (alike : AlikeItems left right)
    (reflexive : sameItems left left = true) : sameItems left right = true := by
  cases alike with
  | nil => exact reflexive
  | cons first others =>
    rw [sameItems, Bool.and_eq_true] at reflexive ⊢
    exact ⟨first.same reflexive.1, others.same reflexive.2⟩

end

theorem Alike.elements?_eq_none {left right : Datum} (alike : Alike left right)
    (atomic : left.elements? = none) : right.elements? = none := by
  cases alike with
  | atom | vector => rfl
  | list | dotted => cases atomic

theorem normalItems_iff : NormalItems xs ↔ ∀ item ∈ xs, NormalForm item := by
  induction xs with
  | nil => exact ⟨fun _ => nofun, fun _ => .nil⟩
  | cons item xs ih =>
    rw [List.forall_mem_cons, ← ih]
    exact ⟨fun | .cons first others => ⟨first, others⟩, fun ⟨first, others⟩ => .cons first others⟩

theorem normalItems_append : NormalItems (xs ++ more) ↔ NormalItems xs ∧ NormalItems more := by
  simp only [normalItems_iff, List.forall_mem_append]

theorem NormalForm.withTail {tail : Datum} (items_normal : NormalItems xs)
    (tail_normal : tail.NormalForm) (pos : Position) : (withTail xs tail pos).NormalForm := by
  cases xs with
  | nil => exact tail_normal
  | cons item xs =>
    cases tail_normal with
    | atom => exact .dotted items_normal (.atom _ _) nofun rfl
    | list inner => exact .list (normalItems_append.mpr ⟨items_normal, inner⟩)
    | dotted inner last _ atomic =>
      exact .dotted (normalItems_append.mpr ⟨items_normal, inner⟩) last nofun atomic
    | vector inner => exact .dotted items_normal (.vector inner) nofun rfl

theorem withTail_of_elements? {tail : Datum} (some_item : xs ≠ [])
    (atomic : tail.elements? = none) (pos : Position) :
    withTail xs tail pos = .dotted xs tail pos := by
  match xs, tail with
  | _ :: _, .atom _ _ => rfl
  | _ :: _, .vector _ _ => rfl

theorem withTail_list (xs rest : List Datum) (here there : Position) :
    ∃ pos, withTail xs (.list rest here) there = .list (xs ++ rest) pos := by
  cases xs with
  | nil => exact ⟨here, rfl⟩
  | cons item xs => exact ⟨there, rfl⟩

theorem withTail_dotted (xs rest : List Datum) (last : Datum) (here there : Position) :
    ∃ pos, withTail xs (.dotted rest last here) there = .dotted (xs ++ rest) last pos := by
  cases xs with
  | nil => exact ⟨here, rfl⟩
  | cons item xs => exact ⟨there, rfl⟩

/-- A datum behind a dot contributes its items and its tail to the list; one that is no list is the
tail itself. -/
inductive Splits : Datum → List Datum → Option Datum → Prop where
  | list {items : List Datum} {position : Position} : Splits (.list items position) items none
  | dotted {items : List Datum} {tail : Datum} {position : Position} :
      Splits (.dotted items tail position) items (some tail)
  | tail {datum : Datum} (atomic : datum.elements? = none) : Splits datum [] (some datum)

theorem splits_of_elements? {tail : Option Datum} (elems : d.elements? = some (xs, tail))
    : Splits d xs tail := by
  cases d with
  | list => cases elems; exact .list
  | dotted => cases elems; exact .dotted
  | atom | vector => cases elems

theorem elements?_withTail_singleton (item d : Datum) (pos : Position) :
    ∃ xs tail, (withTail [item] d pos).elements? = some (item :: xs, tail) ∧ Splits d xs tail := by
  cases d with
  | list xs here => exact ⟨xs, none, rfl, .list⟩
  | dotted xs tail here => exact ⟨xs, some tail, rfl, .dotted⟩
  | atom | vector => exact ⟨[], some _, rfl, .tail rfl⟩

section

variable {d : Datum} {taken left : List Datum} {tail : Option Datum}

theorem Splits.normalItems (splits : Splits d taken tail) (normal : d.NormalForm) :
    NormalItems taken := by
  cases splits with
  | list | dotted => cases normal; assumption
  | tail => exact .nil

/-- What is left of a list after some of its items is in normal form. -/
theorem Splits.normalForm_left (splits : Splits d (taken ++ left) tail)
    (normal : d.NormalForm) (here there : Position) :
    (withTail left (tail.getD (.list [] here)) there).NormalForm := by
  refine .withTail (normalItems_append.mp (splits.normalItems normal)).2 ?_ there
  generalize taken ++ left = xs at splits
  cases splits with
  | list => exact .list .nil
  | dotted => cases normal; assumption
  | tail => exact normal

/-- A list is rebuilt from its first items and what is left of it. -/
theorem Splits.alike_withTail (splits : Splits d (taken ++ left) tail)
    (normal : d.NormalForm) {here there : Position} {xs : List Datum} {rest : Datum}
    (alike_items : AlikeItems taken xs)
    (alike_rest : Alike (withTail left (tail.getD (.list [] here)) there) rest) (pos : Position) :
    Alike d (withTail xs rest pos) := by
  generalize whole : taken ++ left = all at splits
  cases splits with
  | list =>
    obtain ⟨_, eq⟩ := withTail_list left [] here there
    rw [Option.getD_none, eq, List.append_nil] at alike_rest
    cases alike_rest with
    | @list _ others _ place more =>
      obtain ⟨_, eq⟩ := withTail_list xs others place pos
      rw [eq, ← whole]
      exact .list (alike_items.append more)
  | dotted =>
    cases normal with
    | dotted _ _ items_ne tail_atomic =>
      rw [Option.getD_some] at alike_rest
      cases left with
      | nil =>
        rw [List.append_nil] at whole
        have some_item : xs ≠ [] := by
          rintro rfl
          cases alike_items
          exact items_ne whole.symm
        have atomic := Alike.elements?_eq_none alike_rest tail_atomic
        rw [withTail_of_elements? some_item atomic, ← whole]
        exact .dotted alike_items alike_rest
      | cons item lefts =>
        rw [withTail_of_elements? (List.cons_ne_nil _ _) tail_atomic] at alike_rest
        cases alike_rest with
        | @dotted _ others _ last _ place more tails =>
          obtain ⟨_, eq⟩ := withTail_dotted xs others last place pos
          rw [eq, ← whole]
          exact .dotted (alike_items.append more) tails
  | tail atomic =>
    obtain ⟨rfl, rfl⟩ := List.append_eq_nil_iff.mp whole
    cases alike_items
    exact alike_rest

end

end Datum

end MiniScheme
