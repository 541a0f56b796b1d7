import MiniScheme.Proofs.Compiler.Confinement
import MiniScheme.Proofs.Heap.Limits

/-!
# Values that depict a datum

A value depicts a datum if it has the same structure: chains of pairs where the datum has lists,
vectors where it has vectors, and the values of its atoms. Quoting builds such a value. Adding
objects to the heap does not change what a value depicts, and two values that depict the same datum
are structurally equal, unless a float in it is not equal to itself.
-/

namespace MiniScheme.Heap

variable {heap old new : Heap} {d : Datum} {v v' last : Value} {vals : List Value}

namespace Chains

theorem append {mid : Value} {vals' : List Value} (front : heap.Chains mid v vals)
    (back : heap.Chains last mid vals') : heap.Chains last v (vals ++ vals') := by
  induction front with
  | nil => exact back
  | cons held _ ih => exact .cons held ih

theorem mono (preserves : old.Preserves new) (chains : old.Chains last v vals) :
    new.Chains last v vals := by
  induction chains with
  | nil => exact .nil
  | cons held _ ih => exact .cons (preserves _ _ held) ih

end Chains

theorem chains_listWithTail (sane : heap.Consistent) (vals : List Value) (tail : Value) :
    (heap.listWithTail vals tail).2.Chains tail (heap.listWithTail vals tail).1 vals := by
  induction vals with
  | nil => exact .nil
  | cons v vals ih =>
    have built := adds_listWithTail sane vals tail
    rw [listWithTail_cons]
    exact .cons (get?_alloc_self built.consistent _)
      (ih.mono (Adds.alloc built.consistent _).preserves)

mutual

/-- The value has the structure of the datum. -/
def Depicts (heap : Heap) : Datum → Value → Prop
  | .atom atom _, value => ∃ origin : Heap, value = (origin.ofAtom atom).1
  | .list items _, value =>
    ∃ values, heap.Chains .emptyList value values ∧ heap.DepictsAll items values
  | .dotted items tail _, value => ∃ values last,
    heap.Chains last value values ∧ heap.DepictsAll items values ∧ heap.Depicts tail last
  | .vector items _, value => ∃ handle parts, value = .vector handle ∧
    heap.get? handle = some (.vector parts) ∧ heap.DepictsAll items parts.toList

/-- Each value has the structure of the datum in its place. -/
def DepictsAll (heap : Heap) : List Datum → List Value → Prop
  | [], values => values = []
  | item :: items, values =>
    ∃ value rest, values = value :: rest ∧ heap.Depicts item value ∧ heap.DepictsAll items rest

end

mutual

theorem Depicts.mono (preserves : old.Preserves new) :
    {d : Datum} → {v : Value} → old.Depicts d v → new.Depicts d v
  | .atom _ _, _, depicts => by
    rw [Depicts] at depicts ⊢
    exact depicts
  | .list _ _, _, depicts => by
    rw [Depicts] at depicts ⊢
    obtain ⟨vals, chains, each⟩ := depicts
    exact ⟨vals, chains.mono preserves, each.mono preserves⟩
  | .dotted _ _ _, _, depicts => by
    rw [Depicts] at depicts ⊢
    obtain ⟨vals, last, chains, each, tail⟩ := depicts
    exact ⟨vals, last, chains.mono preserves, each.mono preserves, tail.mono preserves⟩
  | .vector _ _, _, depicts => by
    rw [Depicts] at depicts ⊢
    obtain ⟨h, parts, rfl, held, each⟩ := depicts
    exact ⟨h, parts, rfl, preserves _ _ held, each.mono preserves⟩

theorem DepictsAll.mono (preserves : old.Preserves new) : {data : List Datum} →
    {vals : List Value} → old.DepictsAll data vals → new.DepictsAll data vals
  | [], _, depicts => by
    rw [DepictsAll] at depicts ⊢
    exact depicts
  | _ :: _, _, depicts => by
    rw [DepictsAll] at depicts ⊢
    obtain ⟨v, rest, rfl, first, others⟩ := depicts
    exact ⟨v, rest, rfl, first.mono preserves, others.mono preserves⟩

end

theorem DepictsAll.length {data : List Datum} (depicts : heap.DepictsAll data vals) :
    vals.length = data.length := by
  induction data generalizing vals with
  | nil =>
    rw [DepictsAll] at depicts
    rw [depicts]
    rfl
  | cons item xs ih =>
    rw [DepictsAll] at depicts
    obtain ⟨v, rest, rfl, -, others⟩ := depicts
    rw [List.length_cons, List.length_cons, ih others]

theorem DepictsAll.append {data data' : List Datum} {vals' : List Value}
    (front : heap.DepictsAll data vals) (back : heap.DepictsAll data' vals') :
    heap.DepictsAll (data ++ data') (vals ++ vals') := by
  induction data generalizing vals with
  | nil =>
    rw [DepictsAll] at front
    subst front
    exact back
  | cons item xs ih =>
    rw [DepictsAll] at front
    obtain ⟨v, rest, rfl, first, others⟩ := front
    rw [List.cons_append, DepictsAll]
    exact ⟨v, rest ++ vals', rfl, first, ih others⟩

mutual

theorem depicts_ofDatum {heap : Heap} (sane : heap.Consistent) :
    (d : Datum) → (heap.ofDatum d).2.Depicts d (heap.ofDatum d).1
  | .atom atom _ => by
    rw [ofDatum, Depicts]
    exact ⟨heap, rfl⟩
  | .list xs _ => by
    rw [ofDatum, Depicts]
    have built := adds_ofData sane xs
    have joined := adds_listWithTail built.consistent (heap.ofData xs).1 .emptyList
    exact ⟨_, chains_listWithTail built.consistent _ _,
      (depicts_ofData sane xs).mono joined.preserves⟩
  | .dotted xs tail _ => by
    rw [ofDatum, Depicts]
    have built := adds_ofData sane xs
    have ended := adds_ofDatum built.consistent tail
    have joined := adds_listWithTail ended.consistent (heap.ofData xs).1
      ((heap.ofData xs).2.ofDatum tail).1
    exact ⟨_, _, chains_listWithTail ended.consistent _ _,
      (depicts_ofData sane xs).mono (ended.trans joined).preserves,
      (depicts_ofDatum built.consistent tail).mono joined.preserves⟩
  | .vector xs _ => by
    rw [ofDatum, Depicts]
    have built := adds_ofData sane xs
    refine ⟨_, _, rfl, get?_alloc_self built.consistent _, ?_⟩
    rw [List.toList_toArray]
    exact (depicts_ofData sane xs).mono (Adds.alloc built.consistent _).preserves

theorem depicts_ofData {heap : Heap} (sane : heap.Consistent) :
    (data : List Datum) → (heap.ofData data).2.DepictsAll data (heap.ofData data).1
  | [] => by
    rw [ofData, DepictsAll]
  | item :: xs => by
    rw [ofData, DepictsAll]
    have first := adds_ofDatum sane item
    have others := adds_ofData first.consistent xs
    exact ⟨_, _, rfl, (depicts_ofDatum sane item).mono others.preserves,
      depicts_ofData first.consistent xs⟩

end

/-! ### Equality -/

theorem equal_atom {atom : Atom} (same : (atom == atom) = true) (origin origin' : Heap) :
    heap.equal (origin.ofAtom atom).1 (origin'.ofAtom atom).1 = true := by
  refine equal_iff_parts.mpr (.inl ?_)
  cases atom
  case float v =>
    have eq : (v == v) = true := same
    simp [ofAtom, verdict, Value.eqv, eq]
  all_goals simp [ofAtom, verdict, Value.eqv, string, bytes]

theorem equal_pair {h h' : Handle} {car cdr car' cdr' : Value}
    (held : heap.get? h = some (.pair car cdr)) (held' : heap.get? h' = some (.pair car' cdr'))
    (cars : heap.equal car car' = true) (cdrs : heap.equal cdr cdr' = true) :
    heap.equal (.pair h) (.pair h') = true := by
  by_cases same : h = h'
  · exact equal_iff_parts.mpr (.inl (by simp [verdict, Value.eqv, same]))
  · refine equal_iff_parts.mpr (.inr ⟨[car, cdr], [car', cdr'], ?_, by simp [cars, cdrs]⟩)
    simp [verdict, Value.eqv, same, pair?, held, held']

theorem equal_vector {h h' : Handle} {parts parts' : Array Value}
    (held : heap.get? h = some (.vector parts)) (held' : heap.get? h' = some (.vector parts'))
    (each : List.Forall₂ (heap.equal · · = true) parts.toList parts'.toList) :
    heap.equal (.vector h) (.vector h') = true := by
  by_cases same : h = h'
  · exact equal_iff_parts.mpr (.inl (by simp [verdict, Value.eqv, same]))
  · refine equal_iff_parts.mpr (.inr ⟨_, _, ?_, each⟩)
    have size : parts.size = parts'.size := by simpa using each.length_eq
    simp [verdict, Value.eqv, same, vector?, held, held', size]

theorem equal_chains {last' : Value} {vals' : List Value} (chains : heap.Chains last v vals)
    (chains' : heap.Chains last' v' vals') (each : List.Forall₂ (heap.equal · · = true) vals vals')
    (lasts : heap.equal last last' = true) : heap.equal v v' = true := by
  induction each generalizing v v' with
  | nil =>
    cases chains
    cases chains'
    exact lasts
  | cons first _ ih =>
    cases chains with
    | cons held tail =>
      cases chains' with
      | cons held' tail' => exact equal_pair held held' first (ih tail tail')

mutual

theorem Depicts.equal {heap : Heap} : {d : Datum} → {v v' : Value} →
    d.same d = true → heap.Depicts d v → heap.Depicts d v' → heap.equal v v' = true
  | .atom atom _, _, _, same, depicts, depicts' => by
    rw [Depicts] at depicts depicts'
    obtain ⟨origin, rfl⟩ := depicts
    obtain ⟨origin', rfl⟩ := depicts'
    exact equal_atom (by simpa [Datum.same] using same) origin origin'
  | .list xs _, _, _, same, depicts, depicts' => by
    rw [Depicts] at depicts depicts'
    rw [Datum.same] at same
    obtain ⟨vals, chains, each⟩ := depicts
    obtain ⟨vals', chains', each'⟩ := depicts'
    exact equal_chains chains chains' (each.equal same each') (equal_iff_parts.mpr (.inl rfl))
  | .dotted xs tail _, _, _, same, depicts, depicts' => by
    rw [Depicts] at depicts depicts'
    rw [Datum.same, Bool.and_eq_true] at same
    obtain ⟨vals, last, chains, each, tail⟩ := depicts
    obtain ⟨vals', last', chains', each', tail'⟩ := depicts'
    exact equal_chains chains chains' (each.equal same.1 each') (tail.equal same.2 tail')
  | .vector xs _, _, _, same, depicts, depicts' => by
    rw [Depicts] at depicts depicts'
    rw [Datum.same] at same
    obtain ⟨h, parts, rfl, held, each⟩ := depicts
    obtain ⟨h', parts', rfl, held', each'⟩ := depicts'
    exact equal_vector held held' (each.equal same each')

theorem DepictsAll.equal {heap : Heap} : {data : List Datum} → {vals vals' : List Value} →
    Datum.sameItems data data = true → heap.DepictsAll data vals → heap.DepictsAll data vals' →
      List.Forall₂ (heap.equal · · = true) vals vals'
  | [], _, _, _, depicts, depicts' => by
    rw [DepictsAll] at depicts depicts'
    subst depicts depicts'
    exact .nil
  | _ :: _, _, _, same, depicts, depicts' => by
    rw [DepictsAll] at depicts depicts'
    rw [Datum.sameItems, Bool.and_eq_true] at same
    obtain ⟨v, rest, rfl, first, others⟩ := depicts
    obtain ⟨v', rest', rfl, first', others'⟩ := depicts'
    exact .cons (first.equal same.1 first') (others.equal same.2 others')

end

end MiniScheme.Heap
