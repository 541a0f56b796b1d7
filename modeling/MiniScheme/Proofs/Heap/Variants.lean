import MiniScheme.Proofs.Heap.Depiction

/-!
# Values of the application in the heap

Converting a variant adds objects to the heap and leaves a value that can be followed without coming
upon a dangling handle. The variant can be read back from it, now and whenever further objects have
been added: lists are chains of pairs again, and they do not nest deeper than the heap has slots,
since every list that is not empty takes a slot of its own.
-/

namespace MiniScheme

namespace Heap

variable {heap old mid new : Heap} {v last : Value} {vals : List Value}

/-! ### Values without dangling handles -/

/-- Everything that can be reached from the value is live. -/
def Intact (heap : Heap) (value : Value) : Prop :=
  ∀ handle, heap.Reachable value.handle?.toList handle → heap.isLive handle = true

theorem Reachable.of_roots {roots roots' : List Handle} {h : Handle}
    (each : ∀ root ∈ roots, heap.Reachable roots' root) (reached : heap.Reachable roots h) :
    heap.Reachable roots' h := by
  induction reached with
  | root mem => exact each _ mem
  | through _ held refers ih => exact .through ih held refers

theorem Intact.of_atom (unbound : v.handle? = none) : heap.Intact v := by
  intro h reached
  rw [unbound] at reached
  exfalso
  induction reached with
  | root mem => cases mem
  | through _ _ _ ih => exact ih

theorem Intact.mono (preserves : old.Preserves new) (intact : old.Intact v) : new.Intact v := by
  intro h reached
  rcases preserves.reachable reached with before | ⟨lost, before, dead, -⟩
  · obtain ⟨obj, held⟩ := isLive_iff.mp (intact h before)
    exact isLive_iff.mpr ⟨obj, preserves h obj held⟩
  · cases (intact lost before).symm.trans dead

/-- What an object refers to is intact if every handle in it belongs to an intact value. -/
theorem Intact.of_held {h : Handle} {obj : Object} (tagged : v.handle? = some h)
    (held : heap.get? h = some obj) (parts : ∀ ref, obj.Refers ref →
      ∃ part : Value, part.reference? = some ref ∧ heap.Intact part) : heap.Intact v := by
  intro other reached
  rw [tagged] at reached
  -- What is reached is the object itself or lies behind one of its parts.
  have behind : other = h ∨ ∃ part : Value, heap.Intact part ∧
      heap.Reachable part.handle?.toList other := by
    induction reached with
    | root mem => exact .inl (by simpa using mem)
    | @through holder obj' ref _ held' refers ih =>
      rcases ih with rfl | ⟨part, intact, before⟩
      · cases held.symm.trans held'
        obtain ⟨part, tagged, intact⟩ := parts ref refers
        exact .inr ⟨part, intact, .root (by simp [part.handle?_eq, tagged])⟩
      · exact .inr ⟨part, intact, .through before held' refers⟩
  rcases behind with rfl | ⟨part, intact, before⟩
  · exact isLive_iff.mpr ⟨obj, held⟩
  · exact intact other before

theorem Intact.pair {h : Handle} {car cdr : Value}
    (held : heap.get? h = some (.pair car cdr)) (left : heap.Intact car)
    (right : heap.Intact cdr) : heap.Intact (.pair h) := by
  refine .of_held rfl held fun ref refers => ?_
  cases refers with
  | car tagged => exact ⟨car, tagged, left⟩
  | cdr tagged => exact ⟨cdr, tagged, right⟩

theorem Intact.vector {h : Handle} {xs : Array Value}
    (held : heap.get? h = some (.vector xs)) (each : ∀ item ∈ xs, heap.Intact item) :
    heap.Intact (.vector h) := by
  refine .of_held rfl held fun ref refers => ?_
  cases refers with
  | item mem tagged => exact ⟨_, tagged, each _ mem⟩

theorem Chains.intact (chains : heap.Chains last v vals) (end_intact : heap.Intact last)
    (each : ∀ element ∈ vals, heap.Intact element) : heap.Intact v := by
  induction chains with
  | nil => exact end_intact
  | cons held _ ih =>
    obtain ⟨first, others⟩ := List.forall_mem_cons.mp each
    exact .pair held first (ih others)

theorem intact_listWithTail (sane : heap.Consistent) (end_intact : heap.Intact last)
    (each : ∀ element ∈ vals, heap.Intact element) :
    (heap.listWithTail vals last).2.Intact (heap.listWithTail vals last).1 := by
  have preserves := (adds_listWithTail sane vals last).preserves
  exact (chains_listWithTail sane vals last).intact (end_intact.mono preserves)
    fun element mem => (each element mem).mono preserves

/-! ### Counting new objects -/

/-- `old.Gains count new`: so many objects have been added. -/
structure Gains (count : Nat) (old new : Heap) : Prop where
  adds : old.Adds new
  counted : new.slots.size + old.free.length = old.slots.size + new.free.length + count

theorem Gains.refl (sane : heap.Consistent) : heap.Gains 0 heap :=
  ⟨.refl sane, rfl⟩

theorem Gains.trans {n n' : Nat} (first : old.Gains n mid)
    (second : mid.Gains n' new) : old.Gains (n + n') new := by
  refine ⟨first.adds.trans second.adds, ?_⟩
  have := first.counted
  have := second.counted
  omega

theorem Gains.alloc (sane : heap.Consistent) (obj : Object) : heap.Gains 1 (heap.alloc obj).2 := by
  refine ⟨.alloc sane obj, ?_⟩
  rcases alloc_eq sane obj with ⟨index, free, slot, taken, -, -, eq⟩ | ⟨full, eq⟩
  · simp only [eq, taken, Array.size_setIfInBounds, List.length_cons]
    omega
  · simp [eq, full]

theorem Gains.stamp (sane : heap.Consistent) (stamp : Stamp) :
    heap.Gains 0 { heap with nextStamp := stamp } :=
  ⟨⟨fun _ _ held => held, sane.stamp stamp⟩, rfl⟩

theorem gains_listWithTail (sane : heap.Consistent) (vals : List Value) (tail : Value) :
    heap.Gains vals.length (heap.listWithTail vals tail).2 := by
  induction vals with
  | nil => exact .refl sane
  | cons v vals ih =>
    rw [listWithTail_cons]
    exact ih.trans (.alloc ih.adds.consistent _)

/-- There are no fewer slots than objects have been added. -/
theorem Gains.le_size {n : Nat} (sane : old.Consistent) (gains : old.Gains n new) :
    n ≤ new.slots.size := by
  have inside : old.free ⊆ List.range old.slots.size := by
    intro index mem
    obtain ⟨slot, found, -⟩ := (sane.mem_free_iff index).mp mem
    exact List.mem_range.mpr (lt_size found)
  have few := (List.subperm_of_subset sane.free_nodup inside).length_le
  rw [List.length_range] at few
  have := gains.counted
  omega

end Heap

/-! ### There and back -/

namespace Variant

mutual

/-- How deep lists are nested in a variant. Empty lists do not count. -/
def nesting : Variant → Nat
  | .list items => nestingItems items
  | _ => 0

/-- How deep lists are nested in a list of these items. -/
def nestingItems : List Variant → Nat
  | [] => 0
  | item :: items => max (item.nesting + 1) (nestingItems items)

end

structure Arrives (old : Heap) (variant : Variant) (built : Value × Heap) : Prop where
  gains : ∃ count ≥ variant.nesting, old.Gains count built.2
  intact : built.2.Intact built.1
  back (new : Heap) (levels : Nat) : built.2.Preserves new → variant.nesting ≤ levels →
    ofValueWithin new levels built.1 = .ok variant

structure AllArrive (old : Heap) (variants : List Variant) (built : List Value × Heap) : Prop where
  length : built.1.length = variants.length
  gains : ∃ count, nestingItems variants ≤ count + variants.length ∧ old.Gains count built.2
  intact : ∀ value ∈ built.1, built.2.Intact value
  back (new : Heap) (levels : Nat) : built.2.Preserves new → nestingItems variants ≤ levels + 1 →
    built.1.mapM (ofValueWithin new levels) = .ok variants

variable {heap old : Heap} {variant : Variant} {variants : List Variant}

theorem Arrives.of_atom (sane : heap.Consistent) {v : Value} {stamp : Stamp}
    (flat : variant.nesting = 0) (unbound : v.handle? = none)
    (back : ∀ new levels, ofValueWithin new levels v = .ok variant) :
    variant.Arrives heap (v, { heap with nextStamp := stamp }) where
  gains := ⟨0, Nat.le_of_eq flat, .stamp sane stamp⟩
  intact := .of_atom unbound
  back new levels _ _ := back new levels

theorem AllArrive.cons {first : Value × Heap} {rest : List Value × Heap}
    (head : variant.Arrives old first) (tail : AllArrive first.2 variants rest) :
    AllArrive old (variant :: variants) (first.1 :: rest.1, rest.2) := by
  obtain ⟨n, enough, gains⟩ := head.gains
  obtain ⟨n', enough', gains'⟩ := tail.gains
  refine ⟨congrArg (· + 1) tail.length, ⟨n + n', ?_, gains.trans gains'⟩, ?_, ?_⟩
  · simp only [nestingItems, List.length_cons]
    omega
  · rw [List.forall_mem_cons]
    exact ⟨head.intact.mono gains'.adds.preserves, tail.intact⟩
  · intro new levels preserves deep
    rw [nestingItems] at deep
    have first_back := head.back new levels (gains'.adds.preserves.trans preserves) (by omega)
    have rest_back := tail.back new levels preserves (by omega)
    simp only [List.mapM_cons, first_back, rest_back]
    rfl

theorem ofValueWithin_spells {v : Value} {vals : List Value} {levels : Nat}
    (spells : heap.Spells v vals) (back : vals.mapM (ofValueWithin heap levels) = .ok variants) :
    ofValueWithin heap (levels + 1) v = .ok (.list variants) := by
  cases spells with
  | nil =>
    cases back
    rw [ofValueWithin]
    rfl
  | cons held tail =>
    rw [ofValueWithin, Heap.elements?_eq_some_iff.mpr (.cons held tail)]
    dsimp only
    rw [back]
    rfl

theorem AllArrive.list {built : List Value × Heap} (arrive : AllArrive old variants built) :
    (Variant.list variants).Arrives old (built.2.list built.1) := by
  obtain ⟨n, enough, gains⟩ := arrive.gains
  have sane := gains.adds.consistent
  have listed := Heap.gains_listWithTail sane built.1 .emptyList
  rw [arrive.length] at listed
  refine ⟨⟨_, by rwa [nesting], gains.trans listed⟩,
    Heap.intact_listWithTail sane (.of_atom rfl) arrive.intact, ?_⟩
  intro new levels preserves deep
  rw [nesting] at deep
  have chains := (Heap.chains_listWithTail sane built.1 .emptyList).mono preserves
  cases levels with
  | zero =>
    -- Only the empty list is that flat.
    cases variants with
    | nil =>
      rw [List.eq_nil_of_length_eq_zero arrive.length]
      exact ofValueWithin.eq_def ..
    | cons item xs =>
      rw [nestingItems] at deep
      omega
  | succ levels =>
    exact ofValueWithin_spells (Heap.spells_iff.mpr chains)
      (arrive.back new levels (listed.adds.preserves.trans preserves) deep)

mutual

theorem arrives_toValue {heap : Heap} (sane : heap.Consistent) :
    (variant : Variant) → variant.Arrives heap (variant.toValue heap)
  | .null | .bool _ | .int _ | .float _ | .object _ | .string _ | .bytes _ => by
    rw [toValue]
    exact .of_atom sane (by rw [nesting]; rintro _ ⟨⟩) rfl fun _ _ => by rw [ofValueWithin]
  | .list xs => by
    rw [toValue]
    exact (allArrive_toValues sane xs).list

theorem allArrive_toValues {heap : Heap} (sane : heap.Consistent) :
    (variants : List Variant) → AllArrive heap variants (toValues heap variants)
  | [] => by
    rw [toValues]
    exact ⟨rfl, ⟨0, Nat.le_refl _, .refl sane⟩, by simp, fun _ _ _ _ => rfl⟩
  | variant :: variants => by
    rw [toValues]
    have head := arrives_toValue sane variant
    obtain ⟨_, _, gains⟩ := head.gains
    exact .cons head (allArrive_toValues gains.adds.consistent variants)

end

/-- Every variant survives the way into the heap and back, and no object is changed on the way. -/
theorem ofValue_toValue (built : heap.Built) (variant : Variant) :
    ofValue (variant.toValue heap).2 (variant.toValue heap).1 = .ok variant ∧
      heap.Preserves (variant.toValue heap).2 := by
  have arrives := arrives_toValue built.consistent variant
  obtain ⟨count, enough, gains⟩ := arrives.gains
  have bound := gains.le_size built.consistent
  exact ⟨arrives.back _ _ (fun _ _ held => held) (by omega), gains.adds.preserves⟩

/-- The first pair of the nested lists gets the slot of an object that has been collected. -/
theorem ofValue_toValue_reused :
    let heap := ((({} : Heap).alloc (.vector #[])).2.collect []).2
    let variant := Variant.list [.list [.null, .list []], .object { id := 7, className := "Node" }]
    heap.Built ∧ heap.free = [0] ∧
      ofValue (variant.toValue heap).2 (variant.toValue heap).1 = .ok variant ∧
      heap.Preserves (variant.toValue heap).2 :=
  have built := Heap.Built.collect (.alloc .new (.vector #[])) []
  ⟨built, by cbv, ofValue_toValue built _⟩

end Variant

end MiniScheme
