import MiniScheme.Host
import MiniScheme.Proofs.Heap.Soundness
import MiniScheme.Value.OfDatum

/-!
# Building data

Pairs and vectors are data; closures, invocations and continuations make up the control state. A
heap grows when data are added to it or changed in place: it stays sound, every object stays live
and of its kind, and the control state is the same afterwards. Everything that builds a value from
sound parts grows the heap, and the value is sound in it.
-/

namespace MiniScheme

def Kind.isData : Kind → Bool
  | .pair => true
  | .vector => true
  | _ => false

namespace Heap

/-- `old.Spares new`: the control state is the same in both. -/
def Spares (old new : Heap) : Prop :=
  ∀ handle object, object.kind.isData = false →
    (old.get? handle = some object ↔ new.get? handle = some object)

/-- `old.Grown discipline new`: data have been added or changed. -/
structure Grown (discipline : Discipline) (old new : Heap) : Prop where
  keeps : old.Keeps new
  spares : old.Spares new
  sound : new.Sound discipline

variable {law : Discipline} {heap old mid new : Heap}

theorem Spares.refl (heap : Heap) : heap.Spares heap :=
  fun _ _ _ => Iff.rfl

theorem Spares.trans (first : old.Spares mid) (second : mid.Spares new) : old.Spares new :=
  fun h obj control => (first h obj control).trans (second h obj control)

variable {obj : Object} {change : Object → Object} {car cdr : Value} {vals : List Value}

theorem Spares.alloc (sane : heap.Consistent) (data : obj.kind.isData = true) :
    heap.Spares (heap.alloc obj).2 := by
  intro h present control
  rw [get?_alloc sane]
  split
  · rename_i fresh
    rw [fresh, get?_alloc_fresh sane]
    constructor
    · intro impossible
      cases impossible
    · rintro ⟨⟩
      rw [data] at control
      cases control
  · exact Iff.rfl

theorem Spares.modify (heap : Heap) (h : Handle) (same_kind : ∀ obj, (change obj).kind = obj.kind)
    (unchanged : ∀ obj, obj.kind.isData = false → change obj = obj) :
    heap.Spares (heap.modify h change) := by
  intro other obj control
  rw [get?_modify]
  split
  · constructor
    · intro held
      rw [held, Option.map_some, unchanged obj control]
    · intro held
      obtain ⟨before, present, rfl⟩ := Option.map_eq_some_iff.mp held
      rw [same_kind] at control
      rw [present, unchanged before control]
  · exact Iff.rfl

theorem Grown.refl (sound : heap.Sound law) : heap.Grown law heap :=
  ⟨.refl heap, .refl heap, sound⟩

theorem Grown.trans (first : old.Grown law mid) (second : mid.Grown law new) : old.Grown law new :=
  ⟨first.keeps.trans second.keeps, first.spares.trans second.spares, second.sound⟩

theorem Grown.alloc (sound : heap.Sound law) (data : obj.kind.isData = true)
    (object_sound : obj.Sound law heap) : heap.Grown law (heap.alloc obj).2 :=
  ⟨.alloc sound.consistent obj, .alloc sound.consistent data, sound.alloc object_sound⟩

theorem Grown.modify (sound : heap.Sound law) (h : Handle)
    (same_kind : ∀ obj, (change obj).kind = obj.kind)
    (unchanged : ∀ obj, obj.kind.isData = false → change obj = obj)
    (change_sound : ∀ obj, obj.Sound law heap →
      (change obj).Sound law heap) : heap.Grown law (heap.modify h change) :=
  ⟨.modify heap h same_kind, .modify heap h same_kind unchanged,
    sound.modify h same_kind fun obj _ => change_sound obj⟩

theorem Grown.stamp (sound : heap.Sound law) (stamp : Stamp) :
    heap.Grown law { heap with nextStamp := stamp } :=
  ⟨.stamp heap stamp, .refl heap, sound.stamp stamp⟩

/-! ### Values built from sound parts -/

structure Builds (discipline : Discipline) (old : Heap) (built : Value × Heap) : Prop where
  grown : old.Grown discipline built.2
  value : built.1.Sound discipline built.2

section

variable (sound : heap.Sound law)

include sound

theorem Builds.of_atom {v : Value} (unbound : v.reference? = none)
    (data : v.isProcedure = false) : heap.Builds law (v, heap) :=
  ⟨.refl sound, .of_data unbound data⟩

theorem builds_cons (car_sound : car.Sound law heap) (cdr_sound : cdr.Sound law heap)
    : heap.Builds law (heap.cons car cdr) :=
  ⟨.alloc sound rfl ⟨car_sound, cdr_sound⟩, .pair (holds_alloc sound.consistent (.pair car cdr))⟩

theorem builds_vector {xs : Array Value} (items_sound : ∀ v ∈ xs, v.Sound law heap) :
    heap.Builds law (heap.vector xs) :=
  ⟨.alloc sound rfl items_sound, .vector (holds_alloc sound.consistent (.vector xs))⟩

theorem builds_string (text : String) : heap.Builds law (heap.string text) :=
  ⟨.stamp sound _, .of_data rfl rfl⟩

theorem builds_bytes (content : List UInt8) : heap.Builds law (heap.bytes content) :=
  ⟨.stamp sound _, .of_data rfl rfl⟩

end

theorem listWithTail_cons (heap : Heap) (v : Value) (vals : List Value) (tail : Value) :
    heap.listWithTail (v :: vals) tail =
      (heap.listWithTail vals tail).2.cons v (heap.listWithTail vals tail).1 := by
  simp [listWithTail]

theorem builds_listWithTail (sound : heap.Sound law) {tail : Value}
    (values_sound : ∀ v ∈ vals, v.Sound law heap) (tail_sound : tail.Sound law heap) :
    heap.Builds law (heap.listWithTail vals tail) := by
  induction vals with
  | nil => exact ⟨.refl sound, tail_sound⟩
  | cons v vals ih =>
    have rest := ih fun other mem => values_sound other (by simp [mem])
    have value_sound := (values_sound v (by simp)).mono rest.grown.keeps
    have added := builds_cons rest.grown.sound value_sound rest.value
    rw [listWithTail_cons]
    exact ⟨rest.grown.trans added.grown, added.value⟩

theorem builds_list (sound : heap.Sound law) (values_sound : ∀ v ∈ vals, v.Sound law heap) :
    heap.Builds law (heap.list vals) :=
  builds_listWithTail sound values_sound Value.sound_emptyList

structure BuildsAll (discipline : Discipline) (old : Heap) (built : List Value × Heap) : Prop where
  grown : old.Grown discipline built.2
  values : ∀ value ∈ built.1, value.Sound discipline built.2

theorem Builds.cons {first : Value × Heap} {rest : List Value × Heap}
    (head : heap.Builds law first) (tail : first.2.BuildsAll law rest) :
    heap.BuildsAll law (first.1 :: rest.1, rest.2) :=
  ⟨head.grown.trans tail.grown,
    List.forall_mem_cons.mpr ⟨head.value.mono tail.grown.keeps, tail.values⟩⟩

theorem builds_ofAtom (sound : heap.Sound law) (atom : Atom) :
    heap.Builds law (heap.ofAtom atom) := by
  cases atom
  case string text => exact builds_string sound text
  case bytes content => exact builds_bytes sound content
  all_goals exact .of_atom sound rfl rfl

mutual

theorem builds_ofDatum {heap : Heap} (sound : heap.Sound law) :
    (d : Datum) → heap.Builds law (heap.ofDatum d)
  | .atom atom _ => by
    rw [ofDatum]
    exact builds_ofAtom sound atom
  | .list xs _ => by
    rw [ofDatum]
    have parts := builds_ofData sound xs
    have whole := builds_list parts.grown.sound parts.values
    exact ⟨parts.grown.trans whole.grown, whole.value⟩
  | .dotted xs tail _ => by
    rw [ofDatum]
    have parts := builds_ofData sound xs
    have last := builds_ofDatum parts.grown.sound tail
    have whole := builds_listWithTail last.grown.sound
      (fun v mem => (parts.values v mem).mono last.grown.keeps) last.value
    exact ⟨(parts.grown.trans last.grown).trans whole.grown, whole.value⟩
  | .vector xs _ => by
    rw [ofDatum]
    have parts := builds_ofData sound xs
    have items_sound : ∀ v ∈ (heap.ofData xs).1.toArray,
        v.Sound law (heap.ofData xs).2 := by simpa using parts.values
    have whole := builds_vector parts.grown.sound items_sound
    exact ⟨parts.grown.trans whole.grown, whole.value⟩

theorem builds_ofData {heap : Heap} (sound : heap.Sound law) :
    (data : List Datum) → heap.BuildsAll law (heap.ofData data)
  | [] => by
    rw [ofData]
    exact ⟨.refl sound, by simp⟩
  | item :: xs => by
    rw [ofData]
    have head := builds_ofDatum sound item
    exact head.cons (builds_ofData head.grown.sound xs)

end

mutual

theorem builds_toValue {heap : Heap} (sound : heap.Sound law) :
    (variant : Variant) → heap.Builds law (variant.toValue heap)
  | .null | .bool _ | .int _ | .float _ | .object _ => by
    rw [Variant.toValue]
    exact .of_atom sound rfl rfl
  | .string text => by
    rw [Variant.toValue]
    exact builds_string sound text
  | .list xs => by
    rw [Variant.toValue]
    have parts := builds_toValues sound xs
    have whole := builds_list parts.grown.sound parts.values
    exact ⟨parts.grown.trans whole.grown, whole.value⟩
  | .bytes content => by
    rw [Variant.toValue]
    exact builds_bytes sound content

theorem builds_toValues {heap : Heap} (sound : heap.Sound law) :
    (variants : List Variant) → heap.BuildsAll law (Variant.toValues heap variants)
  | [] => by
    rw [Variant.toValues]
    exact ⟨.refl sound, by simp⟩
  | item :: xs => by
    rw [Variant.toValues]
    have head := builds_toValue sound item
    exact head.cons (builds_toValues head.grown.sound xs)

end

end Heap

end MiniScheme
