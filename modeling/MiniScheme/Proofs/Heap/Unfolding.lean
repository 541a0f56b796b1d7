import MiniScheme.Proofs.Heap.Limits
import MiniScheme.Proofs.Runs.Sequences
import Mathlib.Data.Multiset.AddSub

/-!
# Values as trees

A value unfolds to a finite tree unless it contains itself: whatever is shared in the heap appears
once for each way that leads to it. Structural equality is equality of these trees, and if one of two
values has such a tree, comparing them comes to an end in whichever order their parts are compared.
-/

namespace MiniScheme

/-- What a comparison sees of a value without going into its parts. -/
def Value.face : Value → Value
  | .string _ text => .string 0 text
  | .bytes _ content => .bytes 0 content
  | .host object => .host { id := object.id, className := "" }
  | .pair _ => .pair { index := 0, generation := 0 }
  | .vector _ => .vector { index := 0, generation := 0 }
  | value => value

/-- What can be seen of a value, and a tree for each of its parts. -/
inductive Tree where
  | node (face : Value) (parts : List Tree)

namespace Heap

variable {heap : Heap} {left right value v : Value} {lefts rights : List Value} {levels : Nat}
  {tree : Tree}

/-- The parts of a value, if it can be in a tree: floats cannot, nor can what has been reclaimed. -/
def branches? (heap : Heap) : Value → Option (List Value)
  | .float _ => none
  | .pair handle => heap.parts? (.pair handle)
  | .vector handle => heap.parts? (.vector handle)
  | _ => some []

/-- The tree of a value, if it has no more than a number of levels. -/
def tree? (heap : Heap) : Nat → Value → Option Tree
  | 0, _ => none
  | levels + 1, value => do
    let branches ← heap.branches? value
    return .node value.face (← branches.mapM (heap.tree? levels))

def Finite (heap : Heap) (value : Value) : Prop :=
  ∃ levels tree, heap.tree? levels value = some tree

theorem tree?_eq_some_iff : heap.tree? (levels + 1) v = some tree ↔
    ∃ branches parts, heap.branches? v = some branches ∧ tree = .node v.face parts ∧
      List.Forall₂ (fun branch part => heap.tree? levels branch = some part) branches parts := by
  simp only [tree?, Option.bind_eq_bind, Option.bind_eq_some_iff, mapM_eq_some_iff]
  grind

/-- A set of values with all their parts, in which strings or byte vectors that are the same have the
same content. -/
structure Genuine (heap : Heap) (values : Set Value) : Prop where
  texts : ∀ stamp text text', .string stamp text ∈ values → .string stamp text' ∈ values → text = text'
  octets : ∀ stamp content content',
    .bytes stamp content ∈ values → .bytes stamp content' ∈ values → content = content'
  closed : ∀ value ∈ values, ∀ parts, heap.branches? value = some parts → ∀ part ∈ parts, part ∈ values

/-! ### Equality of trees -/

section

variable {vals : Set Value} (genuine : heap.Genuine vals)

include genuine in
theorem alike_of_equal (mem : left ∈ vals) (mem' : right ∈ vals)
    (same : heap.verdict left right = .equal) :
    heap.branches? left = none ∧ heap.branches? right = none ∨
      left.face = right.face ∧ heap.branches? left = heap.branches? right := by
  unfold verdict at same
  split at same
  · rename_i identical
    have texts := genuine.texts
    have octets := genuine.octets
    unfold Value.eqv at identical
    split at identical <;> simp_all [branches?, Value.face] <;> grind
  · repeat' split at same
    all_goals simp_all [branches?, Value.face]

theorem alike_of_parts (parted : heap.verdict left right = .parts lefts rights) :
    left.face = right.face ∧ heap.branches? left = some lefts ∧
      heap.branches? right = some rights := by
  obtain ⟨there, there', -⟩ := parts_of_verdict parted
  unfold verdict at parted
  repeat' split at parted
  all_goals simp_all [branches?, Value.face]

/-- Values that look alike are compared by their parts, unless they are the same. -/
theorem verdict_of_alike (face : left.face = right.face) (there : heap.branches? left = some lefts)
    (there' : heap.branches? right = some rights) (length : lefts.length = rights.length) :
    heap.verdict left right = .equal ∨ heap.verdict left right = .parts lefts rights := by
  cases left <;> cases right <;> simp_all [Value.face, branches?, parts?, verdict, Value.eqv]
  all_goals grind

include genuine in
theorem tree?_eq_of_equal (mem : left ∈ vals) (mem' : right ∈ vals)
    (eq : heap.equal left right = true) (levels : Nat) :
    heap.tree? levels left = heap.tree? levels right := by
  induction levels generalizing left right with
  | zero => rfl
  | succ levels ih =>
    rcases equal_iff_parts.mp eq with same | ⟨lefts, rights, parted, each⟩
    · rcases alike_of_equal genuine mem mem' same with ⟨none, none'⟩ | ⟨face, branches⟩
      · rw [tree?, tree?, none, none']
        rfl
      · simp only [tree?, face, branches]
    · obtain ⟨face, there, there'⟩ := alike_of_parts parted
      have inside := genuine.closed left mem lefts there
      have inside' := genuine.closed right mem' rights there'
      have parts : lefts.mapM (heap.tree? levels) = rights.mapM (heap.tree? levels) := by
        clear there there' parted
        induction each with
        | nil => rfl
        | cons first _ rest =>
          rw [List.forall_mem_cons] at inside inside'
          rw [List.mapM_cons, List.mapM_cons, ih inside.1 inside'.1 first, rest inside.2 inside'.2]
      simp only [tree?, face, there, there', Option.bind_eq_bind, Option.bind_some, parts]

theorem equal_of_tree? (unfolds : heap.tree? levels left = some tree)
    (unfolds' : heap.tree? levels right = some tree) : heap.equal left right = true := by
  induction levels generalizing left right tree with
  | zero => cases unfolds
  | succ levels ih =>
    obtain ⟨lefts, parts, there, rfl, each⟩ := tree?_eq_some_iff.mp unfolds
    obtain ⟨rights, parts', there', same, each'⟩ := tree?_eq_some_iff.mp unfolds'
    obtain ⟨face, rfl⟩ := Tree.node.inj same
    have eq : List.Forall₂ (heap.equal · · = true) lefts rights := by
      clear there there' unfolds unfolds' same
      induction each generalizing rights with
      | nil => cases each'; exact .nil
      | cons first _ rest =>
        cases each' with
        | cons first' others => exact .cons (ih first first') (rest _ others)
    rw [equal_iff_parts]
    exact (verdict_of_alike face there there' eq.length_eq).imp_right fun parted =>
      ⟨lefts, rights, parted, eq⟩

end

/-! ### The end of comparisons -/

/-- The comparisons that take the place of one, unless it finds a difference. -/
def follow? (heap : Heap) (comparison : Value × Value) : Option (List (Value × Value)) :=
  match heap.verdict comparison.1 comparison.2 with
  | .equal => some []
  | .different => none
  | .parts lefts rights => some (lefts.zip rights)

/-- One of the pending comparisons is made, no matter which. -/
inductive Narrows (heap : Heap) : Multiset (Value × Value) → Multiset (Value × Value) → Prop where
  | make {comparison : Value × Value} {parts : List (Value × Value)}
      (follows : heap.follow? comparison = some parts) (rest : Multiset (Value × Value)) :
      Narrows heap (comparison ::ₘ rest) (↑parts + rest)

def Settles (heap : Heap) (pending : Multiset (Value × Value)) : Prop :=
  Acc (fun next pending => heap.Narrows pending next) pending

def OneUnfolds (heap : Heap) (levels : Nat) (comparison : Value × Value) : Prop :=
  (∃ tree, heap.tree? levels comparison.1 = some tree) ∨
    ∃ tree, heap.tree? levels comparison.2 = some tree

theorem unfolds_branches (unfolds : ∃ tree, heap.tree? (levels + 1) v = some tree)
    {branches : List Value} (there : heap.branches? v = some branches) :
    ∀ branch ∈ branches, ∃ tree, heap.tree? levels branch = some tree := by
  obtain ⟨_, unfolds⟩ := unfolds
  obtain ⟨_, parts, found, -, each⟩ := tree?_eq_some_iff.mp unfolds
  cases there.symm.trans found
  clear there found unfolds
  induction each with
  | nil => nofun
  | cons first _ rest => exact List.forall_mem_cons.mpr ⟨⟨_, first⟩, rest⟩

theorem OneUnfolds.follow {comparison : Value × Value} {parts : List (Value × Value)}
    (unfolds : heap.OneUnfolds (levels + 1) comparison)
    (follows : heap.follow? comparison = some parts) :
    ∀ part ∈ parts, heap.OneUnfolds levels part := by
  unfold follow? at follows
  split at follows
  · cases follows
    nofun
  · cases follows
  · rename_i lefts rights parted
    cases follows
    obtain ⟨-, there, there'⟩ := alike_of_parts parted
    intro part mem
    have inside := List.of_mem_zip mem
    exact unfolds.imp (unfolds_branches · there _ inside.1) (unfolds_branches · there' _ inside.2)

/-- A comparison with a finite value adds only finitely many to those that are pending. -/
theorem settles_cons {comparison : Value × Value} (unfolds : heap.OneUnfolds levels comparison)
    {rest : Multiset (Value × Value)} (settles : heap.Settles rest) :
    heap.Settles (comparison ::ₘ rest) := by
  induction levels generalizing comparison rest with
  | zero => rcases unfolds with ⟨_, nothing⟩ | ⟨_, nothing⟩ <;> cases nothing
  | succ levels ih =>
    induction settles with
    | intro rest settles others =>
      refine ⟨_, fun next narrows => ?_⟩
      generalize whole : comparison ::ₘ rest = pending at narrows
      obtain ⟨follows, rest'⟩ := narrows
      rcases Multiset.cons_eq_cons.mp whole with ⟨rfl, rfl⟩ | ⟨-, left, rfl, rfl⟩
      · -- its parts are one level lower, and there are finitely many of them
        rename_i parts
        have lower := unfolds.follow follows
        clear follows whole
        induction parts with
        | nil =>
          rw [Multiset.coe_nil, zero_add]
          exact ⟨_, settles⟩
        | cons part parts more =>
          rw [List.forall_mem_cons] at lower
          rw [← Multiset.cons_coe, Multiset.cons_add]
          exact ih lower.1 (more lower.2)
      · rw [Multiset.add_cons]
        exact others _ (.make follows left)

/-- Where one of two values is finite, comparing them ends, and they are equal if they unfold to
the same tree. On finite values this is an equivalence. -/
theorem equal_iff_unfolds_alike {values : Set Value} (genuine : heap.Genuine values) :
    (∀ left ∈ values, ∀ right ∈ values, heap.Finite left ∨ heap.Finite right →
      heap.Settles {(left, right)} ∧ (heap.equal left right = true ↔
        ∃ levels tree, heap.tree? levels left = some tree ∧
          heap.tree? levels right = some tree)) ∧
      Equivalence fun left right : {value // value ∈ values ∧ heap.Finite value} =>
        heap.equal left right = true := by
  have alike {left right : Value} (member : left ∈ values) (member' : right ∈ values)
      (equal : heap.equal left right = true) := tree?_eq_of_equal genuine member member' equal
  have nothing : heap.Settles 0 := by
    refine ⟨_, fun next narrows => ?_⟩
    generalize none : (0 : Multiset (Value × Value)) = pending at narrows
    cases narrows
    exact absurd none Multiset.zero_ne_cons
  refine ⟨fun left member right member' finite => ⟨?_, fun equal => ?_, ?_⟩, ⟨fun value => ?_,
    fun {left right} equal => ?_, fun {left middle right} equal equal' => ?_⟩⟩
  · rcases finite with ⟨levels, finite⟩ | ⟨levels, finite⟩
    · exact settles_cons (.inl finite) nothing
    · exact settles_cons (.inr finite) nothing
  · rcases finite with ⟨levels, tree, unfolds⟩ | ⟨levels, tree, unfolds⟩
    · exact ⟨levels, tree, unfolds, alike member member' equal levels ▸ unfolds⟩
    · exact ⟨levels, tree, alike member member' equal levels ▸ unfolds, unfolds⟩
  · rintro ⟨levels, tree, unfolds, unfolds'⟩
    exact equal_of_tree? unfolds unfolds'
  · obtain ⟨levels, tree, unfolds⟩ := value.2.2
    exact equal_of_tree? unfolds unfolds
  · obtain ⟨levels, tree, unfolds⟩ := left.2.2
    exact equal_of_tree? (alike left.2.1 right.2.1 equal levels ▸ unfolds) unfolds
  · obtain ⟨levels, tree, unfolds⟩ := left.2.2
    have unfolds' := alike left.2.1 middle.2.1 equal levels ▸ unfolds
    exact equal_of_tree? unfolds (alike middle.2.1 right.2.1 equal' levels ▸ unfolds')

/-- Two pairs that share a vector, and one that is its own second half. -/
def shared : Heap where
  slots := #[{ object := some (.pair (.string 0 "x") (.vector ⟨3, 0⟩)) },
    { object := some (.pair (.string 1 "x") (.vector ⟨3, 0⟩)) },
    { object := some (.pair (.string 0 "x") (.pair ⟨2, 0⟩)) },
    { object := some (.vector #[.integer 5]) }]

theorem equal_iff_unfolds_alike_shared : shared.equal (.pair ⟨0, 0⟩) (.pair ⟨1, 0⟩) = true ∧
    shared.Settles {(.pair ⟨2, 0⟩, .pair ⟨1, 0⟩)} := by
  have genuine : shared.Genuine {value | value ∈ [.pair ⟨0, 0⟩, .pair ⟨1, 0⟩, .pair ⟨2, 0⟩,
      .vector ⟨3, 0⟩, .string 0 "x", .string 1 "x", .integer 5]} := by
    refine ⟨by simp; grind, by simp, ?_⟩
    simp [branches?, parts?, pair?, vector?, get?, shared]
  have finite : shared.Finite (.pair ⟨1, 0⟩) := ⟨3, _, rfl⟩
  have compare := (equal_iff_unfolds_alike genuine).1
  exact ⟨(compare _ (by simp) _ (by simp) (.inr finite)).2.mpr ⟨3, _, rfl, rfl⟩,
    (compare _ (by simp) _ (by simp) (.inr finite)).1⟩

end Heap

end MiniScheme
