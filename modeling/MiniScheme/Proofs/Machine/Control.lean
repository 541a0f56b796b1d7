import MiniScheme.Proofs.Code.Verifier
import MiniScheme.Proofs.Heap.Growth
import MiniScheme.Proofs.Machine.Instructions

/-!
# What control depends on

Code counts on the slots of its invocation and of those around it, and on the layout of the operand
stack down to where the operands of the caller start. The slots are there as long as invocations and
closures are, which running, compiling and collecting see to.
-/

namespace MiniScheme

namespace Heap

/-- `heap.Encloses shape invocation`: the invocation and those around it have at least as many
slots as the shape says. -/
inductive Encloses (heap : Heap) : List Nat → Handle → Prop where
  | outermost {size : Nat} {invocation : Handle} {procedure : Option Handle}
      {slots : Array Value} (held : heap.get? invocation = some (.invocation procedure slots))
      (bound : size ≤ slots.size) : Encloses heap [size] invocation
  | inside {size : Nat} {shape : List Nat} {invocation procedure parent : Handle}
      {slots : Array Value} {lambda : Lambda}
      (held : heap.get? invocation = some (.invocation (some procedure) slots))
      (bound : size ≤ slots.size)
      (created : heap.get? procedure = some (.closure lambda (some parent)))
      (outer : Encloses heap shape parent) : Encloses heap (size :: shape) invocation

variable {shape : List Nat} {inv : Handle}

/-- The invocation that an instruction looks for is there and has the slot. -/
theorem Encloses.enclosing (encloses : heap.Encloses shape inv) {depth size : Nat}
    (scope : shape[depth]? = some size) : ∃ outer slots,
      Machine.enclosing? heap depth inv = some outer ∧ heap.slots? outer = some slots ∧
        size ≤ slots.size := by
  induction encloses generalizing depth with
  | outermost held bound =>
    cases depth with
    | zero =>
      cases scope
      exact ⟨_, _, rfl, slots?_eq_some_iff.mpr ⟨_, held⟩, bound⟩
    | succ depth => cases scope
  | inside held bound created _ ih =>
    cases depth with
    | zero =>
      cases scope
      exact ⟨_, _, rfl, slots?_eq_some_iff.mpr ⟨_, held⟩, bound⟩
    | succ depth =>
      obtain ⟨outer, slots, found, rest⟩ := ih scope
      refine ⟨outer, slots, ?_, rest⟩
      simp only [Machine.enclosing?, procedure?, held, Option.bind_some, closure?, created]
      exact found

/-- `old.Persists new`: invocations and closures are still there, with at least as many slots and
the same places around them. -/
structure Persists (old new : Heap) : Prop where
  invocation (handle : Handle) (procedure : Option Handle) (slots : Array Value) :
    old.get? handle = some (.invocation procedure slots) → ∃ slots' : Array Value,
      new.get? handle = some (.invocation procedure slots') ∧ slots.size ≤ slots'.size
  closure (handle : Handle) (lambda : Lambda) (parent : Option Handle) :
    old.get? handle = some (.closure lambda parent) → ∃ lambda',
      new.get? handle = some (.closure lambda' parent)

variable {heap old mid new : Heap}

theorem Persists.refl (heap : Heap) : heap.Persists heap :=
  ⟨fun _ _ slots held => ⟨slots, held, Nat.le_refl _⟩, fun _ lam _ held => ⟨lam, held⟩⟩

theorem Persists.trans (first : old.Persists mid) (second : mid.Persists new) :
    old.Persists new := by
  constructor
  · intro h proc slots held
    obtain ⟨slots', held', bound⟩ := first.invocation h proc slots held
    obtain ⟨slots'', held'', bound'⟩ := second.invocation h proc slots' held'
    exact ⟨slots'', held'', bound.trans bound'⟩
  · intro h lam parent held
    obtain ⟨lam', held'⟩ := first.closure h lam parent held
    exact second.closure h lam' parent held'

/-- `old.Steady new`: invocations keep the number of their slots, and closures and continuations are
the same. -/
structure Steady (old new : Heap) : Prop where
  invocation (handle : Handle) (procedure : Option Handle) (slots : Array Value) :
    old.get? handle = some (.invocation procedure slots) → ∃ slots' : Array Value,
      new.get? handle = some (.invocation procedure slots') ∧ slots'.size = slots.size
  closure (handle : Handle) (lambda : Lambda) (parent : Option Handle) :
    old.get? handle = some (.closure lambda parent) →
      new.get? handle = some (.closure lambda parent)
  continuation (handle : Handle) (snapshot : Snapshot) :
    old.get? handle = some (.continuation snapshot) →
      new.get? handle = some (.continuation snapshot)

theorem Steady.refl (heap : Heap) : heap.Steady heap :=
  ⟨fun _ _ slots held => ⟨slots, held, rfl⟩, fun _ _ _ held => held, fun _ _ held => held⟩

theorem Steady.trans (first : old.Steady mid) (second : mid.Steady new) : old.Steady new := by
  constructor
  · intro h proc slots held
    obtain ⟨slots', held', same⟩ := first.invocation h proc slots held
    obtain ⟨slots'', held'', same'⟩ := second.invocation h proc slots' held'
    exact ⟨slots'', held'', same'.trans same⟩
  · intro h lam parent held
    exact second.closure h lam parent (first.closure h lam parent held)
  · intro h snapshot held
    exact second.continuation h snapshot (first.continuation h snapshot held)

theorem Steady.persists (steady : old.Steady new) : old.Persists new := by
  constructor
  · intro h proc slots held
    obtain ⟨slots', held', same⟩ := steady.invocation h proc slots held
    exact ⟨slots', held', same.ge⟩
  · intro h lam parent held
    exact ⟨lam, steady.closure h lam parent held⟩

theorem Steady.alloc (sane : heap.Consistent) (obj : Object) : heap.Steady (heap.alloc obj).2 :=
  ⟨fun _ _ slots held => ⟨slots, get?_alloc_of_live sane obj held, rfl⟩,
    fun _ _ _ held => get?_alloc_of_live sane obj held,
    fun _ _ held => get?_alloc_of_live sane obj held⟩

theorem Grown.steady {law : Discipline} (grown : old.Grown law new) : old.Steady new :=
  ⟨fun h _ slots held => ⟨slots, (grown.spares h _ rfl).mp held, rfl⟩,
    fun h _ _ held => (grown.spares h _ rfl).mp held,
    fun h _ held => (grown.spares h _ rfl).mp held⟩

theorem Encloses.mono (encloses : old.Encloses shape inv) (persists : old.Persists new) :
    new.Encloses shape inv := by
  induction encloses with
  | outermost held bound =>
    obtain ⟨slots, held, more⟩ := persists.invocation _ _ _ held
    exact .outermost held (bound.trans more)
  | inside held bound created _ ih =>
    obtain ⟨slots, held, more⟩ := persists.invocation _ _ _ held
    obtain ⟨lam, created⟩ := persists.closure _ _ _ created
    exact .inside held (bound.trans more) created ih

end Heap

/-- `Layout count saved items below`: on top of `below` there are the `saved` counts, each above
as many values as the next one says, and `count` values above them all. -/
inductive Layout : Nat → List Nat → List Value → List Value → Prop where
  | base {below : List Value} : Layout 0 [] below below
  | value {count : Nat} {saved : List Nat} {items below : List Value} (value : Value)
      (rest : Layout count saved items below) : Layout (count + 1) saved (value :: items) below
  | count {count : Nat} {saved : List Nat} {items below : List Value}
      (small : count < operandLimit) (rest : Layout count saved items below) :
      Layout 0 (count :: saved) (.integer (.ofNat count) :: items) below

variable {n next : Nat} {saved : List Nat} {xs below : List Value}

theorem Layout.uncons (layout : Layout (n + 1) saved xs below) :
    ∃ v rest, xs = v :: rest ∧ Layout n saved rest below := by
  cases layout with
  | value v rest => exact ⟨v, _, rfl, rest⟩

theorem Layout.eq_below (layout : Layout 0 [] xs below) : xs = below := by
  cases layout
  rfl

/-- The values above the newest saved count are the operands of a call. -/
theorem Layout.window (layout : Layout n (next :: saved) xs below) : ∃ window rest,
      xs = window ++ .integer (.ofNat next) :: rest ∧ window.length = n ∧
        next < operandLimit ∧ Layout next saved rest below := by
  induction n generalizing xs with
  | zero =>
    cases layout with
    | count small rest => exact ⟨[], _, rfl, rfl, small, rest⟩
  | succ n ih =>
    obtain ⟨v, tail, rfl, layout'⟩ := layout.uncons
    obtain ⟨window, rest, rfl, length, small, below⟩ := ih layout'
    exact ⟨v :: window, rest, rfl, by simp [length], small, below⟩

theorem Layout.operands {args : Nat}
    (layout : Layout (args + 1) (next :: saved) xs below) : ∃ callee vals rest,
      xs = (callee :: vals).reverse ++ .integer (.ofNat next) :: rest ∧
        vals.length = args ∧ next < operandLimit ∧ Layout next saved rest below := by
  obtain ⟨window, rest, rfl, length, small, layout⟩ := layout.window
  cases reversed : window.reverse with
  | nil => simp [List.reverse_eq_nil_iff.mp reversed] at length
  | cons callee vals =>
    have restored : window = (callee :: vals).reverse := by
      rw [← reversed, List.reverse_reverse]
    have size := congrArg List.length restored
    simp only [List.length_reverse, List.length_cons, length] at size
    exact ⟨callee, vals, rest, by rw [restored], by omega, small, layout⟩

namespace Heap

variable {heap : Heap}

variable {inv h : Handle} {change : Array Value → Array Value} {obj : Object}

theorem get?_modifySlots (heap : Heap) (inv : Handle) (change : Array Value → Array Value)
    (h : Handle) : (heap.modifySlots inv change).get? h = if h = inv then (heap.get? h).map fun
        | .invocation proc slots => .invocation proc (change slots)
        | other => other
      else heap.get? h :=
  get?_modify ..

theorem Persists.modifySlots (heap : Heap) (inv : Handle)
    (wider : ∀ slots, slots.size ≤ (change slots).size) :
    heap.Persists (heap.modifySlots inv change) := by
  constructor
  · intro h proc slots held
    rw [get?_modifySlots]
    split
    · exact ⟨change slots, by simp [held], wider slots⟩
    · exact ⟨slots, held, Nat.le_refl _⟩
  · intro h lam parent held
    rw [get?_modifySlots]
    split
    · exact ⟨lam, by simp [held]⟩
    · exact ⟨lam, held⟩

theorem Steady.modifySlots (heap : Heap) (inv : Handle)
    (same : ∀ slots, (change slots).size = slots.size) :
    heap.Steady (heap.modifySlots inv change) := by
  constructor
  · intro h proc slots held
    rw [get?_modifySlots]
    split
    · exact ⟨change slots, by simp [held], same slots⟩
    · exact ⟨slots, held, rfl⟩
  · intro h lam parent held
    rw [get?_modifySlots]
    split
    · simp [held]
    · exact held
  · intro h snapshot held
    rw [get?_modifySlots]
    split
    · simp [held]
    · exact held

theorem get?_of_modifySlots (other : obj.kind ≠ .invocation)
    (held : (heap.modifySlots inv change).get? h = some obj) : heap.get? h = some obj := by
  rw [get?_modifySlots] at held
  split at held
  · obtain ⟨before, present, rfl⟩ := Option.map_eq_some_iff.mp held
    cases before with
    | invocation => exact absurd rfl other
    | pair | vector | closure | continuation => exact present
  · exact held

theorem get?_modifySlots_iff (other : obj.kind ≠ .invocation) : heap.get? h = some obj ↔
      (heap.modifySlots inv change).get? h = some obj := by
  constructor
  · intro held
    rw [get?_modifySlots, held]
    cases obj with
    | invocation => exact absurd rfl other
    | pair | vector | closure | continuation => simp
  · exact get?_of_modifySlots other

theorem get?_modifyLambda (heap : Heap) (closure : Handle) (change : Lambda → Lambda)
    (h : Handle) : (heap.modifyLambda closure change).get? h =
      if h = closure then (heap.get? h).map fun
        | .closure lam parent => .closure (change lam) parent
        | other => other
      else heap.get? h :=
  get?_modify ..

theorem Persists.modifyLambda (heap : Heap) (closure : Handle) (change : Lambda → Lambda) :
    heap.Persists (heap.modifyLambda closure change) := by
  constructor
  · intro h proc slots held
    refine ⟨slots, ?_, Nat.le_refl _⟩
    rw [get?_modifyLambda, held]
    split <;> rfl
  · intro h lam parent held
    rw [get?_modifyLambda, held]
    split
    · exact ⟨change lam, rfl⟩
    · exact ⟨lam, rfl⟩

/-! ### Collections -/

theorem get?_collect_of_reachable (held : heap.get? h = some obj)
    (reached : heap.Reachable roots h) : (heap.collect roots).2.get? h = some obj :=
  (get?_collect ..).mpr ⟨held, reaches_iff_reachable.mpr reached⟩

variable {roots : List Handle}

/-- What encloses a reachable invocation is reachable from it. -/
theorem Encloses.collect {shape : List Nat} (encloses : heap.Encloses shape inv)
    (reached : heap.Reachable roots inv) : (heap.collect roots).2.Encloses shape inv := by
  induction encloses with
  | outermost held bound => exact .outermost (get?_collect_of_reachable held reached) bound
  | inside held bound created _ ih =>
    have procedure_reached := reached.through held .procedure
    have parent_reached := procedure_reached.through created .parent
    exact .inside (get?_collect_of_reachable held reached) bound
      (get?_collect_of_reachable created procedure_reached) (ih parent_reached)

end Heap

end MiniScheme
