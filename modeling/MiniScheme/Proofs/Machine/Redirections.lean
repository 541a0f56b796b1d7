import Mathlib.Logic.Hydra
import MiniScheme.Proofs.Heap.ProperLists
import MiniScheme.Proofs.Machine.Ceiling

/-!
# Calls that lead to calls

Calling `apply` leads to another call, and so may that one. A call can go on like this forever: a
list whose elements are `apply` and the list itself is applied to itself again and again. All
other calls come to an end. `apply` takes a procedure from the front of its arguments and puts the
elements of a list in the place of the last one, so as long as no list is its own element, even
through others, this is a hydra game. And since it does not change the heap, there is only a finite
number of values to choose arguments from: a call without end recurs, or has more and more
arguments.
-/

namespace MiniScheme

open Relation (ReflTransGen TransGen CutExpand)

namespace Heap

variable {heap : Heap} {call next : List Value}

/-- The value is a proper list with that element. -/
def Contains (heap : Heap) (list element : Value) : Prop :=
  ∃ values, heap.elements? list = some values ∧ element ∈ values

/-- A call, given as the procedure and its arguments, is one of `apply` and leads to the other. -/
def Unrolls (heap : Heap) (call next : List Value) : Prop :=
  ∃ procedure front list values, call = .apply :: procedure :: (front ++ [list]) ∧
    heap.elements? list = some values ∧ next = procedure :: (front ++ values)

/-- The call leads to one that leads to itself. -/
def Recurs (heap : Heap) (call : List Value) : Prop :=
  ∃ again, ReflTransGen heap.Unrolls call again ∧ TransGen heap.Unrolls again again

/-- The call leads to calls with any number of arguments. -/
def Grows (heap : Heap) (call : List Value) : Prop :=
  ∀ bound, ∃ longer, ReflTransGen heap.Unrolls call longer ∧ bound < longer.length

def Stops (heap : Heap) (call : List Value) : Prop :=
  Acc (fun next call => heap.Unrolls call next) call

theorem Unrolls.unique {next' : List Value} (unrolls : heap.Unrolls call next)
    (unrolls' : heap.Unrolls call next') : next = next' := by
  obtain ⟨proc, front, list, vals, rfl, found, rfl⟩ := unrolls
  obtain ⟨proc', front', list', vals', same, found', rfl⟩ := unrolls'
  obtain ⟨rfl, others⟩ := List.cons_eq_cons.mp (List.cons_eq_cons.mp same).2
  obtain ⟨rfl, last⟩ := List.append_inj' others rfl
  cases List.singleton_inj.mp last
  rw [Option.some.inj (found.symm.trans found')]

/-! ### Calls without end -/

variable {value v : Value}

theorem Spells.mem_held {vals : List Value} (spells : heap.Spells v vals) :
    ∀ element ∈ vals, element ∈ heap.held := by
  induction spells with
  | nil => simp
  | @cons h car cdr rest present _ ih =>
    exact List.forall_mem_cons.mpr ⟨Heap.mem_held (parts?_of_pair present) car (by simp), ih⟩

theorem Contains.mem_held {list element : Value} (contains : heap.Contains list element) :
    element ∈ heap.held := by
  obtain ⟨vals, found, mem⟩ := contains
  exact (elements?_eq_some_iff.mp found).mem_held element mem

theorem Unrolls.mem_or_mem_held (unrolls : heap.Unrolls call next) :
    ∀ v ∈ next, v ∈ call ∨ v ∈ heap.held := by
  obtain ⟨proc, front, list, vals, rfl, found, rfl⟩ := unrolls
  intro v mem
  rw [← List.cons_append] at mem
  rcases List.mem_append.mp mem with before | spread
  · exact .inl (List.mem_cons_of_mem _ (List.mem_append_left [list] before))
  · exact .inr ((elements?_eq_some_iff.mp found).mem_held v spread)

/-- A call that does not stop recurs, or has more and more arguments. -/
theorem recurs_or_grows (endless : ¬ heap.Stops call) : heap.Recurs call ∨ heap.Grows call := by
  obtain ⟨calls, rfl, step⟩ := not_acc_iff_exists_descending_chain.mp endless
  have reached (n : Nat) : ReflTransGen heap.Unrolls (calls 0) (calls n) := by
    induction n with
    | zero => exact .refl
    | succ n ih => exact ih.tail (step n)
  by_cases bounded : ∃ bound, ∀ n, (calls n).length ≤ bound
  · left
    obtain ⟨bound, short⟩ := bounded
    let vals : Set Value := {v | v ∈ calls 0} ∪ heap.held
    have inside (n : Nat) : ∀ v ∈ calls n, v ∈ vals := by
      induction n with
      | zero => exact fun v mem => .inl mem
      | succ n ih =>
        intro v mem
        rcases (step n).mem_or_mem_held v mem with before | spread
        · exact ih v before
        · exact .inr spread
    have finite : vals.Finite := (List.finite_toSet _).union heap.finite_held
    have := finite.to_subtype
    obtain ⟨n, before, again⟩ := exists_cycle
      ((List.finite_length_le vals bound).image (List.map Subtype.val))
      (fun n => ⟨(calls n).attach.map fun v => ⟨v.1, inside n v.1 v.2⟩,
        by simpa using short n, by simp [Function.comp_def]⟩) step
    exact ⟨calls n, before, again⟩
  · right
    intro bound
    obtain ⟨n, long⟩ := not_forall.mp (not_exists.mp bounded bound)
    exact ⟨calls n, reached n, Nat.not_le.mp long⟩

theorem Stops.spares (stops : heap.Stops call) : ¬ heap.Recurs call ∧ ¬ heap.Grows call := by
  induction stops with
  | intro call _ ih =>
    by_cases direct : ∃ next, heap.Unrolls call next
    · obtain ⟨next, unrolls⟩ := direct
      obtain ⟨fresh, bounded⟩ := ih next unrolls
      have first {later : List Value} (leads : ReflTransGen heap.Unrolls call later) :
          later = call ∨ ReflTransGen heap.Unrolls next later := by
        rcases leads.cases_head with same | ⟨mid, step, rest⟩
        · exact .inl same.symm
        · exact .inr (unrolls.unique step ▸ rest)
      refine ⟨?_, fun grows => bounded fun bound => ?_⟩
      · rintro ⟨again, leads, cycle⟩
        rcases first leads with rfl | leads
        · obtain ⟨mid, step, rest⟩ := TransGen.head'_iff.mp cycle
          cases unrolls.unique step
          exact fresh ⟨next, .refl, .tail' rest unrolls⟩
        · exact fresh ⟨again, leads, cycle⟩
      · obtain ⟨longer, leads, long⟩ := grows (bound + call.length)
        rcases first leads with rfl | leads
        · omega
        · exact ⟨longer, leads, by omega⟩
    · have only {later : List Value} (leads : ReflTransGen heap.Unrolls call later) :
          later = call := by
        rcases leads.cases_head with same | ⟨mid, step, -⟩
        · exact same.symm
        · exact absurd ⟨mid, step⟩ direct
      refine ⟨?_, fun grows => ?_⟩
      · rintro ⟨again, leads, cycle⟩
        obtain ⟨mid, step, -⟩ := TransGen.head'_iff.mp cycle
        exact direct ⟨mid, only leads ▸ step⟩
      · obtain ⟨longer, leads, long⟩ := grows call.length
        exact absurd (only leads ▸ long) (Nat.lt_irrefl _)

/-! ### Lists that do not contain themselves -/

def Founded (heap : Heap) (value : Value) : Prop :=
  Acc (fun element list => heap.Contains list element) value

theorem founded_of_acyclic
    (acyclic : ∀ list, ReflTransGen heap.Contains v list → ¬ TransGen heap.Contains list list) :
    heap.Founded v := by
  by_contra endless
  obtain ⟨list, leads, again⟩ := exists_cycle_of_endless (fun _ _ => Contains.mem_held) endless
  exact acyclic list leads again

/-- To put elements in the place of a list is a move in the hydra game. -/
theorem stops_of_founded {args : List Value} (founded : ∀ v ∈ args, heap.Founded v)
    (callee : Value) : heap.Stops (callee :: args) := by
  let smaller (element list : Value) : Prop := heap.Contains list element ∧ heap.Founded list
  have irreflexive : Std.Irrefl smaller := by
    refine ⟨fun list => ?_⟩
    rintro ⟨contains, founded⟩
    induction founded with
    | intro list _ ih => exact ih list contains contains
  have accessible : Acc (CutExpand smaller) (args : Multiset Value) :=
    Relation.acc_of_singleton fun v mem =>
      (Subrelation.accessible And.left (founded v mem)).cutExpand
  replace accessible := accessible.transGen
  generalize game : (args : Multiset Value) = heads at accessible
  induction accessible generalizing callee args with
  | intro heads _ ih =>
    subst game
    refine Acc.intro _ ?_
    rintro _ ⟨proc, front, list, vals, shape, found, rfl⟩
    obtain ⟨-, rfl⟩ := List.cons_eq_cons.mp shape
    have listed : heap.Founded list := founded list (by simp)
    have spread : CutExpand smaller (proc :: (front ++ vals) : List Value)
        (proc :: (front ++ [list]) : List Value) := by
      refine ⟨vals, list, fun v mem => ⟨⟨vals, found, mem⟩, listed⟩, ?_⟩
      simp only [← Multiset.coe_singleton, Multiset.coe_add, Multiset.coe_eq_coe]
      simpa using List.Perm.append_left front (List.perm_append_singleton list vals)
    have taken : CutExpand smaller (front ++ vals : List Value)
        (proc :: (front ++ vals) : List Value) := by
      refine ⟨0, proc, by simp, ?_⟩
      rw [add_zero, add_comm, Multiset.singleton_add, Multiset.cons_coe]
    refine ih _ (.tail (.single taken) spread) (List.forall_mem_append.mpr ⟨?_, ?_⟩) proc rfl
    · exact fun v before => founded v (by simp [before])
    · exact fun v spread => listed.inv ⟨vals, found, spread⟩

end Heap

namespace Machine

variable {callee : Value} {args : List Value} {tail : Bool} {m : Machine}

def Attempt.Direct (tail : Bool) (attempt : Attempt) : Prop :=
  ∀ next, ¬ Point.Next (.calling tail attempt) (.calling tail next)

/-- With room for enough redirections, the call leads to one that is made or fails by itself. -/
def Ends (callee : Value) (arguments : List Value) (tail : Bool) (machine : Machine) : Prop :=
  ∃ room final, Attempt.Resolves tail ⟨room, callee, arguments, machine⟩ final ∧
    0 < final.room ∧ final.Direct tail

theorem Ends.direct (direct : Attempt.Direct tail ⟨1, callee, args, m⟩) : Ends callee args tail m :=
  ⟨1, _, .refl, Nat.one_pos, direct⟩

theorem Ends.step {callee' : Value} {args' : List Value} {m' : Machine}
    (leads : ∀ room, Point.Next (.calling tail ⟨room + 1, callee, args, m⟩)
      (.calling tail ⟨room, callee', args', m'⟩))
    (ends : Ends callee' args' tail m') : Ends callee args tail m := by
  obtain ⟨room, final, resolves, room_left, direct⟩ := ends
  exact ⟨room + 1, final, .head (leads room) resolves, room_left, direct⟩

theorem direct_of_not_unrolls (calm : ¬ ∃ next, m.heap.Unrolls (callee :: args) next)
    (other : callee = .capture → args.length ≠ 1) (room : Nat) :
    Attempt.Direct tail ⟨room, callee, args, m⟩ := by
  rintro next leads
  cases leads with
  | apply spread => exact calm ⟨_, _, _, _, _, rfl, spread, rfl⟩
  | capture => exact other rfl rfl

/-- The receiver of a continuation is called at once, unless it captures another one. -/
theorem ends_capture (receiver : Value) (tail : Bool) (m : Machine) :
    Ends .capture [receiver] tail m := by
  have lone (callee argument : Value) (m : Machine) :
      ¬ ∃ next, m.heap.Unrolls [callee, argument] next := by
    rintro ⟨_, proc, front, list, vals, same, -⟩
    simp at same
  refine .step (fun _ => .capture) ?_
  by_cases again : receiver = .capture
  · subst again
    refine .step (fun _ => .capture) (.direct (direct_of_not_unrolls (lone _ _ _) ?_ 1))
    rintro ⟨⟩
  · exact .direct (direct_of_not_unrolls (lone _ _ _) (fun same => absurd same again) 1)

theorem ends_of_stops (stops : m.heap.Stops (callee :: args)) : Ends callee args tail m := by
  generalize whole : callee :: args = call at stops
  induction stops generalizing callee args with
  | intro call _ ih =>
    subst whole
    by_cases unrolls : ∃ next, m.heap.Unrolls (callee :: args) next
    · obtain ⟨_, proc, front, list, vals, same, found, rfl⟩ := unrolls
      have ends := ih _ ⟨proc, front, list, vals, same, found, rfl⟩ rfl
      obtain ⟨rfl, rfl⟩ := List.cons_eq_cons.mp same
      exact ends.step fun _ => .apply found
    · by_cases captures : callee = .capture ∧ args.length = 1
      · obtain ⟨rfl, one⟩ := captures
        obtain ⟨receiver, rfl⟩ := List.length_eq_one_iff.mp one
        exact ends_capture receiver tail m
      · exact .direct (direct_of_not_unrolls unrolls (fun same one => captures ⟨same, one⟩) 1)

theorem Ends.stops (ends : Ends callee args tail m) : m.heap.Stops (callee :: args) := by
  obtain ⟨room, final, resolves, room_left, direct⟩ := ends
  generalize start : (⟨room, callee, args, m⟩ : Attempt) = attempt at resolves
  induction resolves using Relation.ReflTransGen.head_induction_on
    generalizing room callee args m with
  | refl =>
    subst start
    refine Acc.intro _ ?_
    rintro _ ⟨proc, front, list, vals, same, found, rfl⟩
    obtain ⟨rfl, rfl⟩ := List.cons_eq_cons.mp same
    obtain ⟨room, rfl⟩ := Nat.exists_eq_add_of_lt room_left
    rw [Nat.zero_add] at direct
    exact absurd (.apply found) (direct ⟨room, _, _, _⟩)
  | head leads _ ih =>
    subst start
    cases leads with
    | @apply _ _ proc list front vals _ found =>
      refine Acc.intro _ fun next unrolls => ?_
      have first : m.heap.Unrolls (.apply :: proc :: (front ++ [list]))
          (proc :: (front ++ vals)) := ⟨_, _, _, _, rfl, found, rfl⟩
      rw [← first.unique unrolls]
      exact ih _ rfl
    | capture =>
      refine Acc.intro _ ?_
      rintro _ ⟨proc, front, list, vals, same, -⟩
      cases same

/-- A call that does not end is not made with any number of redirections. -/
theorem dispatch_endless (endless : ¬ Ends callee args tail m) (room : Nat) :
    dispatch room callee args tail m = .error .endlessApply m := by
  induction room generalizing callee args with
  | zero => rfl
  | succ room ih =>
    have unrolls : ∃ next, m.heap.Unrolls (callee :: args) next := by
      by_contra calm
      refine endless (ends_of_stops (Acc.intro _ fun next unrolls => ?_))
      exact absurd ⟨next, unrolls⟩ calm
    obtain ⟨_, proc, front, list, vals, same, found, rfl⟩ := unrolls
    obtain ⟨rfl, rfl⟩ := List.cons_eq_cons.mp same
    have out := ih fun ends => endless (ends.step fun _ => .apply found)
    exact (Attempt.redirect (Point.Next.apply found)).1.trans out

/-- A call that leads to no other one has not run out of redirections. -/
theorem dispatch_ne_of_direct {room : Nat} {after : Machine}
    (direct : Attempt.Direct tail ⟨room + 1, callee, args, m⟩)
    (scripted : ∀ id, callee ≠ .native id) :
    dispatch (room + 1) callee args tail m ≠ .error .endlessApply after := by
  intro out
  cases callee with
  | native id => exact scripted id rfl
  | closure closure =>
    change callClosure closure args tail m = _ at out
    cases found : m.heap.closure? closure with
    | none => cases (callClosure_dangling found args tail).symm.trans out
    | some parts =>
      rw [callClosure_eq found] at out
      split at out
      · dsimp only at out
        split at out <;> cases out
      · cases out
  | continuation handle =>
    rcases args with - | ⟨v, - | ⟨_, _⟩⟩
    · cases out
    · change callContinuation handle v m = _ at out
      rw [callContinuation, MachineM.bind_apply, MachineM.find] at out
      cases found : m.heap.continuation? handle <;> rw [found] at out <;> cases out
    · cases out
  | capture =>
    rcases args with - | ⟨receiver, - | ⟨_, _⟩⟩
    · cases out
    · exact direct _ .capture
    · cases out
  | apply =>
    rcases args with - | ⟨proc, others⟩
    · cases out
    · rcases others.eq_nil_or_concat' with rfl | ⟨front, list, rfl⟩
      · cases out
      · rw [dispatch_apply] at out
        cases found : m.heap.elements? list with
        | none =>
          rw [found] at out
          cases out
        | some vals => exact direct _ (.apply found)
  | _ => cases out

/-- A call comes to an end, after any number of redirections, if and only if it neither leads to
itself nor to calls with ever more arguments. It does so if no list among its arguments, or in
lists among them, contains itself. Then some number of redirections is enough, unless a native
procedure itself fails like this; otherwise none is. -/
theorem redirections_end_iff (callee : Value) (arguments : List Value) (tail : Bool)
    (machine : Machine) :
    (Ends callee arguments tail machine ↔
      ¬ machine.heap.Recurs (callee :: arguments) ∧ ¬ machine.heap.Grows (callee :: arguments)) ∧
    ((∀ value ∈ arguments, ∀ list, ReflTransGen machine.heap.Contains value list →
        ¬ TransGen machine.heap.Contains list list) → Ends callee arguments tail machine) ∧
    (Ends callee arguments tail machine → ∃ room final,
      Attempt.Resolves tail ⟨room, callee, arguments, machine⟩ final ∧
        ((∀ id, final.callee ≠ .native id) → ∀ after,
          dispatch room callee arguments tail machine ≠ .error .endlessApply after)) ∧
    (¬ Ends callee arguments tail machine → ∀ room,
      dispatch room callee arguments tail machine = .error .endlessApply machine) := by
  refine ⟨⟨fun ends => ends.stops.spares, ?_⟩, fun acyclic => ?_, ?_, dispatch_endless⟩
  · rintro ⟨fresh, bounded⟩
    refine ends_of_stops (Classical.byContradiction fun endless => ?_)
    exact (Heap.recurs_or_grows endless).elim fresh bounded
  · exact ends_of_stops (Heap.stops_of_founded
      (fun value member => Heap.founded_of_acyclic (acyclic value member)) callee)
  · rintro ⟨room, ⟨_ | left, made, values, between⟩, resolves, room_left, direct⟩
    · cases room_left
    · refine ⟨room, _, resolves, fun scripted after out => ?_⟩
      exact dispatch_ne_of_direct direct scripted (resolves.outcome.1.symm.trans out)

/-- A heap with a list of `apply` and the list itself. -/
def circular : Machine :=
  ((initial 16).onHeap fun heap =>
    ((), (heap.list [.apply, .unspecified]).2.setCar { index := 3, generation := 0 }
      (.pair { index := 4, generation := 0 }))).2

/-- Applying `apply` to that list leads to the same call at once. -/
theorem redirections_end_iff_circular :
    ¬ Ends .apply [.apply, .pair { index := 4, generation := 0 }] false circular := by
  intro ends
  refine ((redirections_end_iff _ _ _ _).1.mp ends).1 ⟨_, .refl, .single ?_⟩
  exact ⟨.apply, [], .pair { index := 4, generation := 0 },
    [.apply, .pair { index := 4, generation := 0 }], rfl, rfl, rfl⟩

end Machine

end MiniScheme
