import MiniScheme.Proofs.Heap.Reference
import Mathlib.Data.List.Permutation
import Mathlib.Data.Finset.Card

/-!
# What a collection keeps

Marking goes through a list of pending handles. Its invariant is that what a marked object holds is
marked or pending, so that at the end the marked objects are closed under references and include
the roots. Conversely nothing is marked that cannot be reached. Sweeping then keeps exactly the
marked slots. Counting the slots of each sort gives the statistics.
-/

namespace MiniScheme.Heap

variable {heap : Heap} {roots : List Handle} {handle h : Handle} {object obj : Object}

/-- Heaps that come about by allocating objects, changing them in place, handing out stamps, and
collecting with any roots. -/
inductive Built : Heap → Prop where
  | new : Built {}
  | alloc {heap : Heap} (built : Built heap) (object : Object) : Built (heap.alloc object).2
  | modify {heap : Heap} (built : Built heap) (handle : Handle) (change : Object → Object) :
      Built (heap.modify handle change)
  | stamp {heap : Heap} (built : Built heap) (stamp : Stamp) :
      Built { heap with nextStamp := stamp }
  | collect {heap : Heap} (built : Built heap) (roots : List Handle) :
      Built (heap.collect roots).2

/-! ### Marking -/

def IsMarked (marked : Array Bool) (handle : Handle) : Prop :=
  marked[handle.index]? = some true

variable {marked : Array Bool} {i : Nat} {pending : List Handle}

theorem isMarked_set_iff (bound : i < marked.size) :
    IsMarked (marked.setIfInBounds i true) h ↔ h.index = i ∨ IsMarked marked h := by
  by_cases here : i = h.index
  · subst here
    simp [IsMarked, bound]
  · simp [IsMarked, here, Ne.symm here]

@[simp] theorem size_mark (heap : Heap) (marked : Array Bool) (pending : List Handle) :
    (heap.mark marked pending).size = marked.size := by
  fun_induction heap.mark marked pending with
  | case1 => rfl
  | case2 _ _ _ _ ih => exact ih
  | case3 _ _ _ _ _ _ ih => simpa using ih
  | case4 _ _ _ _ _ _ ih => exact ih

theorem IsMarked.mark (before : IsMarked marked h) : IsMarked (heap.mark marked pending) h := by
  fun_induction heap.mark marked pending with
  | case1 => exact before
  | case2 _ _ _ _ ih => exact ih before
  | case3 marked next _ _ _ unmarked ih =>
    have bound := lt_size unmarked
    exact ih ((isMarked_set_iff bound).mpr (Or.inr before))
  | case4 _ _ _ _ _ _ ih => exact ih before

def Covered (heap : Heap) (marked : Array Bool) (pending : List Handle) : Prop :=
  ∀ holder object handle, heap.get? holder = some object → IsMarked marked holder →
    handle ∈ object.handles → heap.isLive handle → IsMarked marked handle ∨ handle ∈ pending

theorem Covered.skip {next : Handle} (covered : heap.Covered marked (next :: pending))
    (settled : heap.isLive next → IsMarked marked next) : heap.Covered marked pending := by
  intro holder obj h held isMarked mem live
  rcases covered holder obj h held isMarked mem live with done | waiting
  · exact Or.inl done
  · rcases List.mem_cons.mp waiting with rfl | later
    · exact Or.inl (settled live)
    · exact Or.inr later

/-- Marking keeps what marked objects hold covered until nothing is pending, and reaches every
pending object. -/
theorem mark_closed (size_eq : marked.size = heap.slots.size)
    (covered : heap.Covered marked pending) :
    heap.Covered (heap.mark marked pending) [] ∧
      ∀ h ∈ pending, heap.isLive h → IsMarked (heap.mark marked pending) h := by
  fun_induction heap.mark marked pending with
  | case1 => exact ⟨covered, by simp⟩
  | case2 marked next pending dangling ih =>
    have settled : heap.isLive next → IsMarked marked next := by simp [isLive, dangling]
    obtain ⟨closed, reached⟩ := ih size_eq (covered.skip settled)
    exact ⟨closed, List.forall_mem_cons.mpr ⟨fun live => (settled live).mark, reached⟩⟩
  | case3 marked next pending obj held unmarked ih =>
    have bound := lt_size unmarked
    have rest : heap.Covered (marked.setIfInBounds next.index true) (obj.handles ++ pending) := by
      intro holder found h held' isMarked mem live
      rw [isMarked_set_iff bound] at isMarked ⊢
      by_cases here : holder.index = next.index
      · -- The holder is the object that is being marked, and its handles become pending.
        have same := eq_of_index_eq held' held here
        subst same
        rw [held] at held'
        cases held'
        exact Or.inr (List.mem_append.mpr (Or.inl mem))
      · have before := isMarked.resolve_left here
        rcases covered holder found h held' before mem live with done | waiting
        · exact Or.inl (Or.inr done)
        · rcases List.mem_cons.mp waiting with rfl | later
          · exact Or.inl (Or.inl rfl)
          · exact Or.inr (List.mem_append.mpr (Or.inr later))
    obtain ⟨closed, reached⟩ := ih (by simpa using size_eq) rest
    refine ⟨closed, List.forall_mem_cons.mpr ⟨fun _ => ?_, (List.forall_mem_append.mp reached).2⟩⟩
    exact IsMarked.mark ((isMarked_set_iff bound).mpr (Or.inl rfl))
  | case4 marked next pending obj held marked_ne ih =>
    have next_marked : IsMarked marked next := by
      obtain ⟨slot, found, -⟩ := get?_eq_some_iff.mp held
      have bound : next.index < marked.size := size_eq ▸ lt_size found
      have e : marked[next.index]? = some marked[next.index] := by simp [bound]
      cases v : marked[next.index] with
      | true => rw [IsMarked, e, v]
      | false => exact absurd (e.trans (by rw [v])) marked_ne
    obtain ⟨closed, reached⟩ := ih size_eq (covered.skip fun _ => next_marked)
    exact ⟨closed, List.forall_mem_cons.mpr ⟨fun _ => next_marked.mark, reached⟩⟩

/-- Every slot that marking adds holds an object that can be reached. -/
theorem mark_sound (reachable : ∀ h ∈ pending, heap.Reaches roots h)
    (sound : ∀ i, marked[i]? = some true →
      ∃ h, h.index = i ∧ heap.isLive h ∧ heap.Reaches roots h) :
    ∀ i, (heap.mark marked pending)[i]? = some true →
      ∃ h, h.index = i ∧ heap.isLive h ∧ heap.Reaches roots h := by
  fun_induction heap.mark marked pending with
  | case1 => exact sound
  | case2 marked next pending _ ih | case4 marked next pending _ _ _ ih =>
    exact ih (List.forall_mem_cons.mp reachable).2 sound
  | case3 marked next pending obj held unmarked ih =>
    obtain ⟨next_reached, others⟩ := List.forall_mem_cons.mp reachable
    apply ih
    · exact List.forall_mem_append.mpr ⟨fun _ => .through next_reached held, others⟩
    · intro i isMarked
      by_cases here : next.index = i
      · exact ⟨next, here, by simp [isLive, held], next_reached⟩
      · exact sound i (by simpa [here] using isMarked)

def marksFrom (heap : Heap) (roots : List Handle) : Array Bool :=
  heap.mark (Array.replicate heap.slots.size false) roots

@[simp] theorem size_marksFrom : (heap.marksFrom roots).size = heap.slots.size := by
  simp [marksFrom]

theorem not_marked_initially (i : Nat) :
    (Array.replicate heap.slots.size false)[i]? ≠ some true := by
  simp [Array.getElem?_replicate]

theorem reaches_of_marked (isMarked : (heap.marksFrom roots)[i]? = some true) :
    ∃ h, h.index = i ∧ heap.isLive h ∧ heap.Reaches roots h :=
  mark_sound (fun _ mem => .root mem)
    (fun i initially => absurd initially (not_marked_initially i)) i isMarked

/-- The marked live objects are those that can be reached. -/
theorem isMarked_iff_reaches (live : heap.isLive h) :
    IsMarked (heap.marksFrom roots) h ↔ heap.Reaches roots h := by
  constructor
  · intro isMarked
    obtain ⟨other, same, other_live, reached⟩ := reaches_of_marked isMarked
    obtain ⟨obj, held⟩ := isLive_iff.mp live
    obtain ⟨_, held'⟩ := isLive_iff.mp other_live
    exact eq_of_index_eq held' held same ▸ reached
  · intro reached
    have initially : heap.Covered (Array.replicate heap.slots.size false) roots :=
      fun holder _ _ _ isMarked => absurd isMarked (not_marked_initially holder.index)
    obtain ⟨closed, from_roots⟩ := mark_closed (by simp) initially
    induction reached with
    | root mem => exact from_roots _ mem live
    | through _ held mem ih =>
      have holder_live := isLive_iff.mpr ⟨_, held⟩
      exact (closed _ _ _ held (ih holder_live) mem live).resolve_right (by simp)

/-! ### Sweeping -/

theorem getElem?_sweep (heap : Heap) (marked : Array Bool) (i : Nat) :
    (heap.sweep marked).slots[i]? = heap.slots[i]?.map fun slot =>
      if slot.object.isSome && marked[i]? != some true then slot.release else slot := by
  simp [sweep]

/-- Sweeping keeps what is marked as it was and nothing else. -/
theorem get?_sweep (heap : Heap) (marked : Array Bool) (h : Handle) :
    (heap.sweep marked).get? h = if marked[h.index]? = some true then heap.get? h else none := by
  unfold get?
  rw [getElem?_sweep]
  cases heap.slots[h.index]? with
  | none => simp
  | some slot =>
    by_cases isMarked : marked[h.index]? = some true
    · simp [isMarked]
    · cases occupied : slot.object <;> simp [isMarked, occupied, Slot.release]

theorem mem_unmarked :
    i ∈ heap.unmarked marked ↔ (∃ slot, heap.slots[i]? = some slot ∧ slot.object.isSome) ∧
        marked[i]? ≠ some true := by
  simp only [unmarked, List.mem_filter, List.mem_range, Bool.and_eq_true, bne_iff_ne]
  cases found : heap.slots[i]? with
  | none => simp
  | some slot =>
    have bound := lt_size found
    simp [bound]

theorem Consistent.sweep (sane : heap.Consistent) (marked : Array Bool) :
    (heap.sweep marked).Consistent := by
  have free_eq : (heap.sweep marked).free = (heap.unmarked marked).reverse ++ heap.free := rfl
  constructor
  · rw [free_eq]
    refine List.Nodup.append ?_ sane.free_nodup ?_
    · exact List.nodup_reverse.mpr (List.nodup_range.filter _)
    · intro i freed empty
      obtain ⟨⟨slot, found, occupied⟩, -⟩ := mem_unmarked.mp (List.mem_reverse.mp freed)
      obtain ⟨slot', found', vacant⟩ := (sane.mem_free_iff i).mp empty
      rw [found] at found'
      cases found'
      simp [vacant] at occupied
  · intro i
    rw [free_eq, List.mem_append, List.mem_reverse, mem_unmarked, sane.mem_free_iff, getElem?_sweep]
    cases found : heap.slots[i]? with
    | none => simp
    | some slot =>
      by_cases isMarked : marked[i]? = some true
      · simp [isMarked]
      · cases occupied : slot.object <;> simp [isMarked, occupied, Slot.release]

theorem collect_snd (heap : Heap) (roots : List Handle) :
    (heap.collect roots).2 = heap.sweep (heap.marksFrom roots) := rfl

theorem Consistent.collect (sane : heap.Consistent) (roots : List Handle) :
    (heap.collect roots).2.Consistent :=
  sane.sweep _

/-- A collection keeps what can be reached as it was and nothing else. -/
theorem get?_collect (heap : Heap) (roots : List Handle) (h : Handle) (obj : Object) :
    (heap.collect roots).2.get? h = some obj ↔ heap.get? h = some obj ∧ heap.Reaches roots h := by
  rw [collect_snd, get?_sweep]
  by_cases live : heap.isLive h
  · have marked_iff : IsMarked (heap.marksFrom roots) h ↔ heap.Reaches roots h :=
      isMarked_iff_reaches live
    by_cases isMarked : (heap.marksFrom roots)[h.index]? = some true
    · rw [if_pos isMarked]
      exact (and_iff_left (marked_iff.mp isMarked)).symm
    · rw [if_neg isMarked]
      simp [mt marked_iff.mpr isMarked]
  · have dead : heap.get? h = none := by simpa [isLive] using live
    simp [dead]

/-! ### Counting -/

def occupied (heap : Heap) : List Nat :=
  (List.range heap.slots.size).filter fun index => (heap.slots[index]?.bind Slot.object).isSome

def markedIndices (marked : Array Bool) : List Nat :=
  (List.range marked.size).filter fun index => marked[index]? == some true

theorem mem_markedIndices : i ∈ markedIndices marked ↔ marked[i]? = some true := by
  simp only [markedIndices, List.mem_filter, List.mem_range, beq_iff_eq, and_iff_right_iff_imp]
  intro isMarked
  exact lt_size isMarked

theorem mem_occupied :
    i ∈ heap.occupied ↔ ∃ slot, heap.slots[i]? = some slot ∧ slot.object.isSome := by
  simp only [occupied, List.mem_filter, List.mem_range]
  cases found : heap.slots[i]? with
  | none => simp
  | some slot =>
    have bound := lt_size found
    simp [bound]

theorem count_true_eq_length (marked : Array Bool) :
    marked.count true = (markedIndices marked).length := by
  obtain ⟨entries⟩ := marked
  have enumerated : (List.range entries.length).map (fun i => entries[i]?) = entries.map some := by
    apply List.ext_getElem <;> simp
  rw [markedIndices, ← List.countP_eq_length_filter, Array.count_toList.symm]
  calc List.count true entries = (entries.map some).countP (· == some true) := by
        rw [List.countP_map, List.count]
        rfl
    _ = ((List.range entries.length).map fun i => entries[i]?).countP (· == some true) := by
        rw [enumerated]
    _ = _ := by
        rw [List.countP_map]
        simp [Function.comp_def]

theorem Consistent.liveCount_eq (sane : heap.Consistent) :
    heap.liveCount = heap.occupied.length := by
  have vacant : heap.free.Perm ((List.range heap.slots.size).filter
      fun i => !(heap.slots[i]?.bind Slot.object).isSome) := by
    rw [List.perm_ext_iff_of_nodup sane.free_nodup (List.nodup_range.filter _)]
    intro i
    rw [sane.mem_free_iff, List.mem_filter, List.mem_range]
    cases found : heap.slots[i]? with
    | none => simp [Array.getElem?_eq_none_iff.mp found]
    | some slot =>
      have bound := lt_size found
      simp [bound]
  have total := List.length_eq_length_filter_add (l := List.range heap.slots.size)
    fun i => (heap.slots[i]?.bind Slot.object).isSome
  rw [List.length_range, ← vacant.length_eq] at total
  rw [liveCount, occupied]
  omega

def handleAt (heap : Heap) (index : Nat) : Handle :=
  { index, generation := (heap.slots[index]?.getD {}).generation }

theorem handleAt_eq (live : heap.isLive h) : heap.handleAt h.index = h := by
  obtain ⟨obj, held⟩ := isLive_iff.mp live
  obtain ⟨slot, found, same, -⟩ := get?_eq_some_iff.mp held
  simp [handleAt, found, same]

theorem marksFrom_occupied (isMarked : (heap.marksFrom roots)[i]? = some true) :
    i ∈ heap.occupied := by
  obtain ⟨h, rfl, live, -⟩ := reaches_of_marked isMarked
  obtain ⟨obj, held⟩ := isLive_iff.mp live
  obtain ⟨slot, found, -, occupied⟩ := get?_eq_some_iff.mp held
  exact mem_occupied.mpr ⟨slot, found, by simp [occupied]⟩

theorem marked_add_freed (heap : Heap) (roots : List Handle) :
    (markedIndices (heap.marksFrom roots)).length +
      (heap.unmarked (heap.marksFrom roots)).length = heap.occupied.length := by
  have kept : markedIndices (heap.marksFrom roots) =
      heap.occupied.filter fun i => (heap.marksFrom roots)[i]? == some true := by
    rw [markedIndices, occupied, List.filter_filter, size_marksFrom]
    apply List.filter_congr
    intro i _
    by_cases isMarked : (heap.marksFrom roots)[i]? = some true
    · have inside := marksFrom_occupied isMarked
      rw [occupied, List.mem_filter] at inside
      simp [isMarked, inside.2]
    · simp [isMarked]
  have freed : heap.unmarked (heap.marksFrom roots) =
      heap.occupied.filter fun i => !((heap.marksFrom roots)[i]? == some true) := by
    rw [unmarked, occupied, List.filter_filter]
    apply List.filter_congr
    intro i _
    rw [Bool.and_comm]
    rfl
  rw [kept, freed]
  exact (List.length_eq_length_filter_add _).symm

theorem occupied_sweep (heap : Heap) (roots : List Handle) :
    (heap.sweep (heap.marksFrom roots)).occupied = markedIndices (heap.marksFrom roots) := by
  rw [occupied, markedIndices, size_marksFrom]
  have size_eq : (heap.sweep (heap.marksFrom roots)).slots.size = heap.slots.size := by
    simp [sweep]
  rw [size_eq]
  apply List.filter_congr
  intro i _
  rw [getElem?_sweep]
  by_cases isMarked : (heap.marksFrom roots)[i]? = some true
  · obtain ⟨slot, found, holds⟩ := mem_occupied.mp (marksFrom_occupied isMarked)
    simp [isMarked, found, holds]
  · cases heap.slots[i]? with
    | none => simp [isMarked]
    | some slot => cases occupied : slot.object <;> simp [isMarked, occupied, Slot.release]

def kept (heap : Heap) (roots : List Handle) : Finset Handle :=
  ((markedIndices (heap.marksFrom roots)).map heap.handleAt).toFinset

theorem mem_kept_iff : h ∈ heap.kept roots ↔ heap.isLive h ∧ heap.Reaches roots h := by
  simp only [kept, List.mem_toFinset, List.mem_map, mem_markedIndices]
  constructor
  · rintro ⟨i, isMarked, rfl⟩
    obtain ⟨h, rfl, live, reached⟩ := reaches_of_marked isMarked
    rw [handleAt_eq live]
    exact ⟨live, reached⟩
  · rintro ⟨live, reached⟩
    exact ⟨h.index, (isMarked_iff_reaches live).mpr reached, handleAt_eq live⟩

theorem card_kept : (heap.kept roots).card = (markedIndices (heap.marksFrom roots)).length := by
  have nodup : ((markedIndices (heap.marksFrom roots)).map heap.handleAt).Nodup :=
    (List.nodup_range.filter _).map fun _ _ eq => congrArg Handle.index eq
  rw [kept, List.toFinset_card_of_nodup nodup, List.length_map]

theorem Built.consistent (built : Built heap) : heap.Consistent := by
  induction built with
  | new => exact consistent_empty
  | alloc _ obj ih => exact ih.alloc obj
  | modify _ h change ih => exact ih.modify h change
  | stamp _ stamp ih => exact ih.stamp stamp
  | collect _ roots ih => exact ih.collect roots

/-- A collection frees exactly what cannot be reached. The survivors keep their handles and their
contents, and the statistics count them. -/
theorem collect_exact {heap : Heap} (built : Built heap) (roots : List Handle) :
    (∀ handle, (heap.collect roots).2.isLive handle ↔
        heap.isLive handle ∧ heap.Reachable roots handle) ∧
      (∀ handle, (heap.collect roots).2.isLive handle →
        (heap.collect roots).2.get? handle = heap.get? handle) ∧
      ∃ reachable : Finset Handle,
        (∀ handle, handle ∈ reachable ↔ heap.isLive handle ∧ heap.Reachable roots handle) ∧
        (heap.collect roots).1.marked = reachable.card ∧
        (heap.collect roots).1.live = reachable.card ∧
        (heap.collect roots).2.liveCount = reachable.card ∧
        (heap.collect roots).1.marked + (heap.collect roots).1.freed = heap.liveCount := by
  have consistent := built.consistent
  have survivors : (heap.collect roots).2.liveCount = (heap.kept roots).card := by
    rw [(consistent.collect roots).liveCount_eq, collect_snd, occupied_sweep, card_kept]
  have marked_eq : (heap.collect roots).1.marked = (heap.kept roots).card := by
    rw [card_kept, ← count_true_eq_length]
    rfl
  refine ⟨fun handle => ?_, fun handle live => ?_, heap.kept roots, fun handle => ?_, marked_eq,
    survivors, survivors, ?_⟩
  · simp only [isLive_iff, get?_collect, ← reaches_iff_reachable, exists_and_right]
  · obtain ⟨object, held⟩ := isLive_iff.mp live
    rw [held, ((get?_collect heap roots handle object).mp held).1]
  · rw [mem_kept_iff, reaches_iff_reachable]
  · rw [marked_eq, card_kept, consistent.liveCount_eq, ← marked_add_freed heap roots]
    rfl

/-- A pair that holds itself, and a vector that nothing holds. -/
def cycleAndGarbage : Heap :=
  let (cycle, heap) := Heap.alloc {} (.pair (.integer 1) .emptyList)
  ((heap.setCdr cycle (.pair cycle)).alloc (.vector #[.pair cycle])).2

theorem collect_exact_cycleAndGarbage :
    Built cycleAndGarbage ∧
      (cycleAndGarbage.collect [⟨0, 0⟩]).1 = { marked := 1, freed := 1, live := 1 } ∧
      (∀ handle, (cycleAndGarbage.collect [⟨0, 0⟩]).2.isLive handle ↔
        cycleAndGarbage.isLive handle ∧ cycleAndGarbage.Reachable [⟨0, 0⟩] handle) := by
  have built : Built cycleAndGarbage := ((Built.new.alloc _).modify _ _).alloc _
  exact ⟨built, by cbv, (collect_exact built _).1⟩

end MiniScheme.Heap
