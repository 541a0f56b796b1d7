import MiniScheme.Proofs.Heap.Collection

/-!
# Handles are never confused

A heap is followed from the start, through any allocations, changes and collections. The generation
of a slot never goes back and goes up by at most one in a collection, so it does not come round as
long as there are fewer collections than generations. A handle that was handed out is then either
live or spent: its slot has a later generation, whatever is in it. What is allocated gets a handle
that is neither.
-/

namespace MiniScheme.Heap

/-! ### Histories -/

/-- What can be done to a heap. -/
inductive Action where
  | alloc (object : Object)
  | modify (handle : Handle) (change : Object → Object)
  | stamp (stamp : Stamp)
  | collect (roots : List Handle)

namespace Action

def perform (heap : Heap) : Action → Heap
  | alloc object => (heap.alloc object).2
  | modify handle change => heap.modify handle change
  | stamp next => { heap with nextStamp := next }
  | collect roots => (heap.collect roots).2

def issued? (heap : Heap) : Action → Option Handle
  | alloc object => some (heap.alloc object).1
  | _ => none

def collections : Action → Nat
  | collect _ => 1
  | _ => 0

/-- The object behind a handle after an action that does not free it. -/
def update (handle : Handle) (object : Object) : Action → Object
  | modify target change => if target = handle then change object else object
  | _ => object

end Action

/-- What was done to a heap that was empty at first, the latest action first. -/
abbrev History := List Action

namespace History

def heap : History → Heap
  | [] => {}
  | action :: earlier => action.perform (heap earlier)

/-- All handles that were handed out, the latest first. -/
def issued : History → List Handle
  | [] => []
  | action :: earlier => (action.issued? (heap earlier)).toList ++ issued earlier

def collections : History → Nat
  | [] => 0
  | action :: earlier => action.collections + collections earlier

/-- What the updates through a handle make of an object. -/
def updated (handle : Handle) (object : Object) : History → Object
  | [] => object
  | action :: earlier => action.update handle (updated handle object earlier)

end History

variable {heap heap' : Heap} {handle h : Handle}

/-! ### Generations -/

/-- The number of generations before they come round. -/
def generationLimit : Nat := 0x100000000

/-- `heap.Young limit`: no slot has a generation beyond the limit. -/
def Young (heap : Heap) (limit : Nat) : Prop :=
  ∀ slot ∈ heap.slots, slot.generation.toNat ≤ limit

def Spent (heap : Heap) (handle : Handle) : Prop :=
  ∃ slot, heap.slots[handle.index]? = some slot ∧
    handle.generation.toNat < slot.generation.toNat

/-- `heap.Ages heap'`: generations do not go back, and a slot is only emptied for the next one. -/
def Ages (heap heap' : Heap) : Prop :=
  ∀ (index : Nat) (slot : Slot), heap.slots[index]? = some slot →
    ∃ slot' : Slot, heap'.slots[index]? = some slot' ∧
      (slot'.generation = slot.generation ∧ (slot.object.isSome → slot'.object.isSome) ∨
        slot.generation.toNat < slot'.generation.toNat)

theorem isLive_iff_slot : heap.isLive h ↔ ∃ slot, heap.slots[h.index]? = some slot ∧
    slot.generation = h.generation ∧ slot.object.isSome := by
  simp only [isLive_iff, get?_eq_some_iff, Option.isSome_iff_exists]
  constructor
  · rintro ⟨obj, slot, found, same, held⟩
    exact ⟨slot, found, same, obj, held⟩
  · rintro ⟨slot, found, same, obj, held⟩
    exact ⟨obj, slot, found, same, held⟩

theorem Spent.not_live (spent : heap.Spent h) : ¬ heap.isLive h := by
  intro live
  obtain ⟨slot, found, later⟩ := spent
  obtain ⟨slot', found', same, -⟩ := isLive_iff_slot.mp live
  cases Option.some.inj (found.symm.trans found')
  rw [same] at later
  exact Nat.lt_irrefl _ later

theorem Spent.ages (spent : heap.Spent h) (ages : heap.Ages heap') : heap'.Spent h := by
  obtain ⟨slot, found, later⟩ := spent
  obtain ⟨slot', found', same | further⟩ := ages _ slot found
  · exact ⟨slot', found', by rw [same.1]; exact later⟩
  · exact ⟨slot', found', Nat.lt_trans later further⟩

theorem Ages.live_or_spent (ages : heap.Ages heap') (live : heap.isLive h) :
    heap'.isLive h ∨ heap'.Spent h := by
  obtain ⟨slot, found, same, holds⟩ := isLive_iff_slot.mp live
  obtain ⟨slot', found', ⟨eq, keeps⟩ | further⟩ := ages _ slot found
  · exact .inl (isLive_iff_slot.mpr ⟨slot', found', eq.trans same, keeps holds⟩)
  · exact .inr ⟨slot', found', same ▸ further⟩

theorem ages_alloc (sane : heap.Consistent) (obj : Object) : heap.Ages (heap.alloc obj).2 := by
  intro place slot found
  have bound := lt_size found
  rcases alloc_eq sane obj with ⟨i, free, empty, -, vacant, -, eq⟩ | ⟨-, eq⟩
  · rw [eq]
    by_cases here : i = place
    · subst here
      cases Option.some.inj (vacant.symm.trans found)
      exact ⟨{ slot with object := some obj }, by simp [bound], .inl ⟨rfl, fun _ => rfl⟩⟩
    · exact ⟨slot, by simpa [here] using found, .inl ⟨rfl, id⟩⟩
  · rw [eq]
    refine ⟨slot, ?_, .inl ⟨rfl, id⟩⟩
    rw [Array.getElem?_push_lt bound, ← found, Array.getElem?_eq_getElem bound]

variable {limit : Nat} {object obj : Object}

theorem Young.alloc (young : heap.Young limit) (sane : heap.Consistent) (obj : Object) :
    (heap.alloc obj).2.Young limit := by
  rcases alloc_eq sane obj with ⟨i, free, empty, -, vacant, -, eq⟩ | ⟨-, eq⟩
  · rw [eq]
    intro slot mem
    rcases Array.mem_or_eq_of_mem_setIfInBounds mem with before | rfl
    · exact young slot before
    · exact young empty (Array.mem_of_getElem? vacant)
  · rw [eq]
    intro slot mem
    rcases Array.mem_push.mp mem with before | rfl
    · exact young slot before
    · exact Nat.zero_le limit

theorem getElem?_modify_slots (heap : Heap) (h : Handle) (change : Object → Object)
    (i : Nat) : ∃ view : Slot → Slot, (heap.modify h change).slots[i]? =
      heap.slots[i]?.map view ∧ ∀ slot, (view slot).generation = slot.generation ∧
        (view slot).object.isSome = slot.object.isSome := by
  refine ⟨fun slot => if h.index = i ∧ slot.generation = h.generation then
    { slot with object := slot.object.map change } else slot, ?_, fun slot => ?_⟩
  · by_cases here : h.index = i <;>
      simp [modify, Array.getElem?_modify, here]
  · dsimp only
    split <;> simp

theorem ages_modify (heap : Heap) (h : Handle) (change : Object → Object) :
    heap.Ages (heap.modify h change) := by
  intro i slot found
  obtain ⟨view, eq, same⟩ := heap.getElem?_modify_slots h change i
  refine ⟨view slot, by rw [eq, found]; rfl, .inl ⟨(same slot).1, fun holds => ?_⟩⟩
  rw [(same slot).2]
  exact holds

theorem Young.modify (young : heap.Young limit) (h : Handle) (change : Object → Object) :
    (heap.modify h change).Young limit := by
  intro slot mem
  obtain ⟨i, found⟩ := Array.mem_iff_getElem?.mp mem
  obtain ⟨view, eq, same⟩ := heap.getElem?_modify_slots h change i
  rw [eq] at found
  obtain ⟨before, present, rfl⟩ := Option.map_eq_some_iff.mp found
  rw [(same before).1]
  exact young before (Array.mem_of_getElem? present)

/-- A generation that has not reached the limit is followed by the next one. -/
theorem toNat_release {slot : Slot} (bound : slot.generation.toNat + 1 < generationLimit) :
    slot.release.generation.toNat = slot.generation.toNat + 1 := by
  have whole : slot.release.generation.toNat = (slot.generation.toNat + 1) % generationLimit :=
    UInt32.toNat_add ..
  rw [whole, Nat.mod_eq_of_lt bound]

theorem ages_collect (young : heap.Young limit) (few : limit + 1 < generationLimit)
    (roots : List Handle) : heap.Ages (heap.collect roots).2 := by
  intro i slot found
  have bound := young slot (Array.mem_of_getElem? found)
  refine ⟨_, by rw [collect_snd, getElem?_sweep, found]; rfl, ?_⟩
  dsimp only
  split
  · right
    rw [toNat_release (by omega)]
    omega
  · exact .inl ⟨rfl, id⟩

theorem Young.collect (young : heap.Young limit) (few : limit + 1 < generationLimit)
    (roots : List Handle) : (heap.collect roots).2.Young (limit + 1) := by
  intro slot mem
  obtain ⟨i, found⟩ := Array.mem_iff_getElem?.mp mem
  rw [collect_snd, getElem?_sweep] at found
  obtain ⟨before, present, rfl⟩ := Option.map_eq_some_iff.mp found
  have bound := young before (Array.mem_of_getElem? present)
  split
  · rw [toNat_release (by omega)]
    omega
  · omega

/-! ### What a history maintains -/

/-- The handles that were handed out are told apart by the heap: each is live or spent, none was
handed out twice, and there are no other live ones. -/
structure Accounts (heap : Heap) (issued : List Handle) (collections : Nat) : Prop where
  consistent : heap.Consistent
  young : heap.Young collections
  distinct : issued.Nodup
  known : ∀ handle ∈ issued, heap.isLive handle ∨ heap.Spent handle
  complete (handle : Handle) : heap.isLive handle → handle ∈ issued

variable {issued : List Handle} {collections : Nat}

section

variable (accounts : heap.Accounts issued collections)

include accounts

theorem Accounts.ages (action : Action) (few : action.collections + collections < generationLimit) :
    heap.Ages (action.perform heap) := by
  cases action with
  | alloc obj => exact ages_alloc accounts.consistent obj
  | modify h change => exact ages_modify heap h change
  | stamp => exact fun _ slot found => ⟨slot, found, .inl ⟨rfl, id⟩⟩
  | collect roots =>
    exact ages_collect accounts.young (Nat.add_comm 1 collections ▸ few) roots

/-- A new object gets a handle that was not handed out before. -/
theorem Accounts.fresh (obj : Object) : (heap.alloc obj).1 ∉ issued := by
  intro mem
  rcases accounts.known _ mem with live | ⟨slot, found, later⟩
  · obtain ⟨present, held⟩ := isLive_iff.mp live
    rw [get?_alloc_fresh accounts.consistent] at held
    cases held
  · rcases alloc_eq accounts.consistent obj with
      ⟨i, free, empty, -, vacant, -, eq⟩ | ⟨-, eq⟩
    · rw [eq] at found later
      cases Option.some.inj (vacant.symm.trans found)
      exact Nat.lt_irrefl _ later
    · rw [eq] at found
      exact Nat.lt_irrefl _ (lt_size found)

theorem Accounts.live_before (action : Action) (live : (action.perform heap).isLive h) :
    heap.isLive h ∨ action.issued? heap = some h := by
  cases action with
  | alloc obj =>
    by_cases new : h = (heap.alloc obj).1
    · exact .inr (congrArg some new.symm)
    · left
      simp only [Action.perform, isLive, get?_alloc accounts.consistent, new, if_false] at live
      exact live
  | modify target change =>
    left
    simp only [Action.perform, isLive, get?_modify] at live
    split at live
    · simpa [isLive] using live
    · exact live
  | stamp => exact .inl live
  | collect roots =>
    left
    obtain ⟨obj, held⟩ := isLive_iff.mp live
    exact isLive_iff.mpr ⟨obj, ((get?_collect ..).mp held).1⟩

theorem Accounts.perform (action : Action)
    (few : action.collections + collections < generationLimit) :
    (action.perform heap).Accounts ((action.issued? heap).toList ++ issued)
      (action.collections + collections) := by
  have ages := accounts.ages action few
  have sane := accounts.consistent
  constructor
  · cases action with
    | alloc obj => exact sane.alloc obj
    | modify h change => exact sane.modify h change
    | stamp stamp => exact sane.stamp stamp
    | collect roots => exact sane.collect roots
  · rw [Nat.add_comm] at few ⊢
    cases action with
    | alloc obj => exact accounts.young.alloc sane obj
    | modify h change => exact accounts.young.modify h change
    | stamp => exact accounts.young
    | collect roots => exact accounts.young.collect few roots
  · cases action with
    | alloc obj => exact List.nodup_cons.mpr ⟨accounts.fresh obj, accounts.distinct⟩
    | modify | stamp | collect => exact accounts.distinct
  · intro h mem
    rcases List.mem_append.mp mem with new | before
    · cases action with
      | alloc obj =>
        cases List.mem_singleton.mp new
        exact .inl (isLive_iff.mpr ⟨obj, get?_alloc_self sane obj⟩)
      | modify | stamp | collect => cases new
    · rcases accounts.known h before with live | spent
      · exact ages.live_or_spent live
      · exact .inr (spent.ages ages)
  · intro h live
    rcases accounts.live_before action live with before | new
    · exact List.mem_append_right _ (accounts.complete h before)
    · exact List.mem_append_left _ (by simp [new])

end

theorem accounts_history (history : History) (few : history.collections < generationLimit) :
    history.heap.Accounts history.issued history.collections := by
  induction history with
  | nil =>
    refine ⟨consistent_empty, fun slot mem => ?_, List.nodup_nil, nofun, fun h live => ?_⟩
    · exact absurd mem (Array.not_mem_empty slot)
    · simp [History.heap, isLive, get?] at live
  | cons action earlier ih =>
    have before : History.collections earlier < generationLimit :=
      Nat.lt_of_le_of_lt (Nat.le_add_left ..) few
    exact (ih before).perform action few

theorem collections_append (later earlier : History) :
    History.collections (later ++ earlier) = later.collections + earlier.collections := by
  induction later with
  | nil => simp [History.collections]
  | cons action later ih =>
    rw [List.cons_append, History.collections, History.collections, ih, Nat.add_assoc]

theorem mem_issued_append (later : History) {earlier : History} (mem : h ∈ earlier.issued) :
    h ∈ History.issued (later ++ earlier) := by
  induction later with
  | nil => exact mem
  | cons action later ih => exact List.mem_append_right _ ih

theorem spent_history (later earlier : History)
    (few : History.collections (later ++ earlier) < generationLimit)
    (spent : earlier.heap.Spent h) : (History.heap (later ++ earlier)).Spent h := by
  induction later with
  | nil => exact spent
  | cons action later ih =>
    have before : History.collections (later ++ earlier) < generationLimit :=
      Nat.lt_of_le_of_lt (Nat.le_add_left ..) few
    exact (ih before).ages ((accounts_history _ before).ages action few)

/-- An object that an action does not free is as the action leaves it. -/
theorem get?_perform (sane : heap.Consistent) {action : Action} {obj' : Object}
    (held : heap.get? h = some obj) (held' : (action.perform heap).get? h = some obj') :
    obj' = action.update h obj := by
  cases action with
  | alloc new =>
    rw [Action.perform, get?_alloc_of_live sane new held] at held'
    exact (Option.some.inj held').symm
  | modify target change =>
    rw [Action.perform, get?_modify, held] at held'
    rw [Action.update]
    by_cases here : h = target
    · rw [if_pos here] at held'
      rw [if_pos here.symm]
      exact (Option.some.inj held').symm
    · rw [if_neg here] at held'
      rw [if_neg (Ne.symm here)]
      exact (Option.some.inj held').symm
  | stamp => exact Option.some.inj (held'.symm.trans held)
  | collect roots => exact Option.some.inj (((get?_collect ..).mp held').1.symm.trans held)

/-- Every live object was allocated under its handle and then changed through its handle only. -/
theorem get?_history (history : History) (few : history.collections < generationLimit)
    (held : history.heap.get? h = some obj) :
    ∃ (later : History) (original : Object) (earlier : History),
      history = later ++ .alloc original :: earlier ∧
      h = (earlier.heap.alloc original).1 ∧ obj = later.updated h original := by
  induction history generalizing obj with
  | nil => simp [History.heap, get?] at held
  | cons action earlier ih =>
    have before : History.collections earlier < generationLimit :=
      Nat.lt_of_le_of_lt (Nat.le_add_left ..) few
    have accounts := accounts_history earlier before
    rcases accounts.live_before action (isLive_iff.mpr ⟨obj, held⟩) with live | new
    · obtain ⟨present, held'⟩ := isLive_iff.mp live
      obtain ⟨later, original, start, rfl, rfl, rfl⟩ := ih before held'
      exact ⟨action :: later, original, start, rfl, rfl,
        get?_perform accounts.consistent held' held⟩
    · cases action with
      | alloc original =>
        cases Option.some.inj new
        refine ⟨[], original, earlier, rfl, rfl, ?_⟩
        exact Option.some.inj (held.symm.trans (get?_alloc_self accounts.consistent original))
      | modify | stamp | collect => cases new

def liveHandles (heap : Heap) : Finset Handle :=
  (heap.occupied.map heap.handleAt).toFinset

theorem mem_liveHandles : h ∈ heap.liveHandles ↔ heap.isLive h := by
  simp only [liveHandles, List.mem_toFinset, List.mem_map, mem_occupied]
  constructor
  · rintro ⟨i, ⟨slot, found, holds⟩, rfl⟩
    exact isLive_iff_slot.mpr ⟨slot, found, by simp [handleAt, found], holds⟩
  · intro live
    obtain ⟨slot, found, -, holds⟩ := isLive_iff_slot.mp live
    exact ⟨h.index, ⟨slot, found, holds⟩, handleAt_eq live⟩

theorem Consistent.card_liveHandles (sane : heap.Consistent) :
    heap.liveHandles.card = heap.liveCount := by
  have nodup : (heap.occupied.map heap.handleAt).Nodup :=
    (List.nodup_range.filter _).map fun _ _ eq => congrArg Handle.index eq
  rw [liveHandles, List.toFinset_card_of_nodup nodup, List.length_map, sane.liveCount_eq]

/-- Handles are never confused, in any history with fewer collections than there are generations: no
handle is handed out twice; one that was live and is not any more never is again; a live one refers
to the object it was handed out for, changed by the updates through it and nothing else; and the
free list holds the indices of the empty slots, each once, so that the number of live objects is
known. -/
theorem handles_never_confused (history : History) (few : history.collections < generationLimit) :
    history.issued.Nodup ∧
    (∀ latest later earlier : History, history = latest ++ (later ++ earlier) →
      ∀ handle, earlier.heap.isLive handle → ¬ (History.heap (later ++ earlier)).isLive handle →
        ¬ history.heap.isLive handle) ∧
    (∀ handle object, history.heap.get? handle = some object →
      ∃ (later : History) (original : Object) (earlier : History),
        history = later ++ .alloc original :: earlier ∧
        handle = (earlier.heap.alloc original).1 ∧ object = later.updated handle original) ∧
    history.heap.free.Nodup ∧
    (∀ index, index ∈ history.heap.free ↔
      ∃ slot, history.heap.slots[index]? = some slot ∧ slot.object = none) ∧
    ∃ live : Finset Handle, (∀ handle, handle ∈ live ↔ history.heap.isLive handle) ∧
      history.heap.liveCount = live.card := by
  have accounts := accounts_history history few
  have consistent := accounts.consistent
  refine ⟨accounts.distinct, ?_, fun _ _ => get?_history history few, consistent.free_nodup,
    consistent.mem_free_iff, history.heap.liveHandles, fun _ => mem_liveHandles,
    consistent.card_liveHandles.symm⟩
  rintro latest later earlier rfl handle before freed
  have fewer : History.collections (later ++ earlier) < generationLimit := by
    rw [collections_append] at few
    omega
  have fewest : earlier.collections < generationLimit := by
    rw [collections_append] at fewer
    omega
  have issued := (accounts_history earlier fewest).complete handle before
  have known := (accounts_history _ fewer).known handle (mem_issued_append later issued)
  have spent := known.resolve_left freed
  exact (spent_history latest (later ++ earlier) few spent).not_live

/-- A pair is allocated and freed, a vector takes its slot and is changed. -/
def reuse : History :=
  [.modify ⟨0, 1⟩ fun _ => .vector #[.emptyList], .alloc (.vector #[]), .collect [],
    .alloc (.pair .emptyList .emptyList)]

theorem handles_never_confused_reuse : reuse.collections < generationLimit ∧
    reuse.issued = [⟨0, 1⟩, ⟨0, 0⟩] ∧ reuse.issued.Nodup ∧ ¬ reuse.heap.isLive ⟨0, 0⟩ ∧
    ∃ live : Finset Handle, (∀ handle, handle ∈ live ↔ reuse.heap.isLive handle) ∧
      live.card = 1 := by
  have few : reuse.collections < generationLimit := by decide
  have issued : reuse.issued = [⟨0, 1⟩, ⟨0, 0⟩] := by cbv
  have live_first : (History.heap (reuse.drop 3)).isLive ⟨0, 0⟩ = true := rfl
  have freed : (History.heap ([reuse[2]] ++ reuse.drop 3)).isLive ⟨0, 0⟩ = false := by cbv
  have count : reuse.heap.liveCount = 1 := by cbv
  obtain ⟨distinct, gone, -, -, -, live, members, card⟩ := handles_never_confused reuse few
  refine ⟨few, issued, distinct, ?_, live, members, card.symm.trans count⟩
  apply gone (reuse.take 2) [reuse[2]] (reuse.drop 3) rfl ⟨0, 0⟩ live_first
  rw [freed]
  exact Bool.false_ne_true

end MiniScheme.Heap
