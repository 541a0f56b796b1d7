import MiniScheme.Proofs.Machine.Control
import MiniScheme.Proofs.Machine.Soundness

/-!
# What running leaves alone

Whatever the code, running it leaves the machine sound, and it changes no code and no number of
slots: a closure that exists keeps its code and its scope, and an invocation keeps its slots. Only
compiling makes code longer.
-/

namespace MiniScheme.Machine

open MachineM (Meets)

variable {α β : Type} {law : Discipline} {m before mid after : Machine}

/-- `before.Maintains after`: the scopes, the native procedures, the code of all closures and the
number of slots of all invocations are as before. -/
structure Maintains (before after : Machine) : Prop where
  anchors : before.Anchors after
  steady : before.heap.Steady after.heap

theorem Maintains.refl (m : Machine) : m.Maintains m :=
  ⟨.refl m, .refl _⟩

theorem Maintains.trans (first : before.Maintains mid) (second : mid.Maintains after) :
    before.Maintains after :=
  ⟨first.anchors.trans second.anchors, first.steady.trans second.steady⟩

theorem Maintains.control (anchors : before.Anchors after) (heap : after.heap = before.heap) :
    before.Maintains after := by
  refine ⟨anchors, ?_⟩
  rw [heap]
  exact .refl _

theorem Maintains.note (m : Machine) (detail : Detail) (message : Unit → String) :
    m.Maintains (m.note detail message) :=
  .control (.note m detail message) (note_heap m detail message)

/-- `before.Upholds discipline after`: the machine is sound, and it maintains what it should if its
native procedures are tame. -/
structure Upholds (discipline : Discipline) (before after : Machine) : Prop where
  sound : after.Sound discipline
  maintains : (∀ native ∈ before.natives, native.Tame discipline) → before.Maintains after

theorem Upholds.trans (first : before.Upholds law mid)
    (second : mid.Upholds law after) : before.Upholds law after := by
  refine ⟨second.sound, fun tame => ?_⟩
  have maintains := first.maintains tame
  rw [← maintains.anchors.natives] at tame
  exact maintains.trans (second.maintains tame)

theorem Sound.stays (sound : m.Sound law) : m.Upholds law m :=
  ⟨sound, fun _ => .refl m⟩

theorem Upholds.control (sound : after.Sound law) (anchors : before.Anchors after)
    (heap : after.heap = before.heap) : before.Upholds law after :=
  ⟨sound, fun _ => .control anchors heap⟩

def Safe (discipline : Discipline) (before : Machine) (good : Heap → α → Prop) :
    EStateM.Result Fault Machine α → Prop :=
  Meets (fun result after => before.Upholds discipline after ∧ good after.heap result)
    (fun _ after => before.Upholds discipline after)

def SoundFlow (discipline : Discipline) (heap : Heap) : Flow → Prop
  | .exit value => value.Sound discipline heap
  | .next | .suspend => True

theorem Safe.bind {good : Heap → α → Prop} {good' : Heap → β → Prop} {action : MachineM α}
    {next : α → MachineM β} (first : Safe law before good (action m))
    (rest : ∀ res mid, before.Upholds law mid → good mid.heap res →
      Safe law mid good' (next res mid)) : Safe law before good' ((action >>= next) m) :=
  Meets.bind first fun res mid ⟨upholds, met⟩ =>
    Meets.mono (rest res mid upholds met)
      (fun _ _ ⟨further, met⟩ => ⟨upholds.trans further, met⟩) fun _ _ => upholds.trans

section

variable (sound : m.Sound law)

include sound

/-- Operands may come and go, and the place in the code may change. -/
theorem Sound.shifts {stack : Stack Value} (pc operandCount : Nat)
    (stack_sound : ∀ v ∈ stack.items, v.Sound law m.heap) :
    m.Upholds law { m with stack, current := { m.current with pc, operandCount } } :=
  .control (sound.steer ⟨stack_sound, sound.control.calls, sound.control.current.invocation,
    sound.control.current.lambda⟩) ⟨rfl, rfl, rfl, rfl⟩ rfl

theorem safe_pop : Safe law m (fun heap v => v.Sound law heap) (MachineM.pop m) := by
  unfold MachineM.pop
  split
  · rename_i v stack popped
    have parts := pop?_sound popped sound.control.stack
    exact ⟨sound.shifts _ _ parts.2, parts.1⟩
  · exact sound.stays

theorem safe_operands :
    Safe law m (fun heap (callee, args) => callee.Sound law heap ∧
      ∀ v ∈ args, v.Sound law heap) (operands m) := by
  unfold operands
  split
  · exact sound.stays
  · rename_i window below split
    obtain ⟨window_sound, below_sound⟩ : (∀ v ∈ window, v.Sound law m.heap) ∧
        ∀ v ∈ below.items, v.Sound law m.heap := by
      unfold Stack.splitTop? at split
      split at split
      · cases split
        exact ⟨fun v mem => sound.control.stack v (List.mem_of_mem_take (List.mem_reverse.mp mem)),
          fun v mem => sound.control.stack v (List.mem_of_mem_drop mem)⟩
      · cases split
    split
    · rename_i saved stack popped
      split
      · rename_i callee args
        have parts := pop?_sound popped below_sound
        exact ⟨sound.shifts _ _ parts.2, List.forall_mem_cons.mp window_sound⟩
      · exact sound.stays
    · exact sound.stays

theorem safe_jump (offset : Int32) : Safe law m (fun _ _ => True) (jump offset m) := by
  refine Meets.getThen ?_
  dsimp only
  split
  · exact sound.stays
  · exact ⟨sound.shifts _ _ sound.control.stack, trivial⟩

/-- Finding out which variable is meant leaves the machine as it is. -/
theorem safe_variableAtThen {good : Heap → α → Prop} {next : Handle × Nat → MachineM α}
    (offset : Nat) (rest : ∀ place, Safe law m good (next place m)) :
    Safe law m good ((variableAt offset >>= next) m) := by
  refine Meets.bind (?_ : Meets (fun _ after => after = m) _ _) ?_
  · refine Meets.operandThen sound.stays fun depth => ?_
    refine Meets.findThen sound.stays fun inv _ => ?_
    exact Meets.operandThen sound.stays fun slot => rfl
  · rintro place after rfl
    exact rest place

end

/-! ### Calls -/

theorem Maintains.enter (m : Machine) (lam : Lambda) (inv : Handle) (tail : Bool) :
    m.Maintains (m.enter lam inv tail) := by
  obtain ⟨journal, entered⟩ := enter_eq lam inv tail m
  rw [entered]
  exact .control ⟨rfl, rfl, rfl, rfl⟩ rfl

theorem Maintains.complete (m : Machine) (v : Value) (tail : Bool) :
    m.Maintains (m.complete v tail) := by
  rw [Machine.complete]
  repeat' split
  all_goals exact .control ⟨rfl, rfl, rfl, rfl⟩ rfl

theorem Maintains.remember (sane : m.heap.Consistent) (tail : Bool) :
    m.Maintains (m.remember tail).2 := by
  obtain ⟨journal, remembered⟩ := remember_eq tail m
  rw [remembered]
  exact ⟨⟨rfl, rfl, rfl, rfl⟩, .alloc sane _⟩

section

variable {v : Value} {args : List Value} (sound : m.Sound law)

include sound

theorem safe_callClosure (closure : Handle)
    (arguments_sound : ∀ v ∈ args, v.Sound law m.heap) (tail : Bool) :
    Safe law m (SoundFlow law) (callClosure closure args tail m) := by
  cases found : m.heap.closure? closure with
  | none =>
    rw [callClosure_dangling found]
    exact sound.stays
  | some parts =>
    obtain ⟨lam, parent⟩ := parts
    have held := Heap.closure?_eq_some_iff.mp found
    obtain ⟨invoked, keeps, created⟩ := sound.invoke ⟨_, held, rfl⟩ lam arguments_sound
    obtain ⟨grown, -⟩ := slots_sound sound.heap lam arguments_sound
    have lambda_sound := (sound.heap.objects closure _ held).1
    have upholds : m.Upholds law (m.invoke closure lam args).2 :=
      ⟨invoked, fun _ => ⟨⟨rfl, rfl, rfl, rfl⟩,
        grown.steady.trans (.alloc grown.sound.consistent _)⟩⟩
    rw [callClosure_eq found]
    split
    · dsimp only
      split
      · exact upholds
      · exact ⟨upholds.trans ⟨invoked.enter created (lambda_sound.mono keeps) tail,
          fun _ => .enter _ lam _ tail⟩, trivial⟩
    · exact sound.stays

theorem safe_callNative (id : NativeId)
    (arguments_sound : ∀ v ∈ args, v.Sound law m.heap) (tail : Bool) :
    Safe law m (SoundFlow law) (callNative id args tail m) := by
  refine Meets.findThen sound.stays fun proc found => ?_
  dsimp only
  split
  · have out := sound.natives proc (Array.mem_of_getElem? found) args
      m.store sound.heap arguments_sound
    have tamed (tame : ∀ native ∈ m.natives, native.Tame law) :=
      tame proc (Array.mem_of_getElem? found) args m.store sound.heap arguments_sound
    rw [MachineM.bind_apply, MachineM.native]
    cases res : proc.run args m.store with
    | error fault store =>
      rw [res] at out tamed
      exact ⟨sound.move ⟨rfl, rfl, rfl, rfl⟩ out.1 out.2 (sound.control.mono out.2),
        fun tame => ⟨⟨rfl, rfl, rfl, rfl⟩, (tamed tame).1.grown.steady⟩⟩
    | ok answer store =>
      rw [res] at out tamed
      obtain ⟨store_sound, keeps, answer_sound⟩ := out
      have worked : m.Upholds law { m with store } :=
        ⟨sound.move ⟨rfl, rfl, rfl, rfl⟩ store_sound keeps (sound.control.mono keeps),
          fun tame => ⟨⟨rfl, rfl, rfl, rfl⟩, (tamed tame).1.grown.steady⟩⟩
      cases answer with
      | some v =>
        exact ⟨worked.trans ⟨worked.sound.complete tail (answer_sound v rfl),
          fun _ => .complete _ v tail⟩, trivial⟩
      | none =>
        have noted := worked.sound.note .debug fun _ => "suspended in " ++ proc.name
        exact ⟨worked.trans ⟨noted.move ⟨rfl, rfl, rfl, rfl⟩ noted.heap (.refl _) noted.control,
          fun _ => (Maintains.note _ _ _).trans (.control ⟨rfl, rfl, rfl, rfl⟩ rfl)⟩, trivial⟩
  · exact sound.stays

theorem safe_callContinuation (cont : Handle) (value_sound : v.Sound law m.heap) :
    Safe law m (SoundFlow law) (callContinuation cont v m) := by
  refine Meets.findThen sound.stays fun snapshot found => ?_
  have snapshot_sound : snapshot.Sound law m.heap :=
    sound.heap.objects cont _ (Heap.continuation?_eq_some_iff.mp found)
  have noted := sound.note .debug fun _ =>
    "restoring continuation at " ++ offsetText snapshot.current.pc
  refine ⟨⟨noted.restore ?_ ?_,
    fun _ => (Maintains.note m _ _).trans (.control ⟨rfl, rfl, rfl, rfl⟩ rfl)⟩, trivial⟩
  · rw [note_heap]
    exact snapshot_sound
  · rw [note_heap]
    exact value_sound

end

/-- A call leads to one action on a closure, a native procedure or a continuation. What it is
applied to comes from the arguments, from a list among them, or is the captured state. -/
theorem safe_dispatch (room : Nat) {callee : Value} {args : List Value}
    (callable : Callable law m callee args) (tail : Bool) :
    Safe law m (SoundFlow law) (dispatch room callee args tail m) := by
  have rule : DispatchRule tail (Callable law) fun m => Safe law m (SoundFlow law) :=
    { refusal := fun callable _ => callable.sound.stays
      closure := fun callable => safe_callClosure callable.sound _ callable.arguments tail
      native := fun callable => safe_callNative callable.sound _ callable.arguments tail
      continuation := fun callable =>
        safe_callContinuation callable.sound _ (callable.arguments _ List.mem_cons_self)
      capture := fun {m receiver} callable => by
        have captured := callable.capture tail
        have remembers : m.Upholds law (m.remember tail).2 :=
          ⟨captured.sound, fun _ => .remember callable.sound.heap.consistent tail⟩
        exact ⟨captured, fun safe => Meets.mono safe
          (fun _ _ ⟨upholds, met⟩ => ⟨remembers.trans upholds, met⟩) fun _ _ => remembers.trans⟩
      apply := Callable.apply }
  exact rule.dispatch room callable

/-! ### Instructions and runs -/

theorem safe_call (sound : m.Sound law) (tail : Bool) :
    Safe law m (SoundFlow law) ((operands >>= fun (callee, args) => call callee args tail) m) :=
  (safe_operands sound).bind fun _ _ upholds ⟨callee_sound, arguments_sound⟩ =>
    safe_dispatch _ ⟨upholds.sound, callee_sound, arguments_sound⟩ tail

theorem Sound.pushes (sound : m.Sound law) {v : Value} (value_sound : v.Sound law m.heap) :
    m.Upholds law (m.push v) :=
  .control (sound.push value_sound) ⟨rfl, rfl, rfl, rfl⟩ rfl

theorem safe_step (sound : m.Sound law) (op : Op) (pc : Nat) :
    Safe law m (SoundFlow law) (step op pc m) := by
  have stays := sound.stays
  match op with
  | .constant =>
    refine Meets.operandThen stays fun place => ?_
    refine Meets.findThen stays fun v found => ?_
    refine ⟨sound.pushes ?_, trivial⟩
    split at found
    · rename_i held
      cases found
      exact constant_sound sound.control.current.lambda held
    · cases found
  | .variable =>
    refine safe_variableAtThen sound (pc + 1) fun place => ?_
    refine Meets.findThen stays fun v found => ?_
    exact ⟨sound.pushes (slot_sound sound found), trivial⟩
  | .setVariable =>
    refine safe_variableAtThen sound (pc + 1) fun place => ?_
    refine (safe_pop sound).bind fun v popped upholds value_sound => ?_
    refine Meets.findThen upholds.sound.stays fun _ _ => ?_
    have stored := modifySlots_sound upholds.sound.heap place.1
      fun slots slots_sound other (mem : other ∈ slots.setIfInBounds place.2 v) => by
        rcases Array.mem_or_eq_of_mem_setIfInBounds mem with before | rfl
        · exact slots_sound other before
        · exact value_sound
    exact ⟨⟨upholds.sound.onHeap (fun heap => ((), heap.modifySlots place.1 _)) stored.1 stored.2,
      fun _ => ⟨⟨rfl, rfl, rfl, rfl⟩, .modifySlots _ place.1 (by simp)⟩⟩, trivial⟩
  | .resetOperandCount =>
    exact ⟨sound.shifts _ _ (List.forall_mem_cons.mpr ⟨.of_data rfl rfl, sound.control.stack⟩),
      trivial⟩
  | .call => exact safe_call sound false
  | .tailCall => exact safe_call sound true
  | .return =>
    refine (safe_pop sound).bind fun v popped upholds value_sound => ?_
    refine Meets.findThen upholds.sound.stays fun ⟨frame, calls⟩ found => ?_
    have noted := upholds.sound.note .debug fun _ => "return to " ++ offsetText frame.pc
    have parts := pop?_sound found upholds.sound.control.calls
    rw [← note_heap popped .debug fun _ => "return to " ++ offsetText frame.pc] at parts value_sound
    have control : Snapshot.Sound law _ { stack := _, calls, current := frame } :=
      ⟨noted.control.stack, parts.2, parts.1⟩
    exact ⟨⟨(noted.steer control).push value_sound,
      fun _ => (Maintains.note popped _ _).trans (.control ⟨rfl, rfl, rfl, rfl⟩ rfl)⟩, trivial⟩
  | .lambda =>
    refine Meets.operandThen stays fun place => ?_
    refine Meets.findThen stays fun lam found => ?_
    refine Meets.getThen ?_
    have lambda_sound : lam.Sound law m.heap := by
      split at found
      · rename_i held
        cases found
        exact constant_sound sound.control.current.lambda held
      · cases found
    obtain ⟨allocated, closure_sound⟩ := sound.close lambda_sound
    exact ⟨⟨allocated.push closure_sound,
      fun _ => ⟨⟨rfl, rfl, rfl, rfl⟩, .alloc sound.heap.consistent _⟩⟩, trivial⟩
  | .pop => exact (safe_pop sound).bind fun _ _ upholds _ => ⟨upholds.sound.stays, trivial⟩
  | .jump =>
    refine Meets.operandThen stays fun offset => ?_
    exact (safe_jump sound offset).bind fun _ _ upholds _ => ⟨upholds.sound.stays, trivial⟩
  | .conditionalJump =>
    refine Meets.operandThen stays fun offset => ?_
    refine (safe_pop sound).bind fun v popped upholds _ => ?_
    cases v.isTrue with
    | true => exact ⟨upholds.sound.stays, trivial⟩
    | false =>
      exact (safe_jump upholds.sound offset).bind fun _ _ upholds _ =>
        ⟨upholds.sound.stays, trivial⟩
  | .exit =>
    exact (safe_pop sound).bind fun _ _ upholds value_sound => ⟨upholds.sound.stays, value_sound⟩
  | .lambdaExit => exact ⟨stays, Value.sound_unspecified⟩

theorem Maintains.reset (m : Machine) : m.Maintains m.reset := by
  rw [Machine.reset]
  split <;> exact .control ⟨rfl, rfl, rfl, rfl⟩ rfl

theorem Maintains.fail (m : Machine) (fault : Fault) : m.Maintains (m.fail fault).2 :=
  (Maintains.note m _ _).trans (.reset _)

theorem Sound.faces (sound : m.Sound law) (op : Op) : m.Upholds law (m.facing op) := by
  have advances : m.Maintains (m.advance op) := .control ⟨rfl, rfl, rfl, rfl⟩ rfl
  exact ⟨(sound.advance op).note .., fun _ => advances.trans (.note ..)⟩

/-- Running leaves the machine sound and maintains it, however far it gets. -/
theorem Sound.upholds_run {σ : Type} (observe : Op → σ → σ) (room : Nat) (observed : σ)
    (sound : m.Sound law) : m.Upholds law (m.run observe room observed).2.2 := by
  have fails {m : Machine} (sound : m.Sound law) (fault : Fault) : m.Upholds law (m.fail fault).2 :=
    ⟨sound.fail fault, fun _ => .fail m fault⟩
  induction room generalizing observed m with
  | zero => exact sound.stays
  | succ room ih =>
    cases fetched : m.current.lambda.body.op? m.current.pc with
    | none =>
      simp only [Machine.run, fetched]
      split
      · exact sound.stays
      · exact fails sound _
    | some op =>
      rw [run_succ fetched]
      have faces := sound.faces op
      have stepped := safe_step faces.sound op m.current.pc
      split
      · rename_i out
        rw [out] at stepped
        exact (faces.trans stepped.1).trans (ih _ stepped.1.sound)
      · rename_i out
        rw [out] at stepped
        exact faces.trans stepped.1
      · rename_i out
        rw [out] at stepped
        exact faces.trans stepped.1
      · rename_i out
        rw [out] at stepped
        exact (faces.trans stepped).trans (fails stepped.sound _)

theorem Sound.run {σ : Type} (observe : Op → σ → σ) (room : Nat) (observed : σ)
    (sound : m.Sound law) : (m.run observe room observed).2.2.Sound law :=
  (sound.upholds_run observe room observed).sound

theorem Maintains.run {σ : Type} (observe : Op → σ → σ) (room : Nat) (observed : σ)
    (sound : m.Sound law) (tame : ∀ native ∈ m.natives, native.Tame law) :
    m.Maintains (m.run observe room observed).2.2 :=
  (sound.upholds_run observe room observed).maintains tame

theorem Sound.execute {σ : Type} (observe : Op → σ → σ) (observed : σ) (cycles : Nat)
    (sound : m.Sound law) : (m.execute observe observed cycles).2.2.Sound law := by
  unfold Machine.execute
  split
  · exact sound
  · exact sound.run observe (budget cycles) observed

theorem Maintains.wake (m : Machine) (v : Value) : m.Maintains (m.wake v).2 := by
  rw [Machine.wake]
  split
  · rename_i tail _
    have resumed : m.Maintains { m with suspended := none } := .control ⟨rfl, rfl, rfl, rfl⟩ rfl
    exact resumed.trans (.complete _ v tail)
  · exact .refl m

end MiniScheme.Machine
