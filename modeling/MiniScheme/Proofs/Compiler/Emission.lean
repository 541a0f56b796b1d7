import MiniScheme.Proofs.Code.Listing
import MiniScheme.Proofs.Compiler.Outcome

/-!
# Emitted code

Code is compiled while scopes are still growing, so it is judged by what they are in the end: in
every setting with at least the constants and slots that the scope had when it was compiled, the
code takes the operands from one state to another. An `Emission` says so of code between two states
of the scopes, and emissions are put together as the compiler puts code together.
-/

namespace MiniScheme

/-- `setting.Hosts scopes scope`: code of the scope can stand there, as the setting has all that the
scope has, and operands can count it. -/
structure Setting.Hosts (setting : Setting) (scopes : Scopes) (scope : ScopeRef) : Prop where
  pool : ∃ added, setting.pool = scopes.constants scope ++ added
  shape : List.Forall₂ (· ≤ ·) (scopes.shape scope) setting.shape
  slots : ∀ size ∈ setting.shape, size ≤ operandLimit
  capacity : setting.pool.size ≤ operandLimit
  fits : ∀ inner, .lambda inner ∈ setting.pool → inner.Fits

namespace Setting

variable {setting : Setting} {scopes old new : Scopes} {scope other : ScopeRef}

theorem wider_trans {first second third : List Nat} (wider : List.Forall₂ (· ≤ ·) first second)
    (wider' : List.Forall₂ (· ≤ ·) second third) : List.Forall₂ (· ≤ ·) first third := by
  induction wider generalizing third with
  | nil => exact wider'
  | cons less _ ih =>
    cases wider' with
    | cons less' rest => exact .cons (Nat.le_trans less less') (ih rest)

theorem Hosts.before (hosts : setting.Hosts new scope) (nested : old.Nested)
    (further : old.Extends new) (bound : scope < old.stack.size) : setting.Hosts old scope := by
  obtain ⟨added, eq⟩ := hosts.pool
  obtain ⟨added', eq'⟩ := further.embeds.constants nested bound
  refine ⟨⟨added' ++ added, ?_⟩, ?_, hosts.slots, hosts.capacity, hosts.fits⟩
  · rw [eq, eq', Array.append_assoc]
  · exact wider_trans (further.embeds.shape nested bound) hosts.shape

/-- What a setting is to a scope depends on the slots that the scope sees. -/
theorem Hosts.of_owner (hosts : setting.Hosts scopes scope) (nested : scopes.Nested)
    (bound : scope < scopes.stack.size) (bound' : other < scopes.stack.size)
    (same : scopes.owner other = scopes.owner scope) : setting.Hosts scopes other := by
  refine ⟨?_, ?_, hosts.slots, hosts.capacity, hosts.fits⟩
  · rw [Scopes.constants, Scopes.ownerScope, same]
    exact hosts.pool
  · rw [← nested.shape_owner bound', same, nested.shape_owner bound]
    exact hosts.shape

theorem Hosts.of_truncate {n : Nat} (hosts : setting.Hosts (scopes.truncate n) scope)
    (nested : scopes.Nested) (inside : scope < n) (bound : scope < scopes.stack.size) :
    setting.Hosts scopes scope := by
  refine ⟨?_, ?_, hosts.slots, hosts.capacity, hosts.fits⟩
  · rw [← Scopes.constants_truncate nested inside bound]
    exact hosts.pool
  · rw [← Scopes.shape_truncate scopes inside]
    exact hosts.shape

theorem Hosts.constant (hosts : setting.Hosts scopes scope) {i : Nat} {constant : Constant}
    (found : (scopes.constants scope)[i]? = some constant) :
    setting.pool[i]? = some constant ∧ i < operandLimit := by
  obtain ⟨added, eq⟩ := hosts.pool
  have bound := lt_size found
  have capacity := hosts.capacity
  rw [eq, Array.size_append] at capacity
  refine ⟨?_, by omega⟩
  rw [eq, Array.getElem?_append_left bound, found]

variable {depth i size : Nat}

theorem Hosts.slot (hosts : setting.Hosts scopes scope)
    (found : (scopes.shape scope)[depth]? = some size) (inside : i < size) :
    ∃ size', setting.shape[depth]? = some size' ∧ i < size' ∧ i < operandLimit := by
  obtain ⟨bound, here⟩ := List.getElem?_eq_some_iff.mp found
  have bound' : depth < setting.shape.length := hosts.shape.length_eq ▸ bound
  have wider := hosts.shape.get bound bound'
  simp only [List.get_eq_getElem, here] at wider
  have limit := hosts.slots _ (List.getElem_mem bound')
  exact ⟨setting.shape[depth], List.getElem?_eq_getElem bound', by omega, by omega⟩

end Setting

def Certified (scope : ScopeRef) (before after : Scopes) : Prop :=
  ∀ setting : Setting, setting.Hosts after scope → ∀ (index : Nat) (inner : Lambda),
    (before.constants scope).size ≤ index →
      (after.constants scope)[index]? = some (.lambda inner) → inner.Passes setting.shape

theorem Certified.trans {scope : ScopeRef} {before mid after : Scopes}
    (first : Certified scope before mid) (second : Certified scope mid after)
    (nested : mid.Nested) (further : mid.Extends after) (bound : scope < mid.stack.size) :
    Certified scope before after := by
  intro setting hosts i inner new found
  obtain ⟨added, eq⟩ := further.embeds.constants nested bound
  rcases Nat.lt_or_ge i (mid.constants scope).size with old | later
  · rw [eq, Array.getElem?_append_left old] at found
    exact first setting (hosts.before nested further bound) i inner new found
  · exact second setting hosts i inner later found

/-- `Passage scope before after rests`: what compiling in a scope does to the scopes. It concerns
the variables and constants of that scope only. Where it `rests`, no initializer comes to wait. -/
structure Passage (scope : ScopeRef) (before after : Scopes) (rests : Bool) : Prop where
  bound : scope < before.stack.size
  nested : before.Nested
  nested' : after.Nested
  further : before.Extends after
  others : before.Retains (· ≠ before.owner scope) after
  lambdas : Certified scope before after
  aside : before.Level → Scopes.Aside scope before after
  idle : rests = true → before.Level → before.queue (before.owner scope) = .empty →
    after.queue (before.owner scope) = .empty

namespace Passage

variable {scope other : ScopeRef} {before mid after : Scopes} {rests : Bool}

theorem bound' (passage : Passage scope before after rests) : scope < after.stack.size :=
  Nat.lt_of_lt_of_le passage.bound passage.further.embeds.size_le

theorem owner (passage : Passage scope before after rests) :
    after.owner scope = before.owner scope :=
  passage.further.embeds.owner passage.nested passage.bound

theorem trans (first : Passage scope before mid rests)
    (second : Passage scope mid after rests) : Passage scope before after rests := by
  have others := second.others
  rw [first.owner] at others
  refine ⟨first.bound, first.nested, second.nested', first.further.trans second.further,
    first.others.trans others first.further.embeds,
    first.lambdas.trans second.lambdas second.nested second.further second.bound,
    fun level => ?_, fun resting level waits => ?_⟩
  · have aside := first.aside level
    exact aside.trans (second.aside aside.level) first.owner first.further.embeds.size_le
  · have idle := second.idle resting (first.aside level).level
    rw [first.owner] at idle
    exact idle (first.idle resting level waits)

theorem settles (first : Passage scope before mid rests)
    (settles : Scopes.Settles scope before mid) (second : Passage scope mid after true) :
    Scopes.Settles scope before after := by
  intro level
  have idle := second.idle rfl (first.aside level).level
  rw [first.owner] at idle
  exact idle (settles level)

theorem settles_after (first : Passage scope before mid rests)
    (settles : Scopes.Settles scope mid after) : Scopes.Settles scope before after :=
  fun level => first.owner ▸ settles (first.aside level).level

/-- A scope is like every other that sees the same slots. -/
theorem of_owner (passage : Passage scope before after rests) (bound : other < before.stack.size)
    (same : before.owner other = before.owner scope) : Passage other before after rests := by
  have same' : after.owner other = after.owner scope := by
    rw [passage.further.embeds.owner passage.nested bound, passage.owner, same]
  have bound' := Nat.lt_of_lt_of_le bound passage.further.embeds.size_le
  refine ⟨bound, passage.nested, passage.nested', passage.further, same ▸ passage.others,
    fun setting hosts i inner => ?_, fun level => ?_, same ▸ passage.idle⟩
  · simp only [Scopes.constants, Scopes.ownerScope, same, same']
    exact passage.lambdas setting (hosts.of_owner passage.nested' bound' passage.bound' same'.symm)
      i inner
  · have aside := passage.aside level
    exact ⟨aside.level, same ▸ aside.others⟩

theorem truncate (passage : Passage scope before after rests) :
    Passage scope before (after.truncate before.stack.size) rests := by
  refine ⟨passage.bound, passage.nested, passage.nested'.truncate _, passage.further.truncate,
    fun place e e' elsewhere found found' => ?_, fun setting hosts i inner => ?_,
    fun level => ?_, fun resting level waits => ?_⟩
  · exact passage.others place e e' elsewhere found (Scopes.getElem?_of_truncate found').2
  · rw [Scopes.constants_truncate passage.nested' passage.bound passage.bound']
    exact passage.lambdas setting (hosts.of_truncate passage.nested' passage.bound passage.bound')
      i inner
  · have aside := passage.aside level
    exact ⟨aside.level.truncate _, fun place inside distinct =>
      (Scopes.queue_truncate inside).trans (aside.others place inside distinct)⟩
  · exact (Scopes.queue_truncate (passage.nested.owner_lt passage.bound)).trans
      (passage.idle resting level waits)

end Passage

/-- `Emission scope before after code effect tail rests`: the code was compiled in a scope and leaves
`effect` more operands. In tail position it may leave the procedure instead. -/
structure Emission (scope : ScopeRef) (before after : Scopes) (code : Bytecode) (effect : Nat)
    (tail rests : Bool) : Prop extends Passage scope before after rests where
  /-- Only instructions of the code account for new constants. -/
  growth : (after.constants scope).size ≤ (before.constants scope).size + code.size
  leads (setting : Setting) : setting.Hosts after scope → (tail = true → setting.level = .procedure) →
    ∀ (count : Nat) (saved : List Nat),
      code.Leads setting tail ⟨count, saved⟩ ⟨count + effect, saved⟩

namespace Emission

variable {scope other : ScopeRef} {scopes before mid after : Scopes}
  {code first second : Bytecode} {effect effect' : Nat} {tail rests : Bool}

/-- No code, while nothing that matters to code has changed. -/
theorem nothing (valid : before.Valid) (valid' : after.Valid) (further : before.Extends after)
    (bound : scope < before.stack.size) (retains : before.Retains (fun _ => True) after)
    (aside : before.Level → Scopes.Aside scope before after)
    (idle : rests = true → before.Level → before.queue (before.owner scope) = .empty →
      after.queue (before.owner scope) = .empty) : Emission scope before after {} 0 tail rests := by
  have same := retains.constants valid.toNested further.embeds bound trivial
  refine ⟨⟨bound, valid.toNested, valid'.toNested, further, retains.mono fun _ _ => trivial, ?_,
    aside, idle⟩, ?_, fun _ _ _ _ _ => .nothing⟩
  · intro _ _ i inner new found
    rw [same, Array.getElem?_eq_none new] at found
    cases found
  · rw [same]
    exact Nat.le_add_right ..

theorem still (valid : before.Valid) (valid' : after.Valid) (further : before.Extends after)
    (bound : scope < before.stack.size) (retains : before.Retains (fun _ => True) after)
    (undisturbed : before.Undisturbed after) : Emission scope before after {} 0 tail rests :=
  .nothing valid valid' further bound retains undisturbed.aside fun _ level =>
    (undisturbed.idle valid.toNested bound level).symm ▸ id

theorem refl (valid : scopes.Valid) (bound : scope < scopes.stack.size) :
    Emission scope scopes scopes {} 0 tail rests :=
  .still valid valid (.refl _) bound (.refl _ _) (.refl _)

/-- Code for which no initializer comes to wait may stand where some could. -/
theorem loosen (emission : Emission scope before after code effect tail true) :
    Emission scope before after code effect tail rests :=
  { emission with idle := fun _ => emission.idle rfl }

/-- Code that stays where it is may stand in tail position. -/
theorem anywhere (emission : Emission scope before after code effect false rests) :
    Emission scope before after code effect tail rests :=
  { emission with
    leads := fun setting hosts _ n saved =>
      (emission.leads setting hosts nofun n saved).anywhere }

theorem append (front : Emission scope before mid first effect false rests)
    (back : Emission scope mid after second effect' tail rests) :
    Emission scope before after (first ++ second) (effect + effect') tail rests := by
  refine ⟨front.toPassage.trans back.toPassage, ?_, ?_⟩
  · have growth := front.growth
    have growth' := back.growth
    rw [Bytecode.size_append]
    omega
  · intro setting hosts level n saved
    have first := front.leads setting (hosts.before back.nested back.further back.bound) nofun n
      saved
    have second := back.leads setting hosts level (n + effect) saved
    rw [Nat.add_assoc] at second
    exact first.append second

/-- What was done before without any code does not matter. -/
theorem since (front : Emission scope before mid {} 0 false rests)
    (back : Emission scope mid after code effect tail rests) :
    Emission scope before after code effect tail rests := by
  have whole := front.append back
  rwa [Bytecode.nil_append, Nat.zero_add] at whole

/-- Code of one scope is code of every other that sees the same slots. -/
theorem of_owner (emission : Emission scope before after code effect tail rests)
    (bound : other < before.stack.size) (same : before.owner other = before.owner scope) :
    Emission other before after code effect tail rests := by
  have passage := emission.toPassage.of_owner bound same
  have same' : after.owner other = after.owner scope := by
    rw [passage.owner, emission.owner, same]
  refine ⟨passage, ?_, fun setting hosts => emission.leads setting
    (hosts.of_owner emission.nested' passage.bound' emission.bound' same'.symm)⟩
  simp only [Scopes.constants, Scopes.ownerScope, same, same']
  exact emission.growth

/-- An instruction that turns what the code has left into something else. -/
theorem followed (emission : Emission scope before after code effect false rests)
    (instr : Instruction) (effect' : Nat) (plain : instr.op ≠ .tailCall)
    (straight : instr.op.branches = false)
    (fares : ∀ setting : Setting, setting.Hosts after scope → instr.Fares setting)
    (turns : ∀ (n : Nat) (saved : List Nat),
      instr.op.effect ⟨n + effect, saved⟩ = some ⟨n + effect', saved⟩) :
    Emission scope before after (code ++ .ofOp instr.op instr.operands) effect' false rests := by
  have growth := emission.growth
  refine ⟨emission.toPassage, ?_, fun setting hosts level n saved => ?_⟩
  · rw [Bytecode.size_append]
    omega
  · exact (emission.leads setting hosts level n saved).append (.one instr rfl
      (fares setting hosts) straight (fun call => absurd call plain) (turns n saved))

theorem drop (emission : Emission scope before after code 1 false rests) :
    Emission scope before after (code ++ .ofOp .pop) 0 false rests :=
  emission.followed ⟨.pop, [], rfl⟩ 0 nofun rfl (fun _ _ => ⟨trivial, nofun, nofun⟩)
    fun _ _ => rfl

section

variable {depth i size : Nat} (found : (before.shape scope)[depth]? = some size)
  (inside : i < size) (small : depth < operandLimit)

include found inside small

theorem names_slot (passage : Passage scope before after rests) {setting : Setting}
    (hosts : setting.Hosts after scope) : ∃ size', (Int32.ofNat depth).toInt = depth ∧
      (Int32.ofNat i).toInt = i ∧ setting.shape[depth]? = some size' ∧ i < size' := by
  obtain ⟨size', scope, bound, small'⟩ :=
    (hosts.before passage.nested passage.further passage.bound).slot found inside
  exact ⟨size', toInt_ofNat small, toInt_ofNat small', scope, bound⟩

/-- Storing the value that code has left, in a variable that was there before. -/
theorem store (emission : Emission scope before after code 1 false rests) :
    Emission scope before after (code ++ .ofOp .setVariable [.ofNat depth, .ofNat i]) 0
      false rests := by
  refine emission.followed ⟨.setVariable, [.ofNat depth, .ofNat i], rfl⟩ 0 nofun rfl
    (fun setting hosts => ?_) fun _ _ => rfl
  exact ⟨⟨depth, i, names_slot found inside small emission.toPassage hosts⟩, nofun, nofun⟩

theorem load (emission : Emission scope before after code 0 false rests) :
    Emission scope before after (code ++ .ofOp .variable [.ofNat depth, .ofNat i]) 1
      false rests := by
  refine emission.followed ⟨.variable, [.ofNat depth, .ofNat i], rfl⟩ 1 nofun rfl
    (fun setting hosts => ?_) fun _ _ => rfl
  exact ⟨⟨depth, i, names_slot found inside small emission.toPassage hosts⟩, nofun, nofun⟩

end

/-- A call takes its operands away and leaves a value, or it takes the place of the procedure. -/
theorem call {args : Nat} (front : Emission scope before mid first 0 false rests)
    (operands : Emission scope mid after second (args + 1) false rests) (tail : Bool)
    (pos : Position) :
    Emission scope before after (first ++ .ofOp .resetOperandCount ++ second ++
      .ofOpAt (if tail then .tailCall else .call) pos) 1 tail rests := by
  have both := front.append operands
  have growth := both.growth
  refine ⟨both.toPassage, ?_, fun setting hosts level n saved => ?_⟩
  · simp only [Bytecode.size_append] at growth ⊢
    omega
  · have before := front.leads setting
      (hosts.before operands.nested operands.further operands.bound) nofun n saved
    have reset : (Bytecode.ofOp .resetOperandCount).Leads setting false ⟨n, saved⟩
        ⟨0, n :: saved⟩ :=
      .one ⟨.resetOperandCount, [], rfl⟩ rfl ⟨trivial, nofun, nofun⟩ rfl nofun rfl
    have vals := operands.leads setting hosts nofun 0 (n :: saved)
    rw [Nat.zero_add] at vals
    refine ((before.append reset).append vals).append ?_
    cases tail with
    | false => exact .one ⟨.call, [], rfl⟩ rfl ⟨trivial, nofun, nofun⟩ rfl nofun rfl
    | true =>
      refine .one ⟨.tailCall, [], rfl⟩ rfl ⟨trivial, nofun, ?_⟩ rfl (fun _ => rfl) rfl
      rintro _ ⟨⟩
      exact level rfl

theorem branch {test yes no : Bytecode} {tested chosen : Scopes}
    (condition : Emission scope before tested test 1 false rests)
    (consequent : Emission scope tested chosen yes 1 tail rests)
    (alternate : Emission scope chosen after no 1 tail rests) :
    Emission scope before after (test ++
      .ofOp .conditionalJump [.ofNat (yes.size + Op.jump.size)] ++ yes ++
      .ofOp .jump [.ofNat no.size] ++ no) 1 tail rests := by
  have growth := condition.growth
  have growth' := consequent.growth
  have growth'' := alternate.growth
  refine ⟨(condition.toPassage.trans consequent.toPassage).trans alternate.toPassage, ?_, ?_⟩
  · simp only [Bytecode.size_append]
    omega
  · intro setting hosts level n saved
    have hosts' := hosts.before alternate.nested alternate.further alternate.bound
    have hosts'' := hosts'.before consequent.nested consequent.further consequent.bound
    have whole := (condition.leads setting hosts'' nofun n saved).append (.branch rfl
      (consequent.leads setting hosts' level n saved) (alternate.leads setting hosts level n saved))
    simpa only [Bytecode.append_assoc] using whole

theorem truncate (emission : Emission scope before after code effect tail rests) :
    Emission scope before (after.truncate before.stack.size) code effect tail rests := by
  refine ⟨emission.toPassage.truncate, ?_, fun setting hosts => emission.leads setting
    (hosts.of_truncate emission.nested' emission.bound emission.bound')⟩
  rw [Scopes.constants_truncate emission.nested' emission.bound emission.bound']
  exact emission.growth

end Emission

/-! ### Constants -/

namespace Heap

theorem isProcedure_listWithTail (heap : Heap) (vals : List Value) {tail : Value}
    (data : tail.isProcedure = false) : (heap.listWithTail vals tail).1.isProcedure = false := by
  rw [listWithTail]
  generalize vals.reverse = xs
  induction xs generalizing heap tail with
  | nil => exact data
  | cons item xs ih =>
    rw [List.foldl_cons]
    exact ih (heap.cons item tail).2 rfl

theorem isProcedure_ofDatum (heap : Heap) (d : Datum) :
    (heap.ofDatum d).1.isProcedure = false := by
  cases d with
  | atom v => cases v <;> rw [ofDatum] <;> rfl
  | list xs =>
    rw [ofDatum]
    exact isProcedure_listWithTail _ _ rfl
  | dotted xs tail =>
    rw [ofDatum]
    exact isProcedure_listWithTail _ _ (isProcedure_ofDatum _ tail)
  | vector xs =>
    rw [ofDatum]
    rfl

end Heap

theorem Stdlib.isStandard_procedure? (name : String) :
    ((Stdlib.procedure? name).getD .unspecified).IsStandard := by
  cases found : Stdlib.procedure? name with
  | none => exact .inl rfl
  | some v =>
    obtain ⟨front, back, eq, -⟩ := List.lookup_eq_some_iff.mp found
    refine .inr ⟨name, ?_⟩
    rw [eq]
    simp

namespace CompileM

variable {law : Discipline} {origin st : Compilation} {scope : ScopeRef}

variable {constant : Constant}

theorem advances_addConstant (since : origin.Advances law st)
    (bound : scope < st.scopes.stack.size) (standard : constant.IsStandard) :
    origin.Advances law { st with scopes := (st.scopes.addConstant scope constant).2 } := by
  obtain ⟨-, valid, further, -⟩ := since.valid.scopes.addConstant bound standard
  refine since.withScopes valid ?_ (.modify fun _ => ⟨rfl, rfl⟩) (since.scopes.trans further)
  exact (Scopes.size_modify ..).symm ▸ since.valid.base

/-- An instruction that turns a new constant into a value. -/
theorem emission_addConstant {scopes : Scopes} (valid : scopes.Valid)
    (bound : scope < scopes.stack.size) (standard : constant.IsStandard) {op : Op}
    (complete : op.operandCount = 1) (plain : op ≠ .tailCall)
    (straight : op.branches = false) (fares : ∀ (setting : Setting) (place : Int32) (i : Nat),
      setting.Hosts (scopes.addConstant scope constant).2 scope → place.toInt = i →
        setting.pool[i]? = some constant → Instruction.Fares setting ⟨op, [place], complete.symm⟩)
    (pushes : ∀ (n : Nat) (saved : List Nat), op.effect ⟨n, saved⟩ = some ⟨n + 1, saved⟩)
    (passes : ∀ (setting : Setting) (inner : Lambda), constant = .lambda inner →
      setting.Hosts (scopes.addConstant scope constant).2 scope → inner.Passes setting.shape) :
    Emission scope scopes (scopes.addConstant scope constant).2
      (.ofOp op [.ofNat (scopes.addConstant scope constant).1]) 1 false true := by
  obtain ⟨i, valid', further, others, constants⟩ := valid.addConstant bound standard
  have found : ((scopes.addConstant scope constant).2.constants scope)[
      (scopes.addConstant scope constant).1]? = some constant := by
    rw [constants, i, Array.getElem?_push_size]
  have undisturbed : scopes.Undisturbed (scopes.addConstant scope constant).2 :=
    .modify fun _ => ⟨rfl, rfl⟩
  refine ⟨⟨bound, valid.toNested, valid'.toNested, further, others, ?_, undisturbed.aside, ?_⟩, ?_,
    fun setting hosts _ n saved => ?_⟩
  · intro setting hosts place inner new added
    have last : place = (scopes.constants scope).size := by
      have inside := lt_size added
      rw [constants, Array.size_push] at inside
      omega
    rw [last, constants, Array.getElem?_push_size] at added
    exact passes setting inner (Option.some.inj added) hosts
  · exact fun _ level => (undisturbed.idle valid.toNested bound level).symm ▸ id
  · rw [constants, Array.size_push, Bytecode.size_ofOp]
    exact Nat.add_le_add_left (by simp) _
  · obtain ⟨held, small⟩ := hosts.constant found
    exact .one ⟨op, [_], complete.symm⟩ rfl (fares setting _ _ hosts (toInt_ofNat small) held)
      straight (fun call => absurd call plain) (pushes n saved)

theorem emits_constant (valid : st.Valid law) (bound : scope < st.scopes.stack.size)
    {v : Value} (standard : v.IsStandard) :
    Meets law st st.scopes.stack.size
      (fun code after => Emission scope st.scopes after.scopes code 1 false true)
      (CompileM.constant scope v st) := by
  have standard' : (Constant.value v).IsStandard := standard
  refine ⟨advances_addConstant (.refl valid) bound standard', Scopes.size_modify .., ?_⟩
  exact emission_addConstant valid.scopes bound standard' rfl nofun rfl
    (fun _ _ i _ operand found => ⟨⟨i, v, operand, found⟩, nofun, nofun⟩) (fun _ _ => rfl) nofun

theorem emits_quoted (valid : st.Valid law) (bound : scope < st.scopes.stack.size) (d : Datum) :
    Meets law st st.scopes.stack.size
      (fun code after => Emission scope st.scopes after.scopes code 1 false true)
      (CompileM.quoted scope d st) := by
  have built := Heap.builds_ofDatum valid.heap d
  have standard : (st.store.heap.ofDatum d).1.IsStandard := .inl (Heap.isProcedure_ofDatum ..)
  have advances : st.Advances law
      { st with store := { st.store with heap := (st.store.heap.ofDatum d).2 } } := by
    refine ⟨⟨valid.scopes, valid.base, built.grown.sound, ?_, valid.apart⟩, .refl _,
      built.grown.widens, rfl⟩
    intro scope e inv found held
    obtain ⟨proc, slots, present, size⟩ := valid.slots scope e inv found held
    exact ⟨proc, slots, (built.grown.spares inv _ rfl).mp present, size⟩
  have pushed := emits_constant advances.valid bound standard
  exact pushed.mono advances fun _ _ _ emission => emission

end CompileM

end MiniScheme
