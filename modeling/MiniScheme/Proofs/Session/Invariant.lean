import MiniScheme.Proofs.Compiler.Balance
import MiniScheme.Proofs.Compiler.Rollback
import MiniScheme.Proofs.Machine.Progress
import MiniScheme.Session

/-!
# What a session maintains

Between any two requests the scopes and the machine of a session belong together: the slots of the
outermost two scopes exist, the code of the top level has the constants that were compiled for it,
and what the scopes have beyond that was compiled but never run. This holds whatever code runs.
Code and scopes only grow, so if they are small enough in the end they were so all along.
-/

namespace MiniScheme

/-- `old.Grows new`: code and constants have been added at the end. -/
structure Lambda.Grows (old new : Lambda) : Prop where
  constants : ∃ added, new.constants = old.constants ++ added
  body : old.body.size ≤ new.body.size
  slots : new.slotCount = old.slotCount

theorem Lambda.Grows.refl (lam : Lambda) : lam.Grows lam :=
  ⟨⟨#[], by simp⟩, Nat.le_refl _, rfl⟩

variable {old new : Lambda} {natives : Nat}

theorem Lambda.Grows.trans {mid : Lambda} (first : old.Grows mid) (second : mid.Grows new)
    : old.Grows new := by
  obtain ⟨added, eq⟩ := first.constants
  obtain ⟨added', eq'⟩ := second.constants
  exact ⟨⟨added ++ added', by simp [eq', eq]⟩, Nat.le_trans first.body second.body,
    second.slots.trans first.slots⟩

theorem Lambda.Grows.fits (grows : old.Grows new) (fits : new.Fits) : old.Fits := by
  intro inner nests
  cases nests with
  | self =>
    obtain ⟨body, slots⟩ := fits new .self
    exact ⟨Nat.lt_of_le_of_lt grows.body body, grows.slots ▸ slots⟩
  | inside mem nests =>
    obtain ⟨added, eq⟩ := grows.constants
    apply fits.inside _ inner nests
    rw [eq]
    exact Array.mem_append_left _ mem

/-- Standard values are sound wherever the standard procedures are registered. -/
theorem Value.IsStandard.sound {v : Value} (standard : v.IsStandard)
    (registered : Stdlib.registry.size ≤ natives) (topClosure : Handle) (heap : Heap) :
    v.Sound (.script topClosure natives) heap := by
  rcases standard with data | ⟨name, mem⟩
  · refine ⟨Discipline.allows_data _ _ data, fun ref tagged guarded => ?_⟩
    cases v with
    | pair | vector => cases tagged; rcases guarded with impossible | impossible <;> cases impossible
    | closure | continuation => cases data
    | _ => cases tagged
  · rcases List.mem_append.mp mem with control | native
    · simp only [Stdlib.controls, List.mem_cons, Prod.mk.injEq, List.not_mem_nil, or_false] at control
      rcases control with ⟨-, rfl⟩ | ⟨-, rfl⟩ | ⟨-, rfl⟩ <;>
        exact ⟨trivial, fun _ tagged => by cases tagged⟩
    · obtain ⟨place, bound, eq⟩ := List.mem_mapIdx.mp native
      cases eq
      have inside : place < Stdlib.registry.size := by simpa [Stdlib.registry] using bound
      exact ⟨Nat.lt_of_lt_of_le inside registered, fun _ tagged => by cases tagged⟩

theorem Constant.IsStandard.sound {constant : Constant} (standard : constant.IsStandard)
    (registered : Stdlib.registry.size ≤ natives) (topClosure : Handle) (heap : Heap) :
    constant.Sound (.script topClosure natives) heap := by
  cases constant with
  | value content => exact Value.IsStandard.sound standard registered topClosure heap
  | lambda inner =>
    intro v mentioned
    exact (standard v mentioned).sound registered topClosure heap

/-- Slots that exist already match the variables of their scope as long as their number stays. -/
theorem Compilation.Valid.onStore {law : Discipline} {st : Compilation}
    (valid : st.Valid law) {store : Store} (sound : store.heap.Sound law)
    (same : ∀ (scope : ScopeRef) (e : Scope) (inv : Handle) (proc : Option Handle)
      (slots : Array Value), st.scopes.stack[scope]? = some e → e.invocation = some inv →
        st.store.heap.get? inv = some (.invocation proc slots) →
          ∃ slots', store.heap.get? inv = some (.invocation proc slots') ∧
            slots'.size = slots.size) : Valid law { st with store } := by
  refine ⟨valid.scopes, valid.base, sound, ?_, valid.apart⟩
  intro scope e inv found anchored
  obtain ⟨proc, slots, held, n⟩ := valid.slots scope e inv found anchored
  obtain ⟨slots', held', size⟩ := same scope e inv proc slots found anchored held
  exact ⟨proc, slots', held', size.trans n⟩

namespace Machine

variable {m before mid after : Machine} {scopes : Scopes}

/-- `before.Grows after`: code has only been added at the end of the top level. -/
structure Grows (before after : Machine) : Prop where
  topClosure : after.topClosure = before.topClosure
  code (lambda : Lambda) (parent : Option Handle) :
    before.heap.get? before.topClosure = some (.closure lambda parent) → ∃ lambda',
      after.heap.get? after.topClosure = some (.closure lambda' parent) ∧ lambda.Grows lambda'

theorem Grows.refl (m : Machine) : m.Grows m :=
  ⟨rfl, fun lam _ held => ⟨lam, held, .refl lam⟩⟩

theorem Grows.trans (first : before.Grows mid) (second : mid.Grows after) : before.Grows after := by
  refine ⟨second.topClosure.trans first.topClosure, fun lam parent held => ?_⟩
  obtain ⟨lam', held', grows⟩ := first.code lam parent held
  obtain ⟨lam'', held'', grows'⟩ := second.code lam' parent held'
  exact ⟨lam'', held'', grows.trans grows'⟩

/-- `before.Rests after`: the code of the top level is what it was. -/
structure Rests (before after : Machine) : Prop where
  topClosure : after.topClosure = before.topClosure
  code (lambda : Lambda) (parent : Option Handle) :
    before.heap.get? before.topClosure = some (.closure lambda parent) →
      after.heap.get? after.topClosure = some (.closure lambda parent)

theorem Rests.refl (m : Machine) : m.Rests m :=
  ⟨rfl, fun _ _ held => held⟩

theorem Rests.trans (first : before.Rests mid) (second : mid.Rests after) : before.Rests after :=
  ⟨second.topClosure.trans first.topClosure, fun lam parent held =>
    second.code lam parent (first.code lam parent held)⟩

theorem Rests.grows (rests : before.Rests after) : before.Grows after :=
  ⟨rests.topClosure, fun lam parent held =>
    ⟨lam, rests.code lam parent held, .refl lam⟩⟩

theorem Maintains.rests (maintains : before.Maintains after) : before.Rests after := by
  refine ⟨maintains.anchors.topClosure, fun lam parent held => ?_⟩
  rw [maintains.anchors.topClosure]
  exact maintains.steady.closure _ lam parent held

/-- The code of the top level: its slots are in the invocation of the top level, within those of the
global scope. Constants that it does not have yet belong to code that was never loaded. -/
structure Script (machine : Machine) (scopes : Scopes) (lambda : Lambda) : Prop where
  invocation : ∃ slots, machine.heap.get? machine.topLevel =
    some (.invocation (some machine.topClosure) slots)
  closure : machine.heap.get? machine.topClosure = some (.closure lambda (some machine.global))
  constants : ∃ added, scopes.constants topLevelScope = lambda.constants ++ added

structure Serves (machine : Machine) (scopes : Scopes) : Prop where
  sound : machine.Sound machine.discipline
  tame (id : NativeId) (native : Native) : machine.natives[id]? = some native →
    ∀ limit, id < limit → native.Tame (.script machine.topClosure limit)
  /-- Code may contain the standard procedures. -/
  standard : Stdlib.registry.size ≤ machine.natives.size
  compilation : Compilation.Valid machine.discipline { scopes, store := machine.store }
  size : scopes.stack.size = 2
  global : ∃ entry : Scope, scopes.stack[globalScope]? = some entry ∧
    entry.invocation = some machine.global
  topLevel : ∃ entry : Scope, scopes.stack[topLevelScope]? = some entry ∧
    entry.syntactic = false ∧ entry.invocation = some machine.topLevel
  script : ∃ lambda, machine.Script scopes lambda

variable {scopes' : Scopes} {lam : Lambda}

/-- What has to be shown after the machine has worked and scopes have grown. -/
theorem Serves.move (serves : before.Serves scopes) (anchors : before.Anchors after)
    (sound : after.Sound before.discipline)
    (valid : Compilation.Valid before.discipline { scopes := scopes', store := after.store })
    (further : scopes.Extends scopes') (size : scopes'.stack.size = 2)
    (script : ∃ lam, after.Script scopes' lam) : after.Serves scopes' := by
  obtain ⟨e, found, held⟩ := serves.global
  obtain ⟨e', found', evolves⟩ := further.embeds _ _ found
  obtain ⟨top, top_found, plain, top_held⟩ := serves.topLevel
  obtain ⟨top', top_found', top_evolves⟩ := further.embeds _ _ top_found
  have same := anchors.discipline
  constructor
  · exact same ▸ sound
  · rw [anchors.natives, anchors.topClosure]
    exact serves.tame
  · rw [anchors.natives]
    exact serves.standard
  · exact same ▸ valid
  · exact size
  · rw [anchors.global]
    exact ⟨e', found', evolves.invocation.trans held⟩
  · rw [anchors.topLevel]
    exact ⟨top', top_found', top_evolves.syntactic.trans plain, top_evolves.invocation.trans top_held⟩
  · exact script

theorem Script.move (script : before.Script scopes lam) (serves : before.Serves scopes)
    (anchors : before.Anchors after) (persists : before.heap.Persists after.heap)
    (closures : ∀ lam parent, before.heap.get? before.topClosure = some (.closure lam parent) →
      after.heap.get? before.topClosure = some (.closure lam parent))
    (further : scopes.Extends scopes') : after.Script scopes' lam := by
  obtain ⟨slots, held⟩ := script.invocation
  obtain ⟨slots', held', -⟩ := persists.invocation _ _ _ held
  obtain ⟨added, eq⟩ := script.constants
  obtain ⟨added', eq'⟩ := further.embeds.constants serves.compilation.scopes.toNested
    serves.compilation.base
  refine ⟨⟨slots', ?_⟩, ?_, added ++ added', ?_⟩
  · rw [anchors.topLevel, anchors.topClosure]
    exact held'
  · rw [anchors.topClosure, anchors.global]
    exact closures lam _ script.closure
  · rw [eq', eq, Array.append_assoc]

theorem Serves.advance (serves : m.Serves scopes) {store : Store}
    (valid : Compilation.Valid m.discipline { scopes := scopes', store })
    (further : scopes.Extends scopes') (size : scopes'.stack.size = 2)
    (widens : m.heap.Widens m.discipline store.heap) :
    Serves { m with store } scopes' ∧ m.Rests { m with store } := by
  have closures (lam : Lambda) (parent : Option Handle)
      (held : m.heap.get? m.topClosure = some (.closure lam parent)) :
      store.heap.get? m.topClosure = some (.closure lam parent) :=
    (widens.code _ _ (.inl rfl)).mp held
  have anchors : m.Anchors { m with store } := ⟨rfl, rfl, rfl, rfl⟩
  have sound : Sound m.discipline { m with store } :=
    serves.sound.move anchors widens.sound widens.keeps (serves.sound.control.mono widens.keeps)
  obtain ⟨lam, script⟩ := serves.script
  have script' := script.move serves anchors widens.persists closures further
  exact ⟨serves.move anchors sound valid further size ⟨lam, script'⟩, rfl, closures⟩

theorem Serves.maintain (serves : before.Serves scopes) (maintains : before.Maintains after)
    (sound : after.Sound before.discipline) : after.Serves scopes := by
  have steady := maintains.steady
  have valid : Compilation.Valid before.discipline { scopes, store := after.store } :=
    serves.compilation.onStore sound.heap fun _ _ _ proc slots _ _ held =>
      steady.invocation _ proc slots held
  obtain ⟨lam, script⟩ := serves.script
  have script' := script.move serves maintains.anchors steady.persists
    (fun lam parent held => steady.closure _ lam parent held) (.refl scopes)
  exact serves.move maintains.anchors sound valid (.refl scopes) serves.size ⟨lam, script'⟩

/-- Code of the top level sees the slots of the outermost two scopes. -/
theorem Serves.shape (serves : m.Serves scopes) : ∃ e top : Scope,
    scopes.stack[globalScope]? = some e ∧ scopes.stack[topLevelScope]? = some top ∧
      scopes.shape topLevelScope = [top.variableCount, e.variableCount] ∧
      scopes.constants topLevelScope = top.constants := by
  obtain ⟨e, found, held⟩ := serves.global
  obtain ⟨top, top_found, plain, top_held⟩ := serves.topLevel
  have nested := serves.compilation.scopes.toNested
  obtain ⟨parent, inside, below⟩ := nested.inner 0 top top_found
  cases Nat.le_zero.mp below
  obtain ⟨root, slotted⟩ := nested.outermost e found
  refine ⟨e, top, found, top_found, ?_, ?_⟩
  · rw [Scopes.shape_of_slots top_found inside (Nat.lt_succ_self 0) plain]
    exact congrArg _ (Scopes.shape_of_root found root slotted)
  · apply Scopes.constants_eq
    rw [Scopes.owner_of_root top_found plain]
    exact top_found

/-- The code of the top level after more was loaded has all constants of its scope. -/
theorem constants_extend {constants added : Array Constant}
    (eq : constants = lam.constants ++ added) (code : Bytecode) :
    (extend lam constants code).constants = constants := by
  subst eq
  simp [extend]

theorem Script.get?_loaded (script : m.Script scopes lam) (code : Bytecode) :
    (m.loaded lam (scopes.constants topLevelScope) code).heap.get? m.topClosure =
      some (.closure (extend lam (scopes.constants topLevelScope) code) (some m.global)) := by
  change (m.heap.modifyLambda _ _).get? _ = _
  rw [Heap.get?_modifyLambda, script.closure]
  simp

theorem Serves.load (serves : m.Serves scopes) {lam : Lambda}
    (script : m.Script scopes lam) (code : Bytecode) :
    m.append (scopes.constants topLevelScope) code =
        .ok (m.loaded lam (scopes.constants topLevelScope) code) ∧
      (m.loaded lam (scopes.constants topLevelScope) code).Serves scopes ∧
      m.Grows (m.loaded lam (scopes.constants topLevelScope) code) := by
  have appended := append_eq (Heap.closure?_eq_some_iff.mpr script.closure)
    (scopes.constants topLevelScope) code
  obtain ⟨added, constants⟩ := script.constants
  obtain ⟨slots, held⟩ := script.invocation
  have extended := constants_extend constants code
  obtain ⟨-, top, -, found, -, own⟩ := serves.shape
  have constants_sound : ∀ constant ∈ scopes.constants topLevelScope,
      constant.Sound m.discipline m.heap := by
    intro constant mem
    rw [own] at mem
    exact ((serves.compilation.scopes.entries _ top found).constants constant mem).sound
      serves.standard m.topClosure m.heap
  have sound := serves.sound.append constants_sound appended
  have present := script.get?_loaded code
  have persists : m.heap.Persists (m.loaded lam (scopes.constants topLevelScope) code).heap :=
    .modifyLambda m.heap m.topClosure _
  have anchors : m.Anchors (m.loaded lam (scopes.constants topLevelScope) code) :=
    ⟨rfl, rfl, rfl, rfl⟩
  refine ⟨appended, serves.move anchors sound ?_ (.refl scopes) serves.size
    ⟨_, ?_, present, #[], ?_⟩, rfl, ?_⟩
  · apply serves.compilation.onStore sound.heap
    intro _ _ inv proc slots' _ _ (held' : m.heap.get? inv = _)
    refine ⟨slots', ?_, rfl⟩
    change (m.heap.modifyLambda _ _).get? _ = _
    rw [Heap.get?_modifyLambda, held']
    split <;> rfl
  · obtain ⟨slots', held', -⟩ := persists.invocation _ _ _ held
    exact ⟨slots', held'⟩
  · rw [extended, Array.append_empty]
  · intro lam' parent held'
    cases Option.some.inj (script.closure.symm.trans held')
    refine ⟨_, present, ⟨added, ?_⟩, ?_, rfl⟩
    · rw [extended, constants]
    · simp [extend]

/-- Only the outermost two scopes have slots that exist before their code runs. -/
theorem Serves.anchored (serves : m.Serves scopes) {scope : ScopeRef} {e : Scope}
    {inv : Handle} (found : scopes.stack[scope]? = some e)
    (anchored : e.invocation = some inv) : inv = m.global ∨ inv = m.topLevel := by
  have bound := lt_size found
  rw [serves.size] at bound
  match scope with
  | 0 =>
    obtain ⟨e', found', held⟩ := serves.global
    cases Option.some.inj (found.symm.trans found')
    exact .inl (Option.some.inj (anchored.symm.trans held))
  | 1 =>
    obtain ⟨e', found', -, held⟩ := serves.topLevel
    cases Option.some.inj (found.symm.trans found')
    exact .inr (Option.some.inj (anchored.symm.trans held))

theorem Serves.collect (serves : m.Serves scopes) :
    m.collect.2.Serves scopes ∧ m.Rests m.collect.2 := by
  obtain ⟨journal, collected⟩ := m.collect_eq
  have anchors : m.Anchors m.collect.2 := by
    rw [collected]
    exact ⟨rfl, rfl, rfl, rfl⟩
  have survives {h : Handle} {obj : Object} (held : m.heap.get? h = some obj)
      (mem : h ∈ [m.global, m.topLevel, m.topClosure]) : m.collect.2.heap.get? h = some obj := by
    rw [collected]
    exact Heap.get?_collect_of_reachable held (.root (List.mem_append_right _ mem))
  obtain ⟨lam, ⟨⟨slots, held⟩, closure, constants⟩⟩ := serves.script
  have closure' := survives closure (by simp)
  refine ⟨serves.move anchors serves.sound.collect ?_ (.refl scopes) serves.size
    ⟨lam, ⟨slots, ?_⟩, ?_, constants⟩, anchors.topClosure, ?_⟩
  · apply serves.compilation.onStore serves.sound.collect.heap
    intro scope e inv proc slots' found anchored held'
    refine ⟨slots', survives held' ?_, rfl⟩
    rcases serves.anchored found anchored with rfl | rfl <;> simp
  · rw [anchors.topLevel, anchors.topClosure]
    exact survives held (by simp)
  · rw [anchors.topClosure, anchors.global]
    exact closure'
  · intro lam' parent held'
    cases Option.some.inj (closure.symm.trans held')
    rw [anchors.topClosure]
    exact closure'

theorem implies_script (topClosure : Handle) {fewer more : Nat} (less : fewer ≤ more) :
    (Discipline.script topClosure fewer).Implies (.script topClosure more) := by
  constructor
  · intro v allowed
    cases v with
    | native id => exact Nat.lt_of_lt_of_le allowed less
    | _ => exact allowed
  · exact fun _ guarded => guarded

theorem Serves.addNative (serves : m.Serves scopes) {native : Native}
    (tame : ∀ limit, m.natives.size < limit → native.Tame (.script m.topClosure limit)) :
    (m.addNative native).2.Serves scopes := by
  have implies : m.discipline.Implies (m.addNative native).2.discipline := by
    apply implies_script
    simp [Machine.addNative]
  have tame' (id : NativeId) (other : Native)
      (found : (m.natives.push native)[id]? = some other) (limit : Nat) (bound : id < limit) :
      other.Tame (.script m.topClosure limit) := by
    rw [Array.getElem?_push] at found
    split at found
    · rename_i last
      cases found
      exact tame limit (last ▸ bound)
    · exact serves.tame id other found limit bound
  have sound := serves.sound
  have natives_sound : ∀ other ∈ m.natives.push native,
      other.Sound (m.addNative native).2.discipline := by
    intro other mem
    obtain ⟨id, found⟩ := Array.mem_iff_getElem?.mp mem
    exact (tame' id other found _ (lt_size found)).sound
  have closures (h : Handle) (distinct : h ≠ m.topClosure) :
      (m.addNative native).2.discipline.allows (.closure h) := distinct
  constructor
  · exact ⟨sound.heap.relax implies, sound.control.relax implies, sound.global, sound.topLevel,
      sound.topClosure, natives_sound, closures, fun _ => trivial⟩
  · exact tame'
  · exact Nat.le_trans serves.standard (by simp [Machine.addNative])
  · have valid := serves.compilation
    exact ⟨valid.scopes, valid.base, valid.heap.relax implies, valid.slots, valid.apart⟩
  · exact serves.size
  · exact serves.global
  · exact serves.topLevel
  · obtain ⟨lam, script⟩ := serves.script
    exact ⟨lam, script.invocation, script.closure, script.constants⟩

/-- The slots are where code of the top level looks for them. -/
theorem Serves.encloses (serves : m.Serves scopes) :
    m.heap.Encloses (scopes.shape topLevelScope) m.topLevel := by
  obtain ⟨e, top, found, top_found, shape, -⟩ := serves.shape
  obtain ⟨_, found', held⟩ := serves.global
  cases Option.some.inj (found.symm.trans found')
  obtain ⟨_, top_found', -, top_held⟩ := serves.topLevel
  cases Option.some.inj (top_found.symm.trans top_found')
  obtain ⟨lam, ⟨⟨slots, present⟩, closure, -⟩⟩ := serves.script
  obtain ⟨_, globals, present', n⟩ := serves.compilation.slots _ e _ found held
  obtain ⟨_, _, top_present, top_count⟩ := serves.compilation.slots _ top _ top_found top_held
  cases Option.some.inj (present.symm.trans top_present)
  rw [shape]
  exact .inside present (Nat.le_of_eq top_count.symm) closure
    (.outermost present' (Nat.le_of_eq n.symm))

end Machine

/-- A check that operands can count the bytes and slots of a procedure and of those in it, which are
nested to less than a given depth. -/
def Lambda.fitsWithin : Nat → Lambda → Bool
  | 0, _ => false
  | depth + 1, lambda =>
    decide (lambda.body.size < operandLimit ∧ lambda.slotCount ≤ operandLimit) &&
      lambda.constants.all fun
        | .value _ => true
        | .lambda inner => inner.fitsWithin depth

theorem Lambda.fits_of_fitsWithin {depth : Nat} {lam : Lambda}
    (checked : lam.fitsWithin depth = true) : lam.Fits := by
  intro inner nests
  induction nests generalizing depth with
  | self =>
    cases depth with
    | zero => cases checked
    | succ depth =>
      simp only [fitsWithin, Bool.and_eq_true, decide_eq_true_eq] at checked
      exact checked.1
  | inside mem _ ih =>
    cases depth with
    | zero => cases checked
    | succ depth =>
      simp only [fitsWithin, Bool.and_eq_true, Array.all_eq_true_iff_forall_mem] at checked
      exact ih (checked.2 _ mem)

namespace Session

variable {s before mid after : Session} {scopes : Scopes} {store : Store}

/-- Operands can count the bytes, the slots and the constants of all code. -/
structure Fits (session : Session) : Prop where
  slots : ∀ entry ∈ session.scopes.stack, entry.variableCount ≤ operandLimit
  constants : ∀ entry ∈ session.scopes.stack, entry.constants.size ≤ operandLimit
  code (lambda : Lambda) (parent : Option Handle) :
    session.heap.get? session.machine.topClosure = some (.closure lambda parent) → lambda.Fits

def fitsWithin (depth : Nat) (session : Session) : Bool :=
  session.scopes.stack.all (fun entry =>
    decide (entry.variableCount ≤ operandLimit ∧ entry.constants.size ≤ operandLimit)) &&
  (session.heap.closure? session.machine.topClosure).all fun (lambda, _) => lambda.fitsWithin depth

theorem fits_of_fitsWithin {depth : Nat} (checked : s.fitsWithin depth = true) : s.Fits := by
  simp only [fitsWithin, Bool.and_eq_true, Array.all_eq_true_iff_forall_mem,
    decide_eq_true_eq] at checked
  obtain ⟨scopes, code⟩ := checked
  refine ⟨fun e mem => (scopes e mem).1, fun e mem => (scopes e mem).2, fun lam parent held => ?_⟩
  rw [Heap.closure?_eq_some_iff.mpr held] at code
  exact Lambda.fits_of_fitsWithin code

/-- `before.Precedes after`: scopes and code have only grown. -/
structure Precedes (before after : Session) : Prop where
  scopes : before.scopes.Extends after.scopes
  machine : before.machine.Grows after.machine

theorem Precedes.refl (s : Session) : s.Precedes s :=
  ⟨.refl _, .refl _⟩

theorem Precedes.trans (first : before.Precedes mid) (second : mid.Precedes after) :
    before.Precedes after :=
  ⟨first.scopes.trans second.scopes, first.machine.trans second.machine⟩

/-- What is small enough in the end was so all along. -/
theorem Precedes.fits (precedes : before.Precedes after) (fits : after.Fits) : before.Fits := by
  have evolved (e : Scope) (mem : e ∈ before.scopes.stack) : ∃ e' : Scope,
      e' ∈ after.scopes.stack ∧ e.Evolves e' := by
    obtain ⟨scope, found⟩ := Array.mem_iff_getElem?.mp mem
    obtain ⟨e', found', evolves⟩ := precedes.scopes.embeds scope e found
    exact ⟨e', Array.mem_iff_getElem?.mpr ⟨scope, found'⟩, evolves⟩
  constructor
  · intro e mem
    obtain ⟨e', mem', evolves⟩ := evolved e mem
    exact Nat.le_trans evolves.slots (fits.slots e' mem')
  · intro e mem
    obtain ⟨e', mem', evolves⟩ := evolved e mem
    obtain ⟨added, eq⟩ := evolves.constants
    have bound := fits.constants e' mem'
    rw [eq, Array.size_append] at bound
    exact Nat.le_trans (Nat.le_add_right ..) bound
  · intro lam parent held
    obtain ⟨lam', held', grows⟩ := precedes.machine.code lam parent held
    exact grows.fits (fits.code lam' parent held')

/-- The session after its scopes and its store have changed. -/
def advanced (session : Session) (scopes : Scopes) (store : Store) : Session :=
  { session with machine := { session.machine with store }, scopes }

/-- `session.Advances scopes store`: what compiling may do to the scopes and the store. -/
abbrev Advances (session : Session) (scopes : Scopes) (store : Store) : Prop :=
  Compilation.Advances session.machine.discipline
    { scopes := session.scopes, store := session.machine.store } { scopes, store }

theorem roomy_of_serves (serves : s.machine.Serves s.scopes) {scope : ScopeRef}
    (bound : scope < 2) : Compilation.Roomy s.machine.discipline (Compiler.maxDepth + 1) scope
      { scopes := s.scopes, store := s.machine.store } :=
  ⟨serves.compilation, serves.size.symm ▸ bound, by rw [serves.size]; decide⟩

/-- Compiling leaves the session with more variables and constants, and with sane code if it
succeeds. -/
theorem compile_spec (serves : s.machine.Serves s.scopes) (d : Datum)
    {scope : ScopeRef} (bound : scope < 2) : ∃ out scopes store,
      s.compile d scope = (out, s.advanced scopes store) ∧
      s.Advances scopes store ∧ scopes.stack.size = 2 ∧
      ∀ code, out = .ok code → ∀ setting : Setting, setting.level = .script →
        setting.Hosts scopes scope → code.size ≤ operandLimit → code.Proper setting := by
  have size := serves.size
  obtain ⟨top, found, -, anchored⟩ := serves.topLevel
  have meets := Compiler.meets_compileTopLevel (roomy_of_serves serves bound) d
  cases compiled : Compiler.compileTopLevel d scope
      { scopes := s.scopes, store := s.machine.store } with
  | ok code after =>
    rw [compiled] at meets
    obtain ⟨advances, n, proper, -⟩ := meets
    refine ⟨.ok code, after.scopes, after.store, ?_, advances, n.trans size, ?_⟩
    · simp only [compile, Machine.onStore, compiled]
      rfl
    · rintro _ ⟨⟩
      exact proper
  | error error after =>
    rw [compiled] at meets
    cases rolled : after.scopes.rollback s.scopes.checkpoint after.store.heap with
    | mk scopes heap =>
      obtain ⟨advances, n⟩ := meets.rollback serves.compilation size found anchored rolled
      refine ⟨.error error, scopes, { after.store with heap }, ?_, advances, n, nofun⟩
      simp only [compile, Machine.onStore, compiled, Store.onHeap, rolled]
      rfl

theorem serves_advanced (serves : s.machine.Serves s.scopes)
    (advances : s.Advances scopes store) (size : scopes.stack.size = 2) :
    (s.advanced scopes store).machine.Serves scopes ∧
      s.machine.Rests (s.advanced scopes store).machine :=
  serves.advance advances.valid advances.scopes size advances.widens

def loaded (session : Session) (lambda : Lambda) (code : Bytecode) : Session :=
  { session with
    machine := session.machine.loaded lambda (session.scopes.constants topLevelScope) code }

/-- Loading a datum fails because it does not compile, or leaves the machine at the start of sane
code. -/
theorem load_spec (serves : s.machine.Serves s.scopes) (d : Datum) :
    ∃ scopes store, s.Advances scopes store ∧ scopes.stack.size = 2 ∧
      ((∃ error, s.compile d topLevelScope = (.error error, s.advanced scopes store) ∧
          s.load d = (.error (.ofCompile error), s.advanced scopes store)) ∨
        ∃ code lam, s.compile d topLevelScope = (.ok code, s.advanced scopes store) ∧
          s.load d = (.ok (), (s.advanced scopes store).loaded lam code) ∧
          (s.advanced scopes store).machine.Script scopes lam ∧
          ∀ setting : Setting, setting.level = .script → setting.Hosts scopes topLevelScope →
            code.size ≤ operandLimit → code.Proper setting) := by
  have bound : topLevelScope < 2 := Nat.lt_succ_self 1
  obtain ⟨out, scopes, store, compiled, advances, size, proper⟩ := compile_spec serves d bound
  obtain ⟨serves', -⟩ := serves_advanced serves advances size
  refine ⟨scopes, store, advances, size, ?_⟩
  cases out with
  | error error => exact .inl ⟨error, compiled, by rw [load, compiled]⟩
  | ok code =>
    obtain ⟨lam, script⟩ := serves'.script
    obtain ⟨appended, -⟩ := serves'.load script code
    refine .inr ⟨code, lam, compiled, ?_, script, proper code rfl⟩
    rw [load, compiled]
    simp only [advanced] at appended ⊢
    simp only [appended]
    rfl

end Session

end MiniScheme
