import MiniScheme.Proofs.Core.Running
import MiniScheme.Proofs.Heap.Depiction
import MiniScheme.Proofs.Session.Safety
import Mathlib.Computability.Primrec.List

/-!
# Code of templates

The plan of a template in which nothing is to be evaluated compiles to code that builds the template:
calls of three standard procedures, applied to constants. Running the code leaves a value that
depicts the template, as quoting the template does.
-/

namespace MiniScheme

open Quasi Heap

/-! ### Standard procedures that put values together -/

namespace Stdlib

def Provides (name : String) (native : Native) : Prop :=
  ∃ id, procedure? name = some (.native id) ∧ registry[id]? = some native

def Answers (native : Native) (arguments : List Value) (heap : Heap) (built : Value × Heap) :
    Prop :=
  native.arity.accepts arguments.length = true ∧ ∀ store : Store, store.heap = heap →
    ∃ after, native.run arguments store = .ok (some built.1) after ∧ after.heap = built.2

theorem provides_list : Provides "list" (.prompt "list" 0 true (enlist fun _ => .ok)) :=
  ⟨_, rfl, rfl⟩

theorem provides_append : Provides "append" (.prompt "append" 0 true (perform append)) :=
  ⟨_, rfl, rfl⟩

theorem provides_listToVector :
    Provides "list->vector" (.prompt "list->vector" 1 false (envector listToVector)) :=
  ⟨_, rfl, rfl⟩

variable {heap : Heap}

theorem answers_list (vals : List Value) :
    Answers (.prompt "list" 0 true (enlist fun _ => .ok)) vals heap (heap.list vals) := by
  refine ⟨?_, ?_⟩
  · simp only [Native.prompt, Arity.accepts]
    cases vals <;> rfl
  · rintro store rfl
    exact ⟨_, rfl, rfl⟩

theorem answers_perform {plan : Store → List Value → Except Fault Effect} {args : List Value}
    {store : Store} (effect : Effect) (decided : plan store args = .ok effect) :
    ∃ after, (some <$> perform plan args) store = .ok (some (effect.apply store).1) after ∧
      after.heap = (effect.apply store).2.heap := by
  refine ⟨(effect.apply store).2, ?_, rfl⟩
  change EStateM.map some (perform plan args) store = _
  rw [EStateM.map, perform, decided]

theorem answers_append {front last : Value} {vals : List Value}
    (spells : heap.Spells front vals) : Answers (.prompt "append" 0 true (perform append)) [front, last]
      heap (heap.listWithTail vals last) := by
  refine ⟨rfl, ?_⟩
  rintro store rfl
  have found : append store [front, last] = .ok (.list (vals ++ []) last) := by
    simp only [append, appended, elements, elements?_eq_some_iff.mpr spells]
    rfl
  rw [List.append_nil] at found
  exact answers_perform (.list vals last) found

theorem answers_append_one (last : Value) :
    Answers (.prompt "append" 0 true (perform append)) [last] heap (last, heap) := by
  refine ⟨rfl, ?_⟩
  rintro store rfl
  exact ⟨_, rfl, rfl⟩

theorem answers_listToVector {list : Value} {vals : List Value} (spells : heap.Spells list vals) :
    Answers (.prompt "list->vector" 1 false (envector listToVector)) [list] heap
      (heap.vector vals.toArray) := by
  refine ⟨rfl, ?_⟩
  rintro store rfl
  have found : listToVector store.heap [list] = .ok vals.toArray := by
    simp only [listToVector, unary, elements, elements?_eq_some_iff.mpr spells]
    rfl
  refine answers_perform (.vector vals.toArray) ?_
  exact congrArg (Effect.vector <$> ·) found

end Stdlib

namespace Machine

variable {m : Machine} {rest : List UInt8}

theorem pushAll_append (vals vals' : List Value) (m : Machine) :
    m.pushAll (vals ++ vals') = (m.pushAll vals).pushAll vals' := by
  simp only [pushAll, List.reverse_append, List.length_append, List.append_assoc, Nat.add_assoc]
  rfl

/-- A native procedure that answers at once leaves its answer on the stack. -/
theorem proceeds_native {id : NativeId} {native : Native} {args : List Value} {store : Store}
    {built : Value × Heap} {pc : Nat} (counted : m.current.operandCount < 2 ^ 64)
    (here : m.current.lambda.body.rest pc = Op.call.toByte :: rest)
    (registered : m.natives[id]? = some native)
    (answers : Stdlib.Answers native args store.heap built) :
    ∃ after : Store, after.heap = built.2 ∧
      ((m.moved pc store).saving.pushAll (.native id :: args)).Proceeds
        ((m.moved (pc + 1) after).push built.1) := by
  let ready := (m.moved pc store).saving.pushAll (.native id :: args)
  obtain ⟨journal, -, carried, -⟩ := exists_step ready here
  let facing := ready.moved (pc + 1) { store with journal }
  have taken : operands facing = .ok (.native id, args) (m.moved (pc + 1) { store with journal }) :=
    @operands_saving (m.moved pc store) counted ..
  obtain ⟨accepted, runs⟩ := answers
  obtain ⟨after, answered, heap⟩ := runs { store with journal } rfl
  refine ⟨after, heap, carried _ ?_⟩
  have called : step .call pc facing =
      callNative id args false (m.moved (pc + 1) { store with journal }) := by
    rw [step, MachineM.bind_apply, taken]
    rfl
  refine called.trans ?_
  rw [@callNative_eq (m.moved (pc + 1) { store with journal }) _ _ registered, if_pos accepted]
  simp only [moved, answered]
  rfl

end Machine

/-! ### Compiling in a scope -/

/-- Code can be compiled in the scope. -/
structure Compilation.Prepared (scope : ScopeRef) (state : Compilation) : Prop where
  valid : state.scopes.Valid
  bound : scope < state.scopes.stack.size
  consistent : state.store.heap.Consistent

/-- Compiling has added objects, and constants to those of the scope. -/
structure Compilation.Adds (scope : ScopeRef) (before after : Compilation) : Prop where
  prepared : after.Prepared scope
  heap : before.store.heap.Preserves after.store.heap
  constants (index : Nat) (constant : Constant) :
    (before.scopes.constants scope)[index]? = some constant →
      (after.scopes.constants scope)[index]? = some constant

/-- The machine is in a procedure for which code has been compiled in the scope: it has the
constants, and everything that compiling has built. -/
structure Machine.Suits (scope : ScopeRef) (state : Compilation) (machine : Machine) : Prop where
  constants (index : Nat) (constant : Constant) :
    (state.scopes.constants scope)[index]? = some constant →
      machine.current.lambda.constants[index]? = some constant
  addressable : machine.current.lambda.Addressable
  natives (id : NativeId) (native : Native) : Stdlib.registry[id]? = some native →
    machine.natives[id]? = some native
  heap : state.store.heap.Adds machine.heap

namespace Compilation.Adds

variable {scope : ScopeRef} {st before mid after : Compilation}

theorem refl (prepared : st.Prepared scope) : st.Adds scope st :=
  ⟨prepared, fun _ _ held => held, fun _ _ found => found⟩

theorem trans (first : before.Adds scope mid) (second : mid.Adds scope after) :
    before.Adds scope after :=
  ⟨second.prepared, fun _ _ held => second.heap _ _ (first.heap _ _ held),
    fun _ _ found => second.constants _ _ (first.constants _ _ found)⟩

theorem suits (adds : before.Adds scope after) {m : Machine}
    (suits : m.Suits scope after) : m.Suits scope before :=
  ⟨fun _ _ found => suits.constants _ _ (adds.constants _ _ found), suits.addressable,
    suits.natives, fun _ _ held => suits.heap.preserves _ _ (adds.heap _ _ held),
    suits.heap.consistent⟩

theorem constant (prepared : st.Prepared scope) {v : Value} (standard : v.IsStandard) :
    ∃ index after, CompileM.constant scope v st = .ok (.ofOp .constant [.ofNat index]) after ∧
      st.Adds scope after ∧ after.store = st.store ∧
      (after.scopes.constants scope)[index]? = some (.value v) := by
  have standard' : (Constant.value v).IsStandard := standard
  let added := st.scopes.addConstant scope (.value v)
  obtain ⟨-, valid, -, -, constants⟩ := prepared.valid.addConstant prepared.bound standard'
  refine ⟨added.1, { st with scopes := added.2 }, rfl,
    ⟨⟨valid, ?_, prepared.consistent⟩, fun _ _ held => held, fun index constant found => ?_⟩, rfl, ?_⟩
  · exact (Scopes.size_modify ..).symm ▸ prepared.bound
  · obtain ⟨bound, same⟩ := Array.getElem?_eq_some_iff.mp found
    change (added.2.constants scope)[index]? = _
    rw [constants, Array.getElem?_push_lt bound, same]
  · change (added.2.constants scope)[added.1]? = _
    rw [constants]
    exact Array.getElem?_push_size

theorem quoted (prepared : st.Prepared scope) (d : Datum) :
    ∃ index v after, CompileM.quoted scope d st = .ok (.ofOp .constant [.ofNat index]) after ∧
      st.Adds scope after ∧ after.store.heap.Depicts d v ∧
      (after.scopes.constants scope)[index]? = some (.value v) := by
  have built := adds_ofDatum prepared.consistent d
  let mid : Compilation :=
    { st with store := { st.store with heap := (st.store.heap.ofDatum d).2 } }
  have begun : st.Adds scope mid :=
    ⟨⟨prepared.valid, prepared.bound, built.consistent⟩, built.preserves, fun _ _ found => found⟩
  have standard : (st.store.heap.ofDatum d).1.IsStandard := .inl (isProcedure_ofDatum ..)
  obtain ⟨index, after, compiled, adds, same, found⟩ := constant begun.prepared standard
  refine ⟨index, _, after, compiled, begun.trans adds, ?_, found⟩
  rw [same]
  exact depicts_ofDatum prepared.consistent d

end Compilation.Adds

namespace Machine.Suits

variable {scope : ScopeRef} {st : Compilation} {m : Machine}

theorem pooled (suits : m.Suits scope st) {index : Nat} {constant : Constant}
    (found : (st.scopes.constants scope)[index]? = some constant) :
    m.current.lambda.constants[index]? = some constant ∧ index < operandLimit :=
  ⟨suits.constants _ _ found, Nat.lt_of_lt_of_le (lt_size (suits.constants _ _ found))
    suits.addressable.constants⟩

theorem onward (suits : m.Suits scope st) {after : Machine}
    (lam : after.current.lambda = m.current.lambda)
    (natives : after.natives = m.natives) (heap : m.heap.Adds after.heap) : after.Suits scope st :=
  ⟨by rw [lam]; exact suits.constants, lam.symm ▸ suits.addressable,
    by rw [natives]; exact suits.natives, suits.heap.trans heap⟩

end Machine.Suits

namespace Compiler

/-! ### Code that leaves values -/

/-- Running the bytes leaves values that depict the data, one above the other. -/
structure Leaves (scope : ScopeRef) (state : Compilation) (bytes : List UInt8) (data : List Datum) :
    Prop where
  length : data.length ≤ bytes.length
  runs {machine : Machine} {rest : List UInt8} : machine.Suits scope state →
    machine.current.operandCount + data.length ≤ 2 ^ 64 →
    machine.current.lambda.body.rest machine.current.pc = bytes ++ rest →
      ∃ values store, machine.heap.Adds store.heap ∧ store.heap.DepictsAll data values ∧
        machine.Proceeds ((machine.moved (machine.current.pc + bytes.length) store).pushAll values)

namespace Leaves

open Machine

variable {scope : ScopeRef} {st before after : Compilation} {bytes bytes' : List UInt8}
  {data data' : List Datum}

theorem nil : Leaves scope st [] [] :=
  ⟨le_rfl, fun {m} _ suits _ _ => ⟨[], m.store, .refl suits.heap.consistent, by
    rw [DepictsAll], by rw [pushAll_nil]; exact .refl m⟩⟩

theorem mono (adds : before.Adds scope after) (leaves : Leaves scope before bytes data) :
    Leaves scope after bytes data :=
  ⟨leaves.length, fun suits => leaves.runs (adds.suits suits)⟩

theorem append (first : Leaves scope st bytes data) (second : Leaves scope st bytes' data') :
    Leaves scope st (bytes ++ bytes') (data ++ data') := by
  refine ⟨?_, fun {m rest} suits counted here => ?_⟩
  · rw [List.length_append, List.length_append]
    exact Nat.add_le_add first.length second.length
  · rw [List.length_append] at counted
    rw [List.append_assoc] at here
    obtain ⟨vals, store, added, depict, proceeds⟩ := first.runs suits (by omega) here
    let mid := (m.past bytes.length store).pushAll vals
    have suits' : mid.Suits scope st := suits.onward rfl rfl added
    have counted' : mid.current.operandCount + data'.length ≤ 2 ^ 64 := by
      change m.current.operandCount + vals.length + data'.length ≤ 2 ^ 64
      rw [depict.length]
      omega
    obtain ⟨vals', store', added', depict', proceeds'⟩ :=
      second.runs suits' counted' (Bytecode.rest_add bytes here)
    refine ⟨vals ++ vals', store', added.trans added', .append (depict.mono added'.preserves)
      depict', ?_⟩
    rw [List.length_append, ← Nat.add_assoc, pushAll_append]
    exact proceeds.trans proceeds'

theorem constant {index : Nat} {v : Value} {d : Datum}
    (found : (st.scopes.constants scope)[index]? = some (.value v))
    (depicts : st.store.heap.Depicts d v) :
    Leaves scope st (Bytecode.ofOp .constant [.ofNat index]).stream [d] := by
  refine ⟨by simp, fun {m rest} suits _ here => ?_⟩
  obtain ⟨there, small⟩ := suits.pooled found
  obtain ⟨journal, -, proceeds⟩ := proceeds_constant here small there
  refine ⟨[v], { m.store with journal }, .refl suits.heap.consistent, ?_, ?_⟩
  · rw [DepictsAll]
    exact ⟨v, [], rfl, depicts.mono suits.heap.preserves, by rw [DepictsAll]⟩
  · rw [← pushAll_cons, pushAll_nil]
    exact proceeds

/-- A call of a standard procedure that is given values which depict data leaves one value. -/
theorem call {index : Nat} {id : NativeId} {native : Native} {d : Datum}
    (found : (st.scopes.constants scope)[index]? = some (.value (.native id)))
    (registered : Stdlib.registry[id]? = some native) (args : Leaves scope st bytes data)
    (answers : ∀ (heap : Heap) (vals : List Value), heap.Consistent →
      heap.DepictsAll data vals → ∃ built, Stdlib.Answers native vals heap built ∧
        heap.Adds built.2 ∧ built.2.Depicts d built.1) :
    Leaves scope st ((Bytecode.ofOp .resetOperandCount).stream ++
      ((Bytecode.ofOp .constant [.ofNat index]).stream ++ (bytes ++ [Op.call.toByte]))) [d] := by
  refine ⟨by simp, fun {m rest} suits counted here => ?_⟩
  rw [List.append_assoc, List.append_assoc, List.append_assoc] at here
  have few : 1 + data.length ≤ 2 ^ 64 := by
    have bound := args.length
    have length := congrArg List.length here
    have addressable := suits.addressable.code
    have limit : operandLimit < 2 ^ 64 := by decide
    simp only [Bytecode.length_rest, List.length_append] at length
    omega
  obtain ⟨journal, -, saved⟩ := proceeds_resetOperandCount here
  let saving := (m.past 1 { m.store with journal }).saving
  have there : saving.ahead = _ := Bytecode.rest_add _ here
  obtain ⟨pooled, small⟩ := suits.pooled found
  obtain ⟨journal', -, called⟩ := proceeds_constant there small pooled
  let pushed := (saving.past 5 { saving.store with journal := journal' }).push
    (.native id)
  have suits' : pushed.Suits scope st := suits.onward rfl rfl (.refl suits.heap.consistent)
  have behind : pushed.ahead = _ := Bytecode.rest_add _ there
  obtain ⟨vals, store, added, depict, proceeds⟩ := args.runs suits' few behind
  obtain ⟨built, answered, adds, depicts⟩ := answers store.heap vals added.consistent depict
  have counted' : m.current.operandCount < 2 ^ 64 := counted
  obtain ⟨after, heap, last⟩ := @proceeds_native m _ _ _ _ _ _ _ counted'
    (Bytecode.rest_add _ behind) (suits.natives _ _ registered) answered
  refine ⟨[built.1], after, heap ▸ added.trans adds, ?_, ?_⟩
  · rw [DepictsAll, heap]
    exact ⟨_, [], rfl, depicts, by rw [DepictsAll]⟩
  · have arrived : (pushed.past bytes.length store).pushAll vals =
        (m.moved (pushed.current.pc + bytes.length) store).saving.pushAll (.native id :: vals) := by
      rw [← pushAll_cons]
      rfl
    rw [arrived] at proceeds
    have total : m.current.pc + ((Bytecode.ofOp .resetOperandCount).stream ++
        ((Bytecode.ofOp .constant [.ofNat index]).stream ++ (bytes ++ [Op.call.toByte]))).length =
          pushed.current.pc + bytes.length + 1 := by
      change _ = m.current.pc + 1 + 5 + bytes.length + 1
      simp
      omega
    rw [total, ← pushAll_cons, pushAll_nil]
    exact ((saved.trans called).trans proceeds).trans last

end Leaves

/-! ### Plans without anything to be evaluated -/

section

variable {recur : Recur} {ctx : Context} {plans : List Quasi} {data xs : List Datum}
  {datum d tail : Datum} {pos place : Position}

def Yields (recur : Recur) (context : Context) (plan : Quasi) (datum : Datum) : Prop :=
  ∀ state : Compilation, state.Prepared context.scope → ∃ code after,
    quasi recur context plan state = .ok code after ∧ state.Adds context.scope after ∧
      Leaves context.scope after code.stream [datum]

theorem yields_constant (d : Datum) : Yields recur ctx (.constant d) d := by
  intro st prepared
  obtain ⟨index, v, after, compiled, adds, depicts, found⟩ := Compilation.Adds.quoted prepared d
  rw [quasi]
  exact ⟨_, after, compiled, adds, .constant found depicts⟩

theorem leaves_quasiAll (each : List.Forall₂ (Yields recur ctx) plans data) (code : Bytecode)
    {st : Compilation} (prepared : st.Prepared ctx.scope) : ∃ res bytes after,
      quasiAll recur ctx code plans st = .ok res after ∧
      res.stream = code.stream ++ bytes ∧ st.Adds ctx.scope after ∧
      Leaves ctx.scope after bytes data := by
  induction each generalizing code st with
  | nil => exact ⟨code, [], st, by rw [quasiAll]; rfl, by simp, .refl prepared, .nil⟩
  | cons first _ ih =>
    obtain ⟨v, mid, compiled, adds, leaves⟩ := first st prepared
    obtain ⟨res, bytes, after, compiled', stream, adds', leaves'⟩ := ih (code ++ v) adds.prepared
    refine ⟨res, v.stream ++ bytes, after, ?_, ?_, adds.trans adds',
      (leaves.mono adds').append leaves'⟩
    · rw [quasiAll, CompileM.bind_apply, compiled]
      exact compiled'
    · rw [stream, Bytecode.stream_append, List.append_assoc]

theorem yields_call {name : String} {native : Native} (provides : Stdlib.Provides name native)
    (each : List.Forall₂ (Yields recur ctx) plans data)
    (answers : ∀ (heap : Heap) (vals : List Value), heap.Consistent →
      heap.DepictsAll data vals → ∃ built, Stdlib.Answers native vals heap built ∧
        heap.Adds built.2 ∧ built.2.Depicts d built.1) :
    Yields recur ctx (.call name pos plans) d := by
  intro st prepared
  obtain ⟨id, named, registered⟩ := provides
  obtain ⟨index, mid, compiled, adds, -, found⟩ :=
    Compilation.Adds.constant prepared (Stdlib.isStandard_procedure? name)
  obtain ⟨res, bytes, after, compiled', stream, adds', leaves⟩ := leaves_quasiAll each
    (.ofOp .resetOperandCount ++ .ofOp .constant [.ofNat index]) adds.prepared
  have found' := adds'.constants _ _ found
  rw [named, Option.getD_some] at found'
  refine ⟨res ++ .ofOpAt .call pos, after, ?_, adds.trans adds', ?_⟩
  · rw [quasi, CompileM.bind_apply, compiled]
    simp only [CompileM.bind_apply, compiled']
    rfl
  · rw [Bytecode.stream_append, stream, Bytecode.stream_append, List.append_assoc, List.append_assoc]
    exact .call found' registered leaves answers

theorem yields_list (each : List.Forall₂ (Yields recur ctx) plans xs) :
    Yields recur ctx (.call "list" pos plans) (.list xs place) := by
  refine yields_call Stdlib.provides_list each fun heap vals sane depict => ?_
  have added := adds_listWithTail sane vals .emptyList
  refine ⟨_, Stdlib.answers_list vals, added, ?_⟩
  rw [Depicts]
  exact ⟨vals, chains_listWithTail sane _ _, depict.mono added.preserves⟩

/-- Lists are joined with what comes behind their elements. -/
theorem yields_append {plan : Quasi} (each : List.Forall₂ (Yields recur ctx) plans xs)
    (last : Yields recur ctx plan tail)
    (joined : ∀ (heap : Heap) (vals : List Value) (last v : Value),
      heap.Chains last v vals → heap.DepictsAll xs vals → heap.Depicts tail last →
        heap.Depicts d v) :
    Yields recur ctx (.call "append" pos
      ((if plans.isEmpty then [] else [.call "list" pos plans]) ++ [plan])) d := by
  cases each with
  | nil =>
    have each : List.Forall₂ (Yields recur ctx) [plan] [tail] := .cons last .nil
    refine yields_call Stdlib.provides_append each ?_
    intro heap vals sane depict
    simp only [DepictsAll] at depict
    obtain ⟨v, _, rfl, depicts, rfl⟩ := depict
    exact ⟨_, Stdlib.answers_append_one v, .refl sane,
      joined _ [] v v .nil (by rw [DepictsAll]) depicts⟩
  | @cons plan' item plans xs first others =>
    have front : Yields recur ctx (.call "list" pos (plan' :: plans))
        (.list (item :: xs) pos) := yields_list (.cons first others)
    refine yields_call Stdlib.provides_append (.cons front (.cons last .nil)) ?_
    intro heap vals sane depict
    simp only [DepictsAll] at depict
    obtain ⟨front, _, rfl, list, back, _, rfl, depicts, rfl⟩ := depict
    rw [Depicts] at list
    obtain ⟨vals, chains, depict⟩ := list
    have added := adds_listWithTail sane vals back
    exact ⟨_, Stdlib.answers_append (spells_iff.mpr chains), added,
      joined _ vals back _ (chains_listWithTail sane _ _)
        (depict.mono added.preserves) (depicts.mono added.preserves)⟩

theorem yields_vector {plan : Quasi} (list : Yields recur ctx plan (.list xs place)) :
    Yields recur ctx (.call "list->vector" pos [plan]) (.vector xs place) := by
  refine yields_call Stdlib.provides_listToVector (.cons list .nil) ?_
  intro heap vals sane depict
  simp only [DepictsAll] at depict
  obtain ⟨v, _, rfl, depicts, rfl⟩ := depict
  rw [Depicts] at depicts
  obtain ⟨vals, chains, depict⟩ := depicts
  have added := Adds.alloc sane (.vector vals.toArray)
  refine ⟨_, Stdlib.answers_listToVector (spells_iff.mpr chains), added, ?_⟩
  rw [Depicts]
  refine ⟨_, _, rfl, get?_alloc_self sane _, ?_⟩
  rw [List.toList_toArray]
  exact depict.mono added.preserves

/-- The parts of a list in which nothing is to be evaluated are elements. -/
theorem parts_eq_map {depth : Nat} (closed : ∀ item ∈ xs, (general depth item).isOpen = false) :
    xs.map (fun item => Quasi.Part.of depth item (general depth item)) =
      (xs.map (general depth)).map .element := by
  rw [List.map_map]
  refine List.map_congr_left fun item mem => ?_
  unfold Quasi.Part.of
  split
  · rename_i spliced
    cases (closed item mem).symm.trans (isOpen_of_splice spliced)
  · rfl

theorem yields_items {depth : Nat}
    (each : ∀ item ∈ xs, Yields recur ctx (general depth item) item) :
    List.Forall₂ (Yields recur ctx) (xs.map (general depth)) xs :=
  List.forall₂_map_left_iff.mpr (List.forall₂_same.mpr each)

/-- Without the shortcut, a template in which nothing is to be evaluated is built from its parts. -/
theorem yields_general {depth : Nat} (closed : (general depth d).isOpen = false) :
    Yields recur ctx (general depth d) d := by
  induction weight : d.weight using Nat.strongRecOn generalizing depth d with
  | ind weight ih =>
    rw [isOpen_general, Bool.or_eq_false_iff, List.any_eq_false] at closed
    have each (call : Nat × Datum) (mem : call ∈ Quasi.calls depth d) :
        (general call.1 call.2).isOpen = false ∧
          Yields recur ctx (general call.1 call.2) call.2 := by
      have shut := eq_false_of_ne_true (closed.2 call mem)
      exact ⟨shut, ih _ (weight ▸ weight_lt_of_mem_calls mem) shut rfl⟩
    rw [general_eq]
    cases found : abbreviation? d with
    | some abbreviation =>
      obtain ⟨head, mark, operand⟩ := abbreviation
      obtain ⟨_, _, place, -, -, rfl⟩ := abbreviation?_eq_some found
      -- where the mark does not apply to the template itself, it is kept
      have kept (depth' : Nat) (mem : (depth', operand) ∈ Quasi.calls depth _) :
          Yields recur ctx (.call "list" place [.constant head, general depth' operand])
            (.list [head, operand] place) :=
        yields_list (.cons (yields_constant head) (.cons (each _ mem).2 .nil))
      simp only [Quasi.calls, found] at kept
      cases mark <;> cases depth <;> simp_all [expand, asks, Datum.position]
    | none =>
      rw [expand_of_none found]
      have parts (part : Datum) (mem : part ∈ Quasi.parts d) :=
        each (depth, part) (by simp [Quasi.calls, found, mem])
      cases d with
      | atom v place => exact yields_constant _
      | vector xs place =>
        simp only [Quasi.parts] at parts
        simp only [Quasi.spread, parts_eq_map fun item mem => (parts item mem).1, join_map_element]
        exact yields_vector (yields_list (yields_items fun item mem => (parts item mem).2))
      | dotted xs tail place =>
        have items_closed (item : Datum) (mem : item ∈ xs) :=
          parts item (List.mem_append_left _ mem)
        simp only [Quasi.spread, parts_eq_map fun item mem => (items_closed item mem).1,
          join_map_element_tail]
        refine yields_append (yields_items fun item mem => (items_closed item mem).2)
          (parts tail (List.mem_append_right _ List.mem_cons_self)).2 ?_
        intro heap vals last v chains depict depicts
        rw [Depicts]
        exact ⟨vals, last, chains, depict, depicts⟩
      | list xs place =>
        simp only [Quasi.parts] at parts
        dsimp only [Quasi.spread]
        split at parts
        · rename_i front mark operand tail
          obtain ⟨rfl, -⟩ := unquotedTail?_eq_some tail
          have front_closed (item : Datum) (mem : item ∈ front) :=
            parts item (List.mem_append_left _ mem)
          simp only [parts_eq_map fun item mem => (front_closed item mem).1, join_map_element_tail]
          refine yields_append (yields_items fun item mem => (front_closed item mem).2)
            (parts _ (List.mem_append_right _ List.mem_cons_self)).2 ?_
          intro heap vals last v chains depict depicts
          rw [Depicts] at depicts ⊢
          obtain ⟨vals', chains', depict'⟩ := depicts
          exact ⟨vals ++ vals', chains.append chains', depict.append depict'⟩
        · simp only [parts_eq_map fun item mem => (parts item mem).1, join_map_element]
          exact yields_list (yields_items fun item mem => (parts item mem).2)

end

/-- A template that the shortcut takes for a constant is quoted as a whole. It is a constant but for
what is hidden in the operands of unquoted tails: that would be evaluated without the shortcut. Where
nothing is hidden, the plan that is compiled and the plan made without the shortcut lead to code that
leaves equal values, unless a float of the template is not equal to itself. -/
theorem quasiquote_shortcut_exact (recur : Recur) (context : Context) (depth : Nat) (datum : Datum)
    (constant : Quasi.isConstant depth datum = true) :
    Quasi.ofDatum depth datum = .constant datum ∧
    ((Quasi.general depth datum).isOpen = true ↔ Quasi.Hides depth datum) ∧
    (¬ Quasi.Hides depth datum → ∀ state : Compilation, state.Prepared context.scope →
      ∃ code code' middle after,
        quasi recur context (Quasi.ofDatum depth datum) state = .ok code middle ∧
        quasi recur context (Quasi.general depth datum) middle = .ok code' after ∧
        state.Adds context.scope after ∧
        ∀ (machine : Machine) (rest : List UInt8), machine.Suits context.scope after →
          machine.current.operandCount + 2 ≤ 2 ^ 64 →
          machine.current.lambda.body.rest machine.current.pc =
            code.stream ++ code'.stream ++ rest →
          ∃ quoted built store, machine.Proceeds ((machine.moved
              (machine.current.pc + (code.stream ++ code'.stream).length) store).pushAll
                [quoted, built]) ∧
            (datum.same datum = true → store.heap.equal quoted built = true)) := by
  have exact_iff := Quasi.isOpen_iff_hides constant
  have quoted : Quasi.ofDatum depth datum = .constant datum := by
    rw [Quasi.ofDatum_eq, if_pos constant]
  refine ⟨quoted, exact_iff, fun nothing state prepared => ?_⟩
  have closed : (Quasi.general depth datum).isOpen = false :=
    eq_false_of_ne_true fun opened => nothing (exact_iff.mp opened)
  obtain ⟨code, middle, compiled, adds, leaves⟩ :=
    @yields_constant recur context datum state prepared
  obtain ⟨code', after, compiled', adds', leaves'⟩ := yields_general closed middle adds.prepared
  refine ⟨code, code', middle, after, quoted ▸ compiled, compiled', adds.trans adds', ?_⟩
  intro machine rest suits counted here
  obtain ⟨values, store, -, depict, proceeds⟩ :=
    ((leaves.mono adds').append leaves').runs suits counted here
  simp only [List.singleton_append, Heap.DepictsAll] at depict
  obtain ⟨quoted, _, rfl, depicts, built, _, rfl, depicts', rfl⟩ := depict
  exact ⟨quoted, built, store, proceeds, fun same => depicts.equal same depicts'⟩

def nestedTail (operand : Datum) : Datum :=
  .list [.atom (.integer 1) {}, .list [.ofSymbol quasiquote {}, .list [.atom (.integer 2) {},
    .ofSymbol unquote {}, operand] {}] {}] {}

def origin : Compilation :=
  { scopes := (Session.blank none 8).scopes, store := (Session.blank none 8).machine.store }

theorem prepared_origin : origin.Prepared topLevelScope :=
  ⟨Scopes.valid_initial _ _, by decide, (Machine.serves_initial 8).sound.heap.consistent⟩

def isAddressable (datum : Datum) : Bool :=
  match quasi (compile 1) (.ofTopLevel topLevelScope) (Quasi.ofDatum 0 datum) origin with
  | .error _ _ => false
  | .ok code middle =>
    match quasi (compile 1) (.ofTopLevel topLevelScope) (general 0 datum) middle with
    | .error _ _ => false
    | .ok code' after => code.size + code'.size ≤ operandLimit &&
      (after.scopes.constants topLevelScope).size ≤ operandLimit

/-- The unquoted tail of ``(1 `(2 . ,x))`` is part of the constant, and what is built in both ways is
equal. -/
theorem quasiquote_shortcut_exact_nested :
    Quasi.isConstant 0 (nestedTail (.ofSymbol "x" {})) = true ∧
      ¬ Quasi.Hides 0 (nestedTail (.ofSymbol "x" {})) ∧
      ∃ (machine after : Machine) (quoted built : Value), machine.Proceeds after ∧
        after.stack.items = [built, quoted] ∧ after.heap.equal quoted built = true := by
  let datum := nestedTail (.ofSymbol "x" {})
  have constant : Quasi.isConstant 0 datum = true := rfl
  obtain ⟨-, exact_iff, agree⟩ :=
    quasiquote_shortcut_exact (compile 1) (.ofTopLevel topLevelScope) 0 datum constant
  have nothing : ¬ Quasi.Hides 0 datum := fun hides => by
    have closed : (Quasi.general 0 datum).isOpen = false := by cbv
    simp [exact_iff.mpr hides] at closed
  obtain ⟨code, code', middle, after, compiled, compiled', adds, runs⟩ :=
    agree nothing origin prepared_origin
  have small : isAddressable datum = true := by cbv
  simp only [isAddressable, compiled, compiled', Bool.and_eq_true, decide_eq_true_eq] at small
  let lambda := { Lambda.empty with
    constants := after.scopes.constants topLevelScope, body := code ++ code' }
  let machine : Machine := { Machine.initial 8 with
    store := after.store
    current := { pc := 0, invocation := (Machine.initial 8).topLevel, operandCount := 0, lambda } }
  have suits : machine.Suits topLevelScope after :=
    ⟨fun _ _ found => found, ⟨by simpa [machine, lambda] using small.1, small.2⟩,
      fun _ _ found => found, .refl adds.prepared.consistent⟩
  have counted : machine.current.operandCount + 2 ≤ 2 ^ 64 := Nat.le_of_ble_eq_true rfl
  obtain ⟨quoted, built, store, proceeds, equal⟩ := runs machine [] suits counted
    (by simp [machine, lambda, Bytecode.rest_zero])
  exact ⟨constant, nothing, machine, _, quoted, built, proceeds, rfl, equal rfl⟩

-- In ``(1 `(2 . ,,x))`` the value of `x` is due, but the shortcut takes the whole for a constant.
example :
    let d := nestedTail (.list [.ofSymbol unquote {}, .ofSymbol "x" {}] {})
    isConstant 0 d = true ∧ (general 0 d).isOpen = true :=
  ⟨rfl, by cbv⟩

end Compiler

end MiniScheme
