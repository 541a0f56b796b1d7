import Mathlib.Algebra.Order.BigOperators.Group.List
import Mathlib.Algebra.Order.Group.Nat
import Mathlib.Order.Lattice.Nat
import MiniScheme.Proofs.Code.Listing

/-!
# How high the operand stack gets

What is on the operand stack where an instruction starts can be told from the code alone. `peak` is
the greatest number of values, saved counts included, that the code of a number of data and of the
procedures in them may have there. There are never more values than bytes before, so the greatest
number exists.
-/

namespace MiniScheme

variable {height : Height} {lam : Lambda}

/-- Some instruction that control gets to makes closures of the other procedure. -/
def Lambda.Creates (lambda inner : Lambda) : Prop :=
  ∃ offset height instruction place, lambda.body.Reaches offset height ∧
    lambda.body.instruction? offset = some instruction ∧ instruction.op = .lambda ∧
    instruction.operands = [place] ∧
    lambda.constants[Machine.index place]? = some (.lambda inner)

/-- What has been loaded: the code of a number of data, and the procedures in it. -/
inductive Loaded (data : List Lambda) : Lambda → Prop where
  | datum {lambda : Lambda} (member : lambda ∈ data) : Loaded data lambda
  | inside {lambda inner : Lambda} (loaded : Loaded data lambda) (creates : lambda.Creates inner) :
      Loaded data inner

/-- The heights of the operand stack in what has been loaded. -/
def heights (data : List Lambda) : Set Nat :=
  {size | ∃ lambda offset height, Loaded data lambda ∧ lambda.body.Reaches offset height ∧
    height.size = size}

/-- The greatest height of the operand stack in what has been loaded. -/
noncomputable def peak (data : List Lambda) : Nat :=
  sSup (heights data)

variable {data data' : List Lambda}

theorem Loaded.mono (loaded : Loaded data lam) (more : data ⊆ data') : Loaded data' lam := by
  induction loaded with
  | datum mem => exact .datum (more mem)
  | inside _ creates ih => exact .inside ih creates

/-! ### Places in code -/

/-- `lambda.Located data pc height`: the code is what has been loaded, alone or behind other code, and
control gets to that place in it with a stack of that height. -/
def Lambda.Located (data : List Lambda) (lambda : Lambda) (pc : Nat) (height : Height) : Prop :=
  ∃ source front offset, Loaded data source ∧ source.constants = lambda.constants ∧
    lambda.body = front ++ source.body ∧ pc = front.size + offset ∧
    source.body.Reaches offset height

/-- `lambda.Sited data level shape pc height`: the code there is sane as well, as code of the level
within scopes of that shape. -/
def Lambda.Sited (data : List Lambda) (level : Level) (shape : List Nat) (lambda : Lambda) (pc : Nat)
    (height : Height) : Prop :=
  ∃ source front offset, Loaded data source ∧ source.constants = lambda.constants ∧
    lambda.body = front ++ source.body ∧ pc = front.size + offset ∧
    source.body.Reaches offset height ∧ source.body.Proper ⟨level, shape, lambda.constants⟩

namespace Lambda.Located

variable {pc : Nat}

theorem mono (located : lam.Located data pc height) (more : data ⊆ data') :
    lam.Located data' pc height := by
  obtain ⟨src, front, offset, loaded, rest⟩ := located
  exact ⟨src, front, offset, loaded.mono more, rest⟩

end Lambda.Located

namespace Lambda.Sited

variable {pc : Nat} {level : Level} {shape : List Nat} {op : Op}

theorem entry (loaded : Loaded data lam) (proper : lam.body.Proper ⟨level, shape, lam.constants⟩) :
    lam.Sited data level shape 0 .empty :=
  ⟨lam, {}, 0, loaded, rfl, (Bytecode.nil_append _).symm, rfl, .entry, proper⟩

variable (sited : lam.Sited data level shape pc height)

include sited

theorem located : lam.Located data pc height := by
  obtain ⟨src, front, offset, loaded, constants, body, place, reaches, -⟩ := sited
  exact ⟨src, front, offset, loaded, constants, body, place, reaches⟩

theorem mono (more : data ⊆ data') : lam.Sited data' level shape pc height := by
  obtain ⟨src, front, offset, loaded, rest⟩ := sited
  exact ⟨src, front, offset, loaded.mono more, rest⟩

/-- There is an instruction with all that it needs, and control goes on to where code is sane. -/
theorem instruction : ∃ instr after, lam.body.instruction? pc = some instr ∧
    instr.Suits ⟨level, shape, lam.constants⟩ ∧ instr.op.effect height = some after ∧
    (∀ level', instr.op.level? = some level' → level = level') ∧ (instr.op.continues = true →
      lam.Sited data level shape (pc + instr.op.size) after) ∧
    (∀ target, instr.target? pc = some target → ∃ place : Nat, target = place ∧
      place < lam.body.size ∧ lam.Sited data level shape place after) ∧
    ∀ inner, instr.Makes lam.constants inner → Loaded data inner ∧
      inner.body.Proper (inner.setting shape) := by
  obtain ⟨src, front, offset, loaded, constants, body, rfl, reaches, proper⟩ := sited
  have ⟨sane, nested⟩ := proper
  obtain ⟨start, inside⟩ := sane.inside offset height reaches
  obtain ⟨instr, found⟩ := sane.complete offset start inside.ne
  obtain ⟨after, effect⟩ := sane.supplied offset height instr reaches found
  refine ⟨instr, after, ?_, sane.suits offset instr start found, effect, ?_, ?_, ?_, ?_⟩
  · rw [body, Bytecode.instruction?_append_right, found]
  · exact sane.level offset _ start (Bytecode.op?_of_instruction? found)
  · intro continues
    exact ⟨src, front, _, loaded, constants, body, Nat.add_assoc ..,
      .flow reaches (.next found continues effect), proper⟩
  · intro target leads
    rw [Instruction.target?_add] at leads
    obtain ⟨there, led, rfl⟩ := Option.map_eq_some_iff.mp leads
    obtain ⟨place, rfl, start', inside'⟩ := sane.branches offset instr there start found led
    refine ⟨front.size + place, rfl, ?_, src, front, place, loaded, constants, body, rfl,
      .flow reaches (.branch found led effect), proper⟩
    rw [body, Bytecode.size_append]
    exact Nat.add_lt_add_left inside' _
  · intro inner made
    refine ⟨?_, nested offset instr inner start found made⟩
    cases made with
    | lambda held =>
      exact .inside loaded ⟨offset, height, _, _, reaches, found, rfl, rfl, constants ▸ held⟩

theorem small : height.count < operandLimit := by
  obtain ⟨src, front, offset, -, -, -, -, reaches, ⟨sane, -⟩⟩ := sited
  have size := sane.height offset height reaches
  obtain ⟨-, inside⟩ := sane.inside offset height reaches
  have small := sane.small
  rw [Height.size] at size
  omega

/-- A call in tail position has nothing below its operands, and nothing but leaving comes after it. -/
theorem tailCall (fetched : lam.body.op? pc = some .tailCall) :
    (∃ args, height = ⟨args + 1, [0]⟩) ∧ lam.body.Returns (pc + 1) := by
  obtain ⟨src, front, offset, -, -, body, rfl, reaches, ⟨sane, -⟩⟩ := sited
  rw [body, Bytecode.op?, Bytecode.byte_append_right] at fetched
  obtain ⟨start, inside⟩ := sane.inside offset height reaches
  obtain ⟨⟨op, operands, complete⟩, found⟩ := sane.complete offset start inside.ne
  cases Option.some.inj (fetched.symm.trans (Bytecode.op?_of_instruction? found))
  obtain ⟨after, effect⟩ := sane.supplied offset height _ reaches found
  have returns := sane.tailCalls offset start fetched
  have single := returns.single sane.toPasses (.flow reaches (.next found rfl effect))
  refine ⟨?_, body ▸ returns.append front⟩
  obtain ⟨_ | args, _ | ⟨n, saved⟩⟩ := height
  all_goals cases effect
  cases single
  exact ⟨args, rfl⟩

end Lambda.Sited

/-! ### The greatest height exists -/

def Runnable (data : List Lambda) : Prop :=
  ∀ lambda ∈ data, ∃ shape, lambda.body.Proper ⟨.script, shape, lambda.constants⟩

theorem Loaded.proper (loaded : Loaded data lam) (runnable : Runnable data) :
    ∃ level shape, lam.body.Proper ⟨level, shape, lam.constants⟩ := by
  induction loaded with
  | datum mem =>
    obtain ⟨shape, proper⟩ := runnable _ mem
    exact ⟨.script, shape, proper⟩
  | inside loaded creates ih =>
    obtain ⟨level, shape, proper⟩ := ih
    obtain ⟨offset, height, ⟨op, operands, complete⟩, place, reaches, found, rfl, rfl, held⟩ := creates
    obtain ⟨sane, nested⟩ := proper
    exact ⟨.procedure, _, nested offset _ _ (sane.inside offset height reaches).1 found (.lambda held)⟩

theorem Loaded.sizeOf_le (loaded : Loaded data lam) : ∃ d ∈ data, sizeOf lam ≤ sizeOf d := by
  induction loaded with
  | datum mem => exact ⟨_, mem, Nat.le_refl _⟩
  | @inside lam inner _ creates ih =>
    obtain ⟨d, mem, size⟩ := ih
    obtain ⟨-, -, -, place, -, -, -, -, held⟩ := creates
    have smaller := Lambda.sizeOf_lt_of_mem (Array.mem_of_getElem? held)
    exact ⟨d, mem, smaller.le.trans size⟩

theorem Bytecode.size_le_sizeOf (code : Bytecode) : code.size ≤ sizeOf code := by
  obtain ⟨⟨bytes⟩, positions⟩ := code
  have length : bytes.length ≤ sizeOf bytes := by
    induction bytes with
    | nil => simp
    | cons byte bytes ih =>
      simp only [List.length_cons, List.cons.sizeOf_spec]
      omega
  simp only [size, List.size_toArray, Bytecode.mk.sizeOf_spec, Array.mk.sizeOf_spec]
  omega

theorem bddAbove_heights (runnable : Runnable data) : BddAbove (heights data) := by
  refine ⟨(data.map sizeOf).sum, ?_⟩
  rintro size ⟨lam, offset, height, loaded, reaches, rfl⟩
  obtain ⟨level, shape, ⟨sane, -⟩⟩ := loaded.proper runnable
  have bound := sane.height offset height reaches
  obtain ⟨-, inside⟩ := sane.inside offset height reaches
  obtain ⟨d, mem, smaller⟩ := loaded.sizeOf_le
  have body := lam.body.size_le_sizeOf
  have whole : sizeOf lam.body ≤ sizeOf lam := by
    obtain ⟨name, argumentCount, rest, slotCount, constants, body⟩ := lam
    simp only [Lambda.mk.sizeOf_spec]
    omega
  have counted : sizeOf d ≤ (data.map sizeOf).sum := List.le_sum_of_mem (List.mem_map_of_mem mem)
  omega

end MiniScheme
