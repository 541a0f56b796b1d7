import MiniScheme.Proofs.Session.Attained

/-!
# The constants of the top level

Code of the top level refers to its constants by number. The compiler numbers them in a pool that
grows with each datum, also if the datum is only listed, and that is as before if the datum does not
compile. The machine has a pool of its own, and loading adds those constants to it that it does not
have yet. At any time the machine has the first constants of the compiler, and all of them when a
datum has just been loaded. So an instruction refers to the same constant ever after.
-/

namespace MiniScheme

/-- The constant that an instruction refers to. -/
def Instruction.constant? (pool : Array Constant) (instruction : Instruction) : Option Constant :=
  match instruction.op, instruction.operands with
  | .constant, [place] | .lambda, [place] => pool[Machine.index place]?
  | _, _ => none

/-- The code of a number of data, one after the other. -/
def joined (data : List Lambda) : Bytecode :=
  data.foldl (fun code datum => code ++ datum.body) {}

variable {data : List Lambda} {offset : Nat} {instruction instr : Instruction}

theorem joined_concat (data : List Lambda) (src : Lambda) :
    joined (data ++ [src]) = joined data ++ src.body :=
  List.foldl_concat ..

/-- The code of a datum stands behind that of the data before it, and more is put behind it. -/
theorem joined_split (earlier : List Lambda) (src : Lambda) (later : List Lambda) :
    joined (earlier ++ src :: later) = joined earlier ++ src.body ++ joined later := by
  rw [List.append_cons, ← joined_concat]
  generalize earlier ++ [src] = data
  induction later using List.reverseRecOn with
  | nil => rw [List.append_nil, joined, joined, List.foldl_nil, Bytecode.append_nil]
  | append_singleton later last ih =>
    rw [← List.append_assoc, joined_concat, ih, joined_concat, Bytecode.append_assoc]

/-- An instruction of code that passes the verifier refers to a constant of the right kind, also in a
larger pool. -/
theorem Instruction.Suits.constant? {setting : Setting} (suits : instr.Suits setting)
    (refers : instr.op = .constant ∨ instr.op = .lambda) (added : Array Constant) :
    ∃ constant, instr.constant? setting.pool = some constant ∧
      instr.constant? (setting.pool ++ added) = some constant ∧
      (instr.op = .lambda ↔ ∃ inner, constant = .lambda inner) := by
  have kept {index : Nat} {constant : Constant} (found : setting.pool[index]? = some constant) :
      (setting.pool ++ added)[index]? = some constant := by
    rw [Array.getElem?_append_left (lt_size found), found]
  obtain ⟨op, operands, complete⟩ := instr
  rcases refers with rfl | rfl
  · obtain ⟨place, rfl⟩ := List.length_eq_one_iff.mp complete
    obtain ⟨index, v, eq, found⟩ := suits
    have same := index_eq eq
    exact ⟨.value v, by simp [Instruction.constant?, same, found],
      by simp [Instruction.constant?, same, kept found], by simp⟩
  · obtain ⟨place, rfl⟩ := List.length_eq_one_iff.mp complete
    obtain ⟨index, inner, eq, found⟩ := suits
    have same := index_eq eq
    exact ⟨.lambda inner, by simp [Instruction.constant?, same, found],
      by simp [Instruction.constant?, same, kept found], by simp⟩

namespace Session

variable {session s before after : Session} {ceiling cap : Nat} {lambda lam : Lambda}

/-- `session.Consists data lambda`: the code of the top level is that of the data, with all constants
of each of them. -/
structure Consists (session : Session) (data : List Lambda) (lambda : Lambda) : Prop where
  script : session.machine.Script session.scopes lambda
  body : lambda.body = joined data
  pools : ∀ source ∈ data, ∃ added, lambda.constants = source.constants ++ added

theorem Consists.keep (consists : before.Consists data lam) (becomes : before.Becomes after) :
    after.Consists data lam := by
  obtain ⟨lam', script⟩ := becomes.serves.script
  have closure := becomes.code.code _ _ consists.script.closure
  obtain ⟨rfl, -⟩ := Object.closure.inj (Option.some.inj (closure.symm.trans script.closure))
  exact ⟨script, consists.body, consists.pools⟩

theorem Consists.load (consists : s.Consists data lam)
    (serves : s.machine.Serves s.scopes) (code : Bytecode) :
    Consists { s.loaded lam code with running := true } (data ++ [s.script code])
      (Machine.extend lam (s.scopes.constants topLevelScope) code) := by
  obtain ⟨-, served, -⟩ := serves.load consists.script code
  obtain ⟨added, constants⟩ := consists.script.constants
  have pool := Machine.constants_extend constants code
  refine ⟨?_, ?_, ?_⟩
  · obtain ⟨lam', script⟩ := served.script
    cases Option.some.inj ((consists.script.get?_loaded code).symm.trans script.closure)
    exact script
  · rw [joined_concat, ← consists.body]
    rfl
  · simp only [pool, List.forall_mem_append, List.forall_mem_singleton]
    refine ⟨fun src mem => ?_, #[], Array.append_empty.symm⟩
    obtain ⟨more, eq⟩ := consists.pools src mem
    exact ⟨more ++ added, by rw [constants, eq, Array.append_assoc]⟩

theorem AttainedFrom.consists {given : Datum → Prop} (attained : AttainedFrom given cap data s) :
    ∃ lam, s.Consists data lam := by
  have keep {before after : Session} {data : List Lambda}
      (known : ∃ lam, before.Consists data lam) (becomes : before.Becomes after) :
      ∃ lam, after.Consists data lam := known.imp fun _ consists => consists.keep becomes
  induction attained with
  | blank src =>
    obtain ⟨lam, script⟩ := (Machine.serves_initial cap).script
    have empty := script.closure.symm.trans (Machine.get?_initial cap _)
    cases empty
    exact ⟨_, script, rfl, nofun⟩
  | keyword attained name ih => exact keep ih (becomes_keyword attained.capped.1 name)
  | define attained name live ih => exact keep ih (becomes_define attained.capped.1 name live)
  | defineNative attained tame ih => exact keep ih (becomes_defineNative attained.capped.1 tame)
  | work attained calm ih => exact keep ih (becomes_work attained.capped.1 calm)
  | @compile _ _ attained d _ _ home ih => exact keep ih (becomes_compile attained.capped.1 d home)
  | @load _ s compiled loaded attained d _ code compiles loads ih =>
    obtain ⟨lam, consists⟩ := ih
    have serves := attained.capped.1
    have becomes := becomes_compile serves d (.inr rfl)
    obtain ⟨scopes, store, -, -, out⟩ := load_spec serves d
    rcases out with ⟨error, -, failed⟩ | ⟨code', lam', compiles', loads', script, -⟩
    · cases loads.symm.trans failed
    · cases compiles.symm.trans compiles'
      cases loads.symm.trans loads'
      rw [compiles] at becomes
      have consists := consists.keep becomes
      cases Option.some.inj (script.closure.symm.trans consists.script.closure)
      exact ⟨_, consists.load becomes.serves code⟩
  | run attained running active ran ih =>
    exact keep ih (becomes_run attained.capped.1 running active ran)
  | wake attained live ih => exact keep ih (becomes_wake attained.capped.1 live)
  | cancel attained ih => exact keep ih (becomes_cancel attained.capped.1)
  | collect attained ih => exact keep ih (becomes_collect attained.capped.1)
  | queue attained src pending last ih =>
    exact keep ih (becomes_queue attained.capped.1 src pending last)

/-- The pools of the compiler and of the machine never drift apart. The constants of the top level
are the first ones of its scope at any time, and all of them once a datum has been loaded. The code
of the top level is that of the data; an instruction of a datum that refers to a constant refers to
the one that the compiler had under that number when it had compiled the datum. The machine runs
nothing but such code, or procedures in it, with the constants that it was compiled with. -/
theorem pools_agree (attained : Attained ceiling data session) : ∃ lambda,
    session.heap.get? session.machine.topClosure =
        some (.closure lambda (some session.machine.global)) ∧
      (∃ added, session.scopes.constants topLevelScope = lambda.constants ++ added) ∧
      (∀ (datum : Datum) (loaded : Session), session.load datum = (.ok (), loaded) →
        ∃ extended, loaded.heap.get? loaded.machine.topClosure =
            some (.closure extended (some loaded.machine.global)) ∧
          extended.constants = loaded.scopes.constants topLevelScope) ∧
      lambda.body = joined data ∧
      (∀ earlier source later, data = earlier ++ source :: later → ∀ offset instruction,
        source.body.instruction? offset = some instruction →
          lambda.body.instruction? ((joined earlier).size + offset) = some instruction ∧
          (session.Fits → source.body.Starts offset →
            instruction.op = .constant ∨ instruction.op = .lambda →
              ∃ constant, instruction.constant? source.constants = some constant ∧
                instruction.constant? lambda.constants = some constant ∧
                (instruction.op = .lambda ↔ ∃ inner, constant = .lambda inner))) ∧
      (session.Fits → session.running = true → session.machine.suspended = none →
        ∃ height, session.machine.current.lambda.Located data session.machine.current.pc
          height) := by
  obtain ⟨serves, capped⟩ := attained.capped
  obtain ⟨lambda, consists⟩ := attained.consists
  refine ⟨lambda, consists.script.closure, consists.script.constants, fun datum loaded loads => ?_,
    consists.body, ?_, fun fits running active => ?_⟩
  · obtain ⟨scopes, store, -, -, outcome⟩ := load_spec serves datum
    rcases outcome with ⟨error, -, failed⟩ | ⟨code, top, -, loads', script, -⟩
    · cases loads.symm.trans failed
    · cases loads.symm.trans loads'
      obtain ⟨added, constants⟩ := script.constants
      exact ⟨_, script.get?_loaded code, Machine.constants_extend constants code⟩
  · rintro earlier source later rfl offset instruction found
    refine ⟨?_, fun fits starts refers => ?_⟩
    · rw [consists.body, joined_split]
      exact Bytecode.instruction?_append_left
        ((Bytecode.instruction?_append_right ..).trans found) _
    · have member : source ∈ earlier ++ source :: later := by simp
      obtain ⟨added, equal⟩ := consists.pools source member
      obtain ⟨shape, ⟨sane, -⟩⟩ := (capped fits).runnable source member
      rw [equal]
      exact (sane.suits offset instruction starts found).constant? refers added
  · have runs := (capped fits).abides.runs running active
    obtain ⟨level, saved, below, supports, -⟩ := Heap.poised_iff.mp runs.poised
    obtain ⟨shape, -, sited⟩ := supports.sited
    exact ⟨_, sited.located⟩

def number (value : Int64) : Datum :=
  .atom (.integer value) default

/-- A session that is about to run a number and has compiled another one to list its code. -/
def listing : Session :=
  (compile (number 6) topLevelScope { ((blank none 16).load (number 5)).2 with running := true }).2

def startsWithConstant : Except CompileError Bytecode → Bool
  | .ok code => (code.instruction? 0).map Instruction.op == some .constant
  | .error _ => false

/-- The scope has one constant more than the machine, and the code of the first number still refers
to it. -/
theorem pools_agree_listing : ∃ lambda,
    listing.heap.get? listing.machine.topClosure =
        some (.closure lambda (some listing.machine.global)) ∧
      lambda.constants.size = 1 ∧ (listing.scopes.constants topLevelScope).size = 2 ∧
      (∃ added, listing.scopes.constants topLevelScope = lambda.constants ++ added) ∧
      ∃ instruction constant, lambda.body.instruction? 0 = some instruction ∧
        instruction.op = .constant ∧ instruction.constant? lambda.constants = some constant := by
  have refers : startsWithConstant ((blank none 16).compile (number 5) topLevelScope).1 = true := by
    decide +kernel
  have known : (listing.heap.closure? listing.machine.topClosure).map
      (·.1.constants.size) = some 1 := by
    decide +kernel
  have small : listing.fitsWithin 3 = true := by decide +kernel
  obtain ⟨code, compiled, compiles, loaded⟩ :=
    AttainedFrom.loads (.blank none : Attained 16 [] _) (number 5) trivial (by decide +kernel)
  rw [compiles] at refers
  obtain ⟨instruction, found, refers⟩ := Option.map_eq_some_iff.mp (beq_iff_eq.mp refers)
  have attained : Attained 16 [compiled.script code] listing :=
    .compile loaded trivial (.inr rfl)
  obtain ⟨lambda, held, pools, -, -, places, -⟩ := pools_agree attained
  rw [Heap.closure?_eq_some_iff.mpr held] at known
  obtain ⟨there, denotes⟩ := places [] _ [] rfl 0 instruction found
  obtain ⟨constant, -, denoted, -⟩ := denotes (fits_of_fitsWithin small) .first (.inl refers)
  exact ⟨lambda, held, Option.some.inj known, by decide +kernel, pools, instruction, constant, there,
    refers, denoted⟩

end Session

end MiniScheme
