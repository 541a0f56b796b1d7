import MiniScheme.Proofs.Code.Verifier

/-!
# Listings

A listing of code has each instruction with what is on the stack there. Whether it is right can be
checked from the end to the start, as jumps lead forward only: every instruction leaves on the stack
what the listing has for those that may be next. Listings are put together as code is, and code with
a listing of all of it passes the verifier, which knows nothing of the listing.
-/

namespace MiniScheme

theorem Op.effect_leave {op : Op} {height height' : Height}
    (effect : op.effect height = some height') :
    (op = .return ∨ op = .exit → height = .single) ∧ (op = .lambdaExit → height = .empty) := by
  unfold Op.effect at effect
  split at effect <;> simp_all [Height.single, Height.empty]

/-- What is asked of an instruction apart from the stack: its operands refer to what there is,
procedures that it makes closures of are in order, and it may stand in a body of that kind. -/
structure Instruction.Fares (setting : Setting) (instruction : Instruction) : Prop where
  suits : instruction.Suits setting
  nested : ∀ inner, instruction.Makes setting.pool inner →
    inner.body.Proper (inner.setting setting.shape)
  level : ∀ level, instruction.op.level? = some level → setting.level = level

/-- An instruction and the stack that it finds. -/
structure Item extends Instruction where
  height : Height

namespace Item

def plain (items : List Item) : List Instruction :=
  items.map Item.toInstruction

@[simp] theorem plain_nil : plain [] = [] := rfl

@[simp] theorem plain_cons (item : Item) (xs : List Item) :
    plain (item :: xs) = item.toInstruction :: plain xs := rfl

@[simp] theorem plain_append (xs more : List Item) : plain (xs ++ more) = plain xs ++ plain more :=
  List.map_append

/-- The parts of a listing are told apart by the number of bytes before them. -/
theorem eq_of_extent {front back front' back' : List Item} (same : front ++ back = front' ++ back')
    (size : Instruction.extent (plain front) = Instruction.extent (plain front')) :
    back = back' := by
  induction front generalizing front' with
  | nil =>
    cases front' with
    | nil => exact same
    | cons item _ =>
      have positive := item.op.size_pos
      simp only [plain_nil, plain_cons, Instruction.extent_nil, Instruction.extent_cons] at size
      omega
  | cons item front ih =>
    cases front' with
    | nil =>
      have positive := item.op.size_pos
      simp only [plain_nil, plain_cons, Instruction.extent_nil, Instruction.extent_cons] at size
      omega
    | cons other front' =>
      obtain ⟨rfl, rest⟩ := List.cons.inj same
      exact ih rest (by simpa using size)

/-- The stack at the start of a listing, given the one at its end. -/
def entry (final : Option Height) : List Item → Option Height
  | [] => final
  | item :: _ => some item.height

theorem entry_append (final : Option Height) (xs more : List Item) :
    entry final (xs ++ more) = entry (entry final more) xs := by
  cases xs <;> rfl

/-- `item.Fits setting ends final back`: what the instruction leaves on the stack is right for what is
behind it in the listing. Behind calls in tail position the listing `ends` in a certain way. -/
structure Fits (setting : Setting) (ends : List Item → Prop) (final : Option Height) (item : Item)
    (back : List Item) : Prop where
  fares : item.toInstruction.Fares setting
  supplied : ∃ after, item.op.effect item.height = some after
  next : item.op.continues = true → item.op.effect item.height = entry final back
  /-- A jump leads over a part of the listing. -/
  leads : item.op.branches = true → ∃ skipped rest, back = skipped ++ rest ∧
    item.operands = [.ofNat (Instruction.extent (plain skipped))] ∧
    item.op.effect item.height = entry final rest
  last : item.op = .tailCall → ends back

/-- Every instruction of the listing fits what is behind it. -/
def Checks (setting : Setting) (ends : List Item → Prop) (final : Option Height) :
    List Item → Prop
  | [] => True
  | item :: back => item.Fits setting ends final back ∧ Checks setting ends final back

variable {setting : Setting} {ends ends' : List Item → Prop} {final : Option Height} {item : Item}
  {xs more front back rest : List Item}

theorem Checks.fits (checks : Checks setting ends final (front ++ item :: back)) :
    item.Fits setting ends final back := by
  induction front with
  | nil => exact checks.1
  | cons _ _ ih => exact ih checks.2

theorem Checks.append (checks : Checks setting ends (entry final more) xs)
    (checks' : Checks setting ends' final more) (follows : ∀ rest, ends rest → ends' (rest ++ more)) :
    Checks setting ends' final (xs ++ more) := by
  induction xs with
  | nil => exact checks'
  | cons item back ih =>
    obtain ⟨⟨fares, supplied, next, leads, last⟩, checks⟩ := checks
    refine ⟨⟨fares, supplied, fun continues => (next continues).trans (entry_append ..).symm,
      fun branches => ?_, fun call => follows back (last call)⟩, ih checks⟩
    obtain ⟨skipped, rest, rfl, operands, effect⟩ := leads branches
    exact ⟨skipped, rest ++ more, List.append_assoc .., operands,
      effect.trans (entry_append ..).symm⟩

/-- Nothing but jumps lead to the end. -/
inductive Leaves : List Item → Prop where
  | nil : Leaves []
  | skip {item : Item} {skipped rest : List Item} (jump : item.op = .jump)
      (operands : item.operands = [.ofNat (Instruction.extent (plain skipped))])
      (leaves : Leaves rest) : Leaves (item :: (skipped ++ rest))

theorem Leaves.append (leaves : Leaves rest) (leaves' : Leaves more) : Leaves (rest ++ more) := by
  induction leaves with
  | nil => exact leaves'
  | skip jump operands _ ih =>
    rw [List.cons_append, List.append_assoc]
    exact .skip jump operands ih

end Item

open Instruction Item

theorem Instruction.target?_ofNat {instr : Instruction} {distance : Nat}
    (branches : instr.op.branches = true) (operands : instr.operands = [.ofNat distance])
    (small : distance < operandLimit) (offset : Nat) : instr.target? offset =
      some ((offset + instr.op.size + distance : Nat) : Int) := by
  rw [target?, branches, operands]
  simp only [toInt_ofNat small]
  rfl

namespace Bytecode

/-- `code.Leads setting tail height final`: the code has a listing that checks, from one height of the
stack to the other. In tail position there may be calls in tail position. -/
def Leads (setting : Setting) (tail : Bool) (code : Bytecode) (height final : Height) : Prop :=
  ∃ items, code.Lists (plain items) ∧ entry (some final) items = some height ∧
    Checks setting (fun rest => tail = true ∧ Leaves rest) (some final) items

variable {setting : Setting} {tail : Bool} {code first second yes no : Bytecode}
  {height mid final below : Height}

namespace Leads

theorem nothing : ({} : Bytecode).Leads setting tail height height :=
  ⟨[], rfl, rfl, trivial⟩

theorem one (instr : Instruction) (same : code.stream = instr.stream)
    (fares : instr.Fares setting) (straight : instr.op.branches = false)
    (last : instr.op = .tailCall → tail = true) (effect : instr.op.effect height = some final) :
    code.Leads setting tail height final := by
  refine ⟨[⟨instr, height⟩], same.trans (Lists.one instr), rfl,
    ⟨fares, ⟨final, effect⟩, fun _ => effect, fun branches => ?_, fun call => ⟨last call, .nil⟩⟩,
    trivial⟩
  rw [straight] at branches
  cases branches

theorem append (front : first.Leads setting false height mid)
    (back : second.Leads setting tail mid final) :
    (first ++ second).Leads setting tail height final := by
  obtain ⟨xs, lists, enters, checks⟩ := front
  obtain ⟨more, lists', enters', checks'⟩ := back
  rw [← enters'] at enters checks
  refine ⟨xs ++ more, ?_, (entry_append ..).trans enters, checks.append checks' fun _ ended =>
    absurd ended.1 Bool.false_ne_true⟩
  rw [plain_append]
  exact lists.append lists'

/-- Code that may stand anywhere may stand in tail position. -/
theorem anywhere (leads : code.Leads setting false height final) :
    code.Leads setting tail height final := by
  have all : (code ++ {}).Leads setting tail height final := leads.append nothing
  rwa [append_nil] at all

theorem branch (effect : Op.conditionalJump.effect height = some below)
    (taken : yes.Leads setting tail below final) (otherwise : no.Leads setting tail below final) :
    (.ofOp .conditionalJump [.ofNat (yes.size + Op.jump.size)] ++ yes ++
      .ofOp .jump [.ofNat no.size] ++ no : Bytecode).Leads setting tail height final := by
  obtain ⟨chosen, lists, enters, checks⟩ := taken
  obtain ⟨others, lists', enters', checks'⟩ := otherwise
  let test : Item := ⟨⟨.conditionalJump, [.ofNat (yes.size + Op.jump.size)], rfl⟩, height⟩
  let skip : Item := ⟨⟨.jump, [.ofNat no.size], rfl⟩, final⟩
  have skipped : Checks setting (fun rest => tail = true ∧ Leaves rest) (some final)
      (skip :: others) := ⟨⟨⟨trivial, nofun, nofun⟩, ⟨final, rfl⟩, nofun,
      fun _ => ⟨others, [], (List.append_nil _).symm, by rw [← lists'.size], rfl⟩, nofun⟩, checks'⟩
  have leaves : Leaves (skip :: others) := by
    rw [← List.append_nil others]
    exact .skip rfl (by rw [← lists'.size]) .nil
  have enters : entry (some final) (chosen ++ skip :: others) = some below :=
    (entry_append ..).trans enters
  refine ⟨test :: (chosen ++ skip :: others), ?_, rfl,
    ⟨⟨trivial, nofun, nofun⟩, ⟨below, effect⟩, fun _ => effect.trans enters.symm,
      fun _ => ⟨chosen ++ [skip], others, by simp, ?_, effect.trans enters'.symm⟩, nofun⟩,
    checks.append skipped fun _ ended => ⟨ended.1, ended.2.append leaves⟩⟩
  · have whole := (((Lists.one test.toInstruction).append lists).append
      (.one skip.toInstruction)).append lists'
    rw [List.append_assoc] at whole
    rw [plain_cons, plain_append]
    exact whole
  · rw [plain_append, extent_append, ← lists.size]
    rfl

end Leads

end Bytecode

/-! ### Bodies -/

/-- The instruction ends a body, which has `middle` on the stack there. -/
structure Instruction.Ends (setting : Setting) (tail : Bool) (middle : Height)
    (last : Instruction) : Prop where
  stops : last.op.continues = false
  straight : last.op.branches = false
  level : last.op.level? = some setting.level
  effect : last.op.effect middle = some .empty
  /-- Only a procedure ends in tail position. -/
  returns : tail = true → last.op = .return

theorem Instruction.Ends.fares {setting : Setting} {tail : Bool} {mid : Height}
    {last : Instruction} (ends : last.Ends setting tail mid) : last.Fares setting := by
  have stops := ends.stops
  refine ⟨?_, fun inner makes => ?_, fun level known => ?_⟩
  · rw [Suits]
    split <;> first | trivial | simp_all [Op.continues]
  · cases makes
    cases stops
  · exact Option.some.inj (ends.level.symm.trans known)

namespace Bytecode

def Ending (code : Bytecode) (rest : List Item) : Prop :=
  ∀ front, code.Lists (front ++ plain rest) → code.Returns (extent front)

variable {setting : Setting} {code front : Bytecode} {offset : Nat} {height mid : Height}

theorem ending_of_leaves {rest : List Item} {item : Item} (leaves : Leaves rest)
    (returns : item.op = .return) (small : code.size ≤ operandLimit) :
    code.Ending (rest ++ [item]) := by
  intro front lists
  induction leaves generalizing front with
  | nil => exact .here (returns ▸ op?_of_instruction? lists.found)
  | @skip jump skipped rest isJump operands _ ih =>
    have size := lists.size
    have positive := jump.op.size_pos
    simp only [List.cons_append, List.append_assoc, plain_cons, plain_append, extent_append,
      extent_cons] at lists size ih
    refine .jump lists.found isJump (target?_ofNat (by rw [isJump]; rfl) operands (by omega) _) ?_
    have there := ih (front ++ jump.toInstruction :: plain skipped) (by simpa using lists)
    simpa [Nat.add_assoc] using there

section

variable {xs : List Item} (lists : code.Lists (plain xs))
  (enters : entry none xs = some .empty) (checks : Checks setting code.Ending none xs)
  (small : code.size ≤ operandLimit)

include lists

theorem exists_item (start : code.Starts offset) (inside : offset ≠ code.size) :
    ∃ front item back, xs = front ++ item :: back ∧ offset = extent (plain front) := by
  obtain ⟨before, after, split, rfl⟩ := lists.split start
  obtain ⟨front, back, rfl, rfl, rfl⟩ := List.map_eq_append_iff.mp split
  cases back with
  | nil =>
    rw [List.append_nil] at lists
    exact absurd lists.size.symm inside
  | cons item back => exact ⟨front, item, back, rfl, rfl⟩

theorem exists_item_of_found {instr : Instruction} (start : code.Starts offset)
    (found : code.instruction? offset = some instr) : ∃ front item back,
      xs = front ++ item :: back ∧ offset = extent (plain front) ∧ item.toInstruction = instr := by
  have inside := Nat.ne_of_lt (lt_size_of_op? (op?_of_instruction? found))
  obtain ⟨front, item, back, rfl, rfl⟩ := exists_item lists start inside
  rw [plain_append, plain_cons] at lists
  exact ⟨front, item, back, rfl, rfl, Option.some.inj (lists.found.symm.trans found)⟩

include checks small

theorem exists_item_of_target {front back : List Item} {item : Item} {target : Int}
    (split : xs = front ++ item :: back)
    (leads : item.target? (extent (plain front)) = some target) : ∃ skipped next rest,
      back = skipped ++ next :: rest ∧ target = extent (plain (front ++ item :: skipped)) ∧
      item.op.effect item.height = some next.height := by
  subst split
  have branches : item.op.branches = true := by
    cases straight : item.op.branches with
    | true => rfl
    | false =>
      rw [target?, straight] at leads
      cases leads
  obtain ⟨fares, ⟨after, supplied⟩, -, jumps, -⟩ := checks.fits
  obtain ⟨skipped, rest, rfl, operands, effect⟩ := jumps branches
  have size := lists.size
  have positive := item.op.size_pos
  simp only [plain_append, plain_cons, extent_append, extent_cons] at size
  rw [target?_ofNat branches operands (by omega)] at leads
  cases rest with
  | nil => cases supplied.symm.trans effect
  | cons next rest =>
    refine ⟨skipped, next, rest, rfl, ?_, effect⟩
    rw [← Option.some.inj leads]
    simp [Nat.add_assoc]

include enters

/-- Control gets only to what the listing has, with the stack that it has there. -/
theorem exists_item_of_reaches (reaches : code.Reaches offset height) : ∃ front item back,
    xs = front ++ item :: back ∧ offset = extent (plain front) ∧ item.height = height ∧
      height.size ≤ offset := by
  induction reaches with
  | entry =>
    cases xs with
    | nil => cases enters
    | cons item back => exact ⟨[], item, back, rfl, rfl, Option.some.inj enters, Nat.zero_le _⟩
  | flow _ flows ih =>
    obtain ⟨front, item, back, split, rfl, rfl, bound⟩ := ih
    have here : code.instruction? (extent (plain front)) = some item.toInstruction := by
      rw [split, plain_append] at lists
      exact lists.found
    cases flows with
    | next found continues effect =>
      cases here.symm.trans found
      have more := Op.size_effect effect
      have positive := item.op.size_pos
      rw [split] at checks
      have next := (checks.fits.next continues).symm.trans effect
      cases back with
      | nil => cases next
      | cons other back =>
        exact ⟨front ++ [item], other, back, by rw [split, List.append_cons], by simp,
          Option.some.inj next, by omega⟩
    | branch found leads effect =>
      cases here.symm.trans found
      have more := Op.size_effect effect
      have positive := item.op.size_pos
      obtain ⟨skipped, other, rest, rfl, target, effect'⟩ :=
        exists_item_of_target lists checks small split leads
      have target := Int.ofNat.inj target
      refine ⟨front ++ item :: skipped, other, rest, by simp [split], target,
        Option.some.inj (effect'.symm.trans effect), ?_⟩
      simp only [plain_append, plain_cons, extent_append, extent_cons] at target
      omega

theorem passes_of_checks : code.Passes setting := by
  have place {front back : List Item} {item : Item} (split : xs = front ++ item :: back) :
      code.Starts (extent (plain front)) ∧ extent (plain front) < code.size ∧
        code.instruction? (extent (plain front)) = some item.toInstruction := by
    have size := lists.size
    have positive := item.op.size_pos
    rw [split, plain_append] at lists size
    rw [extent_append, plain_cons, extent_cons] at size
    exact ⟨lists.starts, by omega, lists.found⟩
  have fits {front back : List Item} {item : Item} (split : xs = front ++ item :: back) :
      item.Fits setting code.Ending none back := by
    rw [split] at checks
    exact checks.fits
  constructor
  case ends =>
    rw [lists.size]
    rw [← List.append_nil (plain xs)] at lists
    exact lists.starts
  case complete =>
    intro offset start inside
    obtain ⟨front, item, back, split, rfl⟩ := exists_item lists start inside
    exact ⟨_, (place split).2.2⟩
  case suits =>
    intro offset instr start found
    obtain ⟨front, item, back, split, -, rfl⟩ := exists_item_of_found lists start found
    exact (fits split).fares.suits
  case branches =>
    intro offset instr target start found leads
    obtain ⟨front, item, back, split, rfl, rfl⟩ := exists_item_of_found lists start found
    obtain ⟨skipped, next, rest, rfl, rfl, -⟩ :=
      exists_item_of_target lists checks small split leads
    have split' : xs = (front ++ item :: skipped) ++ next :: rest := by simp [split]
    exact ⟨_, rfl, (place split').1, (place split').2.1⟩
  case inside =>
    intro offset height reaches
    obtain ⟨front, item, back, split, rfl, -⟩ :=
      exists_item_of_reaches lists enters checks small reaches
    exact ⟨(place split).1, (place split).2.1⟩
  case unique =>
    intro offset height height' reaches reaches'
    obtain ⟨front, item, back, split, same, rfl, -⟩ :=
      exists_item_of_reaches lists enters checks small reaches
    obtain ⟨front', item', back', split', same', rfl, -⟩ :=
      exists_item_of_reaches lists enters checks small reaches'
    have eq := eq_of_extent (split.symm.trans split') (same.symm.trans same')
    rw [(List.cons.inj eq).1]
  case supplied =>
    intro offset height instr reaches found
    obtain ⟨front, item, back, split, rfl, rfl, -⟩ :=
      exists_item_of_reaches lists enters checks small reaches
    cases (place split).2.2.symm.trans found
    exact (fits split).supplied
  case leaves =>
    intro offset height reaches
    obtain ⟨front, item, back, split, rfl, rfl, -⟩ :=
      exists_item_of_reaches lists enters checks small reaches
    obtain ⟨after, effect⟩ := (fits split).supplied
    rw [op?_of_instruction? (place split).2.2, Option.some.injEq, Option.some.injEq,
      Option.some.injEq]
    exact Op.effect_leave effect
  case tailCalls =>
    intro offset start call
    have inside := Nat.ne_of_lt (lt_size_of_op? call)
    obtain ⟨front, item, back, split, rfl⟩ := exists_item lists start inside
    have op := Option.some.inj ((op?_of_instruction? (place split).2.2).symm.trans call)
    have returns := (fits split).last op (plain front ++ [item.toInstruction])
      (by simpa [split] using lists)
    simpa [op] using returns

theorem proper_of_checks : code.Proper setting := by
  have fits {front back : List Item} {item : Item} (split : xs = front ++ item :: back) :
      item.toInstruction.Fares setting := by
    rw [split] at checks
    exact checks.fits.fares
  have passes := passes_of_checks lists enters checks small
  refine .intro ⟨passes, ?_, ?_, small⟩ ?_
  · intro offset op start fetched level known
    have inside := Nat.ne_of_lt (lt_size_of_op? fetched)
    obtain ⟨instr, found⟩ := passes.complete offset start inside
    cases fetched.symm.trans (op?_of_instruction? found)
    obtain ⟨front, item, back, split, -, rfl⟩ := exists_item_of_found lists start found
    exact (fits split).level level known
  · intro offset height reaches
    obtain ⟨_, _, _, -, -, -, bound⟩ := exists_item_of_reaches lists enters checks small reaches
    exact bound
  · intro offset instr inner start found made
    obtain ⟨front, item, back, split, -, rfl⟩ := exists_item_of_found lists start found
    exact (fits split).nested inner made

end

/-- A body is code with a listing and an instruction that ends it. -/
theorem Leads.proper {tail : Bool} (last : Instruction)
    (leads : front.Leads setting tail .empty mid) (ends : last.Ends setting tail mid)
    (small : (front ++ .ofOp last.op last.operands).size ≤ operandLimit) :
    (front ++ .ofOp last.op last.operands).Proper setting := by
  obtain ⟨xs, lists, enters, checks⟩ := leads
  have whole : (front ++ .ofOp last.op last.operands).Lists (plain (xs ++ [⟨last, mid⟩])) := by
    rw [plain_append]
    exact lists.append (.one last)
  have stops := ends.stops
  have straight := ends.straight
  have fits : Fits setting (front ++ .ofOp last.op last.operands).Ending none ⟨last, mid⟩ [] :=
    ⟨ends.fares, ⟨_, ends.effect⟩, fun continues => absurd continues (by simp [stops]),
      fun branches => absurd branches (by simp [straight]),
      fun (call : last.op = .tailCall) => absurd stops (by simp [call, Op.continues])⟩
  exact proper_of_checks whole ((entry_append ..).trans enters)
    (checks.append ⟨fits, trivial⟩ fun _ ended =>
      ending_of_leaves ended.2 (ends.returns ended.1) small) small

end Bytecode

end MiniScheme
