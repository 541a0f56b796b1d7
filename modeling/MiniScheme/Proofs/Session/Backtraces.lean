import MiniScheme.Proofs.Compiler.Provenance
import MiniScheme.Proofs.Session.Constants

/-!
# Backtraces

A failing call is reported at the position that is recorded for it, and so are the calls that wait
for its value. Looking up a position takes the last one recorded at or before an offset, which is the
right one because every call has one of its own, at its own offset, wherever its code has been moved.
It is the position of a form in the data that have been compiled, or of one that they expand to.
-/

namespace MiniScheme

variable {given : Datum → Prop} {data : List Lambda} {lambda lam : Lambda} {pc : Nat}
  {height : Height} {op : Op}

/-- Every call in what has been loaded has a position of its own. -/
theorem Loaded.records (loaded : Loaded data lam)
    (each : ∀ lambda ∈ data, (Constant.lambda lambda).Attributed given)
    (start : lam.body.Starts pc) (fetched : lam.body.op? pc = some op)
    (call : op = .call ∨ op = .tailCall) : ∃ pos, lam.body.Records given pc pos := by
  cases loaded.attributed each with
  | lambda body _ => exact body.records start fetched call

/-- So has every call that control gets to. -/
theorem Lambda.Located.records (located : lam.Located data pc height) (runnable : Runnable data)
    (each : ∀ lambda ∈ data, (Constant.lambda lambda).Attributed given)
    (fetched : lam.body.op? pc = some op) (call : op = .call ∨ op = .tailCall) :
    ∃ pos, lam.body.Records given pc pos := by
  obtain ⟨src, front, offset, loaded, -, body, rfl, reaches⟩ := located
  obtain ⟨level, shape, ⟨sane, -⟩⟩ := loaded.proper runnable
  rw [body, Bytecode.op?, Bytecode.byte_append_right] at fetched
  obtain ⟨pos, records⟩ := loaded.records each (sane.inside offset height reaches).1 fetched call
  exact ⟨pos, body ▸ records.append_right front⟩

/-- The frames of the pending calls are directly behind the calls. -/
theorem Heap.Poised.called {heap : Heap} {cap due : Nat} {frame : Frame} {calls : List Frame}
    {xs : List Value} (poised : heap.Poised data cap due frame calls xs) :
    (0 < due → frame.Called data) ∧ ∀ caller ∈ calls, caller.Called data := by
  induction poised with
  | script supports => exact ⟨supports.called, nofun⟩
  | procedure supports _ _ _ ih =>
    exact ⟨supports.called, List.forall_mem_cons.mpr ⟨ih.1 Nat.one_pos, ih.2⟩⟩

/-- The frame waits for the value of a call, whose form is at the position. -/
def Frame.AwaitsAt (given : Datum → Prop) (frame : Frame) (position : Position) : Prop :=
  ∃ pc, frame.pc = pc + 1 ∧ frame.lambda.body.op? pc = some .call ∧
    frame.lambda.body.Records given pc position

namespace Machine

variable {m after : Machine} {error : ScriptError}

theorem Blames.records (blames : m.Blames error after) (runs : m.Runs data)
    (runnable : Runnable data)
    (each : ∀ lambda ∈ data, (Constant.lambda lambda).Attributed given) :
    ∃ op fault, m.current.lambda.body.op? m.current.pc = some op ∧
      (op = .call ∨ op = .tailCall) ∧ error.cause = .failed fault ∧
      m.current.lambda.body.Records given m.current.pc error.position ∧
      List.Forall₂ (Frame.AwaitsAt given) m.calls.items error.backtrace := by
  obtain ⟨op, fault, failed, fetched, call, -, trace, ended⟩ := blames
  have same : error = .ofFrames fault (m.advance op).trace := by
    rw [← trace]
    exact congrArg Prod.fst ended
  obtain ⟨level, saved, below, ⟨⟨shape, -, sited⟩, -⟩, -⟩ := Heap.poised_iff.mp runs.poised
  obtain ⟨place, records⟩ := sited.located.records runnable each fetched call
  have size : op.size = 1 := by rcases call with rfl | rfl <;> rfl
  have here : (ScriptError.ofFrames fault (m.advance op).trace).position = place := by
    change position (m.advance op).current = place
    rw [position, advance, size, Nat.add_sub_cancel, records.found]
    rfl
  rw [same]
  refine ⟨op, fault, fetched, call, rfl, ?_, ?_⟩
  · rwa [here]
  · refine List.forall₂_map_right_iff.mpr (List.forall₂_same.mpr fun frame mem => ?_)
    obtain ⟨pc, height, behind, fetched, located⟩ := runs.poised.called.2 frame mem
    obtain ⟨place, records⟩ := located.records runnable each fetched (.inl rfl)
    rw [position, behind, Nat.add_sub_cancel, records.found]
    exact ⟨pc, behind, fetched, records⟩

end Machine

namespace Session

variable {session : Session} {ceiling : Nat}

/-- Compiling a datum that is given keeps the origin of what the scopes hold, and its code has that
origin. -/
theorem drawn_compile {s : Session} {d : Datum} (drawn : s.scopes.Drawn given) (known : given d) (scope : ScopeRef) :
    (s.compile d scope).2.scopes.Drawn given ∧
      ∀ code, (s.compile d scope).1 = .ok code → code.Attributed given := by
  have alike : Agree _ _ () (Compiler.compileTopLevel d scope ⟨s.scopes, s.machine.store⟩)
      (Compiler.compileTopLevel d scope ⟨s.scopes, s.machine.store⟩) :=
    Compiler.parallel_compileTopLevel (Compiler.congruence_drawn given).parallels trivial d known ()
      ⟨rfl, drawn, rfl⟩
  simp only [Session.compile, Machine.onStore]
  generalize Compiler.compileTopLevel d scope ⟨s.scopes, s.machine.store⟩ = out at alike ⊢
  cases alike with
  | ok _ met related =>
    refine ⟨related.2.1, fun code same => ?_⟩
    cases same
    exact met.2
  | @error _ after _ _ _ related =>
    refine ⟨related.2.1.rollback drawn after.store.heap, fun code same => ?_⟩
    cases same

theorem drawn_define {s : Session} (drawn : s.scopes.Drawn given) (name : String) (v : Value) :
    (s.define name v).scopes.Drawn given :=
  have stem : ∀ form ∈ none, Stems given form := by simp
  drawn.addVariable globalScope name stem (some v) s.heap

/-- If only given data are compiled in a session, then what its scopes hold and all code that has
been loaded come from them. -/
theorem AttainedFrom.drawn (attained : AttainedFrom given ceiling data session) :
    session.scopes.Drawn given ∧ ∀ lambda ∈ data, (Constant.lambda lambda).Attributed given := by
  induction attained with
  | blank source =>
    have empty : Scopes.Drawn given {} := fun _ _ found => by simp at found
    exact ⟨(empty.push none false _).push (some 0) false _, nofun⟩
  | keyword _ name ih => exact ⟨ih.1.bind globalScope name nofun, ih.2⟩
  | define _ name _ ih => exact ⟨drawn_define ih.1 name _, ih.2⟩
  | @defineNative _ s _ native _ ih =>
    have kept : Scopes.Drawn given { s with machine := (s.machine.addNative native).2 }.scopes := ih.1
    exact ⟨drawn_define kept native.name _, ih.2⟩
  | work _ _ ih => exact ih
  | compile _ known _ ih => exact ⟨(drawn_compile ih.1 known _).1, ih.2⟩
  | @load _ s compiled loaded _ d known code compiles loads ih =>
    obtain ⟨drawn, attributed⟩ := drawn_compile ih.1 known topLevelScope
    rw [compiles] at drawn attributed
    have same : loaded.scopes = compiled.scopes := by
      rw [Session.load, compiles] at loads
      dsimp only at loads
      split at loads <;> cases loads
      rfl
    refine ⟨same ▸ drawn, List.forall_mem_append.mpr ⟨ih.2, List.forall_mem_singleton.mpr ?_⟩⟩
    exact .lambda (attributed code rfl) (drawn.getD _).constants
  | run _ _ _ _ ih => exact ih
  | wake _ _ ih => exact ih
  | cancel _ ih =>
    rw [Session.cancel]
    split <;> exact ih
  | collect _ ih => exact ih
  | queue _ _ _ _ ih => exact ih

def place (index : Nat) : Position :=
  { location := { index } }

/-- `((lambda (f) (f) 1) 2)`, where the inner call fails while the outer one waits. -/
def nested : Datum :=
  let symbol := fun name => Datum.ofSymbol name default
  .list [.list [symbol "lambda", .list [symbol "f"] default, .list [symbol "f"] (place 14), number 1]
    default, number 2] (place 0)

def calling : Session :=
  { ((blank none 16).load nested).2 with running := true }

end Session

end MiniScheme
