import MiniScheme.Proofs.Machine.Slices
import MiniScheme.Proofs.Session.Safety

/-!
# Time slicing

A text can be run in slices, each for some number of instructions per datum. However the slices are
chosen, the session ends up with the answer and in the state that it would have got to in one go: a
pause loses nothing, repeats nothing, and does not show.
-/

namespace MiniScheme.Session

/-- What a session answers when it runs, and the session afterwards. -/
abbrev Ran : Type :=
  Except ScriptError (Option Value) × Session

/-- Whether there is more to do and nothing to wait for. -/
def isPaused : Ran → Bool
  | (.ok none, session) => !session.isSuspended
  | _ => false

/-- `Sliced budgets session ran`: the session runs for each of the budgets in turn, until it no
longer answers that there is more to do. -/
inductive Sliced : (Nat → Nat) → Session → Ran → Prop where
  | ended {budgets : Nat → Nat} {session : Session}
      (ends : isPaused (session.execute (budgets 0)) = false) :
      Sliced budgets session (session.execute (budgets 0))
  | paused {budgets : Nat → Nat} {session : Session} {ran : Ran}
      (pauses : isPaused (session.execute (budgets 0)) = true)
      (rest : Sliced (fun turn => budgets (turn + 1)) (session.execute (budgets 0)).2 ran) :
      Sliced budgets session ran

variable {budgets : Nat → Nat} {s : Session}

/-- What slices lead to is determined by the budgets. -/
theorem Sliced.unique {ran ran' : Ran} (sliced : Sliced budgets s ran)
    (sliced' : Sliced budgets s ran') : ran = ran' := by
  induction sliced with
  | ended ends =>
    cases sliced' with
    | ended => rfl
    | paused pauses => cases ends.symm.trans pauses
  | paused pauses _ ih =>
    cases sliced' with
    | ended ends => cases ends.symm.trans pauses
    | paused _ rest => exact ih rest

/-- `Leads ran final`: the session has got to the end, or gets there from where it has paused,
whatever the budgets. -/
def Leads (ran final : Ran) : Prop :=
  ran = final ∨ isPaused ran = true ∧ ∀ budgets, Sliced budgets ran.2 final

theorem Leads.sliced {final : Ran} (leads : Leads (s.execute (budgets 0)) final)
    (ended : isPaused final = false) : Sliced budgets s final := by
  rcases leads with rfl | ⟨pauses, sliced⟩
  · exact .ended ended
  · exact .paused pauses (sliced _)

/-! ### Data in slices -/

/-- Compiles and runs data one by one, each for at most a number of instructions. -/
def runAll (cycles : Nat) (data : List Datum) (session : Session) : Ran :=
  let (outcome, (), session) := runData (fun _ => id) cycles data () session
  (outcome, session)

/-- How a session goes on with data when its machine has run. -/
def finish (cycles : Nat) (data : List Datum) (session : Session) : Machine.Ran Unit → Ran
  | (.error error, _, machine) => (.error error, { session with machine }.abandon)
  | (.ok none, _, machine) => (.ok none, { session with machine, pending := data, running := true })
  | (.ok (some value), _, machine) =>
    runAll cycles data { session with machine, last := value, running := false }

/-- The machine before the run does not matter any more. -/
theorem finish_machine (cycles : Nat) (data : List Datum) (s : Session) (m : Machine)
    (ran : Machine.Ran Unit) :
    finish cycles data { s with machine := m } ran = finish cycles data s ran := by
  match ran with
  | (.error _, _, _) => rfl
  | (.ok none, _, _) => rfl
  | (.ok (some _), _, _) => rfl

/-- What happens to the first of a number of data: it does not compile, or it is run. -/
theorem runAll_cons (cycles : Nat) (d : Datum) (data : List Datum)
    (idle : s.running = false) : runAll cycles (d :: data) s = match s.load d with
      | (.error error, failed) => (.error error, failed.abandon)
      | (.ok (), loaded) => finish cycles data loaded
          (loaded.machine.run (fun _ => id) (Machine.budget cycles) ()) := by
  obtain ⟨out, m, scopes, load⟩ := load_queue d s
  have loads := load s.pending s.running s.last
  cases out with
  | error error => simp only [runAll, runData, loads]
  | ok =>
    simp only [runAll, runData, loads, runMachine_eq, Machine.execute_active (suspended_load loads)]
    generalize m.run (fun _ => id) (Machine.budget cycles) () = ran
    obtain ⟨_ | _ | _, _, _⟩ := ran
    case ok.some =>
      rw [idle]
      rfl
    all_goals rfl

/-- What was queued before does not matter to the data that are run. -/
theorem runAll_pending (cycles : Nat) (data pending : List Datum) (idle : s.running = false) :
    runAll cycles data { s with pending } = runAll cycles data s := by
  induction data generalizing s with
  | nil => rfl
  | cons d data ih =>
    have idle' : Session.running { s with pending } = false := idle
    obtain ⟨out, m, scopes, load⟩ := load_queue d s
    have loads := load s.pending s.running s.last
    rw [runAll_cons cycles d data idle, runAll_cons cycles d data idle', load, loads]
    cases out with
    | error error => rfl
    | ok =>
      dsimp only
      generalize m.run (fun _ => id) (Machine.budget cycles) () = ran
      match ran with
      | (.error _, _, _) => rfl
      | (.ok none, _, _) => rfl
      | (.ok (some v), _, m) =>
        exact @ih { s with machine := m, scopes, last := v, running := false } rfl

theorem execute_running (active : s.machine.suspended = none) (cycles : Nat) (data : List Datum) :
    execute cycles { s with pending := data, running := true } = finish cycles data s
      (s.machine.run (fun _ => id) (Machine.budget cycles) ()) := by
  simp only [execute, executeWith, if_true, runMachine_eq, Machine.execute_active active]
  generalize s.machine.run (fun _ => id) (Machine.budget cycles) () = ran
  obtain ⟨_ | _ | v, _, m⟩ := ran
  case ok.some =>
    have idle : Session.running { s with machine := m, last := v, running := false } = false := rfl
    exact runAll_pending cycles data data idle
  all_goals rfl

theorem execute_idle (idle : s.running = false) (cycles : Nat) :
    s.execute cycles = runAll cycles s.pending s := by
  simp only [execute, executeWith, idle, Bool.false_eq_true, if_false]
  rfl

theorem budget_pos (cycles : Nat) : 0 < Machine.budget cycles := by
  unfold Machine.budget
  split
  · decide
  · exact Nat.pos_of_ne_zero ‹_›

section

variable {cycles : Nat} {data : List Datum}
  (others : ∀ (s : Session) (slice : Nat), s.running = false →
    isPaused (runAll cycles data s) = false →
      Leads (runAll slice data s) (runAll cycles data s))

include others

/-- Where the machine has come to its end in one slice, only the data behind it matter. -/
theorem leads_finish_same (slice : Nat) (s : Session) (ran : Machine.Ran Unit)
    (ended : isPaused (finish cycles data s ran) = false) :
    Leads (finish slice data s ran) (finish cycles data s ran) := by
  match ran with
  | (.error _, _, _) => exact .inl rfl
  | (.ok none, _, _) => exact .inl rfl
  | (.ok (some v), _, m) => exact others _ slice rfl ended

/-- A machine that is run in slices leads to what it leads to in one go, provided that the data
behind it do. -/
theorem leads_finish (slice room : Nat) {s : Session} (active : s.machine.suspended = none)
    (ended : isPaused (finish cycles data s (s.machine.run (fun _ => id) room ())) = false) :
    Leads (finish slice data s (s.machine.run (fun _ => id) (Machine.budget slice) ()))
      (finish cycles data s (s.machine.run (fun _ => id) room ())) := by
  induction room using Nat.strongRecOn generalizing slice s with
  | ind room ih =>
    have same := leads_finish_same others slice s
    rcases Nat.lt_or_ge (Machine.budget slice) room with short | long
    · -- The slice may end before the machine does; each slice leaves less to do.
      obtain ⟨less, split⟩ := Nat.exists_eq_add_of_lt short
      have parts := Machine.run_add (fun _ => id) active (Machine.budget slice) (less + 1) ()
      rw [← Nat.add_assoc, ← split] at parts
      rw [parts] at ended ⊢
      generalize s.machine.run (fun _ => id) (Machine.budget slice) () = ran at ended ⊢
      obtain ⟨_ | _ | _, _, m⟩ := ran
      case ok.none =>
        cases waits : m.isSuspended with
        | true =>
          simp only [Machine.onward, waits, if_true] at ended ⊢
          exact same _ ended
        | false =>
          have active : ({ s with machine := m } : Session).machine.suspended = none :=
            Option.not_isSome_iff_eq_none.mp (Bool.eq_false_iff.mp waits)
          simp only [Machine.onward, waits, Bool.false_eq_true, if_false] at ended ⊢
          refine .inr ⟨?_, fun budgets => ?_⟩
          · simp only [finish, isPaused, isSuspended, waits, Bool.not_false]
          · have smaller : less + 1 < room := by
              have := budget_pos slice
              omega
            refine Leads.sliced ?_ ended
            rw [← finish_machine cycles data s m] at ended ⊢
            have resumed := ih (less + 1) smaller (budgets 0) active ended
            rw [← execute_running active (budgets 0) data] at resumed
            exact resumed
      all_goals exact same _ ended
    · obtain ⟨more, enough⟩ := Nat.exists_eq_add_of_le long
      rw [enough, Machine.run_add _ active]
      generalize s.machine.run (fun _ => id) room () = ran at ended ⊢
      obtain ⟨_ | _ | _, _, m⟩ := ran
      case ok.none =>
        have waits : m.isSuspended = true := by
          simpa [finish, isPaused, isSuspended] using ended
        simp only [Machine.onward, waits, if_true]
        exact same _ ended
      all_goals exact same _ ended

end

/-- Data that are run in slices lead to what they lead to in one go. -/
theorem leads_runAll (cycles : Nat) (data : List Datum) (s : Session) (slice : Nat)
    (idle : s.running = false) (ended : isPaused (runAll cycles data s) = false) :
    Leads (runAll slice data s) (runAll cycles data s) := by
  induction data generalizing s slice with
  | nil => exact .inl rfl
  | cons d data ih =>
    rw [runAll_cons cycles d data idle] at ended ⊢
    rw [runAll_cons slice d data idle]
    cases loads : s.load d with
    | mk out loaded =>
      rw [loads] at ended
      cases out with
      | error error => exact .inl rfl
      | ok => exact leads_finish ih slice (Machine.budget cycles) (suspended_load loads) ended

/-- Time slicing is invisible. Take any session and queue the data of any text in it. If running
them without a limit comes to an end, with a value, with an error or because a native procedure owes
its result, then running them in slices does, whatever the budgets: after a number of pauses the
answer and the session are those that there would have been without any. -/
theorem sliced_iff_execute (session : Session) (text : String) (budgets : Nat → Nat)
    (returns : isPaused ((session.start text).2.execute 0) = false) (ran : Ran) :
    Sliced budgets (session.start text).2 ran ↔ ran = (session.start text).2.execute 0 := by
  have idle := running_start text session
  generalize (session.start text).2 = queued at returns idle ⊢
  have sliced : Sliced budgets queued (queued.execute 0) := by
    refine Leads.sliced ?_ returns
    rw [execute_idle idle] at returns
    rw [execute_idle idle, execute_idle idle]
    exact leads_runAll 0 queued.pending queued (budgets 0) idle returns
  constructor
  · intro other
    exact other.unique sliced
  · rintro rfl
    exact sliced

def threeData : String :=
  "(define (same x) x) (same 1) (same 2)"

/-- Slices of one instruction pause, and lead to the value of the last datum. -/
theorem sliced_iff_execute_threeData :
    let queued := ((blank none 16).start threeData).2
    Sliced (fun _ => 1) queued (queued.execute 0) ∧ isPaused (queued.execute 1) = true ∧
      (queued.execute 0).1.toOption.map (Option.map (queued.execute 0).2.heap.writeText) =
        some (some "2") := by
  have returns : isPaused (((blank none 16).start threeData).2.execute 0) = false := by
    decide +kernel
  refine ⟨(sliced_iff_execute (blank none 16) threeData (fun _ => 1) returns _).mpr rfl, ?_, ?_⟩
  · decide +kernel
  · decide +kernel

end MiniScheme.Session
