import MiniScheme.Datum.Reader

/-!
# The places of data

What is read from tokens depends on where they stand only as far as the positions of data and of
errors go: tokens moved elsewhere, in another source and behind other data, are read as the same data
moved there.
-/

namespace MiniScheme

variable (target : Source) (move : Location → Location)

mutual

/-- The datum with its parts moved to other places in a source. -/
def Datum.moved : Datum → Datum
  | .atom value position => .atom value ⟨target, move position.location⟩
  | .list items position => .list (movedItems items) ⟨target, move position.location⟩
  | .dotted items tail position =>
    .dotted (movedItems items) tail.moved ⟨target, move position.location⟩
  | .vector items position => .vector (movedItems items) ⟨target, move position.location⟩

/-- Data in sequence, with their parts moved. -/
def Datum.movedItems : List Datum → List Datum
  | [] => []
  | item :: items => item.moved :: movedItems items

end

@[simp] theorem Datum.movedItems_eq (xs : List Datum) :
    movedItems target move xs = xs.map (moved target move) := by
  induction xs with
  | nil => rfl
  | cons item xs ih => rw [movedItems, ih, List.map_cons]

def Token.moved (token : Token) : Token :=
  { token with location := move token.location }

def movedItem : Except TokenError Token → Except TokenError Token
  | .ok token => .ok (token.moved move)
  | .error error => .error { error with location := move error.location }

def ReadError.moved : ReadError → ReadError
  | .unexpectedEnd location => .unexpectedEnd (move location)
  | .malformedList location => .malformedList (move location)
  | .unexpectedToken location => .unexpectedToken (move location)
  | .invalidByte location => .invalidByte (move location)
  | .tooDeep location => .tooDeep (move location)
  | .token error => .token { error with location := move error.location }

namespace Reader

/-- The level with its start and its parts moved. -/
def Level.moved : Level → Level
  | .list start items => .list (move start) (items.map (.moved target move))
  | .dotted start items tail =>
    .dotted (move start) (items.map (.moved target move)) (tail.map (.moved target move))
  | .vector start items => .vector (move start) (items.map (.moved target move))
  | .bytes start items => .bytes (move start) (items.map (.moved target move))
  | .mark start keyword => .mark (move start) keyword
  | .comment start => .comment (move start)

variable (before : List Datum)

/-- The state with all its parts moved, after other data. -/
def State.moved (state : State) : State :=
  { levels := state.levels.map (.moved target move)
    data := state.data.map (.moved target move) ++ before }

variable (src : Source)

theorem deliver_moved (data : List Datum) (levels : List Level) (d : Datum) :
    deliver target (data.map (.moved target move) ++ before) (levels.map (.moved target move))
      (d.moved target move) = (deliver src data levels d).moved target move before := by
  induction levels generalizing d with
  | nil => rfl
  | cons level levels ih =>
    cases level with
    | mark start keyword =>
      rw [deliver, ← ih]
      rfl
    | _ => rfl

def movedOutcome : Except ReadError State → Except ReadError State
  | .ok state => .ok (state.moved target move before)
  | .error error => .error (error.moved move)

theorem start_moved (st : State) (token : Token) :
    start target (st.moved target move before) (token.moved move) =
      movedOutcome target move before (start src st token) := by
  obtain ⟨kind, loc⟩ := token
  cases kind <;> first
    | rfl
    | exact congrArg Except.ok (deliver_moved target move before src st.data st.levels
          (.atom _ ⟨src, loc⟩))

theorem byte?_moved (d : Datum) : byte? (d.moved target move) = byte? d := by
  cases d with
  | atom v => cases v <;> rfl
  | _ => rfl

theorem withTail_moved (xs : List Datum) (tail : Datum) (loc : Location) :
    Datum.withTail (xs.map (.moved target move)) (tail.moved target move) ⟨target, move loc⟩ =
      (Datum.withTail xs tail ⟨src, loc⟩).moved target move := by
  cases xs <;> cases tail <;> simp [Datum.withTail, Datum.moved]

theorem step_moved (st : State) (token : Token) :
    step target (st.moved target move before) (token.moved move) =
      movedOutcome target move before (step src st token) := by
  have within : startWithin target (st.moved target move before) (token.moved move) =
      movedOutcome target move before (startWithin src st token) := by
    rw [startWithin, startWithin, start_moved]
    simp only [State.moved, List.length_map]
    split <;> rfl
  obtain ⟨levels, data⟩ := st
  obtain ⟨kind, loc⟩ := token
  have started := start_moved target move before src ⟨levels, data⟩ ⟨kind, loc⟩
  have finished (outer : List Level) (d : Datum) {d' : Datum} (same : d.moved target move = d') :
      Except.ok (deliver target (data.map (.moved target move) ++ before)
        (outer.map (.moved target move)) d') =
          movedOutcome target move before (.ok (deliver src data outer d)) :=
    same ▸ congrArg Except.ok (deliver_moved target move before src data outer d)
  cases levels with
  | nil => exact within
  | cons level outer =>
    cases level with
    | list opened xs =>
      cases xs <;> cases kind <;> first
        | exact within
        | exact started
        | rfl
        | exact finished outer (.list _ ⟨src, opened⟩) (by simp [Datum.moved])
    | dotted opened xs tail =>
      cases tail <;> cases kind <;> first
        | exact within
        | exact started
        | rfl
        | (refine finished outer (.withTail _ _ ⟨src, opened⟩) ?_
           rw [← withTail_moved, List.map_reverse])
    | vector opened xs =>
      cases kind <;> first
        | exact within
        | exact started
        | exact finished outer (.vector _ ⟨src, opened⟩) (by simp [Datum.moved])
    | bytes opened xs =>
      cases kind with
      | close =>
        have bytes : (xs.map (Datum.moved target move)).reverse.mapM byte? =
            xs.reverse.mapM byte? := by
          rw [← List.map_reverse, List.mapM_map]
          simp only [Function.comp_def, byte?_moved]
        simp only [State.moved, List.map_cons, Level.moved, Token.moved, step, bytes]
        cases xs.reverse.mapM byte? with
        | none => rfl
        | some bytes => exact finished outer (.atom (.bytes bytes) ⟨src, opened⟩) rfl
      | _ => first | exact within | exact started
    | mark start keyword => exact within
    | comment start => exact within

/-- Moved tokens are read as moved data. -/
theorem run_moved (st : State) (xs : List (Except TokenError Token)) :
    run target (st.moved target move before) (xs.map (movedItem move)) =
      ((run src st xs).1.moved target move before, (run src st xs).2.map (.moved move)) := by
  induction xs generalizing st with
  | nil =>
    obtain ⟨levels, data⟩ := st
    cases levels with
    | nil => rfl
    | cons level => cases level <;> rfl
  | cons item xs ih =>
    cases item with
    | error error => rfl
    | ok token =>
      simp only [List.map_cons, movedItem, run, step_moved target move before src]
      cases step src st token with
      | ok after => exact ih after
      | error error => rfl

theorem error_not_mem_of_run {st : State} {xs : List (Except TokenError Token)}
    (ran : (run src st xs).2 = none) (flaw : TokenError) : .error flaw ∉ xs := by
  fun_induction run src st xs
  case case4 ih => simpa using ih ran
  all_goals simp_all

end Reader

end MiniScheme
