import MiniScheme.Proofs.Reading.Grammar
import MiniScheme.Datum.Printer
import MiniScheme.Datum.Reader
import MiniScheme.Proofs.Runs.Sequences

/-!
# The reader accepts its grammar

Reading goes from token to token and keeps what is open on a stack of levels. What has been read so
far can always be told from the levels: `Opened` says which tokens were written for them. Conversely,
the tokens of a datum lead from any level that a datum may stand in to that level with the datum. So
the reader finds the data of a text exactly if they are derived by the grammar, unless it gives up
because too much is open.
-/

namespace MiniScheme

namespace Reader

open Grammar

/-! ### What has been read -/

/-- A datum may start in the innermost level: it is not a dotted list that has its tail. -/
def Accepts : List Level → Prop
  | .dotted _ _ (some _) :: _ => False
  | _ => True

/-- `Contents source level tokens`: the tokens were written since the level was opened, the opening
token included. -/
inductive Contents (source : Source) : Level → List Token → Prop where
  | list {opening : Token} {items : List Datum} {tokens comments : List Token}
      (opens : opening.kind = .openList) (inside : Derives source (.items items.reverse) tokens)
      (dropped : Derives source .comments comments) :
      Contents source (.list opening.location items) (opening :: (tokens ++ comments))
  | dot {opening dot : Token} {items : List Datum} {tokens comments comments' : List Token}
      (opens : opening.kind = .openList) (inside : Derives source (.items items.reverse) tokens)
      (some_item : items ≠ []) (dropped : Derives source .comments comments)
      (dots : dot.kind = .dot) (dropped' : Derives source .comments comments') :
      Contents source (.dotted opening.location items none)
        (opening :: (tokens ++ comments ++ dot :: comments'))
  | tail {opening dot : Token} {items : List Datum} {tail : Datum}
      {tokens comments ending comments' : List Token} (opens : opening.kind = .openList)
      (inside : Derives source (.items items.reverse) tokens) (some_item : items ≠ [])
      (dropped : Derives source .comments comments) (dots : dot.kind = .dot)
      (behind : Derives source (.datum tail) ending)
      (dropped' : Derives source .comments comments') :
      Contents source (.dotted opening.location items (some tail))
        (opening :: (tokens ++ comments ++ dot :: (ending ++ comments')))
  | vector {opening : Token} {items : List Datum} {tokens comments : List Token}
      (opens : opening.kind = .openVector)
      (inside : Derives source (.items items.reverse) tokens)
      (dropped : Derives source .comments comments) :
      Contents source (.vector opening.location items) (opening :: (tokens ++ comments))
  | bytes {opening : Token} {items : List Datum} {tokens comments : List Token}
      (opens : opening.kind = .openBytes) (inside : Derives source (.items items.reverse) tokens)
      (dropped : Derives source .comments comments) :
      Contents source (.bytes opening.location items) (opening :: (tokens ++ comments))
  | mark {token : Token} {keyword : String} {comments : List Token}
      (abbreviates : token.kind.keyword? = some keyword)
      (dropped : Derives source .comments comments) :
      Contents source (.mark token.location keyword) (token :: comments)
  | comment {token : Token} {comments : List Token} (comments_out : token.kind = .datumComment)
      (dropped : Derives source .comments comments) :
      Contents source (.comment token.location) (token :: comments)

/-- `Opened source levels data tokens`: the tokens were written for the data and then for the levels,
which are open where the tokens end. A comment may be anywhere, all else only where a datum may
start. -/
inductive Opened (source : Source) : List Level → List Datum → List Token → Prop where
  | text {data : List Datum} {tokens comments : List Token}
      (inside : Derives source (.items data.reverse) tokens)
      (dropped : Derives source .comments comments) : Opened source [] data (tokens ++ comments)
  | level {level : Level} {outer : List Level} {data : List Datum} {before inside : List Token}
      (around : Opened source outer data before)
      (fits : Accepts outer ∨ ∃ start, level = .comment start)
      (contents : Contents source level inside) :
      Opened source (level :: outer) data (before ++ inside)

variable {source src : Source} {level : Level} {levels outer : List Level} {data : List Datum}
  {tokens fresh comments : List Token} {d : Datum} {token : Token} {st after : State}

theorem Contents.append_comments (contents : Contents src level tokens)
    (more : Derives src .comments comments) : Contents src level (tokens ++ comments) := by
  cases contents with
  | list opens inside dropped =>
    rw [List.cons_append, List.append_assoc]
    exact .list opens inside (dropped.append_comments more)
  | dot opens inside some_item dropped dots dropped' =>
    rw [List.cons_append, List.append_assoc, List.cons_append]
    exact .dot opens inside some_item dropped dots (dropped'.append_comments more)
  | @tail _ _ _ _ _ _ ending _ opens inside some_item dropped dots behind dropped' =>
    rw [List.cons_append, List.append_assoc, List.cons_append, List.append_assoc ending]
    exact .tail opens inside some_item dropped dots behind (dropped'.append_comments more)
  | vector opens inside dropped =>
    rw [List.cons_append, List.append_assoc]
    exact .vector opens inside (dropped.append_comments more)
  | bytes opens inside dropped =>
    rw [List.cons_append, List.append_assoc]
    exact .bytes opens inside (dropped.append_comments more)
  | mark abbreviates dropped => exact .mark abbreviates (dropped.append_comments more)
  | comment comments_out dropped => exact .comment comments_out (dropped.append_comments more)

theorem Opened.append_comments (opened : Opened src levels data tokens)
    (more : Derives src .comments comments) : Opened src levels data (tokens ++ comments) := by
  cases opened with
  | text inside dropped =>
    rw [List.append_assoc]
    exact .text inside (dropped.append_comments more)
  | level around fits contents =>
    rw [List.append_assoc]
    exact .level around fits (contents.append_comments more)

/-- A datum that is finished belongs to the innermost level. -/
theorem opened_deliver (opened : Opened src levels data tokens) (accepts : Accepts levels)
    (written : Derives src (.datum d) fresh) :
    Opened src (deliver src data levels d).levels
      (deliver src data levels d).data (tokens ++ fresh) := by
  have none_left : Derives src .comments [] := .nothing
  induction levels generalizing d tokens fresh with
  | nil =>
    cases opened with
    | text inside dropped =>
      rw [← List.append_nil (_ ++ fresh)]
      exact .text (inside.snoc_behind dropped written) none_left
  | cons level outer ih =>
    cases opened with
    | level around fits contents =>
      rw [List.append_assoc]
      cases contents with
      | list opens inside dropped =>
        exact .level around (.inl (fits.resolve_right nofun)) (by
          simpa using Contents.list opens (inside.snoc_behind dropped written) none_left)
      | dot opens inside some_item dropped dots dropped' =>
        exact .level around (.inl (fits.resolve_right nofun)) (by
          simpa using Contents.tail opens inside some_item dropped dots
            (.behind dropped' written) none_left)
      | tail => exact absurd accepts id
      | vector opens inside dropped =>
        exact .level around (.inl (fits.resolve_right nofun)) (by
          simpa using Contents.vector opens (inside.snoc_behind dropped written) none_left)
      | bytes opens inside dropped =>
        exact .level around (.inl (fits.resolve_right nofun)) (by
          simpa using Contents.bytes opens (inside.snoc_behind dropped written) none_left)
      | mark abbreviates dropped =>
        exact ih around (fits.resolve_right nofun) (.mark abbreviates (.behind dropped written))
      | comment comments_out dropped =>
        exact around.append_comments (.comment none_left comments_out (.behind dropped written))

/-! ### Bytes -/

theorem byte?_eq_some_iff {byte : UInt8} : byte? d = some byte ↔ d.IsByte byte := by
  constructor
  · intro found
    match d with
    | .atom (.integer v) pos =>
      rw [byte?] at found
      split at found
      · rename_i range
        cases found
        refine ⟨v, pos, rfl, ?_⟩
        rw [UInt8.toNat_ofNat', Nat.mod_eq_of_lt (by omega)]
        omega
      · cases found
  · rintro ⟨v, pos, rfl, eq⟩
    have bound := byte.toNat_lt
    rw [byte?, eq, if_pos (by omega), Int.toNat_natCast, UInt8.ofNat_toNat]

variable {xs : List Datum} {opening closing : Token}

theorem mapM_byte?_eq_some_iff {bytes : List UInt8} :
    xs.mapM byte? = some bytes ↔ List.Forall₂ Datum.IsByte bytes xs := by
  simp only [mapM_eq_some_iff, byte?_eq_some_iff]
  exact ⟨.flip, .flip⟩

/-! ### One token more -/

/-- A token that starts a datum is an atom or opens a level. -/
theorem opened_start (opened : Opened src st.levels st.data tokens)
    (fits : Accepts st.levels ∨ token.kind = .datumComment)
    (started : start src st token = .ok after) :
    Opened src after.levels after.data (tokens ++ [token]) := by
  have opens {level : Level} (other : token.kind ≠ .datumComment)
      (contents : Contents src level (token :: ([] ++ []))) :
      Opened src (level :: st.levels) st.data (tokens ++ [token]) :=
    .level opened (.inl (fits.resolve_right other)) contents
  obtain ⟨kind, loc⟩ := token
  cases kind
  case openList =>
    cases started
    exact opens nofun (.list rfl .none .nothing)
  case openVector =>
    cases started
    exact opens nofun (.vector rfl .none .nothing)
  case openBytes =>
    cases started
    exact opens nofun (.bytes rfl .none .nothing)
  case datumComment =>
    cases started
    exact .level opened (.inr ⟨loc, rfl⟩) (.comment rfl .nothing)
  case close => cases started
  case dot => cases started
  case quoteMark | backQuote | comma | commaAt =>
    cases started
    exact opens nofun (.mark rfl .nothing)
  all_goals
    cases started
    exact opened_deliver opened (fits.resolve_right nofun) (.atom rfl)

theorem accepts_of_incomplete (incomplete : ∀ start xs tail outer,
    levels = Level.dotted start xs (some tail) :: outer → False) : Accepts levels := by
  unfold Accepts
  split
  · exact incomplete _ _ _ _ rfl
  · trivial

theorem opened_step (opened : Opened src st.levels st.data tokens)
    (stepped : step src st token = .ok after) :
    Opened src after.levels after.data (tokens ++ [token]) := by
  obtain ⟨levels, data⟩ := st
  rw [step.eq_def] at stepped
  dsimp only at stepped
  split at stepped
  · rename_i closes
    cases stepped
    cases opened with
    | level around fits contents =>
      cases contents with
      | list opens inside dropped =>
        rw [List.append_assoc]
        exact opened_deliver around (fits.resolve_right nofun) (.list opens inside dropped closes)
  · rename_i dots
    cases stepped
    cases opened with
    | level around fits contents =>
      cases contents with
      | list opens inside dropped =>
        rw [List.append_assoc]
        exact .level around (.inl (fits.resolve_right nofun))
          (.dot opens inside (List.cons_ne_nil _ _) dropped dots .nothing)
  · cases stepped
  · rename_i closes
    cases stepped
    cases opened with
    | level around fits contents =>
      cases contents with
      | tail opens inside some_item dropped dots behind dropped' =>
        rw [List.append_assoc, List.cons_append, List.append_assoc, List.cons_append]
        exact opened_deliver around (fits.resolve_right nofun)
          (.dotted opens inside (by simpa using some_item) dropped dots behind dropped' closes)
  · cases stepped
  · cases stepped
  · rename_i closes
    cases stepped
    cases opened with
    | level around fits contents =>
      cases contents with
      | vector opens inside dropped =>
        rw [List.append_assoc]
        exact opened_deliver around (fits.resolve_right nofun) (.vector opens inside dropped closes)
  · rename_i closes
    split at stepped
    · rename_i small
      cases stepped
      cases opened with
      | level around fits contents =>
        cases contents with
        | bytes opens inside dropped =>
          rw [List.append_assoc]
          exact opened_deliver around (fits.resolve_right nofun)
            (.bytes opens inside (mapM_byte?_eq_some_iff.mp small) dropped closes)
    · cases stepped
  iterate 4 exact opened_start opened (.inr ‹_›) stepped
  · cases stepped
  · rename_i incomplete _ _ _ _ _ _ _ _ _ _ _ _
    rw [startWithin] at stepped
    split at stepped
    · cases stepped
    · exact opened_start opened (.inl (accepts_of_incomplete incomplete)) stepped

/-- A datum is too deep only where the innermost level is. -/
theorem depth_of_tooDeep {loc : Location} (stepped : step src st token = .error (.tooDeep loc)) :
    token.location = loc ∧ maxDepth ≤ st.levels.length := by
  have starting (started : start src st token = .error (.tooDeep loc)) : False := by
    obtain ⟨kind, place⟩ := token
    cases kind <;> cases started
  rw [step.eq_def] at stepped
  dsimp only at stepped
  split at stepped
  case h_8 => split at stepped <;> cases stepped
  case h_14 =>
    rw [startWithin] at stepped
    split at stepped
    · cases stepped
      exact ⟨rfl, ‹_›⟩
    · exact absurd stepped starting
  all_goals first
    | cases stepped
    | exact absurd stepped starting

/-- What is open when reading stops: nothing at the end, and too much where a datum is too deep. -/
theorem opened_run (opened : Opened src st.levels st.data tokens) (rest : List Token) :
    match run src st (rest.map .ok) with
    | (final, none) => Opened src [] final.data (tokens ++ rest)
    | (_, some (.tooDeep loc)) => ∃ before token after levels data,
        rest = before ++ token :: after ∧ token.location = loc ∧
          maxDepth ≤ levels.length ∧ Opened src levels data (tokens ++ before)
    | _ => True := by
  induction rest generalizing st tokens with
  | nil =>
    rw [List.map_nil, run]
    obtain ⟨levels, data⟩ := st
    cases levels with
    | nil =>
      rw [List.append_nil]
      exact opened
    | cons level outer => trivial
  | cons token rest ih =>
    rw [List.map_cons, run]
    cases stepped : step src st token with
    | ok after =>
      have ran := ih (opened_step opened stepped)
      rw [List.append_assoc] at ran
      dsimp only
      generalize run src after (rest.map .ok) = res at ran ⊢
      match res with
      | (final, none) => exact ran
      | (_, some (.tooDeep loc)) =>
        obtain ⟨before, deep, behind, levels, data, eq, here, depth, opened⟩ := ran
        refine ⟨token :: before, deep, behind, levels, data, by rw [eq]; rfl, here, depth, ?_⟩
        rwa [List.append_assoc] at opened
      | (_, some (.unexpectedEnd _)) | (_, some (.malformedList _))
      | (_, some (.unexpectedToken _)) | (_, some (.invalidByte _)) | (_, some (.token _)) => trivial
    | error error =>
      cases error with
      | tooDeep loc =>
        obtain ⟨here, depth⟩ := depth_of_tooDeep stepped
        refine ⟨[], token, rest, st.levels, st.data, rfl, here, depth, ?_⟩
        rwa [List.append_nil]
      | _ => trivial

/-! ### What the grammar derives is read -/

variable {room room' : Nat}

theorem run_step (stepped : step src st token = .ok after) (more : List (Except TokenError Token)) :
    run src st (.ok token :: more) = run src after more := by
  rw [run, stepped]

/-- `Reads source room state tokens after`: the tokens lead from one state to the other, unless
something is too deep on the way, which takes that fewer than `room` levels may still be opened. -/
def Reads (source : Source) (room : Nat) (state : State) (tokens : List Token) (after : State) :
    Prop :=
  ∀ more, run source state (tokens.map .ok ++ more) = run source after more ∨
    maxDepth < state.levels.length + room ∧
      ∃ location, (run source state (tokens.map .ok ++ more)).2 = some (.tooDeep location)

theorem Reads.refl (src : Source) (room : Nat) (st : State) : Reads src room st [] st :=
  fun _ => .inl rfl

theorem Reads.trans {mid : State} (first : Reads src room st tokens mid)
    (second : Reads src room' mid fresh after)
    (fits : mid.levels.length + room' ≤ st.levels.length + room) :
    Reads src room st (tokens ++ fresh) after := by
  intro more
  rw [List.map_append, List.append_assoc]
  rcases first (fresh.map .ok ++ more) with eq | deep
  · rw [eq]
    exact (second more).imp_right fun deep => ⟨Nat.lt_of_lt_of_le deep.1 fits, deep.2⟩
  · exact .inr deep

theorem Reads.step (stepped : step src st token = .ok after) : Reads src room st [token] after :=
  fun more => .inl (run_step stepped more)

theorem reads_within (stepped : step src st token = startWithin src st token)
    (started : start src st token = .ok after) : Reads src (room + 1) st [token] after := by
  intro more
  rw [List.map_singleton, List.singleton_append, run, stepped, startWithin, started]
  by_cases deep : maxDepth ≤ st.levels.length
  · rw [if_pos deep]
    exact .inr ⟨by omega, token.location, rfl⟩
  · rw [if_neg deep]
    exact .inl rfl

/-- A token that starts a datum is taken where a datum may start. -/
theorem reads_start (accepts : Accepts st.levels)
    (other : token.kind ≠ .datumComment) (started : start src st token = .ok after) :
    Reads src (room + 1) st [token] after := by
  obtain ⟨levels, data⟩ := st
  refine reads_within ?_ started
  rw [step.eq_def]
  dsimp only
  split
  all_goals first
    | rfl
    | exact absurd ‹_› other
    | (rename_i kind; rw [start, kind] at started; cases started)
    | exact absurd accepts id

theorem reads_comment (st : State) (comments_out : token.kind = .datumComment) :
    Reads src (room + 1) st [token] { st with levels := .comment token.location :: st.levels } := by
  obtain ⟨levels, data⟩ := st
  have started : start src { levels, data } token =
      .ok { levels := .comment token.location :: levels, data } := by
    rw [start, comments_out]
  match levels with
  | [] | .mark _ _ :: _ | .comment _ :: _ =>
    refine reads_within ?_ started
    rw [step.eq_def, comments_out]
  | .list _ _ :: _ | .dotted _ _ none :: _ | .dotted _ _ (some _) :: _ | .vector _ _ :: _
  | .bytes _ _ :: _ =>
    refine .step ?_
    rw [step.eq_def, comments_out]
    exact started

/-- A family of states that differ by the data that have been gathered. -/
def Gathers (source : Source) (gather : List Datum → State) : Prop :=
  ∀ items, Accepts (gather items).levels ∧
    (gather items).levels.length = (gather []).levels.length ∧ ∀ datum,
      deliver source (gather items).data (gather items).levels datum = gather (datum :: items)

/-- What the tokens of a phrase lead to, where `room` levels may be opened. -/
def Leads (source : Source) (room : Nat) (tokens : List Token) : Phrase → Prop
  | .datum datum => ∀ state : State, Accepts state.levels →
      Reads source room state tokens (deliver source state.data state.levels datum)
  | .items items => ∀ gather done, Gathers source gather →
      Reads source room (gather done) tokens (gather (items.reverse ++ done))
  | .comments => ∀ state, Reads source room state tokens state

/-- Nothing is said of how many levels may be opened. -/
theorem Leads.anywhere {phrase : Phrase} (leads : Leads src room tokens phrase) :
    Leads src (maxDepth + 1) tokens phrase := by
  have weaken {st after : State} (reads : Reads src room st tokens after) :
      Reads src (maxDepth + 1) st tokens after := fun more =>
    (reads more).imp_right fun deep => ⟨by omega, deep.2⟩
  cases phrase with
  | datum d => exact fun st accepts => weaken (leads st accepts)
  | items xs => exact fun gather done gathers => weaken (leads gather done gathers)
  | comments => exact fun st => weaken (leads st)

theorem leads_nothing : Leads src room [] .comments :=
  .refl src room

theorem leads_none : Leads src room [] (.items []) :=
  fun _ _ _ => .refl src room _

theorem leads_append {more : List Datum} (front : Leads src room tokens (.items xs))
    (back : Leads src room fresh (.items more)) :
    Leads src room (tokens ++ fresh) (.items (xs ++ more)) := by
  intro gather done gathers
  have behind := back gather (xs.reverse ++ done) gathers
  rw [← List.append_assoc, ← List.reverse_append] at behind
  exact (front gather done gathers).trans behind
    (Nat.le_of_eq (by rw [(gathers _).2.1, (gathers done).2.1]))

theorem leads_singleton (written : Leads src room tokens (.datum d)) :
    Leads src room tokens (.items [d]) := by
  intro gather done gathers
  have delivered := written _ (gathers done).1
  rw [(gathers done).2.2] at delivered
  exact delivered

theorem leads_atom {v : Atom} (stands : token.kind.atom? = some v) :
    Leads src (room + 1) [token] (.datum (.atom v (placeOf src token))) := by
  intro st accepts
  obtain ⟨kind, loc⟩ := token
  cases kind <;> cases stands <;> exact reads_start accepts nofun rfl

theorem leads_mark {keyword : String} (abbreviates : token.kind.keyword? = some keyword)
    (marked : Leads src room tokens (.datum d)) :
    Leads src (room + 1) (token :: tokens) (.datum (.list
      [.ofSymbol keyword (placeOf src token), d] (placeOf src token))) := by
  intro st accepts
  have waits : Reads src (room + 1) st [token]
      { st with levels := .mark token.location keyword :: st.levels } := by
    obtain ⟨kind, loc⟩ := token
    cases kind <;> cases abbreviates <;> exact reads_start accepts nofun rfl
  exact waits.trans (marked _ trivial) (by simp only [List.length_cons]; omega)

section

variable (inside : Leads src room tokens (.items xs))
  (dropped : Leads src room comments .comments)

include inside dropped

/-- Items and comments between an opening token and the closing one. -/
theorem leads_enclosed (make : Location → List Datum → Level)
    (gathers : ∀ st : State, Gathers src fun xs =>
      { st with levels := make opening.location xs :: st.levels })
    (other : opening.kind ≠ .datumComment) (opens : ∀ st : State, start src st opening =
      .ok { st with levels := make opening.location [] :: st.levels })
    (closes : ∀ st : State, step src
      { st with levels := make opening.location xs.reverse :: st.levels } closing =
        .ok (deliver src st.data st.levels d)) :
    Leads src (room + 1) (opening :: (tokens ++ comments ++ [closing])) (.datum d) := by
  intro st accepts
  have opened : Reads src (room + 1) st [opening] _ := reads_start accepts other (opens st)
  have filled := inside _ [] (gathers st)
  rw [List.append_nil] at filled
  have closed : Reads src room _ [closing] _ := .step (closes st)
  refine opened.trans ((filled.trans (dropped _) (Nat.le_refl _)).trans closed (Nat.le_refl _)) ?_
  simp only [List.length_cons]
  omega

theorem leads_list (opens : opening.kind = .openList) (closes : closing.kind = .close) :
    Leads src (room + 1) (opening :: (tokens ++ comments ++ [closing]))
      (.datum (.list xs (placeOf src opening))) := by
  refine leads_enclosed inside dropped .list (fun _ _ => ⟨trivial, rfl, fun _ => rfl⟩)
    (by rw [opens]; exact nofun) (fun st => by rw [start, opens]) fun st => ?_
  rw [step.eq_def]
  simp only [closes, List.reverse_reverse]
  rfl

theorem leads_vector (opens : opening.kind = .openVector) (closes : closing.kind = .close) :
    Leads src (room + 1) (opening :: (tokens ++ comments ++ [closing]))
      (.datum (.vector xs (placeOf src opening))) := by
  refine leads_enclosed inside dropped .vector (fun _ _ => ⟨trivial, rfl, fun _ => rfl⟩)
    (by rw [opens]; exact nofun) (fun st => by rw [start, opens]) fun st => ?_
  rw [step.eq_def]
  simp only [closes, List.reverse_reverse]
  rfl

theorem leads_bytes {bytes : List UInt8} (opens : opening.kind = .openBytes)
    (small : List.Forall₂ Datum.IsByte bytes xs) (closes : closing.kind = .close) :
    Leads src (room + 1) (opening :: (tokens ++ comments ++ [closing]))
      (.datum (.atom (.bytes bytes) (placeOf src opening))) := by
  refine leads_enclosed inside dropped .bytes (fun _ _ => ⟨trivial, rfl, fun _ => rfl⟩)
    (by rw [opens]; exact nofun) (fun st => by rw [start, opens]) fun st => ?_
  rw [step.eq_def]
  simp only [closes, List.reverse_reverse, mapM_byte?_eq_some_iff.mpr small]
  rfl

/-- A dotted list: its items, the dot and its tail, with comments behind each. -/
theorem leads_dotted {dot : Token} {tail : Datum} {ending comments' : List Token}
    (opens : opening.kind = .openList) (some_item : xs ≠ []) (dots : dot.kind = .dot)
    (behind : Leads src room ending (.datum tail))
    (dropped' : Leads src room comments' .comments) (closes : closing.kind = .close) :
    Leads src (room + 1)
      (opening :: (tokens ++ comments ++ dot :: (ending ++ comments' ++ [closing])))
      (.datum (.withTail xs tail (placeOf src opening))) := by
  intro st accepts
  have opened : Reads src (room + 1) st [opening]
      { st with levels := .list opening.location [] :: st.levels } := by
    refine reads_start accepts (by rw [opens]; exact nofun) ?_
    rw [start, opens]
  have filled := inside (fun xs =>
    { st with levels := .list opening.location xs :: st.levels }) []
    fun _ => ⟨trivial, rfl, fun _ => rfl⟩
  rw [List.append_nil] at filled
  have turned : Reads src room
      { st with levels := .list opening.location xs.reverse :: st.levels } [dot]
      { st with levels := .dotted opening.location xs.reverse none :: st.levels } := by
    obtain ⟨item, others, eq⟩ := List.exists_cons_of_ne_nil
      (fun empty => some_item (List.reverse_eq_nil_iff.mp empty))
    refine .step ?_
    rw [eq, step.eq_def]
    simp only [dots]
  have closed : Reads src room
      { st with levels := .dotted opening.location xs.reverse (some tail) :: st.levels }
      [closing] (deliver src st.data st.levels (.withTail xs tail (placeOf src opening))) := by
    refine .step ?_
    rw [step.eq_def]
    simp only [closes, List.reverse_reverse]
    rfl
  have finished : Reads src room
      { st with levels := .dotted opening.location xs.reverse none :: st.levels } ending
      { st with
        levels := .dotted opening.location xs.reverse (some tail) :: st.levels } :=
    behind { st with levels := .dotted opening.location xs.reverse none :: st.levels } trivial
  have begun := (filled.trans (dropped _) (Nat.le_refl _)).trans turned (Nat.le_refl _)
  have ended := (finished.trans (dropped' _) (Nat.le_refl _)).trans closed (Nat.le_refl _)
  rw [List.append_cons (tokens ++ comments)]
  refine opened.trans (begun.trans ended (Nat.le_refl _)) ?_
  simp only [List.length_cons]
  omega

end

/-- The tokens of a phrase are read as that phrase, unless something is too deep. -/
theorem leads_of_derives {phrase : Phrase} (derives : Derives src phrase tokens) :
    Leads src (maxDepth + 1) tokens phrase := by
  induction derives with
  | atom stands => exact leads_atom stands
  | mark abbreviates _ marked => exact (leads_mark abbreviates marked).anywhere
  | list opens _ _ closes inside dropped => exact (leads_list inside dropped opens closes).anywhere
  | dotted opens _ some_item _ dots _ _ closes inside dropped behind dropped' =>
    exact (leads_dotted inside dropped opens some_item dots behind dropped' closes).anywhere
  | vector opens _ _ closes inside dropped =>
    exact (leads_vector inside dropped opens closes).anywhere
  | bytes opens _ small _ closes inside dropped =>
    exact (leads_bytes inside dropped opens small closes).anywhere
  | behind _ _ dropped written =>
    exact fun st accepts => (dropped st).trans (written st accepts) (Nat.le_refl _)
  | none => exact leads_none
  | snoc _ _ front last => exact leads_append front (leads_singleton last)
  | nothing => exact leads_nothing
  | comment _ comments_out _ front dropped =>
    -- One level more is open while a datum is dropped, which does not matter here.
    have one {tokens : List Token} {d : Datum}
        (dropped : Leads src (maxDepth + 1) tokens (.datum d)) :
        Leads src (maxDepth + 2) (_ :: tokens) .comments := fun st =>
      (reads_comment st comments_out).trans (dropped _ trivial)
        (by simp only [List.length_cons]; omega)
    exact fun st => (front st).trans ((one dropped).anywhere st) (Nat.le_refl _)

end Reader

open Grammar Reader

section

variable {source src : Source} {tokens : List Token} {data : List Datum}

theorem read_eq (scanned : tokenize src.text = tokens.map .ok) :
    read src = match run src {} (tokens.map .ok) with
      | (st, none) => .ok st.data.reverse
      | (_, some error) => .error error := by
  rw [read, readUpToError, scanned]
  generalize run src {} (tokens.map .ok) = res
  match res with
  | (_, none) => rfl
  | (_, some _) => rfl

theorem opened_nil : Opened src ({} : State).levels ({} : State).data [] :=
  show Opened src [] [] ([] ++ []) from .text .none .nothing

theorem derivesText_of_read (scanned : tokenize src.text = tokens.map .ok)
    (found : read src = .ok data) : DerivesText src data tokens := by
  have ran := opened_run (@opened_nil src) tokens
  rw [read_eq scanned] at found
  generalize run src {} (tokens.map .ok) = res at ran found
  match res with
  | (final, none) =>
    cases found
    generalize eq : [] ++ tokens = whole at ran
    cases ran with
    | text inside dropped => exact ⟨_, _, eq, inside, dropped⟩

theorem read_of_derivesText (scanned : tokenize src.text = tokens.map .ok)
    (derives : DerivesText src data tokens) :
    read src = .ok data ∨ ∃ loc, read src = .error (.tooDeep loc) := by
  obtain ⟨front, comments, rfl, inside, dropped⟩ := derives
  have gathers : Gathers src fun data => { data } := fun _ => ⟨trivial, rfl, fun _ => rfl⟩
  have reads := (leads_of_derives inside _ [] gathers).trans (leads_of_derives dropped _)
    (Nat.le_refl _)
  rcases reads [] with eq | ⟨-, loc, deep⟩
  · left
    rw [List.append_nil] at eq
    rw [read_eq scanned, eq, run]
    simp
  · right
    refine ⟨loc, ?_⟩
    rw [List.append_nil] at deep
    rw [read_eq scanned]
    generalize run src {} ((front ++ comments).map .ok) = res at deep ⊢
    obtain ⟨st, error⟩ := res
    cases deep
    rfl

/-- The reader accepts exactly its grammar. Unless something is too deep, reading a text gives exactly
the data that its tokens are written for, each at its position, and where there are none it fails.
Something is too deep only if there is a token with 512 or more lists, vectors, abbreviations and
datum comments open around it. -/
theorem read_eq_ok_iff_grammar (scanned : tokenize source.text = tokens.map .ok) :
    ((∀ location, read source ≠ .error (.tooDeep location)) →
      ∀ data, read source = .ok data ↔ DerivesText source data tokens) ∧
    ((¬ ∃ data, DerivesText source data tokens) → ∃ error, read source = .error error) ∧
    ∀ location, read source = .error (.tooDeep location) →
      ∃ before token after levels data, tokens = before ++ token :: after ∧
        token.location = location ∧ 512 ≤ levels.length ∧ Opened source levels data before := by
  refine ⟨fun shallow data => ⟨derivesText_of_read scanned, fun derives => ?_⟩, fun underivable => ?_,
    fun location deep => ?_⟩
  · rcases read_of_derivesText scanned derives with found | ⟨location, deep⟩
    · exact found
    · exact absurd deep (shallow location)
  · cases found : read source with
    | error error => exact ⟨error, rfl⟩
    | ok data => exact absurd ⟨data, derivesText_of_read scanned found⟩ underivable
  · have ran := opened_run (@opened_nil source) tokens
    rw [read_eq scanned] at deep
    generalize run source {} (tokens.map .ok) = result at ran deep
    match result with
    | (_, some (.tooDeep location)) =>
      cases deep
      exact ran

end

theorem exists_tokens {xs : List (Except TokenError Token)}
    (scanned : xs.all (fun item => item.toOption.isSome) = true) :
    ∃ tokens : List Token, xs = tokens.map .ok := by
  induction xs with
  | nil => exact ⟨[], rfl⟩
  | cons item xs ih =>
    rw [List.all_cons, Bool.and_eq_true] at scanned
    obtain ⟨tokens, rfl⟩ := ih scanned.2
    cases item with
    | error error => cases scanned.1
    | ok token => exact ⟨token :: tokens, rfl⟩

/-- Comments in front of a dot, behind a tail and at the end. -/
def commented : Source :=
  { text := "(a #;b . #;#;c d 'e #;f) #;g", name := none }

theorem read_eq_ok_iff_grammar_commented : ∃ tokens data, tokenize commented.text = tokens.map .ok ∧
    read commented = .ok data ∧ DerivesText commented data tokens ∧
      data.map Datum.text = ["(a quote e)"] := by
  have scanned : (tokenize commented.text).all (fun item => item.toOption.isSome) = true := by
    decide +kernel
  have answer : (match read commented with
      | .ok data => data.map Datum.text == ["(a quote e)"]
      | .error _ => false) = true := by
    decide +kernel
  obtain ⟨tokens, scanned⟩ := exists_tokens scanned
  split at answer
  next data found =>
    have shallow : ∀ location, read commented ≠ .error (.tooDeep location) := by
      intro location deep
      cases found.symm.trans deep
    exact ⟨tokens, data, scanned, found,
      ((read_eq_ok_iff_grammar scanned).1 shallow data).mp found, eq_of_beq answer⟩
  next => cases answer

end MiniScheme
