import Mathlib.Order.Basic

/-!
# Two runs side by side

Two runs of a program are compared in a world, which says what in one of them stands for what in the
other. Worlds only grow: what an action makes on both sides is related in a later world, and what
was related before stays so. An action tracks another if from related states they come to related
results or to the same error, and leave related states behind.
-/

namespace MiniScheme

variable {W ε σ α β : Type}

variable [Preorder W] {states : W → σ → σ → Prop} {results : W → α → α → Prop}
  {results' : W → β → β → Prop} {world : W}

/-- Both runs come to related results or to the same error, in a world that is no earlier. -/
inductive Agree (states : W → σ → σ → Prop) (results : W → α → α → Prop) (world : W) :
    EStateM.Result ε σ α → EStateM.Result ε σ α → Prop
  | ok {later : W} {result result' : α} {state state' : σ} (le : world ≤ later)
      (met : results later result result') (related : states later state state') :
      Agree states results world (.ok result state) (.ok result' state')
  | error {later : W} {state state' : σ} (le : world ≤ later) (error : ε)
      (related : states later state state') :
      Agree states results world (.error error state) (.error error state')

/-- From related states both actions come to related results or to the same error. -/
def Tracks (states : W → σ → σ → Prop) (results : W → α → α → Prop) (world : W)
    (left right : EStateM ε σ α) : Prop :=
  ∀ ⦃state state' : σ⦄, states world state state' →
    Agree states results world (left state) (right state')

namespace Tracks

variable {left right : EStateM ε σ α}

variable {next next' : α → EStateM ε σ β}

theorem bind (first : Tracks states results world left right)
    (second : ∀ later res res', world ≤ later → results later res res' →
      Tracks states results' later (next res) (next' res')) :
    Tracks states results' world (left >>= next) (right >>= next') := by
  intro st st' related
  have outcomes := first related
  change Agree states results' world (EStateM.bind left next st) (EStateM.bind right next' st')
  unfold EStateM.bind
  generalize left st = out, right st' = out' at outcomes
  cases outcomes with
  | error le error related => exact .error le error related
  | ok le met related =>
    dsimp only
    have further := second _ _ _ le met related
    generalize next _ _ = out, next' _ _ = out' at further
    cases further with
    | ok le' met related => exact .ok (le.trans le') met related
    | error le' error related => exact .error (le.trans le') error related

theorem bind_eq (first : Tracks states (fun _ => Eq) world left right)
    (second : ∀ later res, world ≤ later → Tracks states results' later (next res) (next' res)) :
    Tracks states results' world (left >>= next) (right >>= next') :=
  first.bind fun later res _ le eq => eq ▸ second later res le

theorem pure {res res' : α} (met : results world res res') :
    Tracks states results world (pure res : EStateM ε σ α) (pure res') :=
  fun _ _ related => .ok le_rfl met related

theorem throw (error : ε) :
    Tracks states results world (throw error : EStateM ε σ α) (throw error) :=
  fun _ _ related => .error le_rfl error related

end Tracks

end MiniScheme
