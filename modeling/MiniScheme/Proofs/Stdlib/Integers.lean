import MiniScheme.Stdlib
import Mathlib.Algebra.BigOperators.Group.List.Basic
import Mathlib.Algebra.Ring.Int.Defs

/-!
# Integer arithmetic is exact or fails

Arguments are combined from left to right, and every result on the way has to fit into 64 bits. So a
sum, a difference or a product is the one of the integers themselves or an overflow. Quotients are
exact as long as all divisions come out even; behind the first that does not they are doubles.
-/

namespace MiniScheme.Stdlib

/-- The standard procedure with this name answers so to integers, and leaves the store alone. -/
def Replies (name : String) (values : List Int64) (answer : Except Fault Value) : Prop :=
  ∃ native ∈ procedures, native.name = name ∧
    ∀ store, native.run (values.map .integer) store = match answer with
      | .ok value => .ok (some value) store
      | .error fault => .error fault store

/-- The answer is the total if all results on the way to it fit, and an overflow otherwise. -/
structure IsExact (partials : List Int) (total : Int) (answer : Except Fault Value) : Prop where
  exact : (∀ result ∈ partials, Number.fits result = true) →
    ∃ value : Int64, answer = .ok (.integer value) ∧ value.toInt = total
  overflow : (∃ result ∈ partials, Number.fits result = false) → answer = .error .integerOverflow

/-- `Divided dividend divisors answer`: dividing by one divisor after the other gives the answer. -/
inductive Divided : Int → List Int → Except Fault Value → Prop
  | done (value : Int64) : Divided value.toInt [] (.ok (.integer value))
  | zero (dividend : Int) (divisors : List Int) :
      Divided dividend (0 :: divisors) (.error .divisionByZero)
  | even {quotient divisor : Int} {divisors : List Int} {answer : Except Fault Value} :
      divisor ≠ 0 → Number.fits quotient = true → Divided quotient divisors answer →
        Divided (divisor * quotient) (divisor :: divisors) answer
  | overflow {quotient divisor : Int} (divisors : List Int) :
      divisor ≠ 0 → Number.fits quotient = false →
        Divided (divisor * quotient) (divisor :: divisors) (.error .integerOverflow)
  /-- No integer any more, but a zero among the other divisors is found all the same. -/
  | uneven {dividend divisor : Int} {divisors : List Int} (value : Float) :
      divisor ≠ 0 → ¬ divisor ∣ dividend → Divided dividend (divisor :: divisors)
        (if 0 ∈ divisors then .error .divisionByZero else .ok (.float value))

/-- The answer of a division, which is an integer only if that is the exact quotient. -/
structure IsQuotient (dividend : Int) (divisors : List Int) (answer : Except Fault Value) : Prop where
  divided : Divided dividend divisors answer
  exact (value : Int64) : answer = .ok (.integer value) →
    divisors.prod ≠ 0 ∧ divisors.prod * value.toInt = dividend

theorem Divided.isQuotient {dividend : Int} {divisors : List Int} {answer : Except Fault Value}
    (divided : Divided dividend divisors answer) : IsQuotient dividend divisors answer := by
  refine ⟨divided, fun v whole => ?_⟩
  induction divided with
  | done =>
    cases whole
    simp
  | zero | overflow => cases whole
  | even nonzero _ _ ih =>
    obtain ⟨others, eq⟩ := ih whole
    rw [List.prod_cons, Int.mul_assoc, eq]
    exact ⟨Int.mul_ne_zero nonzero others, rfl⟩
  | uneven => split at whole <;> cases whole

namespace Number

theorem checked_of_fits {v : Int} (fit : fits v = true) :
    ∃ res : Int64, checked v = .ok (.integer res) ∧ res.toInt = v := by
  refine ⟨_, if_pos fit, ?_⟩
  simp only [fits, Bool.and_eq_true, decide_eq_true_eq] at fit
  exact Int64.toInt_ofInt_of_le fit.1 (Int.lt_add_one_of_le fit.2)

theorem fits_toInt (v : Int64) : fits v.toInt = true := by
  have least := v.le_toInt
  have greatest := v.toInt_lt
  simp only [fits, Bool.and_eq_true, decide_eq_true_eq]
  omega

theorem fold_cons (operation : Number → Number → Except Fault Number) (start : Number)
    (v : Int64) (vals : List Value) :
    fold operation start (.integer v :: vals) =
      operation start (.integer v) >>= fun total => fold operation total vals := by
  simp only [fold, List.foldlM_cons, ofValue, bind_assoc]
  rfl

theorem foldl_sub (start : Int) (vals : List Int) :
    vals.foldl (· - ·) start = start - vals.sum := by
  induction vals generalizing start with
  | nil => simp
  | cons v vals ih => rw [List.foldl_cons, ih, List.sum_cons, Int.sub_sub]

theorem foldFirst_singleton (operation : Number → Number → Except Fault Number) (neutral : Number)
    (v : Int64) :
    foldFirst operation neutral [.integer v] = fold operation neutral [.integer v] := by
  rw [fold_cons]
  rfl

theorem isExact_fold (exact : Int → Int → Int) (inexact : Float → Float → Float) (start : Int64)
    (vals : List Int64) :
    IsExact ((vals.map Int64.toInt).scanl exact start.toInt)
      ((vals.map Int64.toInt).foldl exact start.toInt)
      (fold (combine exact inexact) (.integer start) (vals.map .integer)) := by
  induction vals generalizing start with
  | nil =>
    refine ⟨fun _ => ⟨start, rfl, rfl⟩, ?_⟩
    simp [fits_toInt]
  | cons v vals ih =>
    simp only [List.map_cons, List.scanl_cons, List.foldl_cons, fold_cons, combine]
    cases fit : fits (exact start.toInt v.toInt) with
    | true =>
      obtain ⟨res, computed, eq⟩ := checked_of_fits fit
      have rest := ih res
      rw [eq] at rest
      rw [computed]
      refine ⟨fun all => rest.exact fun total mem => all total (List.mem_cons_of_mem _ mem), ?_⟩
      rintro ⟨total, mem, large⟩
      rcases List.mem_cons.mp mem with rfl | later
      · rw [fits_toInt] at large
        cases large
      · exact rest.overflow ⟨total, later, large⟩
    | false =>
      rw [checked, fit]
      refine ⟨fun all => ?_, fun _ => rfl⟩
      rw [all (exact start.toInt v.toInt) (by cases vals <;> simp)] at fit
      cases fit

theorem isZero_integer (v : Int64) : (integer v).isZero = decide (v.toInt = 0) := by
  rw [isZero, beq_eq_decide, decide_eq_decide, ← Int64.toInt_inj]
  rfl

/-- Once a double is there, divisions look at nothing but zeros. -/
theorem fold_div_float (v : Float) (divisors : List Int64) :
    ∃ res, fold div (.float v) (divisors.map .integer) =
      if 0 ∈ divisors.map Int64.toInt then .error .divisionByZero else .ok (.float res) := by
  induction divisors generalizing v with
  | nil => exact ⟨v, rfl⟩
  | cons divisor divisors ih =>
    simp only [List.map_cons, fold_cons, div, isZero_integer, List.mem_cons, decide_eq_true_eq]
    by_cases zero : divisor.toInt = 0
    · exact ⟨v, by simp [zero]; rfl⟩
    · obtain ⟨res, others⟩ := ih (v / divisor.toFloat)
      refine ⟨res, ?_⟩
      rw [if_neg zero]
      simp only [Ne.symm zero, false_or]
      exact others

theorem divided_fold (dividend : Int64) (divisors : List Int64) :
    Divided dividend.toInt (divisors.map Int64.toInt)
      (fold div (.integer dividend) (divisors.map .integer)) := by
  induction divisors generalizing dividend with
  | nil => exact .done dividend
  | cons divisor divisors ih =>
    simp only [List.map_cons, fold_cons, div, isZero_integer, decide_eq_true_eq]
    by_cases zero : divisor.toInt = 0
    · rw [zero, if_pos rfl]
      exact .zero ..
    rw [if_neg zero]
    by_cases divides : divisor.toInt ∣ dividend.toInt
    · rw [if_pos (Int.tmod_eq_zero_of_dvd divides)]
      obtain ⟨quotient, whole⟩ := divides
      rw [whole, Int.mul_tdiv_cancel_left _ zero]
      cases fit : fits quotient with
      | true =>
        obtain ⟨res, computed, eq⟩ := checked_of_fits fit
        rw [computed]
        exact .even zero fit (eq ▸ ih res)
      | false =>
        rw [checked, fit]
        exact .overflow _ zero fit
    · rw [if_neg fun even => divides (Int.dvd_of_tmod_eq_zero even)]
      obtain ⟨res, others⟩ := fold_div_float (dividend.toFloat / divisor.toFloat) divisors
      have uneven := @Divided.uneven _ _ (divisors.map Int64.toInt) res zero divides
      rwa [← others] at uneven

end Number

theorem replies_compute {name : String} {required place : Nat} {work : List Value → Except Fault Value}
    (found : procedures[place]? = some (.prompt name required true (compute work)))
    (vals : List Int64) : Replies name vals (work (vals.map .integer)) := by
  refine ⟨_, List.mem_of_getElem? found, rfl, fun store => ?_⟩
  simp only [Native.prompt, compute, perform, Functor.map, EStateM.map]
  cases work (vals.map .integer) <;> rfl

/-- Integer arithmetic is exact or fails. Sums, products and differences are exact if every result on
the way from left to right fits, and overflows otherwise. Quotients are exact as far as the divisions
come out even; a divisor that is zero and a quotient that does not fit are found where they occur. -/
theorem integer_arithmetic_exact (first second : Int64) (values : List Int64) :
    let integers := values.map Int64.toInt
    (∃ answer, Replies "+" values answer ∧ IsExact (integers.scanl (· + ·) 0) integers.sum answer) ∧
    (∃ answer, Replies "*" values answer ∧ IsExact (integers.scanl (· * ·) 1) integers.prod answer) ∧
    (∃ answer, Replies "-" [first] answer ∧
      IsExact ([first.toInt].scanl (· - ·) 0) (-first.toInt) answer) ∧
    (∃ answer, Replies "-" (first :: second :: values) answer ∧
      IsExact ((second.toInt :: integers).scanl (· - ·) first.toInt)
        (first.toInt - (second.toInt + integers.sum)) answer) ∧
    (∃ answer, Replies "/" [first] answer ∧ IsQuotient 1 [first.toInt] answer) ∧
    (∃ answer, Replies "/" (first :: second :: values) answer ∧
      IsQuotient first.toInt (second.toInt :: integers) answer) ∧
    Fault.integerOverflow.message = "Integer overflow." ∧
      Fault.divisionByZero.message = "Division by zero." := by
  have sum := Number.isExact_fold (· + ·) (· + ·) 0 values
  have product := Number.isExact_fold (· * ·) (· * ·) 1 values
  have negated := Number.isExact_fold (· - ·) (· - ·) 0 [first]
  have difference := Number.isExact_fold (· - ·) (· - ·) first (second :: values)
  have inverse := (Number.divided_fold 1 [first]).isQuotient
  have quotient := (Number.divided_fold first (second :: values)).isQuotient
  rw [List.map_singleton, List.map_singleton] at negated inverse
  rw [← Number.foldFirst_singleton] at negated inverse
  simp only [Number.foldl_sub, List.sum_singleton] at negated difference
  refine ⟨⟨_, @replies_compute _ _ 0 _ rfl values, ?_⟩, ⟨_, @replies_compute _ _ 2 _ rfl values, ?_⟩,
    ⟨_, @replies_compute _ _ 1 _ rfl _, ?_⟩, ⟨_, @replies_compute _ _ 1 _ rfl _, difference⟩,
    ⟨_, @replies_compute _ _ 3 _ rfl _, inverse⟩, ⟨_, @replies_compute _ _ 3 _ rfl _, quotient⟩, rfl, rfl⟩
  · rw [List.sum_eq_foldl]
    exact sum
  · rw [List.prod_eq_foldl]
    exact product
  · rw [← Int.zero_sub]
    exact negated

end MiniScheme.Stdlib
