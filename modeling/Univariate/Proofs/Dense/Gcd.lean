import Univariate.Proofs.Dense.Division

/-!
# The greatest common divisor

Euclid's loop takes small coefficients for zeros, and so its answer is a
greatest common divisor only where it was right to.  The tests that a
computation makes are listed beside it, each with the coefficients that it
discards; where all of these are zeros, the loop is Euclid's algorithm on
polynomials.

* `Dense.Test`, `Dense.Test.DropsZeros` — a test, and that it is right;
* `Dense.gcdTests` — the tests of a greatest common divisor;
* `Dense.IsGcd` — the common divisors of two polynomials are the divisors
  of a third;
* `Dense.dvd_remainder_iff`, `Dense.gcdLoop_of_tests` — one division, and
  the loop;
* `Dense.isGcd_of_tests` — Euclid's algorithm;
* `Dense.gcd_of_dvd` — its shortest run, where one polynomial divides the
  other.
-/

namespace Univariate

namespace Dense

open Polynomial
open scoped Exact

/-! ## Tests -/

section Tests

variable {α : Type} [Scalar α]

/-- The coefficients of highest degree that trimming discards. -/
def discarded (p : Dense α) (tolerance : α) : Dense α :=
  (p.reverse.takeWhile (negligible tolerance)).reverse

/-- What is trimmed off and what is left make up the list. -/
theorem trim_append_discarded (p : Dense α) (tolerance : α) :
    trim p tolerance ++ discarded p tolerance = p := by
  rw [trim, discarded, ← List.reverse_append, List.takeWhile_append_dropWhile,
    List.reverse_reverse]

/-- What is negligible as a whole is discarded as a whole. -/
theorem discarded_of_isNegligible {p : Dense α} {tolerance : α}
    (h : isNegligible p tolerance = true) : discarded p tolerance = p := by
  have hall : ∀ c ∈ p.reverse, negligible tolerance c = true := fun c hc =>
    List.all_eq_true.mp h c (List.mem_reverse.mp hc)
  rw [discarded, List.takeWhile_eq_self_iff.mpr hall, List.reverse_reverse]

/-- A polynomial is compared with a tolerance: its highest coefficients are
discarded as far as they are negligible. -/
structure Test (α : Type) where
  polynomial : Dense α
  tolerance : α

/-- The tests of Euclid's loop: one for each remainder. -/
def gcdLoopTests (p : Dense α) : Dense α → List (Test α)
  | [] => []
  | b :: q =>
    ⟨(divRem p (b :: q)).2, Scalar.gcdTolerance * Scalar.max (norm p) Scalar.one⟩ ::
      gcdLoopTests (b :: q) (remainder p (b :: q))
termination_by q => q.length
decreasing_by exact length_remainder_lt p (List.cons_ne_nil b q)

/-- The tolerance that the second argument is trimmed with. -/
def inputTolerance (p q : Dense α) : α :=
  Scalar.gcdTolerance * Scalar.max (Scalar.max (norm p) (norm q)) Scalar.minNormal

/-- What Euclid's loop starts from. -/
def firstDividend (p : Dense α) : Dense α := trim (makeMonic p) Scalar.zero

/-- What Euclid's loop divides by first. -/
def firstDivisor (p q : Dense α) : Dense α :=
  trim (makeMonic (trim q (inputTolerance p q))) Scalar.zero

/-- The greatest common divisor is that of the loop, made monic. -/
theorem gcd_eq (p q : Dense α) :
    gcd p q = makeMonic (gcdLoop (firstDividend p) (firstDivisor p q)) := rfl

/-- The tests of a greatest common divisor, in their order. -/
def gcdTests (p q : Dense α) : List (Test α) :=
  ⟨makeMonic p, Scalar.zero⟩ :: ⟨q, inputTolerance p q⟩ ::
    ⟨makeMonic (trim q (inputTolerance p q)), Scalar.zero⟩ ::
      gcdLoopTests (firstDividend p) (firstDivisor p q)

/-! ## The size of the loop's answer -/

/-- The loop ends with no more coefficients than its divisor has. -/
theorem length_gcdLoop_le (p : Dense α) {q : Dense α} (hq : q ≠ []) :
    (gcdLoop p q).length ≤ q.length := by
  fun_induction gcdLoop p q with
  | case1 p => exact absurd rfl hq
  | case2 p b q ih =>
      by_cases hrest : remainder p (b :: q) = []
      · rw [hrest, gcdLoop]
      · exact (ih hrest).trans (length_remainder_lt p (List.cons_ne_nil b q)).le

/-- The loop never ends with nothing. -/
theorem gcdLoop_ne_nil {p : Dense α} (hp : p ≠ []) (q : Dense α) : gcdLoop p q ≠ [] := by
  fun_induction gcdLoop p q with
  | case1 p => exact hp
  | case2 p b q ih => exact ih (List.cons_ne_nil b q)

/-- The loop's answer is the dividend or no longer than the divisor. -/
theorem length_gcd_le (p : Dense α) {q : Dense α} {n : ℕ}
    (hq : (trim q (inputTolerance p q)).length ≤ n) :
    gcd p q = makeMonic (firstDividend p) ∨ (gcd p q).length ≤ n := by
  rw [gcd_eq]
  by_cases hnil : firstDivisor p q = []
  · rw [hnil, gcdLoop]
    exact Or.inl rfl
  · refine Or.inr ?_
    rw [length_makeMonic]
    refine (length_gcdLoop_le _ hnil).trans ((length_trim_le _ _).trans ?_)
    rwa [length_makeMonic]

end Tests

variable {α : Type} [Field α]

/-! ## Common divisors -/

/-- The divisors of `g` are the common divisors of `f` and `h`. -/
def IsGcd (g f h : α[X]) : Prop := ∀ d, d ∣ g ↔ d ∣ f ∧ d ∣ h

namespace IsGcd

variable {g f h : α[X]}

/-- It divides the first polynomial. -/
theorem dvd_left (hg : IsGcd g f h) : g ∣ f := ((hg g).mp dvd_rfl).1

/-- It divides the second polynomial. -/
theorem dvd_right (hg : IsGcd g f h) : g ∣ h := ((hg g).mp dvd_rfl).2

end IsGcd

/-! ## Trimming -/

variable [LinearOrder α]

/-- Only zeros are discarded. -/
def Test.DropsZeros (t : Test α) : Prop := ∀ c ∈ discarded t.polynomial t.tolerance, c = 0

instance (t : Test α) : Decidable t.DropsZeros :=
  inferInstanceAs (Decidable (∀ c ∈ discarded t.polynomial t.tolerance, c = 0))

/-- **Trimming zeros** leaves the polynomial as it is. -/
theorem toPolynomial_trim {p : Dense α} {tolerance : α}
    (h : (⟨p, tolerance⟩ : Test α).DropsZeros) :
    toPolynomial (trim p tolerance) = toPolynomial p := by
  conv_rhs => rw [← trim_append_discarded p tolerance]
  rw [toPolynomial_append, toPolynomial_eq_zero_of_forall h, mul_zero, add_zero]

/-- A large last coefficient stays. -/
theorem trim_concat (lower : Dense α) {c tolerance : α} (hc : tolerance < |c|) :
    trim (lower ++ [c]) tolerance = lower ++ [c] := by
  simp [trim, negligible, hc]

/-- A small last coefficient goes. -/
theorem length_trim_concat_le (lower : Dense α) {c tolerance : α} (hc : |c| ≤ tolerance) :
    (trim (lower ++ [c]) tolerance).length ≤ lower.length := by
  have hdrop : trim (lower ++ [c]) tolerance = trim lower tolerance := by
    simp [trim, negligible, hc]
  rw [hdrop]
  exact length_trim_le lower tolerance

/-- Nothing is left where everything is small. -/
theorem trim_of_forall {p : Dense α} {tolerance : α} (h : ∀ c ∈ p, |c| ≤ tolerance) :
    trim p tolerance = [] := by
  rw [trim, List.reverse_eq_nil_iff, List.dropWhile_eq_nil_iff]
  intro c hc
  simpa [negligible] using h c (List.mem_reverse.mp hc)

variable [IsStrictOrderedRing α]

/-- What is left ends in a coefficient that is not zero. -/
theorem reduced_trim (p : Dense α) {tolerance : α} (h : 0 ≤ tolerance) :
    Reduced (trim p tolerance) := by
  intro c hc hzero
  rw [trim, List.getLast?_reverse] at hc
  have hkept := List.head?_dropWhile_not (negligible tolerance) p.reverse
  rw [Option.mem_def.mp hc] at hkept
  simp [negligible, hzero, h] at hkept

/-- Without a tolerance nothing of a reduced list is trimmed. -/
theorem Reduced.trim_zero {p : Dense α} (h : Reduced p) : trim p (Scalar.zero : α) = p := by
  rcases h.eq_nil_or_concat with rfl | ⟨lower, c, rfl, hc⟩
  · rfl
  · exact trim_concat lower (by simpa using hc)

/-- Without a tolerance only zeros are discarded. -/
theorem dropsZeros_zero (p : Dense α) : (⟨p, Scalar.zero⟩ : Test α).DropsZeros := by
  intro c hc
  rw [discarded, List.mem_reverse] at hc
  simpa [negligible] using List.mem_takeWhile_imp hc

/-- The tolerance for the inputs is not negative. -/
theorem inputTolerance_nonneg (p q : Dense α) : 0 ≤ inputTolerance p q := by
  rw [inputTolerance, Exact.max_eq, Exact.max_eq]
  exact mul_nonneg Exact.gcdTolerance_pos.le
    ((Exact.norm_nonneg p).trans ((le_max_left _ _).trans (le_max_left _ _)))

/-- The tolerance is a billionth of the largest coefficient. -/
theorem inputTolerance_lt_iff (p q : Dense α) (c : α) :
    inputTolerance p q < c ↔
      norm p < 10 ^ 9 * c ∧ norm q < 10 ^ 9 * c ∧ Scalar.minNormal < 10 ^ 9 * c := by
  rw [inputTolerance, Exact.max_eq, Exact.max_eq, Exact.gcdTolerance_eq, one_div,
    inv_mul_lt_iff₀ (by positivity), max_lt_iff, max_lt_iff, and_assoc]

/-- The tolerance within the loop is not negative. -/
theorem loopTolerance_nonneg (p : Dense α) :
    0 ≤ Scalar.gcdTolerance * Scalar.max (norm p) (Scalar.one : α) := by
  rw [Exact.max_eq]
  exact mul_nonneg Exact.gcdTolerance_pos.le
    ((Exact.norm_nonneg p).trans (le_max_left _ _))

/-! ## Euclid's loop -/

/-- Remainders are reduced. -/
theorem reduced_remainder (p q : Dense α) : Reduced (remainder p q) :=
  reduced_makeMonic (reduced_trim _ (loopTolerance_nonneg p))

/-- **One division** keeps the common divisors, if the remainder loses
nothing but zeros. -/
theorem dvd_remainder_iff {p q : Dense α} (hq : Reduced q) (hne : q ≠ [])
    (htest : (⟨(divRem p q).2,
      Scalar.gcdTolerance * Scalar.max (norm p) Scalar.one⟩ : Test α).DropsZeros) (d : α[X]) :
    d ∣ toPolynomial q ∧ d ∣ toPolynomial (remainder p q) ↔
      d ∣ toPolynomial p ∧ d ∣ toPolynomial q := by
  have hdivision := toPolynomial_divRem p hq hne
  rw [remainder, (reduced_trim _ (loopTolerance_nonneg p)).dvd_makeMonic_iff,
    toPolynomial_trim htest, and_comm, and_congr_left_iff]
  intro hd
  rw [hdivision]
  exact (dvd_add_right (hd.mul_left _)).symm

/-- **Euclid's loop** keeps the common divisors. -/
theorem gcdLoop_of_tests {p q : Dense α} (hp : Reduced p) (hq : Reduced q)
    (htests : ∀ t ∈ gcdLoopTests p q, t.DropsZeros) :
    Reduced (gcdLoop p q) ∧
      IsGcd (toPolynomial (gcdLoop p q)) (toPolynomial p) (toPolynomial q) := by
  fun_induction gcdLoop p q with
  | case1 p =>
      refine ⟨hp, fun d => ?_⟩
      rw [toPolynomial_nil, and_iff_left (dvd_zero d)]
  | case2 p b q ih =>
      rw [gcdLoopTests] at htests
      obtain ⟨htest, htests⟩ := List.forall_mem_cons.mp htests
      obtain ⟨hreduced, hgcd⟩ := ih hq (reduced_remainder p (b :: q)) htests
      refine ⟨hreduced, fun d => ?_⟩
      rw [hgcd d, dvd_remainder_iff hq (List.cons_ne_nil b q) htest]

/-- The loop starts with a dividend that has the divisors of the first
polynomial. -/
theorem dvd_firstDividend_iff (p : Dense α) (d : α[X]) :
    d ∣ toPolynomial (firstDividend p) ↔ d ∣ toPolynomial p := by
  rw [firstDividend, toPolynomial_trim (dropsZeros_zero _), dvd_makeMonic_iff]

/-- The loop starts with a divisor that has the divisors of the second
polynomial, if that one loses nothing but zeros. -/
theorem dvd_firstDivisor_iff {p q : Dense α}
    (htest : (⟨q, inputTolerance p q⟩ : Test α).DropsZeros) (d : α[X]) :
    d ∣ toPolynomial (firstDivisor p q) ↔ d ∣ toPolynomial q := by
  rw [firstDivisor, toPolynomial_trim (dropsZeros_zero _), dvd_makeMonic_iff,
    toPolynomial_trim htest]

/-- **The greatest common divisor** of two polynomials that are not both
zero, if no test discards anything but zeros. -/
theorem isGcd_of_tests {p q : Dense α} (hne : ¬(toPolynomial p = 0 ∧ toPolynomial q = 0))
    (htests : ∀ t ∈ gcdTests p q, t.DropsZeros) :
    Reduced (gcd p q) ∧ (toPolynomial (gcd p q)).Monic ∧
      IsGcd (toPolynomial (gcd p q)) (toPolynomial p) (toPolynomial q) := by
  rw [gcdTests] at htests
  obtain ⟨-, htests⟩ := List.forall_mem_cons.mp htests
  obtain ⟨hinput, htests⟩ := List.forall_mem_cons.mp htests
  obtain ⟨-, htests⟩ := List.forall_mem_cons.mp htests
  have hdividend : Reduced (firstDividend p) := reduced_trim _ (by simp)
  have hdivisor : Reduced (firstDivisor p q) := reduced_trim _ (by simp)
  obtain ⟨hreduced, hloop⟩ := gcdLoop_of_tests hdividend hdivisor htests
  have hgcd : IsGcd (toPolynomial (gcdLoop (firstDividend p) (firstDivisor p q)))
      (toPolynomial p) (toPolynomial q) := by
    intro d
    rw [hloop d, dvd_firstDividend_iff, dvd_firstDivisor_iff hinput]
  have hnonempty : gcdLoop (firstDividend p) (firstDivisor p q) ≠ [] := by
    intro hnil
    rw [hnil, toPolynomial_nil] at hgcd
    exact hne ⟨zero_dvd_iff.mp hgcd.dvd_left, zero_dvd_iff.mp hgcd.dvd_right⟩
  rw [gcd_eq]
  refine ⟨reduced_makeMonic hreduced, hreduced.monic_makeMonic hnonempty, fun d => ?_⟩
  rw [hreduced.dvd_makeMonic_iff, hgcd d]

/-- The same for a first polynomial that is there and does not end with a
zero. -/
theorem gcd_of_tests {p q : Dense α} (hp : Reduced p) (hne : p ≠ [])
    (htests : ∀ t ∈ gcdTests p q, t.DropsZeros) :
    Reduced (gcd p q) ∧ (toPolynomial (gcd p q)).Monic ∧
      IsGcd (toPolynomial (gcd p q)) (toPolynomial p) (toPolynomial q) :=
  isGcd_of_tests (fun h => hp.toPolynomial_ne_zero hne h.1) htests

/-! ## One polynomial divides the other -/

/-- A remainder that vanishes is trimmed away whatever the tolerance. -/
theorem remainder_of_dvd {p q : Dense α} (hq : Reduced q) (hne : q ≠ [])
    (hdvd : toPolynomial q ∣ toPolynomial p) : remainder p q = [] := by
  have hzero := forall_eq_zero_of_toPolynomial
    ((toPolynomial_divRem_snd_eq_zero_iff p hq hne).mpr hdvd)
  rw [remainder, trim_of_forall]
  · rfl
  · intro c hc
    rw [hzero c hc, abs_zero]
    exact loopTolerance_nonneg p

/-- **A divisor is found at once**, if its leading coefficient is not taken
for a zero. -/
theorem gcd_of_dvd {p : Dense α} (lower : Dense α) {c : α} (hp : Reduced p)
    (hc : inputTolerance p (lower ++ [c]) < |c|)
    (hdvd : toPolynomial (lower ++ [c]) ∣ toPolynomial p) :
    gcd p (lower ++ [c]) = makeMonic (lower ++ [c]) := by
  have hc0 : c ≠ 0 := by
    rintro rfl
    exact absurd hc (by simpa using inputTolerance_nonneg p (lower ++ [0]))
  have hq : Reduced (lower ++ [c]) := reduced_concat hc0
  have hdivisor : firstDivisor p (lower ++ [c]) = makeMonic (lower ++ [c]) := by
    rw [firstDivisor, trim_concat lower hc, (reduced_makeMonic hq).trim_zero]
  have hmonic : (toPolynomial (makeMonic (lower ++ [c]))).Monic :=
    hq.monic_makeMonic (List.concat_ne_nil c lower)
  have hnonempty : makeMonic (lower ++ [c]) ≠ [] := by
    rw [← List.length_pos_iff, length_makeMonic, List.length_append]
    exact Nat.succ_pos _
  have hremainder : remainder (firstDividend p) (makeMonic (lower ++ [c])) = [] := by
    refine remainder_of_dvd (reduced_makeMonic hq) hnonempty ?_
    rw [firstDividend, (reduced_makeMonic hp).trim_zero, hp.dvd_makeMonic_iff]
    exact ((hq.dvd_makeMonic_iff _).mp dvd_rfl).trans hdvd
  rw [gcd_eq, hdivisor]
  obtain ⟨b, q, hbq⟩ := List.exists_cons_of_ne_nil hnonempty
  have hreduced : Reduced (b :: q) := hbq ▸ reduced_makeMonic hq
  rw [hbq] at hremainder hmonic ⊢
  rw [gcdLoop, hremainder, gcdLoop, hreduced.makeMonic_eq hmonic]

end Dense

end Univariate
