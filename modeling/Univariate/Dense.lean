import Univariate.Scalar

/-!
# Dense polynomials

Polynomials as the list of all their coefficients, lowest degree first.
The operations are those of exact polynomial arithmetic with two
allowances for rounding: whatever can cancel (remainders, differences) is
trimmed against a tolerance, and the greatest common divisor takes a
remainder for zero that is small relative to its dividend.

* `Dense.divRem` — long division, the remainder shorter than the divisor;
* `Dense.gcd` — the monic greatest common divisor, by Euclid's loop, with
  `Dense.length_remainder_lt` as the reason why the loop ends.
-/

namespace Univariate

/-- Coefficients, lowest degree first. -/
abbrev Dense (α : Type) := List α

namespace Dense

variable {α : Type}

/-- The degree of a polynomial without trailing zeros; the zero
polynomial counts as constant. -/
def degree (p : Dense α) : Nat := p.length - 1

variable [Scalar α]

/-- The largest magnitude of a coefficient. -/
@[specialize] def norm (p : Dense α) : α := Scalar.maxAbs p

/-- The magnitude is at most `tolerance`. -/
@[inline] def negligible (tolerance c : α) : Bool := Scalar.le (Scalar.abs c) tolerance

/-- All coefficients are at most `tolerance` in magnitude. -/
@[specialize] def isNegligible (p : Dense α) (tolerance : α) : Bool :=
  p.all (negligible tolerance)

/-- Without the coefficients of highest degree that are at most
`tolerance` in magnitude. -/
@[specialize] def trim (p : Dense α) (tolerance : α) : Dense α :=
  (p.reverse.dropWhile (negligible tolerance)).reverse

/-- Coefficients times their degrees, the first of which is `d`. -/
@[specialize] def derivativeFrom (d : Nat) : Dense α → Dense α
  | [] => []
  | c :: cs => c * Scalar.ofNat d :: derivativeFrom (d + 1) cs

/-- The derivative. -/
@[specialize] def derivative (p : Dense α) : Dense α := derivativeFrom 1 p.tail

/-- The difference.  Missing coefficients count as zero. -/
@[specialize] def sub : Dense α → Dense α → Dense α
  | [], [] => []
  | a :: p, [] => (a - Scalar.zero) :: sub p []
  | [], b :: q => (Scalar.zero - b) :: sub [] q
  | a :: p, b :: q => (a - b) :: sub p q

/-- Adds `k` times the entries of `q` to as many entries of `sums`. -/
@[specialize] def addScaled (k : α) : Dense α → Dense α → Dense α
  | s :: sums, b :: q => (s + k * b) :: addScaled k sums q
  | sums, _ => sums

/-- Subtracts `k` times the entries of `q` from as many entries of
`rest`. -/
@[specialize] def subScaled (k : α) : Dense α → Dense α → Dense α
  | r :: rest, b :: q => (r - k * b) :: subScaled k rest q
  | rest, _ => rest

/-- Adds the rows `a · q` of a product to `sums`, each one place further
up than the one before. -/
@[specialize] def addRows (q : Dense α) : Dense α → Dense α → Dense α
  | sums, [] => sums
  | sums, a :: p =>
    match addScaled a sums q with
    | [] => []
    | s :: above => s :: addRows q above p

/-- The product, row by row. -/
@[specialize] def mul (p q : Dense α) : Dense α :=
  if p.isEmpty || q.isEmpty then []
  else addRows q (List.replicate (p.length + q.length - 1) Scalar.zero) p

/-- Divided by its leading coefficient, unless that is zero. -/
@[specialize] def makeMonic (p : Dense α) : Dense α :=
  match p.getLast? with
  | none => p
  | some lead => if Scalar.eq lead Scalar.zero then p else p.map (· / lead)

/-- Long division with the highest degree first: `steps` coefficients of
the quotient, and what is left. -/
@[specialize] def divSteps (lead : α) (lower : Dense α) :
    Nat → Dense α → Dense α × Dense α
  | 0, rest => ([], rest)
  | _ + 1, [] => ([], [])
  | steps + 1, top :: rest =>
    let k := top / lead
    let (quotient, rest) := divSteps lead lower steps (subScaled k rest lower)
    (k :: quotient, rest)

/-- Long division.  The divisor is not empty; by the empty one nothing is
divided. -/
@[specialize] def divRem (p q : Dense α) : Dense α × Dense α :=
  match q.reverse with
  | [] => ([], p)
  | lead :: lower =>
    if p.length < q.length then ([], p)
    else
      let (quotient, rest) := divSteps lead lower (p.length - lower.length) p.reverse
      (quotient.reverse, rest.reverse)

/-- The quotient of a division that is known to come out even. -/
@[specialize] def quotient (p q : Dense α) : Dense α := (divRem p q).1

theorem length_subScaled (k : α) (rest q : Dense α) :
    (subScaled k rest q).length = rest.length := by
  induction rest generalizing q with
  | nil => cases q <;> rfl
  | cons r rest ih =>
    cases q with
    | nil => rfl
    | cons b q => simp [subScaled, ih]

/-- Each step of a long division takes one coefficient off the top. -/
theorem length_divSteps (lead : α) (lower : Dense α) (steps : Nat) (rest : Dense α) :
    (divSteps lead lower steps rest).2.length = rest.length - steps := by
  induction steps generalizing rest with
  | zero => rfl
  | succ n ih =>
    cases rest with
    | nil => simp [divSteps]
    | cons top rest => simp [divSteps, ih, length_subScaled]

/-- The remainder of a division is shorter than the divisor. -/
theorem length_divRem_lt (p : Dense α) {q : Dense α} (hq : q ≠ []) :
    (divRem p q).2.length < q.length := by
  have hlen : q.reverse.length = q.length := List.length_reverse
  unfold divRem
  split
  · next h => simp_all
  · next lead lower h =>
    split
    · assumption
    · simp only [h, List.length_cons] at hlen
      simp only [List.length_reverse, length_divSteps]
      omega

/-- The remainder that Euclid's loop goes on with: trimmed relative to
the dividend, and monic. -/
@[specialize] def remainder (p q : Dense α) : Dense α :=
  let tolerance := Scalar.gcdTolerance * Scalar.max (norm p) Scalar.one
  makeMonic (trim (divRem p q).2 tolerance)

theorem length_makeMonic (p : Dense α) : (makeMonic p).length = p.length := by
  unfold makeMonic
  split
  · rfl
  · split <;> simp

theorem length_trim_le (p : Dense α) (tolerance : α) :
    (trim p tolerance).length ≤ p.length := by
  have h := (List.dropWhile_sublist (negligible tolerance) (l := p.reverse)).length_le
  simpa [trim] using h

/-- **Euclid's loop ends.**  Every remainder is shorter than the divisor
before it. -/
theorem length_remainder_lt (p : Dense α) {q : Dense α} (hq : q ≠ []) :
    (remainder p q).length < q.length :=
  calc (remainder p q).length
      ≤ (divRem p q).2.length := by
        unfold remainder
        rw [length_makeMonic]
        exact length_trim_le _ _
    _ < q.length := length_divRem_lt p hq

/-- Euclid's loop: the last divisor before an empty one. -/
@[specialize] def gcdLoop (p : Dense α) : Dense α → Dense α
  | [] => p
  | b :: q => gcdLoop (b :: q) (remainder p (b :: q))
termination_by q => q.length
decreasing_by exact length_remainder_lt p (List.cons_ne_nil b q)

/-- The monic greatest common divisor.  The second argument is trimmed
relative to the larger norm of the two. -/
@[specialize] def gcd (p q : Dense α) : Dense α :=
  let scale := Scalar.max (Scalar.max (norm p) (norm q)) Scalar.minNormal
  let first := trim (makeMonic p) Scalar.zero
  let second := trim (makeMonic (trim q (Scalar.gcdTolerance * scale))) Scalar.zero
  makeMonic (gcdLoop first second)

end Dense

end Univariate
