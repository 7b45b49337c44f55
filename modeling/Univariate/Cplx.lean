import Univariate.Scalar

/-!
# Complex numbers over a scalar

Pairs of a real and an imaginary part with the operations that root
finding uses.  The formulas are fixed: a quotient is taken through the
squared magnitude of the divisor, the magnitude through `Analytic.hypot`,
and a power by repeated squaring from its lowest set bit on.
-/

namespace Univariate

/-- A complex number by its real and imaginary parts. -/
structure Cplx (α : Type) where
  re : α
  im : α

namespace Cplx

variable {α : Type}

section Arithmetic

variable [Scalar α]

/-- A real number as a complex one. -/
@[inline] def ofReal (x : α) : Cplx α := ⟨x, Scalar.zero⟩

/-- The origin. -/
@[inline] def zero : Cplx α := ⟨Scalar.zero, Scalar.zero⟩

/-- The unit. -/
@[inline] def one : Cplx α := ⟨Scalar.one, Scalar.zero⟩

@[inline] instance : Add (Cplx α) := ⟨fun a b => ⟨a.re + b.re, a.im + b.im⟩⟩
@[inline] instance : Sub (Cplx α) := ⟨fun a b => ⟨a.re - b.re, a.im - b.im⟩⟩
@[inline] instance : Mul (Cplx α) :=
  ⟨fun a b => ⟨a.re * b.re - a.im * b.im, a.re * b.im + a.im * b.re⟩⟩

/-- The squared magnitude. -/
@[inline] def normSq (z : Cplx α) : α := z.re * z.re + z.im * z.im

@[inline] instance : Div (Cplx α) :=
  ⟨fun a b =>
    let n := b.normSq
    ⟨(a.re * b.re + a.im * b.im) / n, (a.im * b.re - a.re * b.im) / n⟩⟩

/-- The reciprocal. -/
@[inline] def inv (z : Cplx α) : Cplx α :=
  let n := z.normSq
  ⟨z.re / n, -z.im / n⟩

/-- The conjugate. -/
@[inline] def conj (z : Cplx α) : Cplx α := ⟨z.re, -z.im⟩

/-- Adding a real number leaves the imaginary part alone. -/
@[inline] def addReal (z : Cplx α) (x : α) : Cplx α := ⟨z.re + x, z.im⟩

/-- Both parts times a real number. -/
@[inline] def scale (z : Cplx α) (x : α) : Cplx α := ⟨z.re * x, z.im * x⟩

/-- Both parts are finite. -/
@[inline] def isFinite (z : Cplx α) : Bool :=
  Scalar.isFinite z.re && Scalar.isFinite z.im

/-- `acc · base^(e - 1)` for an `acc` that already holds the lowest set
bit of the exponent: each further bit squares the base, and multiplies if
it is set. -/
@[specialize] def powOdd (acc base : Cplx α) (e : Nat) : Cplx α :=
  if e ≤ 1 then acc
  else
    let square := base * base
    powOdd (if (e / 2) % 2 = 1 then acc * square else acc) square (e / 2)
termination_by e
decreasing_by omega

/-- The `e`-th power: squaring while the exponent is even, then
`powOdd`. -/
@[specialize] def pow (z : Cplx α) (e : Nat) : Cplx α :=
  if e = 0 then one
  else if e % 2 = 0 then pow (z * z) (e / 2)
  else powOdd z z e
termination_by e
decreasing_by omega

end Arithmetic

section Magnitude

variable [Analytic α]

/-- The magnitude. -/
@[inline] def norm (z : Cplx α) : α := Analytic.hypot z.re z.im

/-- The point at distance `r` from the origin and angle `θ` from the
real axis. -/
@[inline] def ofPolar (r θ : α) : Cplx α :=
  ⟨r * Analytic.cos θ, r * Analytic.sin θ⟩

end Magnitude

end Cplx

end Univariate
