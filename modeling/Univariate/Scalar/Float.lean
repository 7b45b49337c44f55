import Univariate.Scalar

/-!
# Binary floating point as a scalar

The instance that the library runs on.  Arithmetic, comparisons and the
transcendental functions are those of binary64.  Three things are spelled
out here because the core library does not offer them, or leaves open what
they answer:

* `Binary64.sortKey` — an order of all values, by their bits: negative
  numbers before positive ones, `-0` before `0`, and a value that is not
  a number before everything;
* `Binary64.hypot` — the length of the hypotenuse, scaled by the longer
  side so that it neither overflows nor vanishes before its time;
* `Binary64.hugePow` — powers with exponents of more than 31 bits, where
  zero and the two units have exact ones.
-/

namespace Univariate

namespace Binary64

/-- Positive infinity. -/
def infinity : Float := Float.ofBits 0x7FF0000000000000

/-- The value that is not a number. -/
def nan : Float := Float.ofBits 0x7FF8000000000000

/-- A place on the integer line that orders all values: the bits of a
number with positive sign count up from zero, those of one with negative
sign count down from minus one. -/
def sortKey (x : Float) : Int :=
  if x.isNaN then -(Nat.pow 2 64)
  else
    let bits := x.toBits.toNat
    if bits < Nat.pow 2 63 then (bits : Int) else Nat.pow 2 63 - 1 - (bits : Int)

/-- `√(x² + y²)`, computed relative to the longer side.  An infinite side
makes the hypotenuse infinite whatever the other side is. -/
def hypot (x y : Float) : Float :=
  let a := x.abs
  let b := y.abs
  if a.isInf || b.isInf then infinity
  else if a.isNaN || b.isNaN then nan
  else
    let long := if a < b then b else a
    let short := if a < b then a else b
    if long == 0 then 0
    else
      let ratio := short / long
      long * (1 + ratio * ratio).sqrt

/-- A power whose exponent needs more than 31 bits.  Zero and the two units
stay what they are up to their sign, which the last bit of the exponent
decides. -/
def hugePow (x : Float) (n : Nat) : Float :=
  if x == 0 || x.abs == 1 then if n % 2 = 0 then x.abs else x
  else Float.pow x (Float.ofNat n)

end Binary64

instance : Scalar Float where
  add := Float.add
  sub := Float.sub
  mul := Float.mul
  div := Float.div
  neg := Float.neg
  ofNat := Float.ofNat
  abs := Float.abs
  lt := Float.lt
  le := Float.le
  eq := Float.beq
  isFinite := Float.isFinite
  sortsLE x y := decide (Binary64.sortKey x ≤ Binary64.sortKey y)
  hugePow := Binary64.hugePow

instance : Analytic Float where
  root x k := Float.pow x (1 / Float.ofNat k)
  hypot := Binary64.hypot
  pi := Float.ofBits 0x400921FB54442D18
  sin := Float.sin
  cos := Float.cos

end Univariate
