import Univariate.Expr
import Univariate.Scalar.Float

/-!
# Samples and charts

An expression is plotted over the 201 integers from `-100` to `100`.  The
chart that a drawing widget receives has the abscissas as labels and one
series of ordinates.

* `Samples.ofExpr` — the points of an expression's curve;
* `Samples.toChart` — the same points as a chart.
-/

namespace Univariate

/-- Points of a curve in ascending order of their abscissas. -/
structure Samples where
  points : List (Int × Float)

/-- What a drawing widget receives: labels, and series of values. -/
structure Chart where
  labels : List Int
  series : List (List Float)

namespace Samples

/-- No points. -/
def empty : Samples := ⟨[]⟩

/-- The largest abscissa, and the opposite of the smallest. -/
def reach : Nat := 100

/-- All integers from `-reach` to `reach`. -/
def domain : List Int :=
  (List.range (2 * reach + 1)).map fun (n : Nat) => (n : Int) - (reach : Int)

/-- The points of an expression's curve over the domain. -/
def ofExpr (e : Expr Float) : Samples :=
  ⟨domain.map fun x => (x, e.eval (Float.ofInt x))⟩

/-- The chart with these points as its only series. -/
def toChart (s : Samples) : Chart :=
  ⟨s.points.map Prod.fst, [s.points.map Prod.snd]⟩

end Samples

end Univariate
