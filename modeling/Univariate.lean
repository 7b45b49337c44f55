import Univariate.Main
import Univariate.Page
import Univariate.Proofs.Binary64.Grid
import Univariate.Proofs.Binary64.Packing
import Univariate.Proofs.Binary64.Exact
import Univariate.Proofs.Binary64.Decoding
import Univariate.Proofs.Expansion.Ascending
import Univariate.Proofs.Expansion.Bounds
import Univariate.Proofs.Expansion.Exact
import Univariate.Proofs.Expansion.Represents
import Univariate.Proofs.NormalForm.Integral
import Univariate.Proofs.Expr.Completeness
import Univariate.Proofs.Expr.Soundness
import Univariate.Proofs.Expr.Acceptance
import Univariate.Proofs.Session.Operations
import Univariate.Proofs.Session.View
import Univariate.Proofs.Session.Tickets
import Univariate.Proofs.Roots.Clustering
import Univariate.Proofs.Roots.Candidates
import Univariate.Proofs.Roots.Shape
import Univariate.Proofs.Binary64.Rounding
import Univariate.Proofs.Binary64.Nearest
import Univariate.Proofs.Decimal.Shortest
import Univariate.Proofs.Decimal.Reading
import Univariate.Proofs.Decimal.Texts
import Univariate.Proofs.Display
import Univariate.Proofs.Expansion.Monomials
import Univariate.Proofs.Expr.Words
import Univariate.Proofs.NormalForm.Rendering
import Univariate.Proofs.NormalForm.RoundTrip
import Univariate.Proofs.Binary64.Overflow
import Univariate.Proofs.Expansion.Growth
import Univariate.Proofs.NormalForm.Degree
import Univariate.Proofs.Binary64.Order
import Univariate.Proofs.Roots.Recovery
import Univariate.Proofs.Roots.Product
import Univariate.Proofs.NormalForm.Polynomial
import Univariate.Proofs.Roots.Integers
import Univariate.Proofs.Roots.Reconstruction
import Univariate.Proofs.Session.Logs
import Univariate.Proofs.Session.Superseded
import Univariate.Proofs.Json.Grammar
import Univariate.Proofs.Json.Literals
import Univariate.Proofs.Json.Words
import Univariate.Proofs.Json.Reading
import Univariate.Proofs.Json.Writing
import Univariate.Proofs.Json.Fields
import Univariate.Proofs.Wire.RoundTrip
import Univariate.Proofs.Wire.Responses
import Univariate.Proofs.Failures
import Univariate.Proofs.Session.Refinement
import Univariate.Proofs.Exact.Scalar
import Univariate.Proofs.Exact.Reals
import Univariate.Proofs.Exact.Complex
import Univariate.Proofs.Dense.Polynomial
import Univariate.Proofs.Dense.Division
import Univariate.Proofs.Dense.Gcd
import Univariate.Proofs.Dense.Euclid
import Univariate.Proofs.Dense.Leading
import Univariate.Proofs.Squarefree.Splitting
import Univariate.Proofs.Squarefree.Passes
import Univariate.Proofs.Squarefree.Decomposition
import Univariate.Proofs.Squarefree.PerfectPower
import Univariate.Proofs.Roots.ScaledIteration
import Univariate.Proofs.Roots.Scaling
import Univariate.Proofs.Binary64.Signs
import Univariate.Proofs.NormalForm.Limit
import Univariate.Proofs.NormalForm.Refusal
import Univariate.Proofs.Binary64.Integers
import Univariate.Proofs.Expr.Folding
import Univariate.Proofs.Expr.Layout
import Univariate.Proofs.Checked.Access
import Univariate.Proofs.Checked.Division
import Univariate.Proofs.Checked.Squarefree
import Univariate.Proofs.Checked.Taylor
import Univariate.Proofs.Checked.Iteration
import Univariate.Proofs.Checked.Splitting
import Univariate.Proofs.Checked.Clustering
import Univariate.Proofs.Checked.Solving
import Univariate.Proofs.Expr.Names
import Univariate.Proofs.NormalForm.Evaluation
import Univariate.Proofs.Expr.Parentheses
import Univariate.Proofs.Expr.Sentences
import Univariate.Proofs.Expr.Spans
import Univariate.Proofs.Expr.Prefixes
import Univariate.Proofs.Expr.Faults
import Univariate.Proofs.NormalForm.Raising
import Univariate.Proofs.Session.Preservation
import Univariate.Proofs.Roots.Pairing
import Univariate.Proofs.Roots.Displacement
import Univariate.Proofs.Roots.Interchange
import Univariate.Proofs.Roots.Symmetry
import Univariate.Proofs.Roots.Spacing
import Univariate.Proofs.Roots.Bound
import Univariate.Proofs.Roots.Taylor
import Univariate.Proofs.Roots.Enclosure
import Univariate.Proofs.Roots.Finite
import Univariate.Proofs.Roots.Factors
import Univariate.Proofs.NormalForm.Coefficients
import Univariate.Proofs.NormalForm.Canonical
import Univariate.Proofs.NormalForm.Products
import Univariate.Proofs.NormalForm.Horner
import Univariate.Proofs.Roots.ClosePair
import Univariate.Proofs.Roots.Conservation
import Univariate.Proofs.Roots.Rendering
import Univariate.Proofs.Display.Numerals
