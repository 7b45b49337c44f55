import Univariate.Scalar

/-!
# Expressions in one variable

The tree that a text denotes.  Exponents are natural numbers by the time
a tree is built, and the name of the variable is no part of it.

* `Expr.eval` — the value at a point, node by node;
* `Expr.constantValue?` — the value of a tree without the variable;
* `Expr.fold` — the same tree with every subtree that lacks the variable
  replaced by its value.
-/

namespace Univariate

/-- An expression with constants in `α`. -/
inductive Expr (α : Type) where
  | const (value : α)
  | var
  | add (left right : Expr α)
  | sub (left right : Expr α)
  | mul (left right : Expr α)
  | div (left right : Expr α)
  | pow (base : Expr α) (exponent : Nat)
  | neg (inner : Expr α)

namespace Expr

variable {α : Type}

/-- The variable occurs in the tree. -/
def mentionsVariable : Expr α → Bool
  | const _ => false
  | var => true
  | add l r | sub l r | mul l r | div l r => l.mentionsVariable || r.mentionsVariable
  | pow base _ => base.mentionsVariable
  | neg inner => inner.mentionsVariable

/-- The tree is a single constant. -/
def isConst : Expr α → Bool
  | const _ => true
  | _ => false

variable [Scalar α]

/-- The value at `x`. -/
def eval (x : α) : Expr α → α
  | const c => c
  | var => x
  | add l r => l.eval x + r.eval x
  | sub l r => l.eval x - r.eval x
  | mul l r => l.eval x * r.eval x
  | div l r => l.eval x / r.eval x
  | pow base n => Scalar.pow (base.eval x) n
  | neg inner => -inner.eval x

/-- The value of a tree in which the variable does not occur. -/
def constantValue? : Expr α → Option α
  | const c => some c
  | var => none
  | add l r => do return (← l.constantValue?) + (← r.constantValue?)
  | sub l r => do return (← l.constantValue?) - (← r.constantValue?)
  | mul l r => do return (← l.constantValue?) * (← r.constantValue?)
  | div l r => do return (← l.constantValue?) / (← r.constantValue?)
  | pow base n => do return Scalar.pow (← base.constantValue?) n
  | neg inner => do return -(← inner.constantValue?)

/-- The tree with every variable-free subtree replaced by its value. -/
def fold (e : Expr α) : Expr α :=
  match e.constantValue? with
  | some c => const c
  | none =>
    match e with
    | const c => const c
    | var => var
    | add l r => add l.fold r.fold
    | sub l r => sub l.fold r.fold
    | mul l r => mul l.fold r.fold
    | div l r => div l.fold r.fold
    | pow base n => pow base.fold n
    | neg inner => neg inner.fold

end Expr

end Univariate
