import Mathlib
import Univariate.Expr

/-!
# Folding constants

Folding carries out an operation exactly where evaluation would, with the
same operands in the same order.  So a folded tree evaluates to what the
tree evaluates to, in any arithmetic: no law of it is used.  What can be
folded is decided by the variable alone: a tree has a constant value just
if the variable does not occur in it, and then nothing but this value is
left of it.  As every subtree is looked at again, the operators that are
left are those above an occurrence of the variable.

* `Expr.subtrees` — the tree and all trees below it;
* `Expr.constantValue?_eq_none_iff` — exactly the trees without the
  variable have a constant value;
* `Expr.eval_of_constantValue?` — a tree with a constant value has it
  everywhere;
* `Expr.eval_fold` — folding does not change values;
* `Expr.mentionsVariable_of_isOperator` — an operator that is left stands
  above the variable;
* `Expr.fold_complete` — folding changes no value and leaves nothing to
  fold.
-/

namespace Univariate

namespace Expr

section Subtrees

variable {α : Type} {e i l r : Expr α}

/-- The tree and all trees below it. -/
def subtrees : Expr α → List (Expr α)
  | const c => [const c]
  | var => [var]
  | add l r => add l r :: (l.subtrees ++ r.subtrees)
  | sub l r => sub l r :: (l.subtrees ++ r.subtrees)
  | mul l r => mul l r :: (l.subtrees ++ r.subtrees)
  | div l r => div l r :: (l.subtrees ++ r.subtrees)
  | pow base n => pow base n :: base.subtrees
  | neg inner => neg inner :: inner.subtrees

/-- A tree is one of its subtrees. -/
theorem mem_subtrees_self (e : Expr α) : e ∈ e.subtrees := by
  cases e <;> exact List.mem_cons_self

/-- What holds of all subtrees, above one tree. -/
theorem forall_subtrees_unary {P : Expr α → Prop} (h : e.subtrees = e :: i.subtrees) :
    (∀ s ∈ e.subtrees, P s) ↔ P e ∧ ∀ s ∈ i.subtrees, P s := by
  rw [h, List.forall_mem_cons]

/-- What holds of all subtrees, above two trees. -/
theorem forall_subtrees_binary {P : Expr α → Prop}
    (h : e.subtrees = e :: (l.subtrees ++ r.subtrees)) :
    (∀ s ∈ e.subtrees, P s) ↔ P e ∧ (∀ s ∈ l.subtrees, P s) ∧ ∀ s ∈ r.subtrees, P s := by
  rw [h, List.forall_mem_cons, List.forall_mem_append]

/-- The root of the tree is an operator. -/
def isOperator : Expr α → Bool
  | const _ | var => false
  | _ => true

/-- Without operators and without the variable there is only a constant. -/
theorem isConst_of_leaf (hvariable : e.mentionsVariable = false)
    (hoperator : e.isOperator = true → e.mentionsVariable = true) : e.isConst = true := by
  cases e with
  | const c => rfl
  | var => cases hvariable
  | _ => exact absurd ((hoperator rfl).symm.trans hvariable) (by decide)

end Subtrees

variable {α : Type} [Scalar α] {e : Expr α} {c : α}

/-! ## Constant values -/

/-- Exactly the trees without the variable have a value of their own. -/
theorem constantValue?_eq_none_iff (e : Expr α) :
    e.constantValue? = none ↔ e.mentionsVariable = true := by
  induction e with
  | const c => simp [constantValue?, mentionsVariable]
  | var => simp [constantValue?, mentionsVariable]
  | add l r ihl ihr | sub l r ihl ihr | mul l r ihl ihr | div l r ihl ihr =>
      rw [mentionsVariable, Bool.or_eq_true, ← ihl, ← ihr, constantValue?]
      cases l.constantValue? <;> cases r.constantValue? <;> simp
  | pow base n ih =>
      rw [mentionsVariable, ← ih, constantValue?]
      cases base.constantValue? <;> simp
  | neg inner ih =>
      rw [mentionsVariable, ← ih, constantValue?]
      cases inner.constantValue? <;> simp

/-- **A tree has a constant value** exactly if the variable does not occur in
it. -/
theorem isSome_constantValue?_iff (e : Expr α) :
    e.constantValue?.isSome = true ↔ e.mentionsVariable = false := by
  rw [Option.isSome_iff_ne_none, ne_eq, constantValue?_eq_none_iff, Bool.not_eq_true]

/-- A constant value is the value at every point. -/
theorem eval_of_constantValue? (h : e.constantValue? = some c) (x : α) : e.eval x = c := by
  induction e generalizing c with
  | const v => exact Option.some.inj h
  | var => cases h
  | add l r ihl ihr | sub l r ihl ihr | mul l r ihl ihr | div l r ihl ihr =>
      obtain ⟨a, ha, h⟩ := Option.bind_eq_some_iff.mp h
      obtain ⟨b, hb, h⟩ := Option.bind_eq_some_iff.mp h
      rw [eval, ihl ha, ihr hb]
      exact Option.some.inj h
  | pow base n ih =>
      obtain ⟨a, ha, h⟩ := Option.bind_eq_some_iff.mp h
      rw [eval, ih ha]
      exact Option.some.inj h
  | neg inner ih =>
      obtain ⟨a, ha, h⟩ := Option.bind_eq_some_iff.mp h
      rw [eval, ih ha]
      exact Option.some.inj h

/-! ## Folding -/

/-- **Folding does not change values.** -/
theorem eval_fold (e : Expr α) (x : α) : e.fold.eval x = e.eval x := by
  fun_induction fold e with
  | case1 e c hvalue => exact (eval_of_constantValue? hvalue x).symm
  | case2 | case3 => rfl
  | case4 l r _ ihl ihr | case5 l r _ ihl ihr | case6 l r _ ihl ihr | case7 l r _ ihl ihr =>
      rw [eval, eval, ihl, ihr]
  | case8 base n _ ih | case9 inner _ ih => rw [eval, eval, ih]

/-- Folding neither loses the variable nor brings it in. -/
theorem mentionsVariable_fold (e : Expr α) : e.fold.mentionsVariable = e.mentionsVariable := by
  fun_induction fold e with
  | case1 e c hvalue =>
      have hsome : e.constantValue?.isSome = true := by rw [hvalue, Option.isSome_some]
      rw [(isSome_constantValue?_iff e).mp hsome, mentionsVariable]
  | case2 | case3 => rfl
  | case4 l r _ ihl ihr | case5 l r _ ihl ihr | case6 l r _ ihl ihr | case7 l r _ ihl ihr =>
      rw [mentionsVariable, mentionsVariable, ihl, ihr]
  | case8 base n _ ih | case9 inner _ ih => rw [mentionsVariable, mentionsVariable, ih]

/-- Every operator of a folded tree stands above the variable. -/
theorem mentionsVariable_of_isOperator (e : Expr α) :
    ∀ s ∈ e.fold.subtrees, s.isOperator = true → s.mentionsVariable = true := by
  -- What is left without a constant value mentions the variable, folded or not.
  have hroot (e : Expr α) (hvalue : e.constantValue? = none) :
      e.fold.mentionsVariable = true := by
    rw [mentionsVariable_fold]
    exact (constantValue?_eq_none_iff e).mp hvalue
  fun_induction fold e with
  | case1 e c hvalue => simp [subtrees, isOperator]
  | case2 | case3 => simp [subtrees, isOperator]
  | case4 l r hvalue ihl ihr | case5 l r hvalue ihl ihr | case6 l r hvalue ihl ihr
  | case7 l r hvalue ihl ihr =>
      refine (forall_subtrees_binary rfl).mpr ⟨fun _ => ?_, ihl, ihr⟩
      have hmentions := hroot _ hvalue
      rwa [fold, hvalue] at hmentions
  | case8 base n hvalue ih | case9 inner hvalue ih =>
      refine (forall_subtrees_unary rfl).mpr ⟨fun _ => ?_, ih⟩
      have hmentions := hroot _ hvalue
      rwa [fold, hvalue] at hmentions

/-- **Folding is complete and changes nothing.**  In any arithmetic, a tree
and its folded form have the same value at every point; a tree has a
constant value, and is folded to a single constant, exactly if the variable
does not occur in it; and every operator of a folded tree stands above the
variable, so that each of its subtrees without the variable is a
constant. -/
theorem fold_complete (e : Expr α) :
    (∀ x, e.fold.eval x = e.eval x) ∧
      (e.constantValue?.isSome = true ↔ e.mentionsVariable = false) ∧
      (e.fold.isConst = true ↔ e.mentionsVariable = false) ∧
      ∀ s ∈ e.fold.subtrees,
        (s.isOperator = true → s.mentionsVariable = true) ∧
          (s.mentionsVariable = false → s.isConst = true) := by
  have hoperator := mentionsVariable_of_isOperator e
  refine ⟨eval_fold e, isSome_constantValue?_iff e, ⟨fun hconst => ?_, fun hvariable => ?_⟩,
    fun s hs => ⟨hoperator s hs, fun hvariable => isConst_of_leaf hvariable (hoperator s hs)⟩⟩
  · rw [← mentionsVariable_fold]
    cases hfold : e.fold with
    | const c => rfl
    | _ =>
        rw [hfold] at hconst
        cases hconst
  · rw [← mentionsVariable_fold] at hvariable
    exact isConst_of_leaf hvariable (hoperator _ e.fold.mem_subtrees_self)

end Expr

end Univariate
