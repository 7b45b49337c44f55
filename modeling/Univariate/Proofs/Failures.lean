import Univariate.Proofs.Roots.Candidates
import Univariate.Wire

/-!
# Where failures come from

Reading a text and expanding it fail with errors of the three local kinds
only, and solving fails with an error of the numeric kind only.  So the
kind of an error tells on which side of the call of a solver it arose.

* `FailsLocally` — a computation whose errors are local, closed under one
  step after another;
* `Settings.failsLocally_normalForm` — reading and expanding;
* `Solution.yields_of_ofNormalForm` — solving.
-/

namespace Univariate

variable {α β γ : Type}

/-- If the computation fails, then with an error that needs no solver. -/
def FailsLocally (x : Except Error β) : Prop := ∀ e, x = .error e → e.isLocal = true

namespace FailsLocally

theorem ok (b : β) : FailsLocally (.ok b) := nofun

theorem error {e : Error} (h : e.isLocal = true) : FailsLocally (.error e : Except Error β) := by
  intro other hother
  exact Except.error.inj hother ▸ h

/-- **A computation in two steps** fails locally if both steps do. -/
theorem bind {x : Except Error β} {f : β → Except Error γ} (hx : FailsLocally x)
    (hf : ∀ b, FailsLocally (f b)) : FailsLocally (x >>= f) := by
  cases x with
  | error e => exact error (hx e rfl)
  | ok b => exact hf b

/-- Applying a function adds no failure. -/
theorem map {x : Except Error β} (f : β → γ) (hx : FailsLocally x) : FailsLocally (f <$> x) := by
  cases x with
  | error e => exact error (hx e rfl)
  | ok b => exact ok (f b)

/-- A loop fails locally if its steps do. -/
theorem foldlM {step : β → α → Except Error β} (hstep : ∀ b a, FailsLocally (step b a))
    (as : List α) (b : β) : FailsLocally (as.foldlM step b) := by
  induction as generalizing b with
  | nil => exact ok b
  | cons a as ih =>
      rw [List.foldlM_cons]
      exact (hstep b a).bind ih

end FailsLocally

/-! ## Reading -/

open FailsLocally

/-- Every failure of reading tokens is a local one. -/
theorem Token.isLocal_of_lexFrom {name : List Char} {position : ℕ} {cs : List Char} {e : Error}
    (h : (Token.lexFrom name position cs).2 = some e) : e.isLocal = true := by
  fun_induction Token.lexFrom name position cs with
  | case1 => cases h
  | case2 position c cs hspacing ih => exact ih h
  | case3 position c cs hspacing fault hscan =>
      obtain rfl := Option.some.inj h
      rfl
  | case4 position c cs hspacing token tail hscan stop rest failure hrest ih =>
      rw [hrest] at ih
      exact ih h

/-- Exponents are refused locally. -/
theorem Expr.failsLocally_exponentOf (exponent : Expr Float) (caret : ℕ) :
    FailsLocally (exponent.exponentOf caret) := by
  unfold exponentOf
  split_ifs
  · exact error rfl
  · dsimp only
    split
    · exact error rfl
    · exact error rfl
    · split
      · exact error rfl
      · split_ifs
        · exact error rfl
        · exact error rfl
        · exact ok _

/-- Closing a frame fails locally. -/
theorem Frame.failsLocally_close (frame : Frame) (e : Expr Float) :
    FailsLocally (frame.close e) := by
  unfold Frame.close
  split
  · exact (Expr.failsLocally_exponentOf _ _).bind fun n => ok _
  all_goals exact ok _

/-- So does unwinding the stack. -/
theorem failsLocally_unwind (level : Level) (stack : List Frame) (e : Expr Float) :
    FailsLocally (unwind level stack e) := by
  induction stack generalizing e with
  | nil => exact ok _
  | cons frame below ih =>
      rw [unwind]
      split_ifs
      · exact (frame.failsLocally_close e).bind ih
      · exact ok _

namespace Stage

/-- Pushing an operand fails locally. -/
theorem failsLocally_pushProduct (stack : List Frame) (value : Expr Float) (sign : ProductSign) :
    FailsLocally (pushProduct stack value sign) :=
  (failsLocally_unwind .product stack value).bind fun _ => ok _

/-- **Reading one token more** fails locally. -/
theorem failsLocally_step (s : Stage) (lexeme : Lexeme) : FailsLocally (s.step lexeme) := by
  have hrefuse : FailsLocally (refuse lexeme) := error rfl
  unfold step
  split
  · split
    all_goals first | exact ok _ | exact hrefuse
  · split
    all_goals first | exact ok _ | exact hrefuse
  · next stack value =>
    have hproduct := failsLocally_pushProduct stack value
    split
    · exact ok _
    · exact (failsLocally_unwind .sum stack value).bind fun _ => ok _
    · exact (failsLocally_unwind .sum stack value).bind fun _ => ok _
    · exact (hproduct .times).map _
    · exact (hproduct .over).map _
    · exact (hproduct .adjacent).bind fun _ => ok _
    · exact (hproduct .adjacent).bind fun _ => ok _
    · exact (hproduct .adjacent).bind fun _ => ok _
    · refine (failsLocally_unwind .sum stack value).bind fun unwound => ?_
      split
      · exact ok _
      · exact hrefuse

/-- So does the end of the text. -/
theorem failsLocally_finish (stop : ℕ) (s : Stage) : FailsLocally (s.finish stop) := by
  unfold finish
  split
  · refine (failsLocally_unwind .sum _ _).bind fun unwound => ?_
    split
    · exact ok _
    · exact error rfl
  · exact error rfl

end Stage

namespace Expr

/-- A text that cannot be read is refused without a solver. -/
theorem failsLocally_parse (name text : String) : FailsLocally (parse name text) := by
  have hchecks : FailsLocally (checkParens text.toList) := by
    unfold checkParens
    split
    · exact error rfl
    · exact ok _
    · exact error rfl
  have hread : FailsLocally
      (ofLexemes (Token.lex name text).1 (Token.lex name text).2) := by
    refine (foldlM Stage.failsLocally_step _ _).bind fun stage => ?_
    split
    · next e hfailure => exact error (Token.isLocal_of_lexFrom hfailure)
    · exact Stage.failsLocally_finish _ stage
  unfold parse
  split_ifs
  · exact error rfl
  · exact hchecks.bind fun _ => hread

end Expr

/-! ## Expanding -/

section Expanding

variable [Scalar α]

namespace Expansion

/-- Products are refused locally. -/
theorem failsLocally_mul (limit : ℕ) (p q : Expansion α) : FailsLocally (mul limit p q) := by
  unfold mul
  dsimp only
  split_ifs
  · exact error rfl
  · exact ok _

/-- So are the products on the way to a power. -/
theorem failsLocally_powLoop (limit : ℕ) (result square : Expansion α) (n : ℕ) :
    FailsLocally (powLoop limit result square n) := by
  induction n using Nat.strong_induction_on generalizing result square with
  | h n ih =>
    rw [powLoop]
    split_ifs with hn hodd
    · exact ok _
    · exact (failsLocally_mul limit result square).bind fun _ => ok _
    · exact (ok _ : FailsLocally (.ok result)).bind fun _ => ok _
    · refine (failsLocally_mul limit result square).bind fun _ =>
        (failsLocally_mul limit square square).bind fun _ => ih _ (by omega) _ _
    · refine (ok _ : FailsLocally (.ok result)).bind fun _ =>
        (failsLocally_mul limit square square).bind fun _ => ih _ (by omega) _ _

/-- Powers are refused locally. -/
theorem failsLocally_pow (limit : ℕ) (p : Expansion α) (n : ℕ) :
    FailsLocally (pow limit p n) := by
  unfold pow
  dsimp only
  split_ifs
  · exact error rfl
  · exact failsLocally_powLoop _ _ _ _

/-- Quotients are refused locally. -/
theorem failsLocally_div (p q : Expansion α) : FailsLocally (div p q) := by
  unfold div
  dsimp only
  split_ifs
  · exact error rfl
  · exact error rfl
  · exact ok _

end Expansion

/-- A tree that has no normal form is refused without a solver. -/
theorem Expr.failsLocally_normalize (e : Expr α) (limit : ℕ) :
    FailsLocally (e.normalize limit) := by
  have hexpand : FailsLocally (e.expand limit) := by
    induction e with
    | const c => exact ok _
    | var => exact ok _
    | add l r hl hr => exact hl.bind fun _ => hr.bind fun _ => ok _
    | sub l r hl hr => exact hl.bind fun _ => hr.bind fun _ => ok _
    | neg inner hinner => exact hinner.bind fun _ => ok _
    | mul l r hl hr => exact hl.bind fun _ => hr.bind fun _ => Expansion.failsLocally_mul _ _ _
    | div l r hl hr => exact hl.bind fun _ => hr.bind fun _ => Expansion.failsLocally_div _ _
    | pow base n hbase => exact hbase.bind fun _ => Expansion.failsLocally_pow _ _ _
  exact hexpand.bind fun _ => ok _

end Expanding

/-- **Reading and expanding** fail without a solver. -/
theorem Settings.failsLocally_normalForm (settings : Settings) (text : String) :
    FailsLocally (settings.normalForm text) :=
  (Expr.failsLocally_parse settings.name text).bind fun e =>
    e.failsLocally_normalize settings.maxDegree

/-! ## Solving -/

section Solving

variable [Analytic α]

/-- Finding candidates fails in the solver only. -/
theorem Multiplicity.yields_of_candidates (coefficients : Dense α) (ε : α) (iterations : ℕ) :
    Yields (fun _ => True) (candidates coefficients ε iterations) := by
  have hdirect : Yields (fun _ => True)
      (do return (← Roots.find coefficients iterations).map fun z => (⟨z, 1⟩ : Root α)) :=
    (Roots.yields_find coefficients iterations).bind fun _ _ => .ok trivial
  unfold candidates
  dsimp only
  split
  · exact hdirect
  · split_ifs
    · exact .ok trivial
    · exact hdirect

/-- **Solving** fails only where an iteration does. -/
theorem Solution.yields_of_ofNormalForm (p : NormalForm α) (settings : SolverSettings α) :
    Yields (fun _ => True) (ofNormalForm p settings) := by
  unfold ofNormalForm
  split
  · exact .ok trivial
  · exact .ok trivial
  · exact (Multiplicity.yields_of_candidates _ _ _).bind fun _ _ => .ok trivial

end Solving

/-- An iteration that fails is no local error. -/
theorem Yields.isLocal_eq_false {Q : β → Prop} {x : Except Error β} (h : Yields Q x) {e : Error}
    (he : x = .error e) : e.isLocal = false := by
  cases h with
  | ok hb => cases he
  | unsolvable fault =>
      obtain rfl := Except.error.inj he
      rfl

end Univariate
