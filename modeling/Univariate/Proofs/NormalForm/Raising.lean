import Univariate.Proofs.Computation
import Univariate.Proofs.Expansion.Monomials

/-!
# Raising the limit on the degree

The limit is only ever compared with a degree, and never computed with.  So
two runs under different limits are the same run, product by product and
square by square, up to the first degree that is over the lower limit; there
one of them is refused.  Whatever the lower limit accepts, and whatever it
refuses for another reason than the degree, the higher limit answers in the
same way.  Nothing is assumed about the arithmetic of the coefficients.

* `Expansion.Raised` — two runs in step, closed under one step after another;
* `Expansion.raised_mul`, `Expansion.raised_pow`, `Expr.raised_expand` — the
  runs of the parts;
* `Expr.normalize_raise` — the answers.
-/

namespace Univariate

namespace Expansion

variable {α β γ : Type} {limit limit' : ℕ}

/-- What a computation comes to under a limit and under a higher one: the
same, unless a degree is over the limit. -/
inductive Raised (limit : ℕ) : Except Error β → Except Error β → Prop
  | same (x : Except Error β) : Raised limit x x
  | refused {degree : ℕ} (h : limit < degree) (x : Except Error β) :
      Raised limit (.error (.domain (.degreeOverLimit degree limit))) x

/-- One step after another. -/
theorem Raised.bind {x x' : Except Error β} {f f' : β → Except Error γ}
    (hx : Raised limit x x') (hf : ∀ b, Raised limit (f b) (f' b)) :
    Raised limit (x >>= f) (x' >>= f') := by
  cases hx with
  | refused h x' => exact .refused h _
  | same x =>
      cases x with
      | error error => exact .same _
      | ok b => exact hf b

/-- One comparison of a degree with the limit. -/
theorem raised_ite {x x' : Except Error β} {degree : ℕ} (hlimit : limit ≤ limit')
    (h : Raised limit x x') :
    Raised limit
      (if limit < degree then .error (.domain (.degreeOverLimit degree limit)) else x)
      (if limit' < degree then .error (.domain (.degreeOverLimit degree limit')) else x') := by
  by_cases hover : limit < degree
  · rw [if_pos hover]
    exact .refused hover _
  · rw [if_neg hover, if_neg (by omega)]
    exact h

variable [Scalar α]

/-- A product under two limits. -/
theorem raised_mul (hlimit : limit ≤ limit') (p q : Expansion α) :
    Raised limit (mul limit p q) (mul limit' p q) :=
  raised_ite hlimit (.same _)

/-- Every product on the way to a power. -/
theorem raised_powLoop (hlimit : limit ≤ limit') (result square : Expansion α) (n : ℕ) :
    Raised limit (powLoop limit result square n) (powLoop limit' result square n) := by
  induction n using Nat.strong_induction_on generalizing result square with
  | _ n ih =>
      by_cases hzero : n = 0
      · rw [powLoop, powLoop, if_pos hzero, if_pos hzero]
        exact .same _
      rw [powLoop_eq hzero, powLoop_eq hzero]
      refine Raised.bind ?_ fun product => ?_
      · -- The lowest bit.
        split_ifs
        · exact raised_mul hlimit result square
        · exact .same _
      · -- The bits above it.
        split_ifs
        · exact .same _
        · exact (raised_mul hlimit square square).bind fun next => ih (n / 2) (by omega) _ _

/-- A power under two limits. -/
theorem raised_pow (hlimit : limit ≤ limit') (p : Expansion α) (n : ℕ) :
    Raised limit (pow limit p n) (pow limit' p n) :=
  raised_ite hlimit (raised_powLoop hlimit _ p n)

end Expansion

namespace Expr

open Expansion

variable {α : Type} [Scalar α] {limit limit' : ℕ}

/-- **The expansions of a tree**, part by part. -/
theorem raised_expand (hlimit : limit ≤ limit') (e : Expr α) :
    Raised limit (e.expand limit) (e.expand limit') := by
  induction e with
  | const c => exact .same _
  | var => exact .same _
  | add l r ihl ihr | sub l r ihl ihr =>
      exact ihl.bind fun _ => ihr.bind fun _ => .same _
  | mul l r ihl ihr => exact ihl.bind fun p => ihr.bind fun q => raised_mul hlimit p q
  | div l r ihl ihr => exact ihl.bind fun _ => ihr.bind fun _ => .same _
  | pow base n ih => exact ih.bind fun p => raised_pow hlimit p n
  | neg inner ih => exact ih.bind fun _ => .same _

/-- **A whole expression under two limits.** -/
theorem raised_normalize (hlimit : limit ≤ limit') (e : Expr α) :
    Raised limit (e.normalize limit) (e.normalize limit') :=
  (raised_expand hlimit e).bind fun _ => .same _

/-- **Raising the limit never changes an accepted answer.**  What is accepted
is accepted under every higher limit, with the same terms.  What is rejected
is rejected under every lower limit, with the same error or because a degree
is over that limit. -/
theorem normalize_raise (hlimit : limit ≤ limit') (e : Expr α) :
    (∀ p, e.normalize limit = .ok p → e.normalize limit' = .ok p) ∧
    ∀ error, e.normalize limit' = .error error →
      e.normalize limit = .error error ∨
        ∃ degree, limit < degree ∧
          e.normalize limit = .error (.domain (.degreeOverLimit degree limit)) := by
  have hraised := raised_normalize hlimit e
  generalize e.normalize limit = x at hraised
  generalize e.normalize limit' = x' at hraised
  cases hraised with
  | same => exact ⟨fun p hp => hp, fun error herror => Or.inl herror⟩
  | refused hdegree => exact ⟨nofun, fun error herror => Or.inr ⟨_, hdegree, rfl⟩⟩

/-- `x³` is accepted under a limit of three and so under the default one; it
is rejected under a limit of two and so without any room. -/
theorem normalize_raise_cube :
    (∃ p, (pow var 3 : Expr Float).normalize 3 = .ok p ∧
      (pow var 3 : Expr Float).normalize defaultMaxDegree = .ok p) ∧
    ∃ error error', (pow var 3 : Expr Float).normalize 2 = .error error ∧
      (pow var 3 : Expr Float).normalize 0 = .error error' := by
  obtain ⟨r, hr, -⟩ := (monomial_single 1).pow (by norm_num : 1 * 3 ≤ 3)
  have hexpand : (pow var 3 : Expr Float).expand 3 = .ok r := hr
  have haccepted : (pow var 3 : Expr Float).normalize 3 = .ok r.toNormalForm := by
    rw [normalize, hexpand]
    rfl
  have htop : (Expansion.single 1 (Scalar.one : Float)).topDegree = 1 :=
    topDegree_singleton (by decide +kernel)
  have hover : Expansion.pow 2 (Expansion.single 1 (Scalar.one : Float)) 3 =
      .error (.domain (.degreeOverLimit 3 2)) := by
    rw [Expansion.pow, htop]
    exact if_pos (by norm_num : 2 < 1 * 3)
  have hrefused : (pow var 3 : Expr Float).expand 2 =
      .error (.domain (.degreeOverLimit 3 2)) := hover
  have hrejected : (pow var 3 : Expr Float).normalize 2 =
      .error (.domain (.degreeOverLimit 3 2)) := by
    rw [normalize, hrefused]
    rfl
  refine ⟨⟨_, haccepted, (normalize_raise (by decide) _).1 _ haccepted⟩, ?_⟩
  rcases (normalize_raise (by decide : 0 ≤ 2) _).2 _ hrejected with hsame | ⟨degree, -, hover⟩
  · exact ⟨_, _, hrejected, hsame⟩
  · exact ⟨_, _, hrejected, hover⟩

end Expr

end Univariate
