import Univariate.Proofs.Checked.Access
import Univariate.Proofs.Roots.Scaling

/-!
# Checked shifts

A polynomial is shifted to a point by one division after the other, each of
which reads the coefficients from the top downwards.  There is one
coefficient for every division, those after the last one of the polynomial
being zero; so the one of degree `m` is there after `m + 1` divisions,
however short the polynomial is.

* `Checked.divLinear`, `Checked.taylor`, `Checked.clusterRadius` — the
  programs;
* `Checked.taylor_eq`, `Checked.clusterRadius_eq` — what comes out of
  them.
-/

namespace Univariate

namespace Checked

open Multiplicity (divLinear_cons_cons length_taylor roundingShare scalarContribution
  radiusFrom_map_range)

variable {α : Type}

section Shift

variable [Scalar α]

/-- Division by `x - r` with the entries of the quotient from the top
downwards: the quotient and the remainder. -/
def divLinear (r : Cplx α) (work : List (Cplx α)) (top : Cplx α) :
    Checked (List (Cplx α) × Cplx α) := do
  let count ← minus work.length 1
  (List.range count).reverse.foldlM (fun (quotient, acc) i => do
    let quotient ← put quotient i acc
    return (quotient, acc * r + (← get work i))) (List.replicate count Cplx.zero, top)

/-- The first `count` coefficients around `r`. -/
def taylor (r : Cplx α) : ℕ → List (Cplx α) → Checked (List (Cplx α))
  | 0, _ => return []
  | count + 1, work =>
    match work.getLast? with
    | none => return Cplx.zero :: (← taylor r count work)
    | some top => do
      let (quotient, value) ← divLinear r work top
      return value :: (← taylor r count quotient)

/-- **The steps of a division by `x - r`**, once those down to the entry
below `back` are done. -/
theorem divLinear_go (r : Cplx α) (front back : List (Cplx α)) (hback : back ≠ []) :
    (List.range front.length).reverse.foldlM (fun (quotient, acc) i => do
        let quotient ← put quotient i acc
        return (quotient, acc * r + (← get (front ++ back) i)))
      (List.replicate front.length Cplx.zero ++ (Multiplicity.divLinear r back).1,
        (Multiplicity.divLinear r back).2) =
      .ok (Multiplicity.divLinear r (front ++ back)) := by
  induction front using List.reverseRecOn generalizing back with
  | nil => rfl
  | append_singleton front c ih =>
      obtain ⟨d, rest, rfl⟩ := List.exists_cons_of_ne_nil hback
      have hnext := ih (c :: d :: rest) (List.cons_ne_nil c (d :: rest))
      rw [divLinear_cons_cons] at hnext
      dsimp only at hnext
      rw [List.length_append, List.length_singleton, List.range_succ, List.reverse_append,
        List.reverse_singleton, List.singleton_append, List.foldlM_cons, List.replicate_succ',
        List.append_assoc, List.singleton_append]
      simp only [put_append List.length_replicate, ok_bind, List.append_assoc,
        List.singleton_append, get_append rfl, pure_eq]
      exact hnext

/-- **The checked division by a linear factor succeeds**, with the last
coefficient as its first one. -/
theorem divLinear_eq (r : Cplx α) {work : List (Cplx α)} {top : Cplx α}
    (h : work.getLast? = some top) :
    divLinear r work top = .ok (Multiplicity.divLinear r work) := by
  obtain ⟨front, rfl⟩ := List.getLast?_eq_some_iff.mp h
  have hloop := divLinear_go r front [top] (List.cons_ne_nil top [])
  rw [Multiplicity.divLinear, List.append_nil] at hloop
  rw [divLinear, minus_length_concat, ok_bind, hloop]

/-- **Shifting a polynomial** reads no entry that is not there. -/
theorem taylor_eq (r : Cplx α) (count : ℕ) (work : List (Cplx α)) :
    taylor r count work = .ok (Multiplicity.taylor r count work) := by
  induction count generalizing work with
  | zero => rfl
  | succ count ih =>
      rw [taylor, Multiplicity.taylor]
      split
      · next hnil =>
        obtain rfl := List.getLast?_eq_none_iff.mp hnil
        rw [ih]
        rfl
      · next top htop =>
        rw [divLinear_eq r htop, ok_bind]
        dsimp only
        rw [ih]
        rfl

end Shift

variable [Analytic α]

/-- A distance from `r` within which `m` roots lie. -/
def clusterRadius (coefficients : Dense α) (r : Cplx α) (m : ℕ) : Checked (Option α) := do
  let shifted ← taylor r (m + 1) (coefficients.map Cplx.ofReal)
  let bounds ← taylor (Cplx.ofReal r.norm) (m + 1)
    (coefficients.map fun c => Cplx.ofReal (Scalar.abs c))
  let rounding := roundingShare coefficients
  let lead := (← get shifted m).norm
  if Scalar.le lead (rounding * (← get bounds m).re) then return none
  some <$> (List.range m).foldlM (fun largest k => do
    let size := (← get shifted k).norm
    let rest := Scalar.max (size - rounding * (← get bounds k).re) Scalar.zero
    return Scalar.max largest (Scalar.ofNat 2 * Analytic.root (rest / lead) (← minus m k)))
    Scalar.zero

/-- **The distance** reads no entry that is not there. -/
theorem clusterRadius_eq (coefficients : Dense α) (r : Cplx α) (m : ℕ) :
    clusterRadius coefficients r m = .ok (Multiplicity.clusterRadius coefficients r m) := by
  have hentries (p : List (Cplx α)) (hp : p.length = m + 1) :
      ∃ f : ℕ → Cplx α, p = (List.range (m + 1)).map f ∧ ∀ k ≤ m, get p k = .ok (f k) :=
    ⟨(p.getD · Cplx.zero), (hp ▸ map_getD_range p Cplx.zero).symm,
      fun k hk => get_getD (hp ▸ Nat.lt_succ_of_le hk) Cplx.zero⟩
  obtain ⟨f, hf, hgetf⟩ := hentries _ (length_taylor r (m + 1) (coefficients.map Cplx.ofReal))
  obtain ⟨g, hg, hgetg⟩ := hentries _ (length_taylor (Cplx.ofReal r.norm) (m + 1)
    (coefficients.map fun c => Cplx.ofReal (Scalar.abs c)))
  have hmodel : Multiplicity.clusterRadius coefficients r m =
      if Scalar.le (f m).norm (roundingShare coefficients * (g m).re) then none
      else some ((List.range m).foldl (fun largest k => Scalar.max largest
        (scalarContribution (Cplx.norm ∘ f) ((fun b => roundingShare coefficients * b.re) ∘ g)
          m k)) Scalar.zero) := by
    rw [Multiplicity.clusterRadius_eq, hf, hg, List.map_map, List.map_map, radiusFrom_map_range]
    rfl
  rw [clusterRadius, taylor_eq, taylor_eq, ok_bind, ok_bind, hgetf m le_rfl, ok_bind,
    hgetg m le_rfl, ok_bind, hmodel]
  split_ifs with hlost
  · rfl
  · rw [foldlM_eq fun k hk largest => ?_]
    · rfl
    · have hk := (List.mem_range.mp hk).le
      rw [hgetf k hk, ok_bind, hgetg k hk, ok_bind, minus_of_le hk]
      rfl

end Checked

end Univariate
