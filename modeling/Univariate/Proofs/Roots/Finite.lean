import Univariate.Proofs.Binary64.Overflow
import Univariate.Proofs.Expansion.Exact
import Univariate.Proofs.Roots.Candidates

/-!
# Finite roots

The iteration looks at its points after every sweep and gives up as soon as
one of them is not finite, so wherever it ends all points are.  What is
linear, once the roots at zero are stripped, is solved by a division, and
there nobody looks: the root is infinite exactly where the quotient of the
two coefficients reaches the overflow threshold.

* `Roots.iterate_finite` — wherever the sweeps end, the points are finite;
* `Roots.LinearOverflow` — the one way to an infinite root;
* `Roots.Found`, `Roots.find_finite` — how many roots are found, which are
  the zeros, and that all are finite but for a linear overflow;
* `Roots.find_linear_overflow` — such a polynomial.
-/

namespace Univariate

/-- A result of two kinds. -/
theorem Yields.and {β : Type} {Q R : β → Prop} {x : Except Error β} (hQ : Yields Q x)
    (hR : Yields R x) : Yields (fun b => Q b ∧ R b) x := by
  cases hQ with
  | unsolvable fault => exact .unsolvable fault
  | ok hb =>
      cases hR with
      | ok hb' => exact .ok ⟨hb, hb'⟩

namespace Roots

open Binary64

/-! ## The iteration -/

section Iteration

variable {α : Type} [Analytic α]

/-- The points that the sweeps end with are finite. -/
def Outcome.Finite : Outcome α → Prop
  | .converged roots | .stalled roots => ∀ z ∈ roots, z.isFinite = true
  | .diverged => True

/-- **After a sweep all points are finite**, or the iteration is given up. -/
theorem iterate_finite (coefficients : Dense α) {iterations : ℕ} {roots : List (Cplx α)}
    (hroots : iterations = 0 → ∀ z ∈ roots, z.isFinite = true) :
    (iterate coefficients iterations roots).Finite := by
  induction iterations generalizing roots with
  | zero => exact hroots rfl
  | succ iterations ih =>
      rw [iterate]
      dsimp only
      split_ifs with hdiverged
      · trivial
      all_goals
        have hfinite : ∀ z ∈ (sweep coefficients [] Scalar.zero roots).1, z.isFinite = true := by
          simpa using hdiverged
      · exact hfinite
      · exact ih fun _ => hfinite

/-- From degree two on the roots come from the iteration. -/
theorem yields_findNonzero_finite {coefficients : Dense α} (hlength : 2 < coefficients.length)
    {iterations : ℕ} (hpos : 0 < iterations) :
    Yields (fun roots => ∀ z ∈ roots, z.isFinite = true) (findNonzero coefficients iterations) := by
  have hfinite : (iterate coefficients iterations (startPoints coefficients)).Finite :=
    iterate_finite coefficients fun hzero => absurd hzero hpos.ne'
  unfold findNonzero
  split
  · simp at hlength
  · simp at hlength
  · simp at hlength
  · split <;> rename_i h <;> rw [h] at hfinite
    · exact .unsolvable _
    · exact .ok hfinite
    · dsimp only
      split_ifs
      · exact .unsolvable _
      · exact .ok hfinite

/-- The roots at zero stand in front of those of the rest. -/
theorem yields_find_rest {coefficients : Dense α} {iterations : ℕ} {Q : List (Cplx α) → Prop}
    (hrest : Yields Q (findNonzero (coefficients.dropWhile (Scalar.eq · Scalar.zero))
      iterations)) :
    Yields (fun roots => ∃ rest, roots = List.replicate
        (coefficients.takeWhile (Scalar.eq · Scalar.zero)).length Cplx.zero ++ rest ∧ Q rest)
      (find coefficients iterations) :=
  hrest.bind fun rest h => .ok ⟨rest, by rw [List.map_const'], h⟩

end Iteration

/-! ## Linear polynomials -/

/-- But for roots at zero the polynomial is linear, and its root is too
large for a number. -/
def LinearOverflow (coefficients : Dense Float) : Prop :=
  ∃ zeros constant slope p q, coefficients = zeros ++ [constant, slope] ∧
    (∀ c ∈ zeros, Exactly c 0) ∧ Exactly constant p ∧ p ≠ 0 ∧ Exactly slope q ∧
    overflowThreshold ≤ |p / q|

/-- What is left of it is the linear polynomial. -/
theorem LinearOverflow.dropWhile {coefficients : Dense Float} (h : LinearOverflow coefficients) :
    ∃ constant slope p q, coefficients.dropWhile (Scalar.eq · Scalar.zero) = [constant, slope] ∧
      Exactly constant p ∧ Exactly slope q ∧ overflowThreshold ≤ |p / q| := by
  obtain ⟨zeros, constant, slope, p, q, rfl, hzeros, hconstant, hp, hslope, hle⟩ := h
  refine ⟨constant, slope, p, q, ?_, hconstant, hslope, hle⟩
  rw [List.dropWhile_append_of_pos fun c hc => (hzeros c hc).eq_zero_iff.mpr rfl]
  exact List.dropWhile_cons_of_neg (mt hconstant.eq_zero_iff.mp hp)

/-- Only what is linear without its roots at zero overflows like that. -/
theorem not_linearOverflow {coefficients : Dense Float}
    (h : (coefficients.dropWhile (Scalar.eq · Scalar.zero)).length ≠ 2) :
    ¬LinearOverflow coefficients := by
  intro hoverflow
  obtain ⟨_, _, _, _, hrest, -⟩ := hoverflow.dropWhile
  exact h (by rw [hrest]; rfl)

/-- What is linear but for its zeros overflows at the threshold. -/
theorem linearOverflow_iff {coefficients : Dense Float} {constant slope : Float} {p q : ℚ}
    (hfinite : ∀ c ∈ coefficients, c.isFinite = true)
    (hdrop : coefficients.dropWhile (Scalar.eq · Scalar.zero) = [constant, slope])
    (hconstant : Exactly constant p) (hslope : Exactly slope q) :
    LinearOverflow coefficients ↔ overflowThreshold ≤ |p / q| := by
  constructor
  · intro hoverflow
    obtain ⟨_, _, p', q', hrest, hp', hq', hle⟩ := hoverflow.dropWhile
    obtain ⟨rfl, rfl⟩ : constant = _ ∧ slope = _ := by simpa [hdrop] using hrest
    rwa [hconstant.unique hp', hslope.unique hq']
  · intro hle
    have hp : p ≠ 0 := by
      have hhead := List.head_dropWhile_not (Scalar.eq · Scalar.zero) (l := coefficients)
        (by rw [hdrop]; simp)
      simp only [hdrop, List.head_cons] at hhead
      exact fun hzero => absurd (hconstant.eq_zero_iff.mpr hzero) (by rw [hhead]; decide)
    refine ⟨coefficients.takeWhile (Scalar.eq · Scalar.zero), constant, slope, p, q, ?_, ?_,
      hconstant, hp, hslope, hle⟩
    · rw [← hdrop, List.takeWhile_append_dropWhile]
    · intro c hc
      obtain ⟨r, hr⟩ := (isFinite_iff c).mp (hfinite c ((List.takeWhile_prefix _).subset hc))
      have hzero := List.mem_takeWhile_imp (p := (Scalar.eq · Scalar.zero)) hc
      exact hr.eq_zero_iff.mp hzero ▸ hr

/-- The root of a linear polynomial is finite below the threshold. -/
theorem isFinite_linear_iff {constant slope : Float} {p q : ℚ} (hconstant : Exactly constant p)
    (hslope : Exactly slope q) (hq : q ≠ 0) :
    (Cplx.ofReal (-constant / slope)).isFinite = true ↔ |p / q| < overflowThreshold := by
  have hroot := (hconstant.neg.nearest_div hslope hq).isFinite_iff
  rw [neg_div, abs_neg] at hroot
  have him : Scalar.isFinite (Scalar.zero : Float) = true := rfl
  rw [Cplx.isFinite, Cplx.ofReal, him, Bool.and_true]
  exact hroot

/-! ## All roots -/

/-- Behind the zeros the roots are finite but for a linear overflow. -/
theorem yields_findNonzero_iff {coefficients : Dense Float}
    (hfinite : ∀ c ∈ coefficients, c.isFinite = true)
    (hlead : ∀ c ∈ coefficients.getLast?, Scalar.eq c Scalar.zero = false) {iterations : ℕ}
    (hpos : 0 < iterations) :
    Yields (fun rest => (∀ z ∈ rest, z.isFinite = true) ↔ ¬LinearOverflow coefficients)
      (findNonzero (coefficients.dropWhile (Scalar.eq · Scalar.zero)) iterations) := by
  rcases hdrop : coefficients.dropWhile (Scalar.eq · Scalar.zero) with
    _ | ⟨constant, _ | ⟨slope, _ | ⟨c, cs⟩⟩⟩
  · exact .ok (iff_of_true (by simp) (not_linearOverflow (by simp [hdrop])))
  · exact .ok (iff_of_true (by simp) (not_linearOverflow (by simp [hdrop])))
  · obtain ⟨front, hfront⟩ := List.dropWhile_suffix (l := coefficients) (Scalar.eq · Scalar.zero)
    rw [hdrop] at hfront
    have hexactly : ∀ c ∈ [constant, slope], ∃ p, Exactly c p := fun c hc =>
      (isFinite_iff c).mp (hfinite c (hfront ▸ List.mem_append_right front hc))
    obtain ⟨p, hconstant⟩ := hexactly constant (by simp)
    obtain ⟨q, hslope⟩ := hexactly slope (by simp)
    have hne : Scalar.eq slope Scalar.zero = false := hlead slope (by rw [← hfront]; simp)
    have hq : q ≠ 0 := by
      intro hzero
      rw [hslope.eq_zero_iff.mpr hzero] at hne
      cases hne
    refine .ok ?_
    rw [List.forall_mem_singleton, isFinite_linear_iff hconstant hslope hq,
      linearOverflow_iff hfinite hdrop hconstant hslope, not_le]
  · refine (yields_findNonzero_finite (by simp) hpos).mono fun rest h => ?_
    exact iff_of_true h (not_linearOverflow (by simp [hdrop]))

/-- The roots that are found of a polynomial: as many as its degree, those
at zero exactly and first, and all of them finite but for a linear
overflow. -/
structure Found (coefficients : Dense Float) (roots : List (Cplx Float)) : Prop where
  length : roots.length + 1 = coefficients.length
  zeros : List.replicate (coefficients.takeWhile (Scalar.eq · Scalar.zero)).length Cplx.zero <+:
    roots
  finite : (∀ z ∈ roots, z.isFinite = true) ↔ ¬LinearOverflow coefficients

/-- **No root is infinite but that of a linear polynomial.**  If there is at
least one sweep, then all roots of a polynomial with finite coefficients are
found, the zeros among them exactly, or the polynomial is reported as
unsolvable.  What is found is finite exactly if the polynomial is not, up to
roots at zero, a linear one whose root is beyond all numbers. -/
theorem find_finite {coefficients : Dense Float} (hne : coefficients ≠ [])
    (hfinite : ∀ c ∈ coefficients, c.isFinite = true)
    (hlead : ∀ c ∈ coefficients.getLast?, Scalar.eq c Scalar.zero = false) {iterations : ℕ}
    (hpos : 0 < iterations) :
    (∃ fault, find coefficients iterations = .error (.unsolvable fault)) ∨
      ∃ roots, find coefficients iterations = .ok roots ∧ Found coefficients roots := by
  obtain ⟨lower, lead, rfl⟩ := (List.eq_nil_or_concat' coefficients).resolve_left hne
  have hyields := (yields_find_degree lower (hlead lead (by simp)) iterations).and
    (yields_find_rest (yields_findNonzero_iff hfinite hlead hpos))
  generalize find (lower ++ [lead]) iterations = found at hyields
  cases hyields with
  | unsolvable fault => exact Or.inl ⟨fault, rfl⟩
  | ok h =>
      obtain ⟨hlength, rest, rfl, hrest⟩ := h
      refine Or.inr ⟨_, rfl, by rw [hlength]; simp, List.prefix_append _ _, ?_⟩
      rw [List.forall_mem_append, ← hrest, and_iff_right]
      intro z hz
      rw [List.eq_of_mem_replicate hz]
      rfl

/-- The roots of `2x² + 2x³`, or its failure, are finite: nothing linear is
left behind the zeros that overflows. -/
theorem find_finite_cubic :
    let p : Dense Float := [0, 0, 2, 2]
    p ≠ [] ∧ (∀ c ∈ p, c.isFinite = true) ∧
      (∀ c ∈ p.getLast?, Scalar.eq c Scalar.zero = false) ∧ 0 < 100 ∧
      ((∃ fault, find p 100 = .error (.unsolvable fault)) ∨
        ∃ roots, find p 100 = .ok roots ∧ Found p roots) := by
  intro p
  have hne : p ≠ [] := List.cons_ne_nil _ _
  have hfinite : ∀ c ∈ p, c.isFinite = true := by decide
  have hlead : ∀ c ∈ p.getLast?, Scalar.eq c Scalar.zero = false := by decide
  exact ⟨hne, hfinite, hlead, by norm_num, find_finite hne hfinite hlead (by norm_num)⟩

/-- What a division yields is the whole root. -/
theorem find_linear {constant slope : Float} (hconstant : Scalar.eq constant Scalar.zero = false)
    (iterations : ℕ) :
    find [constant, slope] iterations = .ok [Cplx.ofReal (-constant / slope)] := by
  simp only [find, List.takeWhile_cons, List.dropWhile_cons, hconstant]
  rfl

/-- The root of `1e300 + 1e-300·x` is given as infinite. -/
theorem find_linear_overflow :
    let p : Dense Float := [Float.ofScientific 1 false 300, Float.ofScientific 1 true 300]
    (∀ c ∈ p, c.isFinite = true) ∧ (∀ c ∈ p.getLast?, Scalar.eq c Scalar.zero = false) ∧
      ∃ z, find p 100 = .ok [z] ∧ z.isFinite = false := by
  intro p
  have hfinite : ∀ c ∈ p, c.isFinite = true := by decide +kernel
  have hlead : ∀ c ∈ p.getLast?, Scalar.eq c Scalar.zero = false := by decide +kernel
  have hinfinite : Scalar.isFinite (-Float.ofScientific 1 false 300 /
      Float.ofScientific 1 true 300) = false := by decide +kernel
  have hzero : Scalar.eq (Float.ofScientific 1 false 300) Scalar.zero = false := by decide +kernel
  refine ⟨hfinite, hlead, _, find_linear hzero 100, ?_⟩
  rw [Cplx.isFinite, Bool.and_eq_false_iff]
  exact Or.inl hinfinite

end Roots

end Univariate
