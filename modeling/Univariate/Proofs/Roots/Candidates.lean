import Univariate.Proofs.Roots.Clustering
import Univariate.Roots.Solution

/-!
# As many candidates as the degree

The iteration moves a fixed list of points, so it ends with as many as it
began with; roots at zero are stripped first and put back.  Square-free
factors carry multiplicities from one upwards, and where their roots do
not add up to the degree all roots are taken as simple.  So the candidates
always count the degree, whatever the iteration makes of the points.

* `Yields` — a result of a kind, or the failure of an iteration;
* `Roots.length_sweep`, `Roots.iterate_holds` — a step and a run of the
  iteration;
* `Roots.yields_find` — all roots of a polynomial;
* `Multiplicity.yields_candidates` — the same with multiplicities.
-/

namespace Univariate

/-- The computation ends with a result of a kind, or fails because an
iteration does. -/
inductive Yields {β : Type} (Q : β → Prop) : Except Error β → Prop where
  | ok {b : β} (h : Q b) : Yields Q (.ok b)
  | unsolvable (fault : NumericFault) : Yields Q (.error (.unsolvable fault))

/-- One computation after another. -/
theorem Yields.bind {β γ : Type} {Q : β → Prop} {R : γ → Prop} {x : Except Error β}
    {f : β → Except Error γ} (h : Yields Q x) (hf : ∀ b, Q b → Yields R (f b)) :
    Yields R (x >>= f) := by
  cases h with
  | ok hb => exact hf _ hb
  | unsolvable fault => exact .unsolvable fault

/-- A result of one kind is one of a wider kind. -/
theorem Yields.mono {β : Type} {Q R : β → Prop} {x : Except Error β} (h : Yields Q x)
    (hQR : ∀ b, Q b → R b) : Yields R x := by
  cases h with
  | ok hb => exact .ok (hQR _ hb)
  | unsolvable fault => exact .unsolvable fault

variable {α : Type}

namespace Roots

variable [Analytic α]

/-! ## The iteration -/

/-- A sweep moves points, and keeps all of them. -/
theorem length_sweep (coefficients : Dense α) (moved : List (Cplx α)) (largest : α)
    (waiting : List (Cplx α)) :
    (sweep coefficients moved largest waiting).1.length = moved.length + waiting.length := by
  fun_induction sweep coefficients moved largest waiting with
  | case1 => rfl
  | case2 moved largest z waiting _ ih =>
      rw [ih, List.length_append, Nat.add_assoc, Nat.add_comm _ waiting.length]
      rfl
  | case3 moved largest z waiting _ _ _ _ ih =>
      rw [ih, List.length_append, Nat.add_assoc, Nat.add_comm _ waiting.length]
      rfl

/-- The sweeps end with so many points, or they diverge. -/
def Outcome.Holds (n : ℕ) : Outcome α → Prop
  | .converged roots | .stalled roots => roots.length = n
  | .diverged => True

/-- **The sweeps neither lose nor gain a point.** -/
theorem iterate_holds (coefficients : Dense α) (iterations : ℕ) (roots : List (Cplx α)) :
    (iterate coefficients iterations roots).Holds roots.length := by
  induction iterations generalizing roots with
  | zero => rfl
  | succ iterations ih =>
      have hlength : (sweep coefficients [] Scalar.zero roots).1.length = roots.length := by
        rw [length_sweep, List.length_nil, Nat.zero_add]
      rw [iterate]
      dsimp only
      split_ifs
      · trivial
      · exact hlength
      · exact hlength ▸ ih _

/-- There are as many points as roots. -/
theorem length_startPoints (coefficients : Dense α) :
    (startPoints coefficients).length = Dense.degree coefficients := by
  rw [startPoints, List.length_map, List.length_range]

/-- A polynomial with a first coefficient other than zero has as many
roots as its degree. -/
theorem yields_findNonzero (coefficients : Dense α) (iterations : ℕ) :
    Yields (·.length = Dense.degree coefficients) (findNonzero coefficients iterations) := by
  have hholds := iterate_holds coefficients iterations (startPoints coefficients)
  rw [length_startPoints] at hholds
  unfold findNonzero
  split
  · exact .ok rfl
  · exact .ok rfl
  · exact .ok rfl
  · split <;> rename_i h <;> rw [h] at hholds
    · exact .unsolvable _
    · exact .ok hholds
    · dsimp only
      split_ifs
      · exact .unsolvable _
      · exact .ok hholds

/-- The roots at zero and the others. -/
theorem yields_find (coefficients : Dense α) (iterations : ℕ) :
    Yields (·.length = (coefficients.takeWhile (Scalar.eq · Scalar.zero)).length +
        Dense.degree (coefficients.dropWhile (Scalar.eq · Scalar.zero)))
      (find coefficients iterations) := by
  refine (yields_findNonzero _ iterations).bind fun roots hroots => .ok ?_
  rw [List.length_append, List.length_map, hroots]

/-- **As many roots as the degree**, if the leading coefficient is not
zero. -/
theorem yields_find_degree (lower : List α) {lead : α}
    (hlead : Scalar.eq lead Scalar.zero = false) (iterations : ℕ) :
    Yields (·.length = lower.length) (find (lower ++ [lead]) iterations) := by
  refine (yields_find _ iterations).mono fun roots hroots => ?_
  have hlength : ∀ isZero : α → Bool, ((lower ++ [lead]).takeWhile isZero).length +
      ((lower ++ [lead]).dropWhile isZero).length = lower.length + 1 := by
    intro isZero
    rw [← List.length_append, List.takeWhile_append_dropWhile, List.length_append,
      List.length_singleton]
  have hrest : (lower ++ [lead]).dropWhile (Scalar.eq · Scalar.zero) ≠ [] := by
    intro hnil
    have hall := List.dropWhile_eq_nil_iff.mp hnil lead (by simp)
    rw [hlead] at hall
    cases hall
  have hpos := List.length_pos_iff.mpr hrest
  have := hlength (Scalar.eq · Scalar.zero)
  rw [Dense.degree] at hroots
  omega

end Roots

/-! ## Multiplicities -/

namespace Squarefree

variable [Scalar α]

/-- Multiplicities only go up from pass to pass. -/
theorem le_multiplicity_of_mem_passes {more multiplicity : ℕ} {a b : Dense α} {f : Factor α}
    (hf : f ∈ passes more multiplicity a b) : multiplicity ≤ f.multiplicity := by
  induction more generalizing multiplicity a b with
  | zero => simp [passes] at hf
  | succ more ih =>
      rw [passes] at hf
      dsimp only at hf
      have hhere : ∀ d : Dense α,
          f ∈ (if 0 < Dense.degree d then [⟨d, multiplicity⟩] else [] : List (Factor α)) →
            multiplicity ≤ f.multiplicity := by
        intro d hd
        split_ifs at hd
        · exact (List.mem_singleton.mp hd) ▸ le_rfl
        · cases hd
      split at hf
      · exact hhere _ hf
      · split at hf
        · exact hhere _ hf
        · rcases List.mem_append.mp hf with hf | hf
          · exact hhere _ hf
          · exact (Nat.le_succ _).trans (ih hf)

/-- Factors are counted from multiplicity one. -/
theorem one_le_multiplicity {coefficients : Dense α} {f : Factor α}
    (hf : f ∈ decompose coefficients) : 1 ≤ f.multiplicity := by
  unfold decompose at hf
  dsimp only at hf
  split_ifs at hf
  · obtain rfl := List.mem_singleton.mp hf
    exact le_rfl
  · exact le_multiplicity_of_mem_passes hf

end Squarefree

namespace Multiplicity

variable [Analytic α]

/-- Every root that is found by way of factors counts at least once. -/
theorem yields_factorRoots (iterations : ℕ) {factors : List (Squarefree.Factor α)}
    (hpos : ∀ f ∈ factors, 1 ≤ f.multiplicity) :
    Yields (fun roots => ∀ r ∈ roots, 1 ≤ r.multiplicity) (factorRoots iterations factors) := by
  induction factors with
  | nil => exact .ok (by simp)
  | cons f factors ih =>
      have hf := hpos f List.mem_cons_self
      have hfactors := ih fun g hg => hpos g (List.mem_cons_of_mem f hg)
      refine (Roots.yields_find f.polynomial iterations).bind fun here _ =>
        hfactors.bind fun others hothers => .ok fun r hr => ?_
      rcases List.mem_append.mp hr with hr | hr
      · obtain ⟨z, -, rfl⟩ := List.mem_map.mp hr
        exact hf
      · exact hothers r hr

/-- What a root is split into counts once. -/
theorem multiplicity_of_mem_split {repeated : List (Root α)} {free : List (Cplx α)}
    {r : Root α} (hr : r ∈ split repeated free) : r.multiplicity = 1 := by
  induction repeated generalizing free with
  | nil => cases hr
  | cons s repeated ih =>
      rw [split] at hr
      rcases List.mem_append.mp hr with hr | hr
      · obtain ⟨z, -, rfl⟩ := List.mem_map.mp hr
        rfl
      · exact ih hr

/-- Every candidate counts at least once. -/
theorem yields_byFactors (coefficients : Dense α) (ε : α) (iterations : ℕ) :
    Yields (fun roots => ∀ r ∈ roots, 1 ≤ r.multiplicity)
      (byFactors coefficients ε iterations) := by
  have hpos : ∀ f ∈ Squarefree.decompose coefficients, 1 ≤ f.multiplicity :=
    fun _ hf => Squarefree.one_le_multiplicity hf
  unfold byFactors
  dsimp only
  split_ifs
  · exact .ok (by simp)
  · refine (yields_factorRoots iterations hpos).bind fun found hfound => ?_
    have hconfirmed : ∀ r ∈ (found.partition (isUnconfirmed coefficients ε)).2,
        1 ≤ r.multiplicity := by
      intro r hr
      rw [List.partition_eq_filter_filter] at hr
      exact hfound r (List.mem_of_mem_filter hr)
    split_ifs
    · exact .ok hconfirmed
    · refine (Roots.yields_find coefficients iterations).bind fun free _ => .ok fun r hr => ?_
      rcases List.mem_append.mp hr with hr | hr
      · exact hconfirmed r hr
      · exact (multiplicity_of_mem_split hr).ge

/-- **The candidates count the degree**, whichever way they come from. -/
theorem yields_candidates (lower : List α) {lead : α}
    (hlead : Scalar.eq lead Scalar.zero = false) (ε : α) (iterations : ℕ) :
    Yields (Counts lower.length) (candidates (lower ++ [lead]) ε iterations) := by
  have hdegree : Dense.degree (lower ++ [lead]) = lower.length := by simp [Dense.degree]
  have hdirect : Yields (Counts lower.length)
      (do return (← Roots.find (lower ++ [lead]) iterations).map (⟨·, 1⟩)) :=
    (Roots.yields_find_degree lower hlead iterations).bind fun roots hroots =>
      .ok (hroots ▸ Counts.simple roots)
  have hbyFactors := yields_byFactors (lower ++ [lead]) ε iterations
  unfold candidates
  dsimp only
  split
  · exact hdirect
  · next found hfound =>
    rw [hfound] at hbyFactors
    obtain ⟨hpos⟩ := hbyFactors
    split_ifs with hsum
    · exact .ok ⟨hsum.trans hdegree, hpos⟩
    · exact hdirect

end Multiplicity

end Univariate
