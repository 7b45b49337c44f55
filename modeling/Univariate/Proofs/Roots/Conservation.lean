import Univariate.Proofs.Roots.ClosePair
import Univariate.Proofs.Roots.Pairing
import Univariate.Proofs.Roots.Reconstruction

/-!
# Splitting keeps the count

Every square-free factor has as many roots as its degree, so if the degrees
of the factors, times their multiplicities, add up to the degree of the
polynomial, then the roots of all factors count that degree.  A repeated
root that is not confirmed is replaced by the nearest of the roots that the
iteration finds for the polynomial itself.  There are as many of these as
the degree, and the unconfirmed roots count no more than that.  So each of
them gets as many as it counts, none of which is used twice, and the count
stays what it was.

* `Multiplicity.StandIn` — simple roots that stand in for repeated ones;
* `Roots.length_of_find`, `Multiplicity.sum_of_factorRoots` — how many roots
  there are;
* `Multiplicity.exists_takeNearest_map`, `Multiplicity.exists_split_map` —
  what one replacement takes out of the pool, and what all of them do;
* `Multiplicity.exists_standIn` — the pool does not run out;
* `Multiplicity.Resolved`, `Multiplicity.resolved_of_byFactors` — the two
  ways to a result, and the sum of its multiplicities;
* `Multiplicity.byFactors_counts` — the way by factors as a whole.
-/

namespace Univariate

variable {α : Type}

namespace Multiplicity

/-! ## Roots that stand in -/

/-- Simple roots stand in for repeated ones: each of those is replaced by as
many of the direct roots as it counts, and no direct root is used twice. -/
structure StandIn (repeated : List (Root α)) (direct : List (Cplx α))
    (places : List (List (Fin direct.length))) (simple : List (Root α)) : Prop where
  counts : List.Forall₂ (fun r js => js.length = r.multiplicity) repeated places
  distinct : places.flatten.Nodup
  simple_eq : simple = places.flatten.map fun j => ⟨direct[j], 1⟩

section Count

variable {repeated simple : List (Root α)} {direct : List (Cplx α)}
  {places : List (List (Fin direct.length))}

/-- As many places as the repeated roots count. -/
theorem StandIn.length_eq (h : StandIn repeated direct places simple) :
    places.flatten.length = (repeated.map Root.multiplicity).sum := by
  obtain ⟨hcounts, -, -⟩ := h
  rw [List.length_flatten]
  congr 1
  induction hcounts with
  | nil => rfl
  | cons hlength _ ih => rw [List.map_cons, hlength, ih, List.map_cons]

/-- Those that stand in count what the repeated ones did. -/
theorem StandIn.sum_eq (h : StandIn repeated direct places simple) :
    (simple.map Root.multiplicity).sum = (repeated.map Root.multiplicity).sum := by
  have hone : (Root.multiplicity ∘ fun j : Fin direct.length => ⟨direct[j], 1⟩) = fun _ => 1 := rfl
  rw [h.simple_eq, List.map_map, hone, List.map_const', List.sum_replicate, smul_eq_mul, mul_one,
    h.length_eq]

end Count

end Multiplicity

/-! ## As many roots as the degrees of the factors -/

/-- There is a last coefficient, and it is not zero. -/
def Dense.EndsNonzero [Scalar α] (p : Dense α) : Prop :=
  ∃ c ∈ p.getLast?, Scalar.eq c Scalar.zero = false

variable {iterations : ℕ} {e : Error}

/-- The iteration finds as many roots as the degree. -/
theorem Roots.length_of_find [Analytic α] {p : Dense α} (hp : p.EndsNonzero)
    {roots : List (Cplx α)} (h : find p iterations = .ok roots) :
    roots.length = Dense.degree p := by
  obtain ⟨lead, hlast, hlead⟩ := hp
  obtain ⟨lower, rfl⟩ := List.getLast?_eq_some_iff.mp hlast
  have hyields := yields_find_degree lower hlead iterations
  rw [h] at hyields
  cases hyields with
  | ok hlength => rw [hlength, Dense.degree_concat]

namespace Multiplicity

/-- So many roots, each counted as often. -/
theorem sum_repeated (values : List (Cplx α)) (m : ℕ) :
    ((values.map (⟨·, m⟩ : Cplx α → Root α)).map Root.multiplicity).sum = m * values.length := by
  rw [List.map_map]
  simp [Function.comp_def, Nat.mul_comm]

variable [Analytic α] {factors : List (Squarefree.Factor α)} {found : List (Root α)}

/-- **The roots of the factors** count their degrees, each times the
factor's multiplicity. -/
theorem sum_of_factorRoots (hfactors : ∀ f ∈ factors, f.polynomial.EndsNonzero)
    (h : factorRoots iterations factors = .ok found) :
    (found.map Root.multiplicity).sum = Squarefree.totalDegree factors := by
  induction factors generalizing found with
  | nil =>
      obtain rfl := Except.ok.inj h
      rfl
  | cons f factors ih =>
      obtain ⟨hf, hfactors⟩ := List.forall_mem_cons.mp hfactors
      obtain ⟨here, hhere, h⟩ := bind_eq_ok h
      obtain ⟨others, hothers, h⟩ := bind_eq_ok h
      obtain rfl := Except.ok.inj h
      rw [List.map_append, List.sum_append, sum_repeated, Roots.length_of_find hf hhere,
        ih hfactors hothers]
      rfl

/-- The roots of the factors fail to be found only if those of one factor
do. -/
theorem exists_of_factorRoots_error (h : factorRoots iterations factors = .error e) :
    ∃ f ∈ factors, Roots.find f.polynomial iterations = .error e := by
  induction factors with
  | nil => cases h
  | cons f factors ih =>
      rcases bind_eq_error h with h | ⟨here, -, h⟩
      · exact ⟨f, List.mem_cons_self, h⟩
      · rcases bind_eq_error h with h | ⟨others, -, h⟩
        · obtain ⟨g, hg, hfind⟩ := ih h
          exact ⟨g, List.mem_cons_of_mem f hg, hfind⟩
        · cases h

/-! ## What the pool has to give -/

/-- **Taking the nearest** of the entries at some places: so many places are
taken as there should be, if there are enough, and the others are left. -/
theorem exists_takeNearest_map {ι : Type} (entry : ι → Cplx α) (z : Cplx α) (m : ℕ)
    {places : List ι} (h : m ≤ places.length) :
    ∃ taken left : List ι,
      takeNearest z m (places.map entry) = (taken.map entry, left.map entry) ∧
      taken.length = m ∧ (taken ++ left).Perm places := by
  induction m generalizing places with
  | zero => exact ⟨[], places, rfl, rfl, .refl _⟩
  | succ m ih =>
      rw [takeNearest]
      cases hnearest : Cluster.firstMin? (fun d : Cplx α × ℕ => (d.1 - z).norm)
          (places.map entry).zipIdx with
      | none =>
          have hnil := Cluster.firstMin?_eq_none hnearest
          rw [List.zipIdx_eq_nil_iff, List.map_eq_nil_iff] at hnil
          rw [hnil] at h
          cases h
      | some nearest =>
          obtain ⟨w, i⟩ := nearest
          have hw := List.mk_mem_zipIdx_iff_getElem?.mp (Cluster.mem_of_firstMin? hnearest)
          rw [List.getElem?_map, Option.map_eq_some_iff] at hw
          obtain ⟨j, hj, rfl⟩ := hw
          obtain ⟨hi, rfl⟩ := List.getElem?_eq_some_iff.mp hj
          have hleft : m ≤ (places.eraseIdx i).length := by
            rw [List.length_eraseIdx_of_lt hi]
            omega
          obtain ⟨taken, left, hrest, hlength, hperm⟩ := ih hleft
          refine ⟨places[i] :: taken, left, ?_, congrArg (· + 1) hlength, ?_⟩
          · dsimp only
            rw [List.eraseIdx_map, hrest]
            rfl
          · exact (hperm.cons _).trans (List.getElem_cons_eraseIdx_perm hi)

/-- The roots stand for groups of places, as many each as the root counts. -/
theorem exists_split_map {ι : Type} (entry : ι → Cplx α) {repeated : List (Root α)}
    {places : List ι} (h : (repeated.map Root.multiplicity).sum ≤ places.length) :
    ∃ groups : List (List ι),
      split repeated (places.map entry) = groups.flatten.map (fun j => ⟨entry j, 1⟩) ∧
      List.Forall₂ (fun r js => js.length = r.multiplicity) repeated groups ∧
      groups.flatten.Subperm places := by
  induction repeated generalizing places with
  | nil => exact ⟨[], rfl, .nil, List.nil_subperm⟩
  | cons r repeated ih =>
      rw [List.map_cons, List.sum_cons] at h
      have henough : r.multiplicity ≤ places.length := (Nat.le_add_right _ _).trans h
      obtain ⟨taken, left, htaken, hlength, hperm⟩ :=
        exists_takeNearest_map entry r.value r.multiplicity henough
      have hleft : (repeated.map Root.multiplicity).sum ≤ left.length := by
        have hsum := hperm.length_eq
        rw [List.length_append] at hsum
        omega
      obtain ⟨groups, hsplit, hcounts, hsubperm⟩ := ih hleft
      refine ⟨taken :: groups, ?_, .cons hlength hcounts, ?_⟩
      · rw [split, htaken]
        dsimp only
        rw [hsplit, List.flatten_cons, List.map_append, List.map_map]
        rfl
      · rw [List.flatten_cons]
        exact ((List.subperm_append_left taken).mpr hsubperm).trans hperm.subperm

/-- **The pool does not run out** if there are as many direct roots as the
repeated ones count. -/
theorem exists_standIn {repeated : List (Root α)} {direct : List (Cplx α)}
    (h : (repeated.map Root.multiplicity).sum ≤ direct.length) :
    ∃ places, StandIn repeated direct places (split repeated direct) := by
  have hall : (List.finRange direct.length).map (direct[·]) = direct :=
    List.map_getElem_finRange direct
  have henough : (repeated.map Root.multiplicity).sum ≤ (List.finRange direct.length).length := by
    rwa [List.length_finRange]
  obtain ⟨places, hsplit, hcounts, ordered, hperm, hsublist⟩ :=
    exists_split_map (fun j : Fin direct.length => direct[j]) henough
  rw [hall] at hsplit
  exact ⟨places, hcounts, hperm.nodup_iff.mp (hsublist.nodup (List.nodup_finRange _)), hsplit⟩

/-! ## The way by factors -/

variable {coefficients : Dense α} {ε : α} {result : List (Root α)}

/-- The roots of the factors that have to be replaced. -/
def unconfirmed (coefficients : Dense α) (ε : α) (found : List (Root α)) : List (Root α) :=
  found.filter (isUnconfirmed coefficients ε)

/-- The roots of the factors that stay as they are. -/
def confirmed (coefficients : Dense α) (ε : α) (found : List (Root α)) : List (Root α) :=
  found.filter fun r => !isUnconfirmed coefficients ε r

/-- Every root is confirmed or is not. -/
theorem sum_unconfirmed_add_confirmed (coefficients : Dense α) (ε : α) (found : List (Root α)) :
    ((unconfirmed coefficients ε found).map Root.multiplicity).sum +
        ((confirmed coefficients ε found).map Root.multiplicity).sum =
      (found.map Root.multiplicity).sum := by
  rw [← List.sum_append, ← List.map_append]
  exact ((List.filter_append_perm _ found).map _).sum_eq

/-- **The two ways to a result**: all roots of the factors are confirmed, or
direct roots stand in for those that are not. -/
inductive Resolved (coefficients : Dense α) (ε : α) (iterations : ℕ) (found : List (Root α)) :
    List (Root α) → Prop
  | confirmed (hnone : unconfirmed coefficients ε found = []) :
      Resolved coefficients ε iterations found found
  | split {direct : List (Cplx α)} {places : List (List (Fin direct.length))}
      {simple : List (Root α)} (hsome : unconfirmed coefficients ε found ≠ [])
      (hdirect : Roots.find coefficients iterations = .ok direct)
      (hstandIn : StandIn (unconfirmed coefficients ε found) direct places simple) :
      Resolved coefficients ε iterations found (confirmed coefficients ε found ++ simple)

/-- Neither way changes what the roots count. -/
theorem Resolved.sum_eq (h : Resolved coefficients ε iterations found result) :
    (result.map Root.multiplicity).sum = (found.map Root.multiplicity).sum := by
  cases h with
  | confirmed hnone => rfl
  | split hsome hdirect hstandIn =>
      rw [List.map_append, List.sum_append, hstandIn.sum_eq, Nat.add_comm,
        sum_unconfirmed_add_confirmed]

/-- The way by factors whose degrees add up. -/
theorem byFactors_of_totalDegree
    (htotal : Squarefree.totalDegree (Squarefree.decompose coefficients) =
      Dense.degree coefficients) (ε : α) (iterations : ℕ) :
    byFactors coefficients ε iterations = (do
      let found ← factorRoots iterations (Squarefree.decompose coefficients)
      if (unconfirmed coefficients ε found).isEmpty then return confirmed coefficients ε found
      return confirmed coefficients ε found ++
        split (unconfirmed coefficients ε found) (← Roots.find coefficients iterations)) := by
  rw [byFactors]
  dsimp only
  rw [if_neg (not_not.mpr htotal)]
  simp only [List.partition_eq_filter_filter]
  rfl

/-- **Where the way by factors comes to a result**, it is one of the two. -/
theorem resolved_of_byFactors (hlast : coefficients.EndsNonzero)
    (hfactors : ∀ f ∈ Squarefree.decompose coefficients, f.polynomial.EndsNonzero)
    (htotal : Squarefree.totalDegree (Squarefree.decompose coefficients) =
      Dense.degree coefficients) (h : byFactors coefficients ε iterations = .ok result) :
    ∃ found, factorRoots iterations (Squarefree.decompose coefficients) = .ok found ∧
      (found.map Root.multiplicity).sum = Dense.degree coefficients ∧
      Resolved coefficients ε iterations found result := by
  rw [byFactors_of_totalDegree htotal] at h
  obtain ⟨found, hfound, h⟩ := bind_eq_ok h
  have hsum := (sum_of_factorRoots hfactors hfound).trans htotal
  refine ⟨found, hfound, hsum, ?_⟩
  have hparts := sum_unconfirmed_add_confirmed coefficients ε found
  by_cases hnone : unconfirmed coefficients ε found = []
  · rw [hnone, List.isEmpty_nil, if_pos rfl] at h
    have hall : confirmed coefficients ε found = found := by
      refine List.filter_eq_self.mpr fun r hr => ?_
      simpa using List.filter_eq_nil_iff.mp hnone r hr
    rw [hall] at h
    obtain rfl := Except.ok.inj h
    exact .confirmed hnone
  · rw [if_neg (by rwa [List.isEmpty_iff])] at h
    obtain ⟨direct, hdirect, h⟩ := bind_eq_ok h
    obtain rfl := Except.ok.inj h
    -- The pool has as many roots as all of those found count.
    have hpool : ((unconfirmed coefficients ε found).map Root.multiplicity).sum ≤
        direct.length := by
      rw [Roots.length_of_find hlast hdirect]
      omega
    obtain ⟨places, hstandIn⟩ := exists_standIn hpool
    exact .split hnone hdirect hstandIn

/-- Where it fails, an iteration does. -/
theorem find_error_of_byFactors
    (htotal : Squarefree.totalDegree (Squarefree.decompose coefficients) =
      Dense.degree coefficients) (h : byFactors coefficients ε iterations = .error e) :
    (∃ f ∈ Squarefree.decompose coefficients, Roots.find f.polynomial iterations = .error e) ∨
      Roots.find coefficients iterations = .error e := by
  rw [byFactors_of_totalDegree htotal] at h
  rcases bind_eq_error h with h | ⟨found, -, h⟩
  · exact Or.inl (exists_of_factorRoots_error h)
  · split_ifs at h
    · cases h
    · rcases bind_eq_error h with h | ⟨direct, -, h⟩
      · exact Or.inr h
      · cases h

/-- A result that counts the degree is the one that is used. -/
theorem candidates_of_byFactors (h : byFactors coefficients ε iterations = .ok result)
    (hsum : (result.map Root.multiplicity).sum = Dense.degree coefficients) :
    candidates coefficients ε iterations = .ok result := by
  rw [candidates, h]
  exact if_pos hsum

/-- **Splitting keeps the count.**  If the factors of a polynomial end with
coefficients other than zero, as it does itself, and their degrees add up,
then the way by factors fails only by the failure of an iteration, on one of
the factors or on the polynomial.  Otherwise its result counts the degree:
the roots of the factors, or those of them that are confirmed and, for each
other one, as many simple roots of the polynomial as it counted, all of them
different ones.  That result is the one that is used, and a solution is made
of its clusters. -/
theorem byFactors_counts (hlast : coefficients.EndsNonzero)
    (hfactors : ∀ f ∈ Squarefree.decompose coefficients, f.polynomial.EndsNonzero)
    (htotal : Squarefree.totalDegree (Squarefree.decompose coefficients) =
      Dense.degree coefficients) (ε : α) (iterations : ℕ) :
    (∃ e, byFactors coefficients ε iterations = .error e ∧
        ((∃ f ∈ Squarefree.decompose coefficients,
            Roots.find f.polynomial iterations = .error e) ∨
          Roots.find coefficients iterations = .error e)) ∨
      ∃ found result, factorRoots iterations (Squarefree.decompose coefficients) = .ok found ∧
        byFactors coefficients ε iterations = .ok result ∧
        Resolved coefficients ε iterations found result ∧
        (result.map Root.multiplicity).sum = Dense.degree coefficients ∧
        candidates coefficients ε iterations = .ok result ∧
        ∀ (p : NormalForm α) (settings : SolverSettings α) (n : ℕ), p.degree? = some (n + 1) →
          p.coefficients = coefficients → settings.maxIterations = iterations →
          Solution.mergeDistance settings coefficients = ε →
          Solution.ofNormalForm p settings = .ok (.roots (Cluster.cluster ε result)
            ⟨p.leading, Cluster.cluster ε result⟩) := by
  cases h : byFactors coefficients ε iterations with
  | error e => exact Or.inl ⟨e, rfl, find_error_of_byFactors htotal h⟩
  | ok result =>
      obtain ⟨found, hfound, hsum, hresolved⟩ := resolved_of_byFactors hlast hfactors htotal h
      have hresult := hresolved.sum_eq.trans hsum
      have hcandidates := candidates_of_byFactors h hresult
      refine Or.inr ⟨found, result, hfound, rfl, hresolved, hresult, hcandidates, ?_⟩
      rintro p settings n hdegree rfl rfl rfl
      exact Solution.ofNormalForm_of_candidates hdegree hcandidates

section ClosePair

open scoped Exact

/-- The roots `0` and `2h` of `x² - 2hx` with `h = 1e-5` are close enough for
one double factor and too far apart for one root, so both of them stand in. -/
theorem byFactors_counts_closePair :
    let h : ℝ := 1 / 10 ^ 5
    let p : NormalForm ℝ := ⟨[(2, 1), (1, -(2 * h))]⟩
    let settings : SolverSettings ℝ := ⟨1 / 10 ^ 9, 0⟩
    let coefficients := Squarefree.closePair h
    let ε := Solution.mergeDistance settings coefficients
    p.coefficients = coefficients ∧ coefficients.EndsNonzero ∧
      (∀ f ∈ Squarefree.decompose coefficients, f.polynomial.EndsNonzero) ∧
      Squarefree.totalDegree (Squarefree.decompose coefficients) = Dense.degree coefficients ∧
      ∃ result, byFactors coefficients ε 0 = .ok result ∧
        result.Perm [⟨Cplx.zero, 1⟩, ⟨Cplx.ofReal (2 * h), 1⟩] ∧
        Solution.ofNormalForm p settings = .ok (.roots (Cluster.cluster ε result)
          ⟨1, Cluster.cluster ε result⟩) := by
  intro h p settings coefficients ε
  have hpos : 0 < h := by positivity
  have hp : p.coefficients = coefficients := by
    simp [p, coefficients, NormalForm.coefficients, NormalForm.fillGaps, Squarefree.closePair,
      two_mul]
  have hε : ε < h := by
    norm_num [ε, coefficients, settings, h, Solution.mergeDistance, Solution.cauchyBound,
      Squarefree.closePair]
  have hdecompose : Squarefree.decompose coefficients = [⟨[-h, 1], 2⟩] :=
    Squarefree.decompose_closePair (by norm_num [h])
  have hlast : coefficients.EndsNonzero := ⟨1, rfl, by simp⟩
  have hfactors : ∀ f ∈ Squarefree.decompose coefficients, f.polynomial.EndsNonzero := by
    rw [hdecompose, List.forall_mem_singleton]
    exact ⟨1, rfl, by simp⟩
  have htotal : Squarefree.totalDegree (Squarefree.decompose coefficients) =
      Dense.degree coefficients := by
    rw [hdecompose]
    rfl
  have hmean := Roots.find_closePair_factor hpos.ne' 0
  have hdirect : Roots.find coefficients 0 = .ok [Cplx.zero, Cplx.ofReal (2 * h)] :=
    Roots.find_closePair hpos.ne' 0
  have hroots : factorRoots 0 (Squarefree.decompose coefficients) = .ok [⟨Cplx.ofReal h, 2⟩] := by
    rw [hdecompose, factorRoots, hmean]
    rfl
  refine ⟨hp, hlast, hfactors, htotal, ?_⟩
  obtain ⟨e, -, ⟨f, hf, herror⟩ | herror⟩ |
      ⟨found, result, hfound, hresult, hresolved, -, -, hsolution⟩ :=
    byFactors_counts hlast hfactors htotal ε 0
  · rw [hdecompose, List.mem_singleton] at hf
    rw [hf, hmean] at herror
    cases herror
  · rw [hdirect] at herror
    cases herror
  · rw [hroots] at hfound
    obtain rfl := Except.ok.inj hfound
    have hdouble := isUnconfirmed_closePair hpos hε
    have hunconfirmed : unconfirmed coefficients ε [⟨Cplx.ofReal h, 2⟩] = [⟨Cplx.ofReal h, 2⟩] :=
      List.filter_eq_self.mpr (by simpa using hdouble)
    have hconfirmed : confirmed coefficients ε [⟨Cplx.ofReal h, 2⟩] = [] :=
      List.filter_eq_nil_iff.mpr (by simpa using hdouble)
    refine ⟨result, hresult, ?_, hsolution p settings 1 rfl hp rfl rfl⟩
    cases hresolved with
    | confirmed hnone => simp [hunconfirmed] at hnone
    | split _ hfind hstandIn =>
        rw [hdirect] at hfind
        obtain rfl := Except.ok.inj hfind
        rw [hunconfirmed] at hstandIn
        -- Two different places of a pool of two are all of them.
        have hplaces := (hstandIn.distinct.subperm
          fun j _ => List.mem_finRange j).perm_of_length_le hstandIn.length_eq.ge
        rw [hconfirmed, List.nil_append, hstandIn.simple_eq]
        exact hplaces.map _

end ClosePair

end Multiplicity

end Univariate
