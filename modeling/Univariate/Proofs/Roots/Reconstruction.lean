import Univariate.Proofs.Roots.Integers
import Univariate.Proofs.Roots.Recovery

/-!
# Solving polynomials with integer roots

A polynomial with integer roots whose coefficients are numbers is solved by
clustering what the iteration has found.  The tolerance for that grows with
the coefficients, so that it can reach the distance of two roots; below it
the roots come out as they should, and their factors multiplied out are the
polynomial again, as far as rounding and cancellation permit.

* `Accurate` — how accurate roots have to be for that;
* `approxEq_toNormalForm` — the factors multiplied out;
* `Solution.ofNormalForm_integer_roots` — the solution.
-/

namespace Univariate

open Binary64 Polynomial

variable {δ e : ℚ} {ε : Float} {lead : ℤ} {rs : List ℤ} {roots found : List (Root Float)}

/-! ## The factors in order -/

/-- Every integer as often as it occurs, in ascending order. -/
theorem flatMap_count_eq (rs : List ℤ) :
    ((rs.toFinset.sort (· ≤ ·)).flatMap fun r => List.replicate (rs.count r) r) =
      rs.insertionSort (· ≤ ·) := by
  have hsort := Finset.pairwise_sort rs.toFinset (· ≤ ·)
  have hnodup := Finset.sort_nodup rs.toFinset (· ≤ ·)
  have hperm : ((rs.toFinset.sort (· ≤ ·)).flatMap fun r => List.replicate (rs.count r) r).Perm
      (rs.insertionSort (· ≤ ·)) := by
    refine List.Perm.trans (List.perm_iff_count.mpr fun a => ?_)
      (List.perm_insertionSort (· ≤ ·) rs).symm
    rw [List.count_flatMap, ← List.sum_toFinset _ hnodup, Finset.sort_toFinset]
    simp only [Function.comp_apply, List.count_replicate, beq_iff_eq]
    rw [Finset.sum_ite_eq', ite_eq_left_iff]
    exact fun hnone => (List.count_eq_zero.mpr (mt List.mem_toFinset.mpr hnone)).symm
  refine hperm.eq_of_pairwise (fun a b _ _ => le_antisymm) ?_ (List.pairwise_insertionSort _ _)
  rw [List.pairwise_flatMap]
  refine ⟨fun r _ => List.pairwise_replicate.mpr (Or.inr le_rfl), hsort.imp ?_⟩
  intro r s hrs a ha b hb
  rw [List.eq_of_mem_replicate ha, List.eq_of_mem_replicate hb]
  exact hrs

theorem forall₂_replicate {α β : Type} {R : α → β → Prop} {a : α} {b : β} (h : R a b) (n : ℕ) :
    List.Forall₂ R (List.replicate n a) (List.replicate n b) := by
  induction n with
  | zero => exact .nil
  | succ n ih => exact .cons h ih

/-- The roots with repetition are near the integers in order. -/
theorem Recovers.forall₂_repeated (h : Recovers δ roots rs)
    (haxis : ∀ c ∈ roots, c.value.im = Scalar.zero) :
    List.Forall₂ (fun z r => Near δ z r ∧ Exactly z.im 0)
      (roots.flatMap fun c => List.replicate c.multiplicity c.value)
      (rs.insertionSort (· ≤ ·)) := by
  rw [← flatMap_count_eq]
  have hdistinct := h.distinct
  clear h
  generalize rs.toFinset.sort (· ≤ ·) = ks at hdistinct
  induction hdistinct with
  | nil => exact .nil
  | @cons c r roots ks hcr _ ih =>
      obtain ⟨hc, haxis⟩ := List.forall_mem_cons.mp haxis
      obtain ⟨hnear, hcount⟩ := hcr
      rw [List.flatMap_cons, List.flatMap_cons, hcount]
      refine List.rel_append (forall₂_replicate ⟨hnear, ?_⟩ _) (ih haxis)
      rw [hc]
      exact exactly_scalar_zero

/-! ## The factors multiplied out -/

/-- Roots this accurate give the polynomial back: either they are exact,
and so is all arithmetic, with the roots in ascending order; or the errors
of as many roundings, relative to the magnitudes that go into a
coefficient, are below a millionth of the coefficient or of one. -/
def Accurate (δ : ℚ) (lead : ℤ) (rs : List ℤ) : Prop :=
  (δ = 0 ∧ StaysExact (C lead) (rs.insertionSort (· ≤ ·))) ∨
    (2 ^ (-52 : ℤ) ≤ δ ∧ ∀ i, ((unsigned lead rs).coeff i : ℚ) * ((1 + δ) ^ (3 * rs.length) - 1) ≤
      (1 / 10 ^ 6 - 1 / 10 ^ 15) * max |((withRoots lead rs).coeff i : ℚ)| 1)

/-- The error of a root is not negative. -/
theorem Accurate.nonneg (h : Accurate δ lead rs) : 0 ≤ δ := by
  rcases h with ⟨rfl, -⟩ | ⟨hδ, -⟩
  · exact le_rfl
  · exact le_trans (by positivity) hδ

/-- Accurate roots do not make arithmetic overflow. -/
theorem Accurate.factorsFit (h : Accurate δ lead rs) (hrs : rs ≠ [])
    (hf : Numeric (withRoots lead rs)) :
    FactorsFit δ 0 (C lead) (C |lead|) (rs.insertionSort (· ≤ ·)) := by
  have hδ0 := h.nonneg
  rcases h with ⟨rfl, hexact⟩ | ⟨hδ, hclose⟩
  · exact hexact.factorsFit 0 _
  · have hperm := List.perm_insertionSort (· ≤ ·) rs
    have hnonneg (i : ℕ) : 0 ≤ (C |lead|).coeff i := by
      rw [coeff_C]
      split_ifs <;> simp
    refine factorsFit_of_lt hδ hnonneg fun i => ?_
    rw [← unsigned, unsigned_perm hperm, hperm.length_eq, zero_add]
    have hclose := hclose i
    set g : ℚ := ((unsigned lead rs).coeff i : ℚ)
    set W := (1 + δ) ^ (3 * rs.length)
    have hcoeff : |((withRoots lead rs).coeff i : ℚ)| ≤ 2 ^ 53 := by exact_mod_cast (hf i).le
    have hmax : max |((withRoots lead rs).coeff i : ℚ)| 1 ≤ 2 ^ 53 := max_le hcoeff (by norm_num)
    have hlength : 1 ≤ 3 * rs.length := by
      have := List.length_pos_iff.mpr hrs
      omega
    have hW : 2 ^ (-52 : ℤ) ≤ W - 1 := by
      have hle : (1 + δ) ^ 1 ≤ W := pow_le_pow_right₀ (by linarith) hlength
      rw [pow_one] at hle
      linarith
    have herror : g * (W - 1) ≤ 2 ^ 53 := by
      refine hclose.trans ((mul_le_of_le_one_left ?_ (by norm_num)).trans hmax)
      exact zero_le_one.trans (le_max_right _ _)
    have hg : g ≤ 2 ^ 105 := by
      rcases le_total g 0 with hneg | hpos
      · exact hneg.trans (by positivity)
      · have hsmall : g * 2 ^ (-52 : ℤ) ≤ 2 ^ 53 := (mul_le_mul_of_nonneg_left hW hpos).trans herror
        rw [zpow_neg, ← div_eq_mul_inv, div_le_iff₀ (by positivity)] at hsmall
        exact hsmall.trans (by norm_num)
    calc g * W = g * (W - 1) + g := by ring
      _ ≤ 2 ^ 53 + 2 ^ 105 := add_le_add herror hg
      _ ≤ 2 ^ 106 := by norm_num
      _ < 2 ^ 1024 := pow_lt_pow_right₀ one_lt_two (by norm_num)

/-- **Factors at accurate roots, multiplied out, are the polynomial
again.** -/
theorem approxEq_toNormalForm (hlead : lead ≠ 0) (hrs : rs ≠ []) (hf : Numeric (withRoots lead rs))
    {x : Float} (hx : Exactly x lead) (hrecovers : Recovers δ roots rs)
    (haxis : ∀ c ∈ roots, c.value.im = Scalar.zero) (haccurate : Accurate δ lead rs) :
    (⟨x, roots⟩ : Factorization Float).toNormalForm.approxEq (.ofPolynomial (withRoots lead rs))
      (Float.ofScientific 1 true 6) = true := by
  have hperm := List.perm_insertionSort (· ≤ ·) rs
  have htracks := (Tracks.single δ hx hlead).timesLinears haccurate.nonneg
    (hrecovers.forall₂_repeated haxis) (haccurate.factorsFit hrs hf)
  rw [← expand_eq_foldl ⟨x, roots⟩, ← withRoots, ← unsigned, withRoots_perm hperm,
    unsigned_perm hperm, hperm.length_eq, zero_add] at htracks
  refine NormalForm.approxEq_ofPolynomial hf le_rfl ?_ ?_
  · intro i c hc
    rw [List.getElem?_map, Option.map_eq_some_iff] at hc
    obtain ⟨z, hz, rfl⟩ := hc
    obtain ⟨⟨v, hv, hclose⟩, -⟩ := htracks.holds i z hz
    refine ⟨v, hv, hclose.close.trans ?_⟩
    rcases haccurate with ⟨rfl, -⟩ | ⟨-, hle⟩
    · rw [add_zero, one_pow, sub_self, mul_zero]
      positivity
    · exact hle i
  · intro i hnone
    rw [List.getElem?_map, Option.map_eq_none_iff, List.getElem?_eq_none_iff] at hnone
    exact (htracks.beyond i hnone).1

/-! ## Solving -/

/-- The exact roots as candidates. -/
def exactRoots (rs : List ℤ) : List (Root Float) := rs.map fun r => Root.real (Float.ofInt r) 1

/-- **The roots themselves** approximate without an error. -/
theorem approximates_exactRoots (hrs : ∀ r ∈ rs, |r| < 2 ^ 53) (hε : Exactly ε e) (he : 0 ≤ e) :
    Approximates 0 ε (exactRoots rs) rs := by
  refine ⟨?_, ?_, ?_⟩
  · intro c hc
    obtain ⟨r, hr, rfl⟩ := List.mem_map.mp hc
    exact ⟨r, hr, r, exactly_ofInt (hrs r hr), by rw [sub_self, abs_zero]⟩
  · intro c hc
    obtain ⟨r, hr, rfl⟩ := List.mem_map.mp hc
    have hzero := exactly_scalar_zero.abs
    rw [abs_zero] at hzero
    exact (hzero.le_iff hε).mpr he
  · intro r hr
    clear hr hε he
    induction rs with
    | nil => rfl
    | cons s rs ih =>
        obtain ⟨hs, hrs⟩ := List.forall_mem_cons.mp hrs
        have hnear : Near 0 (Cplx.ofReal (Float.ofInt s)) r ↔ s = r := by
          constructor
          · intro hnear
            exact_mod_cast (exactly_ofInt hs).unique hnear.exactly
          · rintro rfl
            exact ⟨s, exactly_ofInt hs, by rw [sub_self, abs_zero]⟩
        rw [exactRoots, List.map_cons, weight_cons, List.count_cons, Nat.add_comm]
        exact congrArg₂ (· + ·) (ih hrs) (if_congr (hnear.trans beq_iff_eq.symm) rfl rfl)

namespace Solution

section PositiveDegree

variable {α : Type} [Analytic α] {p : NormalForm α} {n : ℕ} {settings : SolverSettings α}

/-- The solution of a polynomial of positive degree is the clusters of its
candidates. -/
theorem ofNormalForm_of_candidates (hdegree : p.degree? = some (n + 1))
    {found : List (Root α)} (hfound : Multiplicity.candidates p.coefficients
      (mergeDistance settings p.coefficients) settings.maxIterations = .ok found) :
    ofNormalForm p settings =
      .ok (.roots (Cluster.cluster (mergeDistance settings p.coefficients) found)
        ⟨p.leading, Cluster.cluster (mergeDistance settings p.coefficients) found⟩) := by
  rw [ofNormalForm, hdegree]
  dsimp only
  rw [hfound]
  rfl

/-- A solution clusters the candidates that were found. -/
theorem exists_candidates_of_ok (hdegree : p.degree? = some (n + 1)) {s : Solution α}
    (h : ofNormalForm p settings = .ok s) :
    ∃ found, Multiplicity.candidates p.coefficients (mergeDistance settings p.coefficients)
        settings.maxIterations = .ok found ∧
      s = .roots (Cluster.cluster (mergeDistance settings p.coefficients) found)
        ⟨p.leading, Cluster.cluster (mergeDistance settings p.coefficients) found⟩ := by
  cases hfound : Multiplicity.candidates p.coefficients (mergeDistance settings p.coefficients)
      settings.maxIterations with
  | error _ =>
      rw [ofNormalForm, hdegree] at h
      dsimp only at h
      rw [hfound] at h
      cases h
  | ok found =>
      rw [ofNormalForm_of_candidates hdegree hfound] at h
      exact ⟨found, rfl, (Except.ok.inj h).symm⟩

end PositiveDegree

/-- **Solving polynomials with integer roots.**  The tolerance is a number,
and less than one unless a coefficient is a million times as large as the
leading one, or close to that.  Exact candidates come out as the roots they
are, each with its multiplicity, exactly if the tolerance is below the
distance of any two of them.  Whatever a solution was computed from, if that
approximates the roots closely enough for the tolerance to tell them apart,
the solution has these roots, all real, in ascending order and with their
multiplicities, and if they are accurate its factors multiplied out are the
polynomial. -/
theorem ofNormalForm_integer_roots (hlead : lead ≠ 0) (hrs : rs ≠ [])
    (hf : Numeric (withRoots lead rs)) :
    let p := NormalForm.ofPolynomial (withRoots lead rs)
    let ε := mergeDistance .default p.coefficients
    ∃ e, Exactly ε e ∧ 0 ≤ e ∧
      ((∀ i, |(withRoots lead rs).coeff i| ≤ 999990 * |lead|) → e < 1) ∧
      Approximates 0 ε (exactRoots rs) rs ∧
      (∀ found, Approximates 0 ε found rs →
        (Recovers 0 (Cluster.cluster ε found) rs ↔
          ∀ r ∈ rs, ∀ s ∈ rs, r ≠ s → e < |(r : ℚ) - s|)) ∧
      ∀ s, ofNormalForm p .default = .ok s →
        ∃ found distinct, Multiplicity.candidates p.coefficients ε
            SolverSettings.default.maxIterations = .ok found ∧
          s = .roots distinct ⟨p.leading, distinct⟩ ∧
          ∀ δ, Separates δ e rs → Approximates δ ε found rs →
            Recovers δ distinct rs ∧
              (Accurate δ lead rs →
                (⟨p.leading, distinct⟩ : Factorization Float).toNormalForm.approxEq p
                  (Float.ofScientific 1 true 6) = true) := by
  intro p ε
  have hspans := spans_of_numeric hlead hf
  obtain ⟨rest, hterms⟩ := NormalForm.exists_terms_ofPolynomial (withRoots_ne_zero hlead rs)
  rw [natDegree_withRoots hlead, leadingCoeff_withRoots] at hterms
  have hleading : p.leading = Float.ofInt lead := by
    rw [NormalForm.leading, hterms]
  obtain ⟨e, he, he0⟩ := exists_tolerance hlead hf
  refine ⟨e, he, he0, fun hle => tolerance_lt_one hlead hf hle he,
    approximates_exactRoots (fun r hr => abs_lt_of_numeric hlead hf hr) he he0,
    fun found happrox => recovers_exact_iff hspans he he0 happrox, ?_⟩
  intro s hs
  obtain ⟨n, hn⟩ := Nat.exists_eq_succ_of_ne_zero (mt List.length_eq_zero_iff.mp hrs)
  have hdegree : p.degree? = some (n + 1) := by
    rw [NormalForm.degree?, hterms, hn]
    rfl
  obtain ⟨found, hfound, hsolution⟩ := exists_candidates_of_ok hdegree hs
  refine ⟨found, _, hfound, hsolution, fun δ hseparates happrox => ?_⟩
  have hrecovers := hseparates.recovers hspans he happrox
  refine ⟨hrecovers, fun haccurate => ?_⟩
  rw [hleading]
  exact approxEq_toNormalForm hlead hrs hf (exactly_ofInt (abs_lead_lt hf)) hrecovers
    (fun c hc => (Cluster.onAxis_cluster happrox c hc).1) haccurate

/-- The answer is these roots, up to the last bit. -/
def isSameRoots (answer : Except Error (List (Root Float))) (rs : List (Root Float)) : Bool :=
  match answer with
  | .ok found =>
    decide (found.map (fun c => (c.value.re, c.value.im, c.multiplicity)) =
      rs.map fun c => (c.value.re, c.value.im, c.multiplicity))
  | .error _ => false

/-- Roots that agree up to the last bit are equal. -/
theorem eq_ok_of_sameRoots {answer : Except Error (List (Root Float))} {rs : List (Root Float)}
    (h : isSameRoots answer rs = true) : answer = .ok rs := by
  cases answer with
  | error _ => cases h
  | ok found =>
      refine congrArg Except.ok (List.map_injective_iff.mpr ?_ (of_decide_eq_true h))
      rintro ⟨⟨re, im⟩, m⟩ ⟨⟨re', im'⟩, m'⟩ heq
      simp only [Prod.mk.injEq] at heq
      obtain ⟨rfl, rfl, rfl⟩ := heq
      rfl

theorem withRoots_zero_three : withRoots 1 [0, 3] = NormalForm.sumOfTerms [(2, 1), (1, -3)] := by
  simp only [withRoots, NormalForm.sumOfTerms, List.map_cons, List.map_nil, List.prod_cons,
    List.prod_nil, List.sum_cons, List.sum_nil, ← C_mul_X_pow_eq_monomial, eq_intCast,
    Int.cast_one, Int.cast_zero, Int.cast_neg, Int.cast_ofNat]
  ring

/-- `x² - 3x` is solved: its roots are found exactly, and they are exact
enough. -/
theorem ofNormalForm_integer_roots_zero_three :
    let p := NormalForm.ofPolynomial (withRoots 1 [0, 3])
    (1 : ℤ) ≠ 0 ∧ [(0 : ℤ), 3] ≠ [] ∧ Numeric (withRoots 1 [0, 3]) ∧
      ∃ distinct, ofNormalForm p .default = .ok (.roots distinct ⟨p.leading, distinct⟩) ∧
        Recovers 0 distinct [0, 3] ∧
          (⟨p.leading, distinct⟩ : Factorization Float).toNormalForm.approxEq p
            (Float.ofScientific 1 true 6) = true := by
  intro p
  have hterms : [(2, 1), (1, -3)].Pairwise fun s t : ℕ × ℤ => t.1 < s.1 := by decide
  have hnumeric : Numeric (withRoots 1 [0, 3]) := by
    rw [withRoots_zero_three]
    exact NormalForm.numeric_sumOfTerms hterms (by decide)
  have hp : p = ⟨[(2, Float.ofInt 1), (1, Float.ofInt (-3))]⟩ := by
    show NormalForm.ofPolynomial (withRoots 1 [0, 3]) = _
    rw [withRoots_zero_three]
    exact NormalForm.ofPolynomial_sumOfTerms hterms (by decide)
  obtain ⟨e, he, he0, hsmall, happrox, -, hsolved⟩ :=
    ofNormalForm_integer_roots one_ne_zero (List.cons_ne_nil 0 [3]) hnumeric
  -- The iteration finds the exact roots.
  have hfound : Multiplicity.candidates p.coefficients (mergeDistance .default p.coefficients)
      SolverSettings.default.maxIterations = .ok (exactRoots [0, 3]) := by
    rw [hp]
    refine eq_ok_of_sameRoots ?_
    decide +kernel
  have hdegree : p.degree? = some 2 := by
    rw [hp]
    rfl
  have hs := ofNormalForm_of_candidates hdegree hfound
  obtain ⟨found, distinct, hfound', hdistinct, haccurate⟩ := hsolved _ hs
  obtain rfl : exactRoots [0, 3] = found := Except.ok.inj (hfound.symm.trans hfound')
  have hlt : e < 1 := by
    refine hsmall fun i => ?_
    rw [withRoots_zero_three]
    exact NormalForm.forall_coeff_sumOfTerms (P := fun a => |a| ≤ 999990 * |(1 : ℤ)|) hterms
      (by decide) (by decide) i
  have hseparates : Separates 0 e [0, 3] := by
    refine ⟨Or.inl rfl, by rwa [mul_zero], ?_⟩
    intro r _ s _ hne
    have hone := one_le_abs_sub hne
    linarith
  have hexact : Accurate 0 1 [0, 3] := by
    refine Or.inl ⟨rfl, ?_⟩
    have hsort : [(0 : ℤ), 3].insertionSort (· ≤ ·) = [0, 3] := by decide
    have hfirst : C 1 * (X - C 0) = NormalForm.sumOfTerms [(1, 1)] := by
      simp [NormalForm.sumOfTerms, ← C_mul_X_pow_eq_monomial]
    have hsecond : C 1 * (X - C 0) * (X - C 3) = NormalForm.sumOfTerms [(2, 1), (1, -3)] := by
      rw [← withRoots_zero_three]
      simp [withRoots]
    rw [hsort]
    refine ⟨fun i => ⟨by simp, ?_⟩, fun i => ⟨?_, ?_⟩, trivial⟩
    · rw [hfirst]
      exact NormalForm.numeric_sumOfTerms (by decide) (by decide) i
    · rw [hfirst]
      exact NormalForm.forall_coeff_sumOfTerms (P := fun a => |a * 3| < 2 ^ 53) (by decide)
        (by decide) (by decide) i
    · rw [hsecond]
      exact NormalForm.numeric_sumOfTerms (by decide) (by decide) i
  obtain ⟨hrecovers, hclose⟩ := haccurate 0 hseparates happrox
  exact ⟨one_ne_zero, List.cons_ne_nil _ _, hnumeric, distinct, hs.trans (congrArg _ hdistinct),
    hrecovers, hclose hexact⟩

theorem withRoots_thousand :
    withRoots 1 [1000, 1001] = NormalForm.sumOfTerms [(2, 1), (1, -2001), (0, 1001000)] := by
  simp only [withRoots, NormalForm.sumOfTerms, List.map_cons, List.map_nil, List.prod_cons,
    List.prod_nil, List.sum_cons, List.sum_nil, ← C_mul_X_pow_eq_monomial, eq_intCast,
    Int.cast_one, Int.cast_neg, Int.cast_ofNat]
  ring

theorem withRoots_large :
    withRoots 900719925474049 [-3, -2, -1, 1, 1] =
      NormalForm.sumOfTerms [(5, 900719925474049), (4, 3602879701896196), (2, -9007199254740490),
        (1, -900719925474049), (0, 5404319552844294)] := by
  simp only [withRoots, NormalForm.sumOfTerms, List.map_cons, List.map_nil, List.prod_cons,
    List.prod_nil, List.sum_cons, List.sum_nil, ← C_mul_X_pow_eq_monomial, eq_intCast,
    Int.cast_one, Int.cast_neg, Int.cast_ofNat]
  ring

/-- The tolerance is reached by the roots `1000` and `1001`, which are
merged; and with a leading coefficient this large, a coefficient that
cancels is off by one, because a partial product of the factors at the
exact roots has been rounded. -/
theorem integer_roots_merged :
    let close := withRoots 1 [1000, 1001]
    let large := withRoots 900719925474049 [-3, -2, -1, 1, 1]
    let ε := mergeDistance .default (NormalForm.ofPolynomial close).coefficients
    let factorization : Factorization Float := ⟨Float.ofInt 900719925474049,
      [Root.real (Float.ofInt (-3)) 1, Root.real (Float.ofInt (-2)) 1,
        Root.real (Float.ofInt (-1)) 1, Root.real (Float.ofInt 1) 2]⟩
    (Numeric close ∧ ¬ Recovers 0 (Cluster.cluster ε (exactRoots [1000, 1001])) [1000, 1001]) ∧
      Numeric large ∧ factorization.toNormalForm.approxEq (NormalForm.ofPolynomial large)
        (Float.ofScientific 1 true 6) = false := by
  intro close large ε factorization
  have hclose : close = _ := withRoots_thousand
  have hlarge : large = _ := withRoots_large
  constructor
  · have hnumeric : Numeric close := by
      rw [hclose]
      exact NormalForm.numeric_sumOfTerms (by decide) (by decide)
    refine ⟨hnumeric, fun hrecovers => ?_⟩
    obtain ⟨e, he, he0⟩ := exists_tolerance one_ne_zero hnumeric
    have happrox := approximates_exactRoots
      (fun r hr => abs_lt_of_numeric one_ne_zero hnumeric hr) he he0
    have hlt := (recovers_exact_iff (spans_of_numeric one_ne_zero hnumeric) he he0 happrox).mp
      hrecovers 1000 (by decide) 1001 (by decide) (by decide)
    rw [withRoots_thousand, NormalForm.ofPolynomial_sumOfTerms (by decide) (by decide)] at he
    have hle : 1 ≤ e := (exactly_scalar_one.le_iff he).mp (by decide +kernel)
    norm_num at hlt
    exact absurd hlt (not_lt.mpr hle)
  · rw [hlarge, NormalForm.ofPolynomial_sumOfTerms (by decide) (by decide)]
    exact ⟨NormalForm.numeric_sumOfTerms (by decide) (by decide), by decide +kernel⟩

end Solution

end Univariate
