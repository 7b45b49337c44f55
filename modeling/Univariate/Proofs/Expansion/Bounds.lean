import Univariate.Proofs.Expansion.Ascending

/-!
# Bounds for the degrees of slots

A slot enters an expansion as a constant, as the variable, or as a product
of two live slots, and sums and multiples bring no new degrees.  So the
degrees of all slots, live or not, are bounded by what was computed, and
the degree that a refusal names is bounded in the same way.  Nothing is
assumed about the arithmetic of the coefficients.

* `Expansion.UpTo` — no slot above a degree, with `UpTo.merge`,
  `UpTo.addSigned`, `UpTo.scale`;
* `Expansion.topDegree_le`, `Expansion.upTo_topDegree` — the degree of the
  highest live slot;
* `Expansion.upTo_limit_mul`, `Expansion.upTo_limit_pow` — products and
  powers stay within the limit;
* `Expansion.StaysWithin` — slots up to a degree, or a refusal of a degree
  up to it, with `Expansion.staysWithin_mul`, `Expansion.staysWithin_pow`.
-/

namespace Univariate

namespace Expansion

variable {α : Type} {p q r : Expansion α} {a b d limit : ℕ}

/-- No slot has a degree above a bound. -/
def UpTo (b : ℕ) (p : Expansion α) : Prop := ∀ s ∈ p, s.1 ≤ b

theorem upTo_nil (b : ℕ) : UpTo b ([] : Expansion α) := nofun

/-- A larger bound holds too. -/
theorem UpTo.mono (h : UpTo a p) (hab : a ≤ b) : UpTo b p := fun s hs => (h s hs).trans hab

/-- Changing values changes no degree. -/
theorem UpTo.map (h : UpTo b p) (change : Slot α → Slot α) :
    UpTo b (p.map fun (d, s) => (d, change s)) := by
  intro s hs
  obtain ⟨t, ht, rfl⟩ := List.mem_map.mp hs
  exact h t ht

/-- What a computation comes to that stays within a degree: slots up to
that degree, or the refusal of a degree up to it, which is over the
limit. -/
inductive StaysWithin (limit b : ℕ) : Except Error (Expansion α) → Prop
  | ok {p : Expansion α} (hp : UpTo b p) : StaysWithin limit b (.ok p)
  | refused {degree : ℕ} (hlimit : limit < degree) (hdegree : degree ≤ b) :
      StaysWithin limit b (.error (.domain (.degreeOverLimit degree limit)))

/-- **A computation in two steps** stays within the bound of the second, if
the first has no larger one. -/
theorem StaysWithin.bind {x : Except Error (Expansion α)}
    {next : Expansion α → Except Error (Expansion α)} (hx : StaysWithin limit a x) (hab : a ≤ b)
    (hnext : ∀ p, UpTo a p → StaysWithin limit b (next p)) : StaysWithin limit b (x >>= next) := by
  cases hx with
  | ok hp => exact hnext _ hp
  | refused hlimit hdegree => exact .refused hlimit (hdegree.trans hab)

variable [Scalar α]

/-- Leaving terms out keeps the bound. -/
theorem UpTo.live (h : UpTo b p) : UpTo b p.live := fun s hs => h s (List.mem_of_mem_filter hs)

/-- A single term has its degree. -/
theorem upTo_single (d : ℕ) (value : α) : UpTo d (single d value) := by
  intro s hs
  rw [List.mem_singleton.mp hs]

/-! ## Sums and multiples -/

/-- **Merging keeps the bound.** -/
theorem UpTo.merge (hp : UpTo b p) (hq : UpTo b q) : UpTo b (Expansion.merge p q) :=
  forall_mem_merge (P := fun d _ => d ≤ b) hp hq fun _ _ _ hs _ => hp _ hs

/-- **A sum has no larger degree** than its summands. -/
theorem UpTo.addSigned (hp : UpTo b p) (hq : UpTo b q) (sign : α) :
    UpTo b (Expansion.addSigned p q sign) :=
  hp.merge (hq.map fun s => ⟨sign * s.value, s.magnitude⟩)

/-- Multiples keep the bound. -/
theorem UpTo.scale (hp : UpTo b p) (k : α) : UpTo b (p.scale k) :=
  hp.map fun s => ⟨s.value * k, s.magnitude * Scalar.abs k⟩

/-! ## The highest live slot -/

/-- The highest degree is within the bound. -/
theorem topDegree_le (h : UpTo b p.live) : p.topDegree ≤ b := by
  unfold topDegree
  cases hfind : p.reverse.find? (·.2.isLive) with
  | none => exact Nat.zero_le b
  | some slot =>
      have hmem := List.mem_reverse.mp (List.mem_of_find?_eq_some hfind)
      exact h slot (List.mem_filter.mpr ⟨hmem, (List.find?_eq_some_iff_append.mp hfind).1⟩)

/-- **No live slot lies above the top degree.** -/
theorem upTo_topDegree (hp : p.Ascending) : UpTo p.topDegree p.live := by
  intro s hs
  obtain ⟨hmem, hlive⟩ := List.mem_filter.mp hs
  unfold topDegree
  cases hfind : p.reverse.find? (·.2.isLive) with
  | none => exact absurd hlive (List.find?_eq_none.mp hfind s (List.mem_reverse.mpr hmem))
  | some slot =>
      obtain ⟨-, above, below, hsplit, hdead⟩ := List.find?_eq_some_iff_append.mp hfind
      have hdescending : (above ++ slot :: below).Pairwise fun s t => t.1 < s.1 := by
        rw [← hsplit, List.pairwise_reverse]
        exact hp
      have hbelow := (List.pairwise_cons.mp (List.pairwise_append.mp hdescending).2.1).1
      rw [← List.mem_reverse, hsplit, List.mem_append, List.mem_cons] at hmem
      rcases hmem with hmem | rfl | hmem
      · simpa [hlive] using hdead s hmem
      · exact le_rfl
      · exact (hbelow s hmem).le

/-! ## Products -/

/-- A row has the sum of the degrees. -/
theorem UpTo.row {s : Slot α} (hd : d ≤ a) (hq : UpTo b q.live) :
    UpTo (a + b) (Expansion.row d s q) := by
  intro u hu
  obtain ⟨t, ht, rfl⟩ := List.mem_map.mp hu
  exact add_le_add hd (hq t ht)

/-- Only live slots meet in a product. -/
theorem upTo_mul (hp : UpTo a p.live) (hq : UpTo b q.live) (h : mul limit p q = .ok r) :
    UpTo (a + b) r :=
  mul_induction h (upTo_nil _) fun s hs _ hsums => hsums.merge (.row (hp s hs) hq)

/-- **No slot of a product lies above the limit**, live or not. -/
theorem upTo_limit_mul (hp : p.Ascending) (hq : q.Ascending) (h : mul limit p q = .ok r) :
    UpTo limit r :=
  (upTo_mul (upTo_topDegree hp) (upTo_topDegree hq) h).mono (mul_eq_ok_iff.mp h).1

/-- **No slot of a power lies above the limit.** -/
theorem upTo_limit_pow {n : ℕ} (hp : p.Ascending) (h : pow limit p n = .ok r) :
    UpTo limit r := by
  refine (pow_induction (P := fun p => p.Ascending ∧ UpTo limit p) h ⟨ascending_single _ _, ?_⟩ hp
    ?_ fun _ _ hp => ascending_mul hp).2
  · exact (upTo_single 0 _).mono (Nat.zero_le limit)
  · intro p q r hp hq h
    exact ⟨ascending_mul hq h, upTo_limit_mul hp.1 hq h⟩

/-! ## Refusals -/

/-- **A product has the sum of the degrees**, or is refused for it. -/
theorem staysWithin_mul (hp : UpTo a p) (hq : UpTo b q) :
    StaysWithin limit (a + b) (mul limit p q) := by
  by_cases hover : limit < p.topDegree + q.topDegree
  · have herror : mul limit p q = .error _ := if_pos hover
    rw [herror]
    exact .refused hover (add_le_add (topDegree_le hp.live) (topDegree_le hq.live))
  · have hok : mul limit p q = .ok _ := if_neg hover
    rw [hok]
    exact .ok (upTo_mul hp.live hq.live hok)

/-- **Square and multiply.**  No product on the way has a higher degree than
the power. -/
theorem staysWithin_powLoop {result square : Expansion α} {n : ℕ} (hresult : UpTo a result)
    (hsquare : UpTo b square) : StaysWithin limit (a + b * n) (powLoop limit result square n) := by
  induction n using Nat.strong_induction_on generalizing result square a b with
  | _ n ih =>
      by_cases hzero : n = 0
      · rw [powLoop, if_pos hzero]
        exact .ok (hresult.mono (Nat.le_add_right a _))
      -- The lowest bit.
      have hbit : StaysWithin limit (a + b * (n % 2))
          (if n % 2 = 1 then mul limit result square else .ok result) := by
        rcases Nat.mod_two_eq_zero_or_one n with heven | hodd
        · rw [if_neg (by omega), heven, mul_zero, add_zero]
          exact .ok hresult
        · rw [if_pos hodd, hodd, mul_one]
          exact staysWithin_mul hresult hsquare
      rw [powLoop_eq hzero, ← mul_halves b n, ← add_assoc]
      refine hbit.bind (Nat.le_add_right _ _) fun product hproduct => ?_
      split_ifs with hhalf
      · exact .ok (hproduct.mono (Nat.le_add_right _ _))
      -- The bits above it.
      have htwice : b + b ≤ (b + b) * (n / 2) :=
        Nat.le_mul_of_pos_right _ (Nat.pos_of_ne_zero hhalf)
      exact (staysWithin_mul hsquare hsquare).bind (htwice.trans (Nat.le_add_left _ _))
        fun next hnext => ih (n / 2) (by omega) hproduct hnext

/-- **A power has the multiple of the degree**, or is refused for it. -/
theorem staysWithin_pow {n : ℕ} (hp : UpTo b p) : StaysWithin limit (b * n) (pow limit p n) := by
  by_cases hover : limit < p.topDegree * n
  · have herror : pow limit p n = .error _ := if_pos hover
    rw [herror]
    exact .refused hover (Nat.mul_le_mul_right n (topDegree_le hp.live))
  · have hloop : pow limit p n = powLoop limit (single 0 Scalar.one) p n := if_neg hover
    have hstays : StaysWithin limit (0 + b * n) _ :=
      staysWithin_powLoop (upTo_single 0 Scalar.one) hp
    rwa [Nat.zero_add, ← hloop] at hstays

end Expansion

end Univariate
