import Univariate.Proofs.Roots.Displacement

/-!
# Merging in another order

Candidates are merged as they ascend, and which of them a later one is added
to may depend on who came first.  It does not for candidates straight above
each other, unless they are different and something is near them both: if
nothing is, they may be taken in any order, and the clusters come out the
same up to places that nothing later can tell apart.

* `Cluster.Untied` — nothing is near two different values straight above
  each other;
* `Cluster.Trade` — two clusters trade places that no candidate is near both
  of;
* `Cluster.trade_absorb`, `Cluster.absorb_comm` — what one more candidate
  leaves of that, and two candidates in either order;
* `Cluster.perm_foldl_absorb` — the clusters of two ascending arrangements of
  the same candidates.
-/

namespace Univariate

namespace Cluster

open scoped Exact

open Relation (ReflGen ReflTransGen reflGen_iff)

variable {ε : ℝ} {values : List (Cplx ℝ)} {emitted emitted' roots roots' : List (Root ℝ)}

/-- A value is near itself. -/
theorem isNear_self (hε : 0 ≤ ε) (z : Cplx ℝ) : isNear ε z z = true := by
  rwa [isNear_iff, dist_self]

/-- Being near goes both ways. -/
theorem isNear_comm (ε : ℝ) (w z : Cplx ℝ) : isNear ε w z = isNear ε z w := by
  rw [Bool.eq_iff_iff, isNear_iff, isNear_iff, dist_comm]

/-- None of the values is near two different ones that are straight above
each other. -/
def Untied (ε : ℝ) (values : List (Cplx ℝ)) : Prop :=
  ∀ a ∈ values, ∀ b ∈ values, ∀ c ∈ values, a.re = b.re →
    isNear ε a c = true → isNear ε b c = true → a = b

/-- A value near the first cluster is absorbed by it. -/
theorem absorb_near {w z : Cplx ℝ} (h : isNear ε w z = true) (m n : ℕ) :
    absorb ε (⟨w, m⟩ :: emitted) ⟨z, n⟩ = ⟨w, m + n⟩ :: emitted := if_pos h

/-- Any other value goes on to the next one. -/
theorem absorb_far {w z : Cplx ℝ} (h : isNear ε w z = false) (m n : ℕ) :
    absorb ε (⟨w, m⟩ :: emitted) ⟨z, n⟩ = ⟨w, m⟩ :: absorb ε emitted ⟨z, n⟩ :=
  if_neg (by simp [h])

/-! ## Clusters that trade places -/

/-- Two neighbours trade places, and none of the values is near them both. -/
inductive Trade (ε : ℝ) (values : List (Cplx ℝ)) : List (Root ℝ) → List (Root ℝ) → Prop
  | here {w z : Cplx ℝ} (m n : ℕ) (rest : List (Root ℝ))
      (h : ∀ v ∈ values, isNear ε w v = true → isNear ε z v = false) :
      Trade ε values (⟨w, m⟩ :: ⟨z, n⟩ :: rest) (⟨z, n⟩ :: ⟨w, m⟩ :: rest)
  | there (e : Root ℝ) {l l' : List (Root ℝ)} (h : Trade ε values l l') :
      Trade ε values (e :: l) (e :: l')

/-- A trade permutes. -/
theorem Trade.perm {l l' : List (Root ℝ)} (h : Trade ε values l l') : l.Perm l' := by
  induction h with
  | here m n rest _ => exact List.Perm.swap _ _ rest
  | there e _ ih => exact ih.cons e

theorem perm_of_trades {l l' : List (Root ℝ)} (h : ReflTransGen (Trade ε values) l l') :
    l.Perm l' := by
  induction h with
  | refl => exact List.Perm.refl l
  | tail _ hlast ih => exact ih.trans hlast.perm

/-- One of the values goes to the same cluster after a trade. -/
theorem trade_absorb (h : Trade ε values emitted emitted') {c : Root ℝ} (hc : c.value ∈ values) :
    Trade ε values (absorb ε emitted c) (absorb ε emitted' c) := by
  obtain ⟨v, k⟩ := c
  induction h with
  | @here w z m n rest h =>
      by_cases hw : isNear ε w v = true
      · have hz := h v hc hw
        rw [absorb_near hw, absorb_far hz, absorb_near hw]
        exact .here _ n rest h
      · rw [Bool.not_eq_true] at hw
        by_cases hz : isNear ε z v = true
        · rw [absorb_far hw, absorb_near hz, absorb_near hz]
          exact .here m _ rest h
        · rw [Bool.not_eq_true] at hz
          rw [absorb_far hw, absorb_far hz, absorb_far hz, absorb_far hw]
          exact .here m n _ h
  | @there e l l' h ih =>
      obtain ⟨z, n⟩ := e
      by_cases hz : isNear ε z v = true
      · rw [absorb_near hz, absorb_near hz]
        exact .there _ h
      · rw [Bool.not_eq_true] at hz
        rw [absorb_far hz, absorb_far hz]
        exact .there _ ih

/-- **Clusters that differ by trades** still do after absorbing all
candidates. -/
theorem trades_foldl_absorb (h : ReflTransGen (Trade ε values) emitted emitted')
    (hroots : ∀ c ∈ roots, c.value ∈ values) :
    ReflTransGen (Trade ε values) (roots.foldl (absorb ε) emitted)
      (roots.foldl (absorb ε) emitted') := by
  induction roots generalizing emitted emitted' with
  | nil => exact h
  | cons c roots ih =>
      obtain ⟨hc, hroots⟩ := List.forall_mem_cons.mp hroots
      exact ih (h.lift (absorb ε · c) fun _ _ hstep => trade_absorb hstep hc) hroots

/-! ## Candidates in another order -/

/-- Two candidates may come in either order, if they are equal or nothing is
near them both. -/
theorem absorb_comm (hε : 0 ≤ ε) (emitted : List (Root ℝ)) {a b : Root ℝ} (hb : b.value ∈ values)
    (hab : ∀ z ∈ values, isNear ε a.value z = true → isNear ε b.value z = true →
      a.value = b.value) :
    ReflGen (Trade ε values) (absorb ε (absorb ε emitted a) b)
      (absorb ε (absorb ε emitted b) a) := by
  obtain ⟨w, m⟩ := a
  obtain ⟨z, n⟩ := b
  dsimp only at hb hab
  induction emitted with
  | nil =>
      rw [absorb, absorb]
      by_cases hnear : isNear ε w z = true
      · obtain rfl : w = z := hab z hb hnear (isNear_self hε z)
        rw [absorb_near hnear, absorb_near hnear, Nat.add_comm]
      · rw [Bool.not_eq_true] at hnear
        have hnear' : isNear ε z w = false := by rwa [isNear_comm]
        rw [absorb_far hnear, absorb_far hnear']
        refine .single (.here m n [] fun v hv hwv => Bool.eq_false_iff.mpr fun hzv => ?_)
        rw [hab v hv hwv hzv, isNear_self hε] at hnear
        cases hnear
  | cons e emitted ih =>
      obtain ⟨v, k⟩ := e
      by_cases hw : isNear ε v w = true
      · by_cases hz : isNear ε v z = true
        · rw [absorb_near hw, absorb_near hz, absorb_near hz, absorb_near hw, Nat.add_right_comm]
        · rw [Bool.not_eq_true] at hz
          rw [absorb_near hw, absorb_far hz, absorb_far hz, absorb_near hw]
      · rw [Bool.not_eq_true] at hw
        by_cases hz : isNear ε v z = true
        · rw [absorb_far hw, absorb_near hz, absorb_near hz, absorb_far hw]
        · rw [Bool.not_eq_true] at hz
          rw [absorb_far hw, absorb_far hz, absorb_far hz, absorb_far hw]
          rcases (reflGen_iff _ _ _).mp ih with heq | htrade
          · rw [heq]
          · exact .single (.there _ htrade)

/-- A candidate may come before others straight above or below it. -/
theorem absorb_foldl (hε : 0 ≤ ε) (emitted : List (Root ℝ)) {a : Root ℝ}
    (hroots : ∀ b ∈ roots, b.value ∈ values)
    (ha : ∀ b ∈ roots, ∀ z ∈ values, isNear ε a.value z = true → isNear ε b.value z = true →
      a.value = b.value) :
    ReflTransGen (Trade ε values) (roots.foldl (absorb ε) (absorb ε emitted a))
      (absorb ε (roots.foldl (absorb ε) emitted) a) := by
  induction roots generalizing emitted with
  | nil => exact .refl
  | cons b roots ih =>
      obtain ⟨hb, hroots⟩ := List.forall_mem_cons.mp hroots
      obtain ⟨hab, ha⟩ := List.forall_mem_cons.mp ha
      have hswap := (absorb_comm hε emitted hb hab).to_reflTransGen
      exact (trades_foldl_absorb hswap hroots).trans (ih (absorb ε emitted b) hroots ha)

/-- Two arrangements of the same candidates, both ascending by real part,
have the same clusters up to trades.  The first candidate of the one stands,
in the other, behind candidates straight above or below it only. -/
theorem trades_of_perm (hε : 0 ≤ ε) (huntied : Untied ε values) (emitted : List (Root ℝ))
    (hroots : ∀ c ∈ roots, c.value ∈ values) (hperm : roots.Perm roots')
    (hasc : roots.Pairwise fun a b => a.value.re ≤ b.value.re)
    (hasc' : roots'.Pairwise fun a b => a.value.re ≤ b.value.re) :
    ReflTransGen (Trade ε values) (roots.foldl (absorb ε) emitted)
      (roots'.foldl (absorb ε) emitted) := by
  induction roots generalizing emitted roots' with
  | nil =>
      rw [List.nil_perm.mp hperm]
  | cons a roots ih =>
      obtain ⟨front, back, rfl⟩ := List.append_of_mem (hperm.subset List.mem_cons_self)
      have hrest : roots.Perm (front ++ back) := (hperm.trans List.perm_middle).cons_inv
      obtain ⟨ha, hroots⟩ := List.forall_mem_cons.mp hroots
      obtain ⟨hmin, hasc⟩ := List.pairwise_cons.mp hasc
      have hfront : ∀ b ∈ front, b ∈ roots := fun b hb =>
        hrest.symm.subset (List.mem_append_left back hb)
      have hstraight : ∀ b ∈ front, a.value.re = b.value.re := fun b hb =>
        le_antisymm (hmin b (hfront b hb))
          ((List.pairwise_append.mp hasc').2.2 b hb a List.mem_cons_self)
      have hfirst := ih (absorb ε emitted a) hroots hrest hasc
        (hasc'.sublist (List.Sublist.append_left (List.sublist_cons_self a back) front))
      have hback : ∀ b ∈ back, b.value ∈ values := fun b hb =>
        hroots b (hrest.symm.subset (List.mem_append_right front hb))
      have hlater := absorb_foldl hε emitted (fun b hb => hroots b (hfront b hb))
        fun b hb z hz => huntied a.value ha b.value (hroots b (hfront b hb)) z hz (hstraight b hb)
      rw [List.foldl_append] at hfirst
      rw [List.foldl_append]
      exact hfirst.trans (trades_foldl_absorb hlater hback)

/-- **The clusters do not depend on the order** of candidates straight above
each other, unless something is near two different ones. -/
theorem perm_foldl_absorb (hε : 0 ≤ ε) (huntied : Untied ε (roots.map Root.value))
    (hperm : roots.Perm roots') (hasc : roots.Pairwise fun a b => a.value.re ≤ b.value.re)
    (hasc' : roots'.Pairwise fun a b => a.value.re ≤ b.value.re) :
    (roots.foldl (absorb ε) []).Perm (roots'.foldl (absorb ε) []) :=
  perm_of_trades
    (trades_of_perm hε huntied [] (fun _ => List.mem_map_of_mem) hperm hasc hasc')

end Cluster

end Univariate
