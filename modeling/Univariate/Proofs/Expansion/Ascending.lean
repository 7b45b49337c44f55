import Univariate.Proofs.Expansion.Accepted

/-!
# The order of slots

An expansion lists its slots by strictly ascending degree, so that a degree
has one slot at most and the last live slot has the highest degree.  Every
operation keeps this order, whatever the arithmetic of the coefficients.

* `Expansion.forall_mem_merge` — what merging puts into the slots;
* `Expansion.Ascending` — the order;
* `Expansion.Ascending.merge`, `Expansion.ascending_mul`,
  `Expansion.ascending_pow` — the operations keep it;
* `Expr.ascending_expand` — every expansion of a tree is in order.
-/

namespace Univariate

variable {α : Type}

namespace Expansion

/-- The degrees of the slots strictly ascend. -/
def Ascending (p : Expansion α) : Prop := p.Pairwise fun s t => s.1 < t.1

/-- Every slot has a degree above a bound. -/
def Above (k : ℕ) (p : Expansion α) : Prop := ∀ s ∈ p, k < s.1

theorem ascending_nil : Ascending ([] : Expansion α) := List.Pairwise.nil

/-- An expansion ascends if its first term lies below the others and these
ascend. -/
theorem ascending_cons {s : ℕ × Slot α} {p : Expansion α} :
    Ascending (s :: p) ↔ Above s.1 p ∧ Ascending p :=
  List.pairwise_cons

@[simp] theorem above_cons (k : ℕ) (s : ℕ × Slot α) (p : Expansion α) :
    Above k (s :: p) ↔ k < s.1 ∧ Above k p := by
  simp [Above]

/-- What lies above a degree lies above all smaller ones. -/
theorem Above.mono {j k : ℕ} {p : Expansion α} (h : Above k p) (hjk : j ≤ k) : Above j p :=
  fun s hs => lt_of_le_of_lt hjk (h s hs)

/-- Changing values keeps the order. -/
theorem Ascending.map {p : Expansion α} (h : Ascending p) (change : Slot α → Slot α) :
    Ascending (p.map fun (d, s) => (d, change s)) :=
  List.Pairwise.map _ (fun _ _ hlt => hlt) h

/-- A degree has one slot at most. -/
theorem Ascending.eq_of_mem {d : ℕ} {s t : Slot α} {p : Expansion α} (h : Ascending p)
    (hs : (d, s) ∈ p) (ht : (d, t) ∈ p) : s = t := by
  induction p with
  | nil => cases hs
  | cons u p ih =>
      obtain ⟨habove, h⟩ := ascending_cons.mp h
      rcases List.mem_cons.mp hs with heq | hs <;> rcases List.mem_cons.mp ht with heq' | ht
      · exact (Prod.mk.inj (heq.trans heq'.symm)).2
      · exact absurd (habove _ ht) (heq ▸ lt_irrefl d)
      · exact absurd (habove _ hs) (heq' ▸ lt_irrefl d)
      · exact ih h hs ht

variable [Scalar α]

/-- Leaving terms out keeps the order. -/
theorem Ascending.live {p : Expansion α} (h : Ascending p) : Ascending p.live :=
  List.Pairwise.filter _ h

/-- A row has the degrees of its factor, all moved by the same amount. -/
theorem ascending_row (d : ℕ) (s : Slot α) {q : Expansion α} (h : Ascending q) :
    Ascending (row d s q) :=
  List.Pairwise.map _ (fun _ _ hlt => Nat.add_lt_add_left hlt d) h.live

/-- What holds of every slot of two expansions, alone and together, holds
of every slot of their sum. -/
theorem forall_mem_merge {P : ℕ → Slot α → Prop} {p q : Expansion α}
    (hp : ∀ s ∈ p, P s.1 s.2) (hq : ∀ t ∈ q, P t.1 (Slot.zero.add t.2))
    (hadd : ∀ d s t, (d, s) ∈ p → (d, t) ∈ q → P d (s.add t)) :
    ∀ u ∈ merge p q, P u.1 u.2 := by
  fun_induction merge p q with
  | case1 q =>
      intro u hu
      obtain ⟨t, ht, rfl⟩ := List.mem_map.mp hu
      exact hq t ht
  | case2 s p => exact hp
  | case3 d s p e t q hlt ih =>
      rw [List.forall_mem_cons] at hp ⊢
      exact ⟨hp.1, ih hp.2 hq fun d s t hs ht => hadd d s t (List.mem_cons_of_mem _ hs) ht⟩
  | case4 d s p e t q hle hlt ih =>
      rw [List.forall_mem_cons] at hq ⊢
      exact ⟨hq.1, ih hp hq.2 fun d s t hs ht => hadd d s t hs (List.mem_cons_of_mem _ ht)⟩
  | case5 d s p e t q hle hge ih =>
      obtain rfl : d = e := by omega
      rw [List.forall_mem_cons] at hp hq ⊢
      exact ⟨hadd d s t List.mem_cons_self List.mem_cons_self,
        ih hp.2 hq.2 fun d s t hs ht =>
          hadd d s t (List.mem_cons_of_mem _ hs) (List.mem_cons_of_mem _ ht)⟩

/-- Merging introduces no new degrees. -/
theorem Above.merge {k : ℕ} {p q : Expansion α} (hp : Above k p) (hq : Above k q) :
    Above k (Expansion.merge p q) :=
  forall_mem_merge (P := fun d _ => k < d) hp hq fun _ _ _ hs _ => hp _ hs

/-- **Merging keeps the order.** -/
theorem Ascending.merge {p q : Expansion α} (hp : Ascending p) (hq : Ascending q) :
    Ascending (Expansion.merge p q) := by
  fun_induction Expansion.merge p q with
  | case1 q => exact hq.map _
  | case2 s p => exact hp
  | case3 d s p e t q hlt ih =>
      have hd := ascending_cons.mp hp
      have he := ascending_cons.mp hq
      have hq' : Above d ((e, t) :: q) := by simpa [hlt] using he.1.mono hlt.le
      exact ascending_cons.mpr ⟨hd.1.merge hq', ih hd.2 hq⟩
  | case4 d s p e t q hle hlt ih =>
      have hd := ascending_cons.mp hp
      have he := ascending_cons.mp hq
      have hp' : Above e ((d, s) :: p) := by simpa [hlt] using hd.1.mono hlt.le
      exact ascending_cons.mpr ⟨hp'.merge he.1, ih hp he.2⟩
  | case5 d s p e t q hle hge ih =>
      obtain rfl : d = e := by omega
      have hd := ascending_cons.mp hp
      have he := ascending_cons.mp hq
      exact ascending_cons.mpr ⟨hd.1.merge he.1, ih hd.2 he.2⟩

/-- **Products ascend.** -/
theorem ascending_mul {limit : ℕ} {p q r : Expansion α} (hq : Ascending q)
    (h : mul limit p q = .ok r) : Ascending r :=
  mul_induction h ascending_nil fun s _ _ hsums => hsums.merge (ascending_row s.1 s.2 hq)

/-- A single term ascends. -/
theorem ascending_single (d : ℕ) (value : α) : Ascending (single d value) :=
  List.pairwise_singleton _ _

/-- **Sums and differences ascend.** -/
theorem ascending_addSigned {p q : Expansion α} (hp : Ascending p) (hq : Ascending q)
    (sign : α) : Ascending (addSigned p q sign) :=
  hp.merge (hq.map fun s => ⟨sign * s.value, s.magnitude⟩)

/-- Multiples ascend. -/
theorem ascending_scale {p : Expansion α} (hp : Ascending p) (k : α) : Ascending (p.scale k) :=
  hp.map fun s => ⟨s.value * k, s.magnitude * Scalar.abs k⟩

/-- **Powers ascend.** -/
theorem ascending_pow {limit n : ℕ} {p r : Expansion α} (hp : Ascending p)
    (h : pow limit p n = .ok r) : Ascending r :=
  pow_induction h (ascending_single _ _) hp (fun _ _ _ _ hq => ascending_mul hq)
    fun _ _ hp => ascending_mul hp

end Expansion

/-- **Every expansion lists its degrees in strictly ascending order.** -/
theorem Expr.ascending_expand [Scalar α] {limit : ℕ} {e : Expr α} {p : Expansion α}
    (h : e.expand limit = .ok p) : p.Ascending := by
  rw [expand_eq_ok_iff] at h
  induction h with
  | const c => exact Expansion.ascending_single 0 c
  | var => exact Expansion.ascending_single 1 _
  | add hl hr ihl ihr | sub hl hr ihl ihr => exact Expansion.ascending_addSigned ihl ihr _
  | mul hl hr h ihl ihr => exact Expansion.ascending_mul ihr h
  | div hl hr hvariable hzero ihl ihr => exact Expansion.ascending_scale ihl _
  | pow hbase h ih => exact Expansion.ascending_pow ih h
  | neg hinner ih => exact Expansion.ascending_scale ih _

end Univariate
