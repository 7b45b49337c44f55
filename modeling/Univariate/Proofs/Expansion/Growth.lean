import Univariate.Proofs.Binary64.Overflow
import Univariate.Proofs.Expansion.Monomials

/-!
# Expansions without cancellation

Where nothing is taken off, the value of a slot is also its magnitude, and
is at least one or has overflowed.  Such a slot is live exactly if it is
finite: an overflowed one counts as cancelled, and takes part in no further
product.  The slot of the highest degree receives one contribution in a
product and at most two in a sum, so its value follows from those of the
operands alone, and while it is finite it is there and live.

* `Slot.Grown`, `Slot.Grown.isLive_iff` — one slot;
* `Expansion.mem_merge_left`, `Expansion.mem_merge_right`,
  `Expansion.mem_merge_both` — what merging puts into a slot;
* `Expansion.Under` — growing slots below a degree;
* `Expansion.Leads` — the slot of the highest degree, with `Leads.add`,
  `Leads.mul` and `Leads.pow`.
-/

namespace Univariate

open Binary64

namespace Binary64

variable {x : Float}

/-- Adding to zero changes nothing. -/
theorem Large.zero_add_eq (hx : Large x) : Scalar.zero + x = x := by
  rcases hx with rfl | ⟨q, hq, hx⟩
  · rfl
  · have hsum := exactly_scalar_zero.add hx
    rw [zero_add] at hsum
    exact (hsum hx.representable).eq_of_ne_zero hx (by linarith)

/-- Multiplying with one changes nothing. -/
theorem Large.one_mul_eq (hx : Large x) : Scalar.one * x = x := by
  rcases hx with rfl | ⟨q, hq, hx⟩
  · rfl
  · have hproduct := exactly_scalar_one.mul hx
    rw [one_mul] at hproduct
    exact (hproduct hx.representable).eq_of_ne_zero hx (by linarith)

/-- One is large enough. -/
theorem large_one : Large Scalar.one := Or.inr ⟨1, le_rfl, exactly_scalar_one⟩

end Binary64

/-! ## Slots -/

namespace Slot

/-- Nothing has been taken off, and everything that went in was at least
one. -/
structure Grown (s : Slot Float) : Prop where
  large : Large s.value
  magnitude : s.magnitude = s.value

variable {s t : Slot Float}

/-- **A growing slot counts as cancelled exactly when it has
overflowed.** -/
theorem Grown.isLive_iff (hs : s.Grown) : s.isLive = true ↔ s.value.isFinite = true := by
  rcases hs.large with hinfinite | ⟨q, hq, hvalue⟩
  · rw [Slot.isLive, hs.magnitude, hinfinite]
    decide
  · have hmagnitude : Exactly s.magnitude |q| := by
      rwa [hs.magnitude, abs_of_pos (one_pos.trans_le hq)]
    have hholds : s.Holds q := ⟨hvalue, hmagnitude⟩
    have hq0 : q ≠ 0 := by linarith
    exact iff_of_true (hholds.isLive_iff.mpr hq0) ((isFinite_iff s.value).mpr ⟨q, hvalue⟩)

/-- A single contribution of at least one grows. -/
theorem Grown.single {x : Float} (hx : Large x) (habs : Scalar.abs x = x) :
    (Slot.single x).Grown :=
  ⟨hx, habs⟩

/-- **Sums of growing slots grow.** -/
theorem Grown.add (hs : s.Grown) (ht : t.Grown) : (s.add t).Grown where
  large := hs.large.add ht.large
  magnitude := by rw [Slot.add, hs.magnitude, ht.magnitude]

/-- **Products of growing slots grow.** -/
theorem Grown.mul (hs : s.Grown) (ht : t.Grown) : (s.mul t).Grown where
  large := hs.large.mul ht.large
  magnitude := by rw [Slot.mul, hs.magnitude, ht.magnitude]

/-- A slot that starts from nothing. -/
theorem Grown.zero_add_eq (hs : s.Grown) : Slot.zero.add s = s := by
  show Slot.mk (Scalar.zero + s.value) (Scalar.zero + s.magnitude) = ⟨s.value, s.magnitude⟩
  rw [hs.magnitude, hs.large.zero_add_eq]

end Slot

/-! ## Merging -/

namespace Expansion

section Merge

variable {α : Type} [Scalar α] {p q : Expansion α} {d : ℕ} {s t : Slot α}

/-- A term stays in a merger if the other expansion has none of its degree. -/
theorem mem_merge_left (hs : (d, s) ∈ p) (hq : ∀ t ∈ q, t.1 ≠ d) : (d, s) ∈ merge p q := by
  fun_induction merge p q with
  | case1 q => cases hs
  | case2 first p => exact hs
  | case3 e u p f v q hlt ih =>
      rcases List.mem_cons.mp hs with heq | hs
      · rw [heq]
        exact List.mem_cons_self
      · exact List.mem_cons_of_mem _ (ih hs hq)
  | case4 e u p f v q hle hlt ih =>
      exact List.mem_cons_of_mem _ (ih hs fun t ht => hq t (List.mem_cons_of_mem _ ht))
  | case5 e u p f v q hle hge ih =>
      obtain rfl : e = f := by omega
      rcases List.mem_cons.mp hs with heq | hs
      · exact absurd (Prod.mk.inj heq).1.symm (hq _ List.mem_cons_self)
      · exact List.mem_cons_of_mem _ (ih hs fun t ht => hq t (List.mem_cons_of_mem _ ht))

/-- So does a term of the second expansion, added to nothing. -/
theorem mem_merge_right (ht : (d, t) ∈ q) (hp : ∀ s ∈ p, s.1 ≠ d) :
    (d, Slot.zero.add t) ∈ merge p q := by
  fun_induction merge p q with
  | case1 q => exact List.mem_map.mpr ⟨(d, t), ht, rfl⟩
  | case2 first p => cases ht
  | case3 e u p f v q hlt ih =>
      exact List.mem_cons_of_mem _ (ih ht fun s hs => hp s (List.mem_cons_of_mem _ hs))
  | case4 e u p f v q hle hlt ih =>
      rcases List.mem_cons.mp ht with heq | ht
      · obtain ⟨rfl, rfl⟩ := Prod.mk.inj heq
        exact List.mem_cons_self
      · exact List.mem_cons_of_mem _ (ih ht hp)
  | case5 e u p f v q hle hge ih =>
      obtain rfl : e = f := by omega
      rcases List.mem_cons.mp ht with heq | ht
      · exact absurd (Prod.mk.inj heq).1.symm (hp _ List.mem_cons_self)
      · exact List.mem_cons_of_mem _ (ih ht fun s hs => hp s (List.mem_cons_of_mem _ hs))

/-- Terms of one degree are added. -/
theorem mem_merge_both (hp : p.Ascending) (hq : q.Ascending) (hs : (d, s) ∈ p)
    (ht : (d, t) ∈ q) : (d, s.add t) ∈ merge p q := by
  fun_induction merge p q with
  | case1 q => cases hs
  | case2 first p => cases ht
  | case3 e u p f v q hlt ih =>
      -- The other expansion starts above the first slot.
      rcases List.mem_cons.mp hs with heq | hs
      · obtain ⟨rfl, rfl⟩ := Prod.mk.inj heq
        rcases List.mem_cons.mp ht with heq | ht
        · exact absurd (Prod.mk.inj heq).1 hlt.ne
        · exact absurd ((ascending_cons.mp hq).1 _ ht) (not_lt.mpr hlt.le)
      · exact List.mem_cons_of_mem _ (ih (ascending_cons.mp hp).2 hq hs ht)
  | case4 e u p f v q hle hlt ih =>
      rcases List.mem_cons.mp ht with heq | ht
      · obtain ⟨rfl, rfl⟩ := Prod.mk.inj heq
        rcases List.mem_cons.mp hs with heq | hs
        · exact absurd (Prod.mk.inj heq).1 hlt.ne
        · exact absurd ((ascending_cons.mp hp).1 _ hs) (not_lt.mpr hlt.le)
      · exact List.mem_cons_of_mem _ (ih hp (ascending_cons.mp hq).2 hs ht)
  | case5 e u p f v q hle hge ih =>
      obtain rfl : e = f := by omega
      obtain ⟨habove, hp⟩ := ascending_cons.mp hp
      obtain ⟨habove', hq⟩ := ascending_cons.mp hq
      rcases List.mem_cons.mp hs with heq | hs <;> rcases List.mem_cons.mp ht with heq' | ht
      · obtain ⟨rfl, rfl⟩ := Prod.mk.inj heq
        obtain ⟨-, rfl⟩ := Prod.mk.inj heq'
        exact List.mem_cons_self
      · exact absurd (Prod.mk.inj heq).1 (habove' _ ht).ne'
      · exact absurd (Prod.mk.inj heq').1 (habove _ hs).ne'
      · exact List.mem_cons_of_mem _ (ih hp hq hs ht)

end Merge

/-! ## Below a degree -/

/-- Growing slots, all below a degree. -/
def Under (p : Expansion Float) (b : ℕ) : Prop := ∀ s ∈ p, s.2.Grown ∧ s.1 < b

variable {p q r : Expansion Float} {b c d e limit : ℕ} {x y : Float}

theorem under_nil (b : ℕ) : Under [] b := nofun

/-- A larger bound holds too. -/
theorem Under.mono (h : Under p b) (hbc : b ≤ c) : Under p c :=
  fun s hs => ⟨(h s hs).1, (h s hs).2.trans_le hbc⟩

/-- Merging keeps the bound. -/
theorem Under.merge (hp : Under p b) (hq : Under q b) : Under (Expansion.merge p q) b := by
  refine forall_mem_merge (P := fun d s => s.Grown ∧ d < b) hp ?_ ?_
  · intro t ht
    rw [(hq t ht).1.zero_add_eq]
    exact hq t ht
  · intro d s t hs ht
    exact ⟨(hp _ hs).1.add (hq _ ht).1, (hp _ hs).2⟩

/-- Leaving terms out keeps the bound. -/
theorem Under.live (h : Under p b) : Under p.live b := fun s hs => h s (List.mem_of_mem_filter hs)

/-- The bounds of a row add up. -/
theorem Under.row {s : Slot Float} (hs : s.Grown) (hd : d < b) (hq : Under q (c + 1)) :
    Under (Expansion.row d s q) (b + c) := by
  intro u hu
  obtain ⟨t, ht, rfl⟩ := List.mem_map.mp hu
  obtain ⟨hgrown, hlt⟩ := hq t (List.mem_of_mem_filter ht)
  exact ⟨hs.mul hgrown, by show d + t.1 < b + c; omega⟩

/-- Adding rows keeps their bound. -/
theorem Under.foldl_rows {sums : Expansion Float} (hp : Under p b) (hq : Under q (c + 1))
    (hsums : Under sums (b + c)) :
    Under (p.foldl (fun sums (d, s) => Expansion.merge sums (Expansion.row d s q)) sums)
      (b + c) := by
  refine List.foldlRecOn (motive := fun sums => Under sums (b + c)) p _ hsums
    fun sums hsums s hs => ?_
  obtain ⟨hgrown, hlt⟩ := hp s hs
  exact hsums.merge (.row hgrown hlt hq)

/-! ## The highest degree -/

/-- The slot of the highest degree has a value that grows, and is there
while the value is finite. -/
structure Leads (p : Expansion Float) (d : ℕ) (x : Float) : Prop where
  ascending : p.Ascending
  under : Under p (d + 1)
  large : Large x
  top : x.isFinite = true → ∃ s, (d, s) ∈ p ∧ s.value = x

namespace Leads

/-- A single growing slot. -/
theorem single (d : ℕ) {v : ℚ} (hx : Exactly x v) (hv : 1 ≤ v) : Leads (single d x) d x where
  ascending := ascending_single d x
  under := by
    have habs : x.abs = x := by
      have h := hx.abs
      rw [abs_of_pos (one_pos.trans_le hv)] at h
      exact h.eq_of_ne_zero hx (by linarith)
    intro s hs
    rw [List.mem_singleton.mp hs]
    exact ⟨.single (Or.inr ⟨v, hv, hx⟩) habs, d.lt_succ_self⟩
  large := Or.inr ⟨v, hv, hx⟩
  top := fun _ => ⟨_, List.mem_singleton.mpr rfl, rfl⟩

/-- A finite slot of the highest degree is the last one, and is live. -/
theorem live_eq (h : Leads p d x) (hx : x.isFinite = true) :
    ∃ init s, p.live = init ++ [(d, s)] ∧ s.value = x ∧ s.Grown ∧ Under init d := by
  obtain ⟨s, hs, hvalue⟩ := h.top hx
  have hgrown := (h.under _ hs).1
  have hlive : (d, s) ∈ p.live :=
    List.mem_filter.mpr ⟨hs, hgrown.isLive_iff.mpr (hvalue ▸ hx)⟩
  obtain ⟨init, rest, hsplit⟩ := List.append_of_mem hlive
  have hascending := h.ascending.live
  have hunder := h.under.live
  rw [hsplit] at hascending hunder
  obtain ⟨-, hrest, hinit⟩ := List.pairwise_append.mp hascending
  have hnil : rest = [] := by
    refine List.eq_nil_iff_forall_not_mem.mpr fun t ht => ?_
    have hlow := (List.pairwise_cons.mp hrest).1 t ht
    have hhigh := (hunder t (by simp [ht])).2
    exact absurd hhigh (by simp only at hlow; omega)
  subst hnil
  refine ⟨init, s, hsplit, hvalue, hgrown, fun t ht => ⟨(hunder t (by simp [ht])).1, ?_⟩⟩
  exact hinit t ht (d, s) List.mem_cons_self

/-- Growing slots times plus one are unchanged. -/
theorem withSign_one (h : Under p b) : Expansion.withSign Scalar.one p = p := by
  refine (List.map_congr_left fun s hs => ?_).trans (List.map_id p)
  show (s.1, Slot.mk (Scalar.one * s.2.value) s.2.magnitude) = s
  rw [(h s hs).1.large.one_mul_eq]

/-- **Sums.**  The higher degree counts, and both of two equal ones. -/
theorem add (hp : Leads p d x) (hq : Leads q e y) :
    Leads (addSigned p q Scalar.one) (max d e)
      (if d < e then y else if e < d then x else x + y) := by
  rw [addSigned, withSign_one hq.under]
  refine ⟨hp.ascending.merge hq.ascending, (hp.under.mono (by omega)).merge
    (hq.under.mono (by omega)), ?_, ?_⟩
  · split_ifs
    · exact hq.large
    · exact hp.large
    · exact hp.large.add hq.large
  rcases lt_trichotomy d e with hlt | rfl | hgt
  · rw [if_pos hlt, max_eq_right hlt.le]
    intro hfinite
    obtain ⟨t, ht, hvalue⟩ := hq.top hfinite
    have hnone : ∀ s ∈ p, s.1 ≠ e := fun s hs => by
      have := (hp.under s hs).2
      omega
    have hmem := mem_merge_right ht hnone
    rw [(hq.under _ ht).1.zero_add_eq] at hmem
    exact ⟨t, hmem, hvalue⟩
  · rw [if_neg (lt_irrefl d), if_neg (lt_irrefl d), max_self]
    intro hfinite
    obtain ⟨hfinite, hfinite'⟩ := hp.large.isFinite_of_add hq.large hfinite
    obtain ⟨s, hs, rfl⟩ := hp.top hfinite
    obtain ⟨t, ht, rfl⟩ := hq.top hfinite'
    exact ⟨_, mem_merge_both hp.ascending hq.ascending hs ht, rfl⟩
  · rw [if_neg hgt.not_gt, if_pos hgt, max_eq_left hgt.le]
    intro hfinite
    obtain ⟨s, hs, hvalue⟩ := hp.top hfinite
    have hnone : ∀ t ∈ q, t.1 ≠ d := fun t ht => by
      have := (hq.under t ht).2
      omega
    exact ⟨s, mem_merge_left hs hnone, hvalue⟩

/-- **Products.**  Only the two slots of highest degree reach the degree of
the product. -/
theorem mul (hp : Leads p d x) (hq : Leads q e y) (h : Expansion.mul limit p q = .ok r) :
    Leads r (d + e) (x * y) := by
  refine ⟨ascending_mul hq.ascending h, ?_, hp.large.mul hq.large, ?_⟩ <;>
    obtain ⟨-, rfl⟩ := mul_eq_ok_iff.mp h
  · have hrows := hp.under.live.foldl_rows hq.under (under_nil _)
    rwa [add_right_comm] at hrows
  intro hfinite
  obtain ⟨hx, hy⟩ := hp.large.isFinite_of_mul hq.large hfinite
  obtain ⟨init, s, hsplit, rfl, hs, hinit⟩ := hp.live_eq hx
  obtain ⟨init', t, hsplit', rfl, ht, -⟩ := hq.live_eq hy
  rw [hsplit, List.foldl_append]
  -- What the rows before the last one add up to stays below the degree.
  have hbelow := hinit.foldl_rows hq.under (under_nil _)
  have hmem : (d + e, s.mul t) ∈ Expansion.row d s q := by
    refine List.mem_map.mpr ⟨(e, t), ?_, rfl⟩
    rw [hsplit']
    exact List.mem_append_right _ List.mem_cons_self
  have hmerge := mem_merge_right hmem fun u hu => ((hbelow u hu).2).ne
  rw [(hs.mul ht).zero_add_eq] at hmerge
  exact ⟨s.mul t, hmerge, rfl⟩

/-- Square and multiply. -/
theorem powLoop {result square : Expansion Float} {n : ℕ} (hresult : Leads result d x)
    (hsquare : Leads square e y) (h : Expansion.powLoop limit result square n = .ok r) :
    Leads r (d + e * n) (Scalar.powLoop x y n) := by
  induction n using Nat.strong_induction_on generalizing result square d e x y with
  | _ n ih =>
      by_cases hn : n = 0
      · subst hn
        rw [Expansion.powLoop, if_pos rfl] at h
        rw [Scalar.powLoop, if_pos rfl, ← Except.ok.inj h]
        exact hresult
      rw [powLoop_eq hn] at h
      obtain ⟨product, hproduct, h⟩ := bind_eq_ok h
      have hleads : Leads product (d + e * (n % 2)) (if n % 2 = 1 then x * y else x) := by
        rcases Nat.mod_two_eq_zero_or_one n with heven | hodd
        · rw [if_neg (by omega)] at hproduct ⊢
          rw [heven, mul_zero, add_zero, ← Except.ok.inj hproduct]
          exact hresult
        · rw [if_pos hodd] at hproduct ⊢
          rw [hodd, mul_one]
          exact hresult.mul hsquare hproduct
      rw [Scalar.powLoop, if_neg hn, ← mul_halves e n, ← add_assoc]
      split_ifs at h with hhalf
      · rw [hhalf, mul_zero, add_zero, Scalar.powLoop, if_pos rfl, ← Except.ok.inj h]
        exact hleads
      · obtain ⟨next, hnext, h⟩ := bind_eq_ok h
        exact ih (n / 2) (by omega) hleads (hsquare.mul hsquare hnext) h

/-- **Powers.** -/
theorem pow {n : ℕ} (hp : Leads p d x) (h : Expansion.pow limit p n = .ok r) :
    Leads r (d * n) (Scalar.powLoop Scalar.one x n) := by
  have hone : Leads (Expansion.single 0 Scalar.one) 0 Scalar.one :=
    .single 0 exactly_scalar_one le_rfl
  have hloop := hone.powLoop hp (pow_eq_ok_iff.mp h).2
  rwa [zero_add] at hloop

end Leads

end Expansion

end Univariate
