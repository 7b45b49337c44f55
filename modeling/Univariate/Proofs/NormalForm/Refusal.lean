import Univariate.Proofs.Binary64.Signs
import Univariate.Proofs.Expansion.Bounds
import Univariate.Proofs.NormalForm.Degree
import Univariate.Proofs.NormalForm.Integral

/-!
# Why a tree is refused

A tree is refused for one of three reasons, and each of them can be seen in
the tree: a part is written with a degree over the limit, a divisor
contains the variable, or a divisor has no constant term that counts.  The
live degrees never exceed the written ones, whatever has been rounded, has
cancelled or has overflowed.

* `Expr.Cause` — the reasons;
* `Expr.Justified`, `Expr.justified_expand` — what an expansion comes to:
  slots up to the written degree, or an error with a reason;
* `Expr.weighed_expand`, `isLive_of_constantTerm_eq_zero` — no magnitude is
  below zero, so that a value of zero never counts;
* `Expr.normalize_refusals` — which trees are accepted, and what the errors
  of the others say.
-/

namespace Univariate

open Binary64 Expansion

variable {α : Type}

namespace Expr

/-! ## Written degrees -/

/-- A tree without the variable is written with the degree zero. -/
theorem formalDegree_of_not_mentionsVariable {e : Expr α} (h : e.mentionsVariable = false) :
    e.formalDegree = 0 := by
  induction e with
  | const c => rfl
  | var => cases h
  | add l r ihl ihr | sub l r ihl ihr =>
      obtain ⟨hl, hr⟩ := Bool.or_eq_false_iff.mp h
      rw [formalDegree, ihl hl, ihr hr, max_self]
  | mul l r ihl ihr =>
      obtain ⟨hl, hr⟩ := Bool.or_eq_false_iff.mp h
      rw [formalDegree, ihl hl, ihr hr]
  | div l r ihl ihr => exact ihl (Bool.or_eq_false_iff.mp h).1
  | pow base n ih => rw [formalDegree, ih h, zero_mul]
  | neg inner ih => exact ih h

variable [Scalar α] {e i l r : Expr α} {limit b d : ℕ}

/-! ## Reasons -/

/-- What is wrong with a tree that is refused. -/
inductive Cause (limit : ℕ) (e : Expr α) : Error → Prop
  | degree {s : Expr α} {degree : ℕ} (hs : s ∈ e.subtrees) (hlimit : limit < degree)
      (hdegree : degree ≤ s.formalDegree) :
      Cause limit e (.domain (.degreeOverLimit degree limit))
  | denominator {l r : Expr α} (hs : div l r ∈ e.subtrees) (hr : r.mentionsVariable = true) :
      Cause limit e (.notPolynomial .variableInDenominator)
  | zero {l r : Expr α} {q : Expansion α} (hs : div l r ∈ e.subtrees)
      (hq : r.expand limit = .ok q) (hzero : Scalar.eq q.constantTerm Scalar.zero = true) :
      Cause limit e (.domain .divisionByZero)

/-- A reason within a part is one within the whole. -/
theorem Cause.mono {error : Error} (h : Cause limit i error) (hsub : i.subtrees ⊆ e.subtrees) :
    Cause limit e error := by
  cases h with
  | degree hs hlimit hdegree => exact .degree (hsub hs) hlimit hdegree
  | denominator hs hr => exact .denominator (hsub hs) hr
  | zero hs hq hzero => exact .zero (hsub hs) hq hzero

/-- What an expansion comes to: slots up to a degree, or an error for which
there is a reason. -/
inductive Justified (limit : ℕ) (e : Expr α) (b : ℕ) : Except Error (Expansion α) → Prop
  | ok {p : Expansion α} (hp : UpTo b p) : Justified limit e b (.ok p)
  | error {error : Error} (h : Cause limit e error) : Justified limit e b (.error error)

/-- A part first, and then what is done with it. -/
theorem Justified.bind {x : Except Error (Expansion α)}
    {next : Expansion α → Except Error (Expansion α)} (hx : Justified limit i d x)
    (hsub : i.subtrees ⊆ e.subtrees)
    (hnext : ∀ p, x = .ok p → UpTo d p → Justified limit e b (next p)) :
    Justified limit e b (x >>= next) := by
  cases hx with
  | ok hp => exact hnext _ rfl hp
  | error h => exact .error (h.mono hsub)

/-- A refusal for a degree that the tree is written with. -/
theorem Justified.of_staysWithin {x : Except Error (Expansion α)}
    (h : StaysWithin limit e.formalDegree x) : Justified limit e e.formalDegree x := by
  cases h with
  | ok hp => exact .ok hp
  | refused hlimit hdegree => exact .error (.degree e.mem_subtrees_self hlimit hdegree)

/-- A quotient keeps the degree of its dividend, or is refused for its
divisor. -/
theorem justified_div {p q : Expansion α} (hp : UpTo l.formalDegree p)
    (hq : UpTo r.formalDegree q) (hexpand : r.expand limit = .ok q) :
    Justified limit (div l r) l.formalDegree (p.div q) := by
  have hself : div l r ∈ (div l r).subtrees := mem_subtrees_self _
  unfold Expansion.div
  dsimp only
  split_ifs with htop hzero
  · refine .error (.denominator hself ?_)
    by_contra hmentions
    have hdegree := formalDegree_of_not_mentionsVariable (Bool.eq_false_iff.mpr hmentions)
    have hle := topDegree_le hq.live
    omega
  · exact .error (.zero hself hexpand hzero)
  · exact .ok (hp.scale _)

/-- **Every error has a reason**, and every slot a degree that the tree is
written with. -/
theorem justified_expand (limit : ℕ) (e : Expr α) :
    Justified limit e e.formalDegree (e.expand limit) := by
  induction e with
  | const c => exact .ok (upTo_single 0 c)
  | var => exact .ok (upTo_single 1 _)
  | add l r ihl ihr | sub l r ihl ihr =>
      refine ihl.bind (by simp [subtrees]) fun p _ hp =>
        ihr.bind (by simp [subtrees]) fun q _ hq => .ok ?_
      exact (hp.mono (le_max_left _ _)).addSigned (hq.mono (le_max_right _ _)) _
  | mul l r ihl ihr =>
      exact ihl.bind (by simp [subtrees]) fun p _ hp =>
        ihr.bind (by simp [subtrees]) fun q _ hq => .of_staysWithin (staysWithin_mul hp hq)
  | div l r ihl ihr =>
      exact ihl.bind (by simp [subtrees]) fun p _ hp =>
        ihr.bind (by simp [subtrees]) fun q hexpand hq => justified_div hp hq hexpand
  | pow base n ih =>
      exact ih.bind (by simp [subtrees]) fun p _ hp => .of_staysWithin (staysWithin_pow hp)
  | neg inner ih =>
      exact ih.bind (by simp [subtrees]) fun p _ hp => .ok (hp.scale _)

/-- The errors of normalization are those of expansion. -/
theorem cause_of_normalize {error : Error} (h : e.normalize limit = .error error) :
    Cause limit e error := by
  have hexpand := justified_expand limit e
  unfold normalize at h
  generalize e.expand limit = answer at h hexpand
  cases hexpand with
  | ok hp => cases h
  | error hcause => exact Except.error.inj h ▸ hcause

end Expr

/-! ## Slots that cannot count -/

/-- **A value of zero never counts.**  The threshold is a magnitude, so it
is not below zero. -/
theorem Slot.isLive_of_value_eq_zero {s : Slot Float} (hm : NotNegative s.magnitude)
    (hv : Scalar.eq s.value Scalar.zero = true) : s.isLive = false := by
  have hvalue := (exactly_zero_of_beq hv exactly_scalar_zero).abs
  rw [abs_zero] at hvalue
  have htolerance : NotNegative (Scalar.ofNat cancellationUlps * Scalar.epsilon) :=
    Or.inr ⟨_, by positivity, exactly_tolerance⟩
  exact (htolerance.mul hm).not_lt hvalue

theorem Slot.notNegative_zero : NotNegative (Slot.zero : Slot Float).magnitude := by
  have hzero : Exactly (Slot.zero : Slot Float).magnitude 0 := exactly_scalar_zero
  exact Or.inr ⟨0, le_rfl, hzero⟩

/-- Magnitudes that are not below zero have a sum that is not. -/
theorem Slot.notNegative_add {s t : Slot Float} (hs : NotNegative s.magnitude)
    (ht : NotNegative t.magnitude) : NotNegative (s.add t).magnitude := by
  have hsum : NotNegative (s.magnitude + t.magnitude) := hs.add ht
  exact hsum

namespace Expansion

variable {p q r : Expansion Float} {limit n : ℕ}

/-- No magnitude is below zero. -/
def Weighed (p : Expansion Float) : Prop := ∀ s ∈ p, NotNegative s.2.magnitude

/-- One term weighs an absolute value. -/
theorem weighed_single (d : ℕ) (x : Float) : Weighed (Expansion.single d x) := by
  intro s hs
  rw [List.mem_singleton.mp hs]
  exact notNegative_abs x

/-- Adding slots adds magnitudes. -/
theorem Weighed.merge (hp : Weighed p) (hq : Weighed q) : Weighed (Expansion.merge p q) :=
  forall_mem_merge (P := fun _ s => NotNegative s.magnitude) hp
    (fun t ht => Slot.notNegative_add Slot.notNegative_zero (hq t ht))
    fun d s t hs ht => Slot.notNegative_add (hp (d, s) hs) (hq (d, t) ht)

/-- A difference adds magnitudes as well. -/
theorem Weighed.addSigned (hp : Weighed p) (hq : Weighed q) (sign : Float) :
    Weighed (Expansion.addSigned p q sign) := by
  refine hp.merge fun s hs => ?_
  obtain ⟨t, ht, rfl⟩ := List.mem_map.mp hs
  exact hq t ht

/-- Scaling by a constant scales magnitudes by its absolute value. -/
theorem Weighed.scale (hp : Weighed p) (k : Float) : Weighed (p.scale k) := by
  intro s hs
  obtain ⟨t, ht, rfl⟩ := List.mem_map.mp hs
  exact (hp t ht).mul (notNegative_abs k)

/-- One row of a product multiplies magnitudes. -/
theorem Weighed.row {s : Slot Float} (d : ℕ) (hs : NotNegative s.magnitude) (hq : Weighed q) :
    Weighed (Expansion.row d s q) := by
  intro u hu
  obtain ⟨t, ht, rfl⟩ := List.mem_map.mp hu
  exact hs.mul (hq t (List.mem_of_mem_filter ht))

/-- A product within the limit. -/
theorem Weighed.mul (hp : Weighed p) (hq : Weighed q) (h : Expansion.mul limit p q = .ok r) :
    Weighed r := by
  refine mul_induction h nofun fun s hs sums hsums => hsums.merge (.row s.1 ?_ hq)
  exact hp s (List.mem_of_mem_filter hs)

/-- A power within the limit. -/
theorem Weighed.pow (hp : Weighed p) (h : Expansion.pow limit p n = .ok r) : Weighed r :=
  pow_induction h (weighed_single _ _) hp (fun _ _ _ hp hq => hp.mul hq) fun _ _ hp => hp.mul hp

/-- **What a divisor of zero lacks.**  If the constant term is zero, then
because no slot of degree zero counts. -/
theorem isLive_of_constantTerm_eq_zero (hp : p.Ascending) (hweighed : Weighed p)
    (hzero : Scalar.eq p.constantTerm Scalar.zero = true) {s : Slot Float} (hs : (0, s) ∈ p) :
    s.isLive = false := by
  unfold constantTerm at hzero
  cases hfind : p.find? (·.1 == 0) with
  | none => simpa using List.find?_eq_none.mp hfind _ hs
  | some slot =>
      obtain ⟨d, t⟩ := slot
      have hd : d = 0 := by simpa using List.find?_some hfind
      subst hd
      obtain rfl := hp.eq_of_mem hs (List.mem_of_find?_eq_some hfind)
      by_contra hlive
      rw [Bool.not_eq_false] at hlive
      simp only [hfind, hlive, if_true] at hzero
      exact absurd hlive (by rw [Slot.isLive_of_value_eq_zero (hweighed _ hs) hzero]; decide)

end Expansion

namespace Expr

/-- **No magnitude in an expansion is below zero.** -/
theorem weighed_expand {e : Expr Float} {limit : ℕ} {p : Expansion Float}
    (h : e.expand limit = .ok p) : p.Weighed := by
  rw [expand_eq_ok_iff] at h
  induction h with
  | const c => exact weighed_single 0 c
  | var => exact weighed_single 1 _
  | add hl hr ihl ihr | sub hl hr ihl ihr => exact ihl.addSigned ihr _
  | mul hl hr h ihl ihr => exact ihl.mul ihr h
  | div hl hr hvariable hzero ihl ihr => exact ihl.scale _
  | pow hbase h ih => exact ih.pow h
  | neg hinner ih => exact ih.scale _

/-- **Trees are refused for a reason only.**  Without divisions, and with
no part written with a degree over the limit, a tree is accepted.  It is
called no polynomial only if some divisor contains the variable.  If none
does, and no written degree is over the limit, the only error is a division
by zero, and there is a division whose divisor has no constant term that
counts. -/
theorem normalize_refusals (e : Expr Float) (limit : ℕ) :
    ((∀ l r, div l r ∉ e.subtrees) → (∀ s ∈ e.subtrees, s.formalDegree ≤ limit) →
      ∃ p, e.normalize limit = .ok p) ∧
    (∀ fault, e.normalize limit = .error (.notPolynomial fault) →
      ∃ l r, div l r ∈ e.subtrees ∧ r.mentionsVariable = true) ∧
    ((∀ l r, div l r ∈ e.subtrees → r.mentionsVariable = false) →
      (∀ s ∈ e.subtrees, s.formalDegree ≤ limit) → ∀ error, e.normalize limit = .error error →
        error = .domain .divisionByZero ∧
          ∃ l r q, div l r ∈ e.subtrees ∧ r.expand limit = .ok q ∧
            ∀ s, (0, s) ∈ q → s.isLive = false) := by
  refine ⟨fun hdiv hdegree => ?_, fun fault h => ?_, fun hdivisors hdegree error h => ?_⟩
  · cases hnormalize : e.normalize limit with
    | ok p => exact ⟨p, rfl⟩
    | error error =>
        cases cause_of_normalize hnormalize with
        | degree hs hlimit hle => exact absurd hlimit (not_lt.mpr (hle.trans (hdegree _ hs)))
        | denominator hs _ | zero hs _ _ => exact absurd hs (hdiv _ _)
  · cases cause_of_normalize h with
    | denominator hs hr => exact ⟨_, _, hs, hr⟩
  · cases cause_of_normalize h with
    | degree hs hlimit hle => exact absurd hlimit (not_lt.mpr (hle.trans (hdegree _ hs)))
    | denominator hs hr =>
        rw [hdivisors _ _ hs] at hr
        cases hr
    | zero hs hq hzero =>
        exact ⟨rfl, _, _, _, hs, hq, fun s => isLive_of_constantTerm_eq_zero (ascending_expand hq)
          (weighed_expand hq) hzero⟩

/-- A quotient of accepted parts is refused with the reason of the division. -/
theorem normalize_div_of_error {l r : Expr Float} {limit : ℕ} {p q : Expansion Float}
    {error : Error} (hl : l.expand limit = .ok p) (hr : r.expand limit = .ok q)
    (h : p.div q = .error error) : (div l r).normalize limit = .error error := by
  have hexpand : (div l r).expand limit = .error error := by
    rw [expand, hl, hr]
    exact h
  rw [normalize, hexpand]
  rfl

/-- `(x + 1)·(x − 1)` is accepted up to degree two, `1/x` has the variable
below the line, and `x/0` divides by a constant that does not count. -/
theorem normalize_refusals_quotients :
    let one : Expr Float := const 1
    (∃ p, (mul (add var one) (sub var one)).normalize 2 = .ok p) ∧
      (∃ l r, div l r ∈ (div one var).subtrees ∧ r.mentionsVariable = true) ∧
      (div var (const 0) : Expr Float).normalize 1 = .error (.domain .divisionByZero) ∧
      ∃ l r q, div l r ∈ (div var (const 0) : Expr Float).subtrees ∧ r.expand 1 = .ok q ∧
        ∀ s, (0, s) ∈ q → s.isLive = false := by
  intro one
  have hlive : (Slot.single (Scalar.one : Float)).isLive = true := by decide +kernel
  have hdead : (Slot.single (0 : Float)).isLive = false := by decide +kernel
  have hvariable : (div one var).normalize 64 = .error (.notPolynomial .variableInDenominator) := by
    have htop : topDegree [(1, Slot.single (Scalar.one : Float))] = 1 := topDegree_singleton hlive
    have hdiv : (Expansion.single 0 1).div [(1, Slot.single (Scalar.one : Float))] = .error _ :=
      if_pos (by rw [htop]; exact Nat.one_pos)
    exact normalize_div_of_error rfl rfl hdiv
  have hzero : (div var (const 0) : Expr Float).normalize 1 =
      .error (.domain .divisionByZero) := by
    have hterm : constantTerm [(0, Slot.single (0 : Float))] = Scalar.zero := by
      simp [constantTerm, hdead]
    have htop : topDegree [(0, Slot.single (0 : Float))] = 0 := by simp [topDegree, hdead]
    have heq : Scalar.eq (Scalar.zero : Float) Scalar.zero = true := by decide +kernel
    have hdiv : (Expansion.single 1 (Scalar.one : Float)).div [(0, Slot.single 0)] =
        .error (.domain .divisionByZero) := by
      rw [Expansion.div, htop, hterm]
      simp [heq]
    exact normalize_div_of_error rfl rfl hdiv
  refine ⟨(normalize_refusals _ 2).1 ?_ ?_, (normalize_refusals _ 64).2.1 _ hvariable, hzero,
    ((normalize_refusals _ 1).2.2 ?_ ?_ _ hzero).2⟩
  · simp [one, subtrees]
  · simp [one, subtrees, formalDegree]
  · simp [subtrees, mentionsVariable]
  · simp [subtrees, formalDegree]

end Expr

end Univariate
