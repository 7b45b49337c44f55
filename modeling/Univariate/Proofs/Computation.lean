import Mathlib

/-!
# Computations that may fail

How a computation is taken apart: into its two steps, into what a function
was applied to, and, for a loop over a list, into an invariant that every
step keeps, or into the step that failed and the ones before it.

* `bind_eq_ok`, `map_eq_ok`, `bind_eq_error` — steps;
* `foldlM_invariant`, `foldlM_eq_error` — loops, with the part of the list
  read so far.
-/

namespace Univariate

variable {α β γ ε : Type}

/-- A computation in two steps succeeds when both do. -/
theorem bind_eq_ok {x : Except ε β} {f : β → Except ε γ} {c : γ} (h : x >>= f = .ok c) :
    ∃ b, x = .ok b ∧ f b = .ok c := by
  cases x with
  | error e => cases h
  | ok b => exact ⟨b, rfl, h⟩

/-- What is applied to a result succeeds with the result. -/
theorem map_eq_ok {x : Except ε β} {f : β → γ} {c : γ} (h : f <$> x = .ok c) :
    ∃ b, x = .ok b ∧ f b = c := by
  cases x with
  | error e => cases h
  | ok b => exact ⟨b, rfl, Except.ok.inj h⟩

/-- A computation in two steps fails in one of them. -/
theorem bind_eq_error {x : Except ε β} {f : β → Except ε γ} {e : ε} (h : x >>= f = .error e) :
    x = .error e ∨ ∃ b, x = .ok b ∧ f b = .error e := by
  cases x with
  | error e' =>
      cases h
      exact Or.inl rfl
  | ok b => exact Or.inr ⟨b, rfl, h⟩

/-- **What every step keeps holds after the loop**, of the list as far as
it has been read. -/
theorem foldlM_invariant {step : β → α → Except ε β} (Inv : List α → β → Prop)
    (hstep : ∀ past a b b', Inv past b → step b a = .ok b' → Inv (past ++ [a]) b')
    (past : List α) {rest : List α} {b b' : β} (hb : Inv past b)
    (h : rest.foldlM step b = .ok b') :
    Inv (past ++ rest) b' := by
  induction rest generalizing past b with
  | nil =>
      rw [List.append_nil]
      exact Except.ok.inj h ▸ hb
  | cons a rest ih =>
      rw [List.foldlM_cons] at h
      obtain ⟨next, hnext, h⟩ := bind_eq_ok h
      rw [List.append_cons]
      exact ih _ (hstep past a b next hb hnext) h

/-- A loop fails at one element, behind others that it has taken. -/
theorem foldlM_eq_error {step : β → α → Except ε β} {as : List α} {b : β} {e : ε}
    (h : as.foldlM step b = .error e) :
    ∃ before a after b', as = before ++ a :: after ∧ before.foldlM step b = .ok b' ∧
      step b' a = .error e := by
  induction as generalizing b with
  | nil => cases h
  | cons a as ih =>
      rw [List.foldlM_cons] at h
      rcases bind_eq_error h with h | ⟨next, hnext, h⟩
      · exact ⟨[], a, as, b, rfl, rfl, h⟩
      · obtain ⟨before, a', after, b', rfl, hbefore, hstep⟩ := ih h
        refine ⟨a :: before, a', after, b', rfl, ?_, hstep⟩
        rw [List.foldlM_cons, hnext]
        exact hbefore

end Univariate
