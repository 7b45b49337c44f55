import Mathlib
import Univariate.Error

/-!
# Checked accesses

A computation with indices may ask for an entry that is not there, or for a
difference of indices below zero.  Here both are failures of their own,
apart from the errors that a computation answers with on purpose.  An
algorithm that is written with these accesses and never fails by one of
them is safe; and where it comes out as another algorithm that has no
accesses at all, that one may stand for it.

* `Fault`, `Stop`, `Checked` — accesses that fail, and computations that
  may;
* `Checked.get`, `Checked.put`, `Checked.minus`, `Checked.upTo`,
  `Checked.onwards` — the accesses;
* `Checked.get_append`, `Checked.put_append`, `Checked.get_getD` — where
  they succeed;
* `Checked.foldlM_view`, `Checked.mapM_get` — loops of them;
* `Checked.refuse` — an answer that is an error on purpose.
-/

namespace Univariate

/-- What an access runs into. -/
inductive Fault where
  /-- An entry, or a part, that a list of this length does not have. -/
  | outOfBounds (index length : ℕ)
  /-- A difference of indices below zero. -/
  | belowZero (left right : ℕ)

/-- Why a checked computation ends without a result. -/
inductive Stop where
  | fault (fault : Fault)
  /-- An error that is an answer. -/
  | refused (error : Error)

/-- A computation each access of which is checked. -/
abbrev Checked (β : Type) := Except Stop β

namespace Checked

variable {β γ δ : Type}

/-! ## Accesses -/

/-- `xs[i]` -/
def get (xs : List β) (i : ℕ) : Checked β :=
  match xs[i]? with
  | some x => .ok x
  | none => .error (.fault (.outOfBounds i xs.length))

/-- `xs[i] = x` -/
def put (xs : List β) (i : ℕ) (x : β) : Checked (List β) :=
  if i < xs.length then .ok (xs.set i x) else .error (.fault (.outOfBounds i xs.length))

/-- The difference of two indices. -/
def minus (left right : ℕ) : Checked ℕ :=
  if right ≤ left then .ok (left - right) else .error (.fault (.belowZero left right))

/-- The entries in front of the one at `n`. -/
def upTo (xs : List β) (n : ℕ) : Checked (List β) :=
  if n ≤ xs.length then .ok (xs.take n) else .error (.fault (.outOfBounds n xs.length))

/-- The entries from the one at `n` on. -/
def onwards (xs : List β) (n : ℕ) : Checked (List β) :=
  if n ≤ xs.length then .ok (xs.drop n) else .error (.fault (.outOfBounds n xs.length))

/-- The answer of a computation without accesses. -/
def refuse (x : Except Error β) : Checked β := x.mapError .refused

/-! ## Where they succeed -/

@[simp] theorem ok_bind {ε : Type} (b : β) (f : β → Except ε γ) : (Except.ok b >>= f) = f b := rfl

@[simp] theorem pure_eq {ε : Type} (b : β) : (pure b : Except ε β) = .ok b := rfl

@[simp] theorem map_ok {ε : Type} (f : β → γ) (b : β) :
    f <$> (.ok b : Except ε β) = .ok (f b) := rfl

/-- An index in range is read. -/
theorem get_of_lt {xs : List β} {i : ℕ} (h : i < xs.length) : get xs i = .ok xs[i] := by
  rw [get, List.getElem?_eq_getElem h]

/-- An index in range is read, whatever the default would be. -/
theorem get_getD {xs : List β} {i : ℕ} (h : i < xs.length) (d : β) :
    get xs i = .ok (xs.getD i d) := by
  rw [get_of_lt h, List.getD_eq_getElem xs d h]

/-- Reading a list that has been mapped. -/
theorem get_map (f : β → γ) {xs : List β} {i : ℕ} (h : i < xs.length) (d : β) :
    get (xs.map f) i = .ok (f (xs.getD i d)) := by
  rw [get_of_lt (by rwa [List.length_map]), List.getElem_map, List.getD_eq_getElem xs d h]

/-- A list is the list of its entries. -/
theorem map_getD_range (xs : List β) (d : β) :
    (List.range xs.length).map (xs.getD · d) = xs := by
  refine List.ext_getElem (by simp) fun k hk _ => ?_
  rw [List.length_map, List.length_range] at hk
  simp [hk]

/-- An entry in front of which there are `i` others. -/
@[simp] theorem get_append {front : List β} {i : ℕ} (h : front.length = i) (x : β)
    (back : List β) : get (front ++ x :: back) i = .ok x := by
  subst h
  rw [get, List.getElem?_append_right le_rfl, Nat.sub_self, List.getElem?_cons_zero]

/-- An index in range is written. -/
theorem put_of_lt {xs : List β} {i : ℕ} (h : i < xs.length) (x : β) :
    put xs i x = .ok (xs.set i x) := if_pos h

/-- Writing the place behind a front part. -/
@[simp] theorem put_append {front : List β} {i : ℕ} (h : front.length = i) (x y : β)
    (back : List β) : put (front ++ x :: back) i y = .ok (front ++ y :: back) := by
  subst h
  have hlt : front.length < (front ++ x :: back).length := by simp
  rw [put_of_lt hlt, List.set_append_right _ _ le_rfl, Nat.sub_self, List.set_cons_zero]

/-- A smaller number is taken off. -/
theorem minus_of_le {left right : ℕ} (h : right ≤ left) : minus left right = .ok (left - right) :=
  if_pos h

/-- The place of the last entry. -/
theorem minus_length_concat (front : List β) (x : β) :
    minus (front ++ [x]).length 1 = .ok front.length := by
  rw [minus_of_le (by simp), List.length_append, List.length_singleton, Nat.add_sub_cancel]

/-- A slice up to a place in range. -/
theorem upTo_of_le {xs : List β} {n : ℕ} (h : n ≤ xs.length) : upTo xs n = .ok (xs.take n) :=
  if_pos h

/-- A slice from a place in range. -/
theorem onwards_of_le {xs : List β} {n : ℕ} (h : n ≤ xs.length) :
    onwards xs n = .ok (xs.drop n) := if_pos h

/-! ## Loops -/

/-- Entries are computed one by one, and some of them left out. -/
theorem filterMapM_eq {f : β → Checked (Option γ)} {g : β → Option γ} {xs : List β}
    (h : ∀ x ∈ xs, f x = .ok (g x)) : xs.filterMapM f = .ok (xs.filterMap g) := by
  induction xs with
  | nil => rfl
  | cons x xs ih =>
      rw [List.forall_mem_cons] at h
      rw [List.filterMapM_cons, h.1, ok_bind, List.filterMap_cons, ih h.2]
      cases g x <;> rfl

/-- A loop whose steps all succeed, on what they keep: it goes through the
views of the states of another loop. -/
theorem foldlM_view {step : γ → β → Checked γ} {f : δ → β → δ} (view : δ → γ) (Inv : δ → Prop)
    {xs : List β}
    (h : ∀ x ∈ xs, ∀ s, Inv s → step (view s) x = .ok (view (f s x)) ∧ Inv (f s x)) {s : δ}
    (hs : Inv s) : xs.foldlM step (view s) = .ok (view (xs.foldl f s)) := by
  induction xs generalizing s with
  | nil => rfl
  | cons x xs ih =>
      rw [List.forall_mem_cons] at h
      obtain ⟨hstep, hinv⟩ := h.1 s hs
      rw [List.foldlM_cons, hstep, ok_bind, List.foldl_cons]
      exact ih h.2 hinv

/-- **A loop whose steps succeed** is the loop without checks. -/
theorem foldlM_eq {step : γ → β → Checked γ} {f : γ → β → γ} {xs : List β}
    (h : ∀ x ∈ xs, ∀ s, step s x = .ok (f s x)) (s : γ) :
    xs.foldlM step s = .ok (xs.foldl f s) :=
  foldlM_view id (fun _ => True) (fun x hx s _ => ⟨h x hx s, trivial⟩) trivial

/-- Consecutive entries. -/
theorem mapM_get (front mid back : List β) {i n : ℕ} (hi : front.length = i)
    (hn : mid.length = n) : (List.range' i n).mapM (get (front ++ mid ++ back)) = .ok mid := by
  induction mid generalizing front i n with
  | nil =>
      subst hn
      rfl
  | cons x mid ih =>
      subst hn hi
      have hrest := ih (front ++ [x]) (i := front.length + 1) (by simp) rfl
      rw [List.append_assoc front, List.singleton_append] at hrest
      rw [List.length_cons, List.range'_succ, List.mapM_cons, List.append_assoc, List.cons_append,
        get_append rfl, ok_bind]
      rw [List.append_assoc, List.cons_append] at hrest
      rw [hrest]
      rfl

/-! ## Answers -/

/-- What has been computed is handed on. -/
@[simp] theorem refuse_ok (b : β) : refuse (.ok b) = .ok b := rfl

/-- Handing errors on goes step by step. -/
theorem refuse_bind (x : Except Error β) (f : β → Except Error γ) :
    refuse (x >>= f) = refuse x >>= fun b => refuse (f b) := by
  cases x <;> rfl

end Checked

end Univariate
