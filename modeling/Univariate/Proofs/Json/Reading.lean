import Univariate.Proofs.Json.Words

/-!
# Reading is the grammar

A text is read as a value exactly if the grammar derives that value from
the words of the text.  A derivation drives the reader from any stack to
the stack with the value delivered to it; and the stack of the reader
records, frame by frame, how far a derivation has come.

* `Json.Runs`, `Json.Part.Reads` — what the reader does with a part;
* `Json.Awaits`, `Json.Stage.Sound` — the derivations that a stage stands
  for, kept by every word (`Stage.Sound.step`);
* `Json.parse?_eq_some_iff` — reading and the grammar agree;
* `Json.Written.rest_isSpacing` — a text that goes on after its value is no
  text of a value;
* `Json.Written.number_append` — unless both are numbers.
-/

namespace Univariate

namespace Json

variable {s s' s'' : Stage} {t : Token} {ts us vs : List Token} {stack : List Frame} {v w : Json}

/-- The words lead from one stage to another. -/
def Runs (s : Stage) (ts : List Token) (s' : Stage) : Prop := ts.foldlM Stage.step s = some s'

/-- One token more in front. -/
theorem Runs.cons (h : s.step t = some s') (hs : Runs s' ts s'') : Runs s (t :: ts) s'' := by
  rw [Runs, List.foldlM_cons, h]
  exact hs

/-- Runs follow one another. -/
theorem Runs.append (h : Runs s ts s') (hs : Runs s' us s'') : Runs s (ts ++ us) s'' := by
  rw [Runs, List.foldlM_append, show ts.foldlM Stage.step s = some s' from h]
  exact hs

/-- A single token. -/
theorem Runs.single (h : s.step t = some s') : Runs s [t] s' := Runs.cons h rfl

/-! ## The reader follows a derivation -/

/-- From every stack that is ready for it, the words of a part lead to the
stack with the part on it. -/
def Part.Reads : Part → List Token → Prop
  | .value v, ts => ∀ stack, Runs (.value stack) ts (.deliver v stack)
  | .items vs, ts => ∀ before stack,
      Runs (.value (.items before :: stack)) ts (.afterItem (vs.reverse ++ before) stack)
  | .members ms, ts => ∀ before stack,
      Runs (.furtherKey before stack) ts (.afterMember (ms.reverse ++ before) stack)

/-- A run begins with a step. -/
theorem Runs.exists_step (h : Runs s (t :: ts) s'') :
    ∃ s', s.step t = some s' ∧ Runs s' ts s'' := by
  rw [Runs, List.foldlM_cons] at h
  exact Option.bind_eq_some_iff.mp h

/-- The first item of an array is read like any other. -/
theorem Runs.firstItem {before : List Json}
    (h : Runs (.value (.items [] :: stack)) ts (.afterItem before stack)) :
    Runs (.firstItem stack) ts (.afterItem before stack) := by
  cases ts with
  | nil => cases h
  | cons t ts =>
      obtain ⟨s', hstep, hlater⟩ := h.exists_step
      have hfirst : Stage.step (.firstItem stack) t = some s' := by
        cases t with
        | closeBracket => cases hstep
        | _ => exact hstep
      exact .cons hfirst hlater

/-- The first key of an object is read like any other. -/
theorem Runs.firstKey {before : Members}
    (h : Runs (.furtherKey [] stack) ts (.afterMember before stack)) :
    Runs (.firstKey stack) ts (.afterMember before stack) := by
  cases ts with
  | nil => cases h
  | cons t ts =>
      obtain ⟨s', hstep, hlater⟩ := h.exists_step
      have hfirst : Stage.step (.firstKey stack) t = some s' := by
        cases t with
        | text pieces => exact hstep
        | _ => cases hstep
      exact .cons hfirst hlater

/-- **The reader follows every derivation.** -/
theorem Derives.reads {part : Part} (h : Derives part ts) : part.Reads ts := by
  induction h with
  | null => exact fun stack => .single rfl
  | bool b => exact fun stack => .single rfl
  | number n => exact fun stack => .single rfl
  | text pieces => exact fun stack => .single rfl
  | emptyArray => exact fun stack => .cons rfl (.single rfl)
  | emptyObject => exact fun stack => .cons rfl (.single rfl)
  | @array vs ts _ ih =>
      intro stack
      have hitems := (ih [] stack).firstItem
      refine .cons rfl (hitems.append (.single ?_))
      rw [List.append_nil]
      exact congrArg (fun vs => some (Stage.deliver (.array vs) stack)) vs.reverse_reverse
  | @object ms ts _ ih =>
      intro stack
      have hmembers := (ih [] stack).firstKey
      refine .cons rfl (hmembers.append (.single ?_))
      rw [List.append_nil]
      exact congrArg (fun ms => some (Stage.deliver (.object ms) stack)) ms.reverse_reverse
  | item _ ih => exact fun before stack => ih (.items before :: stack)
  | moreItems _ _ ih ihs =>
      intro before stack
      refine (ih (.items before :: stack)).append (.cons rfl ?_)
      rw [List.reverse_cons, List.append_assoc]
      exact ihs _ stack
  | member _ ih => exact fun before stack => .cons rfl (.cons rfl (ih (.member before _ :: stack)))
  | moreMembers _ _ ih ihs =>
      intro before stack
      refine .cons rfl (.cons rfl ((ih (.member before _ :: stack)).append (.cons rfl ?_)))
      rw [List.reverse_cons, List.append_assoc]
      exact ihs _ stack

/-! ## A derivation follows the reader -/

/-- Another value and a comma. -/
theorem Derives.concat_item {before : List Json} (h : Derives (.items before) us)
    (hv : Derives (.value v) vs) : Derives (.items (before ++ [v])) (us ++ .comma :: vs) := by
  generalize hpart : Part.items before = part at h
  induction h generalizing before with
  | item h _ =>
      cases hpart
      exact .moreItems h (.item hv)
  | moreItems h _ _ ih =>
      cases hpart
      rw [List.append_assoc]
      exact .moreItems h (ih rfl)
  | _ => cases hpart

/-- Another member and a comma. -/
theorem Derives.concat_member {before : List (List Piece × Json)} (key : List Piece)
    (h : Derives (.members before) us) (hv : Derives (.value v) vs) :
    Derives (.members (before ++ [(key, v)])) (us ++ .comma :: .text key :: .colon :: vs) := by
  generalize hpart : Part.members before = part at h
  induction h generalizing before with
  | member h _ =>
      cases hpart
      exact .moreMembers h (.member hv)
  | moreMembers h _ _ ih =>
      cases hpart
      rw [List.cons_append, List.cons_append, List.cons_append, List.append_assoc]
      exact .moreMembers h (ih rfl)
  | _ => cases hpart

/-- The words lead to the stack, and a value comes next. -/
inductive Awaits : List Frame → List Token → Prop
  | start : Awaits [] []
  | firstItem {stack : List Frame} {ts : List Token} (h : Awaits stack ts) :
      Awaits (.items [] :: stack) (ts ++ [.openBracket])
  | item {stack : List Frame} {before : List Json} {ts us : List Token} (h : Awaits stack ts)
      (hs : Derives (.items before.reverse) us) :
      Awaits (.items before :: stack) (ts ++ .openBracket :: us ++ [.comma])
  | firstMember {stack : List Frame} {ts : List Token} (key : List Piece) (h : Awaits stack ts) :
      Awaits (.member [] key :: stack) (ts ++ [.openBrace, .text key, .colon])
  | member {stack : List Frame} {before : Members} {ts us : List Token} (key : List Piece)
      (h : Awaits stack ts) (hs : Derives (.members before.reverse) us) :
      Awaits (.member before key :: stack) (ts ++ .openBrace :: us ++ [.comma, .text key, .colon])

/-- The words that have led to a stage are a beginning of a derivation. -/
def Stage.Sound : Stage → List Token → Prop
  | .value stack, ts => Awaits stack ts
  | .firstItem stack, ts => ∃ us, ts = us ++ [.openBracket] ∧ Awaits stack us
  | .firstKey stack, ts => ∃ us, ts = us ++ [.openBrace] ∧ Awaits stack us
  | .furtherKey before stack, ts => ∃ us vs, ts = us ++ .openBrace :: vs ++ [.comma] ∧
      Awaits stack us ∧ Derives (.members before.reverse) vs
  | .afterKey before key stack, ts => Awaits (.member before key :: stack) (ts ++ [.colon])
  | .afterItem before stack, ts => ∃ us vs, ts = us ++ .openBracket :: vs ∧ Awaits stack us ∧
      Derives (.items before.reverse) vs
  | .afterMember before stack, ts => ∃ us vs, ts = us ++ .openBrace :: vs ∧ Awaits stack us ∧
      Derives (.members before.reverse) vs
  | .finished v, ts => Derives (.value v) ts

/-- **A value that is delivered completes what waited for it.** -/
theorem Awaits.deliver (h : Awaits stack us) (hv : Derives (.value v) vs) :
    (Stage.deliver v stack).Sound (us ++ vs) := by
  cases h with
  | start => exact hv
  | @firstItem stack ts h => exact ⟨ts, vs, by simp, h, .item hv⟩
  | @item stack before ts us h hs =>
      refine ⟨ts, us ++ .comma :: vs, by simp, h, ?_⟩
      rw [List.reverse_cons]
      exact hs.concat_item hv
  | @firstMember stack ts key h =>
      exact ⟨ts, .text key :: .colon :: vs, by simp, h, .member hv⟩
  | @member stack before ts us key h hs =>
      refine ⟨ts, us ++ .comma :: .text key :: .colon :: vs, by simp, h, ?_⟩
      rw [List.reverse_cons]
      exact hs.concat_member key hv

/-- The word with which a value starts. -/
theorem Awaits.begin (h : Awaits stack ts) (hstep : Stage.beginValue stack t = some s) :
    s.Sound (ts ++ [t]) := by
  cases t with
  | null => cases hstep; exact h.deliver .null
  | bool b => cases hstep; exact h.deliver (.bool b)
  | number n => cases hstep; exact h.deliver (.number n)
  | text pieces => cases hstep; exact h.deliver (.text pieces)
  | openBracket => cases hstep; exact ⟨ts, rfl, h⟩
  | openBrace => cases hstep; exact ⟨ts, rfl, h⟩
  | _ => cases hstep

/-- **Every word keeps the derivation going.** -/
theorem Stage.Sound.step (h : s.Sound ts) (hstep : s.step t = some s') : s'.Sound (ts ++ [t]) := by
  unfold Stage.step at hstep
  split at hstep
  · exact Awaits.begin h hstep
  · cases hstep
    obtain ⟨us, rfl, hstack⟩ := h
    rw [List.append_assoc]
    exact hstack.deliver .emptyArray
  · obtain ⟨us, rfl, hstack⟩ := h
    exact Awaits.begin (.firstItem hstack) hstep
  · cases hstep
    obtain ⟨us, rfl, hstack⟩ := h
    rw [List.append_assoc]
    exact hstack.deliver .emptyObject
  · next stack pieces =>
      cases hstep
      obtain ⟨us, rfl, hstack⟩ := h
      have hkey := Awaits.firstMember pieces hstack
      simpa [Stage.Sound] using hkey
  · next before stack pieces =>
      cases hstep
      obtain ⟨us, vs, rfl, hstack, hmembers⟩ := h
      have hkey := Awaits.member pieces hstack hmembers
      simpa [Stage.Sound] using hkey
  · cases hstep
    exact h
  · next before stack =>
      cases hstep
      obtain ⟨us, vs, rfl, hstack, hitems⟩ := h
      exact .item hstack hitems
  · cases hstep
    obtain ⟨us, vs, rfl, hstack, hitems⟩ := h
    have hvalue := hstack.deliver (.array hitems)
    simpa using hvalue
  · next before stack =>
      cases hstep
      obtain ⟨us, vs, rfl, hstack, hmembers⟩ := h
      exact ⟨us, vs, rfl, hstack, hmembers⟩
  · cases hstep
    obtain ⟨us, vs, rfl, hstack, hmembers⟩ := h
    have hvalue := hstack.deliver (.object hmembers)
    simpa using hvalue
  · cases hstep

/-- **What every token keeps, a run keeps.** -/
theorem Stage.Sound.run (h : s.Sound us) (hrun : Runs s ts s') : s'.Sound (us ++ ts) := by
  induction ts generalizing s us with
  | nil =>
      cases hrun
      rwa [List.append_nil]
  | cons t ts ih =>
      obtain ⟨next, hstep, hlater⟩ := hrun.exists_step
      rw [List.append_cons]
      exact ih (h.step hstep) hlater

/-- **The words of a value are those that the reader takes for it.** -/
theorem derives_iff_runs : Derives (.value v) ts ↔ Runs (.value []) ts (.finished v) := by
  constructor
  · exact fun h => h.reads []
  · intro h
    have hsound : Stage.Sound (.value []) [] := Awaits.start
    exact hsound.run h

/-! ## Texts -/

/-- Only a finished reader has a result. -/
theorem result?_eq_some_iff : s.result? = some v ↔ s = .finished v := by
  cases s <;> simp [Stage.result?]

/-- **A text is read as the value that it writes**, and no other text is
read as anything. -/
theorem parse?_eq_some_iff (text : String) (v : Json) :
    parse? text = some v ↔ Written v text.toList := by
  rw [parse?]
  constructor
  · intro h
    obtain ⟨tokens, hscan, h⟩ := Option.bind_eq_some_iff.mp h
    obtain ⟨stage, hrun, hresult⟩ := Option.bind_eq_some_iff.mp h
    obtain rfl := result?_eq_some_iff.mp hresult
    exact ⟨tokens, spelled_of_scan hscan, derives_iff_runs.mpr hrun⟩
  · intro h
    obtain ⟨tokens, hspelled, hderives⟩ := h
    have hrun : tokens.foldlM Stage.step (.value []) = some (.finished v) :=
      derives_iff_runs.mp hderives
    rw [scan_of_spelled hspelled hderives.separated, Option.bind_eq_bind, Option.bind_some, hrun]
    rfl

/-- **A text writes one value.** -/
theorem Written.unique {cs : List Char} (h : Written v cs) (h' : Written w cs) : v = w := by
  have hv := (parse?_eq_some_iff (String.ofList cs) v).mpr (by rwa [String.toList_ofList])
  have hw := (parse?_eq_some_iff (String.ofList cs) w).mpr (by rwa [String.toList_ofList])
  exact Option.some.inj (hv.symm.trans hw)

/-- **A value ends where it ends.**  Unless it is a number, whatever follows
it in a text of a value is spacing. -/
theorem Written.rest_isSpacing {cs rest : List Char} (h : Written v cs)
    (hv : ∀ n, v ≠ .number n) (h' : Written w (cs ++ rest)) : ∀ c ∈ rest, isSpacing c = true := by
  obtain ⟨ts, hts, hderives⟩ := h
  obtain ⟨all, hall, hderives'⟩ := h'
  have hlast : ∀ n, ts.getLast? = some (.number n) → Stops rest := by
    intro n hn
    obtain ⟨us, t, rfl, ht⟩ := hderives.last hv
    rw [List.getLast?_concat] at hn
    exact absurd (Option.some.inj hn) (ht n)
  have hscan := scan_append hts hderives.separated hlast
  rw [scan_of_spelled hall hderives'.separated] at hscan
  obtain ⟨later, hlater, rfl⟩ := Option.map_eq_some_iff.mp hscan.symm
  -- The reader has finished with the value and takes no more words.
  have hrun : Runs (.value []) (ts ++ later) (.finished w) := derives_iff_runs.mp hderives'
  cases later with
  | nil => exact isSpacing_of_spelled_nil (spelled_of_scan hlater)
  | cons t later =>
      rw [Runs, List.foldlM_append,
        show ts.foldlM Stage.step _ = some (.finished v) from derives_iff_runs.mp hderives] at hrun
      cases hrun

/-- **What starts with a number is a number**, or it is no value. -/
theorem Written.number_append {n : Literal} {cs rest : List Char} (h : Written (.number n) cs)
    (h' : Written w (cs ++ rest)) : ∃ m, w = .number m := by
  obtain ⟨ts, hts, hderives⟩ := h
  obtain ⟨all, hall, hderives'⟩ := h'
  cases hderives
  obtain ⟨spaces, body, more, rfl, hspaces, ⟨⟩⟩ := hts.exists_head
  next hn =>
  obtain ⟨c, digits, rfl, hc⟩ := hn.head
  rw [List.append_assoc] at hall
  obtain ⟨t, us, word, rfl, hw⟩ := hall.word_of_head hspaces (not_isSpacing hc)
  obtain ⟨m, rfl⟩ : ∃ m, t = .number m := by
    cases hw with
    | number h => exact ⟨_, rfl⟩
    | _ => exact absurd hc (by decide)
  cases hderives'
  exact ⟨m, rfl⟩

end Json

end Univariate
