import Univariate.Proofs.Json.Literals

/-!
# The scanner and the words of the grammar

A word that is spelled is scanned as itself, if it is not a number that
what follows could go on with, and punctuation could not.  A text that is
spelled in words that stay apart is therefore scanned into them, whatever
text comes after it.

* `Json.scanToken_append`, `Json.word_of_scanToken` — one word;
* `Json.scan_append` — the words of a text, and of what follows it;
* `Json.spelled_of_scan` — what is scanned is spelled;
* `Json.Spelled.word_of_head` — the first word, after spacing.
-/

namespace Univariate

namespace Json

open Decimal (isDigit)

variable {cs rest body : List Char} {t : Token} {ts us : List Token}

/-! ## Words -/

/-- A number is the only word that starts with a minus or a digit. -/
theorem scanToken_number {c : Char} (hc : c = '-' ∨ isDigit c = true) :
    scanToken (c :: rest) = (scanNumber (c :: rest)).map fun scanned =>
      (.number scanned.1, scanned.2) := by
  have hne : ∀ d, d ≠ '-' → isDigit d = false → c ≠ d := by
    rintro d hminus hdigit rfl
    rcases hc with rfl | hc
    · exact hminus rfl
    · rw [hdigit] at hc
      cases hc
  rw [scanToken]
  · cases scanNumber (c :: rest) <;> rfl
  all_goals
    exact fun more heq => hne _ (by decide) (by decide) (List.cons.inj heq).1

/-- **A word is scanned as itself**, if it is not a number that what
follows could go on with. -/
theorem scanToken_append (h : Word t body) (hrest : (∃ n, t = .number n) → Stops rest) :
    scanToken (body ++ rest) = some (t, rest) := by
  cases h with
  | number h =>
      have hscan := scanNumber_append h (hrest ⟨_, rfl⟩)
      obtain ⟨c, more, rfl, hc⟩ := h.head
      rw [List.cons_append] at hscan ⊢
      rw [scanToken_number hc, hscan]
      rfl
  | text h =>
      rw [List.cons_append, List.append_assoc, scanToken, List.singleton_append,
        scanPieces_append h]
      rfl
  | _ => rfl

/-- **What is read as a word is one**, and the rest is left. -/
theorem word_of_scanToken (h : scanToken cs = some (t, rest)) :
    ∃ body, cs = body ++ rest ∧ Word t body := by
  unfold scanToken at h
  split at h
  · cases h; exact ⟨_, rfl, .openBrace⟩
  · cases h; exact ⟨_, rfl, .closeBrace⟩
  · cases h; exact ⟨_, rfl, .openBracket⟩
  · cases h; exact ⟨_, rfl, .closeBracket⟩
  · cases h; exact ⟨_, rfl, .colon⟩
  · cases h; exact ⟨_, rfl, .comma⟩
  · cases h; exact ⟨_, rfl, .null⟩
  · cases h; exact ⟨_, rfl, .yes⟩
  · cases h; exact ⟨_, rfl, .no⟩
  · obtain ⟨⟨pieces, more⟩, hpieces, hthen⟩ := Option.bind_eq_some_iff.mp h
    cases hthen
    obtain ⟨body, rfl, hbody⟩ := spellsPieces_of_scanPieces hpieces
    exact ⟨_, by simp, .text hbody⟩
  · obtain ⟨⟨n, more⟩, hnumber, hthen⟩ := Option.bind_eq_some_iff.mp h
    cases hthen
    obtain ⟨body, rfl, hbody⟩ := spellsNumber_of_scanNumber hnumber
    exact ⟨body, rfl, .number hbody⟩

/-- No number begins with spacing. -/
theorem not_isSpacing {c : Char} (hc : c = '-' ∨ isDigit c = true) : isSpacing c = false := by
  by_contra h
  rw [Bool.not_eq_false] at h
  simp only [isSpacing, Bool.or_eq_true, beq_iff_eq] at h
  rcases h with ((rfl | rfl) | rfl) | rfl <;> exact absurd hc (by decide)

/-- Words start with something other than spacing. -/
theorem Word.head (h : Word t body) : ∃ c more, body = c :: more ∧ isSpacing c = false := by
  cases h with
  | number h =>
      obtain ⟨c, more, rfl, hc⟩ := h.head
      exact ⟨c, more, rfl, not_isSpacing hc⟩
  | _ => exact ⟨_, _, rfl, rfl⟩

/-- Punctuation cannot go on with a number. -/
theorem Word.stops (h : Word t body) (ht : t.IsPunctuation) : Stops (body ++ rest) := by
  cases h with
  | number | text | null | yes | no => cases ht
  | _ =>
      intro c hc
      cases hc
      decide

/-- Neither can spacing. -/
theorem stops_of_isSpacing {c : Char} (hc : isSpacing c = true) : Stops (c :: rest) := by
  intro d hd
  cases hd
  simp only [isSpacing, Bool.or_eq_true, beq_iff_eq] at hc
  rcases hc with ((rfl | rfl) | rfl) | rfl <;> decide

/-! ## Texts of words -/

/-- More fuel than characters makes no difference. -/
theorem scanWithin_eq {fuel fuel' : ℕ} (h : cs.length ≤ fuel) (h' : cs.length ≤ fuel') :
    scanWithin fuel cs = scanWithin fuel' cs := by
  induction fuel generalizing cs fuel' with
  | zero =>
      obtain rfl := List.length_eq_zero_iff.mp (Nat.le_zero.mp h)
      rw [scanWithin, scanWithin]
  | succ fuel ih =>
      cases cs with
      | nil => rw [scanWithin, scanWithin]
      | cons c cs =>
          obtain ⟨fuel', rfl⟩ := Nat.exists_eq_succ_of_ne_zero (Nat.ne_zero_of_lt h')
          have hshort : cs.length ≤ fuel := Nat.le_of_succ_le_succ h
          have hshort' : cs.length ≤ fuel' := Nat.le_of_succ_le_succ h'
          rw [scanWithin, scanWithin, ih hshort hshort']
          split_ifs
          · rfl
          · refine Option.bind_congr fun scanned hscanned => ?_
            obtain ⟨t, rest⟩ := scanned
            -- A word takes at least one character.
            obtain ⟨body, hcs, hword⟩ := word_of_scanToken hscanned
            obtain ⟨d, more, rfl, -⟩ := hword.head
            have hlength := congrArg List.length hcs
            simp only [List.length_cons, List.length_append] at hlength
            have hrest : rest.length ≤ fuel := by omega
            have hrest' : rest.length ≤ fuel' := by omega
            dsimp only
            rw [ih hrest hrest']

/-- Spacing is passed over. -/
theorem scan_spacing {c : Char} (hc : isSpacing c = true) : scan (c :: cs) = scan cs := by
  rw [scan, List.length_cons, scanWithin, if_pos hc, scan]

/-- A word is followed by the others. -/
theorem scan_word (hscan : scanToken cs = some (t, rest)) :
    scan cs = (scan rest).map (t :: ·) := by
  obtain ⟨body, rfl, hword⟩ := word_of_scanToken hscan
  obtain ⟨c, more, rfl, hc⟩ := hword.head
  rw [List.cons_append] at hscan ⊢
  have hlength : rest.length ≤ (more ++ rest).length := by
    rw [List.length_append]
    omega
  rw [scan, List.length_cons, scanWithin, if_neg (by rw [hc]; exact Bool.false_ne_true), hscan,
    Option.bind_eq_bind, Option.bind_some]
  dsimp only
  rw [scanWithin_eq hlength le_rfl, ← scan]
  cases scan rest <;> rfl

/-- After a number comes something that stops it. -/
theorem Spelled.stops (h : Spelled ts cs) (hsep : (t :: ts).IsChain Token.Apart)
    (ht : ∃ n, t = .number n) (hlast : ts = [] → Stops rest) : Stops (cs ++ rest) := by
  cases h with
  | nil => exact hlast rfl
  | spacing hc _ => exact stops_of_isSpacing hc
  | word hw _ =>
      rw [List.append_assoc]
      refine hw.stops ?_
      obtain ⟨n, rfl⟩ := ht
      rcases List.isChain_cons_cons.mp hsep with ⟨hapart | hapart, -⟩
      · cases hapart
      · exact hapart

/-- **A text of words that stay apart is scanned into them**, and then what
follows it, unless that goes on with a number at the end. -/
theorem scan_append (h : Spelled ts cs) (hsep : ts.IsChain Token.Apart)
    (hlast : ∀ n, ts.getLast? = some (.number n) → Stops rest) :
    scan (cs ++ rest) = (scan rest).map (ts ++ ·) := by
  induction h with
  | nil => cases hscan : scan rest <;> simp [hscan]
  | spacing hc _ ih =>
      rw [List.cons_append, scan_spacing hc]
      exact ih hsep hlast
  | @word t ts body cs hw h ih =>
      have hscan : scanToken (body ++ (cs ++ rest)) = some (t, cs ++ rest) := by
        refine scanToken_append hw fun ht => h.stops hsep ht ?_
        rintro rfl
        obtain ⟨n, rfl⟩ := ht
        exact hlast n rfl
      have hlater : ∀ n, ts.getLast? = some (.number n) → Stops rest := by
        intro n hn
        refine hlast n ?_
        rw [List.getLast?_cons, hn]
        rfl
      rw [List.append_assoc, scan_word hscan, ih hsep.of_cons hlater, Option.map_map]
      rfl

/-- **A spelling is read as its tokens**, if no two words run together. -/
theorem scan_of_spelled (h : Spelled ts cs) (hsep : ts.IsChain Token.Apart) :
    scan cs = some ts := by
  have hscan : scan (cs ++ []) = (scan []).map (ts ++ ·) :=
    scan_append h hsep fun _ _ _ hc => nomatch hc
  rw [List.append_nil] at hscan
  rw [hscan]
  exact congrArg some (List.append_nil ts)

/-- What is read within a bound is a spelling. -/
theorem spelled_of_scanWithin {fuel : ℕ} (h : scanWithin fuel cs = some ts) : Spelled ts cs := by
  induction fuel generalizing cs ts with
  | zero =>
      cases cs with
      | nil =>
          cases h
          exact .nil
      | cons c cs => cases h
  | succ fuel ih =>
      cases cs with
      | nil =>
          cases h
          exact .nil
      | cons c cs =>
          rw [scanWithin] at h
          split_ifs at h with hc
          · exact .spacing hc (ih h)
          · obtain ⟨⟨t, rest⟩, hscan, hthen⟩ := Option.bind_eq_some_iff.mp h
            obtain ⟨later, hlater, hthen⟩ := Option.bind_eq_some_iff.mp hthen
            cases hthen
            obtain ⟨body, hcs, hword⟩ := word_of_scanToken hscan
            rw [hcs]
            exact .word hword (ih hlater)

/-- **What is scanned is spelled.** -/
theorem spelled_of_scan (h : scan cs = some ts) : Spelled ts cs :=
  spelled_of_scanWithin h

/-- The first word comes after spacing. -/
theorem Spelled.exists_head (h : Spelled (t :: ts) cs) :
    ∃ spaces body rest, cs = spaces ++ (body ++ rest) ∧ (∀ d ∈ spaces, isSpacing d = true) ∧
      Word t body := by
  generalize hts : t :: ts = us at h
  induction h with
  | nil => cases hts
  | @spacing _ c _ hc _ ih =>
      obtain ⟨spaces, body, rest, rfl, hspaces, hw⟩ := ih hts
      exact ⟨c :: spaces, body, rest, rfl, List.forall_mem_cons.mpr ⟨hc, hspaces⟩, hw⟩
  | @word _ _ body cs hw _ _ =>
      cases hts
      exact ⟨[], body, cs, rfl, nofun, hw⟩

/-- After spacing the first word starts. -/
theorem Spelled.word_of_head {spaces rest : List Char} {c : Char}
    (h : Spelled ts (spaces ++ c :: rest)) (hspaces : ∀ d ∈ spaces, isSpacing d = true)
    (hc : isSpacing c = false) : ∃ t us more, ts = t :: us ∧ Word t (c :: more) := by
  generalize hcs : spaces ++ c :: rest = cs at h
  induction h generalizing spaces with
  | nil => cases spaces <;> cases hcs
  | spacing hd _ ih =>
      cases spaces with
      | nil =>
          cases hcs
          rw [hc] at hd
          cases hd
      | cons e spaces =>
          cases hcs
          exact ih (fun d hmem => hspaces d (List.mem_cons_of_mem _ hmem)) rfl
  | @word t tokens _ _ hw _ _ =>
      obtain ⟨d, more, rfl, hd⟩ := hw.head
      cases spaces with
      | nil =>
          obtain ⟨rfl, -⟩ := List.cons.inj hcs
          exact ⟨t, tokens, more, rfl, hw⟩
      | cons e spaces =>
          obtain ⟨rfl, -⟩ := List.cons.inj hcs
          rw [hspaces _ List.mem_cons_self] at hd
          cases hd

end Json

end Univariate
