import Univariate.Proofs.Expr.Completeness
import Univariate.Proofs.Expr.Soundness

/-!
# What the parser accepts

A text is looked at twice before its tokens are read: whether it holds
anything but blanks, and whether its parentheses have partners.  Neither
look refuses a text that the grammar accepts, because every token contains
a character that is no blank, parentheses are tokens of their own, and the
tokens of a derivation are balanced.

* `depthAfter`, `Derives.depthAfter_append` — derivations are balanced;
* `openParens_of_lexFrom` — the parentheses of a text are those of its
  tokens;
* `exists_not_isBlank` — a text with a token is not blank;
* `parse_eq_ok_iff` — the parser accepts exactly the texts that its grammar
  derives, each with one tree.
-/

namespace Univariate

/-! ## Characters -/

namespace Text

/-- No blank is a letter: the ranges of the two classes lie apart. -/
theorem isAlphabetic_of_isBlank {c : Char} (h : isBlank c = true) : isAlphabetic c = false := by
  have hapart : ∀ r ∈ blankRanges, ∀ s ∈ alphabeticRanges, r.2 < s.1 ∨ s.2 < r.1 := by
    decide +kernel
  obtain ⟨r, hr, hrange⟩ := (isBlank_iff c).mp h
  rw [Bool.eq_false_iff, ne_eq, isAlphabetic_iff]
  rintro ⟨s, hs, hrange'⟩
  have hrs := hapart r hr s hs
  omega

/-- Trimming leaves nothing exactly of blanks. -/
theorem trim_eq_nil_iff (text : List Char) :
    trim text = [] ↔ ∀ c ∈ text, isBlank c = true := by
  rw [trim, List.reverse_eq_nil_iff, List.dropWhile_eq_nil_iff]
  constructor
  · intro h c hc
    by_contra hblank
    rw [← List.takeWhile_append_dropWhile (p := isBlank) (l := text)] at hc
    rcases List.mem_append.mp hc with hc | hc
    · exact hblank (List.mem_takeWhile_imp hc)
    · exact hblank (h c (List.mem_reverse.mpr hc))
  · intro h c hc
    exact h c (List.dropWhile_sublist _ |>.mem (List.mem_reverse.mp hc))

end Text

/-- The character is no parenthesis. -/
def Plain (c : Char) : Prop := c ≠ '(' ∧ c ≠ ')'

instance : DecidablePred Plain := fun c => inferInstanceAs (Decidable (c ≠ '(' ∧ c ≠ ')'))

/-- What has a property that neither parenthesis has is none. -/
theorem plain_of {p : Char → Bool} {c : Char} (hopen : p '(' = false) (hclose : p ')' = false)
    (h : p c = true) : Plain c := by
  constructor
  · intro hc
    rw [hc, hopen] at h
    cases h
  · intro hc
    rw [hc, hclose] at h
    cases h

namespace Token

/-- No digit is a parenthesis. -/
theorem plain_of_isDigit {c : Char} (h : Decimal.isDigit c = true) : Plain c :=
  plain_of (by decide) (by decide) h

/-- Neither is the point of a number. -/
theorem plain_of_isMantissa {c : Char} (h : isMantissa c = true) : Plain c :=
  plain_of (by decide) (by decide) h

/-- No character of a name is a parenthesis. -/
theorem plain_of_continuesName {c : Char} (h : continuesName c = true) : Plain c :=
  plain_of (by decide) (by decide) h

/-- No digit is a blank, and neither is a point. -/
theorem not_isBlank_of_isMantissa {c : Char} (h : isMantissa c = true) :
    Text.isBlank c = false := by
  have hapart : ∀ r ∈ Text.blankRanges, r.2 < 46 ∨ 57 < r.1 := by decide
  have hmantissa : 46 ≤ c.toNat ∧ c.toNat ≤ 57 := by
    simp only [isMantissa, Decimal.isDigit, Bool.or_eq_true, Bool.and_eq_true,
      decide_eq_true_eq, beq_iff_eq] at h
    rcases h with ⟨hlow, hhigh⟩ | rfl
    · have hzero : 48 ≤ c.toNat := hlow
      exact ⟨by omega, hhigh⟩
    · decide
  rw [Bool.eq_false_iff, ne_eq, Text.isBlank_iff]
  rintro ⟨r, hr, hrange⟩
  have hr46 := hapart r hr
  omega

/-- No name begins with a blank. -/
theorem not_isBlank_of_startsName {c : Char} (h : startsName c = true) :
    Text.isBlank c = false := by
  by_contra hblank
  have hletter := Text.isAlphabetic_of_isBlank (c := c) (by simpa using hblank)
  rw [startsName, hletter, Bool.false_or, beq_iff_eq] at h
  subst h
  exact hblank (by decide)

/-- No operator is a blank. -/
theorem not_isBlank_of_ofChar? {c : Char} {token : Token} (h : ofChar? c = some token) :
    Text.isBlank c = false := by
  unfold ofChar? at h
  split at h <;> first | decide | cases h

/-! ## Words -/

theorem of_mem_take_takeWhile {p : Char → Bool} {c : Char} {cs : List Char}
    (h : c ∈ cs.take (cs.takeWhile p).length) : p c = true := by
  rw [← List.prefix_iff_eq_take.mp (List.takeWhile_prefix p)] at h
  exact List.mem_takeWhile_imp h

/-- An exponent holds no parenthesis. -/
theorem plain_of_mem_exponent {c : Char} {cs : List Char}
    (h : c ∈ cs.take (exponentLength cs)) : Plain c := by
  cases cs with
  | nil => cases h
  | cons mark rest =>
      simp only [exponentLength] at h
      split_ifs at h with hmark hdigits
      · cases h
      · rw [add_assoc, add_comm 1, List.take_succ_cons, List.mem_cons, List.take_add,
          List.mem_append] at h
        rcases h with rfl | hsign | hdigit
        · exact plain_of (p := fun c => c == 'e' || c == 'E') (by decide) (by decide) hmark
        · split at hsign
          · rw [List.take_succ_cons, List.take_zero, List.mem_singleton] at hsign
            subst hsign
            decide
          · rw [List.take_succ_cons, List.take_zero, List.mem_singleton] at hsign
            subst hsign
            decide
          · cases hsign
        · exact plain_of_isDigit (of_mem_take_takeWhile hdigit)
      · cases h

/-- A number holds no parenthesis. -/
theorem plain_of_mem_number {c : Char} {cs : List Char} (h : c ∈ cs.take (numberLength cs)) :
    Plain c := by
  rw [numberLength, List.take_add, List.mem_append] at h
  rcases h with h | h
  · exact plain_of_isMantissa (of_mem_take_takeWhile h)
  · exact plain_of_mem_exponent h

/-- **No word begins with a blank.** -/
theorem not_isBlank_of_scan {name : List Char} {c : Char} {cs : List Char} {r : Token × ℕ}
    (h : scan name c cs = .ok r) : Text.isBlank c = false := by
  unfold scan at h
  split at h
  · next token htoken => exact not_isBlank_of_ofChar? htoken
  · split_ifs at h with hmantissa hname
    · exact not_isBlank_of_isMantissa hmantissa
    · exact not_isBlank_of_startsName hname

/-- A word is a parenthesis, or neither is one nor holds one. -/
theorem scan_cases {name : List Char} {c : Char} {cs : List Char} {token : Token} {tail : ℕ}
    (h : scan name c cs = .ok (token, tail)) :
    (c = '(' ∧ token = .openParen ∧ tail = 0) ∨ (c = ')' ∧ token = .closeParen ∧ tail = 0) ∨
      ((token ≠ .openParen ∧ token ≠ .closeParen) ∧ ∀ d ∈ c :: cs.take tail, Plain d) := by
  unfold scan at h
  split at h
  · next token' htoken =>
    obtain ⟨rfl, rfl⟩ := Prod.mk.inj (Except.ok.inj h)
    unfold ofChar? at htoken
    split at htoken <;> cases htoken
    · exact Or.inl ⟨rfl, rfl, rfl⟩
    · exact Or.inr (Or.inl ⟨rfl, rfl, rfl⟩)
    all_goals exact Or.inr (Or.inr ⟨⟨nofun, nofun⟩, by simp; decide⟩)
  · refine Or.inr (Or.inr ?_)
    simp only at h
    split_ifs at h with hmantissa hname hvar
    · split at h
      · obtain ⟨rfl, rfl⟩ := Prod.mk.inj (Except.ok.inj h)
        refine ⟨⟨nofun, nofun⟩, fun d hd => ?_⟩
        rcases List.mem_cons.mp hd with rfl | hd
        · exact plain_of_isMantissa hmantissa
        · refine plain_of_mem_number (?_ : d ∈ (c :: cs).take (numberLength (c :: cs)))
          cases hlength : numberLength (c :: cs) with
          | zero =>
              rw [hlength] at hd
              cases hd
          | succ length =>
              rw [hlength] at hd
              exact List.mem_cons_of_mem c hd
      · cases h
    · obtain ⟨rfl, rfl⟩ := Prod.mk.inj (Except.ok.inj h)
      refine ⟨⟨nofun, nofun⟩, fun d hd => ?_⟩
      rcases List.mem_cons.mp hd with rfl | hd
      · exact plain_of_continuesName (by rw [continuesName, hname, Bool.true_or])
      · exact plain_of_continuesName (of_mem_take_takeWhile hd)

end Token

/-! ## Parentheses -/

/-- How many parentheses are open after some tokens, if none is closed
that was not open. -/
def depthAfter (depth : ℕ) : List Token → Option ℕ
  | [] => some depth
  | .openParen :: us => depthAfter (depth + 1) us
  | .closeParen :: us =>
    match depth with
    | 0 => none
    | outer + 1 => depthAfter outer us
  | _ :: us => depthAfter depth us

/-- Only parentheses change the depth. -/
theorem depthAfter_cons {token : Token} (h : token ≠ .openParen ∧ token ≠ .closeParen)
    (depth : ℕ) (us : List Token) : depthAfter depth (token :: us) = depthAfter depth us := by
  cases token with
  | openParen => exact absurd rfl h.1
  | closeParen => exact absurd rfl h.2
  | _ => rfl

/-- **Derivations are balanced.** -/
theorem Derives.depthAfter_append {X : Symbol} {us : List Token} {t : Expr Float}
    (h : Derives X us t) (depth : ℕ) (rest : List Token) :
    depthAfter depth (us ++ rest) = depthAfter depth rest := by
  induction h generalizing depth rest with
  | add _ _ ihl ihr | sub _ _ ihl ihr | mul _ _ ihl ihr | div _ _ ihl ihr | raise _ _ _ ihl ihr =>
      rw [List.append_assoc, ihl, List.cons_append]
      exact ihr depth rest
  | adjacent _ _ ihl ihr => rw [List.append_assoc, ihl, ihr]
  | term _ ih | unary _ ih | power _ ih | atom _ ih | exponent _ ih => exact ih depth rest
  | neg _ ih | pos _ ih | exponentNeg _ ih => exact ih depth rest
  | number value => rfl
  | var => rfl
  | paren _ ih =>
      rw [List.cons_append, List.append_assoc]
      exact ih (depth + 1) _

namespace Expr

/-- Any other character moves the position on. -/
theorem openParens_cons {c : Char} (h : Plain c) (position : ℕ) (waiting : List ℕ)
    (cs : List Char) :
    openParens position waiting (c :: cs) = openParens (position + c.utf8Size) waiting cs := by
  conv_lhs => unfold openParens
  simp only [if_neg h.1, if_neg h.2]

/-- A word without parentheses is passed over. -/
theorem openParens_append (position : ℕ) (waiting : List ℕ) {word : List Char}
    (h : ∀ c ∈ word, Plain c) (cs : List Char) :
    openParens position waiting (word ++ cs) =
      openParens (position + Text.byteLength word) waiting cs := by
  induction word generalizing position with
  | nil => rfl
  | cons c word ih =>
      rw [List.cons_append, openParens_cons (h c List.mem_cons_self),
        ih _ fun d hd => h d (List.mem_cons_of_mem c hd), Text.byteLength_cons, add_assoc]

/-- **The parentheses of a text are those of its tokens.** -/
theorem openParens_of_lexFrom {name cs : List Char} {position d : ℕ} {ls : List Lexeme}
    (hlex : Token.lexFrom name position cs = (ls, none)) (waiting : List ℕ)
    (hdepth : depthAfter waiting.length (ls.map Lexeme.token) = some d) :
    ∃ waiting', openParens position waiting cs = .ok waiting' ∧ waiting'.length = d := by
  fun_induction Token.lexFrom name position cs generalizing ls waiting with
  | case1 position =>
      obtain ⟨rfl, -⟩ := Prod.mk.inj hlex
      exact ⟨waiting, rfl, Option.some.inj hdepth⟩
  | case2 position c cs hspacing ih =>
      have hplain : Plain c := plain_of (by decide) (by decide) hspacing
      rw [openParens_cons hplain]
      exact ih hlex waiting hdepth
  | case3 position c cs hspacing fault hscan => cases hlex
  | case4 position c cs hspacing token tail hscan stop rest failure hrest =>
      rename_i ih
      obtain ⟨rfl, rfl⟩ := Prod.mk.inj hlex
      rcases Token.scan_cases hscan with ⟨rfl, rfl, rfl⟩ | ⟨rfl, rfl, rfl⟩ | ⟨htoken, hplain⟩
      · exact ih hrest (position :: waiting) hdepth
      · cases waiting with
        | nil => cases hdepth
        | cons inner outer => exact ih hrest outer hdepth
      · rw [List.map_cons, depthAfter_cons htoken] at hdepth
        obtain ⟨waiting', hopen, hlength⟩ := ih hrest waiting hdepth
        refine ⟨waiting', ?_, hlength⟩
        rw [← List.take_append_drop tail cs, ← List.cons_append, openParens_append _ _ hplain]
        exact hopen

/-- **A text with a token is not blank.** -/
theorem exists_not_isBlank {name cs : List Char} {position : ℕ} {first : Lexeme}
    {ls : List Lexeme} {failure : Option Error}
    (hlex : Token.lexFrom name position cs = (first :: ls, failure)) :
    ∃ c ∈ cs, Text.isBlank c = false := by
  fun_induction Token.lexFrom name position cs generalizing first ls failure with
  | case1 position => cases hlex
  | case2 position c cs hspacing ih =>
      obtain ⟨d, hd, hblank⟩ := ih hlex
      exact ⟨d, List.mem_cons_of_mem c hd, hblank⟩
  | case3 position c cs hspacing fault hscan => cases hlex
  | case4 position c cs hspacing token tail hscan =>
      exact ⟨c, List.mem_cons_self, Token.not_isBlank_of_scan hscan⟩

/-- Nothing is derived from no tokens. -/
theorem ne_nil_of_derives {X : Symbol} {us : List Token} {t : Expr Float}
    (h : Derives X us t) : us ≠ [] := by
  induction h <;> simp_all

/-- **What the grammar accepts passes both looks at the text.** -/
theorem prechecks_of_derives {name text : String} {ls : List Lexeme} {t : Expr Float}
    (hlex : Token.lex name text = (ls, none)) (h : Derives .expr (ls.map Lexeme.token) t) :
    Text.trim text.toList ≠ [] ∧ checkParens text.toList = .ok () := by
  constructor
  · intro htrim
    cases ls with
    | nil => exact ne_nil_of_derives h rfl
    | cons first ls =>
        obtain ⟨c, hc, hblank⟩ := exists_not_isBlank hlex
        rw [(Text.trim_eq_nil_iff _).mp htrim c hc] at hblank
        cases hblank
  · have hdepth : depthAfter 0 (ls.map Lexeme.token) = some 0 := by
      have hbalanced := h.depthAfter_append 0 []
      rwa [List.append_nil] at hbalanced
    obtain ⟨waiting, hopen, hlength⟩ := openParens_of_lexFrom hlex [] hdepth
    rw [checkParens, hopen, List.length_eq_zero_iff.mp hlength]

/-- A text that passes both looks is parsed as its tokens are. -/
theorem parse_eq_ok_iff_ofLexemes (name text : String) (t : Expr Float) :
    parse name text = .ok t ↔ Text.trim text.toList ≠ [] ∧ checkParens text.toList = .ok () ∧
      ofLexemes (Token.lex name text).1 (Token.lex name text).2 = .ok t := by
  unfold parse
  by_cases htrim : (Text.trim text.toList).isEmpty = true
  · rw [if_pos htrim]
    refine iff_of_false nofun fun h => h.1 (List.isEmpty_iff.mp htrim)
  · have hne : Text.trim text.toList ≠ [] := mt List.isEmpty_iff.mpr htrim
    rw [if_neg htrim]
    cases hparens : checkParens text.toList with
    | error error => exact iff_of_false nofun fun h => nomatch h.2.1
    | ok _ => exact ⟨fun h => ⟨hne, rfl, h⟩, fun h => h.2.2⟩

/-- **The parser accepts exactly its grammar.**  It answers with a tree
when the lexer reads the whole text and the grammar derives the tree from
the tokens; the tokens derive no other tree; and neither of the looks at
the text before refuses what the grammar accepts. -/
theorem parse_eq_ok_iff (name text : String) :
    (∀ t, parse name text = .ok t ↔
      ∃ ls, Token.lex name text = (ls, none) ∧ Derives .expr (ls.map Lexeme.token) t) ∧
    (∀ us t t', Derives .expr us t → Derives .expr us t' → t = t') ∧
    ∀ ls t, Token.lex name text = (ls, none) → Derives .expr (ls.map Lexeme.token) t →
      Text.trim text.toList ≠ [] ∧ checkParens text.toList = .ok () := by
  refine ⟨fun t => ?_, fun us t t' => Derives.unique, fun ls t => prechecks_of_derives⟩
  rw [parse_eq_ok_iff_ofLexemes]
  constructor
  · intro h
    obtain ⟨-, -, hparse⟩ := h
    obtain ⟨hnone, hderives⟩ := derives_of_ofLexemes hparse
    exact ⟨_, Prod.ext rfl hnone, hderives⟩
  · intro h
    obtain ⟨ls, hlex, hderives⟩ := h
    obtain ⟨htrim, hparens⟩ := prechecks_of_derives hlex hderives
    rw [hlex]
    exact ⟨htrim, hparens, ofLexemes_of_derives hderives⟩

end Expr

end Univariate
