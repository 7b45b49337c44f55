import Univariate.Proofs.Decimal.Texts
import Univariate.Proofs.Expr.Acceptance

/-!
# Texts written word by word

A text that is put together from words is read back as their tokens, if
each word ends where the lexer would end it: a number before anything that
could go on with it, a name before anything that could belong to it.  What
a text is read as does not depend on the position it starts from, so the
words can be put in front one after the other.

* `Token.Lexes` — a text is read to its end, as some tokens;
* `Lexes.spacing`, `Lexes.operator`, `Lexes.number`, `Lexes.variable` — one
  word in front of a text;
* `Expr.parse_of_lexes` — the tree that the grammar derives is the answer.
-/

namespace Univariate

namespace Token

open Decimal (Digits)

/-- Wherever it starts, the text is read to its end as these tokens. -/
def Lexes (name cs : List Char) (tokens : List Token) : Prop :=
  ∀ position, ∃ ls, lexFrom name position cs = (ls, none) ∧ ls.map Lexeme.token = tokens

variable {name cs body rest : List Char} {tokens : List Token} {token : Token} {c : Char}

theorem lexes_nil : Lexes name [] [] := by
  intro position
  exact ⟨[], by rw [lexFrom], rfl⟩

/-- Spacing in front is passed over. -/
theorem Lexes.spacing (h : Lexes name cs tokens) (hc : isSpacing c = true) :
    Lexes name (c :: cs) tokens := by
  intro position
  rw [lexFrom, if_pos hc]
  exact h _

/-- A word that the lexer takes as a whole, and what is read after it. -/
theorem lexFrom_word (hc : isSpacing c = false)
    (hscan : scan name c (body ++ cs) = .ok (token, body.length)) (position : ℕ) :
    lexFrom name position (c :: (body ++ cs)) =
      (⟨position, token, position + Text.byteLength (c :: body)⟩ ::
          (lexFrom name (position + Text.byteLength (c :: body)) cs).1,
        (lexFrom name (position + Text.byteLength (c :: body)) cs).2) := by
  rw [lexFrom, if_neg (by rw [hc]; decide), hscan]
  simp only [List.drop_left, List.take_left]

/-- One word in front. -/
theorem Lexes.word (h : Lexes name cs tokens) (hc : isSpacing c = false)
    (hscan : scan name c (body ++ cs) = .ok (token, body.length)) :
    Lexes name (c :: (body ++ cs)) (token :: tokens) := by
  intro position
  obtain ⟨ls, hls, hmap⟩ := h (position + Text.byteLength (c :: body))
  have hlex : lexFrom name position (c :: (body ++ cs)) =
      (⟨position, token, position + Text.byteLength (c :: body)⟩ :: ls, none) := by
    rw [lexFrom_word hc hscan, hls]
  exact ⟨_, hlex, congrArg (token :: ·) hmap⟩

/-- The characters that are spacing, or a word by themselves. -/
def specials : List Char := [' ', '\t', '\n', '\r', '(', ')', '+', '-', '*', '/', '^']

/-- What has a property that no special character has is none. -/
theorem ordinary_of {p : Char → Bool} (hp : specials.any p = false) (h : p c = true) :
    isSpacing c = false ∧ ofChar? c = none := by
  have hc : c ∉ specials := by
    intro hmem
    rw [List.any_eq_true.mpr ⟨c, hmem, h⟩] at hp
    cases hp
  constructor
  · by_contra hspacing
    rw [Bool.not_eq_false] at hspacing
    simp only [isSpacing, Bool.or_eq_true, beq_iff_eq] at hspacing
    rcases hspacing with ((rfl | rfl) | rfl) | rfl <;> exact hc (by decide)
  · unfold ofChar?
    split <;> first | rfl | exact absurd (by decide) hc

/-! ## Operators -/

/-- No operator is spacing. -/
theorem isSpacing_of_ofChar? (hc : ofChar? c = some token) : isSpacing c = false := by
  unfold ofChar? at hc
  split at hc <;> first | decide | cases hc

/-- An operator in front is a token. -/
theorem Lexes.operator (h : Lexes name cs tokens) (hc : ofChar? c = some token) :
    Lexes name (c :: cs) (token :: tokens) := by
  have hscan : scan name c ([] ++ cs) = .ok (token, ([] : List Char).length) := by
    rw [scan, hc]
    rfl
  exact h.word (isSpacing_of_ofChar? hc) hscan

/-! ## Numbers -/

/-- What is left of a run of characters does not go on with it. -/
theorem of_mem_head?_dropWhile {p : Char → Bool} (h : c ∈ (cs.dropWhile p).head?) :
    p c = false := by
  have hnot := List.head?_dropWhile_not p cs
  rwa [Option.mem_def.mp h] at hnot

/-- Digits are characters of numbers. -/
theorem isMantissa_of_isDigit (hc : Decimal.isDigit c = true) : isMantissa c = true := by
  rw [isMantissa, hc, Bool.true_or]

/-- A digit is neither spacing nor an operator. -/
theorem ordinary_of_isDigit (hc : Decimal.isDigit c = true) :
    isSpacing c = false ∧ ofChar? c = none :=
  ordinary_of rfl hc

/-- What follows cannot go on with a number. -/
def EndsNumber (rest : List Char) : Prop :=
  ∀ c ∈ rest.head?, isMantissa c = false ∧ c ≠ 'e' ∧ c ≠ 'E'

/-- What ends a number holds no exponent of it. -/
theorem exponentLength_of_endsNumber (h : EndsNumber rest) : exponentLength rest = 0 := by
  cases rest with
  | nil => rfl
  | cons c rest =>
      obtain ⟨-, he, hE⟩ := h c rfl
      simp [exponentLength, he, hE]

/-- What may stand between the mark of an exponent and its digits. -/
def IsSign (sign : List Char) : Prop := sign = [] ∨ sign = ['+'] ∨ sign = ['-']

/-- An exponent at the front of a text, taken apart. -/
theorem exponentLength_cases (cs : List Char) :
    exponentLength cs = 0 ∨ ∃ mark sign digits rest,
      cs = mark :: (sign ++ (digits ++ rest)) ∧ (mark = 'e' ∨ mark = 'E') ∧ IsSign sign ∧
        digits ≠ [] ∧ Digits digits ∧ exponentLength cs = 1 + sign.length + digits.length := by
  cases cs with
  | nil => exact Or.inl rfl
  | cons mark cs =>
      by_cases hmark : mark = 'e' ∨ mark = 'E'
      · obtain ⟨sign, ds, hsign, rfl, hlength⟩ : ∃ sign ds, IsSign sign ∧ cs = sign ++ ds ∧
            exponentLength (mark :: cs) =
              if ds.takeWhile Decimal.isDigit = [] then 0
              else 1 + sign.length + (ds.takeWhile Decimal.isDigit).length := by
          cases cs with
          | nil => exact ⟨[], [], Or.inl rfl, rfl, by simp [exponentLength]⟩
          | cons d ds =>
              by_cases hplus : d = '+'
              · exact ⟨['+'], ds, Or.inr (Or.inl rfl), by rw [hplus]; rfl,
                  by simp [exponentLength, hmark, hplus]⟩
              by_cases hminus : d = '-'
              · exact ⟨['-'], ds, Or.inr (Or.inr rfl), by rw [hminus]; rfl,
                  by simp [exponentLength, hmark, hminus]⟩
              · exact ⟨[], d :: ds, Or.inl rfl, rfl,
                  by simp [exponentLength, hmark, hplus, hminus]⟩
        split_ifs at hlength with hnone
        · exact Or.inl hlength
        · refine Or.inr ⟨mark, sign, ds.takeWhile Decimal.isDigit, ds.dropWhile Decimal.isDigit, ?_,
            hmark, hsign, hnone, fun d hd => List.mem_takeWhile_imp hd, hlength⟩
          rw [List.takeWhile_append_dropWhile]
      · exact Or.inl (by rw [not_or] at hmark; simp [exponentLength, hmark])

/-- An exponent runs on to the first character that is no digit. -/
theorem exponentLength_signed {mark : Char} {sign digits : List Char}
    (hmark : mark = 'e' ∨ mark = 'E') (hsign : IsSign sign) (hne : digits ≠ [])
    (hdigits : Digits digits) (hrest : ∀ d ∈ rest.head?, Decimal.isDigit d = false) :
    exponentLength (mark :: (sign ++ (digits ++ rest))) = 1 + sign.length + digits.length := by
  have hrun : (digits ++ rest).takeWhile Decimal.isDigit = digits :=
    congrArg Prod.fst (Decimal.spanDigits_append hdigits hrest)
  rcases hsign with rfl | rfl | rfl
  · obtain ⟨d, ds, rfl⟩ := List.exists_cons_of_ne_nil hne
    have hd : Decimal.isDigit d = true := hdigits d List.mem_cons_self
    have hplus : d ≠ '+' := by
      rintro rfl
      exact absurd hd (by decide)
    have hminus : d ≠ '-' := by
      rintro rfl
      exact absurd hd (by decide)
    rw [List.cons_append] at hrun
    simp [exponentLength, hmark, hplus, hminus, hrun]
  · simp [exponentLength, hmark, hrun, hne]
  · simp [exponentLength, hmark, hrun, hne]

/-- Digits and points run on to the first character that is neither, and
take an exponent along. -/
theorem numberLength_append (hbody : ∀ c ∈ body, isMantissa c = true)
    (hrest : ∀ c ∈ rest.head?, isMantissa c = false) :
    numberLength (body ++ rest) = body.length + exponentLength rest := by
  have hstop : rest.takeWhile isMantissa = [] := by
    cases rest with
    | nil => rfl
    | cons c rest => rw [List.takeWhile_cons_of_neg (by rw [hrest c rfl]; decide)]
  have hmantissa : (body ++ rest).takeWhile isMantissa = body := by
    rw [List.takeWhile_append_of_pos hbody, hstop, List.append_nil]
  simp only [numberLength, hmantissa, List.drop_left]

/-- A literal in front of a text that does not go on with it. -/
theorem scan_number (hc : isMantissa c = true)
    (hlength : numberLength (c :: (body ++ rest)) = body.length + 1) :
    scan name c (body ++ rest) =
      (literal? (c :: body)).elim (.error (.badLiteral (String.ofList (c :: body))))
        fun x => .ok (.number x, body.length) := by
  have htake : (c :: (body ++ rest)).take (body.length + 1) = c :: body := by
    rw [List.take_succ_cons, List.take_left]
  have hnone : ofChar? c = none := (ordinary_of (p := isMantissa) rfl hc).2
  simp only [scan, hnone, hc, if_true, hlength, htake, Nat.add_sub_cancel]
  cases literal? (c :: body) <;> rfl

/-- A decimal is made up of digits and a point. -/
theorem isMantissa_of_mem_decimalText {whole fraction : List Char}
    (hwhole : Decimal.Digits whole) (hfraction : Decimal.Digits fraction)
    (hc : c ∈ Decimal.decimalText whole fraction) : isMantissa c = true := by
  rw [Decimal.decimalText, List.mem_append] at hc
  rcases hc with hc | hc
  · exact isMantissa_of_isDigit (hwhole c hc)
  · split_ifs at hc with hnil
    · cases hc
    · rcases List.mem_cons.mp hc with rfl | hc
      · rfl
      · exact isMantissa_of_isDigit (hfraction c hc)

/-- **A decimal text in front of a text that cannot go on with it is one
number.** -/
theorem Lexes.number {x : Float} (h : Lexes name rest tokens) (hbody : Decimal.ReadsAs body x)
    (hx : x.isFinite = true) (hrest : EndsNumber rest) :
    Lexes name (body ++ rest) (.number x :: tokens) := by
  obtain ⟨whole, fraction, rfl, hwhole, hne, hfraction, hread⟩ := hbody
  have hmantissa := fun c => isMantissa_of_mem_decimalText (c := c) hwhole hfraction
  obtain ⟨w, ws, rfl⟩ := List.exists_cons_of_ne_nil hne
  have hw : Decimal.isDigit w = true := hwhole w List.mem_cons_self
  set tail := ws ++ if fraction = [] then [] else '.' :: fraction with htail
  have htext : Decimal.decimalText (w :: ws) fraction = w :: tail := rfl
  rw [htext] at hmantissa hread ⊢
  have hlength : numberLength (w :: (tail ++ rest)) = tail.length + 1 := by
    rw [← List.cons_append, numberLength_append hmantissa fun c hc => (hrest c hc).1,
      exponentLength_of_endsNumber hrest]
    rfl
  have hliteral : literal? (w :: tail) = some x := by
    rw [literal?, hread, Option.filter_some, if_pos hx]
  refine h.word (ordinary_of_isDigit hw).1 ?_
  rw [scan_number (isMantissa_of_isDigit hw) hlength, hliteral, Option.elim_some]

/-! ## The variable -/

/-- A name in front of a text that cannot go on with it. -/
theorem scan_name (hc : startsName c = true) (hmantissa : isMantissa c = false)
    (hbody : ∀ d ∈ body, continuesName d = true)
    (hrest : ∀ d ∈ rest.head?, continuesName d = false) :
    scan name c (body ++ rest) =
      if c :: body = name then .ok (.var, body.length)
      else .error (.unknownName (String.ofList (c :: body)) (String.ofList name)) := by
  have hstop : rest.takeWhile continuesName = [] := by
    cases rest with
    | nil => rfl
    | cons c rest => rw [List.takeWhile_cons_of_neg (by rw [hrest c rfl]; decide)]
  have htail : (body ++ rest).takeWhile continuesName = body := by
    rw [List.takeWhile_append_of_pos hbody, hstop, List.append_nil]
  have hnone : ofChar? c = none := (ordinary_of (p := startsName) rfl hc).2
  simp only [scan, hnone, hmantissa, hc, htail, if_true, Bool.false_eq_true, if_false]

/-- **The variable `x` in front of a text that cannot go on with its
name.** -/
theorem Lexes.variable (h : Lexes ['x'] rest tokens)
    (hrest : ∀ c ∈ rest.head?, continuesName c = false) :
    Lexes ['x'] ('x' :: rest) (.var :: tokens) := by
  have hscan : scan ['x'] 'x' ([] ++ rest) = _ :=
    scan_name (by decide) (by decide) nofun hrest
  rw [if_pos rfl] at hscan
  exact h.word (by decide) hscan

end Token

namespace Expr

variable {name text : String} {ls : List Lexeme} {tokens : List Token} {t : Expr Float}

/-- Tokens of an expression are parsed to its tree. -/
theorem parse_of_lex (hlex : Token.lex name text = (ls, none))
    (h : Derives .expr (ls.map Lexeme.token) t) : parse name text = .ok t := by
  obtain ⟨htrim, hparens⟩ := prechecks_of_derives hlex h
  refine (parse_eq_ok_iff_ofLexemes name text t).mpr ⟨htrim, hparens, ?_⟩
  rw [hlex]
  exact ofLexemes_of_derives h

/-- What is parsed has been read to its end, and is derived from its
tokens. -/
theorem derives_of_parse (h : parse name text = .ok t) :
    (Token.lex name text).2 = none ∧
      Derives .expr ((Token.lex name text).1.map Lexeme.token) t :=
  derives_of_ofLexemes ((parse_eq_ok_iff_ofLexemes name text t).mp h).2.2

/-- **A text that lexes to tokens of an expression parses to its tree.** -/
theorem parse_of_lexes (hlex : Token.Lexes name.toList text.toList tokens)
    (h : Derives .expr tokens t) : parse name text = .ok t := by
  obtain ⟨ls, hls, rfl⟩ := hlex 0
  exact parse_of_lex hls h

end Expr

end Univariate
