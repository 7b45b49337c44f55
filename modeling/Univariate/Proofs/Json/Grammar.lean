import Univariate.Json.Reader
import Univariate.Proofs.Decimal.Reading

/-!
# The grammar of JSON texts

A JSON text is a sequence of words with spacing around them, and the words
make up one value.  Both halves are relations of their own: which
characters spell a word, and which words derive a value.  A grammar has no
longest match: that a number is not cut in two is a consequence, since no
value has two words in a row that are not punctuation.

* `Json.Word`, `Json.Spelled` — words, and texts of words;
* `Json.Part`, `Json.Derives` — values, items and members;
* `Json.Written` — a value and a text that writes it;
* `Json.Derives.separated` — of two words in a row one is punctuation.
-/

namespace Univariate

namespace Json

/-! ## Words -/

/-- Digits, one at least. -/
structure IsRun (cs : List Char) : Prop where
  digits : Decimal.Digits cs
  ne_nil : cs ≠ []

/-- The digits in front of a point: zero alone, or digits that start with
another one. -/
def IsWhole (cs : List Char) : Prop := cs = ['0'] ∨ IsRun cs ∧ cs.head? ≠ some '0'

/-- The digits of a fraction, with their point if there are any. -/
inductive SpellsFraction : List Char → List Char → Prop
  | none : SpellsFraction [] []
  | point {digits : List Char} (h : IsRun digits) : SpellsFraction digits ('.' :: digits)

/-- The sign of an exponent; none is positive. -/
inductive SpellsSign : Bool → List Char → Prop
  | none : SpellsSign false []
  | plus : SpellsSign false ['+']
  | minus : SpellsSign true ['-']

/-- An exponent with its mark, if there is one. -/
inductive SpellsExponent : Option (Bool × List Char) → List Char → Prop
  | none : SpellsExponent none []
  | some {mark : Char} {negative : Bool} {sign digits : List Char}
      (hmark : mark = 'e' ∨ mark = 'E') (hsign : SpellsSign negative sign)
      (hdigits : IsRun digits) :
      SpellsExponent (some (negative, digits)) (mark :: (sign ++ digits))

/-- A number. -/
inductive SpellsNumber : Literal → List Char → Prop
  | mk {negative : Bool} {whole fraction point : List Char}
      {exponent : Option (Bool × List Char)} {power : List Char} (hwhole : IsWhole whole)
      (hfraction : SpellsFraction fraction point) (hexponent : SpellsExponent exponent power) :
      SpellsNumber ⟨negative, whole, fraction, exponent⟩
        ((if negative then ['-'] else []) ++ (whole ++ (point ++ power)))

/-- The characters between the quotes of a text, and what they write.  A
control character has to be escaped. -/
inductive SpellsPieces : List Piece → List Char → Prop
  | nil : SpellsPieces [] []
  | plain {c : Char} {pieces : List Piece} {cs : List Char} (hquote : c ≠ '"')
      (hslash : c ≠ '\\') (hcontrol : 0x20 ≤ c.toNat) (h : SpellsPieces pieces cs) :
      SpellsPieces (.char c :: pieces) (c :: cs)
  | escape {mark c : Char} {pieces : List Piece} {cs : List Char} (hmark : escaped? mark = some c)
      (h : SpellsPieces pieces cs) : SpellsPieces (.char c :: pieces) ('\\' :: mark :: cs)
  | unit {a b c d : Char} {code : ℕ} {pieces : List Piece} {cs : List Char}
      (hcode : unitOfHex? a b c d = some code) (h : SpellsPieces pieces cs) :
      SpellsPieces (.unit code :: pieces) ('\\' :: 'u' :: a :: b :: c :: d :: cs)

/-- The characters of a word. -/
inductive Word : Token → List Char → Prop
  | openBrace : Word .openBrace ['{']
  | closeBrace : Word .closeBrace ['}']
  | openBracket : Word .openBracket ['[']
  | closeBracket : Word .closeBracket [']']
  | colon : Word .colon [':']
  | comma : Word .comma [',']
  | null : Word .null ['n', 'u', 'l', 'l']
  | yes : Word (.bool true) ['t', 'r', 'u', 'e']
  | no : Word (.bool false) ['f', 'a', 'l', 's', 'e']
  | number {n : Literal} {cs : List Char} (h : SpellsNumber n cs) : Word (.number n) cs
  | text {pieces : List Piece} {cs : List Char} (h : SpellsPieces pieces cs) :
      Word (.text pieces) ('"' :: (cs ++ ['"']))

/-- The words of a text, with spacing anywhere between them. -/
inductive Spelled : List Token → List Char → Prop
  | nil : Spelled [] []
  | spacing {tokens : List Token} {c : Char} {cs : List Char} (hc : isSpacing c = true)
      (h : Spelled tokens cs) : Spelled tokens (c :: cs)
  | word {token : Token} {tokens : List Token} {body cs : List Char} (hw : Word token body)
      (h : Spelled tokens cs) : Spelled (token :: tokens) (body ++ cs)

/-! ## Values -/

/-- A value, or what stands between brackets or braces, if there is
anything. -/
inductive Part where
  | value (v : Json)
  | items (vs : List Json)
  | members (ms : List (List Piece × Json))

/-- The words that make up a part. -/
inductive Derives : Part → List Token → Prop
  | null : Derives (.value .null) [.null]
  | bool (b : Bool) : Derives (.value (.bool b)) [.bool b]
  | number (n : Literal) : Derives (.value (.number n)) [.number n]
  | text (pieces : List Piece) : Derives (.value (.text pieces)) [.text pieces]
  | emptyArray : Derives (.value (.array [])) [.openBracket, .closeBracket]
  | array {vs : List Json} {ts : List Token} (h : Derives (.items vs) ts) :
      Derives (.value (.array vs)) (.openBracket :: (ts ++ [.closeBracket]))
  | emptyObject : Derives (.value (.object [])) [.openBrace, .closeBrace]
  | object {ms : List (List Piece × Json)} {ts : List Token} (h : Derives (.members ms) ts) :
      Derives (.value (.object ms)) (.openBrace :: (ts ++ [.closeBrace]))
  | item {v : Json} {ts : List Token} (h : Derives (.value v) ts) : Derives (.items [v]) ts
  | moreItems {v : Json} {vs : List Json} {ts us : List Token} (h : Derives (.value v) ts)
      (hs : Derives (.items vs) us) : Derives (.items (v :: vs)) (ts ++ .comma :: us)
  | member {key : List Piece} {v : Json} {ts : List Token} (h : Derives (.value v) ts) :
      Derives (.members [(key, v)]) (.text key :: .colon :: ts)
  | moreMembers {key : List Piece} {v : Json} {ms : List (List Piece × Json)} {ts us : List Token}
      (h : Derives (.value v) ts) (hs : Derives (.members ms) us) :
      Derives (.members ((key, v) :: ms)) (.text key :: .colon :: (ts ++ .comma :: us))

/-- The characters write this part. -/
def Part.Written (part : Part) (cs : List Char) : Prop :=
  ∃ tokens, Spelled tokens cs ∧ Derives part tokens

/-- The characters write this value. -/
def Written (v : Json) (cs : List Char) : Prop := (Part.value v).Written cs

/-! ## Spelling -/

/-- Spellings may follow one another. -/
theorem Spelled.append {ts us : List Token} {cs ds : List Char} (h : Spelled ts cs)
    (h' : Spelled us ds) : Spelled (ts ++ us) (cs ++ ds) := by
  induction h with
  | nil => exact h'
  | spacing hc _ ih => exact .spacing hc ih
  | word hw _ ih =>
      rw [List.append_assoc]
      exact .word hw ih

/-- A word spells its token. -/
theorem Word.spelled {t : Token} {cs : List Char} (h : Word t cs) : Spelled [t] cs := by
  rw [← List.append_nil cs]
  exact .word h .nil

/-- Without words there is only spacing. -/
theorem isSpacing_of_spelled_nil {cs : List Char} (h : Spelled [] cs) :
    ∀ c ∈ cs, isSpacing c = true := by
  generalize hts : ([] : List Token) = ts at h
  induction h with
  | nil => exact nofun
  | spacing hc _ ih =>
      intro c hmem
      rcases List.mem_cons.mp hmem with rfl | hmem
      · exact hc
      · exact ih hts c hmem
  | word _ _ _ => cases hts

/-! ## Punctuation -/

/-- The word stands between values or around them. -/
def Token.IsPunctuation : Token → Prop
  | .openBrace | .closeBrace | .openBracket | .closeBracket | .colon | .comma => True
  | _ => False

/-- One of two words in a row is punctuation. -/
def Token.Apart (t u : Token) : Prop := t.IsPunctuation ∨ u.IsPunctuation

/-- The words stay apart when punctuation is put between them. -/
theorem isChain_punctuate (p : Token) (hp : p.IsPunctuation) {ts us : List Token}
    (hts : ts.IsChain Token.Apart) (hus : us.IsChain Token.Apart) :
    (ts ++ p :: us).IsChain Token.Apart := by
  rw [List.isChain_append]
  refine ⟨hts, ?_, fun t _ u hu => ?_⟩
  · cases us with
    | nil => exact .singleton p
    | cons u us => exact .cons_cons (Or.inl hp) hus
  · cases hu
    exact Or.inr hp

/-- **Of two words in a row one is punctuation**, in every part. -/
theorem Derives.separated {part : Part} {ts : List Token} (h : Derives part ts) :
    ts.IsChain Token.Apart := by
  induction h with
  | null | bool | number | text => exact .singleton _
  | emptyArray | emptyObject => exact .cons_cons (Or.inl trivial) (.singleton _)
  | array _ ih =>
      exact isChain_punctuate .openBracket trivial .nil
        (isChain_punctuate .closeBracket trivial ih .nil)
  | object _ ih =>
      exact isChain_punctuate .openBrace trivial .nil
        (isChain_punctuate .closeBrace trivial ih .nil)
  | item _ ih => exact ih
  | moreItems _ _ ih ihs => exact isChain_punctuate .comma trivial ih ihs
  | member _ ih => exact isChain_punctuate .colon trivial (.singleton _) ih
  | moreMembers _ _ ih ihs =>
      exact isChain_punctuate .colon trivial (.singleton _)
        (isChain_punctuate .comma trivial ih ihs)

/-- The last word of a value is the value itself, or it is punctuation. -/
theorem Derives.last {v : Json} {ts : List Token} (h : Derives (.value v) ts)
    (hv : ∀ n, v ≠ .number n) : ∃ us t, ts = us ++ [t] ∧ ∀ n, t ≠ .number n := by
  cases h with
  | null => exact ⟨[], _, rfl, nofun⟩
  | bool b => exact ⟨[], _, rfl, nofun⟩
  | number n => exact absurd rfl (hv n)
  | text pieces => exact ⟨[], _, rfl, nofun⟩
  | emptyArray => exact ⟨[.openBracket], _, rfl, nofun⟩
  | emptyObject => exact ⟨[.openBrace], _, rfl, nofun⟩
  | array h => exact ⟨_ :: _, _, rfl, nofun⟩
  | object h => exact ⟨_ :: _, _, rfl, nofun⟩

end Json

end Univariate
