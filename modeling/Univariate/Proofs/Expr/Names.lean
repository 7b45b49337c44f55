import Univariate.Proofs.Expr.Words
import Univariate.Settings

/-!
# Typing the variable

A name of letters, underscores and basic digits that the settings accept is
one word of an expression.  Directly after a number there is a single
obstacle: literals run on as long as they can, so a name that starts like an
exponent, with its mark and a digit, loses these to the number before it.

* `Token.startsExponent` — the names that do;
* `Token.lexFrom_name`, `Token.lexFrom_number` — the two words;
* `Token.lexFrom_exponent` — what is read of a number and such a name;
* `Settings.lex_name` — names by themselves and after a number.
-/

namespace Univariate

namespace Text

/-- The first letter is the capital A. -/
theorem isAlphabetic_of_lt {c : Char} (h : c.toNat < 65) : isAlphabetic c = false := by
  have hfirst : ∀ r ∈ alphabeticRanges, 65 ≤ r.1 := by decide +kernel
  rw [Bool.eq_false_iff, ne_eq, isAlphabetic_iff]
  rintro ⟨r, hr, hrange⟩
  have hr65 := hfirst r hr
  omega

end Text

namespace Token

open Decimal (IsExponent)

variable {name body digits exponent rest : List Char} {c d mark : Char} {x : Float}

/-! ## Characters of names -/

/-- No name begins like a number. -/
theorem isMantissa_of_startsName (hc : startsName c = true) : isMantissa c = false := by
  by_contra hmantissa
  have hlow : c.toNat < 65 := by
    simp only [isMantissa, Decimal.isDigit, Bool.not_eq_false, Bool.or_eq_true, Bool.and_eq_true,
      decide_eq_true_eq, beq_iff_eq] at hmantissa
    rcases hmantissa with ⟨-, hhigh⟩ | rfl
    · have hnine : c.toNat ≤ 57 := hhigh
      omega
    · decide
  rw [startsName, Text.isAlphabetic_of_lt hlow, Bool.false_or, beq_iff_eq] at hc
  subst hc
  exact absurd hlow (by decide)

/-! ## Exponents -/

/-- The text starts with the mark of an exponent and a digit. -/
def startsExponent : List Char → Bool
  | mark :: digit :: _ => (mark == 'e' || mark == 'E') && Decimal.isDigit digit
  | _ => false

/-- An exponent runs on to the first character that is no digit. -/
theorem exponentLength_append (h : IsExponent exponent)
    (hrest : ∀ d ∈ rest.head?, Decimal.isDigit d = false) :
    exponentLength (exponent ++ rest) = exponent.length := by
  obtain ⟨mark, digits, rfl, hmark, hne, hdigits⟩ := h
  have hlength := exponentLength_signed hmark (Or.inl rfl) hne hdigits hrest
  rw [List.nil_append] at hlength
  rw [List.cons_append, hlength, List.length_nil, add_zero, add_comm, List.length_cons]

/-- Without a digit behind the mark there is no exponent, for a sign does
not belong to a name. -/
theorem exponentLength_of_not_startsExponent (hname : ∀ d ∈ name, continuesName d = true)
    (h : startsExponent name = false) : exponentLength name = 0 := by
  rcases exponentLength_cases name with hzero | ⟨mark, sign, digits, rest, rfl, hmark, hsign, hne,
    hdigits, -⟩
  · exact hzero
  obtain ⟨d, ds, rfl⟩ := List.exists_cons_of_ne_nil hne
  rcases hsign with rfl | rfl | rfl
  · have hd : Decimal.isDigit d = true := hdigits d List.mem_cons_self
    simp [startsExponent, hd] at h
    exact absurd hmark (not_or.mpr h)
  · exact absurd (hname '+' (by simp)) (by decide)
  · exact absurd (hname '-' (by simp)) (by decide)

/-- A name that begins like an exponent holds a whole one. -/
theorem exists_exponent (h : startsExponent name = true) :
    ∃ exponent rest, name = exponent ++ rest ∧ IsExponent exponent ∧
      ∀ d ∈ rest.head?, Decimal.isDigit d = false := by
  match name, h with
  | mark :: digit :: more, h =>
    rw [startsExponent, Bool.and_eq_true] at h
    obtain ⟨hmark, hdigit⟩ := h
    have hmark' : mark = 'e' ∨ mark = 'E' := by simpa using hmark
    refine ⟨mark :: (digit :: more).takeWhile Decimal.isDigit,
      (digit :: more).dropWhile Decimal.isDigit, ?_, ⟨mark, _, rfl, hmark', ?_, ?_⟩, ?_⟩
    · rw [List.cons_append, List.takeWhile_append_dropWhile]
    · rw [List.takeWhile_cons_of_pos hdigit]
      exact List.cons_ne_nil _ _
    · exact fun d hd => List.mem_takeWhile_imp hd
    · exact fun d hd => of_mem_head?_dropWhile hd

/-! ## Words -/

/-- **A name is one word.** -/
theorem lexFrom_name (hc : startsName c = true) (hbody : ∀ d ∈ body, continuesName d = true)
    (position : ℕ) :
    lexFrom (c :: body) position (c :: body) =
      ([⟨position, .var, position + Text.byteLength (c :: body)⟩], none) := by
  have hscan : scan (c :: body) c (body ++ []) = .ok (.var, body.length) :=
    (scan_name hc (isMantissa_of_startsName hc) hbody (by simp)).trans (if_pos rfl)
  have hspacing : isSpacing c = false := (ordinary_of (p := startsName) rfl hc).1
  have hlex := lexFrom_word hspacing hscan position
  rw [List.append_nil, lexFrom] at hlex
  exact hlex

/-- Any other name is refused. -/
theorem lexFrom_other_name (hc : startsName c = true) (hbody : ∀ d ∈ body, continuesName d = true)
    (hne : c :: body ≠ name) (position : ℕ) :
    lexFrom name position (c :: body) =
      ([], some (.malformed position
        (.unknownName (String.ofList (c :: body)) (String.ofList name)))) := by
  have hscan : scan name c (body ++ []) = _ :=
    scan_name hc (isMantissa_of_startsName hc) hbody (by simp)
  rw [if_neg hne, List.append_nil] at hscan
  have hspacing : isSpacing c = false := (ordinary_of (p := startsName) rfl hc).1
  rw [lexFrom, if_neg (by rw [hspacing]; decide), hscan]

/-- **A literal is one word**, or refused if its value is not finite. -/
theorem lexFrom_number (hc : Decimal.isDigit c = true)
    (hlength : numberLength (c :: (body ++ rest)) = body.length + 1)
    (hread : Decimal.read? (c :: body) = some x) (position : ℕ) :
    lexFrom name position (c :: (body ++ rest)) =
      if x.isFinite = true then
        (⟨position, .number x, position + Text.byteLength (c :: body)⟩ ::
            (lexFrom name (position + Text.byteLength (c :: body)) rest).1,
          (lexFrom name (position + Text.byteLength (c :: body)) rest).2)
      else ([], some (.malformed position (.badLiteral (String.ofList (c :: body))))) := by
  have hspacing : isSpacing c = false := (ordinary_of_isDigit hc).1
  have hscan : scan name c (body ++ rest) = _ :=
    scan_number (isMantissa_of_isDigit hc) hlength
  rw [literal?, hread] at hscan
  by_cases hfinite : x.isFinite = true
  · rw [Option.filter_some, if_pos hfinite, Option.elim_some] at hscan
    rw [if_pos hfinite, lexFrom_word hspacing hscan]
  · rw [Option.filter_some, if_neg hfinite, Option.elim_none] at hscan
    rw [if_neg hfinite, lexFrom, if_neg (by rw [hspacing]; decide), hscan]

/-! ## A number and a name -/

section Number

variable (hdigits : Decimal.Digits digits) (hne : digits ≠ [])

include hdigits hne

/-- A name that starts like no exponent leaves a number before it alone. -/
theorem lexFrom_digits_name (hc : startsName c = true)
    (hbody : ∀ d ∈ body, continuesName d = true) (h : startsExponent (c :: body) = false)
    (hread : Decimal.read? digits = some x) (hx : x.isFinite = true) :
    lexFrom (c :: body) 0 (digits ++ c :: body) =
      ([⟨0, .number x, Text.byteLength digits⟩,
        ⟨Text.byteLength digits, .var, Text.byteLength (digits ++ c :: body)⟩], none) := by
  have hname : ∀ d ∈ c :: body, continuesName d = true := by
    refine List.forall_mem_cons.mpr ⟨?_, hbody⟩
    rw [continuesName, hc, Bool.true_or]
  have hlength : numberLength (digits ++ c :: body) = _ := numberLength_append
    (fun d hd => isMantissa_of_isDigit (hdigits d hd))
    (by rintro d ⟨⟩; exact isMantissa_of_startsName hc)
  rw [exponentLength_of_not_startsExponent hname h, add_zero] at hlength
  obtain ⟨w, ws, rfl⟩ := List.exists_cons_of_ne_nil hne
  rw [List.cons_append, lexFrom_number (hdigits w List.mem_cons_self) hlength hread,
    if_pos hx, lexFrom_name hc hbody, Nat.zero_add, ← List.cons_append, Text.byteLength_append]

/-- **A name that starts like an exponent loses it to a number before
it.** -/
theorem lexFrom_exponent (hexponent : IsExponent exponent)
    (hrest : ∀ d ∈ rest, continuesName d = true)
    (hend : ∀ d ∈ rest.head?, Decimal.isDigit d = false)
    (hread : Decimal.read? (digits ++ exponent) = some x) :
    lexFrom (exponent ++ rest) 0 (digits ++ (exponent ++ rest)) =
      if x.isFinite = true then
        ([⟨0, .number x, Text.byteLength (digits ++ exponent)⟩],
          if rest = [] then none
          else some (.malformed (Text.byteLength (digits ++ exponent))
            (.unknownName (String.ofList rest) (String.ofList (exponent ++ rest)))))
      else ([], some (.malformed 0 (.badLiteral (String.ofList (digits ++ exponent))))) := by
  obtain ⟨mark, more, hmarked, hmark, -⟩ := id hexponent
  have hstop : ∀ d ∈ (exponent ++ rest).head?, isMantissa d = false := by
    rw [hmarked]
    rintro d ⟨⟩
    rcases hmark with rfl | rfl <;> decide
  have hremaining (position : ℕ) : lexFrom (exponent ++ rest) position rest =
      ([], if rest = [] then none
        else some (.malformed position
          (.unknownName (String.ofList rest) (String.ofList (exponent ++ rest))))) := by
    cases rest with
    | nil => rw [lexFrom, if_pos rfl]
    | cons r rs =>
        have hstarts : startsName r = true := by
          have hr := hrest r List.mem_cons_self
          rwa [continuesName, hend r rfl, Bool.or_false] at hr
        -- Too short to be the name.
        have hshorter : r :: rs ≠ exponent ++ r :: rs := by
          intro h
          have hlength := congrArg List.length h
          rw [hmarked, List.length_append, List.length_cons, List.length_cons] at hlength
          omega
        rw [if_neg (List.cons_ne_nil r rs), lexFrom_other_name hstarts
          (fun d hd => hrest d (List.mem_cons_of_mem r hd)) hshorter]
  have hlength := numberLength_append (fun d hd => isMantissa_of_isDigit (hdigits d hd)) hstop
  rw [exponentLength_append hexponent hend, ← List.length_append] at hlength
  obtain ⟨w, ws, rfl⟩ := List.exists_cons_of_ne_nil hne
  rw [← List.append_assoc] at hlength ⊢
  rw [List.cons_append, List.cons_append] at hlength ⊢
  rw [lexFrom_number (hdigits w List.mem_cons_self) hlength hread, hremaining, Nat.zero_add]

end Number

/-- Of some digits and the name behind them, the number takes the exponent
that the name starts with.  What is left of the name is unknown, and the
number is refused if it is not finite. -/
def LosesExponent (name digits : List Char) : Prop :=
  ∃ exponent rest x, name = exponent ++ rest ∧ IsExponent exponent ∧
    (∀ d ∈ rest.head?, Decimal.isDigit d = false) ∧
    Decimal.read? (digits ++ exponent) = some x ∧
    lexFrom name 0 (digits ++ name) =
      if x.isFinite = true then
        ([⟨0, .number x, Text.byteLength (digits ++ exponent)⟩],
          if rest = [] then none
          else some (.malformed (Text.byteLength (digits ++ exponent))
            (.unknownName (String.ofList rest) (String.ofList name))))
      else ([], some (.malformed 0 (.badLiteral (String.ofList (digits ++ exponent)))))

/-- **Behind digits such a name loses its exponent** to the number. -/
theorem losesExponent (hdigits : Decimal.Digits digits) (hne : digits ≠ [])
    (hname : ∀ d ∈ name, continuesName d = true) (h : startsExponent name = true) :
    LosesExponent name digits := by
  obtain ⟨exponent, rest, rfl, hexponent, hend⟩ := exists_exponent h
  obtain ⟨x, hread⟩ := Decimal.exists_read?_exponent hdigits hne hexponent
  have hrest : ∀ d ∈ rest, continuesName d = true := fun d hd =>
    hname d (List.mem_append_right _ hd)
  exact ⟨exponent, rest, x, rfl, hexponent, hend, hread,
    lexFrom_exponent hdigits hne hexponent hrest hend hread⟩

/-- Then there are no two tokens. -/
theorem LosesExponent.length_le_one (h : LosesExponent name digits) :
    (lexFrom name 0 (digits ++ name)).1.length ≤ 1 := by
  obtain ⟨exponent, rest, x, -, -, -, -, hlex⟩ := h
  rw [hlex]
  split
  · exact le_rfl
  · exact Nat.zero_le 1

end Token

namespace Settings

open Token

/-- **An accepted name** begins like a name. -/
theorem exists_startsName {s : Settings} (h : s.validate = .ok ()) :
    ∃ c body, s.name.toList = c :: body ∧ startsName c = true := by
  unfold validate at h
  split_ifs at h with hname
  rw [Bool.not_eq_true', Bool.not_eq_false] at hname
  cases hchars : s.name.toList with
  | nil =>
      rw [hchars] at hname
      cases hname
  | cons c body =>
      rw [hchars, isName, Bool.and_eq_true] at hname
      exact ⟨c, body, rfl, hname.1⟩

/-- Settings are accepted if all three conditions are met. -/
theorem validate_eq_ok {s : Settings} (hname : isName s.name.toList = true)
    (htolerance : isTolerance s.solver.rootTolerance = true)
    (hiterations : s.solver.maxIterations ≠ 0) : s.validate = .ok () := by
  rw [validate, hname, htolerance, if_neg hiterations]
  rfl

/-- **A configured variable can be typed.**  A name of letters, underscores
and basic digits that the settings accept is one token.  Directly after
digits with a finite value it is the second of two tokens, unless it starts
with an exponent mark and a digit; then these belong to the number. -/
theorem lex_name {s : Settings} (hvalid : s.validate = .ok ())
    (hname : ∀ c ∈ s.name.toList, continuesName c = true) :
    lex s.name s.name = ([⟨0, .var, Text.byteLength s.name.toList⟩], none) ∧
    ∀ digits : String, digits.toList ≠ [] → Decimal.Digits digits.toList →
      ∃ x, Decimal.read? digits.toList = some x ∧
        (x.isFinite = true →
          (lex s.name (digits ++ s.name) =
              ([⟨0, .number x, Text.byteLength digits.toList⟩,
                ⟨Text.byteLength digits.toList, .var,
                  Text.byteLength (digits ++ s.name).toList⟩], none) ↔
            startsExponent s.name.toList = false)) ∧
        (startsExponent s.name.toList = true → LosesExponent s.name.toList digits.toList) := by
  obtain ⟨c, body, hchars, hc⟩ := exists_startsName hvalid
  have hbody : ∀ d ∈ body, continuesName d = true := fun d hd =>
    hname d (hchars ▸ List.mem_cons_of_mem c hd)
  refine ⟨?_, fun digits hne hdigits => ?_⟩
  · rw [lex, hchars, lexFrom_name hc hbody, Nat.zero_add]
  have hread := Decimal.read?_decimalText hdigits hne (nofun : Decimal.Digits [])
  rw [Decimal.decimalText, if_pos rfl, List.append_nil] at hread
  refine ⟨_, hread, fun hfinite => ⟨fun htwo => ?_, fun hplain => ?_⟩,
    losesExponent hdigits hne hname⟩
  · -- A name like an exponent leaves one token at most.
    by_contra hstarts
    have hone := (losesExponent hdigits hne hname (by simpa using hstarts)).length_le_one
    rw [lex, String.toList_append] at htwo
    rw [htwo] at hone
    exact absurd hone (by simp)
  · rw [lex, String.toList_append, hchars]
    exact lexFrom_digits_name hdigits hne hc hbody (hchars ▸ hplain) hread hfinite

/-- The variable `t_1`, by itself and twice. -/
theorem lex_name_subscript :
    let s : Settings := { default with name := "t_1" }
    s.validate = .ok () ∧ (∀ c ∈ s.name.toList, continuesName c = true) ∧
      lex "t_1" "t_1" = ([⟨0, .var, 3⟩], none) ∧
      lex "t_1" "2t_1" = ([⟨0, .number 2, 1⟩, ⟨1, .var, 4⟩], none) := by
  intro s
  have htolerance : isTolerance s.solver.rootTolerance = true := by decide +kernel
  have hvalid : s.validate = .ok () := validate_eq_ok (by decide +kernel) htolerance (by decide)
  have hname : ∀ c ∈ s.name.toList, continuesName c = true :=
    List.all_eq_true.mp (by decide +kernel)
  have hread : Decimal.read? "2".toList = some 2 := by decide +kernel
  obtain ⟨hself, hnumber⟩ := lex_name hvalid hname
  obtain ⟨x, hx, htwo, -⟩ := hnumber "2" (by decide) (List.all_eq_true.mp rfl)
  obtain rfl : x = 2 := Option.some.inj (hx.symm.trans hread)
  have hplain : startsExponent s.name.toList = false := by decide +kernel
  have hsplit := (htwo (by decide)).mpr hplain
  have htext : "2" ++ s.name = "2t_1" := by decide +kernel
  have hwidth : Text.byteLength s.name.toList = 3 := by decide +kernel
  have hwidth' : Text.byteLength "2t_1".toList = 4 := by decide +kernel
  rw [hwidth] at hself
  rw [htext, hwidth'] at hsplit
  exact ⟨hvalid, hname, hself, hsplit⟩

/-- The settings accept the names `e1` and `x²`.  A digit in front of the
first is read together with it, as `3e1` is thirty; the second is no
variable by itself, because a name goes on with basic digits only. -/
theorem lex_name_lost :
    let s : Settings := { default with name := "e1" }
    let t : Settings := { default with name := "x²" }
    (s.validate = .ok () ∧ Decimal.read? "3".toList = some 3 ∧ (3 : Float).isFinite = true ∧
      lex "e1" "3e1" = ([⟨0, .number 30, 3⟩], none)) ∧
    (t.validate = .ok () ∧
      lex "x²" "x²" = ([], some (.malformed 0 (.unknownName "x" "x²")))) := by
  intro s t
  have htolerance : isTolerance s.solver.rootTolerance = true := by decide +kernel
  have hvalid : s.validate = .ok () := validate_eq_ok (by decide +kernel) htolerance (by decide)
  have hvalid' : t.validate = .ok () := validate_eq_ok (by decide +kernel) htolerance (by decide)
  refine ⟨⟨hvalid, by decide +kernel, by decide, ?_⟩, hvalid', ?_⟩
  · have htext : "3e1".toList = '3' :: (['e', '1'] ++ []) := by decide
    have hread : Decimal.read? ['3', 'e', '1'] = some 30 := by decide +kernel
    rw [lex, htext, lexFrom_number (by decide) (by decide) hread, if_pos (by decide), lexFrom]
    rfl
  · have hname : "x²".toList = ['x', '²'] := by decide
    have hletter : String.ofList ['x'] = "x" := by decide
    have hscan : scan ['x', '²'] 'x' ([] ++ ['²']) = _ :=
      scan_name (by decide) (by decide) (by simp) (by rintro d ⟨⟩; decide)
    rw [if_neg (by decide), hletter, ← hname, String.ofList_toList] at hscan
    rw [lex, hname, lexFrom, if_neg (by decide), ← hname]
    rw [List.nil_append] at hscan
    rw [hscan]

end Settings

end Univariate
