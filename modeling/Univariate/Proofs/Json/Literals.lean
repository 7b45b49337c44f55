import Univariate.Proofs.Json.Grammar

/-!
# Numbers and texts are scanned as they are spelled

The scanner takes the longest number that it can, the grammar any.  The two
agree wherever a number is followed by something that cannot go on with it.
A text ends at its closing quote, whatever follows.

* `Json.Stops` — what cannot go on with a number;
* `Json.scanNumber_append`, `Json.spellsNumber_of_scanNumber` — numbers;
* `Json.scanPieces_append`, `Json.spellsPieces_of_scanPieces` — texts.
-/

namespace Univariate

namespace Json

open Decimal (isDigit spanDigits)

variable {cs rest body : List Char}

/-- What follows cannot go on with a number. -/
def Stops (rest : List Char) : Prop :=
  ∀ c ∈ rest.head?, isDigit c = false ∧ c ≠ '.' ∧ c ≠ 'e' ∧ c ≠ 'E'

/-! ## Numbers -/

/-- A run of digits is taken up to the next character that is no digit. -/
theorem IsRun.spanDigits_append (h : IsRun body) (hrest : ∀ c ∈ rest.head?, isDigit c = false) :
    spanDigits (body ++ rest) = (body, rest) :=
  Decimal.spanDigits_append h.digits hrest

/-- What is taken are digits, and what they were taken off is left. -/
theorem spanDigits_eq {digits : List Char} (h : spanDigits cs = (digits, rest)) :
    cs = digits ++ rest ∧ Decimal.Digits digits := by
  obtain ⟨rfl, rfl⟩ := Prod.mk.inj h
  exact ⟨List.takeWhile_append_dropWhile.symm, fun c hc => List.mem_takeWhile_imp hc⟩

/-- **A whole part is read** where no digit follows. -/
theorem scanWhole_append (h : IsWhole body) (hrest : ∀ c ∈ rest.head?, isDigit c = false) :
    scanWhole (body ++ rest) = some (body, rest) := by
  rcases h with rfl | ⟨hrun, hzero⟩
  · rfl
  · have hspan := hrun.spanDigits_append hrest
    obtain ⟨d, ds, rfl⟩ := List.exists_cons_of_ne_nil hrun.ne_nil
    have hd : d ≠ '0' := fun heq => hzero (congrArg some heq)
    rw [List.cons_append] at hspan ⊢
    rw [scanWhole, hspan]
    · exact if_neg hrun.ne_nil
    · intro more hmore
      exact hd (List.cons.inj hmore).1

/-- What is read as a whole part is one. -/
theorem isWhole_of_scanWhole (h : scanWhole cs = some (body, rest)) :
    cs = body ++ rest ∧ IsWhole body := by
  unfold scanWhole at h
  split at h
  · obtain ⟨rfl, rfl⟩ := Prod.mk.inj (Option.some.inj h)
    exact ⟨rfl, Or.inl rfl⟩
  · next hzero =>
      rcases hspan : spanDigits cs with ⟨digits, more⟩
      rw [hspan] at h
      dsimp only at h
      split_ifs at h with hnil
      obtain ⟨rfl, rfl⟩ := Prod.mk.inj (Option.some.inj h)
      obtain ⟨rfl, hdigits⟩ := spanDigits_eq hspan
      refine ⟨rfl, Or.inr ⟨⟨hdigits, hnil⟩, ?_⟩⟩
      intro hhead
      obtain ⟨ds, rfl⟩ := List.head?_eq_some_iff.mp hhead
      exact hzero _ rfl

/-- **A fraction is read**, or none, where neither a digit nor a point
follows. -/
theorem scanFraction_append {fraction : List Char} (h : SpellsFraction fraction body)
    (hrest : ∀ c ∈ rest.head?, isDigit c = false ∧ c ≠ '.') :
    scanFraction (body ++ rest) = some (fraction, rest) := by
  cases h with
  | none =>
      rw [List.nil_append, scanFraction]
      intro more hmore
      rw [hmore] at hrest
      exact (hrest '.' rfl).2 rfl
  | point hrun =>
      have hspan := hrun.spanDigits_append fun c hc => (hrest c hc).1
      rw [List.cons_append, scanFraction, hspan]
      exact if_neg hrun.ne_nil

/-- What is read as a fraction is spelled like one. -/
theorem spellsFraction_of_scanFraction {fraction : List Char}
    (h : scanFraction cs = some (fraction, rest)) :
    ∃ body, cs = body ++ rest ∧ SpellsFraction fraction body := by
  unfold scanFraction at h
  split at h
  · next more =>
      rcases hspan : spanDigits more with ⟨digits, later⟩
      rw [hspan] at h
      dsimp only at h
      split_ifs at h with hnil
      obtain ⟨rfl, rfl⟩ := Prod.mk.inj (Option.some.inj h)
      obtain ⟨rfl, hdigits⟩ := spanDigits_eq hspan
      exact ⟨'.' :: digits, rfl, .point ⟨hdigits, hnil⟩⟩
  · obtain ⟨rfl, rfl⟩ := Prod.mk.inj (Option.some.inj h)
    exact ⟨[], rfl, .none⟩

/-- **The sign of an exponent is read** in front of its digits. -/
theorem scanSign_append {negative : Bool} {digits : List Char} (h : SpellsSign negative body)
    (hrun : IsRun digits) : scanSign (body ++ (digits ++ rest)) = (negative, digits ++ rest) := by
  cases h with
  | none =>
      -- A run of digits starts with no sign.
      obtain ⟨d, ds, rfl⟩ := List.exists_cons_of_ne_nil hrun.ne_nil
      have hd : isDigit d = true := hrun.digits d List.mem_cons_self
      rw [List.nil_append, List.cons_append, scanSign]
      · intro more hmore
        rw [(List.cons.inj hmore).1] at hd
        exact absurd hd (by decide)
      · intro more hmore
        rw [(List.cons.inj hmore).1] at hd
        exact absurd hd (by decide)
  | plus => rfl
  | minus => rfl

/-- What is read as a sign is spelled like one. -/
theorem spellsSign_of_scanSign {negative : Bool} (h : scanSign cs = (negative, rest)) :
    ∃ sign, cs = sign ++ rest ∧ SpellsSign negative sign := by
  unfold scanSign at h
  split at h
  · obtain ⟨rfl, rfl⟩ := Prod.mk.inj h
    exact ⟨['-'], rfl, .minus⟩
  · obtain ⟨rfl, rfl⟩ := Prod.mk.inj h
    exact ⟨['+'], rfl, .plus⟩
  · obtain ⟨rfl, rfl⟩ := Prod.mk.inj h
    exact ⟨[], rfl, .none⟩

/-- **An exponent is read**, or none, where the number stops. -/
theorem scanExponent_append {exponent : Option (Bool × List Char)}
    (h : SpellsExponent exponent body) (hrest : Stops rest) :
    scanExponent (body ++ rest) = some (exponent, rest) := by
  cases h with
  | none =>
      cases rest with
      | nil => rfl
      | cons c rest =>
          obtain ⟨-, -, he, hE⟩ := hrest c rfl
          exact if_neg (not_or.mpr ⟨he, hE⟩)
  | @some mark negative sign digits hmark hsign hrun =>
      have hspan := hrun.spanDigits_append fun c hc => (hrest c hc).1
      rw [List.cons_append, List.append_assoc, scanExponent, if_pos hmark,
        scanSign_append hsign hrun]
      dsimp only
      rw [hspan]
      exact if_neg hrun.ne_nil

/-- What is read as an exponent is spelled like one. -/
theorem spellsExponent_of_scanExponent {exponent : Option (Bool × List Char)}
    (h : scanExponent cs = some (exponent, rest)) :
    ∃ body, cs = body ++ rest ∧ SpellsExponent exponent body := by
  cases cs with
  | nil =>
      cases h
      exact ⟨[], rfl, .none⟩
  | cons mark cs =>
      rw [scanExponent] at h
      split_ifs at h with hmark
      · rcases hsign : scanSign cs with ⟨negative, more⟩
        rcases hspan : spanDigits more with ⟨digits, later⟩
        rw [hsign] at h
        dsimp only at h
        rw [hspan] at h
        dsimp only at h
        split_ifs at h with hnil
        cases h
        obtain ⟨sign, rfl, hspells⟩ := spellsSign_of_scanSign hsign
        obtain ⟨rfl, hdigits⟩ := spanDigits_eq hspan
        exact ⟨mark :: (sign ++ digits), by simp, .some hmark hspells ⟨hdigits, hnil⟩⟩
      · cases h
        exact ⟨[], rfl, .none⟩

/-- What an exponent starts with goes on with no digits and no fraction. -/
theorem SpellsExponent.stops {exponent : Option (Bool × List Char)}
    (h : SpellsExponent exponent body) (hrest : Stops rest) :
    ∀ c ∈ (body ++ rest).head?, isDigit c = false ∧ c ≠ '.' := by
  cases h with
  | none => exact fun c hc => ⟨(hrest c hc).1, (hrest c hc).2.1⟩
  | some hmark _ _ =>
      intro c hc
      cases hc
      rcases hmark with rfl | rfl <;> exact ⟨rfl, by decide⟩

/-- A fraction begins with no digit. -/
theorem SpellsFraction.stops {fraction : List Char} (h : SpellsFraction fraction body)
    (hrest : ∀ c ∈ rest.head?, isDigit c = false ∧ c ≠ '.') :
    ∀ c ∈ (body ++ rest).head?, isDigit c = false := by
  cases h with
  | none => exact fun c hc => (hrest c hc).1
  | point _ =>
      intro c hc
      cases hc
      rfl

/-- **A number without its sign is read** where it stops. -/
theorem scanMagnitude_append {negative : Bool} {whole fraction point power : List Char}
    {exponent : Option (Bool × List Char)} (hwhole : IsWhole whole)
    (hfraction : SpellsFraction fraction point) (hexponent : SpellsExponent exponent power)
    (hrest : Stops rest) :
    scanMagnitude negative (whole ++ (point ++ (power ++ rest))) =
      some (⟨negative, whole, fraction, exponent⟩, rest) := by
  have hstops := hexponent.stops hrest
  rw [scanMagnitude, scanWhole_append hwhole (hfraction.stops hstops)]
  simp only [Option.bind_eq_bind, Option.bind_some, scanFraction_append hfraction hstops,
    scanExponent_append hexponent hrest, Option.pure_def]

/-- A whole part begins with a digit. -/
theorem IsWhole.head (h : IsWhole body) : ∃ d more, body = d :: more ∧ isDigit d = true := by
  rcases h with rfl | ⟨hrun, -⟩
  · exact ⟨'0', [], rfl, rfl⟩
  · obtain ⟨d, more, rfl⟩ := List.exists_cons_of_ne_nil hrun.ne_nil
    exact ⟨d, more, rfl, hrun.digits d List.mem_cons_self⟩

/-- Numbers start with a minus or a digit. -/
theorem SpellsNumber.head {n : Literal} (h : SpellsNumber n body) :
    ∃ c more, body = c :: more ∧ (c = '-' ∨ isDigit c = true) := by
  cases h with
  | @mk negative _ _ _ _ _ hwhole _ _ =>
      cases negative with
      | true => exact ⟨'-', _, rfl, Or.inl rfl⟩
      | false =>
          obtain ⟨d, more, rfl, hd⟩ := hwhole.head
          exact ⟨d, _, rfl, Or.inr hd⟩

/-- **A number is read** where it stops. -/
theorem scanNumber_append {n : Literal} (h : SpellsNumber n body) (hrest : Stops rest) :
    scanNumber (body ++ rest) = some (n, rest) := by
  cases h with
  | @mk negative whole _ _ _ _ hwhole hfraction hexponent =>
      have hscan : scanMagnitude negative _ = _ :=
        scanMagnitude_append hwhole hfraction hexponent hrest
      simp only [List.append_assoc]
      cases negative with
      | true => exact hscan
      | false =>
          obtain ⟨d, more, rfl, hd⟩ := hwhole.head
          rw [if_neg Bool.false_ne_true, List.nil_append, scanNumber]
          · exact hscan
          · intro later hlater
            rw [(List.cons.inj hlater).1] at hd
            exact absurd hd (by decide)

/-- What is read as a number without its sign is spelled like one, with any
sign. -/
theorem spells_of_scanMagnitude {negative : Bool} {n : Literal}
    (h : scanMagnitude negative cs = some (n, rest)) :
    ∃ body, (if negative then ['-'] else []) ++ cs = body ++ rest ∧ SpellsNumber n body := by
  rw [scanMagnitude] at h
  obtain ⟨⟨whole, afterWhole⟩, hwhole, hthen⟩ := Option.bind_eq_some_iff.mp h
  obtain ⟨⟨fraction, afterFraction⟩, hfraction, hthen⟩ := Option.bind_eq_some_iff.mp hthen
  obtain ⟨⟨exponent, afterExponent⟩, hexponent, hthen⟩ := Option.bind_eq_some_iff.mp hthen
  cases hthen
  obtain ⟨rfl, hspells⟩ := isWhole_of_scanWhole hwhole
  obtain ⟨point, rfl, hspells'⟩ := spellsFraction_of_scanFraction hfraction
  obtain ⟨power, rfl, hspells''⟩ := spellsExponent_of_scanExponent hexponent
  exact ⟨_, by simp, .mk hspells hspells' hspells''⟩

/-- **What is read as a number is spelled like one.** -/
theorem spellsNumber_of_scanNumber {n : Literal} (h : scanNumber cs = some (n, rest)) :
    ∃ body, cs = body ++ rest ∧ SpellsNumber n body := by
  unfold scanNumber at h
  split at h
  · exact spells_of_scanMagnitude h
  · exact spells_of_scanMagnitude h

/-! ## Texts -/

/-- **The pieces of a text are read** up to its closing quote. -/
theorem scanPieces_append {pieces : List Piece} (h : SpellsPieces pieces body) :
    scanPieces (body ++ '"' :: rest) = some (pieces, rest) := by
  induction h with
  | nil => rw [List.nil_append, scanPieces]
  | @plain c _ _ hquote hslash hcontrol _ ih =>
      rw [List.cons_append, scanPieces]
      · rw [if_neg (not_or.mpr ⟨hslash, not_lt.mpr hcontrol⟩), ih]
        rfl
      · exact hquote
      · exact fun _ _ _ _ _ hc _ => hslash hc
      · exact fun _ _ hc _ => hslash hc
  | @escape mark c _ _ hmark _ ih =>
      rw [List.cons_append, List.cons_append, scanPieces]
      · rw [hmark, Option.bind_eq_bind, Option.bind_some, ih]
        rfl
      · rintro a b c d more rfl -
        cases hmark
  | unit hcode _ ih =>
      simp only [List.cons_append]
      rw [scanPieces, hcode, Option.bind_eq_bind, Option.bind_some, ih]
      rfl

/-- What is read as pieces is spelled like them, and closed by a quote. -/
theorem spellsPieces_of_scanPieces {pieces : List Piece}
    (h : scanPieces cs = some (pieces, rest)) :
    ∃ body, cs = body ++ '"' :: rest ∧ SpellsPieces pieces body := by
  fun_induction scanPieces cs generalizing pieces with
  | case1 => cases h
  | case2 more =>
      cases h
      exact ⟨[], rfl, .nil⟩
  | case3 a b c d more ih =>
      obtain ⟨code, hcode, h⟩ := Option.bind_eq_some_iff.mp h
      obtain ⟨⟨pieces', rest'⟩, hmore, h⟩ := Option.bind_eq_some_iff.mp h
      cases h
      obtain ⟨body, rfl, hbody⟩ := ih hmore
      exact ⟨'\\' :: 'u' :: a :: b :: c :: d :: body, rfl, .unit hcode hbody⟩
  | case4 mark more _ ih =>
      obtain ⟨c, hmark, h⟩ := Option.bind_eq_some_iff.mp h
      obtain ⟨⟨pieces', rest'⟩, hmore, h⟩ := Option.bind_eq_some_iff.mp h
      cases h
      obtain ⟨body, rfl, hbody⟩ := ih hmore
      exact ⟨'\\' :: mark :: body, rfl, .escape hmark hbody⟩
  | case5 => cases h
  | case6 c more hquote _ _ hplain ih =>
      obtain ⟨hslash, hcontrol⟩ := not_or.mp hplain
      obtain ⟨⟨pieces', rest'⟩, hmore, h⟩ := Option.bind_eq_some_iff.mp h
      cases h
      obtain ⟨body, rfl, hbody⟩ := ih hmore
      exact ⟨c :: body, rfl, .plain hquote hslash (not_lt.mp hcontrol) hbody⟩

end Json

end Univariate
