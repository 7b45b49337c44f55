import Univariate.Proofs.Expr.Spans
import Univariate.Proofs.Expr.Words

/-!
# How a text is laid out

The lexer reads a text as spacing, then words with the spacing behind each
of them, and then nothing or a word that it refuses.  So a text is its
words and the gaps around them, and the tokens stand where the words do.

A word is taken as it is because of what follows it: a number might go on
with digits or an exponent, a name with letters.  In front of spacing, or
at the end of the text, nothing follows.  So the words of any text, written
with spacing between them, are read as the same tokens.

* `Breaks`, `IsWord` — a word that is taken whole in front of a gap;
* `isWord_of_scan` — whatever the lexer takes is such a word, also where it
  was not followed by a gap;
* `Piece`, `exists_pieces` — a text as a list of words with their gaps;
* `forall₂_place`, `isSpacingByte_outside`, `byte_of_failure` — what is at
  which byte of it;
* `lexes_of_gaps` — the words with other gaps;
* `Layout`, `lex_layout` — all of this about the tokens of a text.
-/

namespace Univariate

namespace Token

variable {name cs rest word gap front back : List Char} {c : Char} {token : Token}
  {tail position : ℕ}

/-! ## Words in front of a gap -/

/-- The rest of a text after a word is empty or goes on with spacing. -/
def Breaks (rest : List Char) : Prop := ∀ c ∈ rest.head?, isSpacing c = true

/-- What has a property that no spacing has does not follow. -/
theorem Breaks.of_not {p : Char → Bool} (h : Breaks rest)
    (hp : [' ', '\t', '\n', '\r'].any p = false) : ∀ c ∈ rest.head?, p c = false := by
  intro c hc
  have hspacing := h c hc
  simp only [isSpacing, Bool.or_eq_true, beq_iff_eq] at hspacing
  simp only [List.any_cons, List.any_nil, Bool.or_false, Bool.or_eq_false_iff] at hp
  obtain ⟨hblank, htab, hline, hreturn⟩ := hp
  rcases hspacing with ((rfl | rfl) | rfl) | rfl <;> assumption

/-- A gap ends a number. -/
theorem Breaks.endsNumber (h : Breaks rest) : EndsNumber rest := by
  intro c hc
  have hmark := h.of_not (p := fun c => c == 'e' || c == 'E') rfl c hc
  simp only [Bool.or_eq_false_iff, beq_eq_false_iff_ne] at hmark
  exact ⟨h.of_not rfl c hc, hmark⟩

/-- An exponent is taken whole in front of a gap. -/
theorem exponentLength_take (h : Breaks rest) :
    exponentLength (cs.take (exponentLength cs) ++ rest) =
      (cs.take (exponentLength cs)).length := by
  rcases exponentLength_cases cs with hzero | ⟨mark, sign, digits, after, rfl, hmark, hsign, hne,
    hdigits, hlength⟩
  · rw [hzero, List.take_zero, List.nil_append, exponentLength_of_endsNumber h.endsNumber]
    rfl
  · have htake : (mark :: (sign ++ (digits ++ after))).take (1 + sign.length + digits.length) =
        mark :: (sign ++ digits) := by
      rw [add_assoc, add_comm 1, List.take_succ_cons, ← List.append_assoc, ← List.length_append,
        List.take_left]
    rw [hlength, htake, List.cons_append, List.append_assoc,
      exponentLength_signed hmark hsign hne hdigits (h.of_not rfl), List.length_cons,
      List.length_append, add_assoc, add_comm 1]

/-- A number is taken whole in front of a gap. -/
theorem numberLength_take (h : Breaks rest) :
    numberLength (cs.take (numberLength cs) ++ rest) = (cs.take (numberLength cs)).length := by
  obtain ⟨mantissa, behind, hcs, hmantissa, hbehind⟩ :
      ∃ mantissa behind, cs = mantissa ++ behind ∧ (∀ d ∈ mantissa, isMantissa d = true) ∧
        ∀ d ∈ behind.head?, isMantissa d = false :=
    ⟨cs.takeWhile isMantissa, cs.dropWhile isMantissa, List.takeWhile_append_dropWhile.symm,
      fun d hd => List.mem_takeWhile_imp hd, fun d hd => of_mem_head?_dropWhile hd⟩
  have hlength : numberLength cs = mantissa.length + exponentLength behind := by
    rw [hcs, numberLength_append hmantissa hbehind]
  have htake : cs.take (numberLength cs) = mantissa ++ behind.take (exponentLength behind) := by
    rw [hlength, hcs, List.take_length_add_append]
  have hend : ∀ d ∈ (behind.take (exponentLength behind) ++ rest).head?, isMantissa d = false := by
    cases behind with
    | nil => exact h.of_not rfl
    | cons d ds =>
        rcases Nat.eq_zero_or_pos (exponentLength (d :: ds)) with hzero | hpos
        · rw [hzero, List.take_zero]
          exact h.of_not rfl
        · obtain ⟨n, hn⟩ := Nat.exists_eq_add_of_lt hpos
          rw [hn, zero_add, List.take_succ_cons]
          exact hbehind
  rw [htake, List.append_assoc, numberLength_append hmantissa hend, exponentLength_take h,
    List.length_append]

/-- A number starts with a character of its own. -/
theorem numberLength_cons_pos (hc : isMantissa c = true) : 0 < numberLength (c :: cs) := by
  rw [numberLength, List.takeWhile_cons_of_pos hc, List.length_cons]
  omega

/-- The word is how the token is written: an operator is its character, the
variable its name, and a number is a decimal that is read as that number,
which is finite and not negative. -/
def Spells (name word : List Char) : Token → Prop
  | .number x => Decimal.read? word = some x ∧ ∃ q : ℚ, 0 ≤ q ∧ Binary64.Exactly x q
  | .var => word = name
  | token => ∃ c, word = [c] ∧ ofChar? c = some token

/-- A word that is taken as its token in front of every gap. -/
structure IsWord (name word : List Char) (token : Token) : Prop where
  spells : Spells name word token
  taken : ∃ c body, word = c :: body ∧ isSpacing c = false ∧
    ∀ rest, Breaks rest → scan name c (body ++ rest) = .ok (token, body.length)

/-- No word is empty. -/
theorem IsWord.ne_nil (h : IsWord name word token) : word ≠ [] := by
  obtain ⟨c, body, rfl, -⟩ := h.taken
  exact List.cons_ne_nil c body

/-- An operator spells its token. -/
theorem spells_of_ofChar? (hc : ofChar? c = some token) : Spells name [c] token := by
  cases token with
  | number | var =>
      unfold ofChar? at hc
      split at hc <;> cases hc
  | _ => exact ⟨c, rfl, hc⟩

/-- **What the lexer takes, it takes in front of every gap.** -/
theorem isWord_of_scan (hspacing : isSpacing c = false) (h : scan name c cs = .ok (token, tail)) :
    IsWord name (c :: cs.take tail) token := by
  unfold scan at h
  split at h
  · next token' htoken =>
    obtain ⟨rfl, rfl⟩ := Prod.mk.inj (Except.ok.inj h)
    refine ⟨spells_of_ofChar? htoken, c, _, rfl, hspacing, fun rest _ => ?_⟩
    rw [scan, htoken]
    rfl
  · next hnone =>
    simp only at h
    split_ifs at h with hmantissa hname hvar
    · split at h
      · next x hliteral =>
        obtain ⟨rfl, rfl⟩ := Prod.mk.inj (Except.ok.inj h)
        have hpos : 0 < numberLength (c :: cs) := numberLength_cons_pos hmantissa
        obtain ⟨length, hlength⟩ := Nat.exists_eq_add_of_lt hpos
        rw [zero_add] at hlength
        rw [hlength, List.take_succ_cons] at hliteral
        rw [hlength, Nat.add_sub_cancel]
        obtain ⟨hread, hfinite⟩ := Option.filter_eq_some_iff.mp hliteral
        refine ⟨⟨hread, Decimal.exactly_of_read? hread hfinite⟩, c, _, rfl, hspacing,
          fun rest hrest => ?_⟩
        have hsame : numberLength ((c :: cs).take (numberLength (c :: cs)) ++ rest) =
            ((c :: cs).take (numberLength (c :: cs))).length := numberLength_take hrest
        rw [hlength, List.take_succ_cons, List.cons_append, List.length_cons] at hsame
        rw [scan_number hmantissa hsame, hliteral, Option.elim_some]
      · cases h
    · obtain ⟨rfl, rfl⟩ := Prod.mk.inj (Except.ok.inj h)
      rw [← List.prefix_iff_eq_take.mp (List.takeWhile_prefix continuesName)]
      refine ⟨hvar, c, _, rfl, hspacing, fun rest hrest => ?_⟩
      rw [scan_name hname (Bool.not_eq_true _ ▸ hmantissa) (fun d hd => List.mem_takeWhile_imp hd)
        (hrest.of_not rfl), if_pos hvar]

/-! ## A text as its words -/

/-- A word, its token, and the spacing behind it. -/
structure Piece (name : List Char) where
  word : List Char
  token : Token
  gap : List Char
  isWord : IsWord name word token
  spacing : ∀ c ∈ gap, isSpacing c = true

variable {ps : List (Piece name)}

/-- The text of pieces, one behind the other. -/
def pieceTexts (ps : List (Piece name)) : List Char := ps.flatMap fun p => p.word ++ p.gap

/-- The tokens of pieces that stand from a byte position on. -/
def place (position : ℕ) : List (Piece name) → List Lexeme
  | [] => []
  | p :: ps => ⟨position, p.token, position + Text.byteLength p.word⟩ ::
      place (position + Text.byteLength (p.word ++ p.gap)) ps

/-- Where the lexer stops: at the end of the text, or at a word that it
refuses. -/
inductive Stops (position : ℕ) : List Char → Option Error → Prop
  | finish : Stops position [] none
  | refuse {c : Char} {cs : List Char} {fault : SyntaxFault} (hspacing : isSpacing c = false)
      (hfault : fault.IsLexical) :
      Stops position (c :: cs) (some (.malformed position fault))

/-- **A text is spacing, pieces, and what is refused.** -/
theorem exists_pieces (name : List Char) (position : ℕ) (cs : List Char) :
    ∃ (lead : List Char) (ps : List (Piece name)) (rest : List Char),
      (∀ c ∈ lead, isSpacing c = true) ∧ cs = lead ++ (pieceTexts ps ++ rest) ∧
      (lexFrom name position cs).1 = place (position + Text.byteLength lead) ps ∧
      Stops (position + Text.byteLength lead + Text.byteLength (pieceTexts ps)) rest
        (lexFrom name position cs).2 := by
  fun_induction lexFrom name position cs with
  | case1 position => exact ⟨[], [], [], List.forall_mem_nil _, rfl, rfl, .finish⟩
  | case2 position c cs hspacing ih =>
      obtain ⟨lead, ps, rest, hlead, rfl, hplace, hstops⟩ := ih
      refine ⟨c :: lead, ps, rest, List.forall_mem_cons.mpr ⟨hspacing, hlead⟩, rfl, ?_, ?_⟩
      · rw [hplace, Text.byteLength_cons, add_assoc]
      · rwa [Text.byteLength_cons, ← add_assoc]
  | case3 position c cs hspacing fault hscan =>
      exact ⟨[], [], c :: cs, List.forall_mem_nil _, rfl, rfl,
        .refuse (Bool.not_eq_true _ ▸ hspacing) (isLexical_of_scan hscan)⟩
  | case4 position c cs hspacing token tail hscan stop rest failure hrest ih =>
      -- The spacing in front of the next word is the gap behind this one.
      obtain ⟨gap, ps, refused, hgap, hcs, hplace, hstops⟩ := ih
      rw [hrest] at hplace hstops
      obtain rfl : rest = place (stop + Text.byteLength gap) ps := hplace
      have hword := isWord_of_scan (Bool.not_eq_true _ ▸ hspacing) hscan
      have htext : c :: cs = (c :: cs.take tail) ++ (gap ++ (pieceTexts ps ++ refused)) := by
        rw [← hcs, List.cons_append, List.take_append_drop]
      refine ⟨[], ⟨_, token, gap, hword, hgap⟩ :: ps, refused, List.forall_mem_nil _, ?_, ?_, ?_⟩
      · exact htext.trans (by simp [pieceTexts])
      · simp only [place, Text.byteLength_nil, add_zero, Text.byteLength_append, ← add_assoc]
        rfl
      · simpa [pieceTexts, Text.byteLength_append, stop, add_assoc] using hstops

/-! ## Where the tokens stand -/

/-- The bytes from `start` to `stop` are those of the word, and on both
sides of them there are whole characters. -/
def Covers (text : String) (start stop : ℕ) (word : List Char) : Prop :=
  ∃ front back, text.toList = front ++ word ++ back ∧ start = Text.byteLength front ∧
    stop = Text.byteLength (front ++ word)

variable {text : String}

/-- A word begins and ends between characters. -/
theorem Covers.boundaries {start stop : ℕ} (h : Covers text start stop word) :
    OnBoundary text start ∧ OnBoundary text stop := by
  obtain ⟨front, back, htext, rfl, rfl⟩ := h
  exact ⟨onBoundary_of_toList (by rw [htext, List.append_assoc]), onBoundary_of_toList htext⟩

/-- What is not empty has bytes. -/
theorem byteLength_pos (h : word ≠ []) : 0 < Text.byteLength word := by
  obtain ⟨c, cs, rfl⟩ := List.exists_cons_of_ne_nil h
  rw [Text.byteLength_cons]
  exact Nat.add_pos_left c.utf8Size_pos _

/-- Every token covers its word. -/
theorem forall₂_place (htext : text.toList = front ++ (pieceTexts ps ++ rest)) :
    List.Forall₂ (fun l word => (l.start < l.stop ∧ OnBoundary text l.start ∧
        OnBoundary text l.stop) ∧ Covers text l.start l.stop word ∧ Spells name word l.token)
      (place (Text.byteLength front) ps) (ps.map Piece.word) := by
  induction ps generalizing front with
  | nil => exact .nil
  | cons p ps ih =>
      have hnext : text.toList = (front ++ (p.word ++ p.gap)) ++ (pieceTexts ps ++ rest) := by
        simpa [pieceTexts] using htext
      have hcovers : Covers text (Text.byteLength front)
          (Text.byteLength front + Text.byteLength p.word) p.word := by
        refine ⟨front, p.gap ++ (pieceTexts ps ++ rest), ?_, rfl, ?_⟩
        · simpa [pieceTexts] using htext
        · rw [Text.byteLength_append]
      refine .cons ⟨⟨?_, hcovers.boundaries⟩, hcovers, p.isWord.spells⟩ ?_
      · exact Nat.lt_add_of_pos_right (byteLength_pos p.isWord.ne_nil)
      · rw [← Text.byteLength_append]
        exact ih hnext

/-- The tokens stand in the text of their pieces. -/
theorem bounds_of_mem_place {l : Lexeme} (h : l ∈ place position ps) :
    position ≤ l.start ∧ l.stop ≤ position + Text.byteLength (pieceTexts ps) := by
  induction ps generalizing position with
  | nil => cases h
  | cons p ps ih =>
      have hlength : Text.byteLength (pieceTexts (p :: ps)) =
          Text.byteLength (p.word ++ p.gap) + Text.byteLength (pieceTexts ps) := by
        rw [← Text.byteLength_append]
        rfl
      have hword := Text.byteLength_append p.word p.gap
      rcases List.mem_cons.mp h with rfl | h
      · exact ⟨le_rfl, by simp only; omega⟩
      · obtain ⟨hlow, hhigh⟩ := ih h
        omega

/-- They stand one behind the other. -/
theorem pairwise_place (position : ℕ) (ps : List (Piece name)) :
    (place position ps).Pairwise fun l m => l.stop ≤ m.start := by
  induction ps generalizing position with
  | nil => exact .nil
  | cons p ps ih =>
      refine .cons (fun m hm => ?_) (ih _)
      have hlow := (bounds_of_mem_place hm).1
      rw [Text.byteLength_append] at hlow
      simp only
      omega

/-! ## What stands between them -/

/-- Blank, tabulator, line feed or carriage return. -/
def IsSpacingByte (byte : UInt8) : Prop := byte = 32 ∨ byte = 9 ∨ byte = 10 ∨ byte = 13

/-- The bytes of a run of characters. -/
def bytes (cs : List Char) : List UInt8 := cs.flatMap String.utf8EncodeChar

/-- The bytes of two texts one behind the other. -/
theorem bytes_append (cs ds : List Char) : bytes (cs ++ ds) = bytes cs ++ bytes ds :=
  List.flatMap_append

/-- There are as many bytes as the widths add up to. -/
theorem length_bytes (cs : List Char) : (bytes cs).length = Text.byteLength cs := by
  induction cs with
  | nil => rfl
  | cons c cs ih =>
      rw [bytes, List.flatMap_cons, List.length_append, String.length_utf8EncodeChar,
        Text.byteLength_cons, ← ih]
      rfl

theorem getElem?_toByteArray (bs : List UInt8) (i : ℕ) : bs.toByteArray[i]? = bs[i]? := by
  have hdata : bs.toByteArray.data = bs.toArray := List.data_toByteArray
  have hsize : bs.toByteArray.size = bs.length := by
    rw [ByteArray.size, hdata, List.size_toArray]
  rcases lt_or_ge i bs.length with h | h
  · rw [getElem?_pos _ i (hsize.symm ▸ h), List.getElem?_eq_getElem h]
    simp only [ByteArray.getElem_eq_getElem_data, hdata, List.getElem_toArray]
  · rw [getElem?_neg _ i (by omega), List.getElem?_eq_none h]

theorem getElem?_toUTF8 (text : String) (i : ℕ) : text.toUTF8[i]? = (bytes text.toList)[i]? := by
  rw [← getElem?_toByteArray, bytes, ← List.utf8Encode, ← String.toByteArray_ofList,
    String.ofList_toList]
  rfl

/-- The four bytes of spacing. -/
theorem isSpacingByte_iff (byte : UInt8) : IsSpacingByte byte ↔
    byte.toNat = 32 ∨ byte.toNat = 9 ∨ byte.toNat = 10 ∨ byte.toNat = 13 := by
  simp only [IsSpacingByte, ← UInt8.toNat_inj]
  rfl

/-- The four characters of spacing. -/
theorem isSpacing_iff (c : Char) : isSpacing c = true ↔
    c.toNat = 32 ∨ c.toNat = 9 ∨ c.toNat = 10 ∨ c.toNat = 13 := by
  simp only [isSpacing, Bool.or_eq_true, beq_iff_eq, Char.ext_iff, ← UInt32.toNat_inj, or_assoc]
  rfl

/-- **A byte at the start of a character is spacing if the character is.** -/
theorem exists_first_byte (c : Char) : ∃ byte more, String.utf8EncodeChar c = byte :: more ∧
    (IsSpacingByte byte ↔ isSpacing c = true) ∧ (isSpacing c = true → more = []) := by
  have hval : c.val.toNat = c.toNat := rfl
  unfold String.utf8EncodeChar
  dsimp only
  rw [hval]
  split_ifs
  all_goals
    refine ⟨_, _, rfl, ?_, ?_⟩
    · simp only [isSpacingByte_iff, isSpacing_iff, UInt8.toNat_ofNat']
      norm_num
      omega
    · rw [isSpacing_iff]
      intro hspacing
      first | rfl | exact absurd hspacing (by omega)

/-- All bytes of a gap are spacing. -/
theorem isSpacingByte_of_gap {i : ℕ} {byte : UInt8} (hgap : ∀ c ∈ gap, isSpacing c = true)
    (h : (bytes gap)[i]? = some byte) : IsSpacingByte byte := by
  obtain ⟨c, hc, hbyte⟩ := List.mem_flatMap.mp (List.mem_of_getElem? h)
  obtain ⟨first, more, hbytes, hiff, hmore⟩ := exists_first_byte c
  rw [hbytes, hmore (hgap c hc), List.mem_singleton] at hbyte
  exact hbyte ▸ hiff.mpr (hgap c hc)

/-- **A byte outside of all tokens is one of a gap.** -/
theorem isSpacingByte_of_place {i : ℕ} {byte : UInt8}
    (h : (bytes (pieceTexts ps))[i]? = some byte)
    (hout : ∀ l ∈ place position ps, position + i < l.start ∨ l.stop ≤ position + i) :
    IsSpacingByte byte := by
  induction ps generalizing position i with
  | nil => cases h
  | cons p ps ih =>
      rw [place, List.forall_mem_cons] at hout
      obtain ⟨hword, hout⟩ := hout
      have hbehind : Text.byteLength p.word ≤ i := by
        simp only at hword
        omega
      have hbytes : bytes (pieceTexts (p :: ps)) =
          bytes p.word ++ (bytes p.gap ++ bytes (pieceTexts ps)) := by
        rw [← bytes_append, ← bytes_append, ← List.append_assoc]
        rfl
      rw [hbytes, List.getElem?_append_right (by rwa [length_bytes])] at h
      rcases lt_or_ge (i - (bytes p.word).length) (bytes p.gap).length with hgap | hgap
      · rw [List.getElem?_append_left hgap] at h
        exact isSpacingByte_of_gap p.spacing h
      · rw [List.getElem?_append_right hgap] at h
        have hwidth := Text.byteLength_append p.word p.gap
        rw [length_bytes, length_bytes] at h hgap
        have hlater : ∀ l ∈ place (position + Text.byteLength (p.word ++ p.gap)) ps,
            position + Text.byteLength (p.word ++ p.gap) +
                (i - Text.byteLength p.word - Text.byteLength p.gap) < l.start ∨
              l.stop ≤ position + Text.byteLength (p.word ++ p.gap) +
                (i - Text.byteLength p.word - Text.byteLength p.gap) := by
          intro l hl
          have hl := hout l hl
          omega
        exact ih h hlater

section Outside

variable {lead : List Char} {failure : Option Error}

/-- The bytes of a text are those of its gaps and words. -/
theorem bytes_eq (htext : text.toList = lead ++ (pieceTexts ps ++ rest)) :
    bytes text.toList = bytes lead ++ (bytes (pieceTexts ps) ++ bytes rest) := by
  rw [htext, bytes_append, bytes_append]

/-- **Outside of the tokens there is nothing but spacing.** -/
theorem isSpacingByte_outside (hlead : ∀ c ∈ lead, isSpacing c = true)
    (htext : text.toList = lead ++ (pieceTexts ps ++ rest))
    (hstops : Stops (Text.byteLength lead + Text.byteLength (pieceTexts ps)) rest failure)
    {i : ℕ} {byte : UInt8} (hbyte : text.toUTF8[i]? = some byte)
    (hout : ∀ l ∈ place (Text.byteLength lead) ps, i < l.start ∨ l.stop ≤ i)
    (hbefore : ∀ p fault, failure = some (.malformed p fault) → i < p) : IsSpacingByte byte := by
  rw [getElem?_toUTF8, bytes_eq htext] at hbyte
  rcases lt_or_ge i (bytes lead).length with hi | hi
  · rw [List.getElem?_append_left hi] at hbyte
    exact isSpacingByte_of_gap hlead hbyte
  rw [List.getElem?_append_right hi] at hbyte
  rcases lt_or_ge (i - (bytes lead).length) (bytes (pieceTexts ps)).length with hpiece | hpiece
  · rw [List.getElem?_append_left hpiece] at hbyte
    have hsame : Text.byteLength lead + (i - (bytes lead).length) = i := by
      rw [length_bytes] at hi ⊢
      omega
    have hplaces : ∀ l ∈ place (Text.byteLength lead) ps,
        Text.byteLength lead + (i - (bytes lead).length) < l.start ∨
          l.stop ≤ Text.byteLength lead + (i - (bytes lead).length) := by
      rwa [hsame]
    exact isSpacingByte_of_place hbyte hplaces
  · rw [List.getElem?_append_right hpiece] at hbyte
    cases hstops with
    | finish => cases hbyte
    | refuse hspacing hfault =>
        have hlt := hbefore _ _ rfl
        rw [length_bytes] at hi hpiece
        rw [length_bytes] at hpiece
        omega

/-- **A failure is named where a word starts.** -/
theorem byte_of_failure (htext : text.toList = lead ++ (pieceTexts ps ++ rest))
    (hstops : Stops (Text.byteLength lead + Text.byteLength (pieceTexts ps)) rest failure) :
    ∀ error ∈ failure, ∃ p fault byte, error = .malformed p fault ∧ fault.IsLexical ∧
      (∀ l ∈ place (Text.byteLength lead) ps, l.stop ≤ p) ∧ OnBoundary text p ∧
      text.toUTF8[p]? = some byte ∧ ¬ IsSpacingByte byte := by
  intro error herror
  cases hstops with
  | finish => cases herror
  | @refuse c cs fault hspacing hfault =>
      obtain rfl := Option.some.inj herror
      obtain ⟨byte, more, hfirst, hiff, -⟩ := exists_first_byte c
      refine ⟨_, fault, byte, rfl, hfault, fun l hl => (bounds_of_mem_place hl).2, ?_, ?_, ?_⟩
      · rw [← Text.byteLength_append]
        exact onBoundary_of_toList (by rw [htext, List.append_assoc])
      · rw [getElem?_toUTF8, bytes_eq htext, ← List.append_assoc, ← length_bytes, ← length_bytes,
          ← List.length_append, List.getElem?_append_right le_rfl, Nat.sub_self, bytes,
          List.flatMap_cons, hfirst]
        rfl
      · rw [hiff, hspacing]
        decide

end Outside

/-! ## Written with other gaps -/

/-- A gap in front is passed over. -/
theorem Lexes.spacings {tokens : List Token} (h : Lexes name cs tokens)
    (hgap : ∀ c ∈ gap, isSpacing c = true) : Lexes name (gap ++ cs) tokens := by
  induction gap with
  | nil => exact h
  | cons c gap ih =>
      rw [List.forall_mem_cons] at hgap
      exact (ih hgap.2).spacing hgap.1

/-- **Words with gaps between them are read one by one.** -/
theorem lexes_of_gaps {gaps : List (List Char)} (hlength : gaps.length = ps.length)
    (hspacing : ∀ gap ∈ gaps, ∀ c ∈ gap, isSpacing c = true)
    (hne : ∀ gap ∈ gaps.dropLast, gap ≠ []) :
    Lexes name (List.zipWith (· ++ ·) (ps.map Piece.word) gaps).flatten
      (ps.map Piece.token) := by
  induction ps generalizing gaps with
  | nil => exact lexes_nil
  | cons p ps ih =>
      cases gaps with
      | nil => cases hlength
      | cons gap gaps =>
          rw [List.forall_mem_cons] at hspacing
          obtain ⟨hgap, hspacing⟩ := hspacing
          have hlength : gaps.length = ps.length := Nat.succ.inj hlength
          have hlater : ∀ gap ∈ gaps.dropLast, gap ≠ [] := by
            cases gaps with
            | nil => nofun
            | cons next gaps => exact fun gap hmem => hne gap (List.mem_cons_of_mem _ hmem)
          have hmore := ih hlength hspacing hlater
          obtain ⟨c, body, hword, hc, htaken⟩ := p.isWord.taken
          have hbreaks : Breaks
              (gap ++ (List.zipWith (· ++ ·) (ps.map Piece.word) gaps).flatten) := by
            cases gap with
            | cons d gap => exact fun c hc => hgap c (Option.some.inj hc ▸ List.mem_cons_self)
            | nil =>
                -- Only the last gap may be empty, and behind it the text ends.
                cases gaps with
                | nil => simp [Breaks]
                | cons next gaps => exact absurd rfl (hne [] List.mem_cons_self)
          have hlexes := (hmore.spacings hgap).word hc (htaken _ hbreaks)
          simpa [hword] using hlexes

/-- The words again, with spacing in front of them, between them and behind
them, of which what is between two words may not be empty. -/
def Respaced (words : List (List Char)) (text : String) : Prop :=
  ∃ (lead : List Char) (gaps : List (List Char)), gaps.length = words.length ∧
    (∀ gap ∈ lead :: gaps, ∀ c ∈ gap, isSpacing c = true) ∧ (∀ gap ∈ gaps.dropLast, gap ≠ []) ∧
    text.toList = lead ++ (List.zipWith (· ++ ·) words gaps).flatten

/-! ## The layout of a text -/

/-- What the tokens of a text, the failure behind them and the words that
they stand for have to do with the text. -/
structure Layout (name text : String) (ls : List Lexeme) (failure : Option Error)
    (words : List (List Char)) : Prop where
  /-- Every token stands for its word, and covers it. -/
  words_spell : List.Forall₂ (fun l word => Covers text l.start l.stop word ∧
    Spells name.toList word l.token) ls words
  nonempty : ∀ l ∈ ls, l.start < l.stop
  boundaries : ∀ l ∈ ls, OnBoundary text l.start ∧ OnBoundary text l.stop
  within : ∀ l ∈ ls, l.stop ≤ text.utf8ByteSize
  ordered : ls.Pairwise fun l m => l.stop ≤ m.start
  /-- Outside of the tokens there is nothing but spacing, up to a failure. -/
  spacing : ∀ i byte, text.toUTF8[i]? = some byte → (∀ l ∈ ls, i < l.start ∨ l.stop ≤ i) →
    (∀ p fault, failure = some (.malformed p fault) → i < p) → IsSpacingByte byte
  /-- A failure is named where the next word starts. -/
  failure_at : ∀ error ∈ failure, ∃ p fault byte, error = .malformed p fault ∧
    fault.IsLexical ∧ (∀ l ∈ ls, l.stop ≤ p) ∧ OnBoundary text p ∧
    text.toUTF8[p]? = some byte ∧ ¬ IsSpacingByte byte
  /-- Without a failure, other gaps make no difference. -/
  respaced : failure = none → ∀ other, Respaced words other →
    (lex name other).2 = none ∧
    (lex name other).1.map Lexeme.token = ls.map Lexeme.token ∧
    ∀ t, Expr.parse name text = .ok t ↔ Expr.parse name other = .ok t

/-- Wherever the pieces are, their tokens are the same. -/
theorem map_token_place (position : ℕ) (ps : List (Piece name)) :
    (place position ps).map Lexeme.token = ps.map Piece.token := by
  induction ps generalizing position with
  | nil => rfl
  | cons p ps ih => exact congrArg (p.token :: ·) (ih _)

/-- **Lexing loses nothing and ignores spacing.** -/
theorem lex_layout (name text : String) :
    ∃ words, Layout name text (lex name text).1 (lex name text).2 words := by
  obtain ⟨lead, ps, rest, hlead, htext, hplace, hstops⟩ :=
    exists_pieces name.toList 0 text.toList
  rw [zero_add] at hplace hstops
  have hls : (lex name text).1 = place (Text.byteLength lead) ps := hplace
  obtain ⟨hspans, hspell⟩ := (List.forall₂_and_left _ _).mp (forall₂_place htext)
  refine ⟨ps.map Piece.word, ?_⟩
  rw [hls]
  exact {
    words_spell := hspell
    nonempty := fun l hl => (hspans l hl).1
    boundaries := fun l hl => (hspans l hl).2
    within := fun l hl => (hspans l hl).2.2.le
    ordered := pairwise_place _ ps
    spacing := fun i byte => isSpacingByte_outside hlead htext hstops
    failure_at := byte_of_failure htext hstops
    respaced := by
      rintro hnone other ⟨lead', gaps, hlength, hspacing, hne, hother⟩
      rw [List.forall_mem_cons] at hspacing
      rw [List.length_map] at hlength
      have hlexes : Lexes name.toList other.toList (ps.map Piece.token) := by
        rw [hother]
        exact (lexes_of_gaps hlength hspacing.2 hne).spacings hspacing.1
      obtain ⟨ls, hlex, htokens⟩ := hlexes 0
      have hsame : (lex name text).1.map Lexeme.token = ps.map Piece.token := by
        rw [hls, map_token_place]
      have hother : lex name other = (ls, none) := hlex
      rw [hother, map_token_place]
      refine ⟨rfl, htokens, fun t => ⟨fun h => ?_, fun h => ?_⟩⟩
      · exact Expr.parse_of_lexes hlexes (hsame ▸ (Expr.derives_of_parse h).2)
      · have hderives := (Expr.derives_of_parse h).2
        rw [hother] at hderives
        exact Expr.parse_of_lex (Prod.ext rfl hnone) ((hsame.trans htokens.symm) ▸ hderives) }

end Token

end Univariate
