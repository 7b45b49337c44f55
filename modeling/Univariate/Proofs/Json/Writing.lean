import Univariate.Json.Writer
import Univariate.Proofs.Json.Reading

/-!
# Writing is within the grammar

The compact form of a value writes that value, with one difference: a
control character without a short escape comes back as the unit that was
written for it.  What a text amounts to is the same in both forms.

* `Json.reread` — the value that the compact form writes;
* `Json.Writable` — values whose units and numbers can be written;
* `Json.parse?_write` — a value that is written is read;
* `Json.charsOfPieces?_reread` — a text keeps its characters.
-/

namespace Univariate

namespace Json

/-! ## Texts -/

/-- The piece that is read where a piece has been written. -/
def Piece.reread : Piece → Piece
  | char c =>
    if c.toNat < 0x20 ∧ c ∉ ['\x08', '\x0c', '\n', '\r', '\t'] then unit c.toNat else char c
  | unit code => unit code

/-- The unit fits into four hexadecimal digits. -/
def Piece.InRange : Piece → Prop
  | char _ => True
  | unit code => code < 0x10000

theorem hexValue?_digitChar : ∀ k < 16, hexValue? (Nat.digitChar k) = some k := by decide

/-- A hexadecimal digit is read as its value. -/
theorem hexValue?_hexDigit (n : ℕ) : hexValue? (hexDigit n) = some (n % 16) :=
  hexValue?_digitChar (n % 16) (Nat.mod_lt n (by decide))

/-- **Four hexadecimal digits are read back.** -/
theorem unitOfHex?_hexDigits {code : ℕ} (h : code < 0x10000) :
    unitOfHex? (hexDigit (code / 4096)) (hexDigit (code / 256)) (hexDigit (code / 16))
      (hexDigit code) = some code := by
  have hdigits : ((code / 4096 % 16 * 16 + code / 256 % 16) * 16 + code / 16 % 16) * 16 +
      code % 16 = code := by omega
  simp [unitOfHex?, hexValue?_hexDigit, hdigits]

/-- An escape of four digits spells its unit. -/
theorem spellsPieces_escapeUnit {code : ℕ} (hcode : code < 0x10000) {pieces : List Piece}
    {cs : List Char} (h : SpellsPieces pieces cs) :
    SpellsPieces (.unit code :: pieces) (escapeUnit code ++ cs) :=
  .unit (unitOfHex?_hexDigits hcode) h

/-- **Every character is spelled**, with an escape if it needs one. -/
theorem spellsPieces_escapeChar (c : Char) {pieces : List Piece} {cs : List Char}
    (h : SpellsPieces pieces cs) :
    SpellsPieces ((Piece.char c).reread :: pieces) (escapeChar c ++ cs) := by
  unfold escapeChar
  split_ifs with hquote hslash hb hf hn hr ht hcontrol
  · subst hquote
    exact .escape rfl h
  · subst hslash
    exact .escape rfl h
  · subst hb
    exact .escape rfl h
  · subst hf
    exact .escape rfl h
  · subst hn
    exact .escape rfl h
  · subst hr
    exact .escape rfl h
  · subst ht
    exact .escape rfl h
  · have hunit : (Piece.char c).reread = .unit c.toNat := by
      simp [Piece.reread, hcontrol, hb, hf, hn, hr, ht]
    rw [hunit]
    exact spellsPieces_escapeUnit (by omega) h
  · have hplain : (Piece.char c).reread = .char c := by simp [Piece.reread, hcontrol]
    rw [hplain]
    exact .plain hquote hslash (by omega) h

/-- **Pieces spell what is read back of them.** -/
theorem spellsPieces_reread {pieces : List Piece} (h : ∀ p ∈ pieces, p.InRange) :
    SpellsPieces (pieces.map Piece.reread) (pieces.flatMap Piece.chars) := by
  induction pieces with
  | nil => exact .nil
  | cons p pieces ih =>
      obtain ⟨hp, hpieces⟩ := List.forall_mem_cons.mp h
      rw [List.map_cons, List.flatMap_cons]
      cases p with
      | char c => exact spellsPieces_escapeChar c (ih hpieces)
      | unit code => exact spellsPieces_escapeUnit hp (ih hpieces)

/-- A unit that is no half stands for its character. -/
theorem charsOfPieces?_unit {n : ℕ} (hhigh : isHighSurrogate n = false)
    (hlow : isLowSurrogate n = false) (rest : List Piece) :
    charsOfPieces? (.unit n :: rest) = (charsOfPieces? rest).map (Char.ofNat n :: ·) := by
  cases rest with
  | nil => simp [charsOfPieces?, hhigh, hlow]
  | cons p rest => cases p <;> simp [charsOfPieces?, hhigh, hlow]

/-- A half needs a unit next to it. -/
theorem charsOfPieces?_lone {n : ℕ} (hn : (isHighSurrogate n || isLowSurrogate n) = true)
    {rest : List Piece} (hrest : ∀ m later, rest = .unit m :: later → isLowSurrogate m = false) :
    charsOfPieces? (.unit n :: rest) = none := by
  cases rest with
  | nil => simp [charsOfPieces?, hn]
  | cons p rest =>
      cases p with
      | char c => simp [charsOfPieces?, hn]
      | unit m =>
          rw [charsOfPieces?]
          split_ifs with hhigh hm hlow
          · simp [hrest m rest rfl] at hm
          · rfl
          · rfl
          · simp [hhigh, hlow] at hn

/-- Below the surrogates there are none. -/
theorem isSurrogate_of_lt {n : ℕ} (h : n < 0xD800) :
    isHighSurrogate n = false ∧ isLowSurrogate n = false := by
  simp only [isHighSurrogate, isLowSurrogate, Bool.and_eq_false_iff, decide_eq_false_iff_not]
  omega

/-- **A text keeps its characters** when it is written and read. -/
theorem charsOfPieces?_reread (pieces : List Piece) :
    charsOfPieces? (pieces.map Piece.reread) = charsOfPieces? pieces := by
  fun_induction charsOfPieces? pieces with
  | case1 => rfl
  | case2 c rest ih =>
      rw [List.map_cons, Piece.reread]
      split_ifs with hunit
      · obtain ⟨hhigh, hlow⟩ := isSurrogate_of_lt (hunit.1.trans (by decide))
        rw [charsOfPieces?_unit hhigh hlow, ih, Char.ofNat_toNat]
      · rw [charsOfPieces?, ih]
  | case3 n m rest hhigh hlow ih => simp [Piece.reread, charsOfPieces?, hhigh, hlow, ih]
  | case4 n m rest hhigh hlow => simp [Piece.reread, charsOfPieces?, hhigh, hlow]
  | case5 n m rest hhigh hlow => simp [Piece.reread, charsOfPieces?, hhigh, hlow]
  | case6 n m rest hhigh hlow ih =>
      rw [Bool.not_eq_true] at hhigh hlow
      rw [List.map_cons, Piece.reread, charsOfPieces?_unit hhigh hlow, ih]
  | case7 n rest hrest hn =>
      rw [List.map_cons, Piece.reread]
      refine charsOfPieces?_lone hn fun m later hlater => ?_
      cases rest with
      | nil => cases hlater
      | cons p rest =>
          obtain ⟨hp, -⟩ := List.cons.inj hlater
          cases p with
          | unit k => exact absurd rfl (hrest k rest)
          | char c =>
              rw [Piece.reread] at hp
              split_ifs at hp with hunit
              obtain rfl := Piece.unit.inj hp
              exact (isSurrogate_of_lt (hunit.1.trans (by decide))).2
  | case8 n rest hrest hn ih =>
      obtain ⟨hhigh, hlow⟩ := Bool.or_eq_false_iff.mp (Bool.eq_false_iff.mpr hn)
      rw [List.map_cons, Piece.reread, charsOfPieces?_unit hhigh hlow, ih]

/-- The value that is read where a value has been written. -/
def reread : Json → Json
  | text pieces => .text (pieces.map Piece.reread)
  | array items => .array (items.map reread)
  | object members => .object (members.map fun m => (m.1.map Piece.reread, m.2.reread))
  | null => .null
  | bool b => .bool b
  | number n => .number n
termination_by v => sizeOf v
decreasing_by
  · have := List.sizeOf_lt_of_mem ‹_›
    simp only [array.sizeOf_spec]
    omega
  · obtain ⟨key, v⟩ := m
    have := List.sizeOf_lt_of_mem ‹_›
    simp only [object.sizeOf_spec, Prod.mk.sizeOf_spec] at *
    omega

/-! ## Values -/

/-- A value that can be written: its units fit, and its numbers are spelled
as numbers are. -/
inductive Writable : Json → Prop
  | null : Writable .null
  | bool (b : Bool) : Writable (.bool b)
  | number {n : Literal} (h : SpellsNumber n n.chars) : Writable (.number n)
  | text {pieces : List Piece} (h : ∀ p ∈ pieces, p.InRange) : Writable (.text pieces)
  | array {items : List Json} (h : ∀ v ∈ items, Writable v) : Writable (.array items)
  | object {members : List (List Piece × Json)} (hkeys : ∀ m ∈ members, ∀ p ∈ m.1, p.InRange)
      (hvalues : ∀ m ∈ members, Writable m.2) : Writable (.object members)

/-- Another value and a comma in front. -/
theorem Part.Written.moreItems {v : Json} {vs : List Json} {cs ds : List Char}
    (h : Json.Written v cs) (hs : (Part.items vs).Written ds) :
    (Part.items (v :: vs)).Written (cs ++ ',' :: ds) := by
  obtain ⟨ts, hts, hv⟩ := h
  obtain ⟨us, hus, hvs⟩ := hs
  exact ⟨_, hts.append (.word .comma hus), .moreItems hv hvs⟩

/-- A key, a colon and a value. -/
theorem Part.Written.member {key : List Piece} {v : Json} {ks cs : List Char}
    (hkey : Word (.text key) ks) (h : Json.Written v cs) :
    (Part.members [(key, v)]).Written (ks ++ ':' :: cs) := by
  obtain ⟨ts, hts, hv⟩ := h
  exact ⟨_, .word hkey (.word .colon hts), .member hv⟩

/-- Another member and a comma in front. -/
theorem Part.Written.moreMembers {key : List Piece} {v : Json} {ms : List (List Piece × Json)}
    {ks cs ds : List Char} (hkey : Word (.text key) ks) (h : Json.Written v cs)
    (hs : (Part.members ms).Written ds) :
    (Part.members ((key, v) :: ms)).Written (ks ++ ':' :: (cs ++ ',' :: ds)) := by
  obtain ⟨ts, hts, hv⟩ := h
  obtain ⟨us, hus, hms⟩ := hs
  exact ⟨_, .word hkey (.word .colon (hts.append (.word .comma hus))), .moreMembers hv hms⟩

/-- Brackets make an array of values. -/
theorem Part.Written.array {vs : List Json} {cs : List Char} (h : (Part.items vs).Written cs) :
    Json.Written (.array vs) ('[' :: (cs ++ [']'])) := by
  obtain ⟨ts, hts, hvs⟩ := h
  exact ⟨_, .word .openBracket (hts.append Word.closeBracket.spelled), .array hvs⟩

/-- Braces make an object of members. -/
theorem Part.Written.object {ms : List (List Piece × Json)} {cs : List Char}
    (h : (Part.members ms).Written cs) : Json.Written (.object ms) ('{' :: (cs ++ ['}'])) := by
  obtain ⟨ts, hts, hms⟩ := h
  exact ⟨_, .word .openBrace (hts.append Word.closeBrace.spelled), .object hms⟩

/-- Quotes make a word of pieces. -/
theorem Word.quoted {pieces : List Piece} (h : ∀ p ∈ pieces, p.InRange) :
    Word (.text (pieces.map Piece.reread)) (quoted pieces) :=
  .text (spellsPieces_reread h)

/-- **The values of an array are written** if each of them is. -/
theorem written_items (item : Json) (items : List Json)
    (h : ∀ v ∈ item :: items, Written v.reread v.chars) :
    (Part.items ((item :: items).map reread)).Written (item.chars ++ itemsChars items) := by
  induction items generalizing item with
  | nil =>
      obtain ⟨ts, hts, hv⟩ := h item (by simp)
      rw [itemsChars, List.append_nil]
      exact ⟨ts, hts, .item hv⟩
  | cons next items ih =>
      obtain ⟨hitem, hitems⟩ := List.forall_mem_cons.mp h
      rw [itemsChars]
      exact .moreItems hitem (ih next hitems)

/-- **The members of an object are written** if each of them is. -/
theorem written_members (m : List Piece × Json) (members : List (List Piece × Json))
    (hkeys : ∀ m' ∈ m :: members, ∀ p ∈ m'.1, p.InRange)
    (hvalues : ∀ m' ∈ m :: members, Written m'.2.reread m'.2.chars) :
    (Part.members ((m :: members).map fun m => (m.1.map Piece.reread, m.2.reread))).Written
      (memberChars m ++ membersChars members) := by
  induction members generalizing m with
  | nil =>
      rw [membersChars, List.append_nil, memberChars]
      exact .member (Word.quoted (hkeys m (by simp))) (hvalues m (by simp))
  | cons next members ih =>
      obtain ⟨hkey, hkeys⟩ := List.forall_mem_cons.mp hkeys
      obtain ⟨hvalue, hvalues⟩ := List.forall_mem_cons.mp hvalues
      rw [membersChars, memberChars, List.append_assoc, List.cons_append]
      exact .moreMembers (Word.quoted hkey) hvalue (ih next hkeys hvalues)

/-- **The compact form writes the value**, as it is reread. -/
theorem Writable.written {v : Json} (h : Writable v) : Written v.reread v.chars := by
  induction h with
  | null =>
      rw [reread, chars]
      exact ⟨_, Word.null.spelled, .null⟩
  | bool b =>
      rw [reread]
      cases b with
      | true => exact ⟨_, Word.yes.spelled, .bool true⟩
      | false => exact ⟨_, Word.no.spelled, .bool false⟩
  | number h =>
      rw [reread, chars]
      exact ⟨_, (Word.number h).spelled, .number _⟩
  | text h =>
      rw [reread, chars]
      exact ⟨_, (Word.quoted h).spelled, .text _⟩
  | @array items _ ih =>
      rw [reread]
      cases items with
      | nil => exact ⟨_, .word .openBracket Word.closeBracket.spelled, .emptyArray⟩
      | cons item items =>
          rw [chars]
          exact (written_items item items ih).array
  | @object members hkeys _ ih =>
      rw [reread]
      cases members with
      | nil => exact ⟨_, .word .openBrace Word.closeBrace.spelled, .emptyObject⟩
      | cons m members =>
          rw [chars]
          exact (written_members m members hkeys ih).object

/-- **What can be written is written**, as the value that is read back. -/
theorem Writable.written_write {v : Json} (h : Writable v) : Written v.reread v.write.toList := by
  rw [write, String.toList_ofList]
  exact h.written

/-- **A value that is written is read**, as it is reread. -/
theorem parse?_write {v : Json} (h : Writable v) : parse? v.write = some v.reread :=
  (parse?_eq_some_iff _ _).mpr h.written_write

end Json

end Univariate
