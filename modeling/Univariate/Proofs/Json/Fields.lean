import Univariate.Json.Decode
import Univariate.Proofs.Json.Writing
import Univariate.Record

/-!
# Records that are written are read

A record is written as an object of its fields.  Read again, each text and
list of texts is what it was, and each field is found under its name: the
names differ, so no field hides another one, and a field that was left out
is absent.

* `Json.toText?_reread`, `Json.toTexts?_reread` — texts and lists of texts;
* `Json.fields?_reread` — the fields of a record of which some were kept.
-/

namespace Univariate

namespace Json

/-- A list is decoded item by item. -/
theorem mapM_eq_some_iff {α β : Type} {decode : α → Option β} {items : List α} {values : List β} :
    items.mapM decode = some values ↔ List.Forall₂ (fun a b => decode a = some b) items values := by
  induction items generalizing values with
  | nil => simp [eq_comm]
  | cons a items ih =>
      simp only [List.mapM_cons, Option.bind_eq_bind, Option.bind_eq_some_iff, ih,
        List.forall₂_cons_left_iff]
      constructor
      · rintro ⟨b, hb, bs, hbs, ⟨⟩⟩
        exact ⟨b, bs, hb, hbs, rfl⟩
      · rintro ⟨b, bs, hb, hbs, rfl⟩
        exact ⟨b, hb, bs, hbs, rfl⟩

/-! ## Texts -/

/-- Characters that stand for themselves are read as such. -/
theorem charsOfPieces?_char (cs : List Char) : charsOfPieces? (cs.map .char) = some cs := by
  induction cs with
  | nil => rfl
  | cons c cs ih =>
      rw [List.map_cons, charsOfPieces?, ih]
      rfl

/-- **A text is read back from its pieces**, escaped or not. -/
theorem textOfPieces?_reread (text : String) :
    textOfPieces? ((piecesOfText text).map Piece.reread) = some text := by
  rw [textOfPieces?, charsOfPieces?_reread, piecesOfText, charsOfPieces?_char, Option.map_some,
    String.ofList_toList]

/-- A text is read back. -/
@[simp]
theorem toText?_reread (text : String) : (ofText text).reread.toText? = some text := by
  rw [ofText, reread, toText?, textOfPieces?_reread]

/-- Texts are read back. -/
@[simp]
theorem toTexts?_reread (texts : List String) :
    (ofTexts texts).reread.toList? toText? = some texts := by
  rw [ofTexts, reread, toList?, mapM_eq_some_iff, List.map_map, List.forall₂_map_left_iff,
    List.forall₂_same]
  exact fun text _ => toText?_reread text

/-- A truth value is read back. -/
@[simp]
theorem toBool?_reread (b : Bool) : (bool b).reread.toBool? = some b := by rw [reread, toBool?]

/-- Every character has an escape that fits. -/
theorem inRange_piecesOfText (text : String) : ∀ p ∈ piecesOfText text, p.InRange := by
  intro p hp
  obtain ⟨c, -, rfl⟩ := List.mem_map.mp hp
  trivial

/-- Texts can be written. -/
theorem writable_ofText (text : String) : Writable (ofText text) :=
  .text (inRange_piecesOfText text)

/-- Lists of texts can be written. -/
theorem writable_ofTexts (texts : List String) : Writable (ofTexts texts) := by
  refine .array fun v hv => ?_
  obtain ⟨text, -, rfl⟩ := List.mem_map.mp hv
  exact writable_ofText text

/-- What is there can be written, and so can nothing. -/
theorem writable_ofOption {β : Type} {encode : β → Json} (h : ∀ b, Writable (encode b))
    (o : Option β) : Writable (ofOption encode o) := by
  cases o with
  | none => exact .null
  | some b => exact h b

/-! ## Fields -/

/-- **An object can be written** if its values can be. -/
theorem writable_ofFields {fields : List (String × Json)} (h : ∀ f ∈ fields, Writable f.2) :
    Writable (ofFields fields) := by
  refine .object (fun m hm => ?_) (fun m hm => ?_)
  · obtain ⟨f, -, rfl⟩ := List.mem_map.mp hm
    exact inRange_piecesOfText f.1
  · obtain ⟨f, hf, rfl⟩ := List.mem_map.mp hm
    exact h f hf

/-- So can an object with some of its fields left out. -/
theorem writable_kept {fields : List (String × Json)} (h : ∀ f ∈ fields, Writable f.2)
    (kept : String × Json → Bool) : Writable (ofFields (fields.filter kept)) :=
  writable_ofFields fun f hf => h f (List.mem_of_mem_filter hf)

/-- What is read of an object is what is read of its fields. -/
theorem reread_ofFields (fields : List (String × Json)) :
    (ofFields fields).reread =
      .object (fields.map fun f => ((piecesOfText f.1).map Piece.reread, f.2.reread)) := by
  rw [ofFields, reread, List.map_map]
  rfl

/-- The names of the fields are read back. -/
theorem readMembers?_reread (fields : List (String × Json)) :
    readMembers? (fields.map fun f => ((piecesOfText f.1).map Piece.reread, f.2.reread)) =
      some (fields.map fun f => (f.1, f.2.reread)) := by
  rw [readMembers?, mapM_eq_some_iff, List.forall₂_map_left_iff, List.forall₂_map_right_iff,
    List.forall₂_same]
  exact fun f _ => congrArg (Option.map (·, f.2.reread)) (textOfPieces?_reread f.1)

/-- Among fields with different names, a name belongs to one field. -/
theorem filter_name {fields : List (String × Json)} (hnames : (fields.map Prod.fst).Nodup)
    {f : String × Json} (hf : f ∈ fields) : fields.filter (·.1 == f.1) = [f] := by
  induction fields with
  | nil => cases hf
  | cons g fields ih =>
      obtain ⟨hg, hnames⟩ := List.nodup_cons.mp hnames
      rcases List.mem_cons.mp hf with rfl | hf
      · have hrest : fields.filter (·.1 == f.1) = [] := by
          refine List.filter_eq_nil_iff.mpr fun h hmem hname => hg ?_
          rw [← eq_of_beq hname]
          exact List.mem_map_of_mem hmem
        rw [List.filter_cons, if_pos (beq_self_eq_true f.1), hrest]
      · have hother : ¬(g.1 == f.1) = true := by
          intro hname
          rw [eq_of_beq hname] at hg
          exact hg (List.mem_map_of_mem hf)
        rw [List.filter_cons, if_neg hother, ih hnames hf]

/-- **A field is found** exactly if it has been kept, where all names are
different. -/
theorem fieldOf?_kept {fields : List (String × Json)} (hnames : (fields.map Prod.fst).Nodup)
    (kept : String × Json → Bool) {f : String × Json} (hf : f ∈ fields) :
    fieldOf? ((fields.filter kept).map fun f => (f.1, f.2.reread)) f.1 =
      some (if kept f then .present f.2.reread else .absent) := by
  have hvalues : valuesOf f.1 ((fields.filter kept).map fun f => (f.1, f.2.reread)) =
      ([f].filter kept).map fun f => f.2.reread := by
    rw [← filter_name hnames hf, List.filter_comm, valuesOf, List.filter_map, List.map_map]
    rfl
  rw [fieldOf?, hvalues]
  cases hkept : kept f <;> simp [hkept]

/-- **Each field is read back**, and a field that was not kept is absent. -/
theorem fields?_reread {fields : List (String × Json)} (names : List String)
    (hnames : fields.map Prod.fst = names) (hnodup : names.Nodup) (kept : String × Json → Bool) :
    (ofFields (fields.filter kept)).reread.fields? names =
      some (fields.map fun f => if kept f then .present f.2.reread else .absent) := by
  subst hnames
  rw [reread_ofFields, fields?, readMembers?_reread, Option.bind_eq_bind, Option.bind_some,
    mapM_eq_some_iff, List.forall₂_map_left_iff, List.forall₂_map_right_iff, List.forall₂_same]
  exact fun f hf => fieldOf?_kept hnodup kept hf

/-- All fields of an object are found by their names. -/
theorem fields?_reread_all {fields : List (String × Json)} (names : List String)
    (hnames : fields.map Prod.fst = names) (hnodup : names.Nodup) :
    (ofFields fields).reread.fields? names =
      some (fields.map fun f => .present f.2.reread) := by
  have hall := fields?_reread names hnames hnodup fun _ => true
  rwa [List.filter_true] at hall

namespace Field

variable {β : Type} {decode : Json → Option β} {kept : Bool} {v : Json} {b : β}

/-- A field that was left out at its default is read back by the default. -/
theorem orElse_kept {fallback : β} (h : decode v = some b) (hleft : kept = false → b = fallback) :
    (if kept then present v else absent).orElse fallback decode = some b := by
  cases kept with
  | true => exact h
  | false => exact congrArg some (hleft rfl).symm

/-- A field that was left out because it held nothing is read back as
nothing. -/
theorem optional_kept {encode : β → Json} {o : Option β} (hnull : decode .null = none)
    (h : ∀ b, decode (encode b).reread = some b) (hleft : kept = false → o = none) :
    (if kept then present (ofOption encode o).reread else absent).optional decode = some o := by
  cases kept with
  | false => exact congrArg some (hleft rfl).symm
  | true =>
      cases o with
      | none => rw [ofOption, reread]; rfl
      | some b =>
          rw [if_pos rfl, ofOption, optional.eq_2, h b, Option.map_some]
          intro hv
          have hb := h b
          rw [hv, hnull] at hb
          cases hb

end Field

end Json

end Univariate
