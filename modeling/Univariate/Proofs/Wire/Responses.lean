import Univariate.Proofs.Json.Fields
import Univariate.Wire

/-!
# Which texts are responses

A response is an object of which no member with the name of a field occurs
twice, in which the roots are an array of texts, the factorization is a
text and the flag is a truth value, as far as they are there.  The reader
takes one more form: an array of the fields in their order, of which the
last ones may be missing.  So an empty array is an empty answer.  Any other
text is a failure of transport, and so is a text that was cut off or that
goes on after its end.

* `Json.IsText`, `Json.IsTexts`, `Json.IsBool` — the kinds of the fields;
* `Json.IsObject`, `Json.Has` — the members of an object;
* `Response.InObject`, `Response.InArray` — the two forms;
* `Response.ofJsonText_outcome` — which texts are read, and as what.
-/

namespace Univariate

namespace Json

variable {v w : Json} {members : List (String × Json)} {name : String}

/-! ## Kinds of values -/

/-- The value is a text. -/
inductive IsText (text : String) : Json → Prop
  | mk {pieces : List Piece} (h : textOfPieces? pieces = some text) : IsText text (.text pieces)

/-- The value is an array of texts. -/
inductive IsTexts (texts : List String) : Json → Prop
  | mk {items : List Json} (h : List.Forall₂ IsText texts items) : IsTexts texts (.array items)

/-- The value is a truth value. -/
inductive IsBool (b : Bool) : Json → Prop
  | mk : IsBool b (.bool b)

/-- Reading a text. -/
theorem toText?_eq_some_iff {text : String} : v.toText? = some text ↔ IsText text v := by
  constructor
  · intro h
    cases v with
    | text pieces => exact .mk h
    | _ => cases h
  · rintro ⟨h⟩
    exact h

/-- Reading a list of texts. -/
theorem toTexts?_eq_some_iff {texts : List String} :
    v.toList? toText? = some texts ↔ IsTexts texts v := by
  constructor
  · intro h
    cases v with
    | array items =>
        refine .mk (List.Forall₂.flip ((mapM_eq_some_iff.mp h).imp fun _ _ => ?_))
        exact toText?_eq_some_iff.mp
    | _ => cases h
  · rintro ⟨h⟩
    exact mapM_eq_some_iff.mpr (h.flip.imp fun _ _ => toText?_eq_some_iff.mpr)

/-- Reading a truth value. -/
theorem toBool?_eq_some_iff {b : Bool} : v.toBool? = some b ↔ IsBool b v := by
  constructor
  · intro h
    cases v with
    | bool b' =>
        cases h
        exact .mk
    | _ => cases h
  · rintro ⟨⟩
    rfl

/-! ## Members and fields -/

/-- The value of the member with this name; none if there is no such
member.  There are not two. -/
inductive Has (members : List (String × Json)) (name : String) : Option Json → Prop
  | once {before after : List (String × Json)} {v : Json}
      (hmembers : members = before ++ (name, v) :: after)
      (hother : ∀ m ∈ before ++ after, m.1 ≠ name) : Has members name (some v)
  | never (h : ∀ m ∈ members, m.1 ≠ name) : Has members name none

/-- The member has this key and this value. -/
def Reads (m : List Piece × Json) (n : String × Json) : Prop :=
  textOfPieces? m.1 = some n.1 ∧ m.2 = n.2

/-- The characters write an object with these members, whose keys can be
read. -/
def IsObject (members : List (String × Json)) (cs : List Char) : Prop :=
  ∃ ms, Written (.object ms) cs ∧ List.Forall₂ Reads ms members

/-- What a field has. -/
def Field.value? : Field → Option Json
  | present v => some v
  | absent | cutOff => none

theorem valuesOf_eq_nil_iff : valuesOf name members = [] ↔ ∀ m ∈ members, m.1 ≠ name := by
  simp [valuesOf, List.filter_eq_nil_iff]

/-- There is one value under a name if one member has it and no other does. -/
theorem valuesOf_eq_singleton_iff : valuesOf name members = [v] ↔
    ∃ before after, members = before ++ (name, v) :: after ∧
      ∀ m ∈ before ++ after, m.1 ≠ name := by
  constructor
  · intro h
    obtain ⟨⟨name', v'⟩, hfilter, rfl⟩ := List.map_eq_singleton_iff.mp h
    obtain ⟨before, after, rfl, hbefore, hname, hafter⟩ := List.filter_eq_cons_iff.mp hfilter
    obtain rfl := eq_of_beq hname
    refine ⟨before, after, rfl, fun m hm heq => ?_⟩
    rcases List.mem_append.mp hm with hm | hm
    · exact hbefore m hm (beq_iff_eq.mpr heq)
    · exact List.filter_eq_nil_iff.mp hafter m hm (beq_iff_eq.mpr heq)
  · rintro ⟨before, after, rfl, hother⟩
    obtain ⟨hbefore, hafter⟩ := List.forall_mem_append.mp hother
    have hvalues : valuesOf name (before ++ (name, v) :: after) =
        valuesOf name before ++ v :: valuesOf name after := by simp [valuesOf]
    rw [hvalues, valuesOf_eq_nil_iff.mpr hbefore, valuesOf_eq_nil_iff.mpr hafter]
    rfl

/-- A name has the only value that is given under it, or none. -/
theorem has_iff {found : Option Json} :
    Has members name found ↔ valuesOf name members = found.toList := by
  constructor
  · rintro (⟨hmembers, hother⟩ | h)
    · exact valuesOf_eq_singleton_iff.mpr ⟨_, _, hmembers, hother⟩
    · exact valuesOf_eq_nil_iff.mpr h
  · intro h
    cases found with
    | none => exact .never (valuesOf_eq_nil_iff.mp h)
    | some v =>
        obtain ⟨before, after, hmembers, hother⟩ := valuesOf_eq_singleton_iff.mp h
        exact .once hmembers hother

/-- A field of an object is read unless its name is given twice, and is never
cut off. -/
theorem fieldOf?_eq_some_iff {f : Field} :
    fieldOf? members name = some f ↔ Has members name f.value? ∧ f ≠ .cutOff := by
  rw [has_iff, fieldOf?]
  rcases valuesOf name members with _ | ⟨v, _ | ⟨w, more⟩⟩ <;> cases f <;> simp [Field.value?]

/-- What a name has is read as a field. -/
theorem Has.exists_field {found : Option Json} (h : Has members name found) :
    ∃ f : Field, fieldOf? members name = some f ∧ f.value? = found := by
  cases found with
  | some v => exact ⟨.present v, fieldOf?_eq_some_iff.mpr ⟨h, nofun⟩, rfl⟩
  | none => exact ⟨.absent, fieldOf?_eq_some_iff.mpr ⟨h, nofun⟩, rfl⟩

/-- The fields of an object are read by their names. -/
theorem fields?_object {names : List String} {ms : List (List Piece × Json)}
    {fields : List Field} : (object ms).fields? names = some fields ↔
      ∃ members, List.Forall₂ Reads ms members ∧
        List.Forall₂ (fun name f => fieldOf? members name = some f) names fields := by
  have hreads : ∀ members, readMembers? ms = some members ↔ List.Forall₂ Reads ms members := by
    intro members
    rw [readMembers?, mapM_eq_some_iff]
    refine iff_of_eq (congrArg (List.Forall₂ · ms members) ?_)
    funext m n
    simp [Reads, Prod.ext_iff]
  rw [fields?, Option.bind_eq_bind, Option.bind_eq_some_iff]
  simp only [hreads, mapM_eq_some_iff]

/-- The value, if there is one, is as it should be; without a value the
default is meant. -/
inductive Given (holds : Json → Prop) (fallback : Prop) : Option Json → Prop
  | value {v : Json} (h : holds v) : Given holds fallback (some v)
  | fallback (h : fallback) : Given holds fallback none

/-- A field is decoded, or has its default. -/
theorem orElse_eq_some_iff {β : Type} {fallback b : β} {decode : Json → Option β}
    {holds : Json → Prop} (hdecode : ∀ {v}, decode v = some b ↔ holds v) {f : Field} :
    f.orElse fallback decode = some b ↔ Given holds (b = fallback) f.value? := by
  constructor
  · intro h
    cases f with
    | present v => exact .value (hdecode.mp h)
    | absent | cutOff => exact .fallback (Option.some.inj h).symm
  · intro h
    cases f with
    | present v =>
        obtain ⟨h⟩ := h
        exact hdecode.mpr h
    | absent | cutOff =>
        obtain ⟨⟩ | ⟨rfl⟩ := h
        rfl

end Json

namespace Response

open Json (Given IsTexts IsText IsBool)

/-- The response that the values of three fields amount to. -/
structure OfFields (texts text flag : Option Json) (r : Response) : Prop where
  roots : Given (IsTexts r.roots) (r.roots = []) texts
  factorization : Given (IsText r.factorization) (r.factorization = missingFactorization) text
  identicallyZero : Given (IsBool r.identicallyZero) (r.identicallyZero = false) flag

/-- The response of an object. -/
def OfMembers (members : List (String × Json)) (r : Response) : Prop :=
  ∃ texts text flag, Json.Has members "roots" texts ∧ Json.Has members "factorization" text ∧
    Json.Has members "identically_zero" flag ∧ OfFields texts text flag r

/-- The response of an array. -/
def OfItems (items : List Json) (r : Response) : Prop :=
  items.length ≤ 3 ∧ OfFields items[0]? items[1]? items[2]? r

/-- The text is a response object. -/
def InObject (text : String) (r : Response) : Prop :=
  ∃ members, Json.IsObject members text.toList ∧ OfMembers members r

/-- The text is an array that is taken for a response. -/
def InArray (text : String) (r : Response) : Prop :=
  ∃ items, Json.Written (.array items) text.toList ∧ OfItems items r

/-- **A value is a response** just if its three fields are as they should be. -/
theorem ofJson?_eq_some_iff {v : Json} {r : Response} : ofJson? v = some r ↔
    ∃ f g h, v.fields? fieldNames = some [f, g, h] ∧ OfFields f.value? g.value? h.value? r := by
  rw [ofJson?]
  constructor
  · intro hr
    obtain ⟨fields, hfields, hr⟩ := Option.bind_eq_some_iff.mp hr
    split at hr
    · next f g h =>
        obtain ⟨roots, hroots, hr⟩ := Option.bind_eq_some_iff.mp hr
        obtain ⟨factorization, hfactorization, hr⟩ := Option.bind_eq_some_iff.mp hr
        obtain ⟨flag, hflag, hr⟩ := Option.bind_eq_some_iff.mp hr
        cases hr
        exact ⟨f, g, h, hfields, (Json.orElse_eq_some_iff Json.toTexts?_eq_some_iff).mp hroots,
          (Json.orElse_eq_some_iff Json.toText?_eq_some_iff).mp hfactorization,
          (Json.orElse_eq_some_iff Json.toBool?_eq_some_iff).mp hflag⟩
    · cases hr
  · rintro ⟨f, g, h, hfields, hroots, hfactorization, hflag⟩
    rw [hfields, Option.bind_eq_bind, Option.bind_some]
    simp only [(Json.orElse_eq_some_iff Json.toTexts?_eq_some_iff).mpr hroots,
      (Json.orElse_eq_some_iff Json.toText?_eq_some_iff).mpr hfactorization,
      (Json.orElse_eq_some_iff Json.toBool?_eq_some_iff).mpr hflag]
    rfl

/-- **An object is read by its members**, each of the three names once at
most. -/
theorem ofJson?_object {ms : List (List Json.Piece × Json)} {r : Response} :
    ofJson? (.object ms) = some r ↔
      ∃ members, List.Forall₂ Json.Reads ms members ∧ OfMembers members r := by
  rw [ofJson?_eq_some_iff]
  constructor
  · rintro ⟨f, g, h, hfields, hr⟩
    obtain ⟨members, hreads, hall⟩ := Json.fields?_object.mp hfields
    simp only [fieldNames, List.forall₂_cons, Json.fieldOf?_eq_some_iff] at hall
    obtain ⟨⟨hf, -⟩, ⟨hg, -⟩, ⟨hh, -⟩, -⟩ := hall
    exact ⟨members, hreads, _, _, _, hf, hg, hh, hr⟩
  · rintro ⟨members, hreads, texts, text, flag, htexts, htext, hflag, hr⟩
    obtain ⟨f, hf, rfl⟩ := htexts.exists_field
    obtain ⟨g, hg, rfl⟩ := htext.exists_field
    obtain ⟨h, hh, rfl⟩ := hflag.exists_field
    exact ⟨f, g, h,
      Json.fields?_object.mpr ⟨members, hreads, .cons hf (.cons hg (.cons hh .nil))⟩, hr⟩

/-- **An array is read as the fields in their order.** -/
theorem ofJson?_array {items : List Json} {r : Response} :
    ofJson? (.array items) = some r ↔ OfItems items r := by
  rw [ofJson?_eq_some_iff, OfItems]
  rcases items with _ | ⟨a, _ | ⟨b, _ | ⟨c, _ | ⟨d, more⟩⟩⟩⟩
  all_goals simp [Json.fields?, fieldNames, Json.Field.value?]

/-- No other value is a response. -/
theorem exists_of_ofJson? {v : Json} {r : Response} (h : ofJson? v = some r) :
    (∃ ms, v = .object ms) ∨ ∃ items, v = .array items := by
  cases v with
  | object ms => exact Or.inl ⟨ms, rfl⟩
  | array items => exact Or.inr ⟨items, rfl⟩
  | _ => cases h

/-! ## Texts -/

/-- A text is a response if it writes a value that is. -/
theorem ofJsonText_eq_ok_iff_written {text : String} {r : Response} :
    ofJsonText text = .ok r ↔ ∃ v, Json.Written v text.toList ∧ ofJson? v = some r := by
  simp only [← Json.parse?_eq_some_iff, ← Option.bind_eq_some_iff]
  rw [ofJsonText]
  cases (Json.parse? text).bind ofJson? <;> simp

/-- The object or the array that a response was read from. -/
theorem exists_written {text : String} {r : Response} (h : ofJsonText text = .ok r) :
    ∃ v, Json.Written v text.toList ∧ ((∃ ms, v = .object ms) ∨ ∃ items, v = .array items) := by
  obtain ⟨v, hv, hr⟩ := ofJsonText_eq_ok_iff_written.mp h
  exact ⟨v, hv, exists_of_ofJson? hr⟩

/-- **A text is accepted just if it is a response object, or an array of its
fields.** -/
theorem ofJsonText_eq_ok_iff {text : String} {r : Response} :
    ofJsonText text = .ok r ↔ InObject text r ∨ InArray text r := by
  rw [ofJsonText_eq_ok_iff_written]
  constructor
  · rintro ⟨v, hv, hr⟩
    obtain ⟨ms, rfl⟩ | ⟨items, rfl⟩ := exists_of_ofJson? hr
    · obtain ⟨members, hreads, hr⟩ := ofJson?_object.mp hr
      exact Or.inl ⟨members, ⟨ms, hv, hreads⟩, hr⟩
    · exact Or.inr ⟨items, hv, ofJson?_array.mp hr⟩
  · rintro (⟨members, ⟨ms, hv, hreads⟩, hr⟩ | ⟨items, hv, hr⟩)
    · exact ⟨_, hv, ofJson?_object.mpr ⟨members, hreads, hr⟩⟩
    · exact ⟨_, hv, ofJson?_array.mpr hr⟩

/-- A text is not both. -/
theorem not_inObject_of_inArray {text : String} {r r' : Response} (h : InArray text r) :
    ¬InObject text r' := by
  rintro ⟨_, ⟨ms, hms, -⟩, -⟩
  obtain ⟨items, hitems, -⟩ := h
  cases hms.unique hitems

/-- Only objects are read as responses, but for the arrays that are taken
for one. -/
theorem reads_objects_iff {text : String} :
    (∀ r, ofJsonText text = .ok r ↔ InObject text r) ↔ ∀ r, ¬InArray text r := by
  constructor
  · intro h r harray
    exact not_inObject_of_inArray harray ((h r).mp (ofJsonText_eq_ok_iff.mpr (Or.inr harray)))
  · intro h r
    rw [ofJsonText_eq_ok_iff, or_iff_left (h r)]

/-- Any other text is a failure of transport. -/
theorem ofJsonText_eq_error {text : String} (h : ∀ r, ofJsonText text ≠ .ok r) :
    ofJsonText text = .error (.transport .malformedResponse) := by
  unfold ofJsonText at h ⊢
  split
  · next r hr =>
      rw [hr] at h
      exact absurd rfl (h r)
  · rfl

/-- A text of another value. -/
theorem ofJsonText_other {text : String} {v : Json} (hv : Json.Written v text.toList)
    (hobject : ∀ ms, v ≠ .object ms) (harray : ∀ items, v ≠ .array items) :
    ofJsonText text = .error (.transport .malformedResponse) := by
  refine ofJsonText_eq_error fun r hr => ?_
  obtain ⟨w, hw, ⟨ms, rfl⟩ | ⟨items, rfl⟩⟩ := exists_written hr
  · exact hobject ms (hv.unique hw)
  · exact harray items (hv.unique hw)

/-- A response was read from no number. -/
theorem exists_written_ne_number {text : String} {r : Response} (h : ofJsonText text = .ok r) :
    ∃ v, Json.Written v text.toList ∧ ∀ n, v ≠ .number n := by
  obtain ⟨v, hv, ⟨ms, rfl⟩ | ⟨items, rfl⟩⟩ := exists_written h
  · exact ⟨_, hv, nofun⟩
  · exact ⟨_, hv, nofun⟩

/-- A text that was cut off. -/
theorem ofJsonText_truncated {text : String} {v : Json} {rest : List Char}
    (hv : Json.Written v (text.toList ++ rest)) (hrest : ∃ c ∈ rest, Json.isSpacing c = false) :
    ofJsonText text = .error (.transport .malformedResponse) := by
  refine ofJsonText_eq_error fun r hr => ?_
  obtain ⟨w, hw, hnumber⟩ := exists_written_ne_number hr
  obtain ⟨c, hc, hspacing⟩ := hrest
  rw [hw.rest_isSpacing hnumber hv c hc] at hspacing
  cases hspacing

/-- A text that goes on after its end. -/
theorem ofJsonText_trailing {text : String} {v : Json} {cs rest : List Char}
    (htext : text.toList = cs ++ rest) (hv : Json.Written v cs)
    (hrest : ∃ c ∈ rest, Json.isSpacing c = false) :
    ofJsonText text = .error (.transport .malformedResponse) := by
  refine ofJsonText_eq_error fun r hr => ?_
  obtain ⟨w, hw, hnumber⟩ := exists_written_ne_number hr
  rw [htext] at hw
  by_cases hstart : ∃ n, v = .number n
  · obtain ⟨n, rfl⟩ := hstart
    obtain ⟨m, rfl⟩ := hv.number_append hw
    exact hnumber m rfl
  · obtain ⟨c, hc, hspacing⟩ := hrest
    rw [hv.rest_isSpacing (fun n hn => hstart ⟨n, hn⟩) hw c hc] at hspacing
    cases hspacing

/-- **Which texts are responses.**  An object whose fields are each there
once at most, of their kinds, with defaults for the others; or an array of
the fields in their order, of which the last ones may be missing.  So
responses are the objects alone exactly for the texts that are no such
array.  Every other text is a failure of transport: one of another value,
one that was cut off, and one that goes on after its end. -/
theorem ofJsonText_outcome (text : String) :
    (∀ r, ofJsonText text = .ok r ↔ InObject text r ∨ InArray text r) ∧
      ((∀ r, ofJsonText text = .ok r ↔ InObject text r) ↔ ∀ r, ¬InArray text r) ∧
      ((∀ r, ofJsonText text ≠ .ok r) →
        ofJsonText text = .error (.transport .malformedResponse)) ∧
      (∀ v, Json.Written v text.toList → (∀ ms, v ≠ .object ms) → (∀ items, v ≠ .array items) →
        ofJsonText text = .error (.transport .malformedResponse)) ∧
      (∀ v rest, Json.Written v (text.toList ++ rest) → (∃ c ∈ rest, Json.isSpacing c = false) →
        ofJsonText text = .error (.transport .malformedResponse)) ∧
      ∀ v cs rest, text.toList = cs ++ rest → Json.Written v cs →
        (∃ c ∈ rest, Json.isSpacing c = false) →
        ofJsonText text = .error (.transport .malformedResponse) :=
  ⟨fun _ => ofJsonText_eq_ok_iff, reads_objects_iff, ofJsonText_eq_error,
    fun _ => ofJsonText_other, fun _ _ => ofJsonText_truncated, fun _ _ _ => ofJsonText_trailing⟩

/-- A response is followed by another character. -/
theorem ofJsonText_object_and_letter : Json.Written (.object []) ['{', '}'] ∧
    (∃ c ∈ ['x'], Json.isSpacing c = false) ∧
    ofJsonText "\x7b\x7dx" = .error (.transport .malformedResponse) := by
  have hobject : Json.Written (.object []) ['{', '}'] :=
    ⟨_, .word .openBrace Json.Word.closeBrace.spelled, .emptyObject⟩
  have hletter : ∃ c ∈ ['x'], Json.isSpacing c = false := ⟨'x', List.mem_cons_self, rfl⟩
  obtain ⟨-, -, -, -, -, htrailing⟩ := ofJsonText_outcome "\x7b\x7dx"
  exact ⟨hobject, hletter, htrailing _ _ _ rfl hobject hletter⟩

/-- An empty array is taken for an empty answer. -/
theorem ofJsonText_empty_array : ofJsonText "[]" = .ok ⟨[], missingFactorization, false⟩ ∧
    ∀ r, ¬InObject "[]" r := by
  have hparse : Json.parse? "[]" = some (.array []) := rfl
  refine ⟨rfl, ?_⟩
  rintro r ⟨members, ⟨ms, hms, -⟩, -⟩
  have hobject := (Json.parse?_eq_some_iff "[]" (.object ms)).mpr hms
  rw [hparse] at hobject
  cases hobject

end Response

end Univariate
