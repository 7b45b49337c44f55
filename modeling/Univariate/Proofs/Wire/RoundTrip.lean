import Univariate.Proofs.Json.Fields
import Univariate.Record
import Univariate.Wire

/-!
# Every record comes back from its text

Requests, responses, results and their records are written as compact JSON
and read back as they were, whatever characters their texts have.  A field
may be left out where its value is the one that readers supply.

* `Response.Spare`, `Record.Spare` — the fields that may be left out;
* `Response.ofJsonText_sparse`, `Record.ofJsonText?_sparse` — leaving them
  out changes nothing;
* `records_round_trip` — all four kinds.
-/

namespace Univariate

/-! ## Requests and results -/

/-- Every request can be written. -/
theorem Request.writable_toJson (r : Request) : r.toJson.Writable :=
  Json.writable_ofFields (by simp [Json.writable_ofText])

/-- **A request is read back from its text.** -/
theorem Request.ofJsonText?_toJsonText (r : Request) : ofJsonText? r.toJsonText = some r := by
  rw [ofJsonText?, toJsonText, Json.parse?_write r.writable_toJson, Option.bind_some, ofJson?,
    toJson, Json.fields?_reread_all ["polynomial"] rfl (by decide)]
  simp [Json.Field.required]

/-- Every result can be written. -/
theorem Result.writable_toJson (r : Result) : r.toJson.Writable :=
  Json.writable_ofFields (by simp [Json.writable_ofText, Json.writable_ofTexts, Json.Writable.bool])

/-- **A result is read back from its text.** -/
theorem Result.ofJsonText?_toJsonText (r : Result) : ofJsonText? r.toJsonText = some r := by
  rw [ofJsonText?, toJsonText, Json.parse?_write r.writable_toJson, Option.bind_some, ofJson?,
    toJson, Json.fields?_reread_all Record.fieldNames rfl (by decide)]
  simp [Json.Field.required]

/-! ## Responses -/

namespace Response

/-- All fields of a response with their values. -/
def fields (r : Response) : List (String × Json) :=
  [("roots", .ofTexts r.roots), ("factorization", .ofText r.factorization),
    ("identically_zero", .bool r.identicallyZero)]

/-- The field has the value that a reader supplies. -/
def Spare (r : Response) : String → Prop
  | "roots" => r.roots = []
  | "factorization" => r.factorization = missingFactorization
  | "identically_zero" => r.identicallyZero = false
  | _ => False

theorem writable_of_mem_fields {r : Response} : ∀ f ∈ r.fields, f.2.Writable := by
  simp [fields, Json.writable_ofText, Json.writable_ofTexts, Json.Writable.bool]

/-- **A response without its spare fields** is read as the response. -/
theorem ofJsonText_sparse (r : Response) (left : String → Bool)
    (hleft : ∀ name, left name = true → r.Spare name) :
    ofJsonText (Json.ofFields (r.fields.filter fun f => !left f.1)).write = .ok r := by
  have hspare : ∀ name, (!left name) = false → r.Spare name := by simpa using hleft
  have hroots : (!left "roots") = false → r.roots = [] := hspare "roots"
  have hfactorization : (!left "factorization") = false → r.factorization = missingFactorization :=
    hspare "factorization"
  have hflag : (!left "identically_zero") = false → r.identicallyZero = false :=
    hspare "identically_zero"
  rw [ofJsonText, Json.parse?_write (Json.writable_kept writable_of_mem_fields _),
    Option.bind_some, ofJson?, Json.fields?_reread fieldNames rfl (by decide)]
  simp only [fields, List.map_cons, List.map_nil, Option.bind_eq_bind, Option.bind_some,
    Json.Field.orElse_kept (Json.toTexts?_reread _) hroots,
    Json.Field.orElse_kept (Json.toText?_reread _) hfactorization,
    Json.Field.orElse_kept (Json.toBool?_reread _) hflag]
  rfl

/-- Whether the flag is left out. -/
def leaves (r : Response) (name : String) : Bool := name == "identically_zero" && !r.identicallyZero

/-- A response is written with all fields but a flag that is not set. -/
theorem toJson_eq_sparse (r : Response) :
    r.toJson = .ofFields (r.fields.filter fun f => !r.leaves f.1) := by
  cases hflag : r.identicallyZero <;> simp [toJson, fields, leaves, hflag]

/-- Every response can be written. -/
theorem writable_toJson (r : Response) : r.toJson.Writable := by
  rw [toJson_eq_sparse]
  exact Json.writable_kept writable_of_mem_fields _

/-- **A response is read back from its text.** -/
theorem ofJsonText_toJsonText (r : Response) : ofJsonText r.toJsonText = .ok r := by
  rw [toJsonText, toJson_eq_sparse]
  refine ofJsonText_sparse r r.leaves fun name hname => ?_
  simp only [leaves, Bool.and_eq_true, beq_iff_eq, Bool.not_eq_true'] at hname
  obtain ⟨rfl, hflag⟩ := hname
  exact hflag

end Response

/-! ## Records of results -/

namespace Record

/-- All fields of a record with their values. -/
def fields (r : Record) : List (String × Json) :=
  [("equation", .ofText r.equation), ("roots", .ofOption .ofTexts r.roots),
    ("factorization", .ofOption .ofText r.factorization),
    ("identically_zero", .bool r.identicallyZero)]

/-- The field has the value that a reader supplies. -/
def Spare (r : Record) : String → Prop
  | "roots" => r.roots = none
  | "factorization" => r.factorization = none
  | "identically_zero" => r.identicallyZero = false
  | _ => False

theorem writable_of_mem_fields {r : Record} : ∀ f ∈ r.fields, f.2.Writable := by
  simp [fields, Json.writable_ofText, Json.Writable.bool,
    Json.writable_ofOption Json.writable_ofText, Json.writable_ofOption Json.writable_ofTexts]

/-- **A record without its spare fields** is read as the record. -/
theorem ofJsonText?_sparse (r : Record) (left : String → Bool)
    (hleft : ∀ name, left name = true → r.Spare name) :
    ofJsonText? (Json.ofFields (r.fields.filter fun f => !left f.1)).write = some r := by
  have hspare : ∀ name, (!left name) = false → r.Spare name := by simpa using hleft
  have hequation : (!left "equation") = true := by
    by_contra h
    exact hspare "equation" (Bool.eq_false_iff.mpr h)
  have hroots : (!left "roots") = false → r.roots = none := hspare "roots"
  have hfactorization : (!left "factorization") = false → r.factorization = none :=
    hspare "factorization"
  have hflag : (!left "identically_zero") = false → r.identicallyZero = false :=
    hspare "identically_zero"
  rw [ofJsonText?, Json.parse?_write (Json.writable_kept writable_of_mem_fields _),
    Option.bind_some, ofJson?, Json.fields?_reread fieldNames rfl (by decide)]
  simp only [fields, List.map_cons, List.map_nil, Option.bind_eq_bind, Option.bind_some,
    hequation, if_true, Json.Field.required, Json.toText?_reread,
    Json.Field.optional_kept rfl Json.toTexts?_reread hroots,
    Json.Field.optional_kept rfl Json.toText?_reread hfactorization,
    Json.Field.orElse_kept (Json.toBool?_reread _) hflag]
  rfl

/-- Every record can be written. -/
theorem writable_toJson (r : Record) : r.toJson.Writable :=
  Json.writable_ofFields writable_of_mem_fields

/-- **A record is read back from its text.** -/
theorem ofJsonText?_toJsonText (r : Record) : ofJsonText? r.toJsonText = some r := by
  have hall : r.toJson = .ofFields (r.fields.filter fun _ => !false) := by simp [toJson, fields]
  rw [toJsonText, hall]
  exact ofJsonText?_sparse r (fun _ => false) nofun

end Record

/-- **Every record comes back from its text**, which is a JSON text of its
fields.  A field that is left out, because it has the value that a reader
supplies, changes nothing. -/
theorem records_round_trip :
    (∀ r : Request, Json.Written r.toJson.reread r.toJsonText.toList ∧
        Request.ofJsonText? r.toJsonText = some r) ∧
      (∀ r : Response, Json.Written r.toJson.reread r.toJsonText.toList ∧
        Response.ofJsonText r.toJsonText = .ok r) ∧
      (∀ r : Record, Json.Written r.toJson.reread r.toJsonText.toList ∧
        Record.ofJsonText? r.toJsonText = some r) ∧
      (∀ r : Result, Json.Written r.toJson.reread r.toJsonText.toList ∧
        Result.ofJsonText? r.toJsonText = some r) ∧
      (∀ (r : Response) (left : String → Bool), (∀ name, left name = true → r.Spare name) →
        Response.ofJsonText (Json.ofFields (r.fields.filter fun f => !left f.1)).write = .ok r) ∧
      ∀ (r : Record) (left : String → Bool), (∀ name, left name = true → r.Spare name) →
        Record.ofJsonText? (Json.ofFields (r.fields.filter fun f => !left f.1)).write = some r :=
  ⟨fun r => ⟨r.writable_toJson.written_write, r.ofJsonText?_toJsonText⟩,
    fun r => ⟨r.writable_toJson.written_write, r.ofJsonText_toJsonText⟩,
    fun r => ⟨r.writable_toJson.written_write, r.ofJsonText?_toJsonText⟩,
    fun r => ⟨r.writable_toJson.written_write, r.ofJsonText?_toJsonText⟩,
    Response.ofJsonText_sparse, Record.ofJsonText?_sparse⟩

/-- An empty object is the response of which every field is spare. -/
theorem empty_object_round_trip :
    (∀ name, Response.fieldNames.contains name = true →
      Response.Spare ⟨[], Response.missingFactorization, false⟩ name) ∧
      Response.ofJsonText "\x7b\x7d" = .ok ⟨[], Response.missingFactorization, false⟩ := by
  have hspare : ∀ name, Response.fieldNames.contains name = true →
      Response.Spare ⟨[], Response.missingFactorization, false⟩ name := by
    intro name hname
    simp only [Response.fieldNames, List.contains_iff_mem, List.mem_cons, List.not_mem_nil,
      or_false] at hname
    rcases hname with rfl | rfl | rfl <;> rfl
  obtain ⟨-, -, -, -, hsparse, -⟩ := records_round_trip
  exact ⟨hspare, hsparse _ _ hspare⟩

end Univariate
