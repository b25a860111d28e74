import WireFormat.Definitions.Json
import WireFormat.Definitions.Resolve
import WireFormat.Proofs.Definitions.Abbreviation

/-!
# Definitions are read back from JSON

Definitions are written with all members, and a reader gets along with less.  For each kind of
definition it is shown that whatever has been written is read back from every JSON value that is it
in short; a shape and the elements of a list go through each other.

* `TagDef.recovers`, `ShapeDef.recovers`, `FieldDef.recovers`, `TypeDef.recovers`,
  `EnumDef.recovers`, `Definitions.recovers` — each kind of definition is read back;
* `Definitions.ofJson?_toJson` — so definitions can be read, written and read again without any
  difference, to the names in them neither.
-/

namespace WireFormat

open Json (Recovers Says)

/-! ## Numbers and names -/

namespace Json

theorem recovers_uint32 : Recovers uint32? ofUInt32 := by
  refine .of_isLeaf (fun _ ↦ rfl) nofun fun number ↦ ?_
  have hlt := number.toNat_lt
  rw [ofUInt32, uint32?, if_pos ⟨by omega, by omega⟩]
  simp

theorem recovers_uint64 : Recovers uint64? ofUInt64 := by
  refine .of_isLeaf (fun _ ↦ rfl) nofun fun number ↦ ?_
  have hlt := number.toNat_lt
  rw [ofUInt64, uint64?, if_pos ⟨by omega, by omega⟩]
  simp

theorem recovers_int64 : Recovers int64? fun number ↦ .integer number.toInt := by
  refine .of_isLeaf (fun _ ↦ rfl) nofun fun number ↦ ?_
  have hle := number.le_toInt
  have hlt := number.toInt_lt
  rw [int64?, if_pos ⟨by simpa using hle, by simpa using hlt⟩]
  simp

end Json

theorem ScalarKind.ofName?_name (kind : ScalarKind) : ofName? kind.name = some kind := by
  cases kind with
  | integer kind => cases kind <;> decide
  | _ => decide

theorem ScalarKind.recovers_inner : Recovers ofInner? toJson :=
  .of_isLeaf (fun _ ↦ rfl) nofun ofName?_name

theorem ScalarKind.recovers : Recovers ofJson? toJson :=
  .of_isLeaf (fun _ ↦ rfl) nofun ofName?_name

theorem ByteOrder.recovers : Recovers ofJson? toJson := by
  refine .of_isLeaf (fun _ ↦ rfl) nofun fun order ↦ ?_
  cases order <;> decide

theorem Encoding.recovers_inner : Recovers ofInner? toJson := by
  refine .of_isLeaf (fun _ ↦ rfl) nofun fun encoding ↦ ?_
  cases encoding with
  | utf16 order | utf32 order => cases order <;> decide
  | _ => decide

/-! ## Alternatives -/

namespace Json

variable {members : List (String × Json)} {name : String} {json full : Json}

/-- The members of an object but for the one that says which alternative is meant. -/
def content (members : List (String × Json)) : List (String × Json) :=
  members.filter fun member ↦ member.1 != "type"

theorem lookup_content (hname : name ≠ "type") :
    (content members).lookup name = members.lookup name := by
  induction members with
  | nil => rfl
  | cons member members ih =>
    rw [content, List.filter_cons]
    split
    · rw [List.lookup_cons, List.lookup_cons]
      split
      · rfl
      · exact ih
    · next htype =>
      have hfirst : member.1 = "type" := by simpa using htype
      rw [List.lookup_cons, hfirst, beq_eq_false_iff_ne.2 hname]
      exact ih

theorem Says.content (h : Says members name full) (hname : name ≠ "type") :
    Says (content members) name full := by
  rw [Says, lookup_content hname]
  exact h

namespace Abbreviates

variable {own : List (String × Json)}

/-- An alternative that has been written is found by its name, and its members are said both beside
the name and without it. -/
theorem exists_alternative (h : json.Abbreviates (.object (("type", string name) :: own))) :
    ∃ short, json = .object short ∧
      json.alternative? = some (string name, .object (Json.content short)) ∧
      ∀ other full, other ≠ "type" → own.lookup other = some full →
        Says short other full ∧ Says (Json.content short) other full := by
  obtain ⟨short, rfl, hshort⟩ := h.exists_object
  refine ⟨short, rfl, ?_, ?_⟩
  · rcases hshort "type" _ rfl with ⟨value, hfound, hvalue⟩ | ⟨-, hdefault⟩
    · obtain rfl := hvalue.eq_of_isLeaf rfl
      rw [alternative?, hfound]
      rfl
    · exact (not_isDefault (by nofun) (by decide) hdefault).elim
  · intro other full hother hfull
    have hlookup : List.lookup other (("type", string name) :: own) = some full := by
      rw [List.lookup_cons, beq_eq_false_iff_ne.2 hother, hfull]
    exact ⟨hshort other full hlookup, (hshort other full hlookup).content hother⟩

theorem isNamed (h : json.Abbreviates (.object (("type", string name) :: own))) :
    json.isNamed = true := by
  obtain ⟨short, -, halternative, -⟩ := h.exists_alternative
  rw [Json.isNamed, halternative]
  rfl

end Abbreviates

end Json

/-! ## Tags -/

namespace TagDef

theorem ofInner?_eq (tag : TagDef) {json : Json} (h : json.Abbreviates tag.toJson) :
    ofInner? json = some tag := by
  cases tag with
  | primitive | record =>
    obtain ⟨short, -, halternative, -⟩ := h.exists_alternative
    rw [ofInner?, halternative]
    rfl
  | boolean equivalent | enum equivalent =>
    obtain ⟨short, -, halternative, hshort⟩ := h.exists_alternative
    rw [ofInner?, halternative]
    change (Json.optional _ "equivalent" _ >>= _) = _
    rw [ScalarKind.recovers_inner.optional_eq (hshort "equivalent" _ (by decide) rfl).2 (by decide)]
    rfl
  | text encoding nullTerminated fixedLength lengthKey =>
    obtain ⟨short, -, halternative, hshort⟩ := h.exists_alternative
    rw [ofInner?, halternative]
    change (Json.required _ "encoding" _ >>= fun _ ↦ Json.defaulted _ _ "null_terminated" _ >>=
      fun _ ↦ Json.optional _ "fixed_length" _ >>= fun _ ↦ Json.optional _ "length_key" _ >>= _) = _
    rw [Encoding.recovers_inner.required_eq (hshort "encoding" _ (by decide) rfl).2 (by decide),
      Json.recovers_bool.defaulted_eq (hshort "null_terminated" _ (by decide) rfl).2
        (by simp [Json.IsDefault, Json.defaults]),
      Json.recovers_uint64.optional_eq (hshort "fixed_length" _ (by decide) rfl).2 (by decide),
      Json.recovers_string.optional_eq (hshort "length_key" _ (by decide) rfl).2 (by decide)]
    rfl
  | list fixedLength lengthKey =>
    obtain ⟨short, -, halternative, hshort⟩ := h.exists_alternative
    rw [ofInner?, halternative]
    change (Json.optional _ "fixed_length" _ >>= fun _ ↦ Json.optional _ "length_key" _ >>= _) = _
    rw [Json.recovers_uint64.optional_eq (hshort "fixed_length" _ (by decide) rfl).2 (by decide),
      Json.recovers_string.optional_eq (hshort "length_key" _ (by decide) rfl).2 (by decide)]
    rfl

theorem recovers_inner : Recovers ofInner? toJson :=
  ⟨fun tag _ h ↦ tag.ofInner?_eq h, fun tag ↦ by cases tag <;> exact Json.object_ne_null _⟩

theorem recovers : Recovers ofJson? toJson := by
  refine ⟨fun tag json h ↦ ?_, recovers_inner.ne_null⟩
  have hnamed : json.isNamed = true := by cases tag <;> exact h.isNamed
  rw [ofJson?, if_pos hnamed, tag.ofInner?_eq h]

end TagDef

/-! ## Shapes -/

/-- What looks for a member from the first one on reads the member of that name. -/
theorem Json.eq_required {α : Type} {find : List (String × Json) → Option α}
    {read : Json → Option α} {key : String} (hnil : find [] = none)
    (hcons : ∀ name json rest,
      find ((name, json) :: rest) = if name = key then read json else find rest)
    (members : List (String × Json)) : find members = Json.required read key members := by
  induction members with
  | nil => exact hnil
  | cons member members ih =>
    obtain ⟨name, json⟩ := member
    rw [hcons, Json.required, List.lookup_cons]
    split
    · next hname =>
      rw [beq_iff_eq.2 hname.symm]
      rfl
    · next hname =>
      rw [beq_eq_false_iff_ne.2 (Ne.symm hname), ih]
      rfl

theorem ElementDef.find?_eq (members : List (String × Json)) :
    find? members = Json.required ofInner? "element" members :=
  Json.eq_required (by rw [find?]) (fun _ _ _ ↦ by rw [find?]) members

theorem ShapeDef.find?_eq (members : List (String × Json)) :
    find? members = Json.required ofInner? "shape" members :=
  Json.eq_required (by rw [find?]) (fun _ _ _ ↦ by rw [find?]) members

theorem ShapeDef.toJson_ne_null (shape : ShapeDef) : shape.toJson ≠ .null := by
  cases shape <;> exact Json.object_ne_null _

theorem ElementDef.toJson_ne_null (element : ElementDef) : element.toJson ≠ .null := by
  cases element
  exact Json.object_ne_null _

mutual

theorem ShapeDef.ofInner?_eq (shape : ShapeDef) {json : Json} (h : json.Abbreviates shape.toJson) :
    ShapeDef.ofInner? json = some shape := by
  match shape with
  | .scalar kind =>
    rw [ShapeDef.toJson] at h
    obtain ⟨short, rfl, halternative, hshort⟩ := h.exists_alternative
    rw [ShapeDef.ofInner?, halternative]
    change (Json.required _ "kind" _ >>= _) = _
    rw [ScalarKind.recovers_inner.required_eq (hshort "kind" _ (by decide) rfl).2 (by decide)]
    rfl
  | .enum name | .record name =>
    rw [ShapeDef.toJson] at h
    obtain ⟨short, rfl, halternative, hshort⟩ := h.exists_alternative
    rw [ShapeDef.ofInner?, halternative]
    change (Json.required _ "name" _ >>= _) = _
    rw [Json.recovers_string.required_eq (hshort "name" _ (by decide) rfl).2 (by decide)]
    rfl
  | .text =>
    rw [ShapeDef.toJson] at h
    obtain ⟨short, rfl, halternative, hshort⟩ := h.exists_alternative
    rw [ShapeDef.ofInner?, halternative]
    rfl
  | .list element =>
    rw [ShapeDef.toJson] at h
    obtain ⟨short, rfl, halternative, hshort⟩ := h.exists_alternative
    rw [ShapeDef.ofInner?, halternative]
    -- The elements are looked for among all members, that of the alternative's name included.
    change (ElementDef.find? short >>= _) = _
    have helement : ∀ json, json.Abbreviates element.toJson →
        ElementDef.ofInner? json = some element := fun json h ↦ element.ofInner?_eq h
    rw [ElementDef.find?_eq, (hshort "element" _ (by decide) rfl).1.required_eq helement
      (Json.not_isDefault element.toJson_ne_null (by decide))]
    rfl

theorem ElementDef.ofInner?_eq (element : ElementDef) {json : Json}
    (h : json.Abbreviates element.toJson) : ElementDef.ofInner? json = some element := by
  match element with
  | ⟨shape, tag⟩ =>
    rw [ElementDef.toJson] at h
    obtain ⟨short, rfl, hshort⟩ := h.exists_object
    have hshape : ∀ json, json.Abbreviates shape.toJson →
        ShapeDef.ofInner? json = some shape := fun json h ↦ shape.ofInner?_eq h
    rw [ElementDef.ofInner?, ShapeDef.find?_eq, (hshort "shape" _ rfl).required_eq hshape
      (Json.not_isDefault shape.toJson_ne_null (by decide)),
      TagDef.recovers_inner.optional_eq (hshort "tag" _ rfl) (by decide)]
    rfl

end

theorem ShapeDef.recovers : Recovers ofJson? toJson := by
  refine ⟨fun shape json h ↦ ?_, ShapeDef.toJson_ne_null⟩
  have hnamed : json.isNamed = true := by cases shape <;> exact h.isNamed
  rw [ofJson?, if_pos hnamed, shape.ofInner?_eq h]

/-! ## Records and enums -/

theorem FieldDef.recovers : Recovers ofJson? toJson := by
  refine ⟨fun field json h ↦ ?_, fun _ ↦ Json.object_ne_null _⟩
  obtain ⟨short, rfl, hshort⟩ := h.exists_object
  rw [ofJson?]
  simp only [Json.fields?, Option.bind_eq_bind, Option.bind_some]
  rw [Json.recovers_string.required_eq (hshort "name" _ rfl) (by decide),
    Json.recovers_uint32.optional_eq (hshort "order" _ rfl) (by decide),
    ShapeDef.recovers.required_eq (hshort "shape" _ rfl) (by decide),
    TagDef.recovers.optional_eq (hshort "tag" _ rfl) (by decide),
    ByteOrder.recovers.optional_eq (hshort "endianness" _ rfl) (by decide),
    Json.recovers_uint32.optional_eq (hshort "bits" _ rfl) (by decide),
    Json.recovers_bool.defaulted_eq (hshort "pad_after" _ rfl)
      (by simp [Json.IsDefault, Json.defaults]),
    Json.recovers_string.optional_eq (hshort "length_of" _ rfl) (by decide),
    Json.recovers_bool.defaulted_eq (hshort "serialize" _ rfl)
      (by simp [Json.IsDefault, Json.defaults])]
  rfl

theorem TypeDef.recovers : Recovers ofJson? toJson := by
  refine ⟨fun type json h ↦ ?_, fun _ ↦ Json.object_ne_null _⟩
  obtain ⟨short, rfl, hshort⟩ := h.exists_object
  obtain ⟨fields, hfields, hread⟩ :=
    FieldDef.recovers.exists_array (hshort "fields" _ rfl) (by decide)
  rw [ofJson?]
  simp only [Json.fields?, Option.bind_eq_bind, Option.bind_some]
  rw [Json.recovers_string.required_eq (hshort "name" _ rfl) (by decide),
    ByteOrder.recovers.optional_eq (hshort "endianness" _ rfl) (by decide), hfields]
  simp only [Option.bind_some, hread]
  rfl

theorem EnumMemberDef.recovers : Recovers ofJson? toJson := by
  refine ⟨fun member json h ↦ ?_, fun _ ↦ Json.object_ne_null _⟩
  obtain ⟨short, rfl, hshort⟩ := h.exists_object
  rw [ofJson?]
  simp only [Json.fields?, Option.bind_eq_bind, Option.bind_some]
  rw [Json.recovers_string.required_eq (hshort "name" _ rfl) (by decide),
    Json.recovers_int64.required_eq (hshort "value" _ rfl) (by decide)]
  rfl

theorem EnumDef.recovers : Recovers ofJson? toJson := by
  refine ⟨fun definition json h ↦ ?_, fun _ ↦ Json.object_ne_null _⟩
  obtain ⟨short, rfl, hshort⟩ := h.exists_object
  obtain ⟨members, hmembers, hread⟩ :=
    EnumMemberDef.recovers.exists_array (hshort "members" _ rfl) (by decide)
  rw [ofJson?]
  simp only [Json.fields?, Option.bind_eq_bind, Option.bind_some]
  rw [Json.recovers_string.required_eq (hshort "name" _ rfl) (by decide),
    ScalarKind.recovers.required_eq (hshort "underlying" _ rfl) (by decide), hmembers]
  simp only [Option.bind_some, hread]
  rfl

/-! ## Definitions -/

namespace Definitions

theorem recovers : Recovers ofJson? toJson := by
  refine ⟨fun definitions json h ↦ ?_, fun _ ↦ Json.object_ne_null _⟩
  obtain ⟨short, rfl, hshort⟩ := h.exists_object
  obtain ⟨types, htypes, hread⟩ := TypeDef.recovers.exists_array (hshort "types" _ rfl) (by decide)
  obtain ⟨enums, henums, hread'⟩ :=
    EnumDef.recovers.exists_array_of_defaulted (hshort "enums" _ rfl)
  rw [ofJson?]
  simp only [Json.fields?, Option.bind_eq_bind, Option.bind_some]
  rw [Json.recovers_string.required_eq (hshort "root" _ rfl) (by decide), htypes, henums]
  simp only [Option.bind_some, hread, hread']
  rfl

/-- A JSON value of definitions, read and written again. -/
def rewrite? (json : Json) : Option Json := (ofJson? json).map toJson

/-- The layout of a record type by its name, from a JSON value of definitions. -/
def resolveIn? (json : Json) (name : String) : Option (Except LayoutError Layout) :=
  (ofJson? json).map fun definitions ↦ definitions.resolve name

/-- Definitions are read back from what they are written as, and from all that is it in short.  So
whatever they have been read from can be written again: that stands for the same definitions, is
written as itself, and has the same layouts and the same errors under all names. -/
theorem ofJson?_toJson :
    (∀ definitions, ofJson? (toJson definitions) = some definitions) ∧
    (∀ definitions json, json.Abbreviates (toJson definitions) → ofJson? json = some definitions) ∧
    ∀ json definitions, ofJson? json = some definitions →
      ∃ full, rewrite? json = some full ∧ ofJson? full = some definitions ∧
        rewrite? full = some full ∧ ∀ name, resolveIn? full name = resolveIn? json name := by
  have hback (definitions : Definitions) : ofJson? (toJson definitions) = some definitions :=
    recovers.read_eq definitions _ (.same _)
  refine ⟨hback, recovers.read_eq, fun json definitions hread ↦ ?_⟩
  refine ⟨definitions.toJson, ?_, hback definitions, ?_, fun name ↦ ?_⟩
  · rw [rewrite?, hread, Option.map_some]
  · rw [rewrite?, hback, Option.map_some]
  · rw [resolveIn?, resolveIn?, hback, hread]

/-- A record type of two texts. -/
def couplet : Definitions where
  root := "Couplet"
  types := [⟨"Couplet", none, [
    { name := "lines", order := some 0, shape := .list ⟨.text, some (.text .utf8 true none none)⟩,
      tag := some (.list (some 2) none), byteOrder := none, bits := none, padAfter := false,
      lengthOf := none, serialize := true }]⟩]
  enums := []

/-- The same as it is written by hand, in another order, with a remark and without all that goes
without saying. -/
def shortCouplet : Json := .object [
  ("remark", .string "two lines"),
  ("types", .array [.object [
    ("fields", .array [.object [
      ("name", .string "lines"),
      ("order", .integer 0),
      ("tag", .object [("type", .string "Collection"), ("fixed_length", .integer 2)]),
      ("shape", .object [
        ("type", .string "List"),
        ("element", .object [
          ("shape", .object [("type", .string "String")]),
          ("tag", .object [
            ("encoding", .string "Utf8"),
            ("null_terminated", .bool true),
            ("type", .string "String")])])])]]),
    ("name", .string "Couplet")]]),
  ("root", .string "Couplet")]

theorem shortCouplet_abbreviates : shortCouplet.Abbreviates couplet.toJson := by
  have hnull {short full : List (String × Json)} {name : String}
      (hmissing : short.lookup name = none) (h : Json.AbbreviatesAll short full) :
      Json.AbbreviatesAll short ((name, .null) :: full) := .leave hmissing (.inl rfl) h
  refine .object (by decide) (.keep rfl (.same _) (.keep rfl (.array (.cons ?_ .nil)) ?_))
  · refine .object (by decide) (.keep rfl (.same _) (hnull rfl (.keep rfl ?_ (.nil _))))
    refine .array (.cons (.object (by decide) (.keep rfl (.same _) (.keep rfl (.same _) ?_))) .nil)
    refine .keep rfl (.object (by decide) (.keep rfl (.same _) (.keep rfl ?_ (.nil _)))) ?_
    · refine .object (by decide) (.keep rfl (.same _) (.keep rfl ?_ (.nil _)))
      refine .object (by decide) (.keep rfl (.same _) (.keep rfl (.same _) ?_))
      exact .keep rfl (.same _) (hnull rfl (hnull rfl (.nil _)))
    · refine .keep rfl (.object (by decide) (.keep rfl (.same _) (.keep rfl (.same _) ?_))) ?_
      · exact hnull rfl (.nil _)
      · refine hnull rfl (hnull rfl (.leave rfl ?_ (hnull rfl (.leave rfl ?_ (.nil _)))))
        · simp [Json.IsDefault, Json.defaults]
        · simp [Json.IsDefault, Json.defaults]
  · refine .leave rfl ?_ (.nil _)
    simp [Json.IsDefault, Json.defaults, couplet]

/-- What is written by hand is read, and written in full from then on. -/
theorem shortCouplet_ofJson? : shortCouplet.Abbreviates couplet.toJson ∧
    ofJson? shortCouplet = some couplet ∧ ∃ full, rewrite? shortCouplet = some full ∧
      ofJson? full = some couplet ∧ rewrite? full = some full ∧
      ∀ name, resolveIn? full name = resolveIn? shortCouplet name :=
  have hread := ofJson?_toJson.2.1 couplet shortCouplet shortCouplet_abbreviates
  ⟨shortCouplet_abbreviates, hread, ofJson?_toJson.2.2 shortCouplet couplet hread⟩

end Definitions
end WireFormat
