import WireFormat.Definitions.Basic
import WireFormat.Json

/-!
# Definitions in JSON

`Definitions.toJson` writes definitions with every member, `Definitions.ofJson?` reads them.
Reading ignores members that it does not know.  A member that may have no value can be null or
missing; a member with a default can be missing only.  Shapes and tags are alternatives, which say
which one they are in the member `type`.  What stands inside an alternative has more freedom: other
alternatives can be meant by their place, and a name can have an empty object as well as null.
-/

namespace WireFormat

namespace Json

/-- A number of 32 bits. -/
def ofUInt32 (value : UInt32) : Json := integer value.toNat

/-- A number of 64 bits. -/
def ofUInt64 (value : UInt64) : Json := integer value.toNat

/-- One of several names inside an alternative: as `name?`, or with an empty object. -/
def innerName? : Json → Option String
  | object [(name, object [])] => some name
  | json => json.name?

/-- The value that says which alternative is meant, and what is left without it: the member `type`
of an object, or the first element of an array. -/
def alternative? : Json → Option (Json × Json)
  | object members => do
    let choice ← members.lookup "type"
    return (choice, object (members.filter fun member ↦ member.1 != "type"))
  | array (choice :: rest) => some (choice, array rest)
  | _ => none

/-- Whether the alternative that is meant is named. -/
def isNamed (json : Json) : Bool :=
  json.alternative?.any fun alternative ↦ alternative.1 matches string _

/-- The name of the alternative that is meant, by that name or by its place among all names. -/
def choose? (names : List String) : Json → Option String
  | string name => some name
  | integer (.ofNat place) => names[place]?
  | _ => none

/-- The members of an alternative that has none.  Those of an object are not looked at. -/
def noFields? : Json → Option Unit
  | object _ | array [] => some ()
  | _ => none

end Json

namespace ScalarKind

/-- A scalar kind in JSON. -/
def toJson (kind : ScalarKind) : Json := .string kind.name

/-- A scalar kind from JSON. -/
def ofJson? (json : Json) : Option ScalarKind := json.name?.bind ofName?

/-- A scalar kind inside an alternative. -/
def ofInner? (json : Json) : Option ScalarKind := json.innerName?.bind ofName?

end ScalarKind

namespace ByteOrder

/-- A byte order in JSON. -/
def toJson (order : ByteOrder) : Json := .string order.name

/-- A byte order from JSON. -/
def ofJson? (json : Json) : Option ByteOrder := json.name?.bind ofName?

end ByteOrder

namespace Encoding

/-- An encoding in JSON. -/
def toJson (encoding : Encoding) : Json := .string encoding.name

/-- An encoding inside an alternative. -/
def ofInner? (json : Json) : Option Encoding := json.innerName?.bind ofName?

end Encoding

namespace TagDef

/-- A tag in JSON. -/
def toJson : TagDef → Json
  | primitive => .object [("type", .string "Primitive")]
  | boolean equivalent =>
    .object [("type", .string "Boolean"), ("equivalent", .ofOption ScalarKind.toJson equivalent)]
  | enum equivalent =>
    .object [("type", .string "Enum"), ("equivalent", .ofOption ScalarKind.toJson equivalent)]
  | text encoding nullTerminated fixedLength lengthKey =>
    .object [
      ("type", .string "String"),
      ("encoding", encoding.toJson),
      ("null_terminated", .bool nullTerminated),
      ("fixed_length", .ofOption .ofUInt64 fixedLength),
      ("length_key", .ofOption .string lengthKey)]
  | list fixedLength lengthKey =>
    .object [
      ("type", .string "Collection"),
      ("fixed_length", .ofOption .ofUInt64 fixedLength),
      ("length_key", .ofOption .string lengthKey)]
  | record => .object [("type", .string "Composite")]

/-- The names of all tags. -/
def names : List String := ["Primitive", "Boolean", "Enum", "String", "Collection", "Composite"]

/-- A tag inside an alternative. -/
def ofInner? (json : Json) : Option TagDef := do
  let (choice, content) ← json.alternative?
  match ← choice.choose? names with
  | "Primitive" =>
    content.noFields?
    return primitive
  | "Boolean" =>
    let members ← content.fields? ["equivalent"]
    return boolean (← members |> Json.optional ScalarKind.ofInner? "equivalent")
  | "Enum" =>
    let members ← content.fields? ["equivalent"]
    return enum (← members |> Json.optional ScalarKind.ofInner? "equivalent")
  | "String" =>
    let members ← content.fields? ["encoding", "null_terminated", "fixed_length", "length_key"]
    let encoding ← members |> Json.required Encoding.ofInner? "encoding"
    let nullTerminated ← members |> Json.defaulted false Json.bool? "null_terminated"
    let fixedLength ← members |> Json.optional Json.uint64? "fixed_length"
    let lengthKey ← members |> Json.optional Json.string? "length_key"
    return text encoding nullTerminated fixedLength lengthKey
  | "Collection" =>
    let members ← content.fields? ["fixed_length", "length_key"]
    let fixedLength ← members |> Json.optional Json.uint64? "fixed_length"
    let lengthKey ← members |> Json.optional Json.string? "length_key"
    return list fixedLength lengthKey
  | "Composite" =>
    content.noFields?
    return record
  | _ => none

/-- A tag from JSON. -/
def ofJson? (json : Json) : Option TagDef := if json.isNamed then ofInner? json else none

end TagDef

mutual

/-- A shape in JSON. -/
def ShapeDef.toJson : ShapeDef → Json
  | .scalar kind => .object [("type", .string "Scalar"), ("kind", kind.toJson)]
  | .enum name => .object [("type", .string "Enum"), ("name", .string name)]
  | .text => .object [("type", .string "String")]
  | .list element => .object [("type", .string "List"), ("element", element.toJson)]
  | .record name => .object [("type", .string "Struct"), ("name", .string name)]

/-- The elements of a list in JSON. -/
def ElementDef.toJson : ElementDef → Json
  | ⟨shape, tag⟩ =>
    .object [("shape", shape.toJson), ("tag", .ofOption TagDef.toJson tag)]

end

/-- The names of all shapes. -/
def ShapeDef.names : List String := ["Scalar", "Enum", "String", "List", "Struct"]

/-- A shape without elements, by the name of the alternative and what is left without it. -/
def ShapeDef.ofAlternative? (alternative : String) (content : Json) : Option ShapeDef := do
  match alternative with
  | "Scalar" =>
    let members ← content.fields? ["kind"]
    return .scalar (← members |> Json.required ScalarKind.ofInner? "kind")
  | "Enum" =>
    let members ← content.fields? ["name"]
    return .enum (← members |> Json.required Json.string? "name")
  | "String" =>
    content.noFields?
    return .text
  | "Struct" =>
    let members ← content.fields? ["name"]
    return .record (← members |> Json.required Json.string? "name")
  | _ => none

mutual

/-- A shape inside an alternative. -/
def ShapeDef.ofInner? : Json → Option ShapeDef
  | .object members => do
    let (choice, content) ← (Json.object members).alternative?
    let alternative ← choice.choose? ShapeDef.names
    if alternative = "List" then
      return .list (← ElementDef.find? members)
    else
      ShapeDef.ofAlternative? alternative content
  | .array [choice, content] => do
    let alternative ← choice.choose? ShapeDef.names
    if alternative = "List" then
      return .list (← ElementDef.ofInner? content)
    else
      ShapeDef.ofAlternative? alternative (.array [content])
  | json => do
    let (choice, content) ← json.alternative?
    ShapeDef.ofAlternative? (← choice.choose? ShapeDef.names) content

/-- The member `shape` of an object. -/
def ShapeDef.find? : List (String × Json) → Option ShapeDef
  | [] => none
  | (name, json) :: rest => if name = "shape" then ShapeDef.ofInner? json else ShapeDef.find? rest

/-- The elements of a list, which always stand inside an alternative. -/
def ElementDef.ofInner? : Json → Option ElementDef
  | .object members => do
    let shape ← ShapeDef.find? members
    let tag ← members |> Json.optional TagDef.ofInner? "tag"
    return ⟨shape, tag⟩
  | .array [shape] => return ⟨← ShapeDef.ofInner? shape, none⟩
  | .array [shape, tag] => do
    let shape ← ShapeDef.ofInner? shape
    let tag ← [("tag", tag)] |> Json.optional TagDef.ofInner? "tag"
    return ⟨shape, tag⟩
  | _ => none

/-- The member `element` of an object. -/
def ElementDef.find? : List (String × Json) → Option ElementDef
  | [] => none
  | (name, json) :: rest =>
    if name = "element" then ElementDef.ofInner? json else ElementDef.find? rest

end

/-- A shape from JSON. -/
def ShapeDef.ofJson? (json : Json) : Option ShapeDef :=
  if json.isNamed then ShapeDef.ofInner? json else none

namespace FieldDef

/-- A field in JSON. -/
def toJson (field : FieldDef) : Json :=
  .object [
    ("name", .string field.name),
    ("order", .ofOption .ofUInt32 field.order),
    ("shape", field.shape.toJson),
    ("tag", .ofOption TagDef.toJson field.tag),
    ("endianness", .ofOption ByteOrder.toJson field.byteOrder),
    ("bits", .ofOption .ofUInt32 field.bits),
    ("pad_after", .bool field.padAfter),
    ("length_of", .ofOption .string field.lengthOf),
    ("serialize", .bool field.serialize)]

/-- A field from JSON. -/
def ofJson? (json : Json) : Option FieldDef := do
  let members ← json.fields? ["name", "order", "shape", "tag", "endianness", "bits", "pad_after",
    "length_of", "serialize"]
  return {
    name := ← members |> Json.required Json.string? "name"
    order := ← members |> Json.optional Json.uint32? "order"
    shape := ← members |> Json.required ShapeDef.ofJson? "shape"
    tag := ← members |> Json.optional TagDef.ofJson? "tag"
    byteOrder := ← members |> Json.optional ByteOrder.ofJson? "endianness"
    bits := ← members |> Json.optional Json.uint32? "bits"
    padAfter := ← members |> Json.defaulted false Json.bool? "pad_after"
    lengthOf := ← members |> Json.optional Json.string? "length_of"
    serialize := ← members |> Json.defaulted true Json.bool? "serialize" }

end FieldDef

namespace TypeDef

/-- A record type in JSON. -/
def toJson (type : TypeDef) : Json :=
  .object [
    ("name", .string type.name),
    ("endianness", .ofOption ByteOrder.toJson type.byteOrder),
    ("fields", .array (type.fields.map FieldDef.toJson))]

/-- A record type from JSON. -/
def ofJson? (json : Json) : Option TypeDef := do
  let members ← json.fields? ["name", "endianness", "fields"]
  let name ← members |> Json.required Json.string? "name"
  let byteOrder ← members |> Json.optional ByteOrder.ofJson? "endianness"
  let fields ← members |> Json.required Json.array? "fields"
  return ⟨name, byteOrder, ← fields.mapM FieldDef.ofJson?⟩

end TypeDef

namespace EnumMemberDef

/-- A member of an enum in JSON. -/
def toJson (member : EnumMemberDef) : Json :=
  .object [("name", .string member.name), ("value", .integer member.value.toInt)]

/-- A member of an enum from JSON. -/
def ofJson? (json : Json) : Option EnumMemberDef := do
  let members ← json.fields? ["name", "value"]
  let name ← members |> Json.required Json.string? "name"
  let value ← members |> Json.required Json.int64? "value"
  return ⟨name, value⟩

end EnumMemberDef

namespace EnumDef

/-- An enum in JSON. -/
def toJson (definition : EnumDef) : Json :=
  .object [
    ("name", .string definition.name),
    ("underlying", definition.underlying.toJson),
    ("members", .array (definition.members.map EnumMemberDef.toJson))]

/-- An enum from JSON. -/
def ofJson? (json : Json) : Option EnumDef := do
  let members ← json.fields? ["name", "underlying", "members"]
  let name ← members |> Json.required Json.string? "name"
  let underlying ← members |> Json.required ScalarKind.ofJson? "underlying"
  let enumMembers ← members |> Json.required Json.array? "members"
  return ⟨name, underlying, ← enumMembers.mapM EnumMemberDef.ofJson?⟩

end EnumDef

namespace Definitions

/-- Definitions in JSON. -/
def toJson (definitions : Definitions) : Json :=
  .object [
    ("root", .string definitions.root),
    ("types", .array (definitions.types.map TypeDef.toJson)),
    ("enums", .array (definitions.enums.map EnumDef.toJson))]

/-- Definitions from JSON. -/
def ofJson? (json : Json) : Option Definitions := do
  let members ← json.fields? ["root", "types", "enums"]
  let root ← members |> Json.required Json.string? "root"
  let types ← members |> Json.required Json.array? "types"
  let enums ← members |> Json.defaulted [] Json.array? "enums"
  return ⟨root, ← types.mapM TypeDef.ofJson?, ← enums.mapM EnumDef.ofJson?⟩

end Definitions

end WireFormat
