import WireFormat.Report.Value
import WireFormat.Schema.Basic

/-!
# Schemas in JSON

What has become of a layout, for tools to look at: the descriptor with all its facts, the plan with
its operations and the default of the record type.
-/

namespace WireFormat

/-- The name of a size policy. -/
def SizePolicy.name {κ : Type} : SizePolicy κ → String
  | fixed _ => "fixed"
  | keyed _ => "keyed"
  | padded _ _ => "padded"

/-- The name of what decides about the end of a text. -/
def TextSize.name {κ : Type} : TextSize κ → String
  | nullTerminated => "nul"
  | sized policy => policy.name

/-- The name of what a bit field holds. -/
def BitContent.name : BitContent → String
  | integer => "integer"
  | boolean => "boolean"
  | enum _ => "enum"

/-- A member of an object that is there only if it has a value. -/
def Json.memberIf {α : Type} (name : String) (write : α → Json) (value : Option α) :
    List (String × Json) :=
  (value.map fun value ↦ (name, write value)).toList

/-- The facts about a size policy that there are. -/
def SizePolicy.facts (policy : SizePolicy String) : List (String × Json) :=
  Json.memberIf "length_key" .string policy.key? ++
    Json.memberIf "fixed_length" .ofNat policy.slots?

mutual

/-- A descriptor in JSON. -/
def Descriptor.toJson : Descriptor → Json
  | ⟨kind, byteOrder, hasFixedSize, minSize⟩ =>
    .object ([
      ("endianness", .string byteOrder.name),
      ("fixed", .bool hasFixedSize),
      ("min", .ofNat minSize.toNat)] ++ kind.facts)

/-- What there is to say about a way to be written. -/
def DescriptorKind.facts : DescriptorKind → List (String × Json)
  | .scalar kind => [("kind", .string "primitive"), ("repr", .string kind.name)]
  | .boolean repr => [("kind", .string "boolean"), ("repr", .string repr.name)]
  | .enum repr type =>
    [("kind", .string "enum"), ("repr", .string repr.name), ("enum", .string type.name)]
  | .bits content repr width container =>
    [("kind", .string "bitfield"), ("repr", .string repr.name), ("container", .ofNat container),
      ("value", .string content.name), ("bit_width", .ofNat width)]
  | .text encoding size =>
    [("kind", .string "string"), ("size", .string size.name),
      ("encoding", .string encoding.name)] ++
      (size.policy?.map SizePolicy.facts).getD []
  | .list element size =>
    [("kind", .string "collection"), ("size", .string size.name), ("element", element.toJson)] ++
      size.facts
  | .record name fields =>
    [("kind", .string "composite"), ("name", .string name),
      ("fields", .array (FieldDescriptor.allJson fields))]
  | .custom _ context =>
    [("kind", .string "custom"), ("context", .ofOption .string context)]

/-- The fields of a record in JSON. -/
def FieldDescriptor.allJson : List FieldDescriptor → List Json
  | [] => []
  | ⟨name, order, descriptor, serialize, lengthOf, padAfter⟩ :: rest =>
    .object [
      ("name", .string name),
      ("order", .ofNat order),
      ("serialize", .bool serialize),
      ("length_of", .ofOption .string lengthOf),
      ("pad_after", .bool padAfter),
      ("type", descriptor.toJson)] :: FieldDescriptor.allJson rest

end

/-- The name of a flavour. -/
def Flavor.name : Flavor → String
  | native => "Native"
  | boolean => "Boolean"
  | enum => "Enum"

/-- Where a length is read, in JSON. -/
def LengthSource.toJson (source : LengthSource) : Json :=
  .object [("key", .string source.key), ("up", .ofNat source.up)]

/-- A size policy in JSON. -/
def SizePolicy.toJson : SizePolicy LengthSource → Json
  | fixed slots => .object [("fixed", .ofNat slots)]
  | keyed source => .object [("keyed", source.toJson)]
  | padded source slots => .object [("padded", source.toJson), ("fixed", .ofNat slots)]

/-- What decides about the end of a text, in JSON. -/
def TextSize.toJson : TextSize LengthSource → Json
  | nullTerminated => .string "nul"
  | sized policy => policy.toJson

/-- The name of what a length counts. -/
def Measure.name : Measure → String
  | elements => "elements"
  | bytes encoding => "bytes:" ++ encoding.name

/-- What a length measures, in JSON. -/
def LengthFeed.toJson (feed : LengthFeed) : Json :=
  .object [("path", .array (feed.path.map .string)), ("measure", .string feed.measure.name)]

mutual

/-- An operation in JSON. -/
def Operation.toJson : Operation → Json
  | .scalar repr swap flavor =>
    .object [("op", .string "scalar"), ("repr", .string repr.name), ("swap", .bool swap),
      ("flavor", .string flavor.name)]
  | .bits repr width container swap flavor =>
    .object [("op", .string "bits"), ("repr", .string repr.name), ("width", .ofNat width),
      ("container", .ofNat container), ("swap", .bool swap), ("flavor", .string flavor.name)]
  | .text encoding size =>
    .object [("op", .string "string"), ("encoding", .string encoding.name), ("size", size.toJson)]
  | .list element policy default? =>
    .object [("op", .string "collection"), ("element", element.toJson), ("size", policy.toJson),
      ("default", .ofOption Value.toJson default?)]
  | .record plan => .object [("op", .string "composite"), ("composite", plan.toJson)]
  | .custom _ context => .object [("op", .string "custom"), ("context", .ofOption .string context)]

/-- The plan of a record in JSON. -/
def RecordPlan.toJson : RecordPlan → Json
  | ⟨name, fields, skipped⟩ =>
    .object [
      ("name", .string name),
      ("fields", .array (FieldPlan.allJson fields)),
      ("skipped", .array (skipped.map fun field ↦ .array [.string field.1, field.2.toJson]))]

/-- The plans of fields in JSON. -/
def FieldPlan.allJson : List FieldPlan → List Json
  | [] => []
  | ⟨name, operation, lengthOf, feed, padAfter⟩ :: rest =>
    .object [
      ("name", .string name),
      ("op", operation.toJson),
      ("length_of", .ofOption .string lengthOf),
      ("feed", .ofOption LengthFeed.toJson feed),
      ("pad_after", .bool padAfter)] :: FieldPlan.allJson rest

end

/-- The plan of a record type in JSON. -/
def Plan.toJson (plan : Plan) : Json :=
  .object [
    ("root", plan.root.toJson),
    ("fixed", .bool plan.hasFixedSize),
    ("min", .ofNat plan.minSize.toNat)]

/-- A schema in JSON. -/
def Schema.toJson (schema : Schema) : Json :=
  .object [
    ("name", .string schema.name),
    ("fixed", .bool schema.hasFixedSize),
    ("min", .ofNat schema.minSize),
    ("descriptor", schema.descriptor.toJson),
    ("plan", schema.plan.root.toJson),
    ("default", .ofOption Value.toJson schema.descriptor.default?)]

end WireFormat
