import WireFormat.Container.Run
import WireFormat.Descriptor.Basic

/-!
# Analysis of layouts

`Layout.describe` checks a layout and turns it into a descriptor.  In a record, the rules are looked
at in this order:

1. the type is not one of the enclosing types;
2. no two declared fields have one name, no two ordered fields one order or one length to carry;
3. field by field in the order of the wire: the field can be written as it says, no field before it
   takes the same length, a length it carries is an integer, and its bits fit the run they are in.

Length keys are matched with each other later, when a descriptor becomes a plan.

The least sizes are machine words, and nothing looks whether a sum or a product of them is one too:
it starts again at zero when it is not.
-/

namespace WireFormat

/-- The size policy that a fixed length and a length key make together. -/
def SizePolicy.ofTag (fixedLength : Option Nat) (lengthKey : Option String) :
    Except LayoutFault (SizePolicy String) :=
  match fixedLength, lengthKey with
  | some 0, _ => .error .zeroFixedLength
  | some slots, some key => .ok (.padded key slots)
  | some slots, none => .ok (.fixed slots)
  | none, some key => .ok (.keyed key)
  | none, none => .error .missingSizePolicy

/-- The end of a text that its tag asks for. -/
def TextSize.ofTag (tag : TextTag) : Except LayoutFault (TextSize String) :=
  if tag.nullTerminated then
    if tag.fixedLength.isSome || tag.lengthKey.isSome then
      .error .conflictingSizePolicy
    else if tag.encoding.isNullTerminable then
      .ok .nullTerminated
    else
      .error (.nullTerminationUnsupported tag.encoding)
  else
    (SizePolicy.ofTag tag.fixedLength tag.lengthKey).map .sized

namespace Descriptor

/-- The descriptor of a text. -/
def ofText (tag : TextTag) (byteOrder : ByteOrder) :
    Except LayoutFault Descriptor := do
  let size ← TextSize.ofTag tag
  let kind := .text tag.encoding size
  match size with
  | .sized (.fixed slots) => return ofFixed kind byteOrder slots
  | _ => return ⟨kind, byteOrder, false, 0⟩

/-- The descriptor of a list with a known element.  A length that is read from the wire must not
count elements that take no bytes. -/
def ofList (element : Descriptor) (size : SizePolicy String) (byteOrder : ByteOrder) :
    Except LayoutFault Descriptor :=
  let kind := .list element size
  match size with
  | .fixed slots => .ok ⟨kind, byteOrder, element.hasFixedSize, .ofNat slots * element.minSize⟩
  | .keyed _ =>
    if element.hasFixedSize && element.minSize == 0 then
      .error .zeroSizedElement
    else
      .ok ⟨kind, byteOrder, false, 0⟩
  | .padded _ _ => .ok ⟨kind, byteOrder, false, 0⟩

/-- The integer kind that a boolean or an enum is sent as. -/
def integralEquivalent (kind : ScalarKind) : Except LayoutFault IntegerKind :=
  match kind.integer? with
  | some kind => .ok kind
  | none => .error (.nonIntegralEquivalent kind)

/-- The descriptor of a boolean. -/
def ofBoolean (equivalent : Option ScalarKind) (byteOrder : ByteOrder) :
    Except LayoutFault Descriptor := do
  let repr ← integralEquivalent (equivalent.getD (.integer .i32))
  return ofFixed (.boolean repr) byteOrder repr.width

/-- The descriptor of an enum, all of whose members have to fit. -/
def ofEnum (type : EnumType) (equivalent : Option ScalarKind) (byteOrder : ByteOrder) :
    Except LayoutFault Descriptor := do
  let repr ← integralEquivalent (equivalent.getD type.underlying)
  match type.members.find? fun member ↦ !decide (repr.Fits member.2) with
  | some member => throw (.enumOutOfRange member.1 member.2 repr)
  | none => return ofFixed (.enum repr type) byteOrder repr.width

/-- The descriptor of a codec. -/
def ofCodec (codec : Codec) (context : Option String) (byteOrder : ByteOrder) : Descriptor :=
  ⟨.custom codec context, byteOrder, codec.size.isFixed, .ofNat codec.size.minSize⟩

/-- What is packed if something is to be packed into bits, and the integer kind it has. -/
def bitContent? (descriptor : Descriptor) : Option (BitContent × IntegerKind) :=
  match descriptor.kind with
  | .scalar (.integer kind) => some (.integer, kind)
  | .boolean repr => some (.boolean, repr)
  | .enum repr type => some (.enum type, repr)
  | _ => none

/-- The descriptor of a bit field of `width` bits, with the shape that messages name. -/
def narrow (descriptor : Descriptor) (width : Nat) (shape : String) :
    Except LayoutFault Descriptor :=
  match descriptor.bitContent? with
  | none => .error (.invalidBitfield shape)
  | some (content, repr) =>
    if repr.bits < width then
      .error (.bitWidthTooWide width repr)
    else
      .ok (ofFixed (.bits content repr width repr.width) descriptor.byteOrder 0)

end Descriptor

/-- What a bit field is called in messages: by the codec if it has one, else by its shape. -/
def Shape.bitfieldLabel (shape : Shape) : Option Tag → String
  | some (.custom codec context) => (Tag.custom codec context).label
  | _ => shape.label

/-- An ordered field and what has become of it. -/
structure ResolvedField where
  order : Nat
  field : Field
  outcome : Except LayoutFailure Descriptor

/-- The first element whose key, where it has one, has been seen before, with that key. -/
def firstRepeated? {α κ : Type} [DecidableEq κ] (key? : α → Option κ) (seen : List κ) :
    List α → Option (α × κ)
  | [] => none
  | element :: rest =>
    match key? element with
    | none => firstRepeated? key? seen rest
    | some key => if key ∈ seen then some (element, key) else firstRepeated? key? (key :: seen) rest

/-- What is known of a record after some of its fields. -/
structure RecordAnalysis where
  fields : List FieldDescriptor := []
  /-- The length keys taken so far. -/
  consumed : List String := []
  runs : Runs := {}
  hasFixedSize : Bool := true
  /-- The least size without bit containers. -/
  minSize : UInt64 := 0

namespace RecordAnalysis

/-- Follows the run of bit fields over one more field of the wire. -/
def track (runs : Runs) (descriptor : Descriptor) : Except LayoutFault (Descriptor × Runs) :=
  match descriptor.kind with
  | .bits content repr width _ =>
    if width = 0 then
      .ok (descriptor, runs.close)
    else do
      let (container, runs) ← runs.add repr.width width descriptor.byteOrder
      return ({ descriptor with kind := .bits content repr width container }, runs)
  | _ => .ok (descriptor, runs.close)

/-- Adds a field that has been resolved. -/
def addField (analysis : RecordAnalysis) (order : Nat) (field : Field) (descriptor : Descriptor) :
    Except LayoutFault RecordAnalysis := do
  let key := descriptor.lengthKey?
  if let some key := key then
    if key ∈ analysis.consumed then
      throw (.duplicateLengthConsumer key)
  if let some key := field.lengthOf then
    if !descriptor.kind.carriesLength then
      throw (.nonIntegralLengthField key)
  let consumed := key.toList ++ analysis.consumed
  let described (descriptor : Descriptor) : FieldDescriptor :=
    ⟨field.name, order, descriptor, field.serialize, field.lengthOf, field.padAfter⟩
  if field.serialize then
    let (descriptor, runs) ← track analysis.runs descriptor
    return {
      fields := analysis.fields ++ [described descriptor]
      consumed := consumed
      runs := if field.padAfter then runs.close else runs
      hasFixedSize := analysis.hasFixedSize && descriptor.hasFixedSize
      minSize := analysis.minSize + descriptor.minSize }
  else
    return { analysis with
      fields := analysis.fields ++ [described descriptor]
      consumed := consumed }

/-- Adds fields one after the other. -/
def addFields (typeName : String) (analysis : RecordAnalysis) (resolved : List ResolvedField) :
    Except LayoutError RecordAnalysis :=
  resolved.foldlM (fun analysis resolved ↦ do
    let name := resolved.field.name
    let descriptor ← resolved.outcome.mapError (LayoutFailure.locate typeName name)
    (analysis.addField resolved.order resolved.field descriptor).mapError fun fault ↦
      ⟨typeName, some name, fault⟩) analysis

/-- The descriptor of the record. -/
def toDescriptor (analysis : RecordAnalysis) (name : String) (byteOrder : ByteOrder) : Descriptor :=
  ⟨.record name analysis.fields, byteOrder, analysis.hasFixedSize,
    analysis.minSize + .ofNat analysis.runs.bytes⟩

end RecordAnalysis

/-- Puts the resolved fields of a record into the order of the wire and together.  `declared` are
all fields that the record declares. -/
def Layout.assemble (name : String) (byteOrder : ByteOrder) (declared : List Field)
    (resolved : List ResolvedField) : Except LayoutError Descriptor := do
  if let some (field, _) := firstRepeated? (fun field : Field ↦ some field.name) [] declared then
    throw ⟨name, some field.name, .duplicateName⟩
  let sorted := resolved.mergeSort fun first second ↦ decide (first.order ≤ second.order)
  if let some (entry, order) :=
      firstRepeated? (fun entry : ResolvedField ↦ some entry.order) [] sorted then
    throw ⟨name, some entry.field.name, .duplicateOrder order⟩
  if let some (entry, key) :=
      firstRepeated? (fun entry : ResolvedField ↦ entry.field.lengthOf) [] sorted then
    throw ⟨name, some entry.field.name, .duplicateLengthField key⟩
  return (← RecordAnalysis.addFields name {} sorted).toDescriptor name byteOrder

/-- The descriptor of a codec, if the tag names one; it goes before everything else. -/
def Descriptor.unlessCodec (tag : Option Tag) (byteOrder : ByteOrder)
    (otherwise : Except LayoutFailure Descriptor) : Except LayoutFailure Descriptor :=
  match tag with
  | some (.custom codec context) => .ok (ofCodec codec context byteOrder)
  | _ => otherwise

/-- The failure of a tag that cannot describe a shape. -/
def Shape.refuse (shape : Shape) (tag : Tag) : LayoutFailure :=
  .ofField (.tagMismatch tag.label shape.label)

/-- The descriptor of a scalar.  Booleans are sent as integers. -/
def Descriptor.ofScalar (tag : Option Tag) (byteOrder : ByteOrder)
    (kind : ScalarKind) : Except LayoutFailure Descriptor :=
  match kind, tag with
  | .bool, none | .bool, some .primitive => (ofBoolean none byteOrder).mapError .ofField
  | .bool, some (.boolean equivalent) => (ofBoolean equivalent byteOrder).mapError .ofField
  | kind, none | kind, some .primitive => .ok (ofFixed (.scalar kind) byteOrder kind.width)
  | kind, some other => .error ((Shape.scalar kind).refuse other)

mutual

/-- The descriptor of a field or element by its shape and tag.  `enclosing` are the names of
the record types around it, outermost first. -/
def Shape.describe (enclosing : List String) (byteOrder : ByteOrder)
    (tag : Option Tag) : Shape → Except LayoutFailure Descriptor
  | .scalar kind =>
    Descriptor.unlessCodec tag byteOrder (Descriptor.ofScalar tag byteOrder kind)
  | .enum type => Descriptor.unlessCodec tag byteOrder <|
    match tag with
    | none | some .primitive => (Descriptor.ofEnum type none byteOrder).mapError .ofField
    | some (.enum equivalent) => (Descriptor.ofEnum type equivalent byteOrder).mapError .ofField
    | some other => .error ((Shape.enum type).refuse other)
  | .text => Descriptor.unlessCodec tag byteOrder <|
    match tag with
    | some (.text text) => (Descriptor.ofText text byteOrder).mapError .ofField
    | some other => .error (Shape.text.refuse other)
    | none => .error (.ofField (.missingTag "string" "string"))
  | .list ⟨shape, elementTag⟩ => Descriptor.unlessCodec tag byteOrder <|
    match tag with
    | some (.list size) => do
      let policy ← (SizePolicy.ofTag size.fixedLength size.lengthKey).mapError .ofField
      let element ← shape.describe enclosing byteOrder elementTag
      (Descriptor.ofList element policy byteOrder).mapError .ofField
    | some other => .error ((Shape.list ⟨shape, elementTag⟩).refuse other)
    | none => .error (.ofField (.missingTag "list" "collection"))
  | .record layout => Descriptor.unlessCodec tag byteOrder <|
    match tag with
    | none | some .record => (layout.describeWithin enclosing byteOrder).mapError .ofRecord
    | some other => .error ((Shape.record layout).refuse other)

/-- The descriptor of a record type inside others. -/
def Layout.describeWithin (enclosing : List String) (inherited : ByteOrder) :
    Layout → Except LayoutError Descriptor
  | ⟨name, byteOrder, fields⟩ =>
    if name ∈ enclosing then
      .error ⟨enclosing.headD name, none, .recursiveType name⟩
    else
      let byteOrder := byteOrder.getD inherited
      Layout.assemble name byteOrder fields
        (Field.describeAll (enclosing ++ [name]) byteOrder fields)

/-- What becomes of the ordered fields of a record, each on its own. -/
def Field.describeAll (enclosing : List String) (byteOrder : ByteOrder) :
    List Field → List ResolvedField
  | [] => []
  | ⟨name, order, shape, tag, fieldOrder, bitWidth, padAfter, lengthOf, serialize⟩ :: rest =>
    let resolved := Field.describeAll enclosing byteOrder rest
    match order with
    | none => resolved
    | some place =>
      let field : Field :=
        ⟨name, order, shape, tag, fieldOrder, bitWidth, padAfter, lengthOf, serialize⟩
      let outcome := do
        let descriptor ← shape.describe enclosing (fieldOrder.getD byteOrder) tag
        match bitWidth with
        | none => return descriptor
        | some width =>
          (descriptor.narrow width (shape.bitfieldLabel tag)).mapError .ofField
      ⟨place, field, outcome⟩ :: resolved

end

/-- Checks a layout and describes it.  The byte order is little endian unless the layout says
otherwise. -/
def Layout.describe (layout : Layout) : Except LayoutError Descriptor :=
  layout.describeWithin [] .little

end WireFormat
