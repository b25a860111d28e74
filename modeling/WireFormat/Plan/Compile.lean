import WireFormat.Plan.Scope

/-!
# From descriptors to plans

`Plan.ofDescriptor` compiles the descriptor of a record.  A field is compiled with the scopes of the
records around it, which take part in the answer because the length keys found in the field are
matched in them.
-/

namespace WireFormat

/-- Matches the length key of a size policy, if it has one. -/
def SizePolicy.compile (scopes : List Scope) (measure : Measure) :
    SizePolicy String → Except LayoutFault (SizePolicy LengthSource × List Scope)
  | fixed slots => .ok (fixed slots, scopes)
  | keyed key => do
    let (source, scopes) ← Scope.bind scopes key measure
    return (keyed source, scopes)
  | padded key slots => do
    let (source, scopes) ← Scope.bind scopes key measure
    return (padded source slots, scopes)

/-- Matches the length key of a text, if it has one. -/
def TextSize.compile (scopes : List Scope) (encoding : Encoding) :
    TextSize String → Except LayoutFault (TextSize LengthSource × List Scope)
  | nullTerminated => .ok (nullTerminated, scopes)
  | sized policy => do
    let (policy, scopes) ← policy.compile scopes (.bytes encoding)
    return (sized policy, scopes)

/-- The operation of a scalar in a byte order. -/
def Operation.ofScalar (repr : ScalarKind) (byteOrder : ByteOrder) (flavor : Flavor) : Operation :=
  .scalar repr (byteOrder.reverses repr.width) flavor

/-- The fields of a record that are not on the wire, with their defaults.  A field without a default
is left out. -/
def FieldDescriptor.skipped (fields : List FieldDescriptor) : List (String × Value) :=
  fields.filterMap fun field ↦
    if field.serialize then none else field.descriptor.default?.map fun value ↦ (field.name, value)

/-- Gives each field the feed of the length that it carries. -/
def FieldPlan.addFeeds (carriers : List Carrier) (fields : List FieldPlan) : List FieldPlan :=
  fields.map fun field ↦
    { field with
      feed := (carriers.find? fun carrier ↦ carrier.field == field.name).bind Carrier.feed }

/-- Puts the plan of a record together from the plans of its fields on the wire.  The innermost
scope is that of the record itself, after all its fields. -/
def RecordPlan.assemble (name : String) (fields : List FieldDescriptor) (plans : List FieldPlan)
    (scopes : List Scope) : Except LayoutError RecordPlan := do
  let carriers ← (scopes.headD .element).close
  return ⟨name, FieldPlan.addFeeds carriers plans, FieldDescriptor.skipped fields⟩

mutual

/-- The operation of a field or element. -/
def Descriptor.compile (scopes : List Scope) :
    Descriptor → Except LayoutFailure (Operation × List Scope)
  | ⟨kind, byteOrder, _, _⟩ => kind.compile scopes byteOrder

/-- The operation of something of a kind. -/
def DescriptorKind.compile (scopes : List Scope) (byteOrder : ByteOrder) :
    DescriptorKind → Except LayoutFailure (Operation × List Scope)
  | .scalar kind => .ok (.ofScalar kind byteOrder .native, scopes)
  | .boolean repr => .ok (.ofScalar (.integer repr) byteOrder .boolean, scopes)
  | .enum repr _ => .ok (.ofScalar (.integer repr) byteOrder .enum, scopes)
  | .bits content repr width container =>
    .ok (.bits repr width container (byteOrder.reverses container) content.flavor, scopes)
  | .text encoding size => do
    let (size, scopes) ← (size.compile scopes encoding).mapError .ofField
    return (.text encoding size, scopes)
  | .list element size => do
    let (size, scopes) ← (size.compile scopes .elements).mapError .ofField
    let (operation, inner) ← element.compile (.element :: scopes)
    return (.list operation size element.default?, inner.tail)
  | .record name fields => do
    let (plans, inner) ←
      (FieldDescriptor.compileAll name (Scope.ofRecord name fields :: scopes) fields).mapError
        .ofRecord
    let plan ← (RecordPlan.assemble name fields plans inner).mapError .ofRecord
    return (.record plan, inner.tail)
  | .custom codec context => .ok (.custom codec context, scopes)

/-- The plans of the fields of a record that are on the wire. -/
def FieldDescriptor.compileAll (typeName : String) (scopes : List Scope) :
    List FieldDescriptor → Except LayoutError (List FieldPlan × List Scope)
  | [] => .ok ([], scopes)
  | ⟨name, order, descriptor, serialize, lengthOf, padAfter⟩ :: rest =>
    if serialize then do
      let (operation, scopes) ←
        (descriptor.compile (Scope.enterMember name order scopes)).mapError
          (LayoutFailure.locate typeName name)
      let (plans, scopes) ← FieldDescriptor.compileAll typeName scopes rest
      return (⟨name, operation, lengthOf, none, padAfter⟩ :: plans, scopes)
    else
      FieldDescriptor.compileAll typeName scopes rest

end

/-- The plan of a record with nothing around it. -/
def RecordPlan.ofFields (name : String) (fields : List FieldDescriptor) :
    Except LayoutError RecordPlan := do
  let (plans, scopes) ← FieldDescriptor.compileAll name [Scope.ofRecord name fields] fields
  assemble name fields plans scopes

/-- The plan of a record type.  Nothing else has a plan of its own. -/
def Plan.ofDescriptor (descriptor : Descriptor) : Except LayoutError Plan :=
  match descriptor.kind with
  | .record name fields => do
    let root ← RecordPlan.ofFields name fields
    return ⟨root, descriptor.hasFixedSize, descriptor.minSize⟩
  | _ => .error ⟨"", none, .tagMismatch "composite" "non-composite"⟩

end WireFormat
