import WireFormat.Plan.Compile

/-!
# Lengths that are asked for

A list or text with a length key asks the records around it for a length.  This file says what is
asked for in a descriptor, and by which field it is answered, without any scopes:

* `Enclosure` — a record around something, with the field of it that leads there;
* `Descriptor.demands` — the lengths that a descriptor asks its surroundings for, itself included;
* `Lends` — the one field that answers a demand;
* `Descriptor.Settled` — the lengths inside a descriptor that do not concern its surroundings;
* `Descriptor.operation` — the operation of a descriptor in which every demand is answered.
-/

namespace WireFormat

/-! ## Demands -/

/-- A record around something, with the field of it that leads there. -/
structure Enclosure where
  typeName : String
  fields : List FieldDescriptor
  member : FieldDescriptor

/-- Whether a field on the wire carries the length of a key. -/
def FieldDescriptor.carries (key : String) (field : FieldDescriptor) : Bool :=
  field.serialize && field.lengthOf == some key

theorem FieldDescriptor.carries_iff {key : String} {field : FieldDescriptor} :
    field.carries key ↔ field.serialize ∧ field.lengthOf = some key := by
  rw [carries, Bool.and_eq_true, beq_iff_eq]

/-- The fields of an enclosing record that carry the length of a key. -/
def Enclosure.carriers (enclosure : Enclosure) (key : String) : List FieldDescriptor :=
  enclosure.fields.filter (FieldDescriptor.carries key)

/-- What a list or text asks for: the length of a key.  The chain is made of the records on the way
to the list or text, innermost first. -/
structure Demand where
  chain : List Enclosure
  key : String
  measure : Measure

namespace Demand

/-- The same from one record further out. -/
def within (enclosure : Enclosure) (demand : Demand) : Demand :=
  { demand with chain := demand.chain ++ [enclosure] }

/-- The names of the fields on the way to the list or text, outermost first. -/
def path (demand : Demand) : List String :=
  (demand.chain.map fun enclosure ↦ enclosure.member.name).reverse

/-- What the outermost record on the way measures for the length. -/
def feed (demand : Demand) : LengthFeed := ⟨demand.path, demand.measure⟩

@[simp] theorem within_key (enclosure : Enclosure) (demand : Demand) :
    (demand.within enclosure).key = demand.key := rfl

end Demand

/-- What takes the length of a key: the first of several. -/
def feedOf (demands : List Demand) (key : String) : Option LengthFeed :=
  (demands.find? fun demand ↦ demand.key == key).map Demand.feed

/-- The demand of a size policy. -/
def SizePolicy.demands (policy : SizePolicy String) (measure : Measure) : List Demand :=
  policy.key?.toList.map fun key ↦ ⟨[], key, measure⟩

/-- The demand of a text. -/
def TextSize.demands (encoding : Encoding) : TextSize String → List Demand
  | nullTerminated => []
  | sized policy => policy.demands (.bytes encoding)

mutual

/-- The lengths that a descriptor asks its surroundings for.  The elements of a list ask for none of
these, since they only use lengths that are declared in them. -/
def Descriptor.demands : Descriptor → List Demand
  | ⟨kind, _, _, _⟩ => kind.demands

/-- The lengths that something of a kind asks for. -/
def DescriptorKind.demands : DescriptorKind → List Demand
  | .text encoding size => size.demands encoding
  | .list _ size => size.demands .elements
  | .record name fields => FieldDescriptor.demandsAll name fields fields
  | _ => []

/-- The lengths that some fields of a record ask for. -/
def FieldDescriptor.demandsAll (typeName : String) (fields : List FieldDescriptor) :
    List FieldDescriptor → List Demand
  | [] => []
  | ⟨name, order, descriptor, serialize, lengthOf, padAfter⟩ :: rest =>
    (if serialize then
      descriptor.demands.map (Demand.within ⟨typeName, fields,
        ⟨name, order, descriptor, serialize, lengthOf, padAfter⟩⟩)
    else []) ++ FieldDescriptor.demandsAll typeName fields rest

end

/-! ## Answers -/

/-- Of the records around a list or text exactly one field carries the length of a key, and it comes
before the field that leads to the list or text. -/
inductive Lends (key : String) : List Enclosure → Prop where
  | intro {inner outer : List Enclosure} {enclosure : Enclosure} {carrier : FieldDescriptor}
      (own : enclosure.carriers key = [carrier])
      (inside : ∀ other ∈ inner, other.carriers key = [])
      (outside : ∀ other ∈ outer, other.carriers key = [])
      (earlier : carrier.order < enclosure.member.order) : Lends key (inner ++ enclosure :: outer)

/-- What is left to ask of the inside of a descriptor once all its demands are answered: the
elements of lists find their lengths in themselves, and every length that a record carries is taken
once. -/
inductive Descriptor.Settled : Descriptor → Prop where
  | intro {descriptor : Descriptor}
      (elements : ∀ element ∈ descriptor.element?, Settled element)
      (lent : ∀ element ∈ descriptor.element?, ∀ demand ∈ element.demands,
        Lends demand.key demand.chain)
      (fields : ∀ field ∈ descriptor.fields, field.serialize → Settled field.descriptor)
      (taken : ∀ field ∈ descriptor.fields, ∀ key, field.carries key →
        descriptor.demands.countP (fun demand ↦ demand.key == key) = 1) : Settled descriptor

/-! ## Operations -/

/-- The policy with something else for each length. -/
def SizePolicy.map {κ ι : Type} (f : κ → ι) : SizePolicy κ → SizePolicy ι
  | fixed slots => fixed slots
  | keyed key => keyed (f key)
  | padded key slots => padded (f key) slots

/-- The text size with something else for its length. -/
def TextSize.map {κ ι : Type} (f : κ → ι) : TextSize κ → TextSize ι
  | nullTerminated => nullTerminated
  | sized policy => sized (policy.map f)

/-- Where the length of a key is found from inside the given records. -/
def LengthSource.from (chain : List Enclosure) (key : String) : LengthSource :=
  ⟨key, chain.findIdx fun enclosure ↦ !(enclosure.carriers key).isEmpty⟩

theorem LengthSource.from_eq {inner outer : List Enclosure} {enclosure : Enclosure} {key : String}
    (hown : enclosure.carriers key ≠ []) (hinner : ∀ other ∈ inner, other.carriers key = []) :
    LengthSource.from (inner ++ enclosure :: outer) key = ⟨key, inner.length⟩ := by
  rw [LengthSource.from, LengthSource.mk.injEq, and_iff_right rfl]
  induction inner with
  | nil => simp [List.findIdx_cons, List.isEmpty_eq_false_iff.2 hown]
  | cons first inner ih =>
    obtain ⟨hfirst, hinner⟩ := List.forall_mem_cons.1 hinner
    simp [List.findIdx_cons, hfirst, ← ih hinner]

/-- The carriers of a record with what takes their lengths. -/
def Carrier.ofFields (fields : List FieldDescriptor) (feeds : String → Option LengthFeed) :
    List Carrier :=
  fields.filterMap fun field ↦
    if field.serialize then
      field.lengthOf.map fun key ↦ ⟨key, field.name, field.order, feeds key⟩
    else none

mutual

/-- The operation of a field or element inside some records. -/
def Descriptor.operation (chain : List Enclosure) : Descriptor → Operation
  | ⟨kind, byteOrder, _, _⟩ => kind.operation chain byteOrder

/-- The operation of something of a kind inside some records. -/
def DescriptorKind.operation (chain : List Enclosure) (byteOrder : ByteOrder) :
    DescriptorKind → Operation
  | .scalar kind => .ofScalar kind byteOrder .native
  | .boolean repr => .ofScalar (.integer repr) byteOrder .boolean
  | .enum repr _ => .ofScalar (.integer repr) byteOrder .enum
  | .bits content repr width container =>
    .bits repr width container (byteOrder.reverses container) content.flavor
  | .text encoding size => .text encoding (size.map (.from chain))
  | .list element size =>
    .list (element.operation []) (size.map (.from chain)) element.default?
  | .record name fields =>
    .record ⟨name, FieldPlan.addFeeds
      (Carrier.ofFields fields (feedOf (FieldDescriptor.demandsAll name fields fields)))
      (FieldDescriptor.operations name fields chain fields), FieldDescriptor.skipped fields⟩
  | .custom codec context => .custom codec context

/-- The plans of some fields of a record, without feeds. -/
def FieldDescriptor.operations (typeName : String) (fields : List FieldDescriptor)
    (chain : List Enclosure) : List FieldDescriptor → List FieldPlan
  | [] => []
  | ⟨name, order, descriptor, serialize, lengthOf, padAfter⟩ :: rest =>
    if serialize then
      ⟨name, descriptor.operation (⟨typeName, fields,
        ⟨name, order, descriptor, serialize, lengthOf, padAfter⟩⟩ :: chain), lengthOf, none,
        padAfter⟩ :: FieldDescriptor.operations typeName fields chain rest
    else
      FieldDescriptor.operations typeName fields chain rest

end

namespace FieldDescriptor

variable {typeName : String} {fields rest : List FieldDescriptor} {field : FieldDescriptor}
  {chain : List Enclosure}

theorem demandsAll_cons : demandsAll typeName fields (field :: rest) =
    (if field.serialize then
      field.descriptor.demands.map (Demand.within ⟨typeName, fields, field⟩)
    else []) ++ demandsAll typeName fields rest := by
  cases field
  rfl

theorem operations_cons : operations typeName fields chain (field :: rest) =
    if field.serialize then
      ⟨field.name, field.descriptor.operation (⟨typeName, fields, field⟩ :: chain), field.lengthOf,
        none, field.padAfter⟩ :: operations typeName fields chain rest
    else
      operations typeName fields chain rest := by
  cases field
  rfl

end FieldDescriptor

end WireFormat
