import Mathlib.Logic.ExistsUnique
import WireFormat.Plan.Basic
import WireFormat.Proofs.Descriptor.Places

/-!
# The rules of length keys

A length key of a list or text is to be found in the records around it, but not outside the element
of the innermost list around it.

* `Descriptor.Serves` — a field carries the length of a list or text;
* `Descriptor.LengthsMatch` — the rules for the fields that carry lengths and for the lists and
  texts that take them;
* `Plan.MatchesLengths` — a plan in which the two know of each other as the rules have it.
-/

namespace WireFormat

namespace Descriptor

/-- A field, of the record at the end of the way `before`, carries the length of the list or text at
the end of a longer way. -/
inductive Serves (top : Descriptor) (before : List FieldDescriptor) (carrier : FieldDescriptor) :
    List FieldDescriptor → Prop where
  | intro {member : FieldDescriptor} {after : List FieldDescriptor} {record consumer : Descriptor}
      {key : String} (here : top.Reaches before record) (mem : carrier ∈ record.fields)
      (serialize : carrier.serialize) (lengthOf : carrier.lengthOf = some key)
      (there : top.Reaches (before ++ member :: after) consumer)
      (lengthKey : consumer.lengthKey? = some key) :
      Serves top before carrier (before ++ member :: after)

/-- Lengths and what takes them match. -/
structure LengthsMatch (descriptor : Descriptor) : Prop where
  /-- The length of every list or text with a key is carried by exactly one field. -/
  one_carrier : ∀ address top, descriptor.Starts address top →
    ∀ path consumer, top.Reaches path consumer → consumer.lengthKey?.isSome →
      ∃! place : List FieldDescriptor × FieldDescriptor, top.Serves place.1 place.2 path
  /-- That field comes before the one through which the list or text is reached. -/
  carrier_first : ∀ address top, descriptor.Starts address top →
    ∀ before carrier member after, top.Serves before carrier (before ++ member :: after) →
      carrier.order < member.order
  /-- No field carries two lengths. -/
  one_consumer : ∀ address top, descriptor.Starts address top →
    ∀ before carrier path path', top.Serves before carrier path →
      top.Serves before carrier path' → path = path'
  /-- Every field on the wire that is to carry a length does. -/
  some_consumer : ∀ address top, descriptor.Starts address top →
    ∀ before record, top.Reaches before record → ∀ carrier ∈ record.fields, carrier.serialize →
      carrier.lengthOf.isSome → ∃ path, top.Serves before carrier path

end Descriptor

/-! ## Plans -/

namespace Operation

/-- What is reached through the fields of some names, each in the record before it. -/
def follow? : List String → Operation → Option Operation
  | [], operation => some operation
  | name :: path, record plan =>
    (plan.fields.find? fun field ↦ field.name == name).bind fun field ↦ follow? path field.operation
  | _ :: _, _ => none

/-- The elements of a list. -/
def element? : Operation → Option Operation
  | list element _ _ => some element
  | _ => none

/-- The elements of the list that is reached through an address. -/
def enter? : List (List String) → Operation → Option Operation
  | [], operation => some operation
  | path :: address, operation =>
    (operation.follow? path).bind fun list ↦ list.element?.bind (enter? address)

/-- What a list or text measures, and where its length is read, if it has a key. -/
def taken? : Operation → Option (Measure × LengthSource)
  | text encoding (.sized policy) => policy.key?.map fun source ↦ (.bytes encoding, source)
  | list _ policy _ => policy.key?.map fun source ↦ (.elements, source)
  | _ => none

end Operation

/-- The names of the fields of a way. -/
def FieldDescriptor.names (path : List FieldDescriptor) : List String :=
  path.map FieldDescriptor.name

/-- The plan has every field that carries a length lead to the list or text that takes it, and back,
and it has no other field measure anything. -/
structure Plan.MatchesLengths (plan : Plan) (descriptor : Descriptor) : Prop where
  /-- What begins in the descriptor begins in the plan. -/
  starts : ∀ address top, descriptor.Starts address top → ∃ start,
    (Operation.record plan.root).enter? (address.map FieldDescriptor.names) = some start
  /-- The feed of a field leads to what takes its length, and from there it is as many records up to
  the field as there are further fields on the way. -/
  feeds : ∀ address top start, descriptor.Starts address top →
    (Operation.record plan.root).enter? (address.map FieldDescriptor.names) = some start →
    ∀ before carrier member after, top.Serves before carrier (before ++ member :: after) →
      ∃ record field feed consumer key,
        start.follow? (FieldDescriptor.names before) = some (.record record) ∧
        record.fields.find? (fun field ↦ field.name == carrier.name) = some field ∧
        field.lengthOf = some key ∧ field.feed = some feed ∧
        feed.path = FieldDescriptor.names (member :: after) ∧
        (Operation.record record).follow? feed.path = some consumer ∧
        consumer.taken? = some (feed.measure, ⟨key, after.length⟩)
  /-- A field that carries no length measures nothing. -/
  plain : ∀ address top start, descriptor.Starts address top →
    (Operation.record plan.root).enter? (address.map FieldDescriptor.names) = some start →
    ∀ before middle, top.Reaches before middle →
      ∀ record, start.follow? (FieldDescriptor.names before) = some (.record record) →
        ∀ field ∈ record.fields, field.lengthOf = none → field.feed = none

end WireFormat
