import WireFormat.Descriptor.Basic
import WireFormat.Plan.Flavor

/-!
# Plans

A plan is what is left of a descriptor when everything has been decided: one `Operation` per field
on the wire, with byte orders reduced to whether bytes are swapped and length keys matched with each
other.  A length key leaves two halves:

* the field that carries the length gets a `LengthFeed`, which says what to measure on writing;
* the list or text that takes it gets a `LengthSource`, which says where it was read.
-/

namespace WireFormat

/-- What a length counts. -/
inductive Measure where
  /-- The elements of a list. -/
  | elements
  /-- The bytes of a text in its encoding. -/
  | bytes (encoding : Encoding)
deriving DecidableEq, Repr

/-- What a field that carries a length measures. -/
structure LengthFeed where
  /-- The members from the record of the field down to the list or text. -/
  path : List String
  measure : Measure
deriving DecidableEq, Repr

/-- Where the length of a list or text has been read. -/
structure LengthSource where
  key : String
  /-- The number of records around the list or text that are inside the one with the length. -/
  up : Nat
deriving DecidableEq, Repr

/-- What a bit field stands for. -/
def BitContent.flavor : BitContent → Flavor
  | integer => .native
  | boolean => .boolean
  | enum _ => .enum

mutual

/-- What is done to write or read something. -/
inductive Operation where
  | scalar (repr : ScalarKind) (swap : Bool) (flavor : Flavor)
  /-- Some bits of a container of `container` bytes; no bits end the container. -/
  | bits (repr : IntegerKind) (width : Nat) (container : Nat) (swap : Bool) (flavor : Flavor)
  | text (encoding : Encoding) (size : TextSize LengthSource)
  /-- The elements of a list, with the value for free slots. -/
  | list (element : Operation) (size : SizePolicy LengthSource) (default? : Option Value)
  | record (plan : RecordPlan)
  | custom (codec : Codec) (context : Option String)

/-- A field on the wire. -/
structure FieldPlan where
  name : String
  operation : Operation
  /-- The key of the length that the field carries. -/
  lengthOf : Option String
  /-- What to measure for the value of the field. -/
  feed : Option LengthFeed
  /-- Whether the container ends after the field. -/
  padAfter : Bool

/-- The fields of a record. -/
structure RecordPlan where
  name : String
  /-- The fields on the wire, in order. -/
  fields : List FieldPlan
  /-- The fields that are not on the wire, with the values that they are read as. -/
  skipped : List (String × Value)

end

/-- How a record type is written and read. -/
structure Plan where
  root : RecordPlan
  /-- Whether all values take the same number of bytes. -/
  hasFixedSize : Bool
  /-- The number of bytes that every value takes at least, as a machine word. -/
  minSize : UInt64

end WireFormat
