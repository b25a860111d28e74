import WireFormat.Layout

/-!
# Descriptors

A descriptor is a layout that has been found to make sense: every field has one way to be written,
fields are in the order of the wire, byte orders are inherited, and the sizes that are known without
a value are there.

* `SizePolicy` and `TextSize` — what decides about the size of a list or a text;
* `Descriptor`, `FieldDescriptor` — the tree itself;
* `Descriptor.default?` — the value that stands for a field that is not on the wire, and that fills
  the free slots of a list.
-/

namespace WireFormat

/-- What decides about the number of elements of a list or of bytes of a text, with `κ` for what a
length is found by. -/
inductive SizePolicy (κ : Type) where
  /-- Always the same number of slots. -/
  | fixed (slots : Nat)
  /-- As many as a length field says. -/
  | keyed (key : κ)
  /-- As many as a length field says, in always the same number of slots. -/
  | padded (key : κ) (slots : Nat)
deriving DecidableEq, Repr

namespace SizePolicy

variable {κ : Type}

/-- What the length is found by, if there is one. -/
def key? : SizePolicy κ → Option κ
  | fixed _ => none
  | keyed key | padded key _ => some key

/-- The number of slots, if it is always the same. -/
def slots? : SizePolicy κ → Option Nat
  | keyed _ => none
  | fixed slots | padded _ slots => some slots

end SizePolicy

/-- What decides about the end of a text. -/
inductive TextSize (κ : Type) where
  /-- A zero byte after the text. -/
  | nullTerminated
  /-- A number of bytes. -/
  | sized (policy : SizePolicy κ)
deriving DecidableEq, Repr

/-- The size policy of a text that does not end with a zero byte. -/
def TextSize.policy? {κ : Type} : TextSize κ → Option (SizePolicy κ)
  | nullTerminated => none
  | sized policy => some policy

/-- What a bit field holds. -/
inductive BitContent where
  | integer
  | boolean
  | enum (type : EnumType)
deriving DecidableEq, Repr

mutual

/-- How a field, an element or a record is written. -/
structure Descriptor where
  kind : DescriptorKind
  byteOrder : ByteOrder
  /-- Whether all values take the same number of bytes. -/
  hasFixedSize : Bool
  /-- The number of bytes that every value takes at least, as a machine word.  A bit field counts as
  none, since its container is counted with the record. -/
  minSize : UInt64

/-- The ways to be written. -/
inductive DescriptorKind where
  | scalar (kind : ScalarKind)
  /-- A boolean as an integer. -/
  | boolean (repr : IntegerKind)
  /-- A member of an enum as an integer. -/
  | enum (repr : IntegerKind) (type : EnumType)
  /-- Some bits of a container of `container` bytes; no bits end the container. -/
  | bits (content : BitContent) (repr : IntegerKind) (width : Nat) (container : Nat)
  | text (encoding : Encoding) (size : TextSize String)
  | list (element : Descriptor) (size : SizePolicy String)
  | record (name : String) (fields : List FieldDescriptor)
  | custom (codec : Codec) (context : Option String)

/-- A field of a record. -/
structure FieldDescriptor where
  name : String
  order : Nat
  descriptor : Descriptor
  /-- Whether the field is on the wire. -/
  serialize : Bool
  /-- The key of the length that the field carries. -/
  lengthOf : Option String
  /-- Whether the container ends after the field. -/
  padAfter : Bool

end

namespace DescriptorKind

/-- The size policy of a list or of a text that has one. -/
def policy? : DescriptorKind → Option (SizePolicy String)
  | text _ size => size.policy?
  | list _ size => some size
  | _ => none

/-- Whether a field of this kind can carry a length: it has to be an integer. -/
def carriesLength : DescriptorKind → Bool
  | scalar kind => kind.isIntegral
  | bits .integer _ _ _ => true
  | _ => false

end DescriptorKind

namespace Descriptor

/-- A descriptor of something that always takes `size` bytes. -/
def ofFixed (kind : DescriptorKind) (byteOrder : ByteOrder) (size : Nat) : Descriptor :=
  ⟨kind, byteOrder, true, .ofNat size⟩

/-- Whether this is a bit field. -/
def isBitfield (descriptor : Descriptor) : Bool :=
  match descriptor.kind with
  | .bits _ _ _ _ => true
  | _ => false

/-- The key of the length that a list or text takes. -/
def lengthKey? (descriptor : Descriptor) : Option String :=
  descriptor.kind.policy?.bind SizePolicy.key?

/-- The number of slots of a list or text that always has the same. -/
def fixedLength? (descriptor : Descriptor) : Option Nat :=
  descriptor.kind.policy?.bind SizePolicy.slots?

/-- The number of bits of a bit field. -/
def bitWidth? (descriptor : Descriptor) : Option Nat :=
  match descriptor.kind with
  | .bits _ _ width _ => some width
  | _ => none

/-- The encoding of a text. -/
def encoding? (descriptor : Descriptor) : Option Encoding :=
  match descriptor.kind with
  | .text encoding _ => some encoding
  | _ => none

/-- The elements of a list. -/
def element? (descriptor : Descriptor) : Option Descriptor :=
  match descriptor.kind with
  | .list element _ => some element
  | _ => none

/-- The fields of a record, none for anything else. -/
def fields (descriptor : Descriptor) : List FieldDescriptor :=
  match descriptor.kind with
  | .record _ fields => fields
  | _ => []

end Descriptor

mutual

/-- The value that stands for something that is not there.  A record has one if all its fields do, a
custom codec if it names one. -/
def Descriptor.default? : Descriptor → Option Value
  | ⟨kind, _, _, _⟩ => kind.default?

/-- The value that stands for something of a kind that is not there. -/
def DescriptorKind.default? : DescriptorKind → Option Value
  | .scalar kind => some (.zero kind)
  | .boolean _ => some (.bool false)
  | .enum _ _ => some (.enum 0)
  | .bits .integer repr _ _ => some (.zero (.integer repr))
  | .bits .boolean _ _ _ => some (.bool false)
  | .bits (.enum _) _ _ _ => some (.enum 0)
  | .text _ _ => some (.text "")
  | .list _ _ => some (.list [])
  | .record _ fields => (FieldDescriptor.defaults? fields).map Value.ofMembers
  | .custom codec _ => codec.default?

/-- The values that stand for the fields of a record, with their names. -/
def FieldDescriptor.defaults? : List FieldDescriptor → Option (List (String × Value))
  | [] => some []
  | ⟨name, _, descriptor, _, _, _⟩ :: rest => do
    let value ← descriptor.default?
    return (name, value) :: (← FieldDescriptor.defaults? rest)

end

end WireFormat
