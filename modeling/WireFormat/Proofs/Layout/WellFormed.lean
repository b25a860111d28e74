import Mathlib.Data.List.SplitBy
import WireFormat.Layout
import WireFormat.Proofs.Size.Rooms

/-!
# Well-formed layouts

What a layout has to satisfy, said of each record type by itself and without regard to the order in
which anything is checked.

* `Shape.fixedSize?` — the number of bytes of what has a fixed size;
* `Shape.Admits` — which tags can describe which shapes;
* `Shape.Overflows` — the lists whose elements are too large for their size to be seen;
* `Field.FitsRunOf` — what a bit field owes to the first field of its run;
* `Site.Reaches` — the record types in a layout, each in its surroundings;
* `Site.WellFormed` — the rules for one of them.
-/

namespace WireFormat

/-! ## Tags and shapes -/

/-- Whether a tag names a codec. -/
def Tag.isCodec : Option Tag → Bool
  | some (.custom _ _) => true
  | _ => false

/-- Whether a list says in an acceptable way how many slots it has: by a number that is not zero, by
a key, or by both. -/
def SizePolicy.Admissible (fixedLength : Option Nat) (lengthKey : Option String) : Prop :=
  (fixedLength.isSome ∨ lengthKey.isSome) ∧ fixedLength ≠ some 0

/-- Whether a text says in an acceptable way where it ends. -/
def TextTag.Admissible (tag : TextTag) : Prop :=
  if tag.nullTerminated then
    tag.fixedLength = none ∧ tag.lengthKey = none ∧ tag.encoding.isNullTerminable
  else
    SizePolicy.Admissible tag.fixedLength tag.lengthKey

/-- The scalar kind that a scalar or an enum is sent as, where the tag suits the shape. -/
def Shape.equivalent? : Option Tag → Shape → Option ScalarKind
  | none, scalar .bool | some .primitive, scalar .bool => some (.integer .i32)
  | some (.boolean equivalent), scalar .bool => some (equivalent.getD (.integer .i32))
  | none, scalar kind | some .primitive, scalar kind => some kind
  | none, enum type | some .primitive, enum type => some type.underlying
  | some (.enum equivalent), enum type => some (equivalent.getD type.underlying)
  | _, _ => none

/-- The integer kind that an integer, a boolean or an enum is sent as. -/
def Shape.integerKind? (tag : Option Tag) (shape : Shape) : Option IntegerKind :=
  (shape.equivalent? tag).bind ScalarKind.integer?

/-- The key of the length that a list or a text itself takes; its elements do not count. -/
def Shape.lengthKey? : Option Tag → Shape → Option String
  | some (.list size), list _ => size.lengthKey
  | some (.text tag), text => if tag.nullTerminated then none else tag.lengthKey
  | _, _ => none

/-! ## Fields of the wire -/

namespace Field

/-- Whether the field is on the wire as some bits of a container. -/
def packs (field : Field) : Bool := field.serialize && field.bitWidth.any (· != 0)

/-- The integer kind that the field is sent as. -/
def integerKind? (field : Field) : Option IntegerKind := field.shape.integerKind? field.tag

/-- The width of the containers of a run that begins with the field. -/
def containerWidth (field : Field) : Nat := (field.integerKind?.map IntegerKind.width).getD 0

/-- The room that runs of bit fields take of the wire, each in containers of its first field;
`first` is the first field of the run that has not ended yet.  Any other field ends the run. -/
def runRooms : Option Field → List Field → List Room
  | _, [] => []
  | first, field :: rest =>
    if field.packs then
      .bits (first.getD field).containerWidth (field.bitWidth.getD 0) ::
        ((if field.padAfter then [.align] else []) ++
          runRooms (if field.padAfter then none else some (first.getD field)) rest)
    else
      .align :: runRooms none rest

end Field

namespace Layout

/-- The fields that have a place on the wire, whether they are sent or not. -/
def ordered (layout : Layout) : List Field := layout.fields.filter fun field ↦ field.order.isSome

/-- The fields that are sent, in the order of the wire. -/
def onWire (layout : Layout) : List Field :=
  (layout.ordered.filter Field.serialize).mergeSort fun first second ↦
    decide (first.order.getD 0 ≤ second.order.getD 0)

end Layout

/-! ## Sizes -/

/-- The number of bytes that a promise leaves no choice about. -/
def SizeContract.exact? : SizeContract → Option Nat
  | exactly size => some size
  | atLeast _ => none

/-- The number of slots, if there is no key to say how many are taken. -/
def SizePolicy.fixedSlots? (fixedLength : Option Nat) (lengthKey : Option String) : Option Nat :=
  if lengthKey.isSome then none else fixedLength

mutual

/-- The number of bytes of a field or element of a fixed size, in which nothing takes a length or
ends with a zero and codecs leave no choice. -/
def Shape.fixedSize? : Option Tag → Shape → Option Nat
  | some (.custom codec _), _ => codec.size.exact?
  | some (.text tag), .text =>
    if tag.nullTerminated then none else SizePolicy.fixedSlots? tag.fixedLength tag.lengthKey
  | some (.list size), .list ⟨shape, tag⟩ => do
    return (← SizePolicy.fixedSlots? size.fixedLength size.lengthKey) * (← shape.fixedSize? tag)
  | none, .record layout | some .record, .record layout => layout.fixedSize?
  | tag, shape => (shape.equivalent? tag).map ScalarKind.width

/-- The number of bytes of a record of a fixed size: those of its fields, and of the containers that
its bit fields take. -/
def Layout.fixedSize? : Layout → Option Nat
  | ⟨name, byteOrder, fields⟩ => do
    return (← Field.fixedSizes? fields) +
      occupied none (Field.runRooms none (Layout.onWire ⟨name, byteOrder, fields⟩))

/-- The number of bytes of the fields that are sent, but for bit fields. -/
def Field.fixedSizes? : List Field → Option Nat
  | [] => some 0
  | ⟨_, order, shape, tag, _, bitWidth, _, _, serialize⟩ :: rest =>
    if order.isSome && serialize && bitWidth.isNone then do
      return (← shape.fixedSize? tag) + (← Field.fixedSizes? rest)
    else
      Field.fixedSizes? rest

end

/-- A list that only a key says the length of, and of elements that take some bytes, but so many
that none are left in a machine word. -/
inductive Shape.Overflows : Option Tag → Shape → Prop where
  | here {size : ListTag} {shape : Shape} {tag : Option Tag} {count : Nat}
      (keyed : size.fixedLength = none) (element : shape.fixedSize? tag = some count)
      (some_bytes : count ≠ 0) (wraps : UInt64.size ∣ count) :
      Overflows (some (.list size)) (.list ⟨shape, tag⟩)
  | element {size : ListTag} {shape : Shape} {tag : Option Tag} (inner : shape.Overflows tag) :
      Overflows (some (.list size)) (.list ⟨shape, tag⟩)

/-! ## Rules for fields -/

/-- Which tags can describe which shapes.  Of a record only the tag is looked at; its fields are a
matter of their own. -/
inductive Shape.Admits : Option Tag → Shape → Prop where
  | codec (codec : Codec) (context : Option String) (shape : Shape) :
      Admits (some (.custom codec context)) shape
  | scalar {tag : Option Tag} {kind : ScalarKind} (other : kind ≠ .bool)
      (plain : tag = none ∨ tag = some .primitive) : Admits tag (.scalar kind)
  | boolean {tag : Option Tag} {repr : IntegerKind}
      (integral : (Shape.scalar .bool).equivalent? tag = some (.integer repr)) :
      Admits tag (.scalar .bool)
  | enum {tag : Option Tag} {type : EnumType} {repr : IntegerKind}
      (integral : (Shape.enum type).equivalent? tag = some (.integer repr))
      (fits : ∀ member ∈ type.members, repr.Fits member.2) : Admits tag (.enum type)
  | text {tag : TextTag} (size : tag.Admissible) : Admits (some (.text tag)) .text
  | list {size : ListTag} {shape : Shape} {tag : Option Tag}
      (policy : SizePolicy.Admissible size.fixedLength size.lengthKey) (element : shape.Admits tag)
      (sized : size.fixedLength = none → shape.fixedSize? tag ≠ some 0) :
      Admits (some (.list size)) (.list ⟨shape, tag⟩)
  | record {tag : Option Tag} {layout : Layout} (plain : tag = none ∨ tag = some .record) :
      Admits tag (.record layout)

/-- The record type that a field or element is, or that the innermost elements of its lists are,
with no codec on the way. -/
inductive Shape.Holds : Option Tag → Shape → Layout → Prop where
  | record {tag : Option Tag} {layout : Layout} (plain : Tag.isCodec tag = false) :
      Holds tag (.record layout) layout
  | element {tag inner : Option Tag} {shape : Shape} {layout : Layout}
      (plain : Tag.isCodec tag = false) (held : shape.Holds inner layout) :
      Holds tag (.list ⟨shape, inner⟩) layout

namespace Field

/-- A bit field fits the containers of its run, which are as wide as the integer kind of the first
field, and agrees with that field about the order of their bytes. -/
def FitsRunOf (byteOrder : ByteOrder) (first field : Field) : Prop :=
  ∀ repr ∈ first.integerKind?, ∀ width ∈ field.bitWidth, width ≤ 8 * repr.width ∧
    (field.byteOrder.getD byteOrder).reverses repr.width =
      (first.byteOrder.getD byteOrder).reverses repr.width

/-- The rules for one field, whatever the others are. -/
structure Admissible (field : Field) : Prop where
  /-- The tag describes the shape. -/
  tag : field.shape.Admits field.tag
  /-- Only what is sent as an integer has a number of bits, and not more than that integer has. -/
  bits : ∀ width ∈ field.bitWidth, ∃ repr ∈ field.integerKind?, width ≤ repr.bits
  /-- Only integers that stand for themselves carry lengths. -/
  length : field.lengthOf.isSome → Tag.isCodec field.tag = false ∧
    ∃ kind : IntegerKind, field.shape = .scalar (.integer kind)

end Field

/-! ## Record types -/

/-- A record type in its surroundings: the names of the record types around it, outermost first,
and the byte order it inherits. -/
structure Site where
  enclosing : List String
  inherited : ByteOrder
  layout : Layout

namespace Site

/-- The byte order of the fields of the record. -/
def byteOrder (site : Site) : ByteOrder := site.layout.byteOrder.getD site.inherited

/-- A record type that a field holds. -/
def inner (site : Site) (field : Field) (layout : Layout) : Site :=
  ⟨site.enclosing ++ [site.layout.name], field.byteOrder.getD site.byteOrder, layout⟩

/-- The record types in a record, itself included, that are reached through ordered fields and list
elements without a codec. -/
inductive Reaches : Site → Site → Prop where
  | here (site : Site) : Reaches site site
  | field {site target : Site} {field : Field} {layout : Layout} (mem : field ∈ site.layout.ordered)
      (held : field.shape.Holds field.tag layout)
      (rest : Reaches (site.inner field layout) target) : Reaches site target

/-- A field of the record holds elements whose size cannot be seen. -/
def Overflows (site : Site) : Prop :=
  ∃ field ∈ site.layout.ordered, field.shape.Overflows field.tag

end Site

namespace Layout

/-- Somewhere in the layout there are elements whose size cannot be seen. -/
def Overflows (layout : Layout) : Prop :=
  ∃ site, Site.Reaches ⟨[], .little, layout⟩ site ∧ site.Overflows

end Layout

end WireFormat
