import WireFormat.Proofs.Format.RoundTrip
import WireFormat.Proofs.Size.Decode
import WireFormat.Proofs.Size.Promise

/-!
# The least size of a schema

A schema promises a least size, which `Schema.ofBytes` relies on when it turns down short input.
The promise is made as if every field ended the container at hand, but an empty list does not end
it: two bit fields around it share a container, which has been counted twice.

* `Schema.minSize_le_of_uninterrupted` — no more is promised than every value takes where no such
  list comes between two bit fields;
* `Schema.boundsSizes_iff` — the promise is kept exactly if no more is promised than every value
  takes;
* `Schema.interrupted` — a schema that does not keep it.
-/

namespace WireFormat

namespace Schema

/-- The least size of a schema is one: no value is written in less, no value is read from less, and
no bytes are turned down from which a value can be read. -/
structure BoundsSizes (schema : Schema) : Prop where
  written : ∀ value sink count sink', schema.serialize value sink = (.ok count, sink') →
    ∃ bytes, sink'.bytes.toList = sink.bytes.toList ++ bytes ∧ count = bytes.length ∧
      schema.minSize ≤ bytes.length
  read : ∀ bytes value rest, schema.deserialize bytes = (.ok value, rest) →
    ∃ taken, bytes = taken ++ rest ∧ schema.minSize ≤ taken.length
  ofBytes : ∀ bytes value,
    schema.ofBytes bytes = .ok value ↔ (schema.deserialize bytes).1 = .ok value

variable {layout : Layout} {schema : Schema} {value : Value} {bytes rest : List UInt8}

/-- Some zeros can be read, be they enough or more. -/
def ReadsZeros (schema : Schema) : Prop :=
  ∃ count value rest, schema.deserialize (List.replicate count 0) = (.ok value, rest)

/-- A value is read from no fewer bytes than its descriptor takes, and from zeros from as many. -/
theorem exists_taken_of_deserialize (hread : schema.descriptor.IsRead)
    (hroot : schema.descriptor.operation [] = .record schema.plan.root)
    (h : schema.deserialize bytes = (.ok value, rest)) :
    ∃ taken, bytes = taken ++ rest ∧ schema.descriptor.leastSize ≤ taken.length ∧
      ((∃ count, bytes = List.replicate count 0) → taken.length = schema.descriptor.leastSize) := by
  obtain ⟨reader, hoperation, rfl⟩ := exists_decode_of_deserialize hroot h
  obtain ⟨⟨rooms, hpasses, hleast, hexact⟩, -⟩ := hread [] {} _ _ _ hoperation
  have hidle : ∀ {P : Container → Prop}, ∀ container ∈ (none : Option Container), P container := by
    rintro _ _ ⟨⟩
  obtain ⟨taken, hbytes, hrooms⟩ := hpasses.taken hidle
  have hlength := hrooms []
  rw [List.append_nil, occupied_nil, Nat.add_zero] at hlength
  change occupied none rooms = _ at hlength
  refine ⟨taken, hbytes, ?_, fun hzeros ↦ ?_⟩
  · rw [← hlength]
    exact occupied_le_of_sublist hleast none
  · rw [← hlength, hexact ⟨hzeros, hidle⟩ (List.forall_mem_nil _)]
    rfl

/-- A schema keeps its promise if it promises no more than every value takes. -/
theorem boundsSizes_of_minSize_le (h : ofLayout layout = .ok schema) (hcodec : ¬ layout.UsesCodec)
    (hle : schema.minSize ≤ schema.descriptor.leastSize) : schema.BoundsSizes := by
  obtain ⟨hdescribe, hplan⟩ := ofLayout_eq_ok h
  obtain ⟨⟨hsettled, -⟩, hroot, -, -⟩ := Plan.ofDescriptor_eq_ok_iff.1 hplan
  have hcoherent := Layout.describe_coherent hdescribe
  have hfree := Layout.everywhere_isCodec_eq_false hdescribe hcodec
  have hread := Descriptor.isRead hcoherent hfree
  refine ⟨fun value sink count sink' hserialize ↦ ?_, fun bytes value rest hdeserialize ↦ ?_,
    fun bytes value ↦ ?_⟩
  · obtain ⟨moves, word, bytes, hwrites, hemits, hbytes, hcount⟩ := exists_emits_of_serialize
      (Descriptor.isWritten hcoherent hfree hsettled) hroot hserialize
    refine ⟨bytes, hbytes, hcount, Nat.le_trans hle ?_⟩
    rw [hemits.length_eq, List.flatMap_append]
    exact occupied_le_of_sublist
      ((Descriptor.leastRooms_sublist hwrites).trans (List.sublist_append_left ..)) none
  · obtain ⟨taken, hbytes, hleast, -⟩ := exists_taken_of_deserialize hread hroot hdeserialize
    exact ⟨taken, hbytes, Nat.le_trans hle hleast⟩
  · rw [Schema.ofBytes]
    split
    · next hshort =>
      -- So few bytes are turned down, but no value could have been read from them either.
      refine ⟨nofun, fun hvalue ↦ ?_⟩
      obtain ⟨taken, hbytes, hleast, -⟩ := exists_taken_of_deserialize hread hroot
        (Prod.ext hvalue rfl : schema.deserialize bytes = (.ok value, _))
      have hlength := congrArg List.length hbytes
      rw [List.length_append] at hlength
      omega
    · exact Iff.rfl

/-- A schema promises no more than every value takes where no list that may be empty comes between
two bit fields. -/
theorem minSize_le_of_uninterrupted (h : ofLayout layout = .ok schema)
    (hcodec : ¬ layout.UsesCodec)
    (hfields : schema.descriptor.Everywhere fun inner ↦
      FieldDescriptor.Uninterrupted inner.fields) :
    schema.minSize ≤ schema.descriptor.leastSize := by
  obtain ⟨hdescribe, hplan⟩ := ofLayout_eq_ok h
  obtain ⟨-, -, -, hminSize⟩ := Plan.ofDescriptor_eq_ok_iff.1 hplan
  rw [minSize, hminSize]
  exact Descriptor.minSize_le_leastSize (Layout.describe_coherent hdescribe)
    (Layout.everywhere_isCodec_eq_false hdescribe hcodec) hfields

/-- A schema promises no more than every value takes if it keeps its promise for zeros. -/
theorem BoundsSizes.minSize_le (hkept : schema.BoundsSizes) (h : ofLayout layout = .ok schema)
    (hcodec : ¬ layout.UsesCodec) (hzeros : schema.ReadsZeros) :
    schema.minSize ≤ schema.descriptor.leastSize := by
  obtain ⟨hdescribe, hplan⟩ := ofLayout_eq_ok h
  obtain ⟨-, hroot, -, -⟩ := Plan.ofDescriptor_eq_ok_iff.1 hplan
  have hread := Descriptor.isRead (Layout.describe_coherent hdescribe)
    (Layout.everywhere_isCodec_eq_false hdescribe hcodec)
  obtain ⟨count, value, rest, hzeros⟩ := hzeros
  obtain ⟨taken, hbytes, -, hexact⟩ := exists_taken_of_deserialize hread hroot hzeros
  obtain ⟨taken', hbytes', hle⟩ := hkept.read _ _ _ hzeros
  obtain rfl := List.append_cancel_right (hbytes.symm.trans hbytes')
  rwa [hexact ⟨count, rfl⟩] at hle

/-- A schema keeps its promise if it promises no more than every value takes.  If zeros can be read,
they are read from just that, and the converse holds too.  No more is promised where no list that
may be empty comes between two bit fields. -/
theorem boundsSizes_iff (h : ofLayout layout = .ok schema) (hcodec : ¬ layout.UsesCodec) :
    (schema.minSize ≤ schema.descriptor.leastSize → schema.BoundsSizes) ∧
      (schema.ReadsZeros →
        (schema.BoundsSizes ↔ schema.minSize ≤ schema.descriptor.leastSize)) ∧
      ((schema.descriptor.Everywhere fun inner ↦ FieldDescriptor.Uninterrupted inner.fields) →
        schema.minSize ≤ schema.descriptor.leastSize) :=
  have hbounds := boundsSizes_of_minSize_le h hcodec
  ⟨hbounds, fun hzeros ↦ ⟨fun hkept ↦ hkept.minSize_le h hcodec hzeros, hbounds⟩,
    minSize_le_of_uninterrupted h hcodec⟩

end Schema

/-- Two halves of a byte, and a list between them. -/
def Layout.interrupted : Layout where
  name := "Interrupted"
  fields := [
    { name := "count", order := some 0, shape := .scalar (.integer .u8), lengthOf := some "items" },
    { name := "low", order := some 1, shape := .scalar (.integer .u8), bitWidth := some 4 },
    { name := "items", order := some 2, shape := .list ⟨.scalar (.integer .u8), none⟩
      tag := some (.list { lengthKey := some "items" }) },
    { name := "high", order := some 3, shape := .scalar (.integer .u8), bitWidth := some 4 }]

/-- The descriptor of two halves of a byte, and a list between them. -/
def Descriptor.interrupted : Descriptor where
  kind := .record "Interrupted" [
    ⟨"count", 0, .ofFixed (.scalar (.integer .u8)) .little 1, true, some "items", false⟩,
    ⟨"low", 1, ⟨.bits .integer .u8 4 1, .little, true, 0⟩, true, none, false⟩,
    ⟨"items", 2, ⟨.list (.ofFixed (.scalar (.integer .u8)) .little 1) (.keyed "items"), .little,
      false, 0⟩, true, none, false⟩,
    ⟨"high", 3, ⟨.bits .integer .u8 4 1, .little, true, 0⟩, true, none, false⟩]
  byteOrder := .little
  hasFixedSize := false
  minSize := 3

theorem Layout.describe_interrupted : Layout.interrupted.describe = .ok Descriptor.interrupted := by
  cbv

theorem Layout.not_usesCodec_interrupted : ¬ interrupted.UsesCodec := by decide

/-- The schema of two halves of a byte, and a list between them. -/
def Schema.interrupted : Schema where
  name := "Interrupted"
  descriptor := .interrupted
  plan := {
    root := {
      name := "Interrupted"
      fields := [
        ⟨"count", .scalar (.integer .u8) false .native, some "items", some ⟨["items"], .elements⟩,
          false⟩,
        ⟨"low", .bits .u8 4 1 false .native, none, none, false⟩,
        ⟨"items", .list (.scalar (.integer .u8) false .native) (.keyed ⟨"items", 0⟩)
          (some (.zero (.integer .u8))), none, none, false⟩,
        ⟨"high", .bits .u8 4 1 false .native, none, none, false⟩]
      skipped := [] }
    hasFixedSize := false
    minSize := 3 }

theorem Schema.ofLayout_interrupted : ofLayout .interrupted = .ok .interrupted := by
  rw [ofLayout, Layout.describe_interrupted]
  rfl

/-- Around a list, three bytes are promised, but two will do. -/
theorem Schema.not_boundsSizes_interrupted : ¬ Schema.interrupted.BoundsSizes ∧
    Schema.counted.BoundsSizes := by
  constructor
  · intro hkept
    have hle := ((boundsSizes_iff ofLayout_interrupted Layout.not_usesCodec_interrupted).2.1
      ⟨2, _, _, rfl⟩).1 hkept
    exact absurd hle (by decide)
  · exact (boundsSizes_iff ofLayout_counted Layout.not_usesCodec_counted).1 (by decide)

/-- Two halves of a byte, and an empty list between them. -/
def Value.interrupted : Value :=
  .record [("count", .integer .u8 0), ("high", .integer .u8 2), ("items", .list []),
    ("low", .integer .u8 1)]

/-- Around an empty list the halves share a byte.  They are written and read, but the bytes are
turned down. -/
theorem Schema.interrupted_ofBytes :
    Schema.interrupted.serialize .interrupted {} = (.ok 2, ⟨#[0, 33], none⟩) ∧
      Schema.interrupted.deserialize [0, 33] = (.ok .interrupted, []) ∧
      Schema.interrupted.ofBytes [0, 33] = .error (.data (.bufferTooShort 3 2)) :=
  ⟨rfl, rfl, rfl⟩

end WireFormat
