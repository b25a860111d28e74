import WireFormat.Proofs.Format.RoundTrip
import WireFormat.Proofs.Stream.Delimited

/-!
# Truncated input

The operation of a descriptor without codecs delimits its own input, since each of its steps does.
So a value is read from its own bytes whatever comes after them, and too few of them are always
reported as the end of the stream.

* `Descriptor.selfDelimits` — whatever the lengths are that have been read before;
* `Schema.deserialize_taken` — the bytes that a value has been read from.
-/

namespace WireFormat

open Reader

/-! ## Texts and lists -/

theorem TextSize.selfDelimiting_decodeTextBytes (traversal : Traversal Members)
    (encoding : Encoding) (size : TextSize LengthSource) :
    SelfDelimiting (Operation.decodeTextBytes traversal encoding size) := by
  cases size with
  | nullTerminated => exact selfDelimiting_readUntilNul
  | sized policy =>
    cases policy with
    | fixed slots => exact (selfDelimiting_readBytes slots).bind fun _ ↦ .pure _
    | keyed source | padded source slots =>
      refine (SelfDelimiting.ofData _).bind fun extent ↦ ?_
      refine (selfDelimiting_readBytes extent.1).bind fun _ ↦ ?_
      exact (selfDelimiting_skip _).bind fun _ ↦ .pure _

/-- Items that are dropped are read like those that are kept. -/
theorem Operation.selfDelimiting_decodeItems {action : Nat → ReadM Value}
    (haction : ∀ position, SelfDelimiting (action position)) (kept position : Nat)
    (items : List Value) (count : Nat) :
    SelfDelimiting (decodeItems action kept position items count) := by
  induction count generalizing position items with
  | zero => exact .pure _
  | succ count ih => exact (haction position).bind fun _ ↦ ih _ _

/-! ## Descriptors -/

/-- The operation of a descriptor delimits its input. -/
def Descriptor.SelfDelimits (descriptor : Descriptor) : Prop :=
  ∀ (chain : List Enclosure) (traversal : Traversal Members),
    SelfDelimiting ((descriptor.operation chain).decode traversal)

/-- Fields delimit the input of each. -/
theorem FieldDescriptor.selfDelimiting_decodeAll {name : String}
    {fields rest : List FieldDescriptor} {chain : List Enclosure}
    (hfields : ∀ field ∈ rest, field.serialize → field.descriptor.SelfDelimits)
    (traversal : Traversal Members) :
    SelfDelimiting (FieldPlan.decodeAll traversal
      ((rest.filter FieldDescriptor.serialize).map (plan name fields chain))) := by
  induction rest generalizing traversal with
  | nil => exact .pure _
  | cons field rest ih =>
    obtain ⟨hfield, hrest⟩ := List.forall_mem_cons.1 hfields
    cases hserialize : field.serialize with
    | false =>
      rw [List.filter_cons_of_neg (by simp [hserialize])]
      exact ih hrest traversal
    | true =>
      rw [List.filter_cons_of_pos hserialize, List.map_cons, plan, FieldPlan.decodeAll]
      refine (((hfield hserialize _ _).bind fun _ ↦ .ofData _).locate _).bind fun after ↦ ?_
      dsimp only
      split
      · exact selfDelimiting_resetBits.bind fun _ ↦ ih hrest after
      · exact ih hrest after

namespace Descriptor

variable {byteOrder : ByteOrder} {hasFixedSize : Bool} {minSize : UInt64}

theorem selfDelimits_scalar {kind : DescriptorKind} {repr : ScalarKind} {flavor : Flavor}
    (hoperation : ∀ chain, operation chain ⟨kind, byteOrder, hasFixedSize, minSize⟩ =
      .ofScalar repr byteOrder flavor) :
    SelfDelimits ⟨kind, byteOrder, hasFixedSize, minSize⟩ := by
  intro chain traversal
  rw [hoperation]
  exact (selfDelimiting_readRaw _ _).bind fun _ ↦ .ofData _

theorem selfDelimits_record {name : String} {fields : List FieldDescriptor}
    (hnames : (fields.map FieldDescriptor.name).Nodup)
    (hfields : ∀ field ∈ fields, field.serialize → field.descriptor.SelfDelimits) :
    SelfDelimits ⟨.record name fields, byteOrder, hasFixedSize, minSize⟩ := by
  intro chain traversal
  rw [operation_record hnames]
  refine SelfDelimiting.bind ?_ fun _ ↦ .pure _
  refine selfDelimiting_resetBits.bind fun _ ↦ ?_
  refine (FieldDescriptor.selfDelimiting_decodeAll hfields _).bind fun _ ↦ ?_
  exact selfDelimiting_resetBits.bind fun _ ↦ .pure _

/-- Every operation without codecs delimits its input. -/
theorem selfDelimits {descriptor : Descriptor} (hcoherent : descriptor.Everywhere Coherent)
    (hcodec : descriptor.Everywhere fun inner ↦ inner.isCodec = false) :
    descriptor.SelfDelimits := by
  induction descriptor using Descriptor.induction with
  | step descriptor ihelement ihfields =>
    obtain ⟨kind, byteOrder, hasFixedSize, minSize⟩ := descriptor
    cases kind with
    | scalar kind => exact selfDelimits_scalar fun _ ↦ rfl
    | boolean repr => exact selfDelimits_scalar fun _ ↦ rfl
    | enum repr type => exact selfDelimits_scalar fun _ ↦ rfl
    | bits content repr width container =>
      intro chain traversal
      change SelfDelimiting (Operation.decode traversal (.bits ..))
      rw [Operation.decode]
      split
      · exact selfDelimiting_resetBits.bind fun _ ↦ .pure _
      · next hwidth => exact (selfDelimiting_unpack hwidth _ _).bind fun _ ↦ .ofData _
    | text encoding size =>
      intro chain traversal
      refine (size.map _).selfDelimiting_decodeTextBytes traversal encoding |>.bind fun _ ↦ ?_
      exact (SelfDelimiting.ofData _).bind fun _ ↦ .pure _
    | list element size =>
      intro chain traversal
      refine (SelfDelimiting.ofData _).bind fun extent ↦ ?_
      refine SelfDelimiting.bind ?_ fun _ ↦ .pure _
      refine Operation.selfDelimiting_decodeItems (fun position ↦ ?_) _ _ _ _
      exact (ihelement element rfl (hcoherent.of_element rfl) (hcodec.of_element rfl) []
        _).locate _
    | record name fields =>
      exact selfDelimits_record hcoherent.here.1.names fun field hmem _ ↦ ihfields field hmem
        (hcoherent.of_field hmem) (hcodec.of_field hmem)
    | custom codec context => cases hcodec.here

end Descriptor

/-! ## Schemas -/

namespace Schema

variable {layout : Layout} {schema : Schema} {value : Value} {data rest : List UInt8}

/-- What is read is read by the operation of the root. -/
theorem deserialize_eq (hroot : schema.descriptor.operation [] = .record schema.plan.root)
    (bytes : List UInt8) : schema.deserialize bytes =
      match (schema.descriptor.operation []).decode {} { source := bytes } with
      | .ok value reader => (.ok value, reader.source)
      | .error error reader => (.error error, reader.source) := by
  rw [hroot, deserialize]
  cases hrun : schema.plan.root.decode {} { source := bytes } with
  | ok members reader =>
    have hvalue : (Operation.record schema.plan.root).decode {} { source := bytes } =
        .ok (.record members) reader := by
      rw [Operation.decode]
      exact run_bind_eq_ok_iff.2 ⟨members, reader, hrun, rfl⟩
    rw [hvalue]
  | error error reader =>
    have herror : (Operation.record schema.plan.root).decode {} { source := bytes } =
        .error error reader := by
      rw [Operation.decode]
      exact run_bind_eq_error_iff.2 (.inl hrun)
    rw [herror]

/-- A value is read from the bytes that it takes, whatever comes after them, and from nothing that
ends before the last of them: then the stream is at its end, with all bytes read. -/
theorem deserialize_taken (h : ofLayout layout = .ok schema) (hcodec : ¬ layout.UsesCodec)
    (hread : schema.deserialize data = (.ok value, rest)) :
    ∃ taken, data = taken ++ rest ∧
      (∀ more, schema.deserialize (taken ++ more) = (.ok value, more)) ∧
      ∀ count < taken.length, ∃ error,
        schema.deserialize (taken.take count) = (.error error, []) ∧ error.isEndOfStream := by
  obtain ⟨hdescribe, hplan⟩ := ofLayout_eq_ok h
  obtain ⟨-, hroot, -, -⟩ := Plan.ofDescriptor_eq_ok_iff.1 hplan
  have hself := Descriptor.selfDelimits (Layout.describe_coherent hdescribe)
    (Layout.everywhere_isCodec_eq_false hdescribe hcodec)
  obtain ⟨reader, hdecode, rfl⟩ := exists_decode_of_deserialize hroot hread
  obtain ⟨taken, hsource, hmore, hless⟩ := hself [] {} _ _ _ hdecode
  refine ⟨taken, hsource, fun more ↦ ?_, fun count hcount ↦ ?_⟩
  · rw [deserialize_eq hroot]
    have hrun : (schema.descriptor.operation []).decode {} { source := taken ++ more } =
        .ok value { reader with source := more } := hmore more
    rw [hrun]
  · obtain ⟨error, last, herror, hend, hlast⟩ := hless count hcount
    refine ⟨error, ?_, hend⟩
    rw [deserialize_eq hroot]
    have hrun : (schema.descriptor.operation []).decode {} { source := taken.take count } =
        .error error last := herror
    rw [hrun, ← hlast]

/-- A count of two and two bytes are read as such, and reading goes no further; one byte after the
count is too few. -/
theorem counted_deserialize_taken :
    counted.deserialize [2, 3, 5, 7] = (.ok (.counted 2), [7]) ∧
      counted.deserialize ([2, 3, 5] ++ [11, 13]) = (.ok (.counted 2), [11, 13]) ∧
      ∃ error, counted.deserialize [2, 3] = (.error error, []) ∧ error.isEndOfStream := by
  have hread : counted.deserialize [2, 3, 5, 7] = (.ok (.counted 2), [7]) := rfl
  obtain ⟨taken, htaken, hmore, hless⟩ :=
    deserialize_taken ofLayout_counted Layout.not_usesCodec_counted hread
  obtain rfl : [2, 3, 5] = taken := List.append_cancel_right htaken
  exact ⟨hread, hmore [11, 13], hless 2 (by decide)⟩

end Schema

end WireFormat
