import WireFormat.Proofs.Codec.Trace
import WireFormat.Proofs.Format.RoundTrip
import WireFormat.Proofs.Size.Promise

/-!
# What the codecs of a schema are charged with

A codec is charged with the bytes of a container that is pending before it.  There are none if the
fields before it have ended the container, as all fields do but bit fields and lists that may be
empty.

* `Descriptor.packer_eq_of_encode` — nothing is pending after what ends the container;
* `Schema.chargesCodec` — what the codecs of a schema are charged with;
* `Schema.charged` — a schema in which a codec is charged with bytes that are not its own.
-/

namespace WireFormat

/-! ## What ends the container -/

section Idle

variable {writer middle next : Writer} {traversal : Traversal Members} {value : Value}

theorem Writer.packer_eq_of_writeBytes {bytes : List UInt8}
    (h : writeBytes bytes writer = .ok () next) : next.packer = {} := by
  obtain ⟨_, middle, hflush, hsend⟩ := run_bind_eq_ok_iff.1 h
  rw [sendAll_eq_ok hsend]
  change middle.packer = {}
  exact packer_eq_of_flushBits hflush

theorem Writer.packer_eq_of_writeZeros {count : Nat}
    (h : writeZeros count writer = .ok () next) : next.packer = {} := by
  rw [writeZeros, sendZeros_eq] at h
  exact packer_eq_of_writeBytes h

theorem TextSize.packer_eq_of_encodeText {encoding : Encoding} {size : TextSize String}
    {f : String → LengthSource}
    (h : Operation.encodeText encoding (size.map f) value writer = .ok () next) :
    next.packer = {} := by
  obtain ⟨text, rfl⟩ : ∃ text, value = .text text := by
    cases value with
    | text text => exact ⟨text, rfl⟩
    | _ => cases h
  rw [Operation.encodeText] at h
  obtain ⟨_, _, _, h⟩ := run_bind_eq_ok_iff.1 h
  obtain ⟨bytes, _, _, h⟩ := run_bind_eq_ok_iff.1 h
  cases size with
  | nullTerminated =>
    dsimp only [TextSize.map] at h
    split at h
    · cases h
    · obtain ⟨_, _, _, hzeros⟩ := run_bind_eq_ok_iff.1 h
      exact Writer.packer_eq_of_writeZeros hzeros
  | sized policy =>
    obtain ⟨slots, _, _, h⟩ := run_bind_eq_ok_iff.1 h
    split at h
    · cases h
    · obtain ⟨_, _, _, hzeros⟩ := run_bind_eq_ok_iff.1 h
      exact Writer.packer_eq_of_writeZeros hzeros

/-- After items each of which ends the container, nothing is pending if there is an item or nothing
was pending before. -/
theorem Operation.packer_eq_of_forItems {action : Nat → Value → WriteM Unit} {items : List Value}
    {position : Nat}
    (haction : ∀ position item writer next, action position item writer = .ok () next →
      next.packer = {})
    (hstart : items ≠ [] ∨ writer.packer = {})
    (h : forItems action position items writer = .ok () next) : next.packer = {} := by
  induction items generalizing position writer with
  | nil =>
    obtain ⟨-, rfl⟩ := run_pure_eq_ok_iff.1 h
    exact hstart.resolve_left fun hne ↦ hne rfl
  | cons item items ih =>
    obtain ⟨_, middle, hitem, hrest⟩ := run_bind_eq_ok_iff.1 h
    exact ih (.inr (haction _ _ _ _ hitem)) hrest

theorem Operation.packer_eq_of_encodeCustom {codec : Codec} {context : Option Members}
    (h : encodeCustom codec context value writer = .ok () next) : next.packer = {} := by
  obtain ⟨_, _, _, h⟩ := run_bind_eq_ok_iff.1 h
  obtain ⟨_, _, _, h⟩ := run_bind_eq_ok_iff.1 h
  obtain ⟨_, flushed, hflush, h⟩ := run_bind_eq_ok_iff.1 h
  obtain ⟨_, _, hget, h⟩ := run_bind_eq_ok_iff.1 h
  obtain ⟨rfl, rfl⟩ := run_get_eq_ok_iff.1 hget
  split at h
  · cases h
  · cases h
    exact Writer.packer_eq_of_flushBits hflush

theorem RecordPlan.packer_eq_of_encode {plan : RecordPlan} {members : Members}
    (h : plan.encode traversal members writer = .ok () next) : next.packer = {} := by
  obtain ⟨name, fields, skipped⟩ := plan
  rw [encode] at h
  obtain ⟨_, _, _, h⟩ := run_bind_eq_ok_iff.1 h
  obtain ⟨_, _, _, hflush⟩ := run_bind_eq_ok_iff.1 h
  exact Writer.packer_eq_of_flushBits hflush

/-- Nothing is pending after what ends the container. -/
theorem Descriptor.packer_eq_of_encode {descriptor : Descriptor}
    (hcoherent : descriptor.Everywhere Coherent) (hends : descriptor.endsContainer)
    {chain : List Enclosure}
    (h : (descriptor.operation chain).encode traversal value writer = .ok () next) :
    next.packer = {} := by
  induction descriptor using Descriptor.induction
    generalizing chain traversal value writer next with
  | step descriptor ihelement _ =>
    obtain ⟨kind, byteOrder, hasFixedSize, minSize⟩ := descriptor
    cases kind with
    | scalar kind | boolean repr | enum repr type =>
      change Operation.encode traversal value (.scalar ..) writer = _ at h
      rw [Operation.encode] at h
      obtain ⟨raw, _, _, hwrite⟩ := run_bind_eq_ok_iff.1 h
      exact Writer.packer_eq_of_writeBytes hwrite
    | bits content repr width container =>
      change Operation.encode traversal value (.bits ..) writer = _ at h
      rw [Operation.encode, if_pos (beq_iff_eq.1 hends)] at h
      exact Writer.packer_eq_of_flushBits h
    | text encoding size => exact TextSize.packer_eq_of_encodeText h
    | list element size =>
      obtain ⟨hslots, helement⟩ := Bool.and_eq_true_iff.1 hends
      obtain ⟨slots, hslots⟩ := Option.isSome_iff_exists.1 hslots
      have hpos : slots ≠ 0 := by
        rintro rfl
        exact hcoherent.here.2 hslots
      obtain ⟨items, filled, rfl, hfilled, hitems⟩ := Operation.exists_filled?_of_encode_list h
      rw [SizePolicy.filled?_map] at hfilled
      refine Operation.packer_eq_of_forItems ?_ (.inl ?_) hitems
      · exact fun position item writer next h ↦ ihelement element rfl (hcoherent.of_element rfl)
          helement (WriteM.run_locate_eq_ok_iff.1 h)
      · rintro rfl
        exact hpos (SizePolicy.filled?_eq_some hslots hfilled).2.2.symm
    | record name fields =>
      rw [operation_record hcoherent.here.1.names, Operation.encode] at h
      obtain ⟨members, _, _, h⟩ := run_bind_eq_ok_iff.1 h
      exact RecordPlan.packer_eq_of_encode h
    | custom codec context => exact Operation.packer_eq_of_encodeCustom h

theorem Descriptor.packer_eq_of_encodeLength {descriptor : Descriptor}
    (hends : descriptor.endsContainer) {chain : List Enclosure} {length : Nat}
    (h : (descriptor.operation chain).encodeLength length writer = .ok () next) :
    next.packer = {} := by
  obtain ⟨kind, byteOrder, hasFixedSize, minSize⟩ := descriptor
  cases kind with
  | scalar kind | boolean repr | enum repr type =>
    change Operation.encodeLength length (.scalar ..) writer = _ at h
    rw [Operation.encodeLength] at h
    obtain ⟨raw, _, _, hwrite⟩ := run_bind_eq_ok_iff.1 h
    exact Writer.packer_eq_of_writeBytes hwrite
  | bits content repr width container =>
    obtain rfl : width = 0 := beq_iff_eq.1 hends
    change Operation.encodeLength length (.bits ..) writer = _ at h
    rw [Operation.encodeLength] at h
    obtain ⟨bits, _, hdata, -⟩ := run_bind_eq_ok_iff.1 h
    exact (bitsOf_ne_ok_of_zero (WriteM.run_ofData_eq_ok_iff.1 hdata).1).elim
  | _ => cases h

end Idle

namespace FieldDescriptor

variable {name : String} {fields before : List FieldDescriptor} {chain : List Enclosure}
  {traversal : Traversal Members} {members : Members} {writer next : Writer}

/-- The container has ended after some fields of a record: none of them is on the wire, or it ends
with the last that is. -/
def EndContainer (before : List FieldDescriptor) : Prop :=
  ∀ last ∈ (before.filter FieldDescriptor.serialize).getLast?,
    last.padAfter || last.descriptor.endsContainer

/-- Nothing is pending after a field that ends the container, or asks for it to end. -/
theorem packer_eq_of_encodeAll_singleton {field : FieldDescriptor}
    (hcoherent : field.descriptor.Everywhere Descriptor.Coherent)
    (hends : field.padAfter || field.descriptor.endsContainer)
    (h : FieldPlan.encodeAll traversal members [field.plan name fields chain] writer =
      .ok () next) : next.packer = {} := by
  obtain ⟨own, middle, hsends, hpad, hnone⟩ := FieldPlan.sends_of_encodeAll h
  obtain ⟨-, rfl⟩ := run_pure_eq_ok_iff.1 hnone
  have hidle : field.descriptor.endsContainer → own.packer = {} := by
    intro hends
    cases hsends with
    | measured _ _ sent => exact Descriptor.packer_eq_of_encodeLength hends sent
    | found _ _ sent => exact Descriptor.packer_eq_of_encode hcoherent hends sent
  change (if field.padAfter then Writer.flushBits else pure ()) own = _ at hpad
  split at hpad
  · exact Writer.packer_eq_of_flushBits hpad
  · next hplain =>
    obtain ⟨-, rfl⟩ := run_pure_eq_ok_iff.1 hpad
    exact hidle ((Bool.or_eq_true_iff.1 hends).resolve_left hplain)

theorem packer_eq_of_encodeAll
    (hcoherent : ∀ field ∈ before, field.descriptor.Everywhere Descriptor.Coherent)
    (hends : EndContainer before) (hstart : writer.packer = {})
    (h : FieldPlan.encodeAll traversal members ((before.filter FieldDescriptor.serialize).map
      (plan name fields chain)) writer = .ok () next) : next.packer = {} := by
  rcases List.eq_nil_or_concat (before.filter FieldDescriptor.serialize) with
    hnil | ⟨init, last, hlast⟩
  · rw [hnil] at h
    obtain ⟨-, rfl⟩ := run_pure_eq_ok_iff.1 h
    exact hstart
  · rw [hlast, List.concat_eq_append, List.map_append, FieldPlan.encodeAll_append] at h
    obtain ⟨_, middle, -, hone⟩ := run_bind_eq_ok_iff.1 h
    have hmem : last ∈ before.filter FieldDescriptor.serialize := by simp [hlast]
    exact packer_eq_of_encodeAll_singleton (hcoherent last (List.mem_filter.1 hmem).1)
      (hends last (by simp [hlast])) hone

end FieldDescriptor

/-! ## Layouts -/

/-- What a field that is left to a codec is charged with, after some other fields of a record. -/
structure Descriptor.ChargesCodec (record : Descriptor) (before : List FieldDescriptor)
    (codec : Codec) (context : Option String) (operation : Operation) : Prop where
  /-- On writing, the bytes that were pending before are added. -/
  written : ∀ traversal value writer actual contract,
    BreaksPromise (operation.encode traversal value) writer actual contract ↔
      BreaksPromise (codec.encode value (context.bind traversal.findSubject?)).trace writer actual
          contract ∨
        codec.IsCharged (fun bytes ↦ ∃ middle last,
          (codec.encode value (context.bind traversal.findSubject?)).trace writer =
            .ok bytes middle ∧ Writer.flushBits middle = .ok () last)
          writer.packer.pending.length actual contract
  /-- There are none of these if the container has ended with the fields before. -/
  idle : FieldDescriptor.EndContainer before → ∀ name chain outer members start writer,
    start.packer = {} →
    FieldPlan.encodeAll outer members ((before.filter FieldDescriptor.serialize).map
      (FieldDescriptor.plan name record.fields chain)) start = .ok () writer →
    ∀ traversal value actual contract,
      BreaksPromise (operation.encode traversal value) writer actual contract ↔
        BreaksPromise (codec.encode value (context.bind traversal.findSubject?)).trace writer
            actual contract ∨
          codec.IsCharged (fun bytes ↦ ∃ next,
            (codec.encode value (context.bind traversal.findSubject?)).trace writer =
              .ok bytes next) 0 actual contract
  /-- On reading, nothing is added. -/
  read : ∀ traversal reader actual contract,
    BreaksPromise (operation.decode traversal) reader actual contract ↔
      BreaksPromise (codec.decode (context.bind traversal.findSubject?)).trace reader actual
          contract ∨
        codec.IsCharged (fun bytes ↦ ∃ value next,
          (codec.decode (context.bind traversal.findSubject?)).trace reader =
            .ok (value, bytes) next) 0 actual contract

/-- Codecs are charged with the bytes that they move.  On writing, the bytes of a container that is
pending before are added, of which there are none where the container has ended. -/
theorem Schema.chargesCodec {layout : Layout} {schema : Schema}
    (h : Schema.ofLayout layout = .ok schema) :
    schema.descriptor.Everywhere fun record ↦ ∀ before field after codec context,
      record.fields = before ++ field :: after → field.descriptor.kind = .custom codec context →
        ∀ chain, record.ChargesCodec before codec context (field.descriptor.operation chain) := by
  refine (Layout.describe_coherent (Schema.ofLayout_eq_ok h).1).imp_everywhere ?_
  intro record hcoherent before field after codec context hfields hkind chain
  have hoperation : field.descriptor.operation chain = .custom codec context := by
    generalize field.descriptor = inner at hkind
    obtain ⟨kind, byteOrder, hasFixedSize, minSize⟩ := inner
    cases hkind
    rfl
  rw [hoperation]
  refine ⟨fun traversal value writer actual contract ↦ Operation.breaksPromise_encode_iff, ?_,
    fun traversal reader actual contract ↦ Operation.breaksPromise_decode_iff⟩
  intro hends name outerChain outer members start writer hstart hbefore traversal value actual
    contract
  refine Operation.breaksPromise_encode_iff_of_packer_eq
    (FieldDescriptor.packer_eq_of_encodeAll (fun other hmem ↦ ?_) hends hstart hbefore)
  exact hcoherent.of_field (hfields ▸ List.mem_append_left _ hmem)

/-- Moves one byte, as it promises. -/
def Codec.octet : Codec where
  size := .exactly 1
  encode value _ :=
    match value with
    | .integer .u8 pattern => .write [UInt8.ofNat pattern.toNat] fun _ ↦ .done
    | other => .fail (.data (other.mismatch "u8"))
  decode _ :=
    .read 1 fun bytes ↦
      match bytes with
      | [byte] => .done (.integer .u8 (BitVec.ofNat 8 byte.toNat))
      | _ => .fail (.io .unexpectedEof)

/-- Half a byte, and a byte that a codec moves. -/
def Layout.charged : Layout where
  name := "Charged"
  fields := [
    { name := "half", order := some 0, shape := .scalar (.integer .u8), bitWidth := some 4 },
    { name := "octet", order := some 1, shape := .scalar (.integer .u8)
      tag := some (.custom .octet none) }]

/-- The schema of half a byte, and a byte that a codec moves. -/
def Schema.charged : Schema where
  name := "Charged"
  descriptor := {
    kind := .record "Charged" [
      ⟨"half", 0, ⟨.bits .integer .u8 4 1, .little, true, 0⟩, true, none, false⟩,
      ⟨"octet", 1, ⟨.custom .octet none, .little, true, 1⟩, true, none, false⟩]
    byteOrder := .little
    hasFixedSize := true
    minSize := 2 }
  plan := {
    root := {
      name := "Charged"
      fields := [
        ⟨"half", .bits .u8 4 1 false .native, none, none, false⟩,
        ⟨"octet", .custom .octet none, none, none, false⟩]
      skipped := [] }
    hasFixedSize := true
    minSize := 2 }

theorem Schema.ofLayout_charged : ofLayout .charged = .ok .charged := by
  have hdescribe : Layout.charged.describe = .ok charged.descriptor := by cbv
  rw [ofLayout, hdescribe]
  rfl

/-- With half a byte pending, the codec is charged with two bytes for the one that it writes. -/
theorem Schema.charged_breaksPromise : ofLayout .charged = .ok .charged ∧
    BreaksPromise (Operation.encode {} (.integer .u8 7) (.custom .octet none))
      { packer := ⟨some (.start 1 1 4 false)⟩ } 2 (.exactly 1) := by
  refine ⟨ofLayout_charged, ?_⟩
  have hcharges := (chargesCodec ofLayout_charged).here [_] _ [] .octet none rfl rfl []
  exact (hcharges.written {} _ _ 2 _).2
    (.inr ⟨⟨[7], ⟨_, _, rfl, rfl⟩, rfl⟩, rfl, (by decide : ¬ (2 = 1))⟩)

/-- The codec writes the one byte that it promises, but is turned down for the half before.  The
bytes that it would have written are read. -/
theorem Schema.charged_toBytes : Schema.ofLayout .charged = .ok .charged ∧
    Codec.octet.size.Admits [(7 : UInt8)].length ∧
    (Codec.octet.encode (.integer .u8 7) none).trace { packer := ⟨some (.start 1 1 4 false)⟩ } =
      .ok [7] ⟨⟨#[1, 7], none⟩, 2, {}⟩ ∧
    Schema.charged.toBytes (.record [("half", .integer .u8 1), ("octet", .integer .u8 7)]) =
      .error (.located [.member "octet"] (.data (.sizeContract 2 (.exactly 1)))) ∧
    Schema.charged.deserialize [1, 7] =
      (.ok (.record [("half", .integer .u8 1), ("octet", .integer .u8 7)]), []) :=
  ⟨Schema.ofLayout_charged, rfl, rfl, rfl, rfl⟩

end WireFormat
