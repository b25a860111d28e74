import WireFormat.Proofs.Run.Writing
import WireFormat.Proofs.Stream.Capacity

/-!
# Values that do not fit

What a value is written as does not depend on the room that is left.  A sink that is too small gets
the bytes that fit and then stops the value, wherever that is: in a field, in a container that a
later field sends out, or in the one that is sent out at the end.

* `Descriptor.confines_encode` — a value under the operation of a descriptor;
* `Schema.keepsPrefix` — a value under a schema.
-/

namespace WireFormat

/-! ## Operations -/

namespace Operation

theorem confines_encodeText (encoding : Encoding) (size : TextSize LengthSource) (value : Value) :
    Confines (encodeText encoding size value) := by
  cases value with
  | text content =>
    rw [encodeText, pure_bind]
    refine (Confines.ofData _).bind fun bytes ↦ ?_
    cases size with
    | nullTerminated =>
      dsimp only
      split
      · exact .throw rfl
      · exact (Writer.confines_writeBytes bytes).bind fun _ ↦ Writer.confines_writeZeros 1
    | sized policy =>
      refine (Confines.ofData _).bind fun slots ↦ ?_
      split
      · exact .throw rfl
      · exact (Writer.confines_writeBytes bytes).bind fun _ ↦ Writer.confines_writeZeros _
  | _ => exact .throw rfl

theorem confines_encodeLength (length : Nat) (operation : Operation) :
    Confines (operation.encodeLength length) := by
  cases operation with
  | scalar repr swap flavor =>
    rw [encodeLength]
    exact (Confines.ofData _).bind fun raw ↦ Writer.confines_writeBytes _
  | bits repr width container swap flavor =>
    rw [encodeLength]
    exact (Confines.ofData _).bind fun bits ↦ Writer.confines_pack _ _ _ _
  | _ => exact .throw rfl

theorem confines_forItems {action : Nat → Value → WriteM Unit}
    (h : ∀ position item, Confines (action position item)) (position : Nat) (items : List Value) :
    Confines (forItems action position items) := by
  induction items generalizing position with
  | nil => exact .pure ()
  | cons item items ih => exact (h position item).bind fun _ ↦ ih (position + 1)

theorem confines_encode_list {element : Operation} {policy : SizePolicy LengthSource}
    {default? : Option Value} (h : ∀ traversal item, Confines (element.encode traversal item))
    (traversal : Traversal Members) (value : Value) :
    Confines (Operation.encode traversal value (.list element policy default?)) := by
  cases value with
  | list items =>
    rw [Operation.encode, pure_bind]
    refine (Confines.ofData _).bind fun free ↦ ?_
    have hitems : ∀ position more,
        Confines (forItems (encodeItem traversal element) position more) :=
      confines_forItems fun position item ↦ (h _ item).locate _
    refine (hitems 0 items).bind fun _ ↦ ?_
    cases free with
    | none => exact .pure ()
    | some slots =>
      dsimp only
      rw [forCopies_eq]
      exact hitems _ _
  | _ =>
    rw [Operation.encode]
    · exact .throw rfl
    · rintro _ ⟨⟩

theorem confines_ofScalar (kind : ScalarKind) (byteOrder : ByteOrder) (flavor : Flavor)
    (traversal : Traversal Members) (value : Value) :
    Confines ((ofScalar kind byteOrder flavor).encode traversal value) := by
  rw [ofScalar, Operation.encode]
  exact (Confines.ofData _).bind fun raw ↦ Writer.confines_writeBytes _

end Operation

/-! ## Descriptors -/

theorem FieldPlan.confines_encodeAll {fields : List FieldPlan}
    (h : ∀ field ∈ fields, ∀ traversal value,
      Confines (field.operation.encode traversal value))
    (traversal : Traversal Members) (members : Members) :
    Confines (encodeAll traversal members fields) := by
  induction fields with
  | nil => exact .pure ()
  | cons field rest ih =>
    obtain ⟨hfield, hrest⟩ := List.forall_mem_cons.1 h
    obtain ⟨name, operation, lengthOf, feed, padAfter⟩ := field
    rw [encodeAll]
    refine .bind (.locate ?_ _) fun _ ↦ ih hrest
    have hpad : Confines (if padAfter then Writer.flushBits else pure ()) := by
      split
      · exact Writer.confines_flushBits
      · exact .pure ()
    cases feed with
    | none =>
      dsimp only
      cases members.find? name with
      | none => exact .throw rfl
      | some value => exact (hfield _ value).bind fun _ ↦ hpad
    | some feed =>
      dsimp only
      cases feed.measured members with
      | error fault => exact .bind (.throw rfl) fun _ ↦ hpad
      | ok length => exact (Operation.confines_encodeLength length operation).bind fun _ ↦ hpad

/-- Without codecs, a value that does not fit comes to the same up to the byte that does not. -/
theorem Descriptor.confines_encode {descriptor : Descriptor}
    (hcoherent : descriptor.Everywhere Coherent)
    (hcodec : descriptor.Everywhere fun inner ↦ inner.isCodec = false) (chain : List Enclosure)
    (traversal : Traversal Members) (value : Value) :
    Confines ((descriptor.operation chain).encode traversal value) := by
  induction descriptor using Descriptor.induction generalizing chain traversal value with
  | step descriptor ihelement ihfields =>
    obtain ⟨kind, byteOrder, hasFixedSize, minSize⟩ := descriptor
    cases kind with
    | scalar kind => exact Operation.confines_ofScalar kind byteOrder .native traversal value
    | boolean repr => exact Operation.confines_ofScalar _ byteOrder .boolean traversal value
    | enum repr type => exact Operation.confines_ofScalar _ byteOrder .enum traversal value
    | bits content repr width container =>
      change Confines (Operation.encode traversal value (.bits ..))
      rw [Operation.encode]
      split
      · exact Writer.confines_flushBits
      · exact (Confines.ofData _).bind fun bits ↦ Writer.confines_pack _ _ _ _
    | text encoding size => exact Operation.confines_encodeText encoding _ value
    | list element size =>
      exact Operation.confines_encode_list (fun traversal item ↦ ihelement element rfl
        (hcoherent.of_element rfl) (hcodec.of_element rfl) [] traversal item) traversal value
    | record name fields =>
      rw [operation_record hcoherent.here.1.names, Operation.encode]
      refine (Confines.ofData _).bind fun members ↦ ?_
      rw [RecordPlan.encode]
      refine Writer.confines_flushBits.bind fun _ ↦
        (FieldPlan.confines_encodeAll ?_ _ members).bind fun _ ↦ Writer.confines_flushBits
      intro plan hplan traversal value
      obtain ⟨field, hfield, rfl⟩ := List.mem_map.1 hplan
      have hmem := (List.mem_filter.1 hfield).1
      exact ihfields field hmem (hcoherent.of_field hmem) (hcodec.of_field hmem) _ traversal value
    | custom codec context => cases hcodec.here

/-! ## Schemas -/

namespace Schema

variable {layout : Layout} {schema : Schema}

/-- Whether a value that is written to a sink which holds some bytes already and has room for so
many more comes to the same as with an empty sink that never is full, as far as the room goes. -/
structure KeepsPrefix (schema : Schema) (value : Value) (held : Array UInt8) (room : Nat) :
    Prop where
  /-- The bytes that fit are written after those that the sink held. -/
  written : (schema.serialize value ⟨held, some (held.size + room)⟩).2.bytes.toList =
    held.toList ++ (schema.serialize value {}).2.bytes.toList.take room
  /-- If all fit, the answer is the same. -/
  fits : (schema.serialize value {}).2.bytes.size ≤ room →
    (schema.serialize value ⟨held, some (held.size + room)⟩).1 = (schema.serialize value {}).1
  /-- Otherwise the sink is what stops the value. -/
  full : room < (schema.serialize value {}).2.bytes.size →
    ∃ error, (schema.serialize value ⟨held, some (held.size + room)⟩).1 = .error error ∧
      error.rootCause = .io .writeZero
  /-- Where there is no limit, the answer is the number of the bytes, -/
  counts : ∀ count, (schema.serialize value {}).1 = .ok count →
    count = (schema.serialize value {}).2.bytes.size
  /-- or the data is at fault. -/
  faults : ∀ error, (schema.serialize value {}).1 = .error error →
    ∃ fault, error.rootCause = .data fault

/-- What writing the members comes to, as an answer of `serialize`. -/
def answer : EStateM.Result Error Writer Nat → Except Error Nat
  | .ok count _ => .ok count
  | .error error _ => .error error

theorem serialize_eq_of_members (schema : Schema) {value : Value} {members : Members}
    (h : value.members = .ok members) (sink : Sink) : schema.serialize value sink =
      (answer (schema.write members { sink := sink }),
        (finalState (schema.write members { sink := sink })).sink) := by
  rw [serialize, rootMembers, h]
  change (match schema.write members { sink := sink } with
    | .ok count writer => (Except.ok count, writer.sink)
    | .error error writer => (.error error, writer.sink)) = _
  cases schema.write members { sink := sink } <;> rfl

theorem serialize_eq_of_members_error (schema : Schema) {value : Value} {fault : DataError}
    (h : value.members = .error fault) (sink : Sink) :
    schema.serialize value sink = (.error (.data fault), sink) := by
  rw [serialize, rootMembers, h]
  rfl

theorem confines_write (h : ofLayout layout = .ok schema) (hcodec : ¬ layout.UsesCodec)
    (members : Members) : Confines (schema.write members) := by
  obtain ⟨hdescribe, hplan⟩ := ofLayout_eq_ok h
  obtain ⟨-, hroot, -, -⟩ := Plan.ofDescriptor_eq_ok_iff.1 hplan
  have hencode := Descriptor.confines_encode (Layout.describe_coherent hdescribe)
    (Layout.everywhere_isCodec_eq_false hdescribe hcodec) [] {} (.record members)
  rw [hroot, Operation.encode] at hencode
  exact hencode.bind fun _ ↦ Writer.confines_finish

/-- The answer for a value that has been written is the number of its bytes. -/
theorem eq_size_of_serialize (h : ofLayout layout = .ok schema) (hcodec : ¬ layout.UsesCodec)
    {value : Value} {count : Nat} (hcount : (schema.serialize value {}).1 = .ok count) :
    count = (schema.serialize value {}).2.bytes.size := by
  obtain ⟨hdescribe, hplan⟩ := ofLayout_eq_ok h
  obtain ⟨⟨hsettled, -⟩, hroot, -, -⟩ := Plan.ofDescriptor_eq_ok_iff.1 hplan
  obtain ⟨-, -, bytes, -, -, hbytes, rfl⟩ := exists_emits_of_serialize
    (Descriptor.isWritten (Layout.describe_coherent hdescribe)
      (Layout.everywhere_isCodec_eq_false hdescribe hcodec) hsettled) hroot (Prod.ext hcount rfl)
  rw [← Array.length_toList, hbytes]
  rfl

/-- A sink that runs out of room gets the bytes that fit, and then stops the value. -/
theorem keepsPrefix (h : ofLayout layout = .ok schema) (hcodec : ¬ layout.UsesCodec)
    (value : Value) (held : Array UInt8) (room : Nat) : schema.KeepsPrefix value held room := by
  have hcounts : ∀ count, (schema.serialize value {}).1 = .ok count → _ :=
    fun count ↦ eq_size_of_serialize h hcodec
  cases hmembers : value.members with
  | error fault =>
    have hserialize := serialize_eq_of_members_error schema hmembers
    refine ⟨?_, ?_, ?_, hcounts, ?_⟩ <;> simp only [hserialize]
    · simp
    · exact fun _ ↦ trivial
    · exact fun hlt ↦ (Nat.not_lt_zero _ hlt).elim
    · rintro _ ⟨⟩
      exact ⟨fault, rfl⟩
  | ok members =>
    have hconfined := confines_write h hcodec members held room {} rfl (Nat.zero_le _)
    have hinto : Writer.into held room {} = { sink := ⟨held, some (held.size + room)⟩ } := by
      simp [Writer.into]
    rw [hinto] at hconfined
    have hserialize := serialize_eq_of_members schema hmembers
    constructor
    case counts => exact hcounts
    all_goals simp only [hserialize]
    case written =>
      rcases Nat.lt_or_ge room (finalState (schema.write members {})).written.length with hlt | hle
      · obtain ⟨error, last, htight, -, hwritten⟩ := hconfined.full hlt
        rw [htight]
        exact hwritten
      · rw [hconfined.fits hle, List.take_of_length_le hle]
        cases schema.write members {} <;> simp [Writer.intoResult, finalState, Writer.into]
    case fits =>
      intro hle
      rw [hconfined.fits hle]
      cases schema.write members {} <;> rfl
    case full =>
      intro hlt
      obtain ⟨error, last, htight, hcause, -⟩ := hconfined.full hlt
      rw [htight]
      exact ⟨error, rfl, hcause⟩
    case faults =>
      intro error herror
      have hdata := hconfined.ofData
      cases hwrite : schema.write members {} with
      | ok count last =>
        rw [hwrite] at herror
        cases herror
      | error own last =>
        rw [hwrite] at herror hdata
        cases herror
        exact hdata

end Schema

/-- Of a count and two bytes, the first two fit after a byte that is there already. -/
theorem Schema.counted_keepsPrefix : Schema.counted.KeepsPrefix (.counted 9) #[7] 2 ∧
    (Schema.counted.serialize (.counted 9) ⟨#[7], some 3⟩).2 = ⟨#[7, 2, 3], some 3⟩ :=
  ⟨Schema.keepsPrefix Schema.ofLayout_counted Layout.not_usesCodec_counted _ _ _, rfl⟩

end WireFormat
