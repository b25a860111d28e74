import WireFormat.Proofs.Conflict.Schema
import WireFormat.Proofs.Run.Lengths
import WireFormat.Proofs.Run.Writing

/-!
# Faults that cannot arise

Reading asks for lengths that have been read, keeps lengths that are integers, and takes bits from
containers that hold them.  It is prepared for all of this to be otherwise, but in a schema without
codecs it never is.

* `DataError.IsOfReading` — the faults that bytes can have;
* `Stage.Shows.isOfReading_of_isOrigin` — a stage that fails by itself has one of them;
* `Schema.not_isDefensive` — no fault arises that a schema rules out.
-/

namespace WireFormat

open DataError (isOfBytes)

/-! ## Faults -/

/-- Whether a fault is only looked for to be on the safe side: a schema rules it out. -/
def DataError.isDefensive : DataError → Bool
  | missingLength _ | valueMismatch _ _ | outOfRange _ _ | containerOverflow _ _
  | invalidContainerWidth _ => true
  | _ => false

/-- A fault that can arise while bytes are read, where `read` are the lengths that have been. -/
inductive DataError.IsOfReading (read : Int → Prop) : DataError → Prop where
  | ofBytes {fault : DataError} (isOfBytes : fault.isOfBytes) : IsOfReading read fault
  | ofContainer {fault : DataError} (isConflict : fault.isConflict) : IsOfReading read fault
  | tooLong (length max : Nat) : IsOfReading read (.lengthExceedsFixed length max)
  | negative {length : Int} (isNegative : length < 0) (isRead : read length) :
      IsOfReading read (.invalidLength length)

theorem Blames.isOfReading {α : Type} {result : Except DataError α} {read : Int → Prop}
    (h : Blames isOfBytes result) : ∀ fault, result = .error fault → fault.IsOfReading read :=
  fun fault hfault ↦ .ofBytes (h fault hfault)

variable {traversal : Traversal Members} {reader next : Reader} {chain : List Enclosure}
  {read : Int → Prop} {descriptor root : Descriptor} {stage inner : Stage} {fault : DataError}

/-! ## Lengths -/

/-- A length is turned down if it is negative or too large for its slots, and only then. -/
theorem Traversal.Supplies.isOfReading_of_extent {policy : SizePolicy String}
    (h : traversal.Supplies chain read) (hlends : ∀ key ∈ policy.key?, Lends key chain) :
    ∀ fault, traversal.extent (policy.map (.from chain)) = .error fault →
      fault.IsOfReading read := by
  intro fault hfault
  have hlength : ∀ key, Lends key chain → ∀ cause,
      traversal.sourceLength (.from chain key) = .error cause → cause.IsOfReading read := by
    intro key hlends cause hcause
    obtain ⟨length, hread, hlength⟩ := h.sourceLength_from hlends
    rw [hlength] at hcause
    split at hcause
    · cases hcause
    · next hnegative =>
      cases hcause
      exact .negative (Int.not_le.1 hnegative) hread
  cases policy with
  | fixed slots => cases hfault
  | keyed key =>
    rcases bind_eq_error_iff.1 hfault with hcause | ⟨length, -, hfault⟩
    · exact hlength key (hlends key rfl) fault hcause
    · cases hfault
  | padded key slots =>
    rcases bind_eq_error_iff.1 hfault with hcause | ⟨length, -, hfault⟩
    · exact hlength key (hlends key rfl) fault hcause
    · split at hfault
      · cases hfault
        exact .tooLong length slots
      · cases hfault

/-! ## Scalars, bits and texts -/

/-- Some bits stand for a number in the range of their field. -/
theorem Flavor.decodeBits_ne_error {flavor : Flavor} {own : IntegerKind} {width bits : Nat}
    (hwidth : width ≠ 0) (hle : width ≤ own.bits) (hbits : bits < 2 ^ width) :
    flavor.decodeBits (.integer own) width bits ≠ .error fault := by
  cases flavor with
  | native =>
    obtain ⟨_, hnumber⟩ := exists_bitsOf_signExtend (native.isSigned (.integer own)) hwidth
      (Nat.le_trans hle own.bits_le) hbits
    have hfits := fits_of_bitsOf hle hnumber
    rw [decodeBits, Value.ofInteger?, if_pos hfits]
    rintro ⟨⟩
  | boolean => rintro ⟨⟩
  | enum => rintro ⟨⟩

namespace Reader

variable {allowed : DataError → Prop}

theorem failsWith_readBytes (count : Nat) : FailsWith allowed (readBytes count) :=
  .bind (.modify _) fun _ ↦ .of_io fun _ _ _ h ↦ ⟨_, eq_of_receiveAll_eq_error h⟩

theorem failsWith_readUntilNul : FailsWith allowed readUntilNul :=
  .bind (.modify _) fun _ ↦ .bind .get fun _ ↦
    .bind (.of_io fun _ _ _ h ↦ ⟨_, eq_of_receiveAll_eq_error h⟩) fun _ ↦ .pure _

/-- Bits that cannot be taken are in conflict with a container, or at the end of the stream. -/
theorem failsWith_unpack {width bits : Nat} {swap : Bool} (hbits : bits ≠ 0) :
    FailsWith (fun fault ↦ fault.isConflict) (unpack width bits swap) := by
  intro reader error next h fault hcause
  rcases (unpack_eq_error_iff hbits).1 h with
    ⟨own, hcheck, rfl, -⟩ | ⟨-, ⟨_, -, -, rfl, -⟩ | ⟨-, hreceive⟩⟩
  · cases hcause
    rw [Container.check] at hcheck
    split at hcheck
    · cases hcheck
      rfl
    · split at hcheck
      · cases hcheck
        rfl
      · cases hcheck
  · cases hcause
    rfl
  · rw [eq_of_receiveAll_eq_error hreceive] at hcause
    cases hcause

end Reader

theorem TextSize.failsWith_decodeTextBytes {encoding : Encoding} {size : TextSize String}
    (hsupplied : traversal.Supplies chain read)
    (hlends : ∀ policy ∈ size.policy?, ∀ key ∈ policy.key?, Lends key chain) :
    FailsWith (DataError.IsOfReading read)
      (Operation.decodeTextBytes traversal encoding (size.map (.from chain))) := by
  cases size with
  | nullTerminated => exact Reader.failsWith_readUntilNul
  | sized policy =>
    have hextent := hsupplied.isOfReading_of_extent (hlends policy rfl)
    cases policy with
    | fixed slots => exact (Reader.failsWith_readBytes slots).bind fun _ ↦ .pure _
    | keyed key | padded key slots =>
      refine FailsWith.bind (ReadM.failsWith_ofData hextent) fun extent ↦ ?_
      exact (Reader.failsWith_readBytes _).bind fun _ ↦
        .bind ((Reader.failsWith_readBytes _).bind fun _ ↦ .pure _) fun _ ↦ .pure _

namespace Operation

theorem failsWith_ofScalar (repr : ScalarKind) (byteOrder : ByteOrder) (flavor : Flavor) :
    FailsWith (DataError.IsOfReading read)
      ((Operation.ofScalar repr byteOrder flavor).decode traversal) := by
  rw [ofScalar, decode]
  exact (FailsWith.bind (Reader.failsWith_readBytes _) fun _ ↦ .pure _).bind fun raw ↦
    ReadM.failsWith_ofData (flavor.blames_decode repr raw).isOfReading

/-- The bits of a field are a number in its range, so it is for the container that they fail. -/
theorem failsWith_bits {flavor : Flavor} {own : IntegerKind} {width container : Nat} {swap : Bool}
    (hle : width ≤ own.bits) : FailsWith (DataError.IsOfReading read)
      ((Operation.bits own width container swap flavor).decode traversal) := by
  intro reader error next hrun fault hcause
  rw [decode] at hrun
  split at hrun
  · cases hrun
  · next hwidth =>
    rcases run_bind_eq_error_iff.1 hrun with hunpack | ⟨bits, _, hunpack, hdata⟩
    · exact .ofContainer (Reader.failsWith_unpack hwidth _ _ _ hunpack fault hcause)
    · obtain ⟨own, hdecode, -, -⟩ := ReadM.run_ofData_eq_error_iff.1 hdata
      exact (Flavor.decodeBits_ne_error hwidth hle (Reader.lt_of_unpack hwidth hunpack)
        hdecode).elim

theorem failsWith_text {encoding : Encoding} {size : TextSize String}
    (hsupplied : traversal.Supplies chain read)
    (hlends : ∀ policy ∈ size.policy?, ∀ key ∈ policy.key?, Lends key chain) :
    FailsWith (DataError.IsOfReading read)
      ((Operation.text encoding (size.map (.from chain))).decode traversal) := by
  rw [decode]
  exact (TextSize.failsWith_decodeTextBytes hsupplied hlends).bind fun bytes ↦ FailsWith.bind
    (ReadM.failsWith_ofData (encoding.blames_decode bytes).isOfReading) fun text ↦
      .pure (Value.text text)

end Operation

/-! ## Stages -/

namespace Stage.Shows

/-- A stage that fails by itself has a fault that bytes can have. -/
theorem isOfReading_of_isOrigin (hcoherent : root.Everywhere Descriptor.Coherent)
    (hcodec : root.Everywhere fun inner ↦ inner.isCodec = false)
    (h : stage.Shows root descriptor chain read)
    (hread : ∀ length, stage.ReadsLength length → read length)
    (horigin : stage.IsOrigin (.data fault)) : fault.IsOfReading read := by
  obtain ⟨⟨error, last, hrun, hcause⟩, halone⟩ := horigin
  have hnumbers : ∀ {field inner value next}, stage.EntersField field inner →
      field.lengthOf.isSome → inner.run = .ok value next →
        ∃ length, value.toInteger? = some length :=
    fun henters ↦ h.exists_toInteger? hcoherent hcodec hread henters
  obtain ⟨hoperation, hinside, -, hlent, hsupplied, -⟩ := h
  have hown := (hinside _ hcoherent).here
  obtain ⟨operation, traversal, reader⟩ := stage
  obtain rfl := hoperation
  obtain ⟨kind, byteOrder, hasFixedSize, minSize⟩ := descriptor
  cases kind with
  | scalar kind =>
    exact Operation.failsWith_ofScalar kind byteOrder .native _ _ _ hrun fault hcause
  | boolean repr =>
    exact Operation.failsWith_ofScalar (.integer repr) byteOrder .boolean _ _ _ hrun fault hcause
  | enum repr type =>
    exact Operation.failsWith_ofScalar (.integer repr) byteOrder .enum _ _ _ hrun fault hcause
  | bits content repr width container =>
    exact Operation.failsWith_bits hown.2 _ _ _ hrun fault hcause
  | text encoding size =>
    have hlends : ∀ policy ∈ size.policy?, ∀ key ∈ policy.key?, Lends key chain := by
      intro policy hpolicy key hkey
      refine hlent.lends ?_
      change size.policy?.bind _ = _
      rw [hpolicy]
      exact hkey
    exact Operation.failsWith_text hsupplied hlends _ _ _ hrun fault hcause
  | list element size =>
    rcases run_list_eq_error hrun with ⟨own, hextent, rfl⟩ |
      ⟨position, inner, cause, henters, hinner, rfl⟩
    · cases hcause
      exact hsupplied.isOfReading_of_extent (fun key hkey ↦ hlent.lends hkey) _ hextent
    · rw [Error.rootCause_locate] at hcause
      exact (halone inner (.element position henters) _ _ hinner hcause).elim
  | record name fields =>
    have hrecord := hown.1
    rw [Descriptor.operation_record hrecord.names] at hrun hnumbers halone
    obtain ⟨field, around, middle, cause, henters, rfl, hinner | ⟨value, own, hvalue, hkeep, -⟩⟩ :=
      run_record_eq_error hrun
    · rw [Error.rootCause_locate] at hcause
      exact (halone _ (.field field henters) _ _ hinner hcause).elim
    · obtain ⟨hlength, hnone⟩ := FieldPlan.isSome_of_keep_eq_error hkeep
      obtain ⟨length, hnumber⟩ := hnumbers henters hlength hvalue
      rw [hnone] at hnumber
      cases hnumber
  | custom codec context => cases (hinside _ hcodec).here

end Stage.Shows

/-! ## Schemas -/

theorem Error.data?_eq_some_iff {error : Error} :
    error.data? = some fault ↔ error.rootCause = .data fault := by
  rw [data?]
  split
  · next own hown => rw [hown, Option.some.injEq, data.injEq]
  · next hother =>
    constructor
    · rintro ⟨⟩
    · intro h
      exact (hother fault h).elim

namespace Schema

variable {layout : Layout} {schema : Schema} {bytes rest : List UInt8} {error : Error}

/-- What goes wrong while bytes are read is that they stand for no text or character, that a length
in them does not suit, or that a bit field disagrees with its container. -/
theorem isOfReading_of_deserialize (h : ofLayout layout = .ok schema)
    (hcodec : ¬ layout.UsesCodec) (hdeserialize : schema.deserialize bytes = (.error error, rest))
    (hcause : error.rootCause = .data fault) : fault.IsOfReading (schema.ReadsLength bytes) := by
  obtain ⟨last, hrun⟩ := exists_run_of_deserialize_eq_error hdeserialize
  obtain ⟨origin, hvisits, horigin⟩ := Stage.exists_origin hrun
  obtain ⟨descriptor, chain, hshows⟩ := exists_shows_of_visits h hcodec hvisits
  obtain ⟨hdescribe, -⟩ := ofLayout_eq_ok h
  rw [hcause] at horigin
  exact hshows.isOfReading_of_isOrigin (Layout.describe_coherent hdescribe)
    (Layout.everywhere_isCodec_eq_false hdescribe hcodec)
    (fun length hlength ↦ ⟨origin, hvisits, hlength⟩) horigin

/-- Reading never runs into a fault that a schema rules out, and turns down a length only if it has
read one that is negative.  Writing never turns down a length for being none. -/
theorem not_isDefensive (h : ofLayout layout = .ok schema) (hcodec : ¬ layout.UsesCodec) :
    (∀ bytes error rest fault, schema.deserialize bytes = (.error error, rest) →
      error.data? = some fault → fault.isDefensive = false ∧
        ∀ length, fault = .invalidLength length →
          length < 0 ∧ schema.ReadsLength bytes length) ∧
    ∀ value sink error sink' fault, schema.serialize value sink = (.error error, sink') →
      error.data? = some fault → ∀ length, fault ≠ .invalidLength length := by
  constructor
  · intro bytes error rest fault hdeserialize hdata
    have hcause := Error.data?_eq_some_iff.1 hdata
    cases isOfReading_of_deserialize h hcodec hdeserialize hcause with
    | ofBytes isOfBytes =>
      refine ⟨?_, ?_⟩
      · cases fault <;> first | rfl | cases isOfBytes
      · rintro length rfl
        cases isOfBytes
    | ofContainer isConflict =>
      -- A conflict can only be one of byte orders.
      obtain ⟨hdescribe, hplan⟩ := ofLayout_eq_ok h
      obtain ⟨⟨hsettled, -⟩, hroot, -, -⟩ := Plan.ofDescriptor_eq_ok_iff.1 hplan
      have hcalm : schema.descriptor.IsCalm True :=
        Descriptor.isCalm (Layout.describe_coherent hdescribe)
          (Layout.everywhere_holdsWhole hdescribe)
          (Layout.everywhere_isCodec_eq_false hdescribe hcodec) hsettled fun _ ↦ trivial
      obtain ⟨rfl, -⟩ := excused_of_deserialize hcalm hroot hdeserialize fault hcause isConflict
      exact ⟨rfl, nofun⟩
    | tooLong length max => exact ⟨rfl, nofun⟩
    | negative isNegative isRead =>
      refine ⟨rfl, ?_⟩
      rintro _ ⟨⟩
      exact ⟨isNegative, isRead⟩
  · rintro value sink error sink' fault hserialize hdata length rfl
    rcases isOfWriting_of_serialize h hcodec hserialize (Error.data?_eq_some_iff.1 hdata) with
      hvalue | hconflict
    · cases hvalue
    · cases hconflict

end Schema

/-- A count that may be negative, and the bytes that it counts. -/
def Layout.signed : Layout where
  name := "Signed"
  fields := [
    { name := "count", order := some 0, shape := .scalar (.integer .i8), lengthOf := some "items" },
    { name := "items", order := some 1, shape := .list ⟨.scalar (.integer .u8), none⟩
      tag := some (.list { lengthKey := some "items" }) }]

/-- The descriptor of a count that may be negative, and the bytes that it counts. -/
def Descriptor.signed : Descriptor where
  kind := .record "Signed" [
    ⟨"count", 0, .ofFixed (.scalar (.integer .i8)) .little 1, true, some "items", false⟩,
    ⟨"items", 1, ⟨.list (.ofFixed (.scalar (.integer .u8)) .little 1) (.keyed "items"), .little,
      false, 0⟩, true, none, false⟩]
  byteOrder := .little
  hasFixedSize := false
  minSize := 1

theorem Layout.describe_signed : Layout.signed.describe = .ok Descriptor.signed := by cbv

theorem Layout.not_usesCodec_signed : ¬ signed.UsesCodec := by decide

/-- The schema of a count that may be negative, and the bytes that it counts. -/
def Schema.signed : Schema where
  name := "Signed"
  descriptor := .signed
  plan := {
    root := {
      name := "Signed"
      fields := [
        ⟨"count", .scalar (.integer .i8) false .native, some "items", some ⟨["items"], .elements⟩,
          false⟩,
        ⟨"items", .list (.scalar (.integer .u8) false .native) (.keyed ⟨"items", 0⟩)
          (some (.zero (.integer .u8))), none, none, false⟩]
      skipped := [] }
    hasFixedSize := false
    minSize := 1 }

theorem Schema.ofLayout_signed : ofLayout .signed = .ok .signed := by
  rw [ofLayout, Layout.describe_signed]
  rfl

/-- A count that is negative is turned down, and it is the one that has been read. -/
theorem Schema.signed_deserialize :
    Schema.signed.deserialize [255] =
        (.error (.located [.member "items"] (.data (.invalidLength (-1)))), []) ∧
      Schema.signed.ReadsLength [255] (-1) :=
  have hdeserialize : Schema.signed.deserialize [255] =
      (.error (.located [.member "items"] (.data (.invalidLength (-1)))), []) := rfl
  ⟨hdeserialize, ((Schema.not_isDefensive Schema.ofLayout_signed Layout.not_usesCodec_signed).1
    _ _ _ _ hdeserialize rfl).2 (-1) rfl |>.2⟩

end WireFormat
