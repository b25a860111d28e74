import WireFormat.Proofs.Conflict.Operations
import WireFormat.Proofs.Format.RoundTrip

/-!
# Faults while something is written

Whatever goes wrong while a value is written, it is the value that is at fault, a bit field that
disagrees with its container, or the sink that is full.

* `FailsWith` — an action whose faults are among those that are allowed;
* `Descriptor.failsWith_encode` — so are those of a value that is written;
* `Schema.isOfWriting_of_serialize` — and those of a schema.
-/

namespace WireFormat

/-! ## Actions -/

section

variable {σ α β : Type} {allowed : DataError → Prop}

/-- If the action fails because of a fault, then one of those that are allowed. -/
def FailsWith (allowed : DataError → Prop) (action : EStateM Error σ α) : Prop :=
  ∀ s error next, action s = .error error next →
    ∀ fault, error.rootCause = .data fault → allowed fault

namespace FailsWith

variable {action : EStateM Error σ α} {f : α → EStateM Error σ β}

theorem of_ne_error (h : ∀ s error next, action s ≠ .error error next) :
    FailsWith allowed action :=
  fun s error next herror ↦ (h s error next herror).elim

theorem pure (a : α) : FailsWith (σ := σ) allowed (Pure.pure a) := of_ne_error nofun

theorem get : FailsWith allowed (MonadState.get : EStateM Error σ σ) :=
  of_ne_error fun _ _ _ ↦ run_get_ne_error

theorem modify (f : σ → σ) : FailsWith allowed (modifyThe σ f : EStateM Error σ PUnit) :=
  of_ne_error fun _ _ _ ↦ run_modify_ne_error

theorem throw {fault : DataError} (h : allowed fault) :
    FailsWith (σ := σ) allowed (MonadExcept.throw (.data fault) : EStateM Error σ α) := by
  intro s error next herror other hcause
  obtain ⟨rfl, -⟩ := run_throw_eq_error_iff.1 herror
  cases hcause
  exact h

theorem bind (h : FailsWith allowed action) (hmore : ∀ a, FailsWith allowed (f a)) :
    FailsWith allowed (action >>= f) := by
  intro s error next herror
  rcases run_bind_eq_error_iff.1 herror with haction | ⟨a, middle, -, hf⟩
  · exact h s error next haction
  · exact hmore a middle error next hf

theorem adaptExcept_locate (h : FailsWith allowed action) (path : Path) :
    FailsWith allowed (EStateM.adaptExcept (Error.locate path) action) := by
  intro s error next herror fault hcause
  obtain ⟨cause, haction, rfl⟩ := run_adaptExcept_eq_error_iff.1 herror
  rw [Error.rootCause_locate] at hcause
  exact h s cause next haction fault hcause

/-- What can only fail because of a stream has no faults. -/
theorem of_io (h : ∀ s error next, action s = .error error next → ∃ failure, error = .io failure) :
    FailsWith allowed action := by
  intro s error next herror fault hcause
  obtain ⟨failure, rfl⟩ := h s error next herror
  cases hcause

end FailsWith

theorem WriteM.failsWith_ofData {α : Type} {allowed : DataError → Prop}
    {result : Except DataError α} (h : ∀ fault, result = .error fault → allowed fault) :
    FailsWith allowed (WriteM.ofData result) := by
  cases result with
  | ok a => exact .pure a
  | error fault => exact .throw (h fault rfl)

theorem ReadM.failsWith_ofData {α : Type} {allowed : DataError → Prop}
    {result : Except DataError α} (h : ∀ fault, result = .error fault → allowed fault) :
    FailsWith allowed (ReadM.ofData result) := by
  cases result with
  | ok a => exact .pure a
  | error fault => exact .throw (h fault rfl)

end

/-! ## Writers -/

/-- Whether a fault can arise while something is written. -/
def DataError.IsOfWriting (fault : DataError) : Prop := fault.isOfValue ∨ fault.isConflict

theorem Blames.isOfWriting {α : Type} {result : Except DataError α}
    (h : Blames DataError.isOfValue result) :
    ∀ fault, result = .error fault → fault.IsOfWriting :=
  fun fault hfault ↦ .inl (h fault hfault)

/-- A field that cannot be packed is too large, or in conflict with a container. -/
theorem Packer.isOfWriting_of_pack {packer : Packer} {value width bits : Nat} {swap : Bool}
    {fault : DataError} (h : packer.pack value width bits swap = .error fault) :
    fault.IsOfWriting := by
  rw [pack] at h
  rcases bind_eq_error_iff.1 h with hcheck | ⟨_, -, h⟩
  · rw [Container.check] at hcheck
    split at hcheck
    · cases hcheck
      exact .inr rfl
    · split at hcheck
      · cases hcheck
        exact .inr rfl
      · cases hcheck
  · by_cases hvalue : 2 ^ bits ≤ value
    · simp only [hvalue, if_true] at h
      cases h
      exact .inl rfl
    · simp only [hvalue, if_false] at h
      split at h
      · cases h
      · split at h
        · cases h
        · split at h
          · split at h
            · cases h
            · cases h
              exact .inr rfl
          · cases h

namespace Writer

variable {allowed : DataError → Prop}

theorem failsWith_sendAll (bytes : List UInt8) : FailsWith allowed (sendAll bytes) :=
  .of_io fun _ _ _ h ↦ ⟨_, eq_of_sendAll_eq_error h⟩

theorem failsWith_flushBits : FailsWith allowed flushBits :=
  .of_io fun _ _ _ h ↦ ⟨_, eq_of_flushBits_eq_error h⟩

theorem failsWith_writeBytes (bytes : List UInt8) : FailsWith allowed (writeBytes bytes) :=
  failsWith_flushBits.bind fun _ ↦ failsWith_sendAll bytes

theorem failsWith_writeZeros (count : Nat) : FailsWith allowed (writeZeros count) := by
  rw [writeZeros, sendZeros_eq]
  exact failsWith_writeBytes _

theorem failsWith_pack (value width bits : Nat) (swap : Bool) :
    FailsWith DataError.IsOfWriting (pack value width bits swap) := by
  refine .bind .get fun writer ↦ ?_
  cases hpack : writer.packer.pack value width bits swap with
  | error fault => exact .throw (Packer.isOfWriting_of_pack hpack)
  | ok result =>
    dsimp only
    split
    · exact .modify _
    · exact .bind (.modify _) fun _ ↦ (failsWith_sendAll _).bind fun _ ↦ .modify _

end Writer

/-! ## Operations -/

namespace Operation

open DataError (IsOfWriting)

theorem failsWith_encodeText (encoding : Encoding) (size : TextSize LengthSource) (value : Value) :
    FailsWith IsOfWriting (encodeText encoding size value) := by
  cases value with
  | text content =>
    rw [encodeText, pure_bind]
    refine (WriteM.failsWith_ofData (encoding.blames_encode content).isOfWriting).bind
      fun bytes ↦ ?_
    cases size with
    | nullTerminated =>
      dsimp only
      split
      · exact .throw (.inl rfl)
      · exact (Writer.failsWith_writeBytes bytes).bind fun _ ↦ Writer.failsWith_writeZeros 1
    | sized policy =>
      refine (WriteM.failsWith_ofData (blames_textSlots _ _ _).isOfWriting).bind fun slots ↦ ?_
      split
      · exact .throw (.inl rfl)
      · exact (Writer.failsWith_writeBytes bytes).bind fun _ ↦ Writer.failsWith_writeZeros _
  | _ => exact .throw (.inl rfl)

theorem failsWith_forItems {action : Nat → Value → WriteM Unit}
    (h : ∀ position item, FailsWith IsOfWriting (action position item)) (position : Nat)
    (items : List Value) : FailsWith IsOfWriting (forItems action position items) := by
  induction items generalizing position with
  | nil => exact .pure ()
  | cons item items ih => exact (h position item).bind fun _ ↦ ih (position + 1)

theorem failsWith_encode_list {element : Operation} {policy : SizePolicy LengthSource}
    {default? : Option Value}
    (h : ∀ traversal item, FailsWith IsOfWriting (element.encode traversal item))
    (traversal : Traversal Members) (value : Value) :
    FailsWith IsOfWriting (Operation.encode traversal value (.list element policy default?)) := by
  cases value with
  | list items =>
    rw [Operation.encode, pure_bind]
    refine (WriteM.failsWith_ofData (blames_freeSlots? _ _ _).isOfWriting).bind fun free ↦ ?_
    have hitems : ∀ position more, FailsWith IsOfWriting (forItems (encodeItem traversal element)
        position more) :=
      failsWith_forItems fun position item ↦ (h _ item).adaptExcept_locate _
    refine .bind (hitems 0 items) fun _ ↦ ?_
    cases free with
    | none => exact .pure ()
    | some slots =>
      dsimp only
      rw [forCopies_eq]
      exact hitems _ _
  | _ =>
    rw [Operation.encode]
    · exact .throw (.inl rfl)
    · rintro _ ⟨⟩

end Operation

/-! ## Descriptors -/

open DataError (IsOfWriting)

theorem Flavor.failsWith_ofScalar (kind : ScalarKind) (byteOrder : ByteOrder) (flavor : Flavor)
    (traversal : Traversal Members) (value : Value) :
    FailsWith IsOfWriting ((Operation.ofScalar kind byteOrder flavor).encode traversal value) := by
  rw [Operation.ofScalar, Operation.encode]
  exact (WriteM.failsWith_ofData (flavor.blames_encode kind value).isOfWriting).bind
    fun raw ↦ Writer.failsWith_writeBytes _

/-- A length can be written into any field that carries one, if it is in range. -/
theorem Descriptor.failsWith_encodeLength {descriptor : Descriptor}
    (h : descriptor.kind.carriesLength) (chain : List Enclosure) (length : Nat) :
    FailsWith IsOfWriting ((descriptor.operation chain).encodeLength length) := by
  obtain ⟨kind, byteOrder, hasFixedSize, minSize⟩ := descriptor
  cases kind with
  | scalar kind =>
    change FailsWith IsOfWriting (Operation.encodeLength length (.scalar ..))
    rw [Operation.encodeLength]
    exact (WriteM.failsWith_ofData (Value.blames_integerToRaw _ _).isOfWriting).bind
      fun raw ↦ Writer.failsWith_writeBytes _
  | bits content repr width container =>
    change FailsWith IsOfWriting (Operation.encodeLength length (.bits ..))
    rw [Operation.encodeLength]
    exact (WriteM.failsWith_ofData (blames_bitsOf _ _ _).isOfWriting).bind
      fun bits ↦ Writer.failsWith_pack _ _ _ _
  | _ => cases h

theorem FieldDescriptor.failsWith_encodeAll {typeName : String}
    {fields rest : List FieldDescriptor} {chain : List Enclosure}
    (hcarriers : ∀ field ∈ rest, field.lengthOf.isSome → field.descriptor.kind.carriesLength)
    (hfields : ∀ field ∈ rest, field.serialize → ∀ chain traversal value,
      FailsWith IsOfWriting ((field.descriptor.operation chain).encode traversal value))
    (traversal : Traversal Members) (members : Members) :
    FailsWith IsOfWriting (FieldPlan.encodeAll traversal members
      ((rest.filter FieldDescriptor.serialize).map (plan typeName fields chain))) := by
  induction rest with
  | nil => exact .pure ()
  | cons field rest ih =>
    obtain ⟨hcarrier, hcarriers⟩ := List.forall_mem_cons.1 hcarriers
    obtain ⟨hfield, hfields⟩ := List.forall_mem_cons.1 hfields
    have hmore := ih hcarriers hfields
    cases hserialize : field.serialize with
    | false =>
      rw [List.filter_cons_of_neg (by simp [hserialize])]
      exact hmore
    | true =>
      rw [List.filter_cons_of_pos hserialize, List.map_cons, plan, FieldPlan.encodeAll]
      refine .bind (FailsWith.adaptExcept_locate ?_ _) fun _ ↦ hmore
      have hpad : FailsWith IsOfWriting (if field.padAfter then Writer.flushBits else pure ()) := by
        split
        · exact Writer.failsWith_flushBits
        · exact .pure ()
      cases hfeed : field.lengthOf.bind (feedOf (demandsAll typeName fields fields)) with
      | none =>
        dsimp only
        cases members.find? field.name with
        | none => exact .throw (.inl rfl)
        | some value => exact (hfield hserialize _ _ value).bind fun _ ↦ hpad
      | some feed =>
        dsimp only
        cases hmeasured : feed.measured members with
        | error fault =>
          rintro writer error next ⟨⟩ _ ⟨⟩
          exact .inl (LengthFeed.isOfValue_of_measured hmeasured)
        | ok length =>
          have hcarries : field.lengthOf.isSome := by
            obtain ⟨key, hkey, -⟩ := Option.bind_eq_some_iff.1 hfeed
            rw [hkey]
            rfl
          exact (Descriptor.failsWith_encodeLength (hcarrier hcarries) _ length).bind
            fun _ ↦ hpad

/-- What goes wrong while a value is written lies in the value or in a container. -/
theorem Descriptor.failsWith_encode {descriptor : Descriptor}
    (hcoherent : descriptor.Everywhere Coherent)
    (hcodec : descriptor.Everywhere fun inner ↦ inner.isCodec = false) (chain : List Enclosure)
    (traversal : Traversal Members) (value : Value) :
    FailsWith IsOfWriting ((descriptor.operation chain).encode traversal value) := by
  induction descriptor using Descriptor.induction generalizing chain traversal value with
  | step descriptor ihelement ihfields =>
    obtain ⟨kind, byteOrder, hasFixedSize, minSize⟩ := descriptor
    cases kind with
    | scalar kind => exact Flavor.failsWith_ofScalar kind byteOrder .native traversal value
    | boolean repr => exact Flavor.failsWith_ofScalar _ byteOrder .boolean traversal value
    | enum repr type => exact Flavor.failsWith_ofScalar _ byteOrder .enum traversal value
    | bits content repr width container =>
      change FailsWith IsOfWriting (Operation.encode traversal value (.bits ..))
      rw [Operation.encode]
      split
      · exact Writer.failsWith_flushBits
      · exact (WriteM.failsWith_ofData (Flavor.blames_encodeBits _ _ _ _).isOfWriting).bind
          fun bits ↦ Writer.failsWith_pack _ _ _ _
    | text encoding size => exact Operation.failsWith_encodeText encoding _ value
    | list element size =>
      exact Operation.failsWith_encode_list (fun traversal item ↦ ihelement element rfl
        (hcoherent.of_element rfl) (hcodec.of_element rfl) [] traversal item) traversal value
    | record name fields =>
      have hfields := hcoherent.here.1
      rw [operation_record hfields.names, Operation.encode]
      refine (WriteM.failsWith_ofData value.blames_members.isOfWriting).bind fun members ↦ ?_
      rw [RecordPlan.encode]
      exact Writer.failsWith_flushBits.bind fun _ ↦
        (FieldDescriptor.failsWith_encodeAll hfields.carriers (fun field hmem _ ↦
          ihfields field hmem (hcoherent.of_field hmem) (hcodec.of_field hmem)) _ members).bind
          fun _ ↦ Writer.failsWith_flushBits
    | custom codec context => cases hcodec.here

/-! ## Schemas -/

namespace Schema

variable {layout : Layout} {schema : Schema} {value : Value} {sink sink' : Sink} {error : Error}
  {fault : DataError}

/-- What goes wrong while a value is written lies in the value or in a container. -/
theorem isOfWriting_of_serialize (h : ofLayout layout = .ok schema) (hcodec : ¬ layout.UsesCodec)
    (hserialize : schema.serialize value sink = (.error error, sink'))
    (hcause : error.rootCause = .data fault) : fault.IsOfWriting := by
  obtain ⟨hdescribe, hplan⟩ := ofLayout_eq_ok h
  obtain ⟨-, hroot, -, -⟩ := Plan.ofDescriptor_eq_ok_iff.1 hplan
  have hencode := Descriptor.failsWith_encode (Layout.describe_coherent hdescribe)
    (Layout.everywhere_isCodec_eq_false hdescribe hcodec) [] {} value
  rw [hroot, Operation.encode] at hencode
  rw [serialize, rootMembers] at hserialize
  cases hmembers : value.members with
  | error own =>
    rw [hmembers] at hserialize
    cases hserialize
    cases hcause
    exact value.blames_members.isOfWriting _ hmembers
  | ok members =>
    rw [hmembers] at hserialize hencode
    have hwrite : FailsWith IsOfWriting (schema.write members) :=
      FailsWith.bind hencode fun _ ↦ Writer.failsWith_flushBits.bind fun _ ↦ .bind .get fun _ ↦
        .pure _
    dsimp only [Except.mapError] at hserialize
    cases hwritten : schema.write members { sink := sink } with
    | ok written writer =>
      rw [hwritten] at hserialize
      cases hserialize
    | error failure writer =>
      rw [hwritten] at hserialize
      cases hserialize
      exact hwrite _ _ _ hwritten fault hcause

end Schema

end WireFormat
