import WireFormat.Proofs.Conflict.Clash
import WireFormat.Proofs.Conflict.Operations
import WireFormat.Proofs.Format.Restore
import WireFormat.Proofs.Layout.Elements

/-!
# Conflicts of schemas

Whether bit fields can meet in a container in spite of their byte orders is checked with a layout,
run by run.  So a conflict is left only where a container outlives its run.

* `Descriptor.isCalm` — nothing conflicts without an excuse, whatever is written or read;
* `Schema.clashes_of_conflicts` — a schema with a conflict has a record with a clash;
* `Schema.opposed` — a schema that has one.
-/

namespace WireFormat

/-- What agrees with the containers at hand is written and read without a conflict. -/
structure Descriptor.IsCalm (clash : Prop) (descriptor : Descriptor) : Prop where
  encode : ∀ P, descriptor.Agrees clash P → ∀ chain traversal value,
    Calm clash P ((descriptor.operation chain).encode traversal value) (descriptor.After P)
  decode : ∀ P, descriptor.Agrees clash P → ∀ chain traversal,
    Calm clash P ((descriptor.operation chain).decode traversal) (descriptor.After P)

section Descriptor

variable {clash : Prop} {P : Outline → Prop} {descriptor : Descriptor}

theorem Descriptor.agrees_of_bitWidth?_eq_none (h : descriptor.bitWidth? = none) :
    descriptor.Agrees clash P :=
  fun _ _ _ hpacks ↦ (not_packs_of_bitWidth?_eq_none h hpacks).elim

theorem Descriptor.Agrees.imp {other : Prop} (h : descriptor.Agrees clash P)
    (himp : clash → other) : descriptor.Agrees other P :=
  fun container width swap hpacks ↦ (h container width swap hpacks).imp_right
    fun hagree outline houtline hwidth hle ↦ (hagree outline houtline hwidth hle).imp_right himp

/-! ## Lists -/

/-- A list ends the container if it has slots. -/
theorem Operation.calm_encode_list {element : Operation} {policy : SizePolicy LengthSource}
    {default? : Option Value} (hslots : policy.slots? ≠ some 0)
    (h : ∀ traversal item R, Calm clash R (element.encode traversal item) Idle)
    (traversal : Traversal Members) (value : Value) :
    Calm clash P (Operation.encode traversal value (.list element policy default?))
      (if policy.slots?.isSome then Idle else P) := by
  cases value with
  | list items =>
    cases hfree : freeSlots? policy default? items.length with
    | error fault =>
      rw [Operation.encode, pure_bind]
      dsimp only
      rw [hfree]
      exact .throw (Error.excused_data ((blames_freeSlots? _ _ _).harmless fault hfree))
    | ok free =>
      have hfilled := SizePolicy.filled?_of_freeSlots? hfree
      rw [encode_list hfilled]
      refine (calm_forItems (fun position item R ↦
        (h _ item R).adaptExcept_locate _) 0 _).imp fun outline houtline ↦ ?_
      split at houtline
      · next hnil =>
        cases hpolicy : policy.slots? with
        | none => exact houtline
        | some slots =>
          have hlength := (SizePolicy.filled?_eq_some hpolicy hfilled).2.2
          rw [hnil] at hlength
          exact (hslots (hpolicy.trans (congrArg some hlength.symm))).elim
      · cases houtline
  | _ =>
    rw [Operation.encode]
    · exact .throw (Error.excused_data rfl)
    · rintro _ ⟨⟩

theorem Operation.calm_decode_list {element : Operation} {policy : SizePolicy String}
    {f : String → LengthSource} {default? : Option Value} (hslots : policy.slots? ≠ some 0)
    (h : ∀ traversal R, Calm clash R (element.decode traversal) Idle)
    (traversal : Traversal Members) :
    Calm clash P (Operation.decode traversal (.list element (policy.map f) default?))
      (if policy.slots?.isSome then Idle else P) := by
  rw [Operation.decode]
  refine ReadM.calm_ofData_bind (traversal.harmless_extent _) ?_
  rintro ⟨kept, count⟩ hextent
  refine Calm.bind ((calm_decodeItems (fun position R ↦
    (h _ R).adaptExcept_locate _) kept 0 [] count).imp ?_) fun _ ↦ .pure _
  intro outline houtline
  split at houtline
  · next hcount =>
    obtain ⟨-, ⟨rfl, -⟩ | ⟨⟨key, rfl⟩, -⟩ | ⟨key, rfl, -⟩⟩ := Traversal.extent_map_eq_ok hextent
    · exact (hslots (congrArg some hcount)).elim
    · exact houtline
    · exact (hslots (congrArg some hcount)).elim
  · cases houtline

/-! ## Fields -/

/-- A length is written without a conflict into what agrees with the container at hand. -/
theorem Descriptor.calm_encodeLength (hagrees : descriptor.Agrees clash P)
    (chain : List Enclosure) (length : Nat) :
    Calm clash P ((descriptor.operation chain).encodeLength length) (descriptor.After P) := by
  obtain ⟨kind, byteOrder, hasFixedSize, minSize⟩ := descriptor
  cases kind with
  | scalar kind | boolean repr | enum repr type =>
    change Calm clash P (Operation.encodeLength length (.scalar ..)) Idle
    rw [Operation.encodeLength]
    exact WriteM.calm_ofData_bind (Value.blames_integerToRaw _ _).harmless fun raw _ ↦
      Writer.calm_writeBytes _
  | bits content repr width container =>
    change Calm clash P (Operation.encodeLength length (.bits ..)) _
    rw [Operation.encodeLength]
    refine WriteM.calm_ofData_bind (blames_bitsOf _ _ _).harmless fun bits hbits ↦ ?_
    have hwidth : width ≠ 0 := by
      rintro rfl
      exact bitsOf_ne_ok_of_zero hbits
    obtain ⟨hcheck, hagree⟩ := hagrees container width _ ⟨⟨content, repr, rfl⟩, hwidth, rfl⟩
    rw [After]
    dsimp only
    rw [if_neg hwidth]
    exact Writer.calm_pack hcheck hwidth hagree
  | _ => exact .throw (Error.excused_data rfl)

end Descriptor

namespace FieldDescriptor

variable {clash : Prop} {fields done rest : List FieldDescriptor}
  {field : FieldDescriptor} {last : Runs}

/-- What is left before the padding of a field is left after it, unless the padding ends it. -/
theorem calm_padding {α : Type} {action : ReadM α} {Q : Outline → Prop}
    (hserialize : field.serialize) (h : Calm clash (Pending (done ++ [field])) action Q) :
    Calm clash (field.descriptor.After (Pending done))
      (if field.padAfter then do Reader.resetBits; action else action) Q := by
  cases hpad : field.padAfter with
  | true => exact Reader.calm_resetBits.bind fun _ ↦ h.of_idle
  | false => exact h.of_imp fun outline hleft ↦ pending_of_after hserialize hpad hleft

theorem calm_padding_flush (hserialize : field.serialize) :
    Calm clash (field.descriptor.After (Pending done))
      (if field.padAfter then Writer.flushBits else pure ()) (Pending (done ++ [field])) := by
  cases hpad : field.padAfter with
  | true => exact Writer.calm_flushBits.imp fun _ ↦ False.elim
  | false => exact (Calm.pure ()).imp fun outline hleft ↦ pending_of_after hserialize hpad hleft

/-- The fields of a record are written without a conflict. -/
theorem calm_encodeAll (typeName : String) (hsplit : fields = done ++ rest)
    (hruns : Runs.Follows {} fields last) (hclash : Clashes fields → clash)
    (hrest : ∀ field ∈ rest, field.serialize → field.descriptor.IsCalm clash)
    (chain : List Enclosure) (traversal : Traversal Members) (members : Members) :
    Calm clash (Pending done) (FieldPlan.encodeAll traversal members
      ((rest.filter FieldDescriptor.serialize).map (plan typeName fields chain)))
      (Pending fields) := by
  induction rest generalizing done with
  | nil =>
    rw [hsplit, List.append_nil]
    exact .pure ()
  | cons field rest ih =>
    obtain ⟨hfield, hrest⟩ := List.forall_mem_cons.1 hrest
    have hmore := ih (show fields = (done ++ [field]) ++ rest by simp [hsplit]) hrest
    cases hserialize : field.serialize with
    | false =>
      rw [List.filter_cons_of_neg (by simp [hserialize])]
      exact hmore.of_imp fun outline h ↦ h.append fun hother ↦ by simp [hserialize] at hother
    | true =>
      rw [List.filter_cons_of_pos hserialize, List.map_cons, plan, FieldPlan.encodeAll]
      have hagrees : field.descriptor.Agrees clash (Pending done) :=
        (agrees (hsplit ▸ hruns) hserialize).imp (hsplit ▸ hclash)
      refine Calm.bind (Calm.adaptExcept_locate ?_ _) fun _ ↦ hmore
      cases hfeed : field.lengthOf.bind (feedOf (demandsAll typeName fields fields)) with
      | none =>
        dsimp only
        cases hfind : members.find? field.name with
        | none => exact .throw (Error.excused_data rfl)
        | some value =>
          exact ((hfield hserialize).encode _ hagrees _ _ value).bind fun _ ↦
            calm_padding_flush hserialize
      | some feed =>
        dsimp only
        cases hmeasured : feed.measured members with
        | error fault =>
          exact .throw (Error.excused_locate
            (Error.excused_data (DataError.isConflict_eq_false
              (.inl (LengthFeed.isOfValue_of_measured hmeasured)))))
        | ok length =>
          exact (Descriptor.calm_encodeLength hagrees _ length).bind fun _ ↦
            calm_padding_flush hserialize

/-- The fields of a record are read without a conflict. -/
theorem calm_decodeAll (typeName : String) (hsplit : fields = done ++ rest)
    (hruns : Runs.Follows {} fields last) (hclash : Clashes fields → clash)
    (hrest : ∀ field ∈ rest, field.serialize → field.descriptor.IsCalm clash)
    (chain : List Enclosure) (traversal : Traversal Members) :
    Calm clash (Pending done) (FieldPlan.decodeAll traversal
      ((rest.filter FieldDescriptor.serialize).map (plan typeName fields chain)))
      (Pending fields) := by
  induction rest generalizing done traversal with
  | nil =>
    rw [hsplit, List.append_nil]
    exact .pure _
  | cons field rest ih =>
    obtain ⟨hfield, hrest⟩ := List.forall_mem_cons.1 hrest
    have hmore := ih (show fields = (done ++ [field]) ++ rest by simp [hsplit]) hrest
    cases hserialize : field.serialize with
    | false =>
      rw [List.filter_cons_of_neg (by simp [hserialize])]
      exact (hmore traversal).of_imp fun outline h ↦
        h.append fun hother ↦ by simp [hserialize] at hother
    | true =>
      rw [List.filter_cons_of_pos hserialize, List.map_cons, plan, FieldPlan.decodeAll]
      have hagrees : field.descriptor.Agrees clash (Pending done) :=
        (agrees (hsplit ▸ hruns) hserialize).imp (hsplit ▸ hclash)
      refine Calm.bind (Calm.adaptExcept_locate
        (((hfield hserialize).decode _ hagrees _ _).bind fun value ↦
          ReadM.calm_ofData (FieldPlan.harmless_keep _ _ _ _)) _) fun inner ↦
            calm_padding hserialize (hmore inner)

end FieldDescriptor

/-! ## Descriptors -/

namespace Descriptor

variable {clash : Prop} {byteOrder : ByteOrder} {hasFixedSize : Bool} {minSize : UInt64}

theorem isCalm_bits {content : BitContent} {repr : IntegerKind} {width container : Nat} :
    IsCalm clash ⟨.bits content repr width container, byteOrder, hasFixedSize, minSize⟩ := by
  refine ⟨fun P hagrees chain traversal value ↦ ?_, fun P hagrees chain traversal ↦ ?_⟩
  · change Calm clash P (Operation.encode traversal value (.bits ..)) (if width = 0 then _ else _)
    rw [Operation.encode]
    split
    · exact Writer.calm_flushBits
    · next hwidth =>
      obtain ⟨hcheck, hagree⟩ := hagrees container width _ ⟨⟨content, repr, rfl⟩, hwidth, rfl⟩
      exact WriteM.calm_ofData_bind (Flavor.blames_encodeBits _ _ _ _).harmless fun bits _ ↦
        Writer.calm_pack hcheck hwidth hagree
  · change Calm clash P (Operation.decode traversal (.bits ..)) (if width = 0 then _ else _)
    rw [Operation.decode]
    split
    · exact Reader.calm_resetBits.bind fun _ ↦ .pure _
    · next hwidth =>
      obtain ⟨hcheck, hagree⟩ := hagrees container width _ ⟨⟨content, repr, rfl⟩, hwidth, rfl⟩
      exact (Reader.calm_unpack hcheck hwidth hagree).bind fun bits ↦
        ReadM.calm_ofData (Flavor.harmless_decodeBits _ _ _ _)

/-- A list leaves what was left before it, unless it has slots. -/
theorem after_list {element : Descriptor} {size : SizePolicy String} {P : Outline → Prop}
    (hends : element.endsContainer) :
    After ⟨.list element size, byteOrder, hasFixedSize, minSize⟩ P =
      if size.slots?.isSome then Idle else P := by
  have hown : endsContainer ⟨.list element size, byteOrder, hasFixedSize, minSize⟩ =
      (size.slots?.isSome && element.endsContainer) := rfl
  rw [after_of_bitWidth?_eq_none rfl, hown, hends, Bool.and_true]

theorem isCalm_list {element : Descriptor} {size : SizePolicy String}
    (hslots : size.slots? ≠ some 0) (hbits : element.bitWidth? = none)
    (hends : element.endsContainer) (helement : element.IsCalm clash) :
    IsCalm clash ⟨.list element size, byteOrder, hasFixedSize, minSize⟩ := by
  have hagrees (R : Outline → Prop) : element.Agrees clash R := agrees_of_bitWidth?_eq_none hbits
  have hafter (R : Outline → Prop) : element.After R = Idle := by
    rw [after_of_bitWidth?_eq_none hbits, if_pos hends]
  refine ⟨fun P _ chain traversal value ↦ ?_, fun P _ chain traversal ↦ ?_⟩
  · rw [after_list hends]
    rw [← SizePolicy.slots?_map] at hslots ⊢
    exact Operation.calm_encode_list hslots (fun traversal item R ↦ hafter R ▸
      helement.encode R (hagrees R) [] traversal item) traversal value
  · rw [after_list hends]
    exact Operation.calm_decode_list hslots (fun traversal R ↦ hafter R ▸
      helement.decode R (hagrees R) [] traversal) traversal

theorem isCalm_record {name : String} {fields : List FieldDescriptor} {last : Runs}
    (hnames : (fields.map FieldDescriptor.name).Nodup) (hruns : Runs.Follows {} fields last)
    (hclash : FieldDescriptor.Clashes fields → clash)
    (hfields : ∀ field ∈ fields, field.serialize → field.descriptor.IsCalm clash) :
    IsCalm clash ⟨.record name fields, byteOrder, hasFixedSize, minSize⟩ := by
  have hsplit : fields = [] ++ fields := rfl
  refine ⟨fun P _ chain traversal value ↦ ?_, fun P _ chain traversal ↦ ?_⟩
  · rw [operation_record hnames, Operation.encode]
    refine WriteM.calm_ofData_bind value.blames_members.harmless fun members _ ↦ ?_
    have hall := FieldDescriptor.calm_encodeAll name hsplit hruns hclash hfields chain
      (traversal.push name members) members
    rw [RecordPlan.encode]
    exact Writer.calm_flushBits.bind fun _ ↦ hall.of_idle.bind fun _ ↦ Writer.calm_flushBits
  · rw [operation_record hnames, Operation.decode, RecordPlan.decode]
    have hall := FieldDescriptor.calm_decodeAll name hsplit hruns hclash hfields chain
      (traversal.push name [])
    exact Calm.bind (Reader.calm_resetBits.bind fun _ ↦ hall.of_idle.bind fun _ ↦
      Reader.calm_resetBits.bind fun _ ↦ .pure _) fun _ ↦ .pure _

/-- What a descriptor comes to is written and read without a conflict but for clashes. -/
theorem isCalm {descriptor : Descriptor} (hcoherent : descriptor.Everywhere Coherent)
    (hwhole : descriptor.Everywhere HoldsWhole)
    (hcodec : descriptor.Everywhere fun inner ↦ inner.isCodec = false)
    (hsettled : descriptor.Settled) (hclash : descriptor.Clashes → clash) :
    descriptor.IsCalm clash := by
  induction descriptor using Descriptor.induction with
  | step descriptor ihelement ihfields =>
    have hends : ∀ element ∈ descriptor.element?, element.endsContainer := fun element hmem ↦
      endsContainer_of_mem_element? hwhole hsettled hmem
    obtain ⟨kind, byteOrder, hasFixedSize, minSize⟩ := descriptor
    cases kind with
    | scalar kind | boolean repr | enum repr type =>
      refine ⟨fun P _ chain traversal value ↦ ?_, fun P _ chain traversal ↦ ?_⟩
      · change Calm clash P (Operation.encode traversal value (.scalar ..)) Idle
        rw [Operation.encode]
        exact WriteM.calm_ofData_bind (Flavor.blames_encode _ _ _).harmless fun raw _ ↦
          Writer.calm_writeBytes _
      · change Calm clash P (Operation.decode traversal (.scalar ..)) Idle
        rw [Operation.decode]
        exact (Reader.calm_readRaw _ _).bind fun raw ↦
          ReadM.calm_ofData (Flavor.blames_decode _ _ _).harmless_of_bytes
    | bits content repr width container => exact isCalm_bits
    | text encoding size =>
      refine ⟨fun P _ chain traversal value ↦ ?_, fun P _ chain traversal ↦ ?_⟩
      · exact Operation.calm_encodeText encoding _ value
      · change Calm clash P (Operation.decode traversal (.text ..)) Idle
        rw [Operation.decode]
        exact (Operation.calm_decodeTextBytes traversal encoding _).bind fun bytes ↦
          (ReadM.calm_ofData (encoding.blames_decode bytes).harmless_of_bytes).bind fun _ ↦ .pure _
    | list element size =>
      exact isCalm_list hcoherent.here.2 (hwhole.here element rfl) (hends element rfl)
        (ihelement element rfl (hcoherent.of_element rfl) (hwhole.of_element rfl)
          (hcodec.of_element rfl) (settled_list_iff.1 hsettled).1 fun h ↦ hclash (.element rfl h))
    | record name fields =>
      obtain ⟨hfields, last, hruns, -⟩ := hcoherent.here
      exact isCalm_record hfields.names hruns (fun h ↦ hclash (.here h))
        fun field hmem hserialize ↦ ihfields field hmem (hcoherent.of_field hmem)
          (hwhole.of_field hmem) (hcodec.of_field hmem)
          ((settled_record_iff.1 hsettled).1 field hmem hserialize)
          fun h ↦ hclash (.field hmem hserialize h)
    | custom codec context => cases hcodec.here

end Descriptor

/-! ## Schemas -/

namespace Schema

variable {layout : Layout} {schema : Schema} {clash : Prop} {fault : DataError}

theorem excused_of_serialize {value : Value} {sink sink' : Sink} {error : Error}
    (hcalm : schema.descriptor.IsCalm clash)
    (hroot : schema.descriptor.operation [] = .record schema.plan.root)
    (h : schema.serialize value sink = (.error error, sink')) : error.Excused clash := by
  have hencode := hcalm.encode Idle
    (Descriptor.agrees_of_bitWidth?_eq_none (Descriptor.bitWidth?_eq_none_of_record hroot)) [] {}
    value
  rw [hroot, Operation.encode] at hencode
  rw [serialize, rootMembers] at h
  cases hmembers : value.members with
  | error fault =>
    rw [hmembers] at h
    cases h
    exact Error.excused_data (value.blames_members.harmless fault hmembers)
  | ok members =>
    rw [hmembers] at h hencode
    have hwrite : Calm clash Idle (schema.write members) Idle :=
      hencode.bind fun _ ↦ Writer.calm_flushBits.bind fun _ ↦ .bind .get fun _ ↦ .pure _
    have hstart : Leaves Idle { sink := sink : Writer } := Writer.leaves_of_active_eq_none rfl
    dsimp only [Except.mapError] at h
    split at h
    · cases h
    · next failure writer hfailure =>
      cases h
      exact (hwrite _ hstart).2 _ _ hfailure

theorem excused_of_deserialize {bytes rest : List UInt8} {error : Error}
    (hcalm : schema.descriptor.IsCalm clash)
    (hroot : schema.descriptor.operation [] = .record schema.plan.root)
    (h : schema.deserialize bytes = (.error error, rest)) : error.Excused clash := by
  have hdecode := hcalm.decode Idle
    (Descriptor.agrees_of_bitWidth?_eq_none (Descriptor.bitWidth?_eq_none_of_record hroot)) [] {}
  have hstart : Leaves Idle { source := bytes : Reader } := Reader.leaves_of_active_eq_none rfl
  rw [hroot, Operation.decode] at hdecode
  rw [deserialize] at h
  split at h
  · cases h
  · next failure reader hfailure =>
    cases h
    exact (hdecode _ hstart).2 _ _ (run_bind_eq_error_iff.2 (.inl hfailure))

/-- Something cannot be written or read because of a conflict between a bit field and its
container. -/
inductive Conflicts (schema : Schema) (fault : DataError) : Prop where
  | serialize {value : Value} {sink sink' : Sink} {error : Error} (conflict : fault.isConflict)
      (failure : schema.serialize value sink = (.error error, sink'))
      (rootCause : error.rootCause = .data fault) : Conflicts schema fault
  | deserialize {bytes rest : List UInt8} {error : Error} (conflict : fault.isConflict)
      (failure : schema.deserialize bytes = (.error error, rest))
      (rootCause : error.rootCause = .data fault) : Conflicts schema fault

/-- All that a bit field and its container can disagree about while something is written or read is
the order of bytes, and only in a record in which two bit fields clash. -/
theorem clashes_of_conflicts (h : ofLayout layout = .ok schema) (hcodec : ¬ layout.UsesCodec)
    (hconflict : schema.Conflicts fault) :
    fault = .containerSwapMismatch ∧ schema.descriptor.Clashes := by
  obtain ⟨hdescribe, hplan⟩ := ofLayout_eq_ok h
  obtain ⟨⟨hsettled, -⟩, hroot, -, -⟩ := Plan.ofDescriptor_eq_ok_iff.1 hplan
  have hcalm : schema.descriptor.IsCalm schema.descriptor.Clashes :=
    Descriptor.isCalm (Layout.describe_coherent hdescribe) (Layout.everywhere_holdsWhole hdescribe)
      (Layout.everywhere_isCodec_eq_false hdescribe hcodec) hsettled id
  cases hconflict with
  | serialize conflict failure rootCause =>
    exact excused_of_serialize hcalm hroot failure fault rootCause conflict
  | deserialize conflict failure rootCause =>
    exact excused_of_deserialize hcalm hroot failure fault rootCause conflict

end Schema

/-- Two bit fields of opposite byte orders, and a list between them. -/
def Layout.opposed : Layout where
  name := "Opposed"
  fields := [
    { name := "count", order := some 0, shape := .scalar (.integer .u8), lengthOf := some "items" },
    { name := "low", order := some 1, shape := .scalar (.integer .u16), bitWidth := some 4 },
    { name := "items", order := some 2, shape := .list ⟨.scalar (.integer .u8), none⟩
      tag := some (.list { lengthKey := some "items" }) },
    { name := "high", order := some 3, shape := .scalar (.integer .u16), byteOrder := some .big
      bitWidth := some 4 }]

/-- The descriptor of two bit fields of opposite byte orders, and a list between them. -/
def Descriptor.opposed : Descriptor where
  kind := .record "Opposed" [
    ⟨"count", 0, .ofFixed (.scalar (.integer .u8)) .little 1, true, some "items", false⟩,
    ⟨"low", 1, ⟨.bits .integer .u16 4 2, .little, true, 0⟩, true, none, false⟩,
    ⟨"items", 2, ⟨.list (.ofFixed (.scalar (.integer .u8)) .little 1) (.keyed "items"), .little,
      false, 0⟩, true, none, false⟩,
    ⟨"high", 3, ⟨.bits .integer .u16 4 2, .big, true, 0⟩, true, none, false⟩]
  byteOrder := .little
  hasFixedSize := false
  minSize := 5

theorem Layout.describe_opposed : Layout.opposed.describe = .ok Descriptor.opposed := by
  cbv

theorem Layout.not_usesCodec_opposed : ¬ opposed.UsesCodec := by decide

/-- The schema of two bit fields of opposite byte orders, and a list between them. -/
def Schema.opposed : Schema where
  name := "Opposed"
  descriptor := .opposed
  plan := {
    root := {
      name := "Opposed"
      fields := [
        ⟨"count", .scalar (.integer .u8) false .native, some "items", some ⟨["items"], .elements⟩,
          false⟩,
        ⟨"low", .bits .u16 4 2 false .native, none, none, false⟩,
        ⟨"items", .list (.scalar (.integer .u8) false .native) (.keyed ⟨"items", 0⟩)
          (some (.zero (.integer .u8))), none, none, false⟩,
        ⟨"high", .bits .u16 4 2 true .native, none, none, false⟩]
      skipped := [] }
    hasFixedSize := false
    minSize := 5 }

theorem Schema.ofLayout_opposed : ofLayout .opposed = .ok .opposed := by
  rw [ofLayout, Layout.describe_opposed]
  rfl

/-- Two bit fields of opposite byte orders, and an empty list between them. -/
def Value.opposed : Value :=
  .record [("count", .integer .u8 0), ("high", .integer .u16 2), ("items", .list []),
    ("low", .integer .u16 1)]

/-- Around a list, bit fields of opposite byte orders are let through, and clash. -/
theorem Schema.opposed_clashes : Schema.opposed.Conflicts .containerSwapMismatch ∧
    Schema.opposed.descriptor.Clashes :=
  have hconflict : Schema.opposed.Conflicts .containerSwapMismatch :=
    .deserialize rfl (show Schema.opposed.deserialize [0, 1, 0, 0, 2] = _ from rfl) rfl
  ⟨hconflict, (clashes_of_conflicts ofLayout_opposed Layout.not_usesCodec_opposed hconflict).2⟩

/-- Around an empty list the bit fields meet in one container.  The value cannot be written, and the
bytes that it would have taken cannot be read. -/
theorem Schema.opposed_serialize : ofLayout .opposed = .ok .opposed ∧ ¬ Layout.opposed.UsesCodec ∧
    Schema.opposed.serialize .opposed {} =
      (.error (.located [.member "high"] (.data .containerSwapMismatch)), ⟨#[0], none⟩) ∧
    Schema.opposed.deserialize [0, 1, 0, 0, 2] =
      (.error (.located [.member "high"] (.data .containerSwapMismatch)), [0, 2]) :=
  ⟨ofLayout_opposed, Layout.not_usesCodec_opposed, rfl, rfl⟩

end WireFormat
