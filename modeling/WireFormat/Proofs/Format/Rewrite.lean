import WireFormat.Proofs.Format.Members
import WireFormat.Proofs.Format.Restore
import WireFormat.Proofs.Value.Ranges

/-!
# What is read can be written again

A record is restored field by field.  The lengths in it are those that its lists and texts were read
with, so that the same lengths are written again, and the fields that are not on the wire have been
given their defaults.

* `FieldDescriptor.Kept` — a field that has been read is written again in the record around it;
* `Descriptor.isRestored` — what is read can be written and is read back as itself;
* `Schema.exists_toBytes_of_deserialize` — so a value that has been read survives being written.
-/

namespace WireFormat

variable {reader next : Reader} {traversal outer : Traversal Members} {value : Value}
  {chain : List Enclosure} {byteOrder : ByteOrder} {hasFixedSize : Bool} {minSize : UInt64}

/-! ## Fields that carry lengths -/

/-- A number that a field has been read as is written as a length in the same way. -/
theorem Descriptor.writesLength_of_writes {descriptor : Descriptor} {length : Nat}
    {moves : List Move} (hcarries : descriptor.kind.carriesLength)
    (hwide : ∀ repr container swap flavor,
      descriptor.operation chain ≠ .bits repr 0 container swap flavor)
    (h : descriptor.Writes value moves) (hvalue : value.toInteger? = some (length : Int)) :
    descriptor.kind.lengthValue? length = some value ∧
      descriptor.kind.WritesLength descriptor.byteOrder length moves := by
  have hpattern : ∀ {own : IntegerKind} {pattern : BitVec own.bits},
      own.read pattern = (length : Int) →
        some (Value.integer own (BitVec.ofNat own.bits length)) = some (.integer own pattern) := by
    intro own pattern hread
    rw [← BitVec.ofInt_natCast, ← hread, IntegerKind.ofInt_read]
  obtain ⟨kind, byteOrder, hasFixedSize, minSize⟩ := descriptor
  cases kind with
  | scalar kind =>
    cases kind with
    | integer own =>
      obtain ⟨raw, hraw, rfl⟩ := h
      obtain _ | ⟨_, pattern⟩ := Value.exists_toRaw_iff.1 ⟨raw, hraw⟩
      have hread : own.read pattern = (length : Int) := Option.some.inj hvalue
      refine ⟨hpattern hread, raw, ?_, rfl⟩
      rw [← hread, Value.integerToRaw_read]
      exact (Value.toRaw_integer own pattern).symm.trans hraw
    | _ => cases hcarries
  | bits content own width container =>
    cases content with
    | integer =>
      change if width = 0 then _ else _ at h
      split at h
      · next hzero =>
        subst hzero
        exact (hwide _ _ _ _ rfl).elim
      · obtain ⟨bits, hbits, rfl⟩ := h
        obtain ⟨number, hnumber, -⟩ := bind_eq_ok_iff.1 hbits
        obtain ⟨pattern⟩ := Flavor.numberOf_eq_ok_iff.1 hnumber
        have hread : own.read pattern = (length : Int) := Option.some.inj hvalue
        refine ⟨hpattern hread, bits, ?_, rfl⟩
        rw [← hread, ← Flavor.encodeBits_integer]
        exact hbits
    | _ => cases hcarries
  | _ => cases hcarries

/-! ## Records -/

/-- Where a reader ends the container after a field, so does a writer. -/
theorem Reader.leads_padded (padAfter : Bool) (reader : Reader) :
    reader.Leads (FieldDescriptor.padding padAfter) (reader.padded padAfter) := by
  cases padAfter with
  | false => exact .refl reader
  | true => exact .of_active_eq_none rfl []

namespace FieldDescriptor

variable {name : String} {fields rest : List FieldDescriptor} {pairs : List (String × Value)}

/-- A field that has been read has been restored. -/
def IsRestored (field : FieldDescriptor) (value : Value) (reader next : Reader) : Prop :=
  ∃ own, field.descriptor.Restored reader value next own

/-- A field that has been found is normal, and makes its moves, in the record that has been read. -/
structure Kept (demands : List Demand) (members : Members) (field : FieldDescriptor)
    (value : Value) (reader next : Reader) : Prop where
  normal : normalizeOwn? demands members field.name field.descriptor.kind field.lengthOf
    field.descriptor.normalize = some value
  writes : ∃ own, WritesOwn demands members field.name field.descriptor field.lengthOf
    field.descriptor.Writes own ∧ reader.Leads own next

theorem FoundAll.normalizeAll_eq {demands : List Demand} {members : Members}
    (h : FoundAll (Kept demands members) reader rest pairs next) :
    normalizeAll demands members rest = pairs := by
  induction h with
  | nil => rfl
  | skip unwritten _ ih =>
    rw [normalizeAll_cons, unwritten, ih]
    rfl
  | cons serialize here _ ih =>
    rw [normalizeAll_cons, if_pos serialize, here.normal, ih]
    rfl

theorem FoundAll.exists_writesAll {demands : List Demand} {members : Members}
    (h : FoundAll (Kept demands members) reader rest pairs next) :
    ∃ moves, WritesAll demands members rest moves ∧ reader.Leads moves next := by
  induction h with
  | nil reader => exact ⟨[], rfl, .refl reader⟩
  | skip unwritten _ ih =>
    obtain ⟨moves, hmoves, hleads⟩ := ih
    exact ⟨moves, (writesAll_cons_of_not_serialize unwritten).2 hmoves, hleads⟩
  | @cons reader middle next field rest value pairs serialize here _ ih =>
    obtain ⟨own, hown, hfirst⟩ := here.writes
    obtain ⟨moves, hmoves, hleads⟩ := ih
    exact ⟨_, (writesAll_cons_of_serialize serialize).2 ⟨own, moves, hown, hmoves, rfl⟩,
      (hfirst.trans (middle.leads_padded field.padAfter)).trans hleads⟩

/-- What has been found of the fields of a record is what they are in it. -/
theorem FoundAll.kept
    (h : FoundAll (Found IsRestored name fields chain outer pairs) reader fields pairs next)
    (hcoherent : Coherent fields)
    (htaken : ∀ field ∈ fields, ∀ key, field.carries key →
      (demandsAll name fields fields).countP (fun demand ↦ demand.key == key) = 1)
    (hlent : Descriptor.Lent ⟨.record name fields, byteOrder, hasFixedSize, minSize⟩ chain)
    (hwide : ∀ field ∈ fields, field.serialize → field.lengthOf.isSome →
      ∀ repr container swap flavor, field.descriptor.operation (⟨name, fields, field⟩ :: chain) ≠
        .bits repr 0 container swap flavor) :
    FoundAll (Kept (demandsAll name fields fields) (Members.ofList (pairs ++ skipped fields)))
      reader fields pairs next := by
  refine h.imp fun field hmem hserialize value hpair reader next hfound ↦ ?_
  have hfind := h.find?_eq hcoherent.names hpair
  obtain ⟨own, hown⟩ := hfound.holds
  cases hkey : field.lengthOf with
  | none =>
    refine ⟨?_, own, ?_, hown.leads⟩
    · rw [hkey, normalizeOwn?, hfind]
      exact congrArg some hown.normal
    · rw [hkey]
      exact ⟨value, hfind, hown.writes⟩
  | some key =>
    have hsome : field.lengthOf.isSome := Option.isSome_of_eq_some hkey
    obtain ⟨feed, length, hfeed, hcount, hinteger⟩ := h.exists_length hcoherent.names htaken hlent
      hmem (carries_iff.2 ⟨hserialize, hkey⟩) hpair
    obtain ⟨hvalue, hwrites⟩ := Descriptor.writesLength_of_writes
      (hcoherent.carriers field hmem hsome) (hwide field hmem hserialize hsome) hown.writes
      hinteger
    refine ⟨?_, own, ?_, hown.leads⟩
    · rw [hkey, normalizeOwn?, hfeed]
      change (feed.count _).bind _ = _
      rw [hcount]
      exact hvalue
    · rw [hkey]
      exact ⟨feed, length, hfeed, hcount, hwrites⟩

end FieldDescriptor

namespace Descriptor

theorem isRestored_record {name : String} {fields : List FieldDescriptor}
    (hcoherent : FieldDescriptor.Coherent fields)
    (htaken : ∀ field ∈ fields, ∀ key, field.carries key →
      (FieldDescriptor.demandsAll name fields fields).countP (fun demand ↦ demand.key == key) = 1)
    (hfields : ∀ field ∈ fields, field.serialize → field.descriptor.IsRestored) :
    IsRestored ⟨.record name fields, byteOrder, hasFixedSize, minSize⟩ := by
  intro chain traversal reader value next hlent hrewritable h
  rw [operation_record hcoherent.names] at hrewritable
  have hplan : ∀ field ∈ fields, field.serialize → FieldDescriptor.plan name fields chain field ∈
      (fields.filter FieldDescriptor.serialize).map (FieldDescriptor.plan name fields chain) :=
    fun field hmem hserialize ↦ List.mem_map_of_mem (List.mem_filter.2 ⟨hmem, hserialize⟩)
  obtain ⟨pairs, last, rfl, hfound, rfl⟩ := exists_foundAll_of_decode
    FieldDescriptor.IsRestored hcoherent.names
    (fun field hmem hserialize _ _ _ _ hdecode ↦ hfields field hmem hserialize _ _ _ _ _
      (hlent.of_field hmem hserialize) (hrewritable.of_field (hplan field hmem hserialize)) hdecode)
    h
  have hkept := hfound.kept hcoherent htaken hlent fun field hmem hserialize ↦
    hrewritable.wide _ (.here _) _ (hplan field hmem hserialize)
  obtain ⟨inner, hwrites, hleads⟩ := hkept.exists_writesAll
  refine ⟨hfound.provided hcoherent.names, .bytes [] :: inner ++ [.bytes []], ?_, ?_, ?_, ?_⟩
  · change Value.ofMembers (FieldDescriptor.normalizeAll _ _ fields ++ _) = _
    rw [hkept.normalizeAll_eq]
  · refine FieldDescriptor.nulFreeAll_iff.2 fun field hmem hserialize _ value hvalue ↦ ?_
    obtain ⟨found, _, _, hpair, ⟨own, hfield⟩, -⟩ := hfound.exists_of_mem hmem hserialize
    obtain rfl : found = value :=
      Option.some.inj ((hfound.find?_eq hcoherent.names hpair).symm.trans hvalue)
    exact hfield.nulFree
  · exact ⟨_, inner, rfl, hwrites, rfl⟩
  · exact (Reader.Leads.of_active_eq_none rfl []).trans
      (hleads.trans (.of_active_eq_none rfl []))

/-- What is read can be written and is read back as itself. -/
theorem isRestored {descriptor : Descriptor} (hcoherent : descriptor.Everywhere Coherent)
    (hcodec : descriptor.Everywhere fun inner ↦ inner.isCodec = false)
    (hwhole : descriptor.Everywhere HoldsWhole) (hsettled : descriptor.Settled) :
    descriptor.IsRestored := by
  induction descriptor using Descriptor.induction with
  | step descriptor ihelement ihfields =>
    have hends (element : Descriptor) (hmem : element ∈ descriptor.element?) :
        element.endsContainer := endsContainer_of_mem_element? hwhole hsettled hmem
    obtain ⟨kind, byteOrder, hasFixedSize, minSize⟩ := descriptor
    cases kind with
    | scalar kind =>
      exact isRestored_scalar (.inl rfl) (fun _ ↦ rfl) rfl (fun _ ↦ rfl) (fun _ ↦ trivial)
        fun _ _ ↦ id
    | boolean repr | enum repr type =>
      exact isRestored_scalar (.inr ⟨repr, rfl⟩) (fun _ ↦ rfl) rfl (fun _ ↦ rfl) (fun _ ↦ trivial)
        fun _ _ ↦ id
    | bits content repr width container => exact isRestored_bits hcoherent.here.2
    | text encoding size => exact isRestored_text
    | list element size =>
      obtain ⟨helement, hlent⟩ := settled_list_iff.1 hsettled
      exact isRestored_list (hcoherent.of_element rfl) (hcodec.of_element rfl) helement
        (lent_nil hlent) (hends element rfl) (ihelement element rfl (hcoherent.of_element rfl)
          (hcodec.of_element rfl) (hwhole.of_element rfl) helement)
    | record name fields =>
      obtain ⟨hinside, htaken⟩ := settled_record_iff.1 hsettled
      exact isRestored_record hcoherent.here.1 htaken fun field hmem hserialize ↦
        ihfields field hmem (hcoherent.of_field hmem) (hcodec.of_field hmem) (hwhole.of_field hmem)
          (hinside field hmem hserialize)
    | custom codec context => cases hcodec.here

end Descriptor

/-! ## Schemas -/

namespace Schema

variable {layout : Layout} {schema : Schema} {data rest : List UInt8}

/-- A value that has been read, from whatever bytes, can be written, and is read back from what is
written, all of it. -/
theorem exists_toBytes_of_deserialize (h : ofLayout layout = .ok schema)
    (hcodec : ¬ layout.UsesCodec)
    (hrewritable : (Operation.record schema.plan.root).Rewritable)
    (hread : schema.deserialize data = (.ok value, rest)) :
    ∃ bytes, schema.toBytes value = .ok bytes ∧ schema.deserialize bytes = (.ok value, []) := by
  obtain ⟨hdescribe, hplan⟩ := ofLayout_eq_ok h
  obtain ⟨⟨hsettled, hlent⟩, hroot, -, -⟩ := Plan.ofDescriptor_eq_ok_iff.1 hplan
  have hcoherent := Layout.describe_coherent hdescribe
  have hfree := Layout.everywhere_isCodec_eq_false hdescribe hcodec
  have hlent' := Descriptor.lent_nil hlent
  rw [← hroot] at hrewritable
  obtain ⟨next, hdecode, -⟩ := exists_decode_of_deserialize hroot hread
  obtain ⟨-, moves, hnormal, hnul, hwrites, hleads⟩ := Descriptor.isRestored hcoherent hfree
    (Layout.everywhere_holdsWhole hdescribe) hsettled _ _ _ _ _ hlent' hrewritable hdecode
  obtain ⟨last, hgoes, -⟩ := hleads none .none
  have hflush : Goes last [.bytes []] none := .bytes (.done none)
  obtain ⟨word, bytes, hemits⟩ := exists_emits_iff.2 ⟨none, hgoes.trans hflush⟩
  refine ⟨bytes, toBytes_of_emits (Descriptor.isPerformed hcoherent) hroot hwrites hemits, ?_⟩
  have hback := deserialize_of_emits (Descriptor.readsBack hcoherent hsettled) hroot hlent' hnul
    hwrites hemits []
  rwa [List.append_nil, hnormal] at hback

end Schema

/-- A count and a mark that share a byte, and as many bytes as are counted in three slots. -/
def Layout.marked : Layout where
  name := "Marked"
  fields := [
    { name := "count", order := some 0, shape := .scalar (.integer .u8), bitWidth := some 4
      lengthOf := some "items" },
    { name := "mark", order := some 1, shape := .scalar .bool, bitWidth := some 4 },
    { name := "items", order := some 2, shape := .list ⟨.scalar (.integer .u8), none⟩
      tag := some (.list { fixedLength := some 3, lengthKey := some "items" }) }]

/-- The descriptor of a count, a mark and the bytes that are counted. -/
def Descriptor.marked : Descriptor where
  kind := .record "Marked" [
    ⟨"count", 0, ⟨.bits .integer .u8 4 1, .little, true, 0⟩, true, some "items", false⟩,
    ⟨"mark", 1, ⟨.bits .boolean .i32 4 1, .little, true, 0⟩, true, none, false⟩,
    ⟨"items", 2, ⟨.list (.ofFixed (.scalar (.integer .u8)) .little 1) (.padded "items" 3), .little,
      false, 0⟩, true, none, false⟩]
  byteOrder := .little
  hasFixedSize := false
  minSize := 1

theorem Layout.describe_marked : Layout.marked.describe = .ok Descriptor.marked := by cbv

theorem Layout.not_usesCodec_marked : ¬ marked.UsesCodec := by decide

/-- The schema of a count, a mark and the bytes that are counted. -/
def Schema.marked : Schema where
  name := "Marked"
  descriptor := .marked
  plan := {
    root := {
      name := "Marked"
      fields := [
        ⟨"count", .bits .u8 4 1 false .native, some "items", some ⟨["items"], .elements⟩, false⟩,
        ⟨"mark", .bits .i32 4 1 false .boolean, none, none, false⟩,
        ⟨"items", .list (.scalar (.integer .u8) false .native) (.padded ⟨"items", 0⟩ 3)
          (some (.zero (.integer .u8))), none, none, false⟩]
      skipped := [] }
    hasFixedSize := false
    minSize := 1 }

theorem Schema.ofLayout_marked : ofLayout .marked = .ok .marked := by
  rw [ofLayout, Layout.describe_marked]
  rfl

/-- A mark that is set, and two bytes that are counted. -/
def Value.marked : Value :=
  .record [("count", .integer .u8 2), ("items", .list [.integer .u8 5, .integer .u8 6]),
    ("mark", .bool true)]

theorem Schema.rewritable_marked : (Operation.record Schema.marked.plan.root).Rewritable := by
  constructor
  · intro plan hinside field hmem _ repr container swap flavor
    cases hinside with
    | here =>
      rcases hmem with _ | ⟨_, _ | ⟨_, _ | ⟨_, ⟨⟩⟩⟩⟩ <;> nofun
    | field hfield hinside =>
      rcases hfield with _ | ⟨_, _ | ⟨_, _ | ⟨_, ⟨⟩⟩⟩⟩
      · cases hinside
      · cases hinside
      · cases hinside with
        | element hinside => cases hinside
  · intro element source slots default? hinside value hvalue
    cases hinside with
    | field hfield hinside =>
      rcases hfield with _ | ⟨_, _ | ⟨_, _ | ⟨_, ⟨⟩⟩⟩⟩
      · cases hinside
      · cases hinside
      · cases hinside with
        | here =>
          obtain rfl := Option.some.inj hvalue
          exact ⟨_, rfl⟩
        | element hinside => cases hinside

/-- Of the bits of the mark and of the third slot nothing is kept. -/
theorem Schema.marked_toBytes :
    Schema.marked.deserialize [82, 5, 6, 9, 7] = (.ok .marked, [7]) ∧
      Schema.marked.toBytes .marked = .ok [18, 5, 6, 0] ∧
      Schema.marked.deserialize [18, 5, 6, 0] = (.ok .marked, []) := by
  have hread : Schema.marked.deserialize [82, 5, 6, 9, 7] = (.ok .marked, [7]) := rfl
  obtain ⟨bytes, hbytes, hback⟩ := Schema.exists_toBytes_of_deserialize Schema.ofLayout_marked
    Layout.not_usesCodec_marked Schema.rewritable_marked hread
  obtain rfl : [18, 5, 6, 0] = bytes := Except.ok.inj ((rfl : _ = _).trans hbytes)
  exact ⟨hread, hbytes, hback⟩

end WireFormat
