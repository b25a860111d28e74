import WireFormat.Proofs.Format.Slots
import WireFormat.Proofs.Layout.Codecs
import WireFormat.Proofs.Length.Compilation
import WireFormat.Proofs.Stream.Writing
import WireFormat.Proofs.Text.Transcode

/-!
# What is written

A value that is written under the operation of a descriptor makes the moves that
`Descriptor.Writes` has for it.

* `LengthFeed.count_of_measured` — what a length field measures is what its length counts;
* `Descriptor.isWritten` — the moves of a value that has been written.
-/

namespace WireFormat

variable {writer middle next : Writer} {value : Value} {moves : List Move}

/-! ## Lengths -/

theorem Value.follow?_append (path rest : List String) (value : Value) :
    value.follow? (path ++ rest) = (value.follow? path).bind (follow? rest) := by
  induction path generalizing value with
  | nil => rfl
  | cons name path ih =>
    rw [List.cons_append, follow?, follow?, Option.bind_assoc]
    exact congrArg _ (funext ih)

theorem Measure.count_eq_some_iff {measure : Measure} {length : Nat} :
    measure.count value = some length ↔ LengthFeed.lengthOf measure value = .ok length := by
  cases measure with
  | elements => cases value <;> simp [count, LengthFeed.lengthOf]
  | bytes encoding =>
    cases value with
    | text text =>
      rw [count, LengthFeed.lengthOf, Encoding.encodedLength_eq]
      cases encoding.encode text <;> simp [Except.toOption, Except.map]
    | _ => simp [count, LengthFeed.lengthOf]

namespace LengthFeed

variable {feed : LengthFeed} {members : Members} {length : Nat}

theorem follow?_of_reach {depth : Nat} {path : List String} {inner : Members}
    (h : reach depth members path = .ok inner) :
    (Value.record members).follow? path = some (.record inner) := by
  induction path generalizing depth members with
  | nil =>
    cases h
    rfl
  | cons name path ih =>
    rw [reach] at h
    split at h
    · cases h
    · next found hfind =>
      change (members.find? name).bind _ = _
      rw [hfind]
      exact ih h
    · cases h

/-- What a length field measures is what its length counts. -/
theorem count_of_measured (hpath : feed.path ≠ []) (h : feed.measured members = .ok length) :
    feed.count (.record members) = some length := by
  rw [measured, List.getLast?_eq_some_getLast hpath] at h
  dsimp only at h
  rw [bind_eq_ok_iff] at h
  obtain ⟨inner, hreach, h⟩ := h
  cases hfind : inner.find? (feed.path.getLast hpath) with
  | none =>
    rw [hfind] at h
    cases h
  | some target =>
    rw [hfind, mapError_eq_ok_iff] at h
    have hfollow : (Value.record members).follow? feed.path = some target := by
      rw [← List.dropLast_append_getLast hpath, Value.follow?_append, follow?_of_reach hreach]
      change ((inner.find? _).bind _) = _
      rw [hfind]
      rfl
    rw [count, hfollow]
    exact Measure.count_eq_some_iff.2 h

end LengthFeed

/-! ## Texts and lists -/

theorem Operation.exists_parts_of_forItems {action : Nat → Value → WriteM Unit}
    {P : Value → List Move → Prop} {items : List Value}
    (haction : ∀ position, ∀ item writer next, action position item writer = .ok () next →
      ∃ moves, P item moves ∧ writer.Along moves next)
    {position : Nat} (h : forItems action position items writer = .ok () next) :
    ∃ parts, List.Forall₂ P items parts ∧ writer.Along parts.flatten next := by
  induction items generalizing position writer with
  | nil =>
    obtain ⟨-, rfl⟩ := run_pure_eq_ok_iff.1 h
    exact ⟨[], .nil, .refl writer⟩
  | cons item items ih =>
    rw [forItems, run_bind_eq_ok_iff] at h
    obtain ⟨_, middle, hitem, hitems⟩ := h
    obtain ⟨moves, hmoves, hfirst⟩ := haction _ _ _ _ hitem
    obtain ⟨parts, hparts, hrest⟩ := ih hitems
    exact ⟨moves :: parts, .cons hmoves hparts, hfirst.trans hrest⟩

/-- A text that is written makes its moves. -/
theorem TextSize.exists_writes_of_encodeText {encoding : Encoding} {size : TextSize String}
    {f : String → LengthSource}
    (h : Operation.encodeText encoding (size.map f) value writer = .ok () next) :
    ∃ text bytes moves, value = .text text ∧ encoding.encode text = .ok bytes ∧
      size.Writes encoding bytes moves ∧ writer.Along moves next := by
  obtain ⟨text, rfl⟩ : ∃ text, value = .text text := by
    cases value with
    | text text => exact ⟨text, rfl⟩
    | _ => cases h
  rw [Operation.encodeText, run_bind_eq_ok_iff] at h
  obtain ⟨_, _, htext, h⟩ := h
  obtain ⟨rfl, rfl⟩ := run_pure_eq_ok_iff.1 htext
  rw [run_bind_eq_ok_iff] at h
  obtain ⟨bytes, _, hbytes, h⟩ := h
  obtain ⟨hencode, rfl⟩ := WriteM.run_ofData_eq_ok_iff.1 hbytes
  refine ⟨text, bytes, ?_⟩
  cases size with
  | nullTerminated =>
    dsimp only [TextSize.map] at h
    split at h
    · cases h
    · next hnul =>
      rw [run_bind_eq_ok_iff] at h
      obtain ⟨_, middle, hwrite, hzero⟩ := h
      exact ⟨_, rfl, hencode, .nullTerminated (by simpa using hnul),
        (Writer.along_of_writeBytes hwrite).trans (Writer.along_of_writeZeros hzero)⟩
  | sized policy =>
    dsimp only [TextSize.map] at h
    rw [run_bind_eq_ok_iff] at h
    obtain ⟨slots, _, hdata, h⟩ := h
    obtain ⟨hslots, rfl⟩ := WriteM.run_ofData_eq_ok_iff.1 hdata
    split at h
    · cases h
    · next hle =>
      rw [run_bind_eq_ok_iff] at h
      obtain ⟨_, middle, hwrite, hzeros⟩ := h
      have halong := (Writer.along_of_writeBytes hwrite).trans (Writer.along_of_writeZeros hzeros)
      cases policy with
      | fixed own =>
        dsimp only [SizePolicy.map, Operation.textSlots] at hslots
        split at hslots
        · cases hslots
        · next hterminable =>
          cases hslots
          exact ⟨_, rfl, hencode, .fixed (Nat.not_lt.1 hle) (by simpa using hterminable), halong⟩
      | keyed key =>
        cases hslots
        rw [Nat.sub_self] at halong
        exact ⟨_, rfl, hencode, .keyed key, halong⟩
      | padded key own =>
        cases hslots
        exact ⟨_, rfl, hencode, .padded key (Nat.not_lt.1 hle), halong⟩

/-! ## Scalars and lengths -/

theorem Flavor.exists_writesScalar_of_encode {flavor : Flavor} {kind : ScalarKind}
    {byteOrder : ByteOrder} {traversal : Traversal Members}
    (h : (Operation.ofScalar kind byteOrder flavor).encode traversal value writer = .ok () next) :
    ∃ moves, flavor.WritesScalar kind byteOrder value moves ∧ writer.Along moves next := by
  rw [Operation.ofScalar, Operation.encode, run_bind_eq_ok_iff] at h
  obtain ⟨raw, _, hdata, h⟩ := h
  obtain ⟨hraw, rfl⟩ := WriteM.run_ofData_eq_ok_iff.1 hdata
  exact ⟨_, ⟨raw, hraw, rfl⟩, Writer.along_of_writeBytes h⟩

theorem bitsOf_ne_ok_of_zero {number : Int} {signed : Bool} {bits : Nat} :
    bitsOf number signed 0 ≠ .ok bits := by
  simp [bitsOf]

/-- A length that is written into the field that carries it makes the moves of a length. -/
theorem Descriptor.exists_writesLength_of_encodeLength {descriptor : Descriptor}
    {chain : List Enclosure} {length : Nat} (hcarries : descriptor.kind.carriesLength)
    (h : (descriptor.operation chain).encodeLength length writer = .ok () next) :
    ∃ moves, descriptor.kind.WritesLength descriptor.byteOrder length moves ∧
      writer.Along moves next := by
  obtain ⟨kind, byteOrder, hasFixedSize, minSize⟩ := descriptor
  cases kind with
  | scalar kind =>
    change (Operation.ofScalar kind byteOrder .native).encodeLength length writer = _ at h
    rw [Operation.ofScalar, Operation.encodeLength, run_bind_eq_ok_iff] at h
    obtain ⟨raw, _, hdata, h⟩ := h
    obtain ⟨hraw, rfl⟩ := WriteM.run_ofData_eq_ok_iff.1 hdata
    exact ⟨_, ⟨raw, hraw, rfl⟩, Writer.along_of_writeBytes h⟩
  | bits content repr width container =>
    cases content with
    | integer =>
      change (Operation.bits ..).encodeLength length writer = _ at h
      rw [Operation.encodeLength, run_bind_eq_ok_iff] at h
      obtain ⟨bits, _, hdata, h⟩ := h
      obtain ⟨hbits, rfl⟩ := WriteM.run_ofData_eq_ok_iff.1 hdata
      have hwidth : width ≠ 0 := by
        rintro rfl
        exact bitsOf_ne_ok_of_zero hbits
      exact ⟨_, ⟨bits, hbits, rfl⟩, Writer.along_of_pack hwidth h⟩
    | _ => cases hcarries
  | _ => cases hcarries

/-! ## Fields -/

/-- Fields are written one after the other. -/
theorem FieldPlan.encodeAll_append {traversal : Traversal Members} (members : Members)
    (plans more : List FieldPlan) :
    encodeAll traversal members (plans ++ more) = (do
      encodeAll traversal members plans
      encodeAll traversal members more) := by
  induction plans with
  | nil => simp [encodeAll]
  | cons plan plans ih =>
    obtain ⟨name, operation, lengthOf, feed, padAfter⟩ := plan
    simp [encodeAll, ih]

/-- A field by itself has been written: the length that is measured for it, or its value. -/
inductive FieldPlan.Sends (traversal : Traversal Members) (members : Members) (field : FieldPlan)
    (writer next : Writer) : Prop where
  | measured {feed : LengthFeed} {length : Nat} (fed : field.feed = some feed)
      (measured : feed.measured members = .ok length)
      (sent : field.operation.encodeLength length writer = .ok () next) :
      Sends traversal members field writer next
  | found {value : Value} (unfed : field.feed = none)
      (found : members.find? field.name = some value)
      (sent : field.operation.encode (traversal.enter field.name) value writer = .ok () next) :
      Sends traversal members field writer next

/-- To write the fields of a record is to write the first by itself and its padding, and then the
others. -/
theorem FieldPlan.sends_of_encodeAll {traversal : Traversal Members} {members : Members}
    {field : FieldPlan} {rest : List FieldPlan}
    (h : encodeAll traversal members (field :: rest) writer = .ok () next) :
    ∃ own middle, field.Sends traversal members writer own ∧
      (if field.padAfter then Writer.flushBits else pure ()) own = .ok () middle ∧
      encodeAll traversal members rest middle = .ok () next := by
  obtain ⟨name, operation, lengthOf, feed, padAfter⟩ := field
  rw [encodeAll, run_bind_eq_ok_iff] at h
  obtain ⟨_, middle, hone, hrest⟩ := h
  rw [WriteM.run_locate_eq_ok_iff] at hone
  cases feed with
  | none =>
    dsimp only at hone
    cases hfind : members.find? name with
    | none =>
      rw [hfind] at hone
      cases hone
    | some value =>
      rw [hfind] at hone
      obtain ⟨_, own, hsent, hpad⟩ := run_bind_eq_ok_iff.1 hone
      exact ⟨own, middle, .found rfl hfind hsent, hpad, hrest⟩
  | some feed =>
    dsimp only at hone
    cases hmeasured : feed.measured members with
    | error error =>
      rw [hmeasured] at hone
      cases hone
    | ok length =>
      rw [hmeasured] at hone
      obtain ⟨_, own, hsent, hpad⟩ := run_bind_eq_ok_iff.1 hone
      exact ⟨own, middle, .measured rfl hmeasured hsent, hpad, hrest⟩

/-- What writing a value under the operation of a descriptor comes to. -/
def Descriptor.IsWritten (descriptor : Descriptor) : Prop :=
  ∀ (chain : List Enclosure) (traversal : Traversal Members) (value : Value) (writer next : Writer),
    (descriptor.operation chain).encode traversal value writer = .ok () next →
      ∃ moves, descriptor.Writes value moves ∧ writer.Along moves next

namespace FieldDescriptor

variable {typeName : String} {fields rest : List FieldDescriptor} {chain : List Enclosure}
  {members : Members}

theorem along_of_padding {padAfter : Bool}
    (h : (if padAfter then Writer.flushBits else pure ()) writer = .ok () next) :
    writer.Along (padding padAfter) next := by
  cases padAfter with
  | false =>
    obtain ⟨-, rfl⟩ := run_pure_eq_ok_iff.1 h
    exact .refl writer
  | true => exact Writer.along_of_flushBits h

section Sends

variable {field : FieldDescriptor} {traversal : Traversal Members}

/-- A field that carries no length is written as its value. -/
theorem exists_find?_of_sends (hkey : field.lengthOf = none)
    (h : (field.plan typeName fields chain).Sends traversal members writer next) :
    ∃ value, members.find? field.name = some value ∧
      (field.descriptor.operation (⟨typeName, fields, field⟩ :: chain)).encode
        (traversal.enter field.name) value writer = .ok () next := by
  cases h with
  | measured fed =>
    rw [plan, hkey] at fed
    cases fed
  | found _ found sent => exact ⟨_, found, sent⟩

/-- A field that carries a length is written with the number that is measured for it. -/
theorem exists_measured_of_sends {feed : LengthFeed} {key : String}
    (hkey : field.lengthOf = some key)
    (hfeed : feedOf (demandsAll typeName fields fields) key = some feed)
    (h : (field.plan typeName fields chain).Sends traversal members writer next) :
    ∃ length, feed.measured members = .ok length ∧
      (field.descriptor.operation (⟨typeName, fields, field⟩ :: chain)).encodeLength length writer =
        .ok () next := by
  cases h with
  | measured fed measured sent =>
    rw [plan, hkey, Option.bind_some, hfeed] at fed
    cases fed
    exact ⟨_, measured, sent⟩
  | found unfed =>
    rw [plan, hkey, Option.bind_some, hfeed] at unfed
    cases unfed

/-- A field that is written by itself makes its own moves. -/
theorem exists_writesOwn_of_sends (hfield : field.descriptor.IsWritten)
    (hcarrier : ∀ key, field.lengthOf = some key → field.descriptor.kind.carriesLength ∧
      ∃ feed, feedOf (demandsAll typeName fields fields) key = some feed ∧ feed.path ≠ [])
    (h : (field.plan typeName fields chain).Sends traversal members writer next) :
    ∃ moves, WritesOwn (demandsAll typeName fields fields) members field.name field.descriptor
      field.lengthOf field.descriptor.Writes moves ∧ writer.Along moves next := by
  cases hkey : field.lengthOf with
  | none =>
    obtain ⟨value, hfind, hsent⟩ := exists_find?_of_sends hkey h
    obtain ⟨moves, hmoves, halong⟩ := hfield _ _ _ _ _ hsent
    exact ⟨moves, ⟨value, hfind, hmoves⟩, halong⟩
  | some key =>
    obtain ⟨hcarries, feed, hfeed, hpath⟩ := hcarrier key hkey
    obtain ⟨length, hmeasured, hsent⟩ := exists_measured_of_sends hkey hfeed h
    obtain ⟨moves, hmoves, halong⟩ := Descriptor.exists_writesLength_of_encodeLength hcarries hsent
    exact ⟨moves, ⟨feed, length, hfeed, feed.count_of_measured hpath hmeasured, hmoves⟩, halong⟩

end Sends

/-- The fields of a record that are written make the moves of the record. -/
theorem exists_writesAll_of_encodeAll
    (hfields : ∀ field ∈ rest, field.serialize → field.descriptor.IsWritten)
    (hcarriers : ∀ field ∈ rest, field.serialize → ∀ key, field.lengthOf = some key →
      field.descriptor.kind.carriesLength ∧
        ∃ feed, feedOf (demandsAll typeName fields fields) key = some feed ∧ feed.path ≠ [])
    {traversal : Traversal Members}
    (h : FieldPlan.encodeAll traversal members
      ((rest.filter FieldDescriptor.serialize).map (plan typeName fields chain)) writer =
        .ok () next) :
    ∃ moves, WritesAll (demandsAll typeName fields fields) members rest moves ∧
      writer.Along moves next := by
  induction rest generalizing writer with
  | nil =>
    obtain ⟨-, rfl⟩ := run_pure_eq_ok_iff.1 h
    exact ⟨[], rfl, .refl writer⟩
  | cons field rest ih =>
    obtain ⟨hfield, hfields⟩ := List.forall_mem_cons.1 hfields
    obtain ⟨hcarrier, hcarriers⟩ := List.forall_mem_cons.1 hcarriers
    cases hserialize : field.serialize with
    | false =>
      rw [List.filter_cons_of_neg (by simp [hserialize])] at h
      obtain ⟨moves, hmoves, halong⟩ := ih hfields hcarriers h
      exact ⟨moves, (writesAll_cons_of_not_serialize hserialize).2 hmoves, halong⟩
    | true =>
      rw [List.filter_cons_of_pos hserialize, List.map_cons] at h
      obtain ⟨own, middle, hown, hpad, hrest⟩ := FieldPlan.sends_of_encodeAll h
      obtain ⟨moves, hmoves, hfirst⟩ :=
        exists_writesOwn_of_sends (hfield hserialize) (hcarrier hserialize) hown
      obtain ⟨more, hmore, halong⟩ := ih hfields hcarriers hrest
      exact ⟨_, (writesAll_cons_of_serialize hserialize).2 ⟨moves, more, hmoves, hmore, rfl⟩,
        (hfirst.trans (along_of_padding hpad)).trans halong⟩

/-- What takes a length is reached through a field. -/
theorem path_ne_nil_of_feedOf {feed : LengthFeed} {key : String}
    (h : feedOf (demandsAll typeName fields rest) key = some feed) : feed.path ≠ [] := by
  obtain ⟨demand, hfind, rfl⟩ := Option.map_eq_some_iff.1 h
  obtain ⟨field, -, -, inner, -, rfl⟩ :=
    Descriptor.mem_demandsAll_iff.1 (List.mem_of_find?_eq_some hfind)
  simp [Demand.feed, Demand.path, Demand.within]

end FieldDescriptor

/-! ## Descriptors -/

namespace Descriptor

/-- A field that carries a length has something to measure, and a way there. -/
theorem Settled.exists_feedOf {descriptor : Descriptor} {field : FieldDescriptor} {key : String}
    (hsettled : descriptor.Settled) (hmem : field ∈ descriptor.fields)
    (hserialize : field.serialize) (hkey : field.lengthOf = some key) :
    ∃ feed, feedOf descriptor.demands key = some feed ∧ feed.path ≠ [] := by
  obtain ⟨kind, byteOrder, hasFixedSize, minSize⟩ := descriptor
  cases kind with
  | record name fields =>
    have hcount := (settled_record_iff.1 hsettled).2 field hmem key
      (FieldDescriptor.carries_iff.2 ⟨hserialize, hkey⟩)
    obtain ⟨feed, hfeed⟩ := Option.ne_none_iff_exists'.1
      ((feedOf_ne_none_iff _ key).2 (hcount ▸ Nat.one_pos))
    exact ⟨feed, hfeed, FieldDescriptor.path_ne_nil_of_feedOf hfeed⟩
  | _ => cases hmem

variable {byteOrder : ByteOrder} {hasFixedSize : Bool} {minSize : UInt64}

theorem isWritten_list {element : Descriptor} {size : SizePolicy String}
    (helement : element.IsWritten) :
    IsWritten ⟨.list element size, byteOrder, hasFixedSize, minSize⟩ := by
  intro chain traversal value writer next h
  obtain ⟨items, filled, rfl, hfilled, hitems⟩ := Operation.exists_filled?_of_encode_list h
  rw [SizePolicy.filled?_map] at hfilled
  obtain ⟨parts, hparts, halong⟩ := Operation.exists_parts_of_forItems
    (fun position item writer next h ↦ helement _ _ _ _ _ (WriteM.run_locate_eq_ok_iff.1 h)) hitems
  exact ⟨_, ⟨items, filled, parts, rfl, hfilled, hparts, rfl⟩, halong⟩

theorem isWritten_record {name : String} {fields : List FieldDescriptor}
    (hnames : (fields.map FieldDescriptor.name).Nodup)
    (hfields : ∀ field ∈ fields, field.serialize → field.descriptor.IsWritten)
    (hcarriers : ∀ field ∈ fields, field.serialize → ∀ key, field.lengthOf = some key →
      field.descriptor.kind.carriesLength ∧
        ∃ feed, feedOf (FieldDescriptor.demandsAll name fields fields) key = some feed ∧
          feed.path ≠ []) :
    IsWritten ⟨.record name fields, byteOrder, hasFixedSize, minSize⟩ := by
  intro chain traversal value writer next h
  rw [operation_record hnames, Operation.encode, run_bind_eq_ok_iff] at h
  obtain ⟨members, _, hdata, h⟩ := h
  obtain ⟨hmembers, rfl⟩ := WriteM.run_ofData_eq_ok_iff.1 hdata
  obtain rfl : value = .record members := by
    cases value <;> cases hmembers
    rfl
  rw [RecordPlan.encode, run_bind_eq_ok_iff] at h
  obtain ⟨_, start, hstart, h⟩ := h
  rw [run_bind_eq_ok_iff] at h
  obtain ⟨_, stop, hall, hstop⟩ := h
  obtain ⟨inner, hinner, halong⟩ :=
    FieldDescriptor.exists_writesAll_of_encodeAll hfields hcarriers hall
  exact ⟨_, ⟨members, inner, rfl, hinner, rfl⟩,
    ((Writer.along_of_flushBits hstart).trans halong).trans (Writer.along_of_flushBits hstop)⟩

/-- A value that is written makes its moves. -/
theorem isWritten {descriptor : Descriptor} (hcoherent : descriptor.Everywhere Coherent)
    (hcodec : descriptor.Everywhere fun inner ↦ inner.isCodec = false)
    (hsettled : descriptor.Settled) : descriptor.IsWritten := by
  induction descriptor using Descriptor.induction with
  | step descriptor ihelement ihfields =>
    obtain ⟨kind, byteOrder, hasFixedSize, minSize⟩ := descriptor
    cases kind with
    | scalar kind | boolean repr | enum repr type =>
      exact fun chain traversal value writer next h ↦ Flavor.exists_writesScalar_of_encode h
    | bits content repr width container =>
      intro chain traversal value writer next h
      change Operation.encode traversal value (.bits ..) writer = _ at h
      rw [Operation.encode] at h
      change ∃ moves, (if width = 0 then _ else _) ∧ _
      split at h
      · next hwidth =>
        simp only [if_pos hwidth]
        exact ⟨_, rfl, Writer.along_of_flushBits h⟩
      · next hwidth =>
        rw [run_bind_eq_ok_iff] at h
        obtain ⟨bits, _, hdata, h⟩ := h
        obtain ⟨hbits, rfl⟩ := WriteM.run_ofData_eq_ok_iff.1 hdata
        simp only [if_neg hwidth]
        exact ⟨_, ⟨bits, hbits, rfl⟩, Writer.along_of_pack hwidth h⟩
    | text encoding size =>
      intro chain traversal value writer next h
      obtain ⟨text, bytes, moves, hvalue, hbytes, hmoves, halong⟩ :=
        TextSize.exists_writes_of_encodeText h
      exact ⟨moves, ⟨text, bytes, hvalue, hbytes, hmoves⟩, halong⟩
    | list element size =>
      exact isWritten_list (ihelement element rfl (hcoherent.of_element rfl)
        (hcodec.of_element rfl) (settled_list_iff.1 hsettled).1)
    | record name fields =>
      obtain ⟨hinside, -⟩ := settled_record_iff.1 hsettled
      have hfields := hcoherent.here.1
      refine isWritten_record hfields.names (fun field hmem hserialize ↦ ihfields field hmem
        (hcoherent.of_field hmem) (hcodec.of_field hmem) (hinside field hmem hserialize)) ?_
      intro field hmem hserialize key hkey
      exact ⟨hfields.carriers field hmem (by rw [hkey]; rfl),
        hsettled.exists_feedOf hmem hserialize hkey⟩
    | custom codec context => cases hcodec.here

end Descriptor

end WireFormat
