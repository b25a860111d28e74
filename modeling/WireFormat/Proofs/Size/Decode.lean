import WireFormat.Proofs.Format.Encode
import WireFormat.Proofs.Layout.Codecs
import WireFormat.Proofs.Length.Compilation
import WireFormat.Proofs.Run.Fields
import WireFormat.Proofs.Size.Least
import WireFormat.Proofs.Size.Reading
import WireFormat.Proofs.Value.Scalar

/-!
# What is read takes the least room

Whatever is read under the operation of a descriptor, the least room of the descriptor is part of
what has been passed.  From zeros nothing more is read: all lengths are zero then, so that all lists
are empty that may be, and all texts.

* `Descriptor.isRead` — the room that a value takes that has been read.
-/

namespace WireFormat

variable {reader middle next : Reader} {traversal : Traversal Members}

/-! ## Zeros -/

/-- If the value is an integer, it is zero. -/
def Value.Naught (value : Value) : Prop := ∀ number, value.toInteger? = some number → number = 0

/-- Nothing is asked of a value that is no integer. -/
theorem Value.naught_of_toInteger?_eq_none {value : Value} (h : value.toInteger? = none) :
    value.Naught := by
  intro number hnumber
  rw [h] at hnumber
  cases hnumber

theorem IntegerKind.read_zero (kind : IntegerKind) : kind.read 0 = 0 := by
  cases kind <;> decide

/-- Zero stands for zero. -/
theorem Flavor.naught_of_decode {flavor : Flavor} {repr : ScalarKind} {value : Value}
    (h : flavor.decode repr 0 = .ok value) : value.Naught := by
  cases flavor with
  | native =>
    cases repr with
    | integer kind =>
      rw [decode, Value.ofRaw_integer] at h
      cases h
      rintro _ ⟨⟩
      exact kind.read_zero
    | char =>
      rw [decode, Value.ofRaw] at h
      split at h <;> cases h
      rintro _ ⟨⟩
    | _ =>
      cases h
      rintro _ ⟨⟩
  | boolean =>
    cases h
    rintro _ ⟨⟩
  | enum =>
    cases h
    rintro _ ⟨⟩
    rw [Value.integerOfRaw]
    split <;> simp

theorem Flavor.naught_zero (flavor : Flavor) (repr : IntegerKind) :
    (flavor.zero (.integer repr)).Naught := by
  cases flavor with
  | native =>
    rintro _ ⟨⟩
    exact repr.read_zero
  | boolean => rintro _ ⟨⟩
  | enum =>
    rintro _ ⟨⟩
    rfl

theorem Flavor.naught_of_decodeBits {flavor : Flavor} {repr : IntegerKind} {width : Nat}
    {value : Value} (h : flavor.decodeBits (.integer repr) width 0 = .ok value) :
    value.Naught := by
  have hnumber : (if flavor.isSigned (.integer repr) then signExtend 0 width else ((0 : Nat) : Int))
      = 0 := by
    split
    · rw [signExtend]
      simp
    · rfl
  cases flavor with
  | native =>
    rw [decodeBits, hnumber] at h
    split at h
    · next found hfound =>
      cases h
      rw [Value.ofInteger?] at hfound
      split at hfound
      · cases hfound
        rintro _ ⟨⟩
        exact repr.read_zero
      · cases hfound
    · cases h
  | boolean =>
    cases h
    rintro _ ⟨⟩
  | enum =>
    rw [decodeBits, hnumber] at h
    cases h
    rintro _ ⟨⟩
    rfl

/-! ## Lengths -/

namespace Traversal

/-- All lengths that have been read are zero. -/
def Zero (traversal : Traversal Members) : Prop :=
  ∀ frame ∈ traversal.frames, ∀ entry ∈ frame.lengths, entry.2 = 0

theorem sourceLength_eq_zero {source : LengthSource} {length : Nat} (hzero : traversal.Zero)
    (h : traversal.sourceLength source = .ok length) : length = 0 := by
  rw [sourceLength] at h
  split at h
  · cases h
  · next number hlength =>
    obtain ⟨frame, hframe, hlookup⟩ := Option.bind_eq_some_iff.1 hlength
    have hnumber : number = 0 := by
      obtain ⟨before, after, hentries, -⟩ := List.lookup_eq_some_iff.1 hlookup
      exact hzero frame (List.mem_of_getElem? hframe) (source.key, number)
        (hentries ▸ List.mem_append_right before List.mem_cons_self)
    subst hnumber
    cases h
    rfl

/-- As many elements are on the wire as the policy has slots, or none where lengths are zero. -/
theorem extent_eq_ok {policy : SizePolicy LengthSource} {kept slots : Nat}
    (h : traversal.extent policy = .ok (kept, slots)) :
    policy.slots?.getD 0 ≤ slots ∧ kept ≤ slots ∧
      (traversal.Zero → slots = policy.slots?.getD 0) := by
  cases policy with
  | fixed own =>
    cases h
    exact ⟨Nat.le_refl _, Nat.le_refl _, fun _ ↦ rfl⟩
  | keyed source =>
    rw [extent, bind_eq_ok_iff] at h
    obtain ⟨length, hlength, h⟩ := h
    cases h
    exact ⟨Nat.zero_le _, Nat.le_refl _, fun hzero ↦ sourceLength_eq_zero hzero hlength⟩
  | padded source own =>
    rw [extent, bind_eq_ok_iff] at h
    obtain ⟨length, hlength, h⟩ := h
    split at h
    · cases h
    · next hle =>
      cases h
      exact ⟨Nat.le_refl _, Nat.not_lt.1 hle, fun _ ↦ rfl⟩

theorem Zero.modifyFrame {f : Frame Members → Frame Members} (hzero : traversal.Zero)
    (hf : ∀ frame : Frame Members, (∀ entry ∈ frame.lengths, entry.2 = 0) →
      ∀ entry ∈ (f frame).lengths, entry.2 = 0) : (traversal.modifyFrame f).Zero := by
  obtain ⟨frames, steps⟩ := traversal
  cases frames with
  | nil => exact hzero
  | cons frame frames =>
    obtain ⟨hframe, hframes⟩ := List.forall_mem_cons.1 hzero
    exact List.forall_mem_cons.2 ⟨hf frame hframe, hframes⟩

/-- A field that is kept adds no length that is not zero, if the field itself is zero. -/
theorem Zero.of_keep {name : String} {lengthOf : Option String} {value : Value}
    {after : Traversal Members} (hzero : traversal.Zero) (hvalue : value.Naught)
    (h : FieldPlan.keep traversal name lengthOf value = .ok after) : after.Zero := by
  cases lengthOf with
  | none =>
    cases h
    exact hzero.modifyFrame fun _ ↦ id
  | some key =>
    rw [FieldPlan.keep] at h
    split at h
    · next length hlength =>
      cases h
      refine Zero.modifyFrame ?_ fun _ ↦ id
      refine hzero.modifyFrame fun frame hframe ↦ List.forall_mem_cons.2 ⟨?_, hframe⟩
      exact hvalue length hlength
    · cases h

end Traversal

/-! ## Texts and lists -/

/-- A text that is read takes its least room at least, and no more from zeros. -/
theorem TextSize.takes_of_decodeTextBytes {encoding : Encoding} {size : TextSize LengthSource}
    {bytes : List UInt8}
    (h : Operation.decodeTextBytes traversal encoding size reader = .ok bytes next) :
    reader.Takes (Room.bytes size.leastCount) traversal.Zero next := by
  cases size with
  | nullTerminated =>
    obtain ⟨hpasses, hblank⟩ := Reader.passes_of_readUntilNul h
    refine ⟨_, hpasses, Room.bytes_sublist (Nat.le_add_left ..), fun hreader _ ↦ ?_⟩
    rw [hblank hreader]
    rfl
  | sized policy =>
    cases policy with
    | fixed slots =>
      change (Reader.readBytes slots >>= _) reader = _ at h
      rw [run_bind_eq_ok_iff] at h
      obtain ⟨all, _, hread, h⟩ := h
      obtain ⟨-, rfl⟩ := run_pure_eq_ok_iff.1 h
      exact .of_passes (Reader.passes_of_readBytes hread).2.1
    | keyed source | padded source slots =>
      unfold Operation.decodeTextBytes at h
      dsimp only at h
      rw [run_bind_eq_ok_iff] at h
      obtain ⟨⟨length, slots⟩, _, hdata, h⟩ := h
      obtain ⟨hextent, rfl⟩ := ReadM.run_ofData_eq_ok_iff.1 hdata
      obtain ⟨hleast, hle, hzero⟩ := Traversal.extent_eq_ok hextent
      dsimp only at h
      rw [run_bind_eq_ok_iff] at h
      obtain ⟨all, _, hread, h⟩ := h
      rw [run_bind_eq_ok_iff] at h
      obtain ⟨_, _, hskip, h⟩ := h
      obtain ⟨-, rfl⟩ := run_pure_eq_ok_iff.1 h
      have hpasses := ((Reader.passes_of_readBytes hread).2.1.trans
        (Reader.passes_of_skip hskip)).bytes_append
      rw [Nat.add_sub_cancel' hle] at hpasses
      exact ⟨_, hpasses, Room.bytes_sublist hleast, fun _ hown ↦ by rw [hzero hown]; rfl⟩

@[simp] theorem TextSize.leastCount_map {κ κ' : Type} (size : TextSize κ) (f : κ → κ') :
    (size.map f).leastCount = size.leastCount := by
  cases size with
  | nullTerminated => rfl
  | sized policy =>
    change (policy.map f).slots?.getD 0 = _
    rw [SizePolicy.slots?_map]
    rfl

/-- Elements take their room as often as there are slots. -/
theorem Operation.takes_of_decodeItems {action : Nat → ReadM Value} {least : List Room}
    {zero : Prop}
    (haction : ∀ position reader value next, action position reader = .ok value next →
      Reader.Takes reader least zero next)
    {kept position count : Nat} {items values : List Value}
    (h : decodeItems action kept position items count reader = .ok values next) :
    reader.Takes (List.replicate count least).flatten zero next := by
  induction count generalizing position items reader with
  | zero =>
    obtain ⟨-, rfl⟩ := run_pure_eq_ok_iff.1 h
    exact .of_passes (.refl reader)
  | succ count ih =>
    rw [decodeItems, run_bind_eq_ok_iff] at h
    obtain ⟨value, _, hitem, h⟩ := h
    rw [List.replicate_succ, List.flatten_cons]
    exact (haction _ _ _ _ hitem).trans (ih h) fun _ ↦ id

/-! ## Descriptors -/

/-- What has been read under the operation of a descriptor takes its least room at least.  From
zeros, it takes no more and is zero. -/
def Descriptor.IsRead (descriptor : Descriptor) : Prop :=
  ∀ (chain : List Enclosure) (traversal : Traversal Members) (value : Value)
    (reader next : Reader),
    (descriptor.operation chain).decode traversal reader = .ok value next →
      reader.Takes descriptor.leastRooms traversal.Zero next ∧
        (reader.Blank → traversal.Zero → value.Naught)

/-- An element takes its own room. -/
theorem Descriptor.IsRead.takes_of_decodeItem {element : Descriptor} {position : Nat}
    {value : Value} (hread : element.IsRead)
    (h : Operation.decodeItem traversal (element.operation []) position reader = .ok value next) :
    reader.Takes element.leastRooms traversal.Zero next :=
  (hread [] (traversal.enterIndex position) _ _ _ (ReadM.run_locate_eq_ok_iff.1 h)).1

namespace FieldDescriptor

variable {name : String} {field : FieldDescriptor} {fields rest : List FieldDescriptor}
  {chain : List Enclosure} {after : Traversal Members} {members : Members}

/-- A field takes its own room, and then that of its padding. -/
theorem takes_of_advance (hread : field.descriptor.IsRead)
    (h : (plan name fields chain field).advance traversal reader = .ok after next) :
    reader.Takes (field.descriptor.leastRooms ++ if field.padAfter then [.align] else [])
      traversal.Zero next ∧ (reader.Blank → traversal.Zero → after.Zero) := by
  obtain ⟨value, middle, hdecode, hkeep, rfl⟩ := FieldPlan.advance_eq_ok_iff.1 h
  obtain ⟨htakes, hnaught⟩ : reader.Takes field.descriptor.leastRooms traversal.Zero middle ∧
      (reader.Blank → traversal.Zero → value.Naught) :=
    hread _ (traversal.enter field.name) _ _ _ hdecode
  have hpadding : middle.Takes (if field.padAfter then [.align] else []) True
      (middle.padded field.padAfter) := by
    rw [Reader.padded]
    split
    · exact .of_passes (Reader.passes_resetBits middle)
    · exact .of_passes (.refl middle)
  exact ⟨htakes.trans hpadding fun _ _ ↦ trivial,
    fun hblank hzero ↦ hzero.of_keep (hnaught hblank hzero) hkeep⟩

/-- The fields of a record take the room of each. -/
theorem takes_of_decodeAll (hfields : ∀ field ∈ rest, field.serialize → field.descriptor.IsRead)
    (h : FieldPlan.decodeAll traversal ((rest.filter FieldDescriptor.serialize).map
      (plan name fields chain)) reader = .ok members next) :
    reader.Takes (leastRoomsAll rest) traversal.Zero next := by
  induction rest generalizing traversal reader with
  | nil =>
    obtain ⟨-, rfl⟩ := run_pure_eq_ok_iff.1 h
    exact .of_passes (.refl reader)
  | cons field rest ih =>
    obtain ⟨hfield, hrest⟩ := List.forall_mem_cons.1 hfields
    rw [leastRoomsAll_cons]
    cases hserialize : field.serialize with
    | false =>
      rw [List.filter_cons_of_neg (by simp [hserialize])] at h
      exact ih hrest h
    | true =>
      rw [List.filter_cons_of_pos hserialize, List.map_cons, FieldPlan.decodeAll_cons] at h
      obtain ⟨after, middle, hown, h⟩ := run_bind_eq_ok_iff.1 h
      obtain ⟨htakes, hzero⟩ := takes_of_advance (hfield hserialize) hown
      rw [if_pos rfl]
      exact htakes.trans (ih hrest h) hzero

end FieldDescriptor

namespace Descriptor

variable {byteOrder : ByteOrder} {hasFixedSize : Bool} {minSize : UInt64}

theorem isRead_scalar {kind : DescriptorKind} {repr : ScalarKind} {flavor : Flavor}
    (hoperation : ∀ chain, operation chain ⟨kind, byteOrder, hasFixedSize, minSize⟩ =
      .ofScalar repr byteOrder flavor)
    (hleast : kind.leastRooms = Room.bytes repr.width) :
    IsRead ⟨kind, byteOrder, hasFixedSize, minSize⟩ := by
  intro chain traversal value reader next h
  rw [hoperation, Operation.ofScalar, Operation.decode, run_bind_eq_ok_iff] at h
  obtain ⟨raw, _, hraw, hdata⟩ := h
  obtain ⟨hdecode, rfl⟩ := ReadM.run_ofData_eq_ok_iff.1 hdata
  obtain ⟨hpasses, hzero⟩ := Reader.passes_of_readRaw hraw
  refine ⟨?_, fun hblank _ ↦ ?_⟩
  · change Reader.Takes _ kind.leastRooms _ _
    rw [hleast]
    exact .of_passes hpasses
  · rw [hzero hblank] at hdecode
    exact Flavor.naught_of_decode hdecode

theorem isRead_list {element : Descriptor} {size : SizePolicy String} (helement : element.IsRead) :
    IsRead ⟨.list element size, byteOrder, hasFixedSize, minSize⟩ := by
  intro chain traversal value reader next h
  change Operation.decode traversal (.list ..) reader = _ at h
  rw [Operation.decode, run_bind_eq_ok_iff] at h
  obtain ⟨⟨length, slots⟩, _, hdata, h⟩ := h
  obtain ⟨hextent, rfl⟩ := ReadM.run_ofData_eq_ok_iff.1 hdata
  obtain ⟨hleast, -, hzero⟩ := Traversal.extent_eq_ok hextent
  rw [SizePolicy.slots?_map] at hleast hzero
  dsimp only at h
  obtain ⟨items, _, hitems, h⟩ := run_bind_eq_ok_iff.1 h
  obtain ⟨rfl, rfl⟩ := run_pure_eq_ok_iff.1 h
  change Operation.decodeItems (Operation.decodeItem traversal (element.operation [])) _ _ _ _ _ =
    _ at hitems
  obtain ⟨rooms, hpasses, hrooms, hexact⟩ := Operation.takes_of_decodeItems
    (fun _ _ _ _ ↦ helement.takes_of_decodeItem) hitems
  refine ⟨⟨rooms, hpasses, ?_, fun hblank hown ↦ ?_⟩, fun _ _ ↦ Value.naught_of_toInteger?_eq_none rfl⟩
  · exact (List.Sublist.flatten (List.replicate_sublist_replicate _ |>.2 hleast)).trans hrooms
  · rw [hexact hblank hown, hzero hown]
    rfl

theorem isRead_record {name : String} {fields : List FieldDescriptor}
    (hnames : (fields.map FieldDescriptor.name).Nodup)
    (hfields : ∀ field ∈ fields, field.serialize → field.descriptor.IsRead) :
    IsRead ⟨.record name fields, byteOrder, hasFixedSize, minSize⟩ := by
  intro chain traversal value reader next h
  rw [operation_record hnames] at h
  obtain ⟨members, middle, hall, rfl, rfl⟩ := Operation.decode_record_eq_ok h
  have hzero : traversal.Zero → (traversal.push name []).Zero := fun hzero ↦
    List.forall_mem_cons.2 ⟨by simp, hzero⟩
  have hfirst : reader.Takes [.align] traversal.Zero { reader with active := none } :=
    .of_passes (Reader.passes_resetBits reader)
  have hlast : middle.Takes [.align] True { middle with active := none } :=
    .of_passes (Reader.passes_resetBits middle)
  have hinner := (FieldDescriptor.takes_of_decodeAll hfields hall).trans hlast fun _ _ ↦ trivial
  exact ⟨hfirst.trans hinner fun _ ↦ hzero, fun _ _ ↦ Value.naught_of_toInteger?_eq_none rfl⟩

/-- What has been read takes its least room at least. -/
theorem isRead {descriptor : Descriptor} (hcoherent : descriptor.Everywhere Coherent)
    (hcodec : descriptor.Everywhere fun inner ↦ inner.isCodec = false) : descriptor.IsRead := by
  induction descriptor using Descriptor.induction with
  | step descriptor ihelement ihfields =>
    obtain ⟨kind, byteOrder, hasFixedSize, minSize⟩ := descriptor
    cases kind with
    | scalar kind => exact isRead_scalar (fun _ ↦ rfl) rfl
    | boolean repr => exact isRead_scalar (fun _ ↦ rfl) rfl
    | enum repr type => exact isRead_scalar (fun _ ↦ rfl) rfl
    | bits content repr width container =>
      intro chain traversal value reader next h
      change Operation.decode traversal (.bits ..) reader = _ at h
      change Reader.Takes _ (if width = 0 then _ else _) _ _ ∧ _
      rw [Operation.decode] at h
      split at h
      · next hwidth =>
        obtain ⟨_, _, hreset, h⟩ := run_bind_eq_ok_iff.1 h
        cases hreset
        obtain ⟨rfl, rfl⟩ := run_pure_eq_ok_iff.1 h
        rw [if_pos hwidth]
        exact ⟨.of_passes (Reader.passes_resetBits reader), fun _ _ ↦ Flavor.naught_zero _ _⟩
      · next hwidth =>
        obtain ⟨bits, _, hunpack, h⟩ := run_bind_eq_ok_iff.1 h
        obtain ⟨hdecode, rfl⟩ := ReadM.run_ofData_eq_ok_iff.1 h
        obtain ⟨hpasses, hzero⟩ := Reader.passes_of_unpack hwidth hunpack
        rw [if_neg hwidth]
        refine ⟨.of_passes hpasses, fun hblank _ ↦ ?_⟩
        rw [hzero hblank] at hdecode
        exact Flavor.naught_of_decodeBits hdecode
    | text encoding size =>
      intro chain traversal value reader next h
      change Operation.decode traversal (.text ..) reader = _ at h
      rw [Operation.decode] at h
      obtain ⟨bytes, _, hbytes, h⟩ := run_bind_eq_ok_iff.1 h
      obtain ⟨text, _, hdata, h⟩ := run_bind_eq_ok_iff.1 h
      obtain ⟨-, rfl⟩ := ReadM.run_ofData_eq_ok_iff.1 hdata
      obtain ⟨rfl, rfl⟩ := run_pure_eq_ok_iff.1 h
      have htakes := TextSize.takes_of_decodeTextBytes hbytes
      rw [TextSize.leastCount_map] at htakes
      exact ⟨htakes, fun _ _ ↦ Value.naught_of_toInteger?_eq_none rfl⟩
    | list element size =>
      exact isRead_list (ihelement element rfl (hcoherent.of_element rfl) (hcodec.of_element rfl))
    | record name fields =>
      exact isRead_record hcoherent.here.1.names fun field hmem _ ↦ ihfields field hmem
        (hcoherent.of_field hmem) (hcodec.of_field hmem)
    | custom codec context => cases hcodec.here

end Descriptor

end WireFormat
