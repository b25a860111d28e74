import WireFormat.Proofs.Format.Conformance

/-!
# Members of enums

The members of an enum are checked against the integer kind that the enum is sent as.  A bit field
has fewer bits than its kind, or as many, and is not checked again: it sends the members that its
bits represent, and no others.

* `Operation.Transmits` — what an operation writes it can read back;
* `Operation.transmits_of_moves` — it is enough to know the moves;
* `Descriptor.transmits_enum_iff` — which numbers the operation of an enum transmits;
* `Schema.transmits_member_iff` — which declared members a field transmits.
-/

namespace WireFormat

open Writer (Makes)
open Reader (Reads)

/-- From the start of a byte a value is written, and read back from what has been written, whatever
follows.  The records around do not matter. -/
def Operation.Transmits (operation : Operation) (value : Value) : Prop :=
  ∀ (writing reading : Traversal Members) (writer : Writer) (rest : List UInt8),
    writer.sink.capacity = none → writer.packer.active = none →
      ∃ next bytes reader,
        (operation.encode writing value >>= fun _ ↦ Writer.flushBits) writer = .ok () next ∧
          next.sink.bytes.toList = writer.sink.bytes.toList ++ bytes ∧
          operation.decode reading { source := bytes ++ rest } = .ok value reader

/-- What moves are made for a value and read as it is transmitted, if the moves can be made. -/
theorem Operation.transmits_of_moves {operation : Operation} {value : Value} {moves : List Move}
    {last : Option Container} (hgoes : Goes none moves last)
    (hmakes : ∀ traversal, Makes (operation.encode traversal value) moves ())
    (hreads : ∀ traversal, Reads (operation.decode traversal) moves value) :
    operation.Transmits value := by
  intro writing reading writer rest hcapacity hidle
  have hend : Goes last [.bytes []] none := .bytes (.done none)
  obtain ⟨word, bytes, hemits⟩ := exists_emits_iff.2 ⟨none, hgoes.trans hend⟩
  -- the moves are due where the writer stands
  have hdue : Writer.Due (moves ++ [.bytes []]) (writer.sink.bytes.toList ++ bytes) writer := by
    refine ⟨hcapacity, word, bytes, ?_, ?_⟩
    · rw [hidle]
      exact hemits
    · simp [Writer.outcome, hidle, pendingBytes]
  obtain ⟨middle, hencode, hmiddle⟩ := hmakes writing _ _ _ hdue
  -- and the reader stands before them
  have hvalid : ∀ active ∈ (none : Option Container), active.Valid := by rintro _ ⟨⟩
  have hahead : Reader.Ahead (moves ++ [.bytes []]) rest { source := bytes ++ rest } :=
    ⟨none, word, bytes, hemits, hvalid, rfl, rfl⟩
  obtain ⟨reader, hdecode, -⟩ := hreads reading _ _ _ hahead
  refine ⟨{ middle with packer := {} }.sent middle.packer.pending, bytes, reader,
    run_bind_eq_ok_iff.2 ⟨(), middle, hencode, Writer.flushBits_of_capacity_eq_none hmiddle.1⟩, ?_,
    hdecode⟩
  obtain ⟨-, _, _, hlast, houtcome⟩ := hmiddle.sent
  cases hlast with
  | done =>
    rw [← houtcome]
    simp [Writer.outcome, Writer.sent, pendingBytes]

namespace Descriptor

/-- The enum whose members are sent, as a whole integer or in some bits of one. -/
def enum? (descriptor : Descriptor) : Option EnumType :=
  match descriptor.kind with
  | .enum _ type => some type
  | .bits (.enum type) _ width _ => if width = 0 then none else some type
  | _ => none

/-- A number is in the range of the bits, if there are not all bits of an integer kind. -/
def HasBitsFor (descriptor : Descriptor) (number : Int) : Prop :=
  match descriptor.kind with
  | .bits _ repr width _ => Flavor.Represents repr.isSigned width number
  | _ => True

variable {descriptor target : Descriptor} {path : List FieldDescriptor} {type : EnumType}
  {number : Int}

theorem enum?_eq_some_iff : descriptor.enum? = some type ↔
    (∃ repr, descriptor.kind = .enum repr type) ∨ ∃ repr width container, width ≠ 0 ∧
      descriptor.kind = .bits (.enum type) repr width container := by
  unfold enum?
  split
  · next repr own hkind => simp [hkind]
  · next own repr width container hkind => simp [hkind, and_comm]
  · next hwhole hbits =>
    constructor
    · nofun
    · rintro (⟨repr, hkind⟩ | ⟨repr, width, container, -, hkind⟩)
      · exact (hwhole repr type hkind).elim
      · exact (hbits type repr width container hkind).elim

/-- The operation of an enum transmits the numbers that conform. -/
theorem transmits_enum_iff (hcoherent : descriptor.Everywhere Coherent) (hfits : descriptor.Fits)
    (henum : descriptor.enum? = some type) (chain : List Enclosure) :
    (descriptor.operation chain).Transmits (.enum number) ↔ descriptor.Conforms (.enum number) := by
  rw [← exists_writes_iff hcoherent]
  have hperformed := isPerformed hcoherent chain
  have hencodes (h : (descriptor.operation chain).Transmits (.enum number)) :
      ∃ next, (descriptor.operation chain).encode {} (.enum number) {} = .ok () next := by
    obtain ⟨next, bytes, reader, hrun, -⟩ := h {} {} {} [] rfl rfl
    obtain ⟨⟨⟩, middle, hencode, -⟩ := run_bind_eq_ok_iff.1 hrun
    exact ⟨middle, hencode⟩
  obtain ⟨kind, byteOrder, hasFixedSize, minSize⟩ := descriptor
  obtain ⟨repr, ⟨⟩⟩ | ⟨repr, width, container, hwidth, ⟨⟩⟩ := enum?_eq_some_iff.1 henum
  · constructor
    · intro h
      obtain ⟨next, hencode⟩ := hencodes h
      change Operation.encode _ _ (.scalar ..) _ = _ at hencode
      rw [Operation.encode] at hencode
      obtain ⟨raw, _, hraw, -⟩ := run_bind_eq_ok_iff.1 hencode
      exact ⟨_, raw, (WriteM.run_ofData_eq_ok_iff.1 hraw).1, rfl⟩
    · rintro ⟨moves, hwrites⟩
      have hmakes (traversal : Traversal Members) := hperformed traversal _ moves hwrites
      have hreads := Flavor.reads_ofScalar hwrites
      obtain ⟨raw, -, rfl⟩ := hwrites
      exact Operation.transmits_of_moves (.bytes (.done none)) hmakes hreads
  · constructor
    · intro h
      obtain ⟨next, hencode⟩ := hencodes h
      change Operation.encode _ _ (.bits ..) _ = _ at hencode
      rw [Operation.encode, if_neg hwidth] at hencode
      obtain ⟨bits, _, hbits, -⟩ := run_bind_eq_ok_iff.1 hencode
      refine ⟨[.bits bits container width (byteOrder.reverses container)], ?_⟩
      change if width = 0 then _ else _
      rw [if_neg hwidth]
      exact ⟨bits, (WriteM.run_ofData_eq_ok_iff.1 hbits).1, rfl⟩
    · rintro ⟨moves, hwrites⟩
      have hmakes (traversal : Traversal Members) := hperformed traversal _ moves hwrites
      change if width = 0 then _ else _ at hwrites
      rw [if_neg hwidth] at hwrites
      obtain ⟨bits, hbits, rfl⟩ := hwrites
      obtain ⟨-, hlt, hdecode⟩ := Flavor.decodeBits_encodeBits hcoherent.here.2 hbits
      have hcheck : Container.check container width = .ok () :=
        hfits container width _ ⟨⟨_, repr, rfl⟩, hwidth, rfl⟩
      have hfull : ∀ active ∈ (none : Option Container),
          active.hasRoom container width = false := by
        rintro _ ⟨⟩
      refine Operation.transmits_of_moves (.start hcheck hlt hfull (.done _)) hmakes
        fun traversal ↦ ?_
      change Reads (Operation.decode traversal (.bits ..)) _ _
      rw [Operation.decode, if_neg hwidth]
      exact (Reader.reads_unpack hwidth).bind_nil (ReadM.reads_ofData hdecode)

/-- All members of an enum that is sent as a whole fit its integer kind. -/
def HoldsMembers (descriptor : Descriptor) : Prop :=
  ∀ repr type, descriptor.kind = .enum repr type → ∀ member ∈ type.members, repr.Fits member.2

/-- A member conforms to an enum that is sent as a whole, and to one that is sent in some bits if
they represent its number. -/
theorem conforms_enum_iff (henum : descriptor.enum? = some type)
    (hmembers : descriptor.HoldsMembers) {member : String × Int} (hmem : member ∈ type.members) :
    descriptor.Conforms (.enum member.2) ↔ descriptor.HasBitsFor member.2 := by
  obtain ⟨kind, byteOrder, hasFixedSize, minSize⟩ := descriptor
  obtain ⟨repr, ⟨⟩⟩ | ⟨repr, width, container, hwidth, ⟨⟩⟩ := enum?_eq_some_iff.1 henum
  · constructor
    · intro _
      trivial
    · intro _
      exact .enum (hmembers repr type rfl member hmem)
  · constructor
    · intro h
      cases h with
      | noBits => exact (hwidth rfl).elim
      | bits _ stands represents =>
        cases stands
        exact represents
    · intro h
      exact .bits hwidth (.enum member.2) h

/-- The bit fields inside a descriptor fit their containers. -/
theorem fits_of_reaches (hcoherent : descriptor.Everywhere Coherent) (hfits : descriptor.Fits)
    (h : descriptor.Reaches path target) : target.Fits := by
  induction h with
  | here => exact hfits
  | @field descriptor target field path mem serialize _ ih =>
    refine ih (hcoherent.of_field mem) fun container width swap hpacks ↦ ?_
    obtain ⟨kind, byteOrder, hasFixedSize, minSize⟩ := descriptor
    cases kind with
    | record name fields =>
      obtain ⟨-, last, hruns, -⟩ := hcoherent.here
      obtain ⟨before, after, hsplit⟩ := List.append_of_mem mem
      obtain rfl : fields = before ++ field :: after := hsplit
      exact hruns.check serialize hpacks
    | _ => cases mem

/-- No way through a descriptor begins at a bit field. -/
theorem Starts.bitWidth?_eq_none {address : List (List FieldDescriptor)} {top : Descriptor}
    (h : descriptor.Starts address top) (hwhole : descriptor.Everywhere HoldsWhole)
    (hbits : descriptor.bitWidth? = none) : top.bitWidth? = none := by
  induction h with
  | whole => exact hbits
  | element reaches mem _ ih =>
    have hlist := hwhole.of_reaches reaches
    exact ih (hlist.of_element mem) (hlist.here _ mem)

end Descriptor

/-- The members of an enum have been checked against the integer kind that it is sent as. -/
theorem Layout.everywhere_holdsMembers {layout : Layout} {descriptor : Descriptor}
    (h : layout.describe = .ok descriptor) : descriptor.Everywhere Descriptor.HoldsMembers := by
  refine layout.everywhere_describeWithin (fun _ _ _ _ _ hyields hrecord ↦ ?_)
    (fun _ _ _ _ _ _ ↦ nofun) (fun _ ↦ nofun) _ _ _ h
  cases hyields with
  | enum _ fits =>
    rintro _ _ ⟨⟩ member hmem
    exact fits member hmem
  | record _ hinner =>
    obtain ⟨fields, hkind⟩ := Layout.describeWithin_kind hinner
    exact (hrecord _ _ hkind).elim
  | _ => nofun

namespace Schema

variable {layout : Layout} {schema : Schema} {address : List (List FieldDescriptor)}
  {path : List FieldDescriptor} {top target : Descriptor} {type : EnumType}

/-- Every field of the wire has an operation, which is that of its descriptor. -/
theorem exists_operation_of_reaches (h : ofLayout layout = .ok schema)
    (hstarts : schema.descriptor.Starts address top) (hreaches : top.Reaches path target) :
    ∃ start chain,
      (Operation.record schema.plan.root).enter? (address.map FieldDescriptor.names) = some start ∧
      start.follow? (FieldDescriptor.names path) = some (target.operation chain) := by
  obtain ⟨hdescribe, hplan⟩ := ofLayout_eq_ok h
  obtain ⟨-, hroot, -, -⟩ := Plan.ofDescriptor_eq_ok_iff.1 hplan
  have hnames := Layout.everywhere_nodup_names hdescribe
  rw [← hroot]
  exact ⟨_, _, hstarts.enter?_operation hnames,
    hreaches.follow?_operation (hnames.of_starts hstarts)⟩

/-- The bit fields of a schema fit their containers. -/
theorem fits_of_starts (h : ofLayout layout = .ok schema)
    (hstarts : schema.descriptor.Starts address top) (hreaches : top.Reaches path target) :
    target.Fits := by
  obtain ⟨hdescribe, hplan⟩ := ofLayout_eq_ok h
  obtain ⟨-, hroot, -, -⟩ := Plan.ofDescriptor_eq_ok_iff.1 hplan
  have htop : top.bitWidth? = none := hstarts.bitWidth?_eq_none
    (Layout.everywhere_holdsWhole hdescribe) (Descriptor.bitWidth?_eq_none_of_record hroot)
  exact Descriptor.fits_of_reaches ((Layout.describe_coherent hdescribe).of_starts hstarts)
    (Descriptor.fits_of_bitWidth?_eq_none htop) hreaches

/-- A field transmits a declared member of its enum exactly if the bits of the field represent the
number of the member, and always if the field is no bit field. -/
theorem transmits_member_iff (h : ofLayout layout = .ok schema)
    (hstarts : schema.descriptor.Starts address top) (hreaches : top.Reaches path target)
    (henum : target.enum? = some type) : ∃ start operation,
      (Operation.record schema.plan.root).enter? (address.map FieldDescriptor.names) = some start ∧
      start.follow? (FieldDescriptor.names path) = some operation ∧
      ∀ member ∈ type.members,
        operation.Transmits (.enum member.2) ↔ target.HasBitsFor member.2 := by
  obtain ⟨hdescribe, -⟩ := ofLayout_eq_ok h
  obtain ⟨start, chain, henter, hfollow⟩ := exists_operation_of_reaches h hstarts hreaches
  refine ⟨start, _, henter, hfollow, fun member hmem ↦ ?_⟩
  have hcoherent := ((Layout.describe_coherent hdescribe).of_starts hstarts).of_reaches hreaches
  have hmembers :=
    ((Layout.everywhere_holdsMembers hdescribe).of_starts hstarts).of_reaches hreaches
  rw [Descriptor.transmits_enum_iff hcoherent (fits_of_starts h hstarts hreaches) henum chain]
  exact Descriptor.conforms_enum_iff henum hmembers.here hmem

end Schema

/-- Four levels in two bits of a signed integer. -/
def EnumType.level : EnumType :=
  ⟨"Level", .integer .i8, [("Off", 0), ("Low", 1), ("Middle", 2), ("High", 3)]⟩

/-- A record of one level. -/
def Layout.heater : Layout where
  name := "Heater"
  fields := [{ name := "level", order := some 0, shape := .enum .level, bitWidth := some 2 }]

/-- The field of a level. -/
def FieldDescriptor.level : FieldDescriptor :=
  ⟨"level", 0, ⟨.bits (.enum .level) .i8 2 1, .little, true, 0⟩, true, none, false⟩

/-- The descriptor of a record of one level. -/
def Descriptor.heater : Descriptor := ⟨.record "Heater" [.level], .little, true, 1⟩

/-- The schema of a record of one level. -/
def Schema.heater : Schema where
  name := "Heater"
  descriptor := .heater
  plan := {
    root := {
      name := "Heater"
      fields := [⟨"level", .bits .i8 2 1 false .enum, none, none, false⟩]
      skipped := [] }
    hasFixedSize := true
    minSize := 1 }

theorem Layout.describe_heater : Layout.heater.describe = .ok Descriptor.heater := by
  have hshape : Shape.describe ["Heater"] .little none (.enum .level) =
      .ok (.ofFixed (.enum .i8 .level) .little 1) := by
    rw [Shape.describe]
    rfl
  have hwithin := describeWithin.eq_def [] .little heater
  rw [describe, hwithin]
  simp only [heater, List.not_mem_nil, if_false, Field.describeAll, List.nil_append,
    Option.getD_none, hshape]
  cbv

theorem Schema.ofLayout_heater : ofLayout .heater = .ok .heater := by
  rw [ofLayout, Layout.describe_heater]
  rfl

theorem Descriptor.heater_reaches : heater.Reaches [.level] FieldDescriptor.level.descriptor :=
  .field List.mem_cons_self rfl (.here _)

/-- Two signed bits represent the first two levels, but not the last one. -/
theorem Schema.heater_transmits : ∃ start operation,
    (Operation.record heater.plan.root).enter? [] = some start ∧
      start.follow? ["level"] = some operation ∧
      operation.Transmits (.enum 0) ∧ operation.Transmits (.enum 1) ∧
      ¬ operation.Transmits (.enum 3) := by
  have henum : FieldDescriptor.level.descriptor.enum? = some .level := rfl
  obtain ⟨start, operation, henter, hfollow, htransmits⟩ :=
    transmits_member_iff ofLayout_heater (.whole _) Descriptor.heater_reaches henum
  refine ⟨start, operation, henter, hfollow, ?_, ?_, fun h ↦ ?_⟩
  · exact (htransmits ("Off", 0) (by decide)).2 ⟨by decide, by decide⟩
  · exact (htransmits ("Low", 1) (by decide)).2 ⟨by decide, by decide⟩
  · have hbits := ((htransmits ("High", 3) (by decide)).1 h).2
    exact absurd hbits (by decide)

/-- The layout of four levels is accepted, but there are values with a declared level that are not
written. -/
theorem Schema.heater_not_transmits : ofLayout .heater = .ok heater ∧
    heater.descriptor.Reaches [.level] FieldDescriptor.level.descriptor ∧
    FieldDescriptor.level.descriptor.enum? = some .level ∧ ("High", 3) ∈ EnumType.level.members ∧
    (∃ operation, (Operation.record heater.plan.root).follow? ["level"] = some operation ∧
      ¬ operation.Transmits (.enum 3)) ∧
    heater.toBytes (.record [("level", .enum 3)]) =
      .error (.located [.member "level"] (.data (.bitOverflow 3 2))) := by
  refine ⟨ofLayout_heater, Descriptor.heater_reaches, rfl, by decide, ⟨_, rfl, fun h ↦ ?_⟩, rfl⟩
  obtain ⟨next, bytes, reader, hrun, -⟩ := h {} {} {} [] rfl rfl
  cases hrun

end WireFormat
