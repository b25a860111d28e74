import WireFormat.Proofs.Codec.Counting
import WireFormat.Proofs.Format.Canonical
import WireFormat.Proofs.Format.Decode

/-!
# Records by themselves

An element of a list uses no lengths from outside, so it has a plan of its own if it is a record.
A record that has one is written as by that plan wherever it stands: nothing around it takes part in
its operation, and it starts and ends on a byte.

* `Descriptor.operation_append` — what asks for nothing from further out has the same operation
  there;
* `Descriptor.Starts.exists_plan` — the elements of lists that are records have plans;
* `Descriptor.Spreads` — the records in a list, free slots included, those of lists of lists in
  turn;
* `Schema.compilesLocally` — a record inside a schema has the operation that its own plan has, and a
  list of them is written as one after the other.
-/

namespace WireFormat

/-! ## Operations in other surroundings -/

section

variable {inner outer : List Enclosure}

/-- A length that is found on the way out is found there whatever comes further out. -/
theorem Lends.from_append {key : String} (h : Lends key inner) (outer : List Enclosure) :
    LengthSource.from (inner ++ outer) key = .from inner key := by
  obtain @⟨before, after, enclosure, carrier, own, inside, -, -⟩ := h
  have hown : enclosure.carriers key ≠ [] := by simp [own]
  rw [List.append_assoc, List.cons_append, LengthSource.from_eq hown inside,
    LengthSource.from_eq hown inside]

theorem SizePolicy.map_congr {κ ι : Type} {f g : κ → ι} {policy : SizePolicy κ}
    (h : ∀ key ∈ policy.key?, f key = g key) : policy.map f = policy.map g := by
  cases policy with
  | fixed slots => rfl
  | keyed key => exact congrArg keyed (h key rfl)
  | padded key slots => exact congrArg (padded · slots) (h key rfl)

theorem FieldDescriptor.operations_append {typeName : String} {fields rest : List FieldDescriptor}
    (h : ∀ field ∈ rest, field.serialize →
      field.descriptor.operation (⟨typeName, fields, field⟩ :: inner ++ outer) =
        field.descriptor.operation (⟨typeName, fields, field⟩ :: inner)) :
    operations typeName fields (inner ++ outer) rest = operations typeName fields inner rest := by
  induction rest with
  | nil => rfl
  | cons field rest ih =>
    obtain ⟨hfield, hrest⟩ := List.forall_mem_cons.1 h
    rw [operations_cons, operations_cons, ih hrest]
    split
    · next hserialize => rw [← List.cons_append, hfield hserialize]
    · rfl

/-- What asks for no length from further out has the same operation whatever is there. -/
theorem Descriptor.operation_append {descriptor : Descriptor} (h : descriptor.Lent inner)
    (outer : List Enclosure) :
    descriptor.operation (inner ++ outer) = descriptor.operation inner := by
  induction descriptor using Descriptor.induction generalizing inner with
  | step descriptor _ ihfields =>
    obtain ⟨kind, byteOrder, hasFixedSize, minSize⟩ := descriptor
    cases kind with
    | text encoding size =>
      cases size with
      | nullTerminated => rfl
      | sized policy =>
        exact congrArg (Operation.text encoding <| .sized ·)
          (SizePolicy.map_congr fun key hkey ↦ (h.lends hkey).from_append outer)
    | list element size =>
      exact congrArg (Operation.list _ · _)
        (SizePolicy.map_congr fun key hkey ↦ (h.lends hkey).from_append outer)
    | record name fields =>
      have hfields : FieldDescriptor.operations name fields (inner ++ outer) fields =
          FieldDescriptor.operations name fields inner fields :=
        FieldDescriptor.operations_append fun field hmem hserialize ↦
          ihfields field hmem (h.of_field hmem hserialize)
      change Operation.record ⟨name, FieldPlan.addFeeds _ _, _⟩ = _
      rw [hfields]
      rfl
    | _ => rfl

end

/-! ## Plans of elements -/

namespace Descriptor

variable {descriptor top inner : Descriptor} {address : List (List FieldDescriptor)}

/-- A record that has a plan of its own has the operation of that plan wherever it stands. -/
theorem operation_eq_of_ofDescriptor {plan : Plan} (h : Plan.ofDescriptor descriptor = .ok plan)
    (chain : List Enclosure) : descriptor.operation chain = .record plan.root := by
  obtain ⟨⟨-, hlent⟩, hroot, -, -⟩ := Plan.ofDescriptor_eq_ok_iff.1 h
  rw [← hroot, ← operation_append (lent_nil hlent) chain, List.nil_append]

/-- Where a way begins, nothing is asked for from outside. -/
theorem Starts.settled_and_lent (h : descriptor.Starts address top)
    (hsettled : descriptor.Settled ∧ ∀ demand ∈ descriptor.demands, Lends demand.key demand.chain) :
    top.Settled ∧ ∀ demand ∈ top.demands, Lends demand.key demand.chain := by
  induction h with
  | whole => exact hsettled
  | element reaches mem _ ih =>
    exact ih ((settled_iff_forall_reaches.1 hsettled.1 _ _ reaches).2 _ mem)

/-- A record that is the element of a list has a plan. -/
theorem Starts.exists_plan (h : descriptor.Starts address top) {name : String}
    {fields : List FieldDescriptor} (hkind : top.kind = .record name fields)
    (hsettled : descriptor.Settled ∧ ∀ demand ∈ descriptor.demands, Lends demand.key demand.chain) :
    ∃ plan, Plan.ofDescriptor top = .ok plan := by
  obtain ⟨root, hroot⟩ := exists_operation_eq_record hkind []
  exact ⟨⟨root, _, _⟩,
    Plan.ofDescriptor_eq_ok_iff.2 ⟨h.settled_and_lent hsettled, hroot, rfl, rfl⟩⟩

end Descriptor

/-! ## Bytes of records -/

/-- The writer has sent out what was pending and some parts after it, each of which starts and ends
on a byte.  Without any parts it has done nothing. -/
structure Writer.Appends (writer : Writer) (parts : List (List UInt8)) (next : Writer) : Prop where
  bytes : next.sink.bytes.toList ++ next.packer.pending =
    writer.sink.bytes.toList ++ writer.packer.pending ++ parts.flatten
  packer : next.packer = if parts = [] then writer.packer else {}

namespace Writer.Appends

variable {writer middle next : Writer} {parts more : List (List UInt8)}

theorem refl (writer : Writer) : writer.Appends [] writer := ⟨by simp, rfl⟩

theorem trans (h : writer.Appends parts middle) (hmore : middle.Appends more next) :
    writer.Appends (parts ++ more) next := by
  constructor
  · rw [hmore.bytes, h.bytes, List.flatten_append, List.append_assoc]
  · rw [hmore.packer, h.packer]
    cases parts <;> cases more <;> rfl

end Writer.Appends

/-- The moves of a record start by ending the container before. -/
theorem Descriptor.Writes.exists_eq_cons {descriptor : Descriptor} {chain : List Enclosure}
    {plan : RecordPlan} {value : Value} {moves : List Move}
    (hrecord : descriptor.operation chain = .record plan) (h : descriptor.Writes value moves) :
    ∃ rest, moves = .bytes [] :: rest := by
  obtain ⟨kind, byteOrder, hasFixedSize, minSize⟩ := descriptor
  cases kind with
  | record name fields =>
    obtain ⟨members, inner, -, -, rfl⟩ := h
    exact ⟨_, rfl⟩
  | _ => cases hrecord

/-- What is pending does not matter for moves that start by ending it. -/
theorem Emits.restart {pending : Option Container} {own : List UInt8} {moves : List Move}
    {word : Nat} {bytes : List UInt8} (h : Emits pending (.bytes own :: moves) word bytes)
    (other : Option Container) : word = pendingWord pending ∧
      Emits other (.bytes own :: moves) (pendingWord other) bytes := by
  cases h with
  | bytes rest => exact ⟨rfl, .bytes rest⟩

namespace Schema

variable {alone : Schema} {value : Value} {writer next : Writer} {bytes : List UInt8}
  {chain : List Enclosure} {traversal : Traversal Members}

/-- A record that is written somewhere comes to the bytes that it has by itself. -/
theorem exists_toBytes_of_encode (hplan : Plan.ofDescriptor alone.descriptor = .ok alone.plan)
    (hcoherent : alone.descriptor.Everywhere Descriptor.Coherent)
    (hcodec : alone.descriptor.Everywhere fun inner ↦ inner.isCodec = false)
    (h : (alone.descriptor.operation chain).encode traversal value writer = .ok () next) :
    ∃ bytes, alone.toBytes value = .ok bytes ∧ writer.Appends [bytes] next := by
  obtain ⟨⟨hsettled, -⟩, hroot, -, -⟩ := Plan.ofDescriptor_eq_ok_iff.1 hplan
  have hrecord := Descriptor.operation_eq_of_ofDescriptor hplan chain
  obtain ⟨moves, hwrites, halong⟩ := Descriptor.isWritten hcoherent hcodec hsettled _ _ _ _ _ h
  obtain ⟨rest, rfl⟩ := hwrites.exists_eq_cons hrecord
  have hidle : next.packer = {} := by
    rw [hrecord, Operation.encode] at h
    obtain ⟨_, _, -, h⟩ := run_bind_eq_ok_iff.1 h
    exact RecordPlan.packer_eq_of_encode h
  have hend : Emits next.packer.active [.bytes []] (pendingWord next.packer.active) [] := by
    rw [hidle]
    exact .bytes (.done none)
  obtain ⟨word, bytes, hemits, houtcome⟩ := halong.emits _ _ _ hend
  obtain ⟨rfl, halone⟩ := hemits.restart none
  refine ⟨bytes, toBytes_of_emits (Descriptor.isPerformed hcoherent) hroot hwrites halone, ?_, hidle⟩
  simpa [Writer.outcome, Writer.pending_eq] using houtcome.symm

/-- A record that has bytes by itself is written as them wherever there is room. -/
theorem exists_encode_of_toBytes (hplan : Plan.ofDescriptor alone.descriptor = .ok alone.plan)
    (hcoherent : alone.descriptor.Everywhere Descriptor.Coherent)
    (hcodec : alone.descriptor.Everywhere fun inner ↦ inner.isCodec = false)
    (h : alone.toBytes value = .ok bytes) (hcapacity : writer.sink.capacity = none) :
    ∃ next, (alone.descriptor.operation chain).encode traversal value writer = .ok () next ∧
      writer.Appends [bytes] next ∧ next.sink.capacity = none := by
  obtain ⟨⟨hsettled, -⟩, hroot, -, -⟩ := Plan.ofDescriptor_eq_ok_iff.1 hplan
  obtain ⟨count, sink, hserialize, hsink⟩ := toBytes_eq_ok_iff.1 h
  obtain ⟨moves, word, own, hwrites, hemits, hown, -⟩ := exists_emits_of_serialize
    (Descriptor.isWritten hcoherent hcodec hsettled) hroot hserialize
  obtain ⟨rest, rfl⟩ := hwrites.exists_eq_cons hroot
  have hdue : Writer.Due _ _ writer :=
    ⟨hcapacity, _, _, (hemits.restart writer.packer.active).2, rfl⟩
  obtain ⟨next, hencode, hnext⟩ :=
    Descriptor.isPerformed hcoherent chain traversal _ _ hwrites _ _ _ hdue
  obtain ⟨bytes', hbytes', hadds⟩ := exists_toBytes_of_encode hplan hcoherent hcodec hencode
  obtain rfl : bytes = bytes' := Except.ok.inj (h.symm.trans hbytes')
  exact ⟨next, hencode, hadds, hnext.1⟩

end Schema

/-! ## Lists of records -/

/-- The descriptor is that of a record, or of a list of such, or of a list of such lists, and so on.
-/
inductive Descriptor.Repeats (record : Descriptor) : Descriptor → Prop where
  | here : Repeats record record
  | element {descriptor element : Descriptor} (mem : element ∈ descriptor.element?)
      (rest : Repeats record element) : Repeats record descriptor

mutual

/-- What a value consists of that is a list, or a list of lists, and so on: the items with a default
in each free slot. -/
def Descriptor.Spreads : Descriptor → Value → List Value → Prop
  | ⟨kind, _, _, _⟩ => kind.Spreads

/-- What a value of a kind consists of. -/
def DescriptorKind.Spreads : DescriptorKind → Value → List Value → Prop
  | .list element size, value, leaves =>
    ∃ items filled parts, value = .list items ∧ size.filled? element.default? items = some filled ∧
      List.Forall₂ element.Spreads filled parts ∧ leaves = parts.flatten
  | _, value, leaves => leaves = [value]

end

theorem Descriptor.spreads_of_record {descriptor : Descriptor} {chain : List Enclosure}
    {plan : RecordPlan} (hrecord : descriptor.operation chain = .record plan) {value : Value}
    {leaves : List Value} : descriptor.Spreads value leaves ↔ leaves = [value] := by
  obtain ⟨kind, byteOrder, hasFixedSize, minSize⟩ := descriptor
  cases kind with
  | record => exact Iff.rfl
  | _ => cases hrecord

/-- What goes with some things one after the other goes with the first and with the rest of them. -/
theorem exists_append_of_forall₂ {α β : Type} {R : α → β → Prop} {first more : List α} {all : List β}
    (h : List.Forall₂ R (first ++ more) all) :
    ∃ own rest, all = own ++ rest ∧ List.Forall₂ R first own ∧ List.Forall₂ R more rest := by
  induction first generalizing all with
  | nil => exact ⟨[], all, rfl, .nil, h⟩
  | cons a first ih =>
    obtain ⟨b, tail, hab, htail, rfl⟩ := List.forall₂_cons_left_iff.1 h
    obtain ⟨own, rest, rfl, hown, hrest⟩ := ih htail
    exact ⟨b :: own, rest, rfl, .cons hab hown, hrest⟩

namespace Operation

variable {action : Nat → Value → WriteM Unit} {P : Value → List Value → Prop}
  {R : Value → List UInt8 → Prop} {items : List Value} {writer next : Writer} {position : Nat}

/-- If each item that is written is written part after part, all of them are. -/
theorem exists_appends_of_forItems
    (haction : ∀ position item writer next, action position item writer = .ok () next →
      ∃ leaves parts, P item leaves ∧ List.Forall₂ R leaves parts ∧ writer.Appends parts next)
    (h : forItems action position items writer = .ok () next) :
    ∃ leaves parts, List.Forall₂ P items leaves ∧ List.Forall₂ R leaves.flatten parts ∧
      writer.Appends parts next := by
  induction items generalizing position writer with
  | nil =>
    obtain ⟨-, rfl⟩ := run_pure_eq_ok_iff.1 h
    exact ⟨[], [], .nil, .nil, .refl writer⟩
  | cons item items ih =>
    rw [forItems, run_bind_eq_ok_iff] at h
    obtain ⟨_, middle, hitem, hitems⟩ := h
    obtain ⟨own, parts, hown, hparts, hfirst⟩ := haction _ _ _ _ hitem
    obtain ⟨rest, more, hrest, hmore, hlast⟩ := ih hitems
    exact ⟨own :: rest, parts ++ more, .cons hown hrest, List.rel_append hparts hmore,
      hfirst.trans hlast⟩

/-- If each item is written part after part where there is room, all of them are. -/
theorem exists_forItems_of_parts {leaves : List (List Value)} {parts : List (List UInt8)}
    (haction : ∀ position item leaves parts writer, P item leaves → List.Forall₂ R leaves parts →
      writer.sink.capacity = none → ∃ next, action position item writer = .ok () next ∧
        writer.Appends parts next ∧ next.sink.capacity = none)
    (hleaves : List.Forall₂ P items leaves) (hparts : List.Forall₂ R leaves.flatten parts)
    (hcapacity : writer.sink.capacity = none) :
    ∃ next, forItems action position items writer = .ok () next ∧ writer.Appends parts next ∧
      next.sink.capacity = none := by
  induction hleaves generalizing position writer parts with
  | nil =>
    cases hparts
    exact ⟨writer, rfl, .refl writer, hcapacity⟩
  | cons hown _ ih =>
    obtain ⟨own, rest, rfl, hfirst, hrest⟩ := exists_append_of_forall₂ hparts
    obtain ⟨middle, hitem, happends, hmiddle⟩ := haction _ _ _ _ _ hown hfirst hcapacity
    obtain ⟨next, hitems, hmore, hnext⟩ := ih hrest hmiddle
    exact ⟨next, run_bind_eq_ok_iff.2 ⟨(), middle, hitem, hitems⟩, happends.trans hmore, hnext⟩

end Operation

namespace Schema

variable {alone : Schema} {descriptor : Descriptor} {value : Value} {writer next : Writer}
  {chain : List Enclosure} {traversal : Traversal Members}

/-- A list of records that is written comes to the bytes of all its records. -/
theorem exists_parts_of_encode (hplan : Plan.ofDescriptor alone.descriptor = .ok alone.plan)
    (hcoherent : alone.descriptor.Everywhere Descriptor.Coherent)
    (hcodec : alone.descriptor.Everywhere fun inner ↦ inner.isCodec = false)
    (hrepeats : alone.descriptor.Repeats descriptor)
    (h : (descriptor.operation chain).encode traversal value writer = .ok () next) :
    ∃ leaves parts, descriptor.Spreads value leaves ∧
      List.Forall₂ (fun leaf bytes ↦ alone.toBytes leaf = .ok bytes) leaves parts ∧
      writer.Appends parts next := by
  induction hrepeats generalizing chain traversal value writer next with
  | here =>
    obtain ⟨bytes, hbytes, happends⟩ := exists_toBytes_of_encode hplan hcoherent hcodec h
    have hrecord := Descriptor.operation_eq_of_ofDescriptor hplan chain
    exact ⟨[value], [bytes], (Descriptor.spreads_of_record hrecord).2 rfl, .cons hbytes .nil,
      happends⟩
  | @element descriptor element mem _ ih =>
    obtain ⟨kind, byteOrder, hasFixedSize, minSize⟩ := descriptor
    cases kind with
    | list own size =>
      cases mem
      obtain ⟨items, filled, rfl, hfilled, hitems⟩ := Operation.exists_filled?_of_encode_list h
      rw [SizePolicy.filled?_map] at hfilled
      obtain ⟨leaves, parts, hleaves, hparts, happends⟩ := Operation.exists_appends_of_forItems
        (fun position item writer next hitem ↦ ih (WriteM.run_locate_eq_ok_iff.1 hitem)) hitems
      exact ⟨leaves.flatten, parts, ⟨items, filled, leaves, rfl, hfilled, hleaves, rfl⟩, hparts,
        happends⟩
    | _ => cases mem

/-- A list of records that have bytes is written as them wherever there is room. -/
theorem exists_encode_of_parts (hplan : Plan.ofDescriptor alone.descriptor = .ok alone.plan)
    (hcoherent : alone.descriptor.Everywhere Descriptor.Coherent)
    (hcodec : alone.descriptor.Everywhere fun inner ↦ inner.isCodec = false)
    (hrepeats : alone.descriptor.Repeats descriptor) {leaves : List Value}
    {parts : List (List UInt8)} (hspreads : descriptor.Spreads value leaves)
    (hparts : List.Forall₂ (fun leaf bytes ↦ alone.toBytes leaf = .ok bytes) leaves parts)
    (hcapacity : writer.sink.capacity = none) :
    ∃ next, (descriptor.operation chain).encode traversal value writer = .ok () next ∧
      writer.Appends parts next ∧ next.sink.capacity = none := by
  induction hrepeats generalizing chain traversal value writer leaves parts with
  | here =>
    have hrecord := Descriptor.operation_eq_of_ofDescriptor hplan chain
    obtain rfl := (Descriptor.spreads_of_record hrecord).1 hspreads
    obtain ⟨bytes, _, hbytes, hnil, rfl⟩ := List.forall₂_cons_left_iff.1 hparts
    cases hnil
    exact exists_encode_of_toBytes hplan hcoherent hcodec hbytes hcapacity
  | @element descriptor element mem _ ih =>
    obtain ⟨kind, byteOrder, hasFixedSize, minSize⟩ := descriptor
    cases kind with
    | list own size =>
      cases mem
      obtain ⟨items, filled, spread, rfl, hfilled, hspread, rfl⟩ := hspreads
      change ∃ next, Operation.encode traversal _ (.list ..) writer = _ ∧ _
      rw [Operation.encode_list (by rwa [SizePolicy.filled?_map])]
      refine Operation.exists_forItems_of_parts (fun position item leaves parts writer hitem
        hleaves hroom ↦ ?_) hspread hparts hcapacity
      obtain ⟨next, hencode, hnext⟩ := ih hitem hleaves hroom
      exact ⟨next, WriteM.run_locate_eq_ok_iff.2 hencode, hnext⟩
    | _ => cases mem

end Schema

/-! ## Schemas -/

theorem Descriptor.Everywhere.of_repeats {P : Descriptor → Prop} {record descriptor : Descriptor}
    (h : descriptor.Everywhere P) (hrepeats : record.Repeats descriptor) : record.Everywhere P := by
  induction hrepeats with
  | here => exact h
  | element mem _ ih => exact ih (h.of_element mem)

/-- A list is written as what it consists of, one after the other, each by itself. -/
structure Operation.WritesEach (operation : Operation) (list : Descriptor) (alone : Schema) :
    Prop where
  /-- Whatever has been written is the bytes of each. -/
  written : ∀ traversal value writer next, operation.encode traversal value writer = .ok () next →
    ∃ leaves parts, list.Spreads value leaves ∧
      List.Forall₂ (fun leaf bytes ↦ alone.toBytes leaf = .ok bytes) leaves parts ∧
      writer.Appends parts next
  /-- If each has bytes, they are written. -/
  writable : ∀ traversal value writer leaves parts, writer.sink.capacity = none →
    list.Spreads value leaves →
    List.Forall₂ (fun leaf bytes ↦ alone.toBytes leaf = .ok bytes) leaves parts →
      ∃ next, operation.encode traversal value writer = .ok () next ∧ writer.Appends parts next

namespace Schema

variable {layout : Layout} {schema : Schema}

/-- Records are compiled by themselves, wherever they are. -/
structure CompilesLocally (schema : Schema) : Prop where
  /-- A record that is the element of a list has a plan of its own. -/
  elements : ∀ address top name fields, schema.descriptor.Starts address top → address ≠ [] →
    top.kind = .record name fields → ∃ plan, Plan.ofDescriptor top = .ok plan
  /-- A record that has a plan of its own is planned as such where it stands. -/
  records : ∀ address top path record plan, schema.descriptor.Starts address top →
    top.Reaches path record → Plan.ofDescriptor record = .ok plan → ∃ start,
      (Operation.record schema.plan.root).enter? (address.map FieldDescriptor.names) = some start ∧
      start.follow? (FieldDescriptor.names path) = some (.record plan.root)
  /-- A list of records without codecs, or of lists of such, is written record by record. -/
  lists : ∀ address top path list element alone, schema.descriptor.Starts address top →
    top.Reaches path list → element ∈ list.element? → alone.descriptor.Repeats element →
    Plan.ofDescriptor alone.descriptor = .ok alone.plan →
    (alone.descriptor.Everywhere fun inner ↦ inner.isCodec = false) → ∃ start operation,
      (Operation.record schema.plan.root).enter? (address.map FieldDescriptor.names) = some start ∧
      start.follow? (FieldDescriptor.names path) = some operation ∧
      operation.WritesEach list alone

/-- Records are compiled by themselves, wherever they are in a schema. -/
theorem compilesLocally (h : ofLayout layout = .ok schema) : schema.CompilesLocally := by
  obtain ⟨hdescribe, hplan⟩ := ofLayout_eq_ok h
  obtain ⟨hsettled, hroot, -, -⟩ := Plan.ofDescriptor_eq_ok_iff.1 hplan
  have hcoherent := Layout.describe_coherent hdescribe
  have hnames := Layout.everywhere_nodup_names hdescribe
  have hplace {address top path inner} (hstarts : schema.descriptor.Starts address top)
      (hreaches : top.Reaches path inner) : ∃ start,
      (Operation.record schema.plan.root).enter? (address.map FieldDescriptor.names) = some start ∧
      start.follow? (FieldDescriptor.names path) =
        some (inner.operation (top.enclosures path ++ [])) := by
    rw [← hroot]
    exact ⟨_, hstarts.enter?_operation hnames, hreaches.follow?_operation (hnames.of_starts hstarts)⟩
  constructor
  case elements =>
    exact fun address top name fields hstarts _ hkind ↦ hstarts.exists_plan hkind hsettled
  case records =>
    intro address top path record plan hstarts hreaches hrecord
    obtain ⟨start, henter, hfollow⟩ := hplace hstarts hreaches
    rw [Descriptor.operation_eq_of_ofDescriptor hrecord] at hfollow
    exact ⟨start, henter, hfollow⟩
  case lists =>
    intro address top path list element alone hstarts hreaches hmem hrepeats halone hcodec
    obtain ⟨start, henter, hfollow⟩ := hplace hstarts hreaches
    have hinner : alone.descriptor.Everywhere Descriptor.Coherent :=
      (((hcoherent.of_starts hstarts).of_reaches hreaches).of_element hmem).of_repeats hrepeats
    refine ⟨start, _, henter, hfollow, fun traversal value writer next hencode ↦ ?_,
      fun traversal value writer leaves parts hcapacity hspreads hparts ↦ ?_⟩
    · exact exists_parts_of_encode halone hinner hcodec (.element hmem hrepeats) hencode
    · obtain ⟨next, hencode, happends, -⟩ := exists_encode_of_parts halone hinner hcodec
        (.element hmem hrepeats) hspreads hparts hcapacity
      exact ⟨next, hencode, happends⟩

end Schema

/-- Two slots for counts with their bytes. -/
def Layout.shelf : Layout where
  name := "Shelf"
  fields := [
    { name := "rows", order := some 0, shape := .list ⟨.record .counted, none⟩
      tag := some (.list { fixedLength := some 2 }) }]

/-- The descriptor of two slots for counts with their bytes. -/
def Descriptor.shelf : Descriptor where
  kind := .record "Shelf" [
    ⟨"rows", 0, ⟨.list .counted (.fixed 2), .little, false, 2⟩, true, none, false⟩]
  byteOrder := .little
  hasFixedSize := false
  minSize := 2

theorem Layout.describe_shelf : Layout.shelf.describe = .ok Descriptor.shelf := by cbv

/-- The schema of two slots for counts with their bytes. -/
def Schema.shelf : Schema where
  name := "Shelf"
  descriptor := .shelf
  plan := {
    root := {
      name := "Shelf"
      fields := [
        ⟨"rows", .list (.record Schema.counted.plan.root) (.fixed 2)
          (some (.record [("count", .integer .u8 0), ("items", .list [])])), none, none, false⟩]
      skipped := [] }
    hasFixedSize := false
    minSize := 2 }

theorem Schema.ofLayout_shelf : ofLayout .shelf = .ok .shelf := by
  rw [ofLayout, Layout.describe_shelf]
  rfl

/-- A count with two bytes comes to the same in a slot as it does by itself, and so does an empty
one in the slot that is free. -/
theorem Schema.shelf_compilesLocally : Schema.shelf.CompilesLocally ∧
    Schema.counted.toBytes (.counted 9) = .ok [2, 3, 5] ∧
    Schema.counted.toBytes (.record [("count", .integer .u8 0), ("items", .list [])]) = .ok [0] ∧
    Schema.shelf.toBytes (.record [("rows", .list [.counted 9])]) = .ok ([2, 3, 5] ++ [0]) :=
  ⟨Schema.compilesLocally Schema.ofLayout_shelf, rfl, rfl, rfl⟩

end WireFormat
