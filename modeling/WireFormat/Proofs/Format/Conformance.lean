import WireFormat.Proofs.Conflict.Clash
import WireFormat.Proofs.Format.Rewrite

/-!
# Which values can be written

A value can be written exactly if it conforms to its descriptor: what conformity asks for says
nothing about the order in which anything is written.  Values that conform have moves, and moves in
one order of bytes can be made.

* `Descriptor.Conforms` — the values that conform to a descriptor;
* `Descriptor.exists_writes_iff` — they are the ones that have moves;
* `Descriptor.inOrder_of_writes` — the moves keep the order of bytes of the bit fields;
* `Schema.exists_toBytes_iff` — a value can be written exactly if it conforms.
-/

namespace WireFormat

variable {value : Value} {moves : List Move} {byteOrder : ByteOrder} {hasFixedSize : Bool}
  {minSize : UInt64}

/-! ## Conformity -/

/-- The texts that fit, by the number of their bytes.  Where zeros do not end a text, it has to fill
its slots. -/
def TextSize.Fits {κ : Type} (encoding : Encoding) (text : String) (length : Nat) :
    TextSize κ → Prop
  | nullTerminated => Char.ofNat 0 ∉ text.toList
  | sized (.keyed _) => True
  | sized (.fixed slots) => length ≤ slots ∧ (encoding.isNullTerminable = false → length = slots)
  | sized (.padded _ slots) => length ≤ slots

/-- There are slots left after some items. -/
def SizePolicy.HasFree {κ : Type} (policy : SizePolicy κ) (count : Nat) : Prop :=
  ∃ slots ∈ policy.slots?, count < slots

/-- The lengths that a field can hold. -/
def DescriptorKind.HoldsLength (length : Nat) : DescriptorKind → Prop
  | .scalar kind => kind.Fits length
  | .bits .integer repr width _ => width ≠ 0 ∧ Flavor.Represents repr.isSigned width length
  | _ => False

/-- Every length that a record carries can be counted in what takes it, and held by its field. -/
def FieldDescriptor.Measurable (name : String) (fields : List FieldDescriptor) (members : Members) :
    Prop :=
  ∀ field ∈ fields, ∀ key, field.carries key → ∃ feed length,
    feedOf (demandsAll name fields fields) key = some feed ∧
      feed.count (.record members) = some length ∧ field.descriptor.kind.HoldsLength length

/-- A value conforms to a descriptor.  Members that carry a length or are not on the wire do not
matter, and need not be there. -/
inductive Descriptor.Conforms : Descriptor → Value → Prop where
  | scalar {kind : ScalarKind} {byteOrder : ByteOrder} {hasFixedSize : Bool} {minSize : UInt64}
      {value : Value} (held : value.IsScalar kind) :
      Conforms ⟨.scalar kind, byteOrder, hasFixedSize, minSize⟩ value
  | boolean {repr : IntegerKind} {byteOrder : ByteOrder} {hasFixedSize : Bool} {minSize : UInt64}
      (truth : Bool) : Conforms ⟨.boolean repr, byteOrder, hasFixedSize, minSize⟩ (.bool truth)
  | enum {repr : IntegerKind} {type : EnumType} {byteOrder : ByteOrder} {hasFixedSize : Bool}
      {minSize : UInt64} {number : Int} (fits : repr.Fits number) :
      Conforms ⟨.enum repr type, byteOrder, hasFixedSize, minSize⟩ (.enum number)
  | noBits {content : BitContent} {repr : IntegerKind} {container : Nat} {byteOrder : ByteOrder}
      {hasFixedSize : Bool} {minSize : UInt64} (value : Value) :
      Conforms ⟨.bits content repr 0 container, byteOrder, hasFixedSize, minSize⟩ value
  | bits {content : BitContent} {repr : IntegerKind} {width container : Nat}
      {byteOrder : ByteOrder} {hasFixedSize : Bool} {minSize : UInt64} {value : Value}
      {number : Int}
      (wide : width ≠ 0) (stands : content.flavor.Stands repr value number)
      (represents : Flavor.Represents (content.flavor.isSigned (.integer repr)) width number) :
      Conforms ⟨.bits content repr width container, byteOrder, hasFixedSize, minSize⟩ value
  | text {encoding : Encoding} {size : TextSize String} {byteOrder : ByteOrder}
      {hasFixedSize : Bool} {minSize : UInt64} {text : String} {bytes : List UInt8}
      (encode : encoding.encode text = .ok bytes) (fits : size.Fits encoding text bytes.length) :
      Conforms ⟨.text encoding size, byteOrder, hasFixedSize, minSize⟩ (.text text)
  | list {element : Descriptor} {size : SizePolicy String} {byteOrder : ByteOrder}
      {hasFixedSize : Bool} {minSize : UInt64} {items : List Value}
      (le : ∀ slots ∈ size.slots?, items.length ≤ slots)
      (each : ∀ item ∈ items, Conforms element item)
      (filled : size.HasFree items.length → element.default?.isSome)
      (default : size.HasFree items.length → ∀ value ∈ element.default?, Conforms element value) :
      Conforms ⟨.list element size, byteOrder, hasFixedSize, minSize⟩ (.list items)
  | record {name : String} {fields : List FieldDescriptor} {byteOrder : ByteOrder}
      {hasFixedSize : Bool} {minSize : UInt64} {members : Members}
      (present : ∀ field ∈ fields, field.serialize → field.lengthOf = none →
        (members.find? field.name).isSome)
      (each : ∀ field ∈ fields, field.serialize → field.lengthOf = none →
        ∀ value ∈ members.find? field.name, Conforms field.descriptor value)
      (lengths : FieldDescriptor.Measurable name fields members) :
      Conforms ⟨.record name fields, byteOrder, hasFixedSize, minSize⟩ (.record members)

/-! ## Texts and lists -/

/-- A text has moves exactly if it fits. -/
theorem TextSize.exists_writes_iff {encoding : Encoding} {size : TextSize String} {text : String}
    {bytes : List UInt8} (hterminable : size = .nullTerminated → encoding.isNullTerminable)
    (hencode : encoding.encode text = .ok bytes) :
    (∃ moves, size.Writes encoding bytes moves) ↔ size.Fits encoding text bytes.length := by
  constructor
  · rintro ⟨moves, nul | key | ⟨le, terminable⟩ | ⟨key, le⟩⟩
    · exact Encoding.nul_notMem_of_encode (hterminable rfl) hencode nul
    · trivial
    · refine ⟨le, fun hother ↦ Nat.le_antisymm le (Nat.not_lt.1 fun hlt ↦ ?_)⟩
      rw [terminable hlt] at hother
      cases hother
    · exact le
  · intro h
    cases size with
    | nullTerminated =>
      have hzero : 0 ∉ bytes := Encoding.zero_notMem_of_encode (hterminable rfl) hencode h
      exact ⟨_, .nullTerminated hzero⟩
    | sized policy =>
      cases policy with
      | keyed key => exact ⟨_, .keyed key⟩
      | padded key slots => exact ⟨_, .padded key h⟩
      | fixed slots =>
        refine ⟨_, .fixed h.1 fun hlt ↦ Bool.of_not_eq_false fun hother ↦ ?_⟩
        exact Nat.ne_of_lt hlt (h.2 hother)

/-- What holds of all items that fill a list holds of its own items, and of what fills the slots
after them. -/
theorem SizePolicy.exists_filled?_iff {policy : SizePolicy String} {default? : Option Value}
    {items : List Value} {P : Value → Prop} :
    (∃ filled, policy.filled? default? items = some filled ∧ ∀ item ∈ filled, P item) ↔
      (∀ slots ∈ policy.slots?, items.length ≤ slots) ∧ (∀ item ∈ items, P item) ∧
        (policy.HasFree items.length → default?.isSome) ∧
          (policy.HasFree items.length → ∀ value ∈ default?, P value) := by
  cases hslots : policy.slots? with
  | none =>
    have hfilled : policy.filled? default? items = some items := by
      rw [filled?, hslots]
    simp [hfilled, HasFree, hslots]
  | some slots =>
    have hfree : policy.HasFree items.length ↔ items.length < slots := by
      simp [HasFree, hslots]
    simp only [filled?_eq_some_iff hslots, hfree, Option.mem_def, Option.some.injEq,
      forall_eq']
    constructor
    · rintro ⟨filled, ⟨hle, hsome, rfl⟩, h⟩
      obtain ⟨hitems, hslots⟩ := List.forall_mem_append.1 h
      refine ⟨hle, hitems, hsome, fun hlt value hvalue ↦ hslots value ?_⟩
      rw [hvalue]
      exact List.mem_replicate.2 ⟨Nat.sub_ne_zero_of_lt hlt, rfl⟩
    · rintro ⟨hle, hitems, hsome, hdefault⟩
      refine ⟨_, ⟨hle, hsome, rfl⟩, List.forall_mem_append.2 ⟨hitems, fun item hitem ↦ ?_⟩⟩
      cases default? with
      | none => cases hitem
      | some value =>
        obtain ⟨hne, rfl⟩ := List.mem_replicate.1 hitem
        exact hdefault (Nat.lt_of_sub_ne_zero hne) item rfl

theorem exists_forall₂_iff {α β : Type} {R : α → β → Prop} {as : List α} :
    (∃ bs, List.Forall₂ R as bs) ↔ ∀ a ∈ as, ∃ b, R a b := by
  induction as with
  | nil => simp
  | cons a as ih =>
    rw [List.forall_mem_cons, ← ih]
    constructor
    · rintro ⟨_, _ | ⟨hab, hrest⟩⟩
      exact ⟨⟨_, hab⟩, _, hrest⟩
    · rintro ⟨⟨b, hab⟩, bs, hrest⟩
      exact ⟨b :: bs, .cons hab hrest⟩

/-! ## Scalars and lengths -/

theorem Flavor.exists_writesScalar_iff {flavor : Flavor} {kind : ScalarKind} :
    (∃ moves, flavor.WritesScalar kind byteOrder value moves) ↔
      ∃ raw, flavor.encode kind value = .ok raw :=
  ⟨fun ⟨_, raw, hraw, _⟩ ↦ ⟨raw, hraw⟩, fun ⟨raw, hraw⟩ ↦ ⟨_, raw, hraw, rfl⟩⟩

/-- A length has moves exactly if the field can hold it. -/
theorem DescriptorKind.exists_writesLength_iff {kind : DescriptorKind} {length : Nat} :
    (∃ moves, kind.WritesLength byteOrder length moves) ↔ kind.HoldsLength length := by
  cases kind with
  | scalar kind =>
    have hraw : (∃ raw, Value.integerToRaw kind length = .ok raw) ↔ kind.Fits length := by
      rw [Value.integerToRaw]
      split
      · next hfits => simp [hfits]
      · next hfits => simp [hfits]
    rw [HoldsLength, ← hraw]
    constructor
    · rintro ⟨_, raw, hraw, -⟩
      exact ⟨raw, hraw⟩
    · rintro ⟨raw, hraw⟩
      exact ⟨_, raw, hraw, rfl⟩
  | bits content repr width container =>
    cases content with
    | integer =>
      rw [HoldsLength, ← Flavor.exists_bitsOf_iff]
      constructor
      · rintro ⟨_, raw, hraw, -⟩
        exact ⟨raw, hraw⟩
      · rintro ⟨raw, hraw⟩
        exact ⟨_, raw, hraw, rfl⟩
    | _ => exact iff_of_false (fun h ↦ h.elim fun _ ↦ id) id
  | _ => exact iff_of_false (fun h ↦ h.elim fun _ ↦ id) id

/-! ## Descriptors -/

/-- The fields of a record have moves exactly if each field of the wire has. -/
theorem FieldDescriptor.exists_writesAll_iff {demands : List Demand} {members : Members}
    {rest : List FieldDescriptor} : (∃ moves, WritesAll demands members rest moves) ↔
      ∀ field ∈ rest, field.serialize → ∃ own, WritesOwn demands members field.name field.descriptor
        field.lengthOf field.descriptor.Writes own := by
  induction rest with
  | nil => exact ⟨fun _ ↦ nofun, fun _ ↦ ⟨[], rfl⟩⟩
  | cons field rest ih =>
    rw [List.forall_mem_cons, ← ih]
    cases hserialize : field.serialize with
    | false => simp [writesAll_cons_of_not_serialize hserialize]
    | true =>
      simp only [writesAll_cons_of_serialize hserialize]
      constructor
      · rintro ⟨_, own, more, hown, hmore, rfl⟩
        exact ⟨fun _ ↦ ⟨own, hown⟩, more, hmore⟩
      · rintro ⟨hown, more, hmore⟩
        obtain ⟨own, hown⟩ := hown trivial
        exact ⟨_, own, more, hown, hmore, rfl⟩

namespace Descriptor

theorem exists_writes_bits_iff {content : BitContent} {repr : IntegerKind} {width container : Nat} :
    (∃ moves, Writes ⟨.bits content repr width container, byteOrder, hasFixedSize, minSize⟩ value
      moves) ↔
      Conforms ⟨.bits content repr width container, byteOrder, hasFixedSize, minSize⟩ value := by
  change (∃ moves, if width = 0 then _ else _) ↔ _
  by_cases hwidth : width = 0
  · subst hwidth
    simp only [if_pos]
    exact ⟨fun _ ↦ .noBits value, fun _ ↦ ⟨_, rfl⟩⟩
  · simp only [if_neg hwidth]
    constructor
    · rintro ⟨moves, raw, hraw, -⟩
      obtain ⟨-, number, hstands, hrepresents⟩ := Flavor.exists_encodeBits_iff.1 ⟨raw, hraw⟩
      exact .bits hwidth hstands hrepresents
    · intro h
      cases h with
      | noBits => exact (hwidth rfl).elim
      | bits wide stands represents =>
        obtain ⟨raw, hraw⟩ := Flavor.exists_encodeBits_iff.2 ⟨wide, _, stands, represents⟩
        exact ⟨_, raw, hraw, rfl⟩

theorem exists_writes_text_iff {encoding : Encoding} {size : TextSize String}
    (hterminable : size = .nullTerminated → encoding.isNullTerminable) :
    (∃ moves, Writes ⟨.text encoding size, byteOrder, hasFixedSize, minSize⟩ value moves) ↔
      Conforms ⟨.text encoding size, byteOrder, hasFixedSize, minSize⟩ value := by
  constructor
  · rintro ⟨moves, text, bytes, rfl, hencode, hwrites⟩
    exact .text hencode ((TextSize.exists_writes_iff hterminable hencode).1 ⟨moves, hwrites⟩)
  · intro h
    cases h with
    | text encode fits =>
      obtain ⟨moves, hwrites⟩ := (TextSize.exists_writes_iff hterminable encode).2 fits
      exact ⟨moves, _, _, rfl, encode, hwrites⟩

theorem exists_writes_list_iff {element : Descriptor} {size : SizePolicy String}
    (helement : ∀ item, (∃ moves, element.Writes item moves) ↔ element.Conforms item) :
    (∃ moves, Writes ⟨.list element size, byteOrder, hasFixedSize, minSize⟩ value moves) ↔
      Conforms ⟨.list element size, byteOrder, hasFixedSize, minSize⟩ value := by
  constructor
  · rintro ⟨_, items, filled, parts, rfl, hfilled, hparts, rfl⟩
    have hall : ∀ item ∈ filled, element.Conforms item := fun item hmem ↦
      (helement item).1 (exists_forall₂_iff.1 ⟨parts, hparts⟩ item hmem)
    obtain ⟨hle, heach, hsome, hdefault⟩ :=
      SizePolicy.exists_filled?_iff.1 ⟨filled, hfilled, hall⟩
    exact .list hle heach hsome hdefault
  · intro h
    cases h with
    | list le each filled default =>
      obtain ⟨all, hfilled, hall⟩ := SizePolicy.exists_filled?_iff.2 ⟨le, each, filled, default⟩
      obtain ⟨parts, hparts⟩ := exists_forall₂_iff.2 fun item hmem ↦
        (helement item).2 (hall item hmem)
      exact ⟨_, _, all, parts, rfl, hfilled, hparts, rfl⟩

theorem exists_writes_record_iff {name : String} {fields : List FieldDescriptor}
    (hfields : ∀ field ∈ fields, ∀ value,
      (∃ moves, field.descriptor.Writes value moves) ↔ field.descriptor.Conforms value) :
    (∃ moves, Writes ⟨.record name fields, byteOrder, hasFixedSize, minSize⟩ value moves) ↔
      Conforms ⟨.record name fields, byteOrder, hasFixedSize, minSize⟩ value := by
  constructor
  · rintro ⟨_, members, inner, rfl, hinner, rfl⟩
    have hown := FieldDescriptor.exists_writesAll_iff.1 ⟨inner, hinner⟩
    have hplain : ∀ field ∈ fields, field.serialize → field.lengthOf = none →
        ∃ value, Members.find? field.name members = some value ∧
          field.descriptor.Conforms value := by
      intro field hmem hserialize hnone
      obtain ⟨own, hwrites⟩ := hown field hmem hserialize
      rw [hnone] at hwrites
      obtain ⟨value, hfind, hwrites⟩ := hwrites
      exact ⟨value, hfind, (hfields field hmem value).1 ⟨own, hwrites⟩⟩
    refine .record (fun field hmem hserialize hnone ↦ ?_)
      (fun field hmem hserialize hnone value hvalue ↦ ?_) fun field hmem key hcarries ↦ ?_
    · obtain ⟨value, hfind, -⟩ := hplain field hmem hserialize hnone
      exact Option.isSome_of_eq_some hfind
    · obtain ⟨own, hfind, hconforms⟩ := hplain field hmem hserialize hnone
      obtain rfl : own = value := Option.some.inj (hfind.symm.trans hvalue)
      exact hconforms
    · obtain ⟨hserialize, hkey⟩ := FieldDescriptor.carries_iff.1 hcarries
      obtain ⟨own, hwrites⟩ := hown field hmem hserialize
      rw [hkey] at hwrites
      obtain ⟨feed, length, hfeed, hcount, hwrites⟩ := hwrites
      exact ⟨feed, length, hfeed, hcount, DescriptorKind.exists_writesLength_iff.1 ⟨own, hwrites⟩⟩
  · intro h
    cases h with
    | @record _ _ _ _ _ members present each lengths =>
      have hown : ∀ field ∈ fields, field.serialize → ∃ own, FieldDescriptor.WritesOwn
          (FieldDescriptor.demandsAll name fields fields) members field.name field.descriptor
          field.lengthOf field.descriptor.Writes own := by
        intro field hmem hserialize
        cases hkey : field.lengthOf with
        | none =>
          obtain ⟨value, hfind⟩ := Option.isSome_iff_exists.1 (present field hmem hserialize hkey)
          obtain ⟨own, hwrites⟩ :=
            (hfields field hmem value).2 (each field hmem hserialize hkey value hfind)
          exact ⟨own, value, hfind, hwrites⟩
        | some key =>
          obtain ⟨feed, length, hfeed, hcount, hholds⟩ :=
            lengths field hmem key (FieldDescriptor.carries_iff.2 ⟨hserialize, hkey⟩)
          obtain ⟨own, hwrites⟩ := DescriptorKind.exists_writesLength_iff.2 hholds
          exact ⟨own, feed, length, hfeed, hcount, hwrites⟩
      obtain ⟨inner, hinner⟩ := FieldDescriptor.exists_writesAll_iff.2 hown
      exact ⟨_, members, inner, rfl, hinner, rfl⟩

/-- A value has moves exactly if it conforms. -/
theorem exists_writes_iff {descriptor : Descriptor} (hcoherent : descriptor.Everywhere Coherent) :
    (∃ moves, descriptor.Writes value moves) ↔ descriptor.Conforms value := by
  induction descriptor using Descriptor.induction generalizing value with
  | step descriptor ihelement ihfields =>
    obtain ⟨kind, byteOrder, hasFixedSize, minSize⟩ := descriptor
    cases kind with
    | scalar kind =>
      refine Flavor.exists_writesScalar_iff.trans (Value.exists_toRaw_iff.trans ⟨.scalar, ?_⟩)
      rintro ⟨held⟩
      exact held
    | boolean repr =>
      refine Flavor.exists_writesScalar_iff.trans (Flavor.exists_encode_boolean_iff.trans ⟨?_, ?_⟩)
      · rintro ⟨truth, rfl⟩
        exact .boolean truth
      · intro h
        cases h with
        | boolean truth => exact ⟨truth, rfl⟩
    | enum repr type =>
      refine Flavor.exists_writesScalar_iff.trans (Flavor.exists_encode_enum_iff.trans ⟨?_, ?_⟩)
      · rintro ⟨number, rfl, hfits⟩
        exact .enum hfits
      · intro h
        cases h with
        | enum fits => exact ⟨_, rfl, fits⟩
    | bits content repr width container => exact exists_writes_bits_iff
    | text encoding size => exact exists_writes_text_iff hcoherent.here.2
    | list element size =>
      exact exists_writes_list_iff fun item ↦ ihelement element rfl (hcoherent.of_element rfl)
    | record name fields =>
      exact exists_writes_record_iff fun field hmem value ↦
        ihfields field hmem (hcoherent.of_field hmem)
    | custom codec context => exact ⟨fun ⟨_, h⟩ ↦ h.elim, nofun⟩

end Descriptor

/-! ## The order of bytes -/

namespace FieldDescriptor

variable {demands : List Demand} {members : Members} {rest : List FieldDescriptor}

/-- What holds of the moves of each field, and of the end of a container, holds of all moves of a
record. -/
theorem forall_mem_of_writesAll {P : Move → Prop} (hend : P (.bytes []))
    (hfields : ∀ field ∈ rest, field.serialize → ∀ own, WritesOwn demands members field.name
      field.descriptor field.lengthOf field.descriptor.Writes own → ∀ move ∈ own, P move)
    (h : WritesAll demands members rest moves) : ∀ move ∈ moves, P move := by
  induction rest generalizing moves with
  | nil =>
    obtain rfl : moves = [] := h
    exact fun _ hmem ↦ (List.not_mem_nil hmem).elim
  | cons field rest ih =>
    obtain ⟨hfield, hrest⟩ := List.forall_mem_cons.1 hfields
    cases hserialize : field.serialize with
    | false => exact ih hrest ((writesAll_cons_of_not_serialize hserialize).1 h)
    | true =>
      obtain ⟨own, more, hown, hmore, rfl⟩ := (writesAll_cons_of_serialize hserialize).1 h
      refine List.forall_mem_append.2 ⟨List.forall_mem_append.2 ⟨hfield hserialize own hown, ?_⟩,
        ih hrest hmore⟩
      intro move hmem
      rw [padding] at hmem
      split at hmem
      · obtain rfl := List.mem_singleton.1 hmem
        exact hend
      · cases hmem

end FieldDescriptor

namespace Descriptor

/-- A bit field fits its container. -/
def Fits (descriptor : Descriptor) : Prop :=
  ∀ container width swap, descriptor.Packs container width swap →
    Container.check container width = .ok ()

/-- The bit fields have one order of bytes, if any. -/
def InOrder (order : ByteOrder) (descriptor : Descriptor) : Prop :=
  descriptor.isBitfield → descriptor.byteOrder = order

variable {order : ByteOrder} {descriptor : Descriptor}

theorem fits_of_bitWidth?_eq_none (h : descriptor.bitWidth? = none) : descriptor.Fits :=
  fun _ _ _ hpacks ↦ (not_packs_of_bitWidth?_eq_none h hpacks).elim

/-- The move of a bit field is in its order of bytes. -/
theorem inOrder_bits {content : BitContent} {repr : IntegerKind} {width container bits : Nat}
    (hfits : Fits ⟨.bits content repr width container, byteOrder, hasFixedSize, minSize⟩)
    (horder : InOrder order ⟨.bits content repr width container, byteOrder, hasFixedSize, minSize⟩)
    (hwidth : width ≠ 0) (hlt : bits < 2 ^ width) :
    (Move.bits bits container width (byteOrder.reverses container)).InOrder order := by
  obtain rfl : byteOrder = order := horder rfl
  exact ⟨hfits container width _ ⟨⟨content, repr, rfl⟩, hwidth, rfl⟩, hlt, rfl⟩

theorem inOrder_of_writesLength {length : Nat} (hcoherent : descriptor.Coherent)
    (hfits : descriptor.Fits) (horder : descriptor.InOrder order)
    (h : descriptor.kind.WritesLength descriptor.byteOrder length moves) :
    ∀ move ∈ moves, move.InOrder order := by
  obtain ⟨kind, byteOrder, hasFixedSize, minSize⟩ := descriptor
  cases kind with
  | scalar kind =>
    obtain ⟨raw, -, rfl⟩ := h
    exact List.forall_mem_singleton.2 (Move.inOrder_bytes order _)
  | bits content repr width container =>
    cases content with
    | integer =>
      obtain ⟨bits, hbits, rfl⟩ := h
      obtain ⟨hwidth, hlt, -⟩ :=
        Flavor.bitsOf_eq_ok (Nat.le_trans hcoherent.2 repr.bits_le) hbits
      exact List.forall_mem_singleton.2 (inOrder_bits hfits horder hwidth hlt)
    | _ => cases h
  | _ => cases h

/-- The moves of a value are in the order of bytes of the bit fields. -/
theorem inOrder_of_writes (hcoherent : descriptor.Everywhere Coherent)
    (hwhole : descriptor.Everywhere HoldsWhole) (horder : descriptor.Everywhere (InOrder order))
    (hfits : descriptor.Fits) (h : descriptor.Writes value moves) :
    ∀ move ∈ moves, move.InOrder order := by
  induction descriptor using Descriptor.induction generalizing value moves with
  | step descriptor ihelement ihfields =>
    obtain ⟨kind, byteOrder, hasFixedSize, minSize⟩ := descriptor
    cases kind with
    | scalar kind | boolean repr | enum repr type =>
      obtain ⟨raw, -, rfl⟩ := h
      exact List.forall_mem_singleton.2 (Move.inOrder_bytes order _)
    | bits content repr width container =>
      change if width = 0 then _ else _ at h
      split at h
      · subst h
        exact List.forall_mem_singleton.2 (Move.inOrder_bytes order _)
      · next hwidth =>
        obtain ⟨bits, hbits, rfl⟩ := h
        have hlt := (Flavor.decodeBits_encodeBits hcoherent.here.2 hbits).2.1
        exact List.forall_mem_singleton.2 (inOrder_bits hfits horder.here hwidth hlt)
    | text encoding size =>
      obtain ⟨text, bytes, -, -, hwrites⟩ := h
      cases hwrites <;> simp [Move.InOrder]
    | list element size =>
      obtain ⟨items, filled, parts, -, -, hparts, rfl⟩ := h
      have hfits : element.Fits := fits_of_bitWidth?_eq_none (hwhole.here element rfl)
      intro move hmem
      obtain ⟨part, hpart, hmove⟩ := List.mem_flatten.1 hmem
      obtain ⟨item, hwrites⟩ := exists_forall₂_iff.1 ⟨_, hparts.flip⟩ part hpart
      exact ihelement element rfl (hcoherent.of_element rfl) (hwhole.of_element rfl)
        (horder.of_element rfl) hfits hwrites move hmove
    | record name fields =>
      obtain ⟨members, inner, -, hinner, rfl⟩ := h
      obtain ⟨-, last, hruns, -⟩ := hcoherent.here
      have hall : ∀ move ∈ inner, move.InOrder order := by
        refine FieldDescriptor.forall_mem_of_writesAll trivial
          (fun field hmem hserialize own hown ↦ ?_) hinner
        have hfits : field.descriptor.Fits := by
          intro container width swap hpacks
          obtain ⟨before, after, rfl⟩ := List.append_of_mem hmem
          exact hruns.check hserialize hpacks
        cases hkey : field.lengthOf with
        | none =>
          rw [hkey] at hown
          obtain ⟨value, -, hwrites⟩ := hown
          exact ihfields field hmem (hcoherent.of_field hmem) (hwhole.of_field hmem)
            (horder.of_field hmem) hfits hwrites
        | some key =>
          rw [hkey] at hown
          obtain ⟨feed, length, -, -, hwrites⟩ := hown
          exact inOrder_of_writesLength (hcoherent.of_field hmem).here hfits
            (horder.of_field hmem).here hwrites
      exact List.forall_mem_cons.2 ⟨Move.inOrder_bytes order [],
        List.forall_mem_append.2 ⟨hall, List.forall_mem_singleton.2 (Move.inOrder_bytes order _)⟩⟩
    | custom codec context => exact h.elim

end Descriptor

/-! ## Schemas -/

namespace Schema

variable {layout : Layout} {schema : Schema} {order : ByteOrder}

/-- With one order of bytes, a value can be written exactly if it conforms. -/
theorem exists_toBytes_iff (h : ofLayout layout = .ok schema) (hcodec : ¬ layout.UsesCodec)
    (horder : schema.descriptor.Everywhere (Descriptor.InOrder order)) :
    (∃ bytes, schema.toBytes value = .ok bytes) ↔ schema.descriptor.Conforms value := by
  obtain ⟨hdescribe, hplan⟩ := ofLayout_eq_ok h
  obtain ⟨⟨hsettled, -⟩, hroot, -, -⟩ := Plan.ofDescriptor_eq_ok_iff.1 hplan
  have hcoherent := Layout.describe_coherent hdescribe
  rw [← Descriptor.exists_writes_iff hcoherent]
  constructor
  · rintro ⟨bytes, hbytes⟩
    obtain ⟨count, sink, hserialize, -⟩ := toBytes_eq_ok_iff.1 hbytes
    obtain ⟨moves, -, -, hwrites, -⟩ := exists_emits_of_serialize (Descriptor.isWritten hcoherent
      (Layout.everywhere_isCodec_eq_false hdescribe hcodec) hsettled) hroot hserialize
    exact ⟨moves, hwrites⟩
  · rintro ⟨moves, hwrites⟩
    have hbits := Descriptor.bitWidth?_eq_none_of_record hroot
    have hmoves := Descriptor.inOrder_of_writes hcoherent (Layout.everywhere_holdsWhole hdescribe)
      horder (Descriptor.fits_of_bitWidth?_eq_none hbits) hwrites
    have hall := List.forall_mem_append.2
      ⟨hmoves, List.forall_mem_singleton.2 (Move.inOrder_bytes order [])⟩
    have hidle : ∀ active ∈ (none : Option Container),
        order.reverses active.width = active.swap := by
      rintro _ ⟨⟩
    obtain ⟨word, bytes, hemits⟩ := exists_emits_iff.2 (Goes.exists_of_inOrder hall hidle)
    exact ⟨bytes, toBytes_of_emits (Descriptor.isPerformed hcoherent) hroot hwrites hemits⟩

end Schema

theorem Descriptor.inOrder_marked : marked.Everywhere (InOrder .little) := by
  refine .intro nofun nofun fun field hmem ↦ ?_
  rcases hmem with _ | ⟨_, _ | ⟨_, _ | ⟨_, ⟨⟩⟩⟩⟩
  · exact everywhere_of_leaf (fun _ ↦ rfl) rfl rfl
  · exact everywhere_of_leaf (fun _ ↦ rfl) rfl rfl
  · refine .intro (fun _ ↦ rfl) ?_ nofun
    rintro _ ⟨⟩
    exact everywhere_of_leaf (fun _ ↦ rfl) rfl rfl

/-- Three slots do not hold four bytes.  The count need not be there. -/
theorem Schema.marked_conforms : Descriptor.marked.Conforms .marked ∧
    ¬ Descriptor.marked.Conforms (.record [("items", .list [.integer .u8 5, .integer .u8 6,
      .integer .u8 7, .integer .u8 8]), ("mark", .bool true)]) := by
  have hiff (value : Value) :
      (∃ bytes, Schema.marked.toBytes value = .ok bytes) ↔ Descriptor.marked.Conforms value :=
    Schema.exists_toBytes_iff Schema.ofLayout_marked Layout.not_usesCodec_marked
      Descriptor.inOrder_marked
  refine ⟨(hiff _).1 ⟨[18, 5, 6, 0], rfl⟩, fun h ↦ ?_⟩
  obtain ⟨bytes, hbytes⟩ := (hiff _).2 h
  cases hbytes

end WireFormat
