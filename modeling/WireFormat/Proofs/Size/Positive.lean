import WireFormat.Proofs.Conflict.Clash
import WireFormat.Proofs.Format.Restore

/-!
# Elements that take some bytes

A list that is as long as a length says must not hold elements that take no bytes.  Describing it
rules out elements that never take any.  Of other elements, those that vary in size without a length
take a byte for their end, and those that take a length have a field for it, which takes a byte at
least unless it is a bit field without bits.

* `Descriptor.leastSize_pos_of_fullSize_ne_zero` — what promises some bytes takes some;
* `Descriptor.leastSize_pos_of_lends` — so does what answers a demand by itself;
* `Descriptor.leastSize_pos_of_keyed` — and so do the elements of a list that takes its length from
  a field.
-/

namespace WireFormat

/-! ## Lengths that have bits -/

/-- No field inside an operation that carries a length is a bit field without bits. -/
def Operation.Wide (operation : Operation) : Prop :=
  ∀ plan, operation.Contains (.record plan) → ∀ field ∈ plan.fields, field.lengthOf.isSome →
    ∀ repr container swap flavor, field.operation ≠ .bits repr 0 container swap flavor

namespace Operation.Wide

theorem of_element {element : Operation} {size : SizePolicy LengthSource} {default? : Option Value}
    (h : (Operation.list element size default?).Wide) : element.Wide :=
  fun plan hinside ↦ h plan (.element hinside)

theorem of_field {plan : RecordPlan} {field : FieldPlan} (h : (Operation.record plan).Wide)
    (hmem : field ∈ plan.fields) : field.operation.Wide :=
  fun inner hinside ↦ h inner (.field hmem hinside)

end Operation.Wide

/-- A length that is lent is carried by a field of a record around. -/
theorem Lends.exists_mem_carriers {key : String} {chain : List Enclosure} (h : Lends key chain) :
    ∃ enclosure ∈ chain, ∃ carrier, carrier ∈ enclosure.carriers key := by
  obtain @⟨inner, outer, enclosure, carrier, own, -, -, -⟩ := h
  exact ⟨enclosure, List.mem_append_right inner List.mem_cons_self, carrier,
    own ▸ List.mem_cons_self⟩

/-! ## What a record takes -/

section Fields

variable {descriptor target : Descriptor} {path : List FieldDescriptor} {field : FieldDescriptor}
  {fields : List FieldDescriptor} {chain : List Enclosure} {width : Nat}

/-- The room of a field is part of that of its record. -/
theorem FieldDescriptor.leastRooms_sublist_leastRoomsAll (hmem : field ∈ fields)
    (hserialize : field.serialize) :
    field.descriptor.leastRooms.Sublist (leastRoomsAll fields) := by
  induction hmem with
  | head rest =>
    rw [leastRoomsAll_cons, if_pos hserialize, List.append_assoc]
    exact List.sublist_append_left ..
  | tail other _ ih =>
    rw [leastRoomsAll_cons]
    exact ih.trans (List.sublist_append_right ..)

/-- A bit field of a record takes a container, by itself. -/
theorem FieldDescriptor.leastSize_pos_of_bits (hcoherent : descriptor.Coherent)
    (hmem : field ∈ descriptor.fields) (hserialize : field.serialize)
    (hbits : width ∈ field.descriptor.bitWidth?) (hwidth : width ≠ 0) :
    0 < field.descriptor.leastSize := by
  obtain ⟨kind, byteOrder, hasFixedSize, minSize⟩ := descriptor
  cases kind with
  | record name fields =>
    obtain ⟨-, last, hfollows, -⟩ := hcoherent
    obtain ⟨before, rest, rfl⟩ := List.append_of_mem (show field ∈ fields from hmem)
    obtain ⟨own, order, ⟨kind, byteOrder, hasFixedSize, minSize⟩, serialize, lengthOf, padAfter⟩ :=
      field
    cases kind with
    | bits content repr own container =>
      cases hbits
      have hcheck := hfollows.check hserialize ⟨⟨content, repr, rfl⟩, hwidth, rfl⟩
      change 0 < occupied none (if width = 0 then _ else [.bits container width])
      rw [if_neg hwidth]
      exact (Container.check_eq_ok_iff.1 hcheck).1
    | _ => cases hbits
  | _ => cases hmem

/-- A field that can carry a length takes some bytes, unless it has no bits. -/
theorem FieldDescriptor.leastSize_pos_of_carriesLength (hcoherent : descriptor.Coherent)
    (hmem : field ∈ descriptor.fields) (hserialize : field.serialize)
    (hcarries : field.descriptor.kind.carriesLength) (hbits : field.descriptor.bitWidth? ≠ some 0) :
    0 < field.descriptor.leastSize := by
  cases hkind : field.descriptor.kind with
  | scalar kind =>
    rw [hkind] at hcarries
    rw [Descriptor.leastSize, Descriptor.leastRooms_eq, hkind, DescriptorKind.leastRooms,
      ← List.append_nil (Room.bytes _), occupied_bytes]
    cases kind with
    | integer kind => cases kind <;> decide
    | _ => cases hcarries
  | bits content repr width container =>
    have hwidth : field.descriptor.bitWidth? = some width := by
      rw [Descriptor.bitWidth?, hkind]
    refine leastSize_pos_of_bits hcoherent hmem hserialize hwidth ?_
    rintro rfl
    exact hbits hwidth
  | _ =>
    rw [hkind] at hcarries
    cases hcarries

namespace Descriptor

/-- A record takes some bytes if a field on the wire does. -/
theorem leastSize_pos_of_field (hmem : field ∈ descriptor.fields) (hserialize : field.serialize)
    (h : 0 < field.descriptor.leastSize) : 0 < descriptor.leastSize := by
  obtain ⟨kind, byteOrder, hasFixedSize, minSize⟩ := descriptor
  cases kind with
  | record name fields =>
    have hsub := FieldDescriptor.leastRooms_sublist_leastRoomsAll hmem hserialize
    have hle := occupied_le_of_sublist (hsub.trans (List.sublist_append_left _ [.align])) none
    change 0 < occupied none (.align :: FieldDescriptor.leastRoomsAll fields ++ [.align])
    rw [List.cons_append, occupied_align]
    exact Nat.lt_of_lt_of_le h hle
  | _ => cases hmem

theorem leastSize_pos_of_reaches (hreaches : descriptor.Reaches path target)
    (h : 0 < target.leastSize) : 0 < descriptor.leastSize := by
  induction hreaches with
  | here => exact h
  | field mem serialize _ ih => exact leastSize_pos_of_field mem serialize (ih h)

/-- The operation of a record has that of each field on the wire. -/
theorem exists_plan_of_mem_fields (chain : List Enclosure) (hcoherent : descriptor.Coherent)
    (hmem : field ∈ descriptor.fields) (hserialize : field.serialize) :
    ∃ plan, descriptor.operation chain = .record plan ∧
      ∃ own ∈ plan.fields, own.lengthOf = field.lengthOf ∧
        own.operation = field.descriptor.operation (descriptor.enclosure field :: chain) := by
  obtain ⟨kind, byteOrder, hasFixedSize, minSize⟩ := descriptor
  cases kind with
  | record name fields =>
    refine ⟨_, operation_record hcoherent.1.names .., ?_⟩
    exact ⟨_, List.mem_map_of_mem (List.mem_filter.2 ⟨hmem, hserialize⟩), rfl, rfl⟩
  | _ => cases hmem

theorem bitWidth?_ne_zero_of_operation
    (h : ∀ repr container swap flavor,
      descriptor.operation chain ≠ .bits repr 0 container swap flavor) :
    descriptor.bitWidth? ≠ some 0 := by
  obtain ⟨kind, byteOrder, hasFixedSize, minSize⟩ := descriptor
  cases kind with
  | bits content repr width container =>
    rintro ⟨⟩
    exact h _ _ _ _ rfl
  | _ => rintro ⟨⟩

/-- A record in which a field carries a length takes some bytes, unless the field has no bits. -/
theorem leastSize_pos_of_carries {key : String} (hcoherent : descriptor.Coherent)
    (hwide : (descriptor.operation chain).Wide) (hmem : field ∈ descriptor.fields)
    (hcarries : field.carries key) : 0 < descriptor.leastSize := by
  obtain ⟨hserialize, hkey⟩ := FieldDescriptor.carries_iff.1 hcarries
  have hsome : field.lengthOf.isSome := by
    rw [hkey]
    rfl
  obtain ⟨plan, hplan, own, hown, hsame, hoperation⟩ :=
    exists_plan_of_mem_fields chain hcoherent hmem hserialize
  rw [hplan] at hwide
  have hbits := hwide plan (.here _) own hown (hsame ▸ hsome)
  rw [hoperation] at hbits
  have hkind := hcoherent.carriesLength hmem hsome
  exact leastSize_pos_of_field hmem hserialize (FieldDescriptor.leastSize_pos_of_carriesLength
    hcoherent hmem hserialize hkind (bitWidth?_ne_zero_of_operation hbits))

/-- Lengths inside have bits if all have. -/
theorem exists_wide_of_reaches (hcoherent : descriptor.Everywhere Coherent)
    (hwide : (descriptor.operation chain).Wide) (hreaches : descriptor.Reaches path target) :
    ∃ chain, (target.operation chain).Wide := by
  induction hreaches generalizing chain with
  | here => exact ⟨chain, hwide⟩
  | field mem serialize _ ih =>
    obtain ⟨plan, hplan, own, hown, -, hoperation⟩ :=
      exists_plan_of_mem_fields chain hcoherent.here mem serialize
    rw [hplan] at hwide
    exact ih (hcoherent.of_field mem) (hoperation ▸ hwide.of_field hown)

/-- What answers one of its demands by itself has a field for the length, and takes some bytes. -/
theorem leastSize_pos_of_lends {demand : Demand} (hcoherent : descriptor.Everywhere Coherent)
    (hwide : (descriptor.operation chain).Wide) (hmem : demand ∈ descriptor.demands)
    (hlends : Lends demand.key demand.chain) : 0 < descriptor.leastSize := by
  obtain ⟨path, target, hreaches, -, -, hchain⟩ := mem_demands_iff.1 hmem
  obtain ⟨enclosure, henclosure, carrier, hcarrier⟩ := hlends.exists_mem_carriers
  rw [hchain, mem_enclosures_iff hreaches] at henclosure
  obtain ⟨before, member, after, record, -, hbefore, rfl⟩ := henclosure
  obtain ⟨hfield, hcarries⟩ := List.mem_filter.1 hcarrier
  obtain ⟨inner, hinner⟩ := exists_wide_of_reaches hcoherent hwide hbefore
  exact leastSize_pos_of_reaches hbefore
    (leastSize_pos_of_carries (hcoherent.of_reaches hbefore).here hinner hfield hcarries)

end Descriptor

end Fields

/-! ## What has a size that varies -/

/-- If not all values take the same number of bytes, something inside says so. -/
def Descriptor.VariesInside (descriptor : Descriptor) : Prop :=
  descriptor.hasFixedSize = false →
    match descriptor.kind with
    | .text _ size => size.policy?.bind SizePolicy.only? = none
    | .list element size => size.only? = none ∨ element.hasFixedSize = false
    | .record _ fields => ∃ field ∈ fields, field.serialize ∧ field.descriptor.hasFixedSize = false
    | .custom _ _ => True
    | _ => False

/-- A list that is as long as a length says does not hold elements that never take any bytes. -/
def Descriptor.HoldsSome (descriptor : Descriptor) : Prop :=
  match descriptor.kind with
  | .list element size =>
    size.slots? = none → ¬ (element.hasFixedSize ∧ element.minSize = 0)
  | _ => True

theorem Shape.Yields.variesInside {enclosing : List String} {byteOrder : ByteOrder}
    {tag : Option Tag} {shape : Shape} {descriptor : Descriptor}
    (h : Yields enclosing byteOrder tag shape descriptor)
    (hrecord : ∀ name fields, descriptor.kind ≠ .record name fields) :
    descriptor.VariesInside := by
  cases h with
  | list =>
    exact fun hvaries ↦ (Bool.and_eq_false_iff.1 hvaries).imp_left fun hnone ↦
      Option.isNone_iff_eq_none.1 (Option.isSome_eq_false_iff.1 hnone)
  | text =>
    exact fun hvaries ↦ Option.isNone_iff_eq_none.1 (Option.isSome_eq_false_iff.1 hvaries)
  | codec => exact fun _ ↦ trivial
  | record hplain hinner =>
    obtain ⟨fields, hkind⟩ := Layout.describeWithin_kind hinner
    exact (hrecord _ _ hkind).elim
  | _ => rintro ⟨⟩

theorem Shape.Yields.holdsSome {enclosing : List String} {byteOrder : ByteOrder}
    {tag : Option Tag} {shape : Shape} {descriptor : Descriptor}
    (h : Yields enclosing byteOrder tag shape descriptor)
    (hrecord : ∀ name fields, descriptor.kind ≠ .record name fields) : descriptor.HoldsSome := by
  cases h with
  | list _ _ hsized => exact hsized
  | record hplain hinner =>
    obtain ⟨fields, hkind⟩ := Layout.describeWithin_kind hinner
    exact (hrecord _ _ hkind).elim
  | _ => exact trivial

/-- What varies in size does so for a reason. -/
theorem Layout.everywhere_variesInside {layout : Layout} {descriptor : Descriptor}
    (h : layout.describe = .ok descriptor) : descriptor.Everywhere Descriptor.VariesInside := by
  refine layout.everywhere_describeWithin (fun _ _ _ _ _ hyields ↦ hyields.variesInside)
    (fun _ _ _ _ _ _ ↦ ?_) (fun _ hvaries ↦ ?_) _ _ _ h
  · rintro ⟨⟩
  · obtain ⟨field, hmem, hfield⟩ := List.all_eq_false.1 hvaries
    rw [FieldDescriptor.isFixed, Bool.or_eq_true, not_or, Bool.not_eq_true', Bool.not_eq_false,
      Bool.not_eq_true] at hfield
    exact ⟨field, hmem, hfield⟩

/-- Describing a layout rules out lists that are as long as a length says and hold nothing. -/
theorem Layout.everywhere_holdsSome {layout : Layout} {descriptor : Descriptor}
    (h : layout.describe = .ok descriptor) : descriptor.Everywhere Descriptor.HoldsSome :=
  layout.everywhere_describeWithin (fun _ _ _ _ _ hyields ↦ hyields.holdsSome)
    (fun _ _ _ _ _ _ ↦ trivial) (fun _ ↦ trivial) _ _ _ h

namespace Descriptor

variable {descriptor element : Descriptor} {chain : List Enclosure} {byteOrder : ByteOrder}
  {hasFixedSize : Bool} {minSize : UInt64}

/-- A list with slots takes some bytes if its elements do. -/
theorem leastSize_pos_of_element {size : SizePolicy String} (hslots : size.slots?.getD 0 ≠ 0)
    (h : 0 < element.leastSize) :
    0 < leastSize ⟨.list element size, byteOrder, hasFixedSize, minSize⟩ := by
  obtain ⟨count, hcount⟩ := Nat.exists_eq_succ_of_ne_zero hslots
  change 0 < occupied none (List.replicate (size.slots?.getD 0) element.leastRooms).flatten
  rw [hcount, List.replicate_succ, List.flatten_cons]
  exact Nat.lt_of_lt_of_le h (occupied_le_of_sublist (List.sublist_append_left ..) none)

/-- What promises some bytes takes some. -/
theorem leastSize_pos_of_fullSize_ne_zero (hcoherent : descriptor.Everywhere Coherent)
    (hcodec : descriptor.Everywhere fun inner ↦ inner.isCodec = false)
    (h : descriptor.fullSize ≠ 0) : 0 < descriptor.leastSize := by
  induction descriptor using Descriptor.induction with
  | step descriptor ihelement ihfields =>
    obtain ⟨kind, byteOrder, hasFixedSize, minSize⟩ := descriptor
    change kind.fullSize ≠ 0 at h
    cases kind with
    | scalar kind | boolean repr | enum repr type =>
      change 0 < occupied none (Room.bytes _)
      rw [← List.append_nil (Room.bytes _), occupied_bytes]
      exact Nat.pos_of_ne_zero h
    | bits content repr width container => exact (h rfl).elim
    | text encoding size =>
      change 0 < occupied none (Room.bytes size.leastCount)
      rw [← List.append_nil (Room.bytes _), occupied_bytes]
      cases size with
      | nullTerminated => exact Nat.one_pos
      | sized policy => exact Nat.lt_of_lt_of_le (Nat.pos_of_ne_zero h) policy.only?_le_slots?
    | list element size =>
      rw [DescriptorKind.fullSize, Nat.mul_ne_zero_iff] at h
      obtain ⟨hslots, helement⟩ := h
      refine leastSize_pos_of_element ?_ (ihelement element rfl (hcoherent.of_element rfl)
        (hcodec.of_element rfl) helement)
      exact Nat.ne_zero_of_lt (Nat.lt_of_lt_of_le (Nat.pos_of_ne_zero hslots)
        size.only?_le_slots?)
    | record name fields =>
      by_cases hsome : ∃ field ∈ fields, field.fullSize ≠ 0
      · -- A field promises some bytes.
        obtain ⟨field, hmem, hsome⟩ := hsome
        rw [FieldDescriptor.fullSize, ite_ne_right_iff] at hsome
        obtain ⟨hserialize, hsome⟩ := hsome
        exact leastSize_pos_of_field hmem hserialize
          (ihfields field hmem (hcoherent.of_field hmem) (hcodec.of_field hmem) hsome)
      · -- There is a run of bit fields.
        push Not at hsome
        have hsum : (fields.map FieldDescriptor.fullSize).sum = 0 :=
          List.sum_eq_zero_iff_forall_eq_nat.2 (List.forall_mem_map.2 hsome)
        rw [DescriptorKind.fullSize, FieldDescriptor.fullSizeAll_eq_sum, hsum, Nat.zero_add] at h
        have hbits := mt FieldDescriptor.occupied_runRoomsAll_of_not_bits h
        push Not at hbits
        obtain ⟨field, hmem, hserialize, width, hbits, hwidth⟩ := hbits
        exact leastSize_pos_of_field hmem hserialize
          (FieldDescriptor.leastSize_pos_of_bits hcoherent.here hmem hserialize hbits hwidth)
    | custom codec context => cases hcodec.here

/-- What varies in size takes some bytes or asks for a length. -/
theorem leastSize_pos_or_mem_demands (hcoherent : descriptor.Everywhere Coherent)
    (hcodec : descriptor.Everywhere fun inner ↦ inner.isCodec = false)
    (hvaries : descriptor.Everywhere VariesInside) (hsettled : descriptor.Settled)
    (hwide : (descriptor.operation chain).Wide) (h : descriptor.hasFixedSize = false) :
    0 < descriptor.leastSize ∨ ∃ demand, demand ∈ descriptor.demands := by
  induction descriptor using Descriptor.induction generalizing chain with
  | step descriptor ihelement ihfields =>
    have hinside := hvaries.here h
    obtain ⟨kind, byteOrder, hasFixedSize, minSize⟩ := descriptor
    cases kind with
    | text encoding size =>
      cases size with
      | nullTerminated => exact .inl Nat.one_pos
      | sized policy =>
        cases policy with
        | fixed slots => cases hinside
        | keyed key | padded key slots => exact .inr ⟨_, List.mem_singleton.2 rfl⟩
    | list element size =>
      cases size with
      | keyed key | padded key slots => exact .inr ⟨_, List.mem_singleton.2 rfl⟩
      | fixed slots =>
        -- Its elements vary, and what they ask for, they answer themselves.
        have helement : element.hasFixedSize = false := hinside.resolve_left nofun
        obtain ⟨hinner, hlent⟩ := settled_list_iff.1 hsettled
        have hwide' : (element.operation []).Wide := Operation.Wide.of_element hwide
        have hpos : 0 < element.leastSize := by
          rcases ihelement element rfl (hcoherent.of_element rfl) (hcodec.of_element rfl)
            (hvaries.of_element rfl) hinner hwide' helement with hpos | ⟨demand, hdemand⟩
          · exact hpos
          · exact leastSize_pos_of_lends (hcoherent.of_element rfl) hwide' hdemand
              (hlent demand hdemand)
        refine .inl (leastSize_pos_of_element (fun hzero ↦ ?_) hpos)
        exact hcoherent.here.2 (congrArg some hzero)
    | record name fields =>
      obtain ⟨field, hmem, hserialize, hfield⟩ := hinside
      obtain ⟨plan, hplan, own, hown, -, hoperation⟩ :=
        exists_plan_of_mem_fields chain hcoherent.here hmem hserialize
      rw [hplan] at hwide
      rcases ihfields field hmem (hcoherent.of_field hmem) (hcodec.of_field hmem)
        (hvaries.of_field hmem) ((settled_record_iff.1 hsettled).1 field hmem hserialize)
        (hoperation ▸ hwide.of_field hown) hfield with hpos | ⟨demand, hdemand⟩
      · exact .inl (leastSize_pos_of_field hmem hserialize hpos)
      · exact .inr ⟨_, mem_demands_iff_own_or_field.2
          (.inr ⟨field, hmem, hserialize, demand, hdemand, rfl⟩)⟩
    | custom codec context => cases hcodec.here
    | _ => exact hinside.elim

/-- The elements of a list that is as long as a length says take some bytes each, unless a length in
them has no bits. -/
theorem leastSize_pos_of_keyed {size : SizePolicy String}
    (hcoherent : element.Everywhere Coherent)
    (hcodec : element.Everywhere fun inner ↦ inner.isCodec = false)
    (hvaries : element.Everywhere VariesInside)
    (hholds : HoldsSome ⟨.list element size, byteOrder, hasFixedSize, minSize⟩)
    (hsettled : Settled ⟨.list element size, byteOrder, hasFixedSize, minSize⟩)
    (hkeyed : size.slots? = none) (hwide : (element.operation []).Wide) :
    0 < element.leastSize := by
  obtain ⟨hinner, hlent⟩ := settled_list_iff.1 hsettled
  cases hfixed : element.hasFixedSize with
  | true =>
    refine leastSize_pos_of_fullSize_ne_zero hcoherent hcodec fun hzero ↦
      hholds hkeyed ⟨hfixed, ?_⟩
    rw [minSize_eq_ofNat_fullSize hcoherent, hzero]
    rfl
  | false =>
    rcases leastSize_pos_or_mem_demands hcoherent hcodec hvaries hinner hwide hfixed with
      hpos | ⟨demand, hdemand⟩
    · exact hpos
    · exact leastSize_pos_of_lends hcoherent hwide hdemand (hlent demand hdemand)

/-! ## Elements one after the other -/

/-- What ends the container begins with its end. -/
theorem exists_leastRooms_eq_align_cons (hcoherent : descriptor.Everywhere Coherent)
    (hcodec : descriptor.Everywhere fun inner ↦ inner.isCodec = false)
    (hends : descriptor.endsContainer) : ∃ rooms, descriptor.leastRooms = .align :: rooms := by
  induction descriptor using Descriptor.induction with
  | step descriptor ihelement _ =>
    obtain ⟨kind, byteOrder, hasFixedSize, minSize⟩ := descriptor
    cases kind with
    | bits content repr width container =>
      obtain rfl : width = 0 := of_decide_eq_true hends
      exact ⟨[], rfl⟩
    | list element size =>
      obtain ⟨hsome, hends⟩ : size.slots?.isSome ∧ element.endsContainer := by
        simpa [endsContainer, DescriptorKind.endsContainer] using hends
      obtain ⟨slots, hsome⟩ := Option.isSome_iff_exists.1 hsome
      obtain ⟨count, rfl⟩ := Nat.exists_eq_succ_of_ne_zero fun hzero ↦
        hcoherent.here.2 (hzero ▸ hsome)
      obtain ⟨rooms, hrooms⟩ := ihelement element rfl (hcoherent.of_element rfl)
        (hcodec.of_element rfl) hends
      change ∃ rooms, (List.replicate (size.slots?.getD 0) element.leastRooms).flatten = _
      rw [hsome, hrooms]
      exact ⟨_, rfl⟩
    | custom codec context => cases hcodec.here
    | _ => exact ⟨_, rfl⟩

end Descriptor

end WireFormat
