import WireFormat.Proofs.Descriptor.Places
import WireFormat.Proofs.Layout.Fields

/-!
# Descriptors that come from layouts

`Descriptor.Coherent` says what is known of every descriptor inside one that comes from a layout,
seen by itself: its sizes, and in a record that no two fields have one name or carry one length.

* `Layout.everywhere_describeWithin` — what holds everywhere in a descriptor that comes from a
  layout;
* `Layout.describe_coherent` — everything in such a descriptor is coherent.
-/

namespace WireFormat

/-- What is known of the fields of a record that comes from a layout. -/
structure FieldDescriptor.Coherent (fields : List FieldDescriptor) : Prop where
  names : (fields.map FieldDescriptor.name).Nodup
  orders : fields.Pairwise fun first second ↦ first.order < second.order
  carried : (fields.filterMap FieldDescriptor.lengthOf).Nodup
  carriers : ∀ field ∈ fields, field.lengthOf.isSome → field.descriptor.kind.carriesLength

/-- What is known of a descriptor that comes from a layout, apart from the descriptors inside it. -/
def Descriptor.Coherent (descriptor : Descriptor) : Prop :=
  match descriptor.kind with
  | .scalar kind => descriptor.minSize = .ofNat kind.width
  | .boolean repr | .enum repr _ => descriptor.minSize = .ofNat repr.width
  | .bits _ repr width _ => descriptor.minSize = 0 ∧ width ≤ repr.bits
  | .text encoding size =>
    descriptor.minSize = .ofNat ((size.policy?.bind SizePolicy.only?).getD 0) ∧
      (size = .nullTerminated → encoding.isNullTerminable)
  | .list element size => descriptor.minSize = .ofNat (size.only?.getD 0) * element.minSize ∧
    size.slots? ≠ some 0
  | .record _ fields => FieldDescriptor.Coherent fields ∧ ∃ last, Runs.Follows {} fields last ∧
    descriptor.minSize = FieldDescriptor.leastAll fields + .ofNat last.bytes
  | .custom codec _ => descriptor.minSize = .ofNat codec.size.minSize

namespace Descriptor

theorem Coherent.nodup_names {descriptor : Descriptor} (h : descriptor.Coherent) :
    (descriptor.fields.map FieldDescriptor.name).Nodup := by
  obtain ⟨kind, byteOrder, hasFixedSize, minSize⟩ := descriptor
  cases kind with
  | record name fields => exact h.1.names
  | _ => exact List.nodup_nil

theorem Coherent.carriesLength {descriptor : Descriptor} {field : FieldDescriptor}
    (h : descriptor.Coherent) (hmem : field ∈ descriptor.fields)
    (hlength : field.lengthOf.isSome) : field.descriptor.kind.carriesLength := by
  obtain ⟨kind, byteOrder, hasFixedSize, minSize⟩ := descriptor
  cases kind with
  | record name fields => exact h.1.carriers field hmem hlength
  | _ => cases hmem

theorem everywhere_of_leaf {P : Descriptor → Prop} {descriptor : Descriptor}
    (here : P descriptor) (helement : descriptor.element? = none)
    (hfields : descriptor.fields = []) : descriptor.Everywhere P :=
  .intro here (by simp [helement]) (by simp [hfields])

end Descriptor

/-! ## From layouts to everything in their descriptors -/

section Everywhere

variable {P : Descriptor → Prop}
  (hwhole : ∀ enclosing byteOrder tag shape descriptor,
    Shape.Yields enclosing byteOrder tag shape descriptor →
      (∀ name fields, descriptor.kind ≠ .record name fields) → P descriptor)

include hwhole

theorem Shape.Yields.everywhere {enclosing : List String} {byteOrder : ByteOrder}
    {tag : Option Tag} {shape : Shape} {descriptor : Descriptor}
    (h : Yields enclosing byteOrder tag shape descriptor)
    (hheld : ∀ layout, shape.Holds tag layout → ∀ descriptor,
      layout.describeWithin enclosing byteOrder = .ok descriptor → descriptor.Everywhere P) :
    descriptor.Everywhere P := by
  induction h with
  | list hpolicy helement hsized ih =>
    refine .intro (hwhole enclosing _ _ _ _ (.list hpolicy helement hsized) nofun) ?_
      (by simp [Descriptor.fields])
    rintro _ ⟨⟩
    exact ih fun layout h ↦ hheld layout (.element rfl h)
  | record hplain hinner => exact hheld _ (.record (isCodec_of_plain rfl hplain)) _ hinner
  | codec codec context shape =>
    exact Descriptor.everywhere_of_leaf
      (hwhole enclosing _ _ _ _ (.codec codec context shape) nofun) rfl rfl
  | scalar hkind hplain =>
    exact Descriptor.everywhere_of_leaf
      (hwhole enclosing _ _ _ _ (.scalar hkind hplain) nofun) rfl rfl
  | boolean hrepr =>
    exact Descriptor.everywhere_of_leaf (hwhole enclosing _ _ _ _ (.boolean hrepr) nofun) rfl rfl
  | enum hrepr hfits =>
    exact Descriptor.everywhere_of_leaf
      (hwhole enclosing _ _ _ _ (.enum hrepr hfits) nofun) rfl rfl
  | text hsize =>
    exact Descriptor.everywhere_of_leaf (hwhole enclosing _ _ _ _ (.text hsize) nofun) rfl rfl

/-- What holds of fields and elements, of bit fields and of record types, each by itself, holds
everywhere in the descriptor of a record type. -/
theorem Layout.everywhere_describeWithin
    (hbits : ∀ content repr width container byteOrder, width ≤ repr.bits →
      P (.ofFixed (.bits content repr width container) byteOrder 0))
    (hrecord : ∀ {enclosing inherited layout fields last},
      Described enclosing inherited layout fields last →
        P ⟨.record layout.name fields, layout.byteOrder.getD inherited,
          fields.all FieldDescriptor.isFixed,
          FieldDescriptor.leastAll fields + .ofNat last.bytes⟩)
    (layout : Layout) : ∀ (enclosing : List String) (inherited : ByteOrder)
      (descriptor : Descriptor), layout.describeWithin enclosing inherited = .ok descriptor →
        descriptor.Everywhere P := by
  induction layout using Layout.held_induction with
  | step layout ih =>
    intro enclosing inherited descriptor h
    obtain ⟨fields, last, hfields, rfl⟩ := exists_described h
    obtain ⟨declared, hperm, hresolves⟩ := hfields.declared
    refine .intro (hrecord hfields) (by simp [Descriptor.element?]) ?_
    have hall : ∀ field ∈ declared, True := fun _ _ ↦ trivial
    refine (forall₂_forall_mem_iff hresolves fun field hmem entry hresolve ↦ ?_).1 hall
    rw [true_iff]
    obtain ⟨descriptor, container, hdescriptor, hentry⟩ := hresolve.descriptor
    rw [hentry]
    cases hdescriptor with
    | whole hunpacked hyields =>
      rw [Descriptor.withContainer_of_bitWidth?_eq_none hyields.bitWidth?_eq]
      exact hyields.everywhere hwhole fun inner hheld ↦
        ih field (List.mem_filter.1 (hperm.mem_iff.1 hmem)).1 inner hheld _ _
    | bits _ _ _ hwidth =>
      exact Descriptor.everywhere_of_leaf (hbits _ _ _ container _ hwidth) rfl rfl

end Everywhere

theorem Shape.Yields.coherent {enclosing : List String} {byteOrder : ByteOrder} {tag : Option Tag}
    {shape : Shape} {descriptor : Descriptor}
    (h : Yields enclosing byteOrder tag shape descriptor)
    (hrecord : ∀ name fields, descriptor.kind ≠ .record name fields) : descriptor.Coherent := by
  cases h with
  | list hpolicy => exact ⟨rfl, (SizePolicy.ofTag_eq_ok hpolicy).2.2⟩
  | text hsize =>
    refine ⟨rfl, ?_⟩
    rintro rfl
    rcases TextSize.ofTag_eq_ok hsize with ⟨-, -, hterminable⟩ | ⟨policy, hpolicy, -⟩
    · exact hterminable
    · cases hpolicy
  | record hplain hinner =>
    obtain ⟨fields, hkind⟩ := Layout.describeWithin_kind hinner
    exact (hrecord _ _ hkind).elim
  | _ => rfl

/-- Everything in the descriptor of a record type is coherent. -/
theorem Layout.describeWithin_coherent (layout : Layout) : ∀ (enclosing : List String)
    (inherited : ByteOrder) (descriptor : Descriptor),
    layout.describeWithin enclosing inherited = .ok descriptor →
      descriptor.Everywhere Descriptor.Coherent :=
  layout.everywhere_describeWithin (fun _ _ _ _ _ hyields ↦ hyields.coherent)
    (fun _ _ _ _ _ hwidth ↦ ⟨rfl, hwidth⟩)
    (fun hfields ↦ ⟨⟨hfields.names, hfields.orders, hfields.carried, hfields.carriers⟩, _,
      hfields.runs, rfl⟩)

/-- Everything in a descriptor that comes from a layout is coherent. -/
theorem Layout.describe_coherent {layout : Layout} {descriptor : Descriptor}
    (h : layout.describe = .ok descriptor) : descriptor.Everywhere Descriptor.Coherent :=
  layout.describeWithin_coherent _ _ _ h

/-- Everything in the descriptor of a field or element is coherent. -/
theorem Shape.Yields.everywhere_coherent {enclosing : List String} {byteOrder : ByteOrder}
    {tag : Option Tag} {shape : Shape} {descriptor : Descriptor}
    (h : Yields enclosing byteOrder tag shape descriptor) :
    descriptor.Everywhere Descriptor.Coherent :=
  h.everywhere (fun _ _ _ _ _ hyields ↦ hyields.coherent) fun layout _ ↦
    layout.describeWithin_coherent _ _

/-- No two fields of a record that comes from a layout have one name. -/
theorem Layout.everywhere_nodup_names {layout : Layout} {descriptor : Descriptor}
    (h : layout.describe = .ok descriptor) :
    descriptor.Everywhere fun inner ↦ (inner.fields.map FieldDescriptor.name).Nodup :=
  (describe_coherent h).imp fun _ ↦ Descriptor.Coherent.nodup_names

end WireFormat
