import Mathlib.Data.Option.NAry
import WireFormat.Proofs.Size.Total

/-!
# Fixed sizes of layouts

Whether something has a fixed size, and which, can be seen from the layout.

* `Layout.filter_serialize_eq_onWire` — fields in the order of the wire are those that are sent;
* `Runs.Follows.runRooms_eq` — the containers of a run are as wide as its first field says;
* `Shape.Yields.fixedSize?_eq` — the size of a descriptor, counted with numbers, is that of the
  layout;
* `Shape.Yields.minSize_eq_zero_iff` — which elements seem to take no bytes.
-/

namespace WireFormat

variable {enclosing : List String} {byteOrder inherited : ByteOrder} {layout : Layout}

/-! ## The order of the wire -/

/-- Both sort the same fields by their places, which are all different. -/
theorem Layout.filter_serialize_eq_onWire {fields : List Field} (hperm : fields.Perm layout.ordered)
    (hlt : fields.Pairwise fun first second ↦ first.order.getD 0 < second.order.getD 0) :
    fields.filter Field.serialize = layout.onWire := by
  have hsorted : layout.onWire.Pairwise fun first second ↦
      first.order.getD 0 ≤ second.order.getD 0 :=
    (List.pairwise_mergeSort (fun a b c hab hbc ↦ by simp at *; omega) (fun a b ↦ by simp; omega)
      (layout.ordered.filter Field.serialize)).imp fun hle ↦ by simpa using hle
  have hwire : (fields.filter Field.serialize).Perm layout.onWire :=
    (hperm.filter _).trans (List.mergeSort_perm _ _).symm
  refine hwire.eq_of_pairwise ?_ ((hlt.imp Nat.le_of_lt).filter _) hsorted
  intro first second hfirst hsecond hle hge
  have hplaces : (fields.map fun field ↦ field.order.getD 0).Nodup :=
    List.pairwise_map.2 (hlt.imp Nat.ne_of_lt)
  exact List.inj_on_of_nodup_map hplaces (List.mem_filter.1 hfirst).1
    (List.mem_filter.1 (hwire.mem_iff.2 hsecond)).1 (Nat.le_antisymm hle hge)

/-- The fields of a record type that has been described, as the layout declares them. -/
theorem Layout.Described.exists_onWire {fields : List FieldDescriptor} {last : Runs}
    (h : layout.Described enclosing inherited fields last) :
    ∃ declared : List Field, declared.Perm layout.ordered ∧
      List.Forall₂ (FieldDescriptor.Resolves (enclosing ++ [layout.name])
        (layout.byteOrder.getD inherited)) declared fields ∧
      declared.filter Field.serialize = layout.onWire := by
  obtain ⟨declared, hperm, hresolves⟩ := h.declared
  refine ⟨declared, hperm, hresolves, filter_serialize_eq_onWire hperm ?_⟩
  have hsame : fields.map FieldDescriptor.order = declared.map fun field ↦ field.order.getD 0 :=
    forall₂_map_eq (fun _ _ h ↦ by simp [h.order]) hresolves
  rw [← List.pairwise_map (f := fun field : Field ↦ field.order.getD 0) (R := (· < ·)), ← hsame,
    List.pairwise_map]
  exact h.orders

/-! ## The containers of runs -/

theorem Field.Yields.bitWidth?_eq {field : Field} {descriptor : Descriptor}
    (h : Yields enclosing byteOrder field descriptor) : descriptor.bitWidth? = field.bitWidth := by
  cases h with
  | whole hbits hwhole => rw [hwhole.bitWidth?_eq, hbits]
  | bits hbits => rw [hbits]; rfl

theorem FieldDescriptor.Resolves.bitWidth?_eq {declared : Field} {field : FieldDescriptor}
    (h : Resolves enclosing byteOrder declared field) :
    field.descriptor.bitWidth? = declared.bitWidth := by
  obtain ⟨descriptor, container, hyields, heq⟩ := h.descriptor
  rw [heq, Descriptor.withContainer_bitWidth?, hyields.bitWidth?_eq]

/-- A bit field of a descriptor is that of the declared field. -/
theorem FieldDescriptor.Resolves.of_bits {declared : Field} {field : FieldDescriptor}
    (h : Resolves enclosing byteOrder declared field) {content : BitContent} {repr : IntegerKind}
    {width own : Nat} (hkind : field.descriptor.kind = .bits content repr width own) :
    declared.integerKind? = some repr ∧
      field.descriptor.byteOrder = declared.byteOrder.getD byteOrder := by
  obtain ⟨descriptor, container, hyields, heq⟩ := h.descriptor
  cases hyields with
  | whole hbits hwhole =>
    have hnone := hwhole.bitWidth?_eq
    rw [← Descriptor.withContainer_bitWidth? descriptor container, ← heq, Descriptor.bitWidth?,
      hkind] at hnone
    cases hnone
  | bits hbits hwhole hcontent =>
    rw [heq] at hkind ⊢
    cases hkind
    exact ⟨by simp [Field.integerKind?, ← hwhole.integerKind?_eq, hcontent], rfl⟩

/-- The containers of a run are as wide as its first field says. -/
theorem Runs.Follows.runRooms_eq {runs last : Runs} {fields : List FieldDescriptor}
    {declared : List Field} {first : Option Field} (h : Follows runs fields last)
    (hresolves : List.Forall₂ (FieldDescriptor.Resolves enclosing byteOrder) declared fields)
    (hopen : Field.Opens byteOrder first runs) :
    Field.runRooms first (declared.filter Field.serialize) =
      FieldDescriptor.runRoomsAll fields := by
  induction h generalizing declared first with
  | nil => cases hresolves; rfl
  | @skip runs last field rest hskipped _ ih =>
    cases hresolves with
    | @cons entry _ entries _ hfield hrest =>
      have hentry : ¬ entry.serialize := by simp [← hfield.serialize, hskipped]
      rw [List.filter_cons_of_neg hentry, FieldDescriptor.runRoomsAll_cons, hskipped]
      exact ih hrest hopen
  | @field runs after last field rest hserialize htrack _ ih =>
    cases hresolves with
    | @cons entry _ entries _ hfield hrest =>
      have hentry : entry.serialize := by rw [← hfield.serialize, hserialize]
      have hbits := hfield.bitWidth?_eq
      rw [List.filter_cons_of_pos hentry, FieldDescriptor.runRoomsAll_cons, if_pos hserialize,
        Field.runRooms]
      rcases RecordAnalysis.track_cases htrack with ⟨hzero, -, rfl⟩ |
        ⟨content, repr, width, own, container, hkind, hwidth, hadd, hcontainer⟩
      · have hpacks : ¬ entry.packs := by
          rw [hbits] at hzero
          cases hpacked : entry.bitWidth <;> simp_all [Field.packs]
        rw [if_neg hpacks, FieldDescriptor.runRooms_of_not_bits hzero, List.singleton_append]
        exact congrArg _ (ih hrest (by cases field.padAfter <;> rfl))
      · obtain ⟨hrepr, horder⟩ := hfield.of_bits hkind
        rw [Descriptor.bitWidth?, hkind] at hbits
        have hpacks : entry.packs := by simp [Field.packs, hentry, ← hbits, hwidth]
        rw [horder] at hadd
        obtain ⟨lead, bits, hlead, henter⟩ := hopen.enter_eq hrepr
        obtain rfl : lead.width = container := by rw [← (add_eq_ok hadd).2.1, henter]
        have hnext := (hopen.add_eq_ok hrepr hbits.symm).2 _ hadd
        rw [if_pos hpacks, FieldDescriptor.runRooms_of_withContainer hkind hwidth hcontainer,
          Field.containerWidth, hlead, ← hbits, hfield.padAfter, List.cons_append]
        refine congrArg _ (congrArg _ (ih hrest ?_))
        rw [hfield.padAfter]
        cases entry.padAfter with
        | true => rfl
        | false => exact hnext

/-! ## The sizes of fields -/

/-- The number of bytes of a field that has a place on the wire. -/
private def Field.ownSize? (field : Field) : Option Nat :=
  if field.serialize && field.bitWidth.isNone then field.shape.fixedSize? field.tag else some 0

private theorem Field.fixedSizes?_eq_foldr (fields : List Field) : fixedSizes? fields =
    ((fields.filter fun field ↦ field.order.isSome).map ownSize?).foldr
      (Option.map₂ (· + ·)) (some 0) := by
  have hadd (own more : Option Nat) :
      (do return (← own) + (← more)) = Option.map₂ (· + ·) own more := by
    cases own <;> cases more <;> rfl
  induction fields with
  | nil => rfl
  | cons field rest ih =>
    obtain ⟨name, order, shape, tag, byteOrder, bitWidth, padAfter, lengthOf, serialize⟩ := field
    rw [fixedSizes?, ih, hadd]
    cases order with
    | none => rfl
    | some place =>
      rw [List.filter_cons_of_pos rfl, List.map_cons, List.foldr_cons, ownSize?,
        Option.isSome_some, Bool.true_and]
      split
      · rfl
      · simp

/-- Together the fields of a descriptor have a fixed size if each has. -/
private theorem FieldDescriptor.foldr_fullSize (fields : List FieldDescriptor) :
    (fields.map fun field ↦ if field.isFixed then some field.fullSize else none).foldr
        (Option.map₂ (· + ·)) (some 0) =
      if fields.all isFixed then some (fullSizeAll fields) else none := by
  rw [fullSizeAll_eq_sum]
  induction fields with
  | nil => rfl
  | cons field rest ih =>
    rw [List.map_cons, List.foldr_cons, ih, List.all_cons, List.map_cons, List.sum_cons]
    cases field.isFixed <;> cases rest.all isFixed <;> rfl

/-! ## Descriptors -/

theorem SizePolicy.fixedSlots?_eq {fixedLength : Option Nat} {lengthKey : Option String}
    {policy : SizePolicy String} (h : ofTag fixedLength lengthKey = .ok policy) :
    fixedSlots? fixedLength lengthKey = policy.only? := by
  obtain ⟨rfl, rfl, -⟩ := ofTag_eq_ok h
  cases policy <;> rfl

theorem Shape.fixedSize?_of_equivalent? {tag : Option Tag} {shape : Shape} {kind : ScalarKind}
    (h : shape.equivalent? tag = some kind) : shape.fixedSize? tag = some kind.width := by
  have hsame : shape.fixedSize? tag = (shape.equivalent? tag).map ScalarKind.width := by
    unfold equivalent? at h
    split at h <;> first | rfl | cases h
  rw [hsame, h]
  rfl

/-- The number of bytes of a descriptor of a fixed size. -/
def Descriptor.fixedSize? (descriptor : Descriptor) : Option Nat :=
  if descriptor.hasFixedSize then some descriptor.fullSize else none

/-- The size of a field or element can be seen from the layout, granted that this is so for the
record types it holds. -/
theorem Shape.Yields.fixedSize?_eq_of_held {tag : Option Tag} {shape : Shape}
    {descriptor : Descriptor} (h : Yields enclosing byteOrder tag shape descriptor)
    (hheld : ∀ layout, shape.Holds tag layout → ∀ descriptor,
      layout.describeWithin enclosing byteOrder = .ok descriptor →
        layout.fixedSize? = descriptor.fixedSize?) :
    shape.fixedSize? tag = descriptor.fixedSize? := by
  induction h with
  | codec codec context shape =>
    rw [Shape.fixedSize?, Descriptor.fixedSize?, Descriptor.ofCodec, Descriptor.fullSize,
      DescriptorKind.fullSize]
    cases codec.size <;> rfl
  | scalar hkind hplain =>
    refine fixedSize?_of_equivalent? ?_
    rcases hplain with rfl | rfl <;> simp [equivalent?]
  | boolean hrepr => exact fixedSize?_of_equivalent? hrepr
  | enum hrepr => exact fixedSize?_of_equivalent? hrepr
  | @text tag size hsize =>
    rcases TextSize.ofTag_eq_ok hsize with ⟨rfl, hnull, -⟩ | ⟨policy, rfl, hnull, hpolicy⟩
    · rw [Shape.fixedSize?, if_pos hnull]
      rfl
    · rw [Shape.fixedSize?, hnull, SizePolicy.fixedSlots?_eq hpolicy]
      cases policy <;> rfl
  | @list size shape tag policy element hpolicy helement hsized ih =>
    rw [Shape.fixedSize?, SizePolicy.fixedSlots?_eq hpolicy,
      ih fun layout h ↦ hheld layout (.element rfl h)]
    cases policy with
    | fixed slots =>
      change (do return slots * (← element.fixedSize?)) =
        if true && element.hasFixedSize then some (slots * element.fullSize) else none
      rw [Descriptor.fixedSize?]
      cases element.hasFixedSize <;> rfl
    | keyed key => rfl
    | padded key slots => rfl
  | record hplain hinner =>
    rw [← hheld _ (.record (isCodec_of_plain rfl hplain)) _ hinner]
    rcases hplain with rfl | rfl <;> rfl

private theorem Field.ownSize?_eq {declared : Field} {field : FieldDescriptor}
    (h : FieldDescriptor.Resolves enclosing byteOrder declared field)
    (hheld : ∀ layout, declared.shape.Holds declared.tag layout →
      ∀ enclosing inherited descriptor, layout.describeWithin enclosing inherited = .ok descriptor →
        layout.fixedSize? = descriptor.fixedSize?) :
    declared.ownSize? = if field.isFixed then some field.fullSize else none := by
  obtain ⟨descriptor, container, hyields, heq⟩ := h.descriptor
  rw [ownSize?, FieldDescriptor.isFixed, FieldDescriptor.fullSize, h.serialize, heq]
  cases declared.serialize with
  | false => rfl
  | true =>
    cases hyields with
    | whole hbits hwhole =>
      rw [hbits, Descriptor.withContainer_of_bitWidth?_eq_none hwhole.bitWidth?_eq]
      exact hwhole.fixedSize?_eq_of_held fun layout hholds ↦ hheld layout hholds enclosing _
    | bits hbits =>
      rw [hbits]
      rfl

/-- The size of a record type can be seen from its fields. -/
theorem Layout.fixedSize?_eq (layout : Layout) : ∀ (enclosing : List String)
    (inherited : ByteOrder) (descriptor : Descriptor),
    layout.describeWithin enclosing inherited = .ok descriptor →
      layout.fixedSize? = descriptor.fixedSize? := by
  induction layout using Layout.held_induction with
  | step layout ih =>
    intro enclosing inherited descriptor h
    obtain ⟨fields, last, hfields, rfl⟩ := exists_described h
    obtain ⟨declared, hperm, hresolves, hwire⟩ := hfields.exists_onWire
    have hrooms : Field.runRooms none layout.onWire = FieldDescriptor.runRoomsAll fields := by
      rw [← hwire]
      exact hfields.runs.runRooms_eq hresolves rfl
    have hmap : declared.map Field.ownSize? =
        fields.map fun field ↦ if field.isFixed then some field.fullSize else none := by
      have hmem : ∀ field ∈ declared, field ∈ layout.fields := fun field hmem ↦
        (List.mem_filter.1 (hperm.mem_iff.1 hmem)).1
      refine (forall₂_map_eq (fun field entry h ↦ ?_)
        ((List.forall₂_and_left _ _).2 ⟨hmem, hresolves⟩)).symm
      exact (Field.ownSize?_eq h.2 (ih field h.1)).symm
    have hsizes : Field.fixedSizes? layout.fields = if fields.all FieldDescriptor.isFixed then
        some (FieldDescriptor.fullSizeAll fields) else none := by
      rw [Field.fixedSizes?_eq_foldr, ← FieldDescriptor.foldr_fullSize, ← hmap]
      have : LeftCommutative (Option.map₂ (· + ·) : Option Nat → Option Nat → Option Nat) :=
        ⟨fun _ _ _ ↦ Option.map₂_left_comm Nat.add_left_comm⟩
      exact ((hperm.map _).foldr_eq _).symm
    obtain ⟨name, byteOrder, declaredFields⟩ := layout
    rw [Layout.fixedSize?, hrooms, hsizes, Descriptor.fixedSize?, Descriptor.fullSize,
      DescriptorKind.fullSize]
    cases fields.all FieldDescriptor.isFixed <;> rfl

/-- The size of a field or element can be seen from the layout. -/
theorem Shape.Yields.fixedSize?_eq {tag : Option Tag} {shape : Shape} {descriptor : Descriptor}
    (h : Yields enclosing byteOrder tag shape descriptor) :
    shape.fixedSize? tag = descriptor.fixedSize? :=
  h.fixedSize?_eq_of_held fun layout _ ↦ layout.fixedSize?_eq _ _

/-- A machine word has nothing left of a number that it is a multiple of. -/
theorem UInt64.ofNat_eq_zero_iff {count : Nat} :
    UInt64.ofNat count = 0 ↔ UInt64.size ∣ count := by
  rw [← UInt64.toNat_inj, UInt64.toNat_ofNat', Nat.dvd_iff_mod_eq_zero]
  rfl

/-- A descriptor seems to take no bytes if its size is nothing as a machine word. -/
theorem Shape.Yields.minSize_eq_zero_iff {tag : Option Tag} {shape : Shape}
    {descriptor : Descriptor} (h : Yields enclosing byteOrder tag shape descriptor) :
    (descriptor.hasFixedSize ∧ descriptor.minSize = 0) ↔
      ∃ count, shape.fixedSize? tag = some count ∧ UInt64.size ∣ count := by
  rw [h.fixedSize?_eq, Descriptor.fixedSize?,
    Descriptor.minSize_eq_ofNat_fullSize h.everywhere_coherent, UInt64.ofNat_eq_zero_iff]
  cases descriptor.hasFixedSize <;> simp

end WireFormat
