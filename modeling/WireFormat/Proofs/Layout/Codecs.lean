import WireFormat.Proofs.Layout.Coherent

/-!
# Layouts without codecs

What a codec writes and reads is up to the codec.  `Layout.UsesCodec` says that some part of a
layout is left to one, which can be decided; if none is, the same is true of its descriptor.
-/

namespace WireFormat

/-- Something in a field or element has a codec, be it the field or element itself. -/
inductive Shape.UsesCodec : Option Tag → Shape → Prop where
  | own {tag : Option Tag} {shape : Shape} (codec : Tag.isCodec tag) : UsesCodec tag shape
  | element {tag inner : Option Tag} {shape : Shape} (codec : shape.UsesCodec inner) :
      UsesCodec tag (.list ⟨shape, inner⟩)
  | record {tag : Option Tag} {layout : Layout} {field : Field} (mem : field ∈ layout.ordered)
      (codec : field.shape.UsesCodec field.tag) : UsesCodec tag (.record layout)

/-- Something in a record type has a codec. -/
def Layout.UsesCodec (layout : Layout) : Prop :=
  ∃ field ∈ layout.ordered, field.shape.UsesCodec field.tag

/-! ## Looking for codecs -/

mutual

/-- Whether something in a field or element has a codec. -/
def Shape.hasCodec (tag : Option Tag) : Shape → Bool
  | .list ⟨shape, inner⟩ => Tag.isCodec tag || shape.hasCodec inner
  | .record ⟨_, _, fields⟩ => Tag.isCodec tag || Field.anyHasCodec fields
  | .scalar _ | .enum _ | .text => Tag.isCodec tag

/-- Whether something in one of the ordered fields has a codec. -/
def Field.anyHasCodec : List Field → Bool
  | [] => false
  | ⟨_, order, shape, tag, _, _, _, _, _⟩ :: rest =>
    order.isSome && shape.hasCodec tag || Field.anyHasCodec rest

end

theorem Field.anyHasCodec_iff {fields : List Field} : anyHasCodec fields ↔
    ∃ field ∈ fields.filter fun field ↦ field.order.isSome, field.shape.hasCodec field.tag := by
  induction fields with
  | nil => simp [anyHasCodec]
  | cons field rest ih =>
    cases field
    rw [anyHasCodec, Bool.or_eq_true, ih, Bool.and_eq_true]
    simp [and_assoc, or_and_right, exists_or]

theorem Shape.UsesCodec.hasCodec {tag : Option Tag} {shape : Shape} (h : shape.UsesCodec tag) :
    shape.hasCodec tag := by
  induction h with
  | @own tag shape codec =>
    rcases shape with _ | _ | _ | ⟨shape, inner⟩ | ⟨name, byteOrder, fields⟩ <;>
      simp [Shape.hasCodec, codec]
  | element _ ih => simp [Shape.hasCodec, ih]
  | @record tag layout field mem _ ih =>
    obtain ⟨name, byteOrder, fields⟩ := layout
    rw [Shape.hasCodec, Field.anyHasCodec_iff.2 ⟨field, mem, ih⟩, Bool.or_true]

mutual

theorem Shape.usesCodec_of_hasCodec (tag : Option Tag) :
    (shape : Shape) → shape.hasCodec tag → shape.UsesCodec tag
  | .scalar _, h | .enum _, h | .text, h => .own h
  | .list ⟨shape, inner⟩, h => by
    rcases Bool.or_eq_true_iff.1 h with hown | hinner
    · exact .own hown
    · exact .element (shape.usesCodec_of_hasCodec inner hinner)
  | .record ⟨name, byteOrder, fields⟩, h => by
    rcases Bool.or_eq_true_iff.1 h with hown | hfields
    · exact .own hown
    · obtain ⟨field, hmem, hcodec⟩ := Field.exists_usesCodec_of_anyHasCodec fields hfields
      exact .record hmem hcodec

theorem Field.exists_usesCodec_of_anyHasCodec :
    (fields : List Field) → Field.anyHasCodec fields →
      ∃ field ∈ fields.filter fun field ↦ field.order.isSome, field.shape.UsesCodec field.tag
  | [], h => by cases h
  | ⟨name, order, shape, tag, byteOrder, bitWidth, padAfter, lengthOf, serialize⟩ :: rest, h => by
    rcases Bool.or_eq_true_iff.1 h with hown | hrest
    · obtain ⟨horder, hcodec⟩ := Bool.and_eq_true_iff.1 hown
      exact ⟨_, List.mem_filter.2 ⟨List.mem_cons_self, horder⟩,
        shape.usesCodec_of_hasCodec tag hcodec⟩
    · obtain ⟨field, hmem, hcodec⟩ := Field.exists_usesCodec_of_anyHasCodec rest hrest
      obtain ⟨hmem, horder⟩ := List.mem_filter.1 hmem
      exact ⟨field, List.mem_filter.2 ⟨List.mem_cons_of_mem _ hmem, horder⟩, hcodec⟩

end

instance (layout : Layout) : Decidable layout.UsesCodec :=
  decidable_of_iff (Field.anyHasCodec layout.fields)
    ⟨Field.exists_usesCodec_of_anyHasCodec layout.fields, fun ⟨field, hmem, hcodec⟩ ↦
      Field.anyHasCodec_iff.2 ⟨field, hmem, hcodec.hasCodec⟩⟩

/-! ## Descriptors -/

/-- Whether the bytes are those of a codec. -/
def Descriptor.isCodec (descriptor : Descriptor) : Bool :=
  match descriptor.kind with
  | .custom _ _ => true
  | _ => false

theorem Shape.Yields.everywhere_isCodec_eq_false {enclosing : List String} {byteOrder : ByteOrder}
    {tag : Option Tag} {shape : Shape} {descriptor : Descriptor}
    (h : Yields enclosing byteOrder tag shape descriptor) (hfree : ¬ shape.UsesCodec tag)
    (hheld : ∀ layout, shape.Holds tag layout → ¬ layout.UsesCodec → ∀ descriptor,
      layout.describeWithin enclosing byteOrder = .ok descriptor →
        descriptor.Everywhere fun inner ↦ inner.isCodec = false) :
    descriptor.Everywhere fun inner ↦ inner.isCodec = false := by
  induction h with
  | codec => exact (hfree (.own rfl)).elim
  | list hpolicy _ _ ih =>
    refine .intro rfl ?_ (by simp [Descriptor.fields])
    rintro _ ⟨⟩
    exact ih (fun h ↦ hfree (.element h)) fun layout h ↦ hheld layout (.element rfl h)
  | record hplain hinner =>
    refine hheld _ (.record (isCodec_of_plain rfl hplain)) ?_ _ hinner
    rintro ⟨field, hmem, hcodec⟩
    exact hfree (.record hmem hcodec)
  | _ => exact Descriptor.everywhere_of_leaf rfl rfl rfl

theorem Layout.everywhere_isCodec_eq_false_within (layout : Layout) : ∀ (enclosing : List String)
    (inherited : ByteOrder) (descriptor : Descriptor), ¬ layout.UsesCodec →
    layout.describeWithin enclosing inherited = .ok descriptor →
      descriptor.Everywhere fun inner ↦ inner.isCodec = false := by
  induction layout using Layout.held_induction with
  | step layout ih =>
    intro enclosing inherited descriptor hfree h
    obtain ⟨fields, last, hfields, rfl⟩ := exists_described h
    obtain ⟨declared, hperm, hresolves⟩ := hfields.declared
    refine .intro rfl (by simp [Descriptor.element?]) ?_
    have hall : ∀ field ∈ declared, True := fun _ _ ↦ trivial
    refine (forall₂_forall_mem_iff hresolves fun field hmem entry hresolve ↦ ?_).1 hall
    rw [true_iff]
    have hordered := hperm.mem_iff.1 hmem
    obtain ⟨descriptor, container, hdescriptor, hentry⟩ := hresolve.descriptor
    rw [hentry]
    cases hdescriptor with
    | whole hbits hwhole =>
      rw [Descriptor.withContainer_of_bitWidth?_eq_none hwhole.bitWidth?_eq]
      exact hwhole.everywhere_isCodec_eq_false (fun h ↦ hfree ⟨field, hordered, h⟩)
        fun inner hheld hinner ↦ fun descriptor ↦
          ih field (List.mem_filter.1 hordered).1 inner hheld _ _ descriptor hinner
    | bits _ _ _ hwidth => exact Descriptor.everywhere_of_leaf rfl rfl rfl

/-- Without codecs in a layout there are none in its descriptor. -/
theorem Layout.everywhere_isCodec_eq_false {layout : Layout} {descriptor : Descriptor}
    (h : layout.describe = .ok descriptor) (hfree : ¬ layout.UsesCodec) :
    descriptor.Everywhere fun inner ↦ inner.isCodec = false :=
  layout.everywhere_isCodec_eq_false_within _ _ _ hfree h

end WireFormat
