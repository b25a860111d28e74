import WireFormat.Proofs.Layout.Coherent

/-!
# Record types inside each other

A record type that is inside itself, at any depth, has no descriptor.  So in a descriptor that comes
from a layout all records around a place have different names.

* `Descriptor.Apart` — no record has the name of one around it;
* `Layout.describe_apart` — descriptors that come from layouts are like that.
-/

namespace WireFormat

/-- The name of a record type. -/
def Descriptor.typeName? (descriptor : Descriptor) : Option String :=
  match descriptor.kind with
  | .record name _ => some name
  | _ => none

/-- No record inside has the name of one around it, where some are around the whole. -/
inductive Descriptor.Apart : List String → Descriptor → Prop where
  | intro {enclosing : List String} {descriptor : Descriptor}
      (own : ∀ name ∈ descriptor.typeName?, name ∉ enclosing)
      (element : ∀ element ∈ descriptor.element?, Apart enclosing element)
      (fields : ∀ field ∈ descriptor.fields,
        Apart (enclosing ++ descriptor.typeName?.toList) field.descriptor) :
      Apart enclosing descriptor

namespace Descriptor.Apart

variable {enclosing : List String} {descriptor element : Descriptor} {field : FieldDescriptor}

theorem not_mem (h : descriptor.Apart enclosing) {name : String}
    (hname : name ∈ descriptor.typeName?) : name ∉ enclosing := by
  cases h with
  | intro own => exact own name hname

theorem of_element (h : descriptor.Apart enclosing) (hmem : element ∈ descriptor.element?) :
    element.Apart enclosing := by
  cases h with
  | intro _ helement => exact helement element hmem

theorem of_field (h : descriptor.Apart enclosing) (hmem : field ∈ descriptor.fields) :
    field.descriptor.Apart (enclosing ++ descriptor.typeName?.toList) := by
  cases h with
  | intro _ _ hfields => exact hfields field hmem

theorem of_leaf (enclosing : List String) (hname : descriptor.typeName? = none)
    (helement : descriptor.element? = none) (hfields : descriptor.fields = []) :
    descriptor.Apart enclosing :=
  .intro (by simp [hname]) (by simp [helement]) (by simp [hfields])

end Descriptor.Apart

theorem Shape.Yields.apart {enclosing : List String} {byteOrder : ByteOrder} {tag : Option Tag}
    {shape : Shape} {descriptor : Descriptor} (h : Yields enclosing byteOrder tag shape descriptor)
    (hheld : ∀ layout, shape.Holds tag layout → ∀ descriptor,
      layout.describeWithin enclosing byteOrder = .ok descriptor → descriptor.Apart enclosing) :
    descriptor.Apart enclosing := by
  induction h with
  | list _ _ _ ih =>
    refine .intro nofun ?_ nofun
    rintro _ ⟨⟩
    exact ih fun layout h ↦ hheld layout (.element rfl h)
  | record hplain hinner => exact hheld _ (.record (isCodec_of_plain rfl hplain)) _ hinner
  | codec | scalar | boolean | enum | text => exact .of_leaf enclosing rfl rfl rfl

/-- The names of the records around are those that a record type must not have. -/
theorem Layout.apart_describeWithin (layout : Layout) : ∀ (enclosing : List String)
    (inherited : ByteOrder) (descriptor : Descriptor),
      layout.describeWithin enclosing inherited = .ok descriptor → descriptor.Apart enclosing := by
  induction layout using Layout.held_induction with
  | step layout ih =>
    intro enclosing inherited descriptor h
    obtain ⟨fields, last, hfields, rfl⟩ := exists_described h
    obtain ⟨declared, hperm, hresolves⟩ := hfields.declared
    refine .intro ?_ nofun ?_
    · rintro _ ⟨⟩
      exact hfields.fresh
    · have hall : ∀ field ∈ declared, True := fun _ _ ↦ trivial
      refine (forall₂_forall_mem_iff hresolves fun field hmem entry hresolve ↦ ?_).1 hall
      rw [true_iff]
      obtain ⟨descriptor, container, hdescriptor, hentry⟩ := hresolve.descriptor
      rw [hentry]
      cases hdescriptor with
      | whole hunpacked hyields =>
        rw [Descriptor.withContainer_of_bitWidth?_eq_none hyields.bitWidth?_eq]
        exact hyields.apart fun inner hheld ↦
          ih field (List.mem_filter.1 (hperm.mem_iff.1 hmem)).1 inner hheld _ _
      | bits => exact .of_leaf _ rfl rfl rfl

/-- In a descriptor that comes from a layout no record is inside another one of its name. -/
theorem Layout.describe_apart {layout : Layout} {descriptor : Descriptor}
    (h : layout.describe = .ok descriptor) : descriptor.Apart [] :=
  layout.apart_describeWithin _ _ _ h

end WireFormat
