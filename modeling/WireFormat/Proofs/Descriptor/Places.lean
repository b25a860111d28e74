import WireFormat.Descriptor.Basic

/-!
# Places in descriptors

* `Descriptor.induction` — what a descriptor has if its element and its fields have it;
* `Descriptor.Everywhere` — what holds of a descriptor and of all descriptors inside it;
* `Descriptor.Reaches` — the way from a descriptor to another through fields on the wire;
* `Descriptor.Starts` — the descriptors from which such ways begin: the whole one and the elements
  of its lists.
-/

namespace WireFormat

namespace Descriptor

theorem sizeOf_element_lt {descriptor element : Descriptor} (h : element ∈ descriptor.element?) :
    sizeOf element < sizeOf descriptor := by
  obtain ⟨kind, byteOrder, hasFixedSize, minSize⟩ := descriptor
  cases kind with
  | list own size =>
    cases h
    simp
    omega
  | _ => cases h

theorem sizeOf_field_lt {descriptor : Descriptor} {field : FieldDescriptor}
    (h : field ∈ descriptor.fields) : sizeOf field.descriptor < sizeOf descriptor := by
  obtain ⟨kind, byteOrder, hasFixedSize, minSize⟩ := descriptor
  cases kind with
  | record name fields =>
    have hlt := List.sizeOf_lt_of_mem (show field ∈ fields from h)
    obtain ⟨name, order, descriptor, serialize, lengthOf, padAfter⟩ := field
    simp at hlt ⊢
    omega
  | _ => cases h

/-- What a descriptor has if its element and the descriptors of its fields have it, all have. -/
theorem induction {P : Descriptor → Prop}
    (step : ∀ descriptor, (∀ element ∈ descriptor.element?, P element) →
      (∀ field ∈ descriptor.fields, P field.descriptor) → P descriptor)
    (descriptor : Descriptor) : P descriptor :=
  step descriptor (fun element _hmem ↦ induction step element)
    fun field _hmem ↦ induction step field.descriptor
termination_by sizeOf descriptor
decreasing_by
  · exact sizeOf_element_lt _hmem
  · exact sizeOf_field_lt _hmem

/-- What holds of a descriptor and of all descriptors inside it, on the wire or not. -/
inductive Everywhere (P : Descriptor → Prop) : Descriptor → Prop where
  | intro {descriptor : Descriptor} (here : P descriptor)
      (element : ∀ element ∈ descriptor.element?, Everywhere P element)
      (fields : ∀ field ∈ descriptor.fields, Everywhere P field.descriptor) :
      Everywhere P descriptor

/-- The way from a descriptor to one inside it, through the given fields, all on the wire and each
in the record before it.  No way leads into the elements of a list. -/
inductive Reaches : Descriptor → List FieldDescriptor → Descriptor → Prop where
  | here (descriptor : Descriptor) : Reaches descriptor [] descriptor
  | field {descriptor target : Descriptor} {field : FieldDescriptor}
      {path : List FieldDescriptor} (mem : field ∈ descriptor.fields) (serialize : field.serialize)
      (rest : field.descriptor.Reaches path target) : Reaches descriptor (field :: path) target

/-- The descriptors from which ways begin: the whole descriptor and, where the address has a way to
a list, its elements and what begins in them. -/
inductive Starts : Descriptor → List (List FieldDescriptor) → Descriptor → Prop where
  | whole (descriptor : Descriptor) : Starts descriptor [] descriptor
  | element {descriptor list element top : Descriptor} {path : List FieldDescriptor}
      {address : List (List FieldDescriptor)} (reaches : descriptor.Reaches path list)
      (mem : element ∈ list.element?) (rest : element.Starts address top) :
      Starts descriptor (path :: address) top

variable {descriptor middle target : Descriptor} {path rest : List FieldDescriptor}
  {P : Descriptor → Prop}

theorem reaches_cons_iff {field : FieldDescriptor} : descriptor.Reaches (field :: path) target ↔
    field ∈ descriptor.fields ∧ field.serialize ∧ field.descriptor.Reaches path target := by
  constructor
  · intro h
    cases h with
    | field mem serialize rest => exact ⟨mem, serialize, rest⟩
  · rintro ⟨mem, serialize, rest⟩
    exact .field mem serialize rest

theorem Reaches.append (h : descriptor.Reaches path middle) (hrest : middle.Reaches rest target) :
    descriptor.Reaches (path ++ rest) target := by
  induction h with
  | here => exact hrest
  | field mem serialize _ ih => exact .field mem serialize (ih hrest)

theorem reaches_append_iff : descriptor.Reaches (path ++ rest) target ↔
    ∃ middle, descriptor.Reaches path middle ∧ middle.Reaches rest target := by
  constructor
  · intro h
    induction path generalizing descriptor with
    | nil => exact ⟨descriptor, .here descriptor, h⟩
    | cons field path ih =>
      cases h with
      | field mem serialize rest =>
        obtain ⟨middle, hpath, hrest⟩ := ih rest
        exact ⟨middle, .field mem serialize hpath, hrest⟩
  · rintro ⟨middle, hpath, hrest⟩
    exact hpath.append hrest

/-- A way leads to one descriptor only. -/
theorem Reaches.eq {other : Descriptor} (h : descriptor.Reaches path target)
    (hother : descriptor.Reaches path other) : other = target := by
  induction h with
  | here => cases hother; rfl
  | field _ _ _ ih =>
    cases hother with
    | field _ _ rest => exact ih rest

theorem Reaches.reaches_of_append (h : descriptor.Reaches path middle)
    (htarget : descriptor.Reaches (path ++ rest) target) : middle.Reaches rest target := by
  obtain ⟨middle', hmiddle, hrest⟩ := reaches_append_iff.1 htarget
  obtain rfl := h.eq hmiddle
  exact hrest

theorem Reaches.sizeOf_le (h : descriptor.Reaches path target) :
    sizeOf target ≤ sizeOf descriptor := by
  induction h with
  | here => exact Nat.le_refl _
  | field mem _ _ ih => exact Nat.le_trans ih (Nat.le_of_lt (sizeOf_field_lt mem))

/-- What a descriptor has if the elements of the lists in it have it, all have. -/
theorem element_induction {P : Descriptor → Prop}
    (step : ∀ descriptor, (∀ path list, descriptor.Reaches path list →
      ∀ element ∈ list.element?, P element) → P descriptor)
    (descriptor : Descriptor) : P descriptor :=
  step descriptor fun path list _hreaches element _hmem ↦ element_induction step element
termination_by sizeOf descriptor
decreasing_by exact Nat.lt_of_lt_of_le (sizeOf_element_lt _hmem) _hreaches.sizeOf_le

theorem Everywhere.here (h : descriptor.Everywhere P) : P descriptor := by
  cases h with
  | intro here => exact here

theorem Everywhere.imp {Q : Descriptor → Prop} (h : descriptor.Everywhere P)
    (himp : ∀ inner, P inner → Q inner) : descriptor.Everywhere Q := by
  induction h with
  | intro here _ _ ihelement ihfields => exact .intro (himp _ here) ihelement ihfields

theorem Everywhere.imp_everywhere {Q : Descriptor → Prop} (h : descriptor.Everywhere P)
    (himp : ∀ inner, inner.Everywhere P → Q inner) : descriptor.Everywhere Q := by
  induction h with
  | intro here element fields ihelement ihfields =>
    exact .intro (himp _ (.intro here element fields)) ihelement ihfields

theorem Everywhere.of_element (h : descriptor.Everywhere P) {element : Descriptor}
    (hmem : element ∈ descriptor.element?) : element.Everywhere P := by
  cases h with
  | intro _ helement => exact helement element hmem

theorem Everywhere.of_field (h : descriptor.Everywhere P) {field : FieldDescriptor}
    (hmem : field ∈ descriptor.fields) : field.descriptor.Everywhere P := by
  cases h with
  | intro _ _ hfields => exact hfields field hmem

theorem Everywhere.of_reaches (h : descriptor.Everywhere P)
    (hreaches : descriptor.Reaches path target) : target.Everywhere P := by
  induction hreaches with
  | here => exact h
  | field mem _ _ ih => exact ih (h.of_field mem)

theorem Everywhere.of_starts (h : descriptor.Everywhere P) {top : Descriptor}
    {address : List (List FieldDescriptor)} (hstarts : descriptor.Starts address top) :
    top.Everywhere P := by
  induction hstarts with
  | whole => exact h
  | element reaches mem _ ih => exact ih ((h.of_reaches reaches).of_element mem)

end Descriptor

end WireFormat
