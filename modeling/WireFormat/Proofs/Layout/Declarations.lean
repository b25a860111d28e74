import Mathlib.Logic.Relation
import WireFormat.Proofs.Format.Locality
import WireFormat.Proofs.Layout.Described

/-!
# The order of declarations

A record type lists its fields in any order, and fields without a place on the wire among them.
Neither is to be seen in its descriptor: the fields are sorted by their places, which are distinct,
and all that goes on from field to field goes on in that order.

* `Shape.Rearranges` — one change of a declaration, at any depth;
* `Layout.assemble_eq_ok_iff_of_perm` — a record is put together from what its fields come to;
* `Schema.ofLayout_eq_ok_iff_of_varies` — what is declared otherwise compiles to the same schema.
-/

namespace WireFormat

/-! ## Changes -/

/-- One change of what is declared somewhere in a shape: the fields of a record type are listed in
another order, or a field without a place on the wire is added under a name of its own.  The record
type may be in a field, on the wire or not, or in the elements of a list. -/
inductive Shape.Rearranges : Shape → Shape → Prop where
  | permute {name : String} {byteOrder : Option ByteOrder} {fields fields' : List Field}
      (perm : fields.Perm fields') :
      Rearranges (.record ⟨name, byteOrder, fields⟩) (.record ⟨name, byteOrder, fields'⟩)
  | add {name : String} {byteOrder : Option ByteOrder} {fields : List Field} {field : Field}
      (unordered : field.order = none) (fresh : field.name ∉ fields.map Field.name) :
      Rearranges (.record ⟨name, byteOrder, fields⟩) (.record ⟨name, byteOrder, field :: fields⟩)
  | field {name : String} {byteOrder : Option ByteOrder} {before after : List Field} {field : Field}
      {shape : Shape} (inner : Rearranges field.shape shape) :
      Rearranges (.record ⟨name, byteOrder, before ++ field :: after⟩)
        (.record ⟨name, byteOrder, before ++ { field with shape := shape } :: after⟩)
  | element {shape shape' : Shape} {tag : Option Tag} (inner : Rearranges shape shape') :
      Rearranges (.list ⟨shape, tag⟩) (.list ⟨shape', tag⟩)

/-- A layout with what is declared in it changed any number of times. -/
def Layout.Varies (layout variant : Layout) : Prop :=
  Relation.ReflTransGen Shape.Rearranges (.record layout) (.record variant)

/-- Two shapes are described alike, wherever they are. -/
def Shape.Alike (shape shape' : Shape) : Prop :=
  ∀ enclosing byteOrder tag descriptor, shape.describe enclosing byteOrder tag = .ok descriptor ↔
    shape'.describe enclosing byteOrder tag = .ok descriptor

/-! ## Fields -/

/-- All that counts of a field when its record is put together: its shape does not, nor does it
matter how it has failed. -/
def ResolvedField.core (entry : ResolvedField) : Nat × Field × Option Descriptor :=
  (entry.order, { entry.field with shape := .text }, entry.outcome.toOption)

theorem toOption_eq_some_iff {ε α : Type} {x : Except ε α} {a : α} :
    x.toOption = some a ↔ x = .ok a := by
  cases x <;> simp [Except.toOption]

namespace RecordAnalysis

theorem addField_shape (analysis : RecordAnalysis) (order : Nat) (field : Field) (shape : Shape)
    (descriptor : Descriptor) : analysis.addField order { field with shape := shape } descriptor =
      analysis.addField order field descriptor := rfl

theorem addFields_eq_ok_iff_of_core {typeName : String} {analysis result : RecordAnalysis}
    {resolved resolved' : List ResolvedField}
    (h : resolved.map ResolvedField.core = resolved'.map ResolvedField.core) :
    addFields typeName analysis resolved = .ok result ↔
      addFields typeName analysis resolved' = .ok result := by
  induction resolved generalizing analysis resolved' with
  | nil => rw [List.map_eq_nil_iff.1 h.symm]
  | cons entry rest ih =>
    obtain _ | ⟨entry', rest'⟩ := resolved'
    · cases h
    · obtain ⟨hentry, hrest⟩ := List.cons.inj h
      obtain ⟨horder, hcore⟩ := Prod.ext_iff.1 hentry
      obtain ⟨hfield, houtcome⟩ := Prod.ext_iff.1 hcore
      dsimp only [ResolvedField.core] at horder hfield houtcome
      have hsame (descriptor : Descriptor) :
          entry.outcome = .ok descriptor ↔ entry'.outcome = .ok descriptor := by
        rw [← toOption_eq_some_iff, ← toOption_eq_some_iff, houtcome]
      have hadd (descriptor : Descriptor) : analysis.addField entry.order entry.field descriptor =
          analysis.addField entry'.order entry'.field descriptor := by
        rw [← addField_shape _ _ entry.field .text, hfield, addField_shape, horder]
      rw [addFields_cons_eq_ok_iff, addFields_cons_eq_ok_iff]
      simp only [hsame, hadd, ih hrest]

end RecordAnalysis

/-- The order of the wire does not depend on the order that the fields come in. -/
theorem ResolvedField.map_core_sort_eq {resolved resolved' : List ResolvedField}
    (hperm : (resolved.map core).Perm (resolved'.map core))
    (horders : (resolved.map ResolvedField.order).Nodup)
    (horders' : (resolved'.map ResolvedField.order).Nodup) :
    (sort resolved).map core = (sort resolved').map core := by
  have hsorted : ∀ {entries : List ResolvedField}, (entries.map ResolvedField.order).Nodup →
      ((sort entries).map core).Pairwise fun first second ↦ first.1 < second.1 :=
    fun h ↦ List.pairwise_map.2 (sort_pairwise_lt h)
  refine List.Perm.eq_of_pairwise (fun a b _ _ hlt hgt ↦ ?_) (hsorted horders) (hsorted horders') ?_
  · exact absurd hgt (Nat.lt_asymm hlt)
  · exact ((sort_perm resolved).map core).trans (hperm.trans ((sort_perm resolved').map core).symm)

/-- A record is put together from what its fields come to, in whatever order they are. -/
theorem Layout.assemble_eq_ok_iff_of_perm {name : String} {byteOrder : ByteOrder}
    {declared declared' : List Field} {resolved resolved' : List ResolvedField}
    {descriptor : Descriptor}
    (hnames : (declared.map Field.name).Nodup ↔ (declared'.map Field.name).Nodup)
    (hperm : (resolved.map ResolvedField.core).Perm (resolved'.map ResolvedField.core)) :
    assemble name byteOrder declared resolved = .ok descriptor ↔
      assemble name byteOrder declared' resolved' = .ok descriptor := by
  have horders : (resolved.map ResolvedField.order).Nodup ↔
      (resolved'.map ResolvedField.order).Nodup := by
    have hmap := (hperm.map Prod.fst).nodup_iff
    rw [List.map_map, List.map_map] at hmap
    exact hmap
  have hlengths : (resolved.filterMap fun entry ↦ entry.field.lengthOf).Nodup ↔
      (resolved'.filterMap fun entry ↦ entry.field.lengthOf).Nodup := by
    have hmap := (hperm.filterMap fun entry ↦ entry.2.1.lengthOf).nodup_iff
    rw [List.filterMap_map, List.filterMap_map] at hmap
    exact hmap
  rw [assemble_eq_ok_iff, assemble_eq_ok_iff, hnames, horders, hlengths]
  refine and_congr_right fun _ ↦ and_congr_right fun horders' ↦ and_congr_right fun _ ↦ ?_
  refine exists_congr fun analysis ↦ and_congr_left fun _ ↦ ?_
  exact RecordAnalysis.addFields_eq_ok_iff_of_core
    (ResolvedField.map_core_sort_eq hperm (horders.2 horders') horders')

namespace Field

variable {enclosing : List String} {byteOrder : ByteOrder} {field : Field} {shape : Shape}
  {fields fields' before after : List Field}

/-- A field is described as its shape is. -/
theorem describeIn_eq_ok_iff_of_alike (h : field.shape.Alike shape) (descriptor : Descriptor) :
    describeIn enclosing byteOrder { field with shape := shape } = .ok descriptor ↔
      field.describeIn enclosing byteOrder = .ok descriptor := by
  simp only [describeIn, bind_eq_ok_iff, h enclosing]
  refine exists_congr fun whole ↦ and_congr_right fun _ ↦ ?_
  cases field.bitWidth with
  | none => rfl
  | some width => simp only [mapError_eq_ok_iff, Descriptor.narrow_eq_ok_iff]

theorem map_core_describeAll_perm (hperm : fields.Perm fields') :
    ((describeAll enclosing byteOrder fields).map ResolvedField.core).Perm
      ((describeAll enclosing byteOrder fields').map ResolvedField.core) := by
  rw [describeAll_eq, describeAll_eq]
  exact (hperm.filterMap _).map _

theorem describeAll_cons_of_unordered (h : field.order = none) :
    describeAll enclosing byteOrder (field :: fields) = describeAll enclosing byteOrder fields := by
  rw [describeAll_eq, describeAll_eq, List.filterMap_cons, resolveIn, h, Option.map_none]

theorem map_core_resolveIn_of_alike (h : field.shape.Alike shape) :
    (field.resolveIn enclosing byteOrder).map ResolvedField.core =
      (resolveIn enclosing byteOrder { field with shape := shape }).map ResolvedField.core := by
  have houtcome : (field.describeIn enclosing byteOrder).toOption =
      (describeIn enclosing byteOrder { field with shape := shape }).toOption := by
    refine Option.ext fun descriptor ↦ ?_
    rw [toOption_eq_some_iff, toOption_eq_some_iff, describeIn_eq_ok_iff_of_alike h]
  rw [resolveIn, resolveIn, Option.map_map, Option.map_map]
  exact congrArg (fun outcome ↦ field.order.map fun order ↦
    (order, { field with shape := .text }, outcome)) houtcome

theorem map_core_describeAll_of_alike (h : field.shape.Alike shape) :
    (describeAll enclosing byteOrder (before ++ field :: after)).map ResolvedField.core =
      (describeAll enclosing byteOrder
        (before ++ { field with shape := shape } :: after)).map ResolvedField.core := by
  rw [describeAll_eq, describeAll_eq, List.map_filterMap, List.map_filterMap,
    List.filterMap_append, List.filterMap_append, filterMap_cons_eq, filterMap_cons_eq,
    map_core_resolveIn_of_alike h]

end Field

/-! ## Shapes and layouts -/

namespace Shape

theorem alike_record {layout layout' : Layout} (h : ∀ enclosing inherited descriptor,
      layout.describeWithin enclosing inherited = .ok descriptor ↔
        layout'.describeWithin enclosing inherited = .ok descriptor) :
    (record layout).Alike (record layout') := by
  intro enclosing byteOrder tag descriptor
  rcases tag with _ | (_ | _ | _ | _ | _ | _ | _) <;>
    simp [describe, Descriptor.unlessCodec, refuse, h]

theorem alike_list {shape shape' : Shape} (h : shape.Alike shape') (inner : Option Tag) :
    (list ⟨shape, inner⟩).Alike (list ⟨shape', inner⟩) := by
  intro enclosing byteOrder tag descriptor
  rcases tag with _ | (_ | _ | _ | _ | _ | _ | _) <;>
    simp [describe, Descriptor.unlessCodec, refuse, bind_eq_ok_iff, h enclosing byteOrder]

/-- A change of what is declared is not to be seen in a description. -/
theorem Rearranges.alike {shape shape' : Shape} (h : Rearranges shape shape') :
    shape.Alike shape' := by
  induction h with
  | permute perm =>
    refine alike_record fun enclosing inherited descriptor ↦ ?_
    rw [Layout.describeWithin_eq_ok_iff, Layout.describeWithin_eq_ok_iff]
    exact and_congr_right fun _ ↦ Layout.assemble_eq_ok_iff_of_perm (perm.map _).nodup_iff
      (Field.map_core_describeAll_perm perm)
  | add unordered fresh =>
    refine alike_record fun enclosing inherited descriptor ↦ ?_
    rw [Layout.describeWithin_eq_ok_iff, Layout.describeWithin_eq_ok_iff]
    refine and_congr_right fun _ ↦ Layout.assemble_eq_ok_iff_of_perm ?_ ?_
    · rw [List.map_cons, List.nodup_cons, and_iff_right fresh]
    · rw [Field.describeAll_cons_of_unordered unordered]
  | field inner ih =>
    refine alike_record fun enclosing inherited descriptor ↦ ?_
    rw [Layout.describeWithin_eq_ok_iff, Layout.describeWithin_eq_ok_iff]
    refine and_congr_right fun _ ↦ Layout.assemble_eq_ok_iff_of_perm ?_ ?_
    · rw [List.map_append, List.map_append, List.map_cons, List.map_cons]
    · exact .of_eq (Field.map_core_describeAll_of_alike ih)
  | element inner ih => exact alike_list ih _

end Shape

theorem Layout.Varies.describe_eq_ok_iff {layout variant : Layout} (h : layout.Varies variant)
    (descriptor : Descriptor) :
    layout.describe = .ok descriptor ↔ variant.describe = .ok descriptor := by
  have halike : ∀ {shape shape' : Shape}, Relation.ReflTransGen Shape.Rearranges shape shape' →
      shape.Alike shape' := by
    intro shape shape' h
    induction h with
    | refl => exact fun _ _ _ _ ↦ Iff.rfl
    | tail _ hstep ih =>
      exact fun enclosing byteOrder tag descriptor ↦
        (ih enclosing byteOrder tag descriptor).trans (hstep.alike enclosing byteOrder tag descriptor)
  have hroot := halike h [] .little none descriptor
  change Except.mapError _ _ = _ ↔ Except.mapError _ _ = _ at hroot
  rwa [mapError_eq_ok_iff, mapError_eq_ok_iff] at hroot

/-- What is declared otherwise compiles exactly if the layout does, and to the same schema: the
descriptor is the same and so is the plan. -/
theorem Schema.ofLayout_eq_ok_iff_of_varies {layout variant : Layout} (h : layout.Varies variant)
    (schema : Schema) : ofLayout layout = .ok schema ↔ ofLayout variant = .ok schema := by
  simp only [ofLayout, bind_eq_ok_iff, h.describe_eq_ok_iff]
  refine exists_congr fun descriptor ↦ and_congr_right fun hvariant ↦ ?_
  -- The name of the record type stands in the descriptor.
  obtain ⟨fields, hkind⟩ := Layout.describeWithin_kind ((h.describe_eq_ok_iff descriptor).2 hvariant)
  obtain ⟨fields', hkind'⟩ := Layout.describeWithin_kind hvariant
  have hname : layout.name = variant.name :=
    (DescriptorKind.record.inj (hkind.symm.trans hkind')).1
  rw [hname]

/-- A text that is not on the wire. -/
def Field.note : Field where
  name := "note"
  order := none
  shape := .text

/-- Two slots for counts with their bytes, the bytes declared first and a text between them and the
count. -/
def Layout.noted : Layout where
  name := "Shelf"
  fields := [
    { name := "rows", order := some 0, tag := some (.list { fixedLength := some 2 })
      shape := .list ⟨.record { Layout.counted with fields := [
        { name := "items", order := some 1, shape := .list ⟨.scalar (.integer .u8), none⟩
          tag := some (.list { lengthKey := some "items" }) },
        .note,
        { name := "count", order := some 0, shape := .scalar (.integer .u8)
          lengthOf := some "items" }] }, none⟩ }]

theorem Layout.shelf_varies : Layout.shelf.Varies .noted := by
  have hadd : Shape.Rearranges (.record .counted)
      (.record { Layout.counted with fields := .note :: Layout.counted.fields }) :=
    .add rfl (by decide)
  have hmove : Shape.Rearranges
      (.record { Layout.counted with fields := .note :: Layout.counted.fields })
      (.record { Layout.counted with fields := Layout.counted.fields.drop 1 ++
        .note :: Layout.counted.fields.take 1 }) :=
    .permute (List.perm_append_singleton _ [_, _])
  exact .head (@Shape.Rearranges.field _ _ [] [] _ _ hadd.element)
    (.single (@Shape.Rearranges.field _ _ [] [] _ _ hmove.element))

theorem Schema.ofLayout_noted : Layout.shelf.Varies .noted ∧ ofLayout .noted = .ok .shelf :=
  ⟨Layout.shelf_varies, (ofLayout_eq_ok_iff_of_varies Layout.shelf_varies _).1 ofLayout_shelf⟩

end WireFormat
