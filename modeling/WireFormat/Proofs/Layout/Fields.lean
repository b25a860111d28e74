import WireFormat.Proofs.Layout.Described

/-!
# What the descriptor of a record consists of

* `FieldDescriptor.Resolves` — a field of a descriptor and the declared field that it comes from;
* `Runs.Follows` — the runs of bit fields in a list of fields;
* `Layout.Described` — all that is known of the fields of a descriptor;
* `Layout.exists_described` — a descriptor has such fields, and its sizes are those of the fields;
* `Layout.held_induction` — induction over the record types inside a record type.
-/

namespace WireFormat

namespace FieldDescriptor

/-- Whether the field takes the same number of bytes for all values; it does where it is not on the
wire. -/
def isFixed (field : FieldDescriptor) : Bool := !field.serialize || field.descriptor.hasFixedSize

/-- The number of bytes that the field takes at least, as a machine word. -/
def least (field : FieldDescriptor) : UInt64 :=
  if field.serialize then field.descriptor.minSize else 0

/-- The number of bytes that fields take at least, as a machine word, without those of bit runs. -/
def leastAll : List FieldDescriptor → UInt64
  | [] => 0
  | field :: rest => field.least + leastAll rest

/-- The field comes from the given field of a layout. -/
structure Resolves (enclosing : List String) (byteOrder : ByteOrder) (declared : Field)
    (field : FieldDescriptor) : Prop where
  name : field.name = declared.name
  order : declared.order = some field.order
  serialize : field.serialize = declared.serialize
  lengthOf : field.lengthOf = declared.lengthOf
  padAfter : field.padAfter = declared.padAfter
  descriptor : ∃ descriptor container, Field.Yields enclosing byteOrder declared descriptor ∧
    field.descriptor = descriptor.withContainer container

end FieldDescriptor

/-- The runs after some fields of the wire whose containers are known. -/
inductive Runs.Follows : Runs → List FieldDescriptor → Runs → Prop where
  | nil (runs : Runs) : Follows runs [] runs
  | skip {runs last : Runs} {field : FieldDescriptor} {rest : List FieldDescriptor}
      (skipped : field.serialize = false) (follows : Follows runs rest last) :
      Follows runs (field :: rest) last
  | field {runs after last : Runs} {field : FieldDescriptor} {rest : List FieldDescriptor}
      (serialize : field.serialize)
      (track : RecordAnalysis.track runs field.descriptor = .ok (field.descriptor, after))
      (follows : Follows (if field.padAfter then after.close else after) rest last) :
      Follows runs (field :: rest) last

namespace RecordAnalysis

variable {typeName : String} {enclosing : List String} {byteOrder : ByteOrder}

theorem Tracks.exists_eq_withContainer {runs next : Runs} {field : Field}
    {descriptor tracked : Descriptor} (h : Tracks runs field descriptor tracked next) :
    ∃ container, tracked = descriptor.withContainer container := by
  unfold Tracks at h
  split at h
  · obtain ⟨after, htrack, -⟩ := h
    exact (track_eq_ok htrack).1
  · obtain ⟨container, hcontainer⟩ := descriptor.exists_withContainer_eq
    exact ⟨container, h.1.trans hcontainer.symm⟩

theorem Tracks.follows {runs next last : Runs} {field : Field} {order : Nat}
    {descriptor tracked : Descriptor} {rest : List FieldDescriptor}
    (h : Tracks runs field descriptor tracked next) (hrest : Runs.Follows next rest last) :
    Runs.Follows runs (⟨field.name, order, tracked, field.serialize, field.lengthOf,
      field.padAfter⟩ :: rest) last := by
  unfold Tracks at h
  split at h
  · next hserialize =>
    obtain ⟨after, htrack, rfl⟩ := h
    exact .field hserialize (track_eq_ok htrack).2 hrest
  · next hserialize =>
    obtain ⟨-, rfl⟩ := h
    exact .skip (by simpa using hserialize) hrest

/-- What adding a list of fields has done. -/
theorem addFields_eq_ok {analysis result : RecordAnalysis} {resolved : List ResolvedField}
    (houtcome : ∀ entry ∈ resolved, entry.field.order = some entry.order ∧
      entry.outcome = entry.field.describeIn enclosing byteOrder)
    (h : addFields typeName analysis resolved = .ok result) :
    ∃ added, result.fields = analysis.fields ++ added ∧
      List.Forall₂ (FieldDescriptor.Resolves enclosing byteOrder)
        (resolved.map ResolvedField.field) added ∧
      (∀ field ∈ added, field.lengthOf.isSome → field.descriptor.kind.carriesLength) ∧
      ((added.filterMap fun field ↦ field.descriptor.lengthKey?).Nodup ∧
        ∀ key ∈ added.filterMap fun field ↦ field.descriptor.lengthKey?,
          key ∉ analysis.consumed) ∧
      Runs.Follows analysis.runs added result.runs ∧
      result.hasFixedSize = (analysis.hasFixedSize && added.all FieldDescriptor.isFixed) ∧
      result.minSize = analysis.minSize + FieldDescriptor.leastAll added := by
  induction resolved generalizing analysis with
  | nil =>
    cases h
    exact ⟨[], by simp, .nil, by simp, by simp, .nil _, by simp, by simp [FieldDescriptor.leastAll]⟩
  | cons entry rest ih =>
    obtain ⟨⟨horder, hentry⟩, houtcome⟩ := List.forall_mem_cons.1 houtcome
    obtain ⟨descriptor, next, hdescriptor, hadd, hrest⟩ := addFields_cons_eq_ok_iff.1 h
    rw [hentry, Field.describeIn_eq_ok_iff] at hdescriptor
    obtain ⟨hfresh, hcarries, tracked, runs, htracks, rfl⟩ := addField_eq_ok_iff.1 hadd
    obtain ⟨container, rfl⟩ := htracks.exists_eq_withContainer
    obtain ⟨added, hfields, hresolves, hlengths, hkeys, hfollows, hfixed, hmin⟩ :=
      ih houtcome hrest
    refine ⟨⟨entry.field.name, entry.order, descriptor.withContainer container,
      entry.field.serialize, entry.field.lengthOf, entry.field.padAfter⟩ :: added,
      ?_, ?_, ?_, ?_, htracks.follows hfollows, ?_, ?_⟩
    · rw [hfields, grow, List.append_assoc]
      rfl
    · exact .cons ⟨rfl, horder, rfl, rfl, rfl, descriptor, container, hdescriptor, rfl⟩ hresolves
    · rw [List.forall_mem_cons]
      exact ⟨by simpa using hcarries, hlengths⟩
    · rw [filterMap_cons_eq, nodup_toList_append_iff, Descriptor.withContainer_lengthKey?]
      exact ⟨hfresh, hkeys⟩
    · simp [hfixed, grow, FieldDescriptor.isFixed, Bool.and_assoc]
    · simp [hmin, grow, FieldDescriptor.leastAll, FieldDescriptor.least, UInt64.add_assoc]

end RecordAnalysis

/-! ## Record types -/

theorem forall₂_map_eq {α β γ : Type} {R : α → β → Prop} {f : α → γ} {g : β → γ}
    (hfg : ∀ a b, R a b → g b = f a) {as : List α} {bs : List β} (h : List.Forall₂ R as bs) :
    bs.map g = as.map f := by
  induction h with
  | nil => rfl
  | cons hab _ ih => rw [List.map_cons, List.map_cons, hfg _ _ hab, ih]

theorem forall₂_forall_mem_iff {α β : Type} {R : α → β → Prop} {P : α → Prop} {Q : β → Prop}
    {as : List α} {bs : List β} (h : List.Forall₂ R as bs)
    (hPQ : ∀ a ∈ as, ∀ b, R a b → (P a ↔ Q b)) : (∀ a ∈ as, P a) ↔ ∀ b ∈ bs, Q b := by
  induction h with
  | nil => simp
  | cons hab _ ih =>
    rw [List.forall_mem_cons, List.forall_mem_cons, hPQ _ List.mem_cons_self _ hab,
      ih fun a hmem ↦ hPQ a (List.mem_cons_of_mem _ hmem)]

namespace Field

variable {enclosing : List String} {byteOrder : ByteOrder}

theorem map_field_resolveIn (fields : List Field) :
    (fields.filterMap (resolveIn enclosing byteOrder)).map ResolvedField.field =
      fields.filter fun field ↦ field.order.isSome := by
  induction fields with
  | nil => rfl
  | cons field rest ih =>
    cases horder : field.order <;> simp [resolveIn, horder, ← ih]

theorem mem_describeAll {fields : List Field} {entry : ResolvedField}
    (h : entry ∈ describeAll enclosing byteOrder fields) :
    entry.field.order = some entry.order ∧
      entry.outcome = entry.field.describeIn enclosing byteOrder := by
  rw [describeAll_eq, List.mem_filterMap] at h
  obtain ⟨field, -, hresolve⟩ := h
  obtain ⟨order, horder, rfl⟩ := Option.map_eq_some_iff.1 hresolve
  exact ⟨horder, rfl⟩

end Field

namespace Layout

variable {layout : Layout} {enclosing : List String} {inherited : ByteOrder}
  {descriptor : Descriptor}

/-- What is known of the fields of a record type that has been described. -/
structure Described (enclosing : List String) (inherited : ByteOrder) (layout : Layout)
    (fields : List FieldDescriptor) (last : Runs) : Prop where
  fresh : layout.name ∉ enclosing
  /-- They are the ordered fields of the layout. -/
  declared : ∃ ordered : List Field, ordered.Perm layout.ordered ∧
    List.Forall₂ (FieldDescriptor.Resolves (enclosing ++ [layout.name])
      (layout.byteOrder.getD inherited)) ordered fields
  names : (fields.map FieldDescriptor.name).Nodup
  orders : fields.Pairwise fun first second ↦ first.order < second.order
  carried : (fields.filterMap FieldDescriptor.lengthOf).Nodup
  carriers : ∀ field ∈ fields, field.lengthOf.isSome → field.descriptor.kind.carriesLength
  taken : (fields.filterMap fun field ↦ field.descriptor.lengthKey?).Nodup
  runs : Runs.Follows {} fields last

theorem exists_described (h : layout.describeWithin enclosing inherited = .ok descriptor) :
    ∃ fields last, layout.Described enclosing inherited fields last ∧
      descriptor = ⟨.record layout.name fields, layout.byteOrder.getD inherited,
        fields.all FieldDescriptor.isFixed,
        FieldDescriptor.leastAll fields + .ofNat last.bytes⟩ := by
  obtain ⟨hfresh, h⟩ := describeWithin_eq_ok_iff.1 h
  obtain ⟨hnames, horders, hcarried, analysis, hanalysis, rfl⟩ := assemble_eq_ok_iff.1 h
  have hperm := ResolvedField.sort_perm (Field.describeAll (enclosing ++ [layout.name])
    (layout.byteOrder.getD inherited) layout.fields)
  obtain ⟨fields, hfields, hresolves, hcarriers, ⟨htaken, -⟩, hruns, hfixed, hmin⟩ :=
    RecordAnalysis.addFields_eq_ok (fun entry hmem ↦
      Field.mem_describeAll (hperm.mem_iff.1 hmem)) hanalysis
  have hordered : ((ResolvedField.sort (Field.describeAll (enclosing ++ [layout.name])
      (layout.byteOrder.getD inherited) layout.fields)).map ResolvedField.field).Perm
      layout.ordered := by
    rw [ordered, ← Field.map_field_resolveIn, ← Field.describeAll_eq]
    exact hperm.map _
  refine ⟨fields, analysis.runs, ⟨hfresh, ⟨_, hordered, hresolves⟩, ?_, ?_, ?_, hcarriers, htaken,
    hruns⟩, ?_⟩
  · rw [forall₂_map_eq (fun _ _ h ↦ h.name) hresolves, (hordered.map _).nodup_iff]
    exact hnames.sublist (List.filter_sublist.map _)
  · have hsame : fields.map FieldDescriptor.order = (ResolvedField.sort (Field.describeAll
        (enclosing ++ [layout.name]) (layout.byteOrder.getD inherited) layout.fields)).map
        ResolvedField.order := by
      rw [forall₂_map_eq (f := fun field : Field ↦ field.order.getD 0)
        (fun _ _ h ↦ by simp [h.order]) hresolves, List.map_map]
      exact List.map_congr_left fun entry hmem ↦ by
        simp [(Field.mem_describeAll (hperm.mem_iff.1 hmem)).1]
    have hlt := ResolvedField.sort_pairwise_lt horders
    rw [← List.pairwise_map (f := ResolvedField.order) (R := (· < ·)), ← hsame,
      List.pairwise_map] at hlt
    exact hlt
  · have hsame := congrArg (List.filterMap id) (forall₂_map_eq (fun _ _ h ↦ h.lengthOf) hresolves)
    simp only [List.filterMap_map, List.map_map, Function.id_comp] at hsame
    rw [hsame]
    exact (hperm.filterMap _).nodup_iff.2 hcarried
  · simp [RecordAnalysis.toDescriptor, hfields, hfixed, hmin]

end Layout

/-! ## Record types inside record types -/

theorem Shape.Holds.sizeOf_le {tag : Option Tag} {shape : Shape} {layout : Layout}
    (h : shape.Holds tag layout) : sizeOf layout < sizeOf shape := by
  induction h with
  | record => simp
  | element _ _ ih => simp; omega

/-- What a record type has if the record types that its fields hold have it, all have. -/
theorem Layout.held_induction {P : Layout → Prop}
    (step : ∀ layout, (∀ field ∈ layout.fields, ∀ inner, field.shape.Holds field.tag inner →
      P inner) → P layout) (layout : Layout) : P layout :=
  step layout fun field _hmem inner _hheld ↦ Layout.held_induction step inner
termination_by sizeOf layout
decreasing_by
  have hfield := List.sizeOf_lt_of_mem _hmem
  have hinner := _hheld.sizeOf_le
  obtain ⟨name, byteOrder, fields⟩ := layout
  obtain ⟨name, order, shape, tag, byteOrder, bitWidth, padAfter, lengthOf, serialize⟩ := field
  simp at *
  omega

end WireFormat
