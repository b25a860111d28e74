import WireFormat.Proofs.Layout.Described

/-!
# Layouts in either byte order

Where nothing inside a layout declares a byte order, the order of the root is that of everything.
Then it does not matter which it is: the layout is refused for the same reason, or described in the
same way but for the orders that are written down.

* `Layout.IsNeutral` — a layout with no byte order declared inside;
* `Descriptor.inOrder` — a descriptor with one byte order throughout;
* `Layout.describe_inOrder` — a neutral layout in one order, from the same in the other.
-/

namespace WireFormat

/-! ## Layouts -/

mutual

/-- Whether no byte order is declared in a field or element. -/
def Shape.isNeutral : Shape → Bool
  | .list ⟨shape, _⟩ => shape.isNeutral
  | .record ⟨_, byteOrder, fields⟩ => byteOrder.isNone && Field.allNeutral fields
  | .scalar _ | .enum _ | .text => true

/-- Whether no byte order is declared in the ordered fields of a record, nor for one of them. -/
def Field.allNeutral : List Field → Bool
  | [] => true
  | ⟨_, order, shape, _, byteOrder, _, _, _, _⟩ :: rest =>
    (order.isNone || byteOrder.isNone && shape.isNeutral) && Field.allNeutral rest

end

/-- No ordered field of a layout declares a byte order, nor does a record type inside. -/
def Layout.IsNeutral (layout : Layout) : Prop := Field.allNeutral layout.fields

instance (layout : Layout) : Decidable layout.IsNeutral :=
  inferInstanceAs (Decidable (Field.allNeutral layout.fields = true))

/-- The layout with a byte order of its own. -/
def Layout.inOrder (layout : Layout) (order : ByteOrder) : Layout :=
  { layout with byteOrder := some order }

/-! ## Descriptors -/

mutual

/-- The descriptor with one byte order throughout. -/
def Descriptor.inOrder (order : ByteOrder) : Descriptor → Descriptor
  | ⟨kind, _, hasFixedSize, minSize⟩ => ⟨kind.inOrder order, order, hasFixedSize, minSize⟩

/-- The kind with one byte order throughout. -/
def DescriptorKind.inOrder (order : ByteOrder) : DescriptorKind → DescriptorKind
  | .scalar kind => .scalar kind
  | .boolean repr => .boolean repr
  | .enum repr type => .enum repr type
  | .bits content repr width container => .bits content repr width container
  | .text encoding size => .text encoding size
  | .list element size => .list (element.inOrder order) size
  | .record name fields => .record name (FieldDescriptor.allInOrder order fields)
  | .custom codec context => .custom codec context

/-- The fields with one byte order throughout. -/
def FieldDescriptor.allInOrder (order : ByteOrder) : List FieldDescriptor → List FieldDescriptor
  | [] => []
  | ⟨name, place, descriptor, serialize, lengthOf, padAfter⟩ :: rest =>
    ⟨name, place, descriptor.inOrder order, serialize, lengthOf, padAfter⟩ ::
      FieldDescriptor.allInOrder order rest

end

/-- The field with one byte order throughout. -/
def FieldDescriptor.inOrder (order : ByteOrder) (field : FieldDescriptor) : FieldDescriptor :=
  { field with descriptor := field.descriptor.inOrder order }

variable (order other : ByteOrder)

theorem FieldDescriptor.allInOrder_eq (fields : List FieldDescriptor) :
    allInOrder order fields = fields.map (inOrder order) := by
  induction fields with
  | nil => rfl
  | cons field rest ih =>
    cases field
    rw [allInOrder, ih]
    rfl

mutual

theorem Descriptor.inOrder_inOrder :
    (descriptor : Descriptor) → (descriptor.inOrder other).inOrder order = descriptor.inOrder order
  | ⟨kind, _, _, _⟩ => by
    rw [Descriptor.inOrder, Descriptor.inOrder, Descriptor.inOrder,
      kind.inOrder_inOrder]

theorem DescriptorKind.inOrder_inOrder :
    (kind : DescriptorKind) → (kind.inOrder other).inOrder order = kind.inOrder order
  | .scalar _ | .boolean _ | .enum _ _ | .bits _ _ _ _ | .text _ _ | .custom _ _ => rfl
  | .list element _ => by
    rw [DescriptorKind.inOrder, DescriptorKind.inOrder, DescriptorKind.inOrder,
      element.inOrder_inOrder]
  | .record _ fields => by
    rw [DescriptorKind.inOrder, DescriptorKind.inOrder, DescriptorKind.inOrder,
      FieldDescriptor.allInOrder_allInOrder fields]

theorem FieldDescriptor.allInOrder_allInOrder :
    (fields : List FieldDescriptor) →
      FieldDescriptor.allInOrder order (FieldDescriptor.allInOrder other fields) =
        FieldDescriptor.allInOrder order fields
  | [] => rfl
  | ⟨_, _, descriptor, _, _, _⟩ :: rest => by
    rw [FieldDescriptor.allInOrder, FieldDescriptor.allInOrder, FieldDescriptor.allInOrder,
      descriptor.inOrder_inOrder, FieldDescriptor.allInOrder_allInOrder rest]

end

theorem FieldDescriptor.map_inOrder_map_inOrder (fields : List FieldDescriptor) :
    (fields.map (inOrder other)).map (inOrder order) = fields.map (inOrder order) := by
  rw [← allInOrder_eq, ← allInOrder_eq, ← allInOrder_eq, allInOrder_allInOrder]

namespace Descriptor

variable (descriptor : Descriptor)

@[simp] theorem inOrder_byteOrder : (descriptor.inOrder order).byteOrder = order := by
  cases descriptor
  rfl

@[simp] theorem inOrder_hasFixedSize :
    (descriptor.inOrder order).hasFixedSize = descriptor.hasFixedSize := by
  cases descriptor
  rfl

@[simp] theorem inOrder_minSize : (descriptor.inOrder order).minSize = descriptor.minSize := by
  cases descriptor
  rfl

@[simp] theorem inOrder_lengthKey? :
    (descriptor.inOrder order).lengthKey? = descriptor.lengthKey? := by
  obtain ⟨kind, _, _, _⟩ := descriptor
  cases kind <;> rfl

@[simp] theorem inOrder_carriesLength :
    (descriptor.inOrder order).kind.carriesLength = descriptor.kind.carriesLength := by
  obtain ⟨kind, _, _, _⟩ := descriptor
  cases kind <;> rfl

@[simp] theorem inOrder_bitContent? :
    (descriptor.inOrder order).bitContent? = descriptor.bitContent? := by
  obtain ⟨kind, _, _, _⟩ := descriptor
  cases kind <;> rfl

end Descriptor

/-! ## Describing one field -/

theorem mapError_map {ε ε' α β : Type} (x : Except ε α) (f : α → β) (g : ε → ε') :
    (x.map f).mapError g = (x.mapError g).map f := by
  cases x <;> rfl

theorem map_bind_eq {ε α β γ : Type} (x : Except ε α) (f : α → β) (g : β → Except ε γ) :
    x.map f >>= g = x >>= fun a ↦ g (f a) := by
  cases x <;> rfl

theorem bind_map_eq {ε α β γ : Type} (x : Except ε α) (f : α → Except ε β) (g : β → γ) :
    (x >>= f).map g = x >>= fun a ↦ (f a).map g := by
  cases x <;> rfl

namespace Descriptor

theorem ofBoolean_inOrder (equivalent : Option ScalarKind) :
    ofBoolean equivalent order = (ofBoolean equivalent other).map (inOrder order) := by
  rw [ofBoolean, ofBoolean, bind_map_eq]
  rfl

theorem ofEnum_inOrder (type : EnumType) (equivalent : Option ScalarKind) :
    ofEnum type equivalent order = (ofEnum type equivalent other).map (inOrder order) := by
  rw [ofEnum, ofEnum, bind_map_eq]
  refine congrArg _ (funext fun repr ↦ ?_)
  split <;> rfl

theorem ofText_inOrder (tag : TextTag) :
    ofText tag order = (ofText tag other).map (inOrder order) := by
  rw [ofText, ofText, bind_map_eq]
  refine congrArg _ (funext fun size ↦ ?_)
  dsimp only
  split <;> rfl

theorem ofList_inOrder (element : Descriptor) (size : SizePolicy String) :
    ofList (element.inOrder order) size order = (ofList element size other).map (inOrder order) := by
  unfold ofList
  dsimp only
  rw [inOrder_hasFixedSize, inOrder_minSize]
  split
  · rfl
  · rw [apply_ite (Except.map _)]
    rfl
  · rfl

theorem narrow_inOrder (descriptor : Descriptor) (width : Nat) (shape : String) :
    (descriptor.inOrder order).narrow width shape =
      (descriptor.narrow width shape).map (inOrder order) := by
  rw [narrow, narrow, inOrder_bitContent?]
  cases descriptor.bitContent? with
  | none => rfl
  | some packed =>
    dsimp only
    rw [apply_ite (Except.map _), inOrder_byteOrder]
    rfl

theorem unlessCodec_inOrder {x y : Except LayoutFailure Descriptor} (tag : Option Tag)
    (h : x = y.map (inOrder order)) :
    unlessCodec tag order x = (unlessCodec tag other y).map (inOrder order) := by
  unfold unlessCodec
  rw [h]
  split <;> rfl

theorem ofScalar_inOrder (tag : Option Tag) (kind : ScalarKind) :
    ofScalar tag order kind = (ofScalar tag other kind).map (inOrder order) := by
  unfold ofScalar
  split <;> first | rfl | rw [ofBoolean_inOrder, mapError_map]

end Descriptor

/-! ## Putting a record together -/

/-- The runs with one byte order throughout. -/
def Runs.inOrder (order : ByteOrder) (runs : Runs) : Runs :=
  { runs with active := runs.active.map fun run ↦ { run with swap := order.reverses run.width } }

/-- With one byte order throughout, no run mixes two. -/
theorem Runs.add_inOrder (runs : Runs) (width bits : Nat) :
    (runs.inOrder order).add width bits order =
      ((runs.inOrder other).add width bits other).map (Prod.map id (inOrder order)) := by
  obtain ⟨active, bytes⟩ := runs
  cases active with
  | none =>
    by_cases hwide : 8 * width < bits
    · simp [inOrder, add, enter, Except.map, hwide]
    · simp [inOrder, add, enter, Except.map, hwide]
  | some run =>
    by_cases hwide : 8 * run.width < bits
    · simp [inOrder, add, enter, Except.map, hwide]
    · by_cases hfull : 8 * run.width < run.bits + bits
      · simp [inOrder, add, enter, Except.map, hwide, hfull]
      · simp [inOrder, add, enter, Except.map, hwide, hfull]

theorem Runs.inOrder_inOrder (runs : Runs) :
    (runs.inOrder other).inOrder order = runs.inOrder order := by
  obtain ⟨active, bytes⟩ := runs
  cases active <;> rfl

/-- The field with its descriptor, if it has one, in one byte order throughout. -/
def ResolvedField.inOrder (order : ByteOrder) (entry : ResolvedField) : ResolvedField :=
  { entry with outcome := entry.outcome.map (Descriptor.inOrder order) }

namespace RecordAnalysis

/-- What is known of a record, with one byte order throughout. -/
def inOrder (order : ByteOrder) (analysis : RecordAnalysis) : RecordAnalysis :=
  { analysis with
    fields := analysis.fields.map (FieldDescriptor.inOrder order)
    runs := analysis.runs.inOrder order }

theorem track_inOrder (runs : Runs) (descriptor : Descriptor) :
    track (runs.inOrder order) (descriptor.inOrder order) =
      (track (runs.inOrder other) (descriptor.inOrder other)).map
        (Prod.map (Descriptor.inOrder order) (Runs.inOrder order)) := by
  have hplain : (.ok (descriptor.inOrder order, (runs.inOrder order).close) :
      Except LayoutFault (Descriptor × Runs)) =
        (Except.ok (descriptor.inOrder other, (runs.inOrder other).close)).map
          (Prod.map (Descriptor.inOrder order) (Runs.inOrder order)) := by
    rw [Except.map, Prod.map, descriptor.inOrder_inOrder]
    rfl
  obtain ⟨kind, byteOrder, hasFixedSize, minSize⟩ := descriptor
  cases kind with
  | bits content repr width container =>
    change (if width = 0 then _ else _) = (if width = 0 then _ else _ : Except _ _).map _
    split
    · exact hplain
    · rw [bind_map_eq]
      change (runs.inOrder order).add repr.width width order >>= _ = _
      rw [runs.add_inOrder order other, map_bind_eq]
      rfl
  | _ => exact hplain

/-- Whether a field can be added, apart from the run it is in. -/
def checkField (consumed : List String) (field : Field) (descriptor : Descriptor) :
    Except LayoutFault Unit := do
  if let some key := descriptor.lengthKey? then
    if key ∈ consumed then
      throw (.duplicateLengthConsumer key)
  if let some key := field.lengthOf then
    if !descriptor.kind.carriesLength then
      throw (.nonIntegralLengthField key)

/-- The descriptor of a field that is added, and the runs afterwards. -/
def follow (runs : Runs) (field : Field) (descriptor : Descriptor) :
    Except LayoutFault (Descriptor × Runs) :=
  if field.serialize then
    (track runs descriptor).map fun (tracked, after) ↦
      (tracked, if field.padAfter then after.close else after)
  else
    .ok (descriptor, runs)

/-- A field is added by checking it, following its run and noting what then is known. -/
theorem addField_eq (analysis : RecordAnalysis) (place : Nat) (field : Field)
    (descriptor : Descriptor) : analysis.addField place field descriptor =
      checkField analysis.consumed field descriptor >>= fun _ ↦
        (follow analysis.runs field descriptor).map fun (tracked, next) ↦
          analysis.grow place field (descriptor.lengthKey?.toList ++ analysis.consumed) tracked
            next := by
  have hrest (consumed : List String) : (if field.serialize then do
      let (tracked, after) ← track analysis.runs descriptor
      return {
        fields := analysis.fields ++ [⟨field.name, place, tracked, field.serialize, field.lengthOf,
          field.padAfter⟩]
        consumed := consumed
        runs := if field.padAfter then after.close else after
        hasFixedSize := analysis.hasFixedSize && tracked.hasFixedSize
        minSize := analysis.minSize + tracked.minSize }
    else
      return { analysis with
        fields := analysis.fields ++ [⟨field.name, place, descriptor, field.serialize,
          field.lengthOf, field.padAfter⟩]
        consumed := consumed } : Except LayoutFault RecordAnalysis) =
      (follow analysis.runs field descriptor).map fun (tracked, next) ↦
        analysis.grow place field consumed tracked next := by
    unfold follow grow
    cases field.serialize with
    | false => simp [Except.map, pure, Except.pure]
    | true =>
      simp only [if_true, Bool.not_true, Bool.false_or]
      cases track analysis.runs descriptor <;> rfl
  unfold addField checkField
  simp only [← hrest]
  cases descriptor.lengthKey? with
  | none =>
    cases field.lengthOf with
    | none => rfl
    | some carried => cases descriptor.kind.carriesLength <;> rfl
  | some key =>
    by_cases hmem : key ∈ analysis.consumed
    · simp only [hmem, if_true]
      rfl
    · simp only [hmem, if_false]
      cases field.lengthOf with
      | none => rfl
      | some carried => cases descriptor.kind.carriesLength <;> rfl

theorem checkField_inOrder (consumed : List String) (field : Field) (descriptor : Descriptor) :
    checkField consumed field (descriptor.inOrder order) = checkField consumed field descriptor := by
  rw [checkField, checkField, Descriptor.inOrder_lengthKey?, Descriptor.inOrder_carriesLength]

theorem follow_inOrder (runs : Runs) (field : Field) (descriptor : Descriptor) :
    follow (runs.inOrder order) field (descriptor.inOrder order) =
      (follow (runs.inOrder other) field (descriptor.inOrder other)).map
        (Prod.map (Descriptor.inOrder order) (Runs.inOrder order)) := by
  unfold follow
  split
  · rw [track_inOrder order other]
    cases track (runs.inOrder other) (descriptor.inOrder other) with
    | error => rfl
    | ok result =>
      cases field.padAfter <;> rfl
  · rw [Except.map, Prod.map, descriptor.inOrder_inOrder, runs.inOrder_inOrder]

theorem addField_inOrder (analysis : RecordAnalysis) (place : Nat) (field : Field)
    (descriptor : Descriptor) :
    (analysis.inOrder order).addField place field (descriptor.inOrder order) =
      ((analysis.inOrder other).addField place field (descriptor.inOrder other)).map
        (inOrder order) := by
  rw [addField_eq, addField_eq, bind_map_eq, checkField_inOrder, checkField_inOrder]
  refine congrArg _ (funext fun _ ↦ ?_)
  change (follow (analysis.runs.inOrder order) ..).map _ =
    ((follow (analysis.runs.inOrder other) ..).map _).map _
  rw [follow_inOrder order other]
  cases follow (analysis.runs.inOrder other) field (descriptor.inOrder other) with
  | error => rfl
  | ok result =>
    simp only [Except.map, grow, inOrder, List.map_append, List.map_map]
    simp [FieldDescriptor.inOrder, Descriptor.inOrder_inOrder]

theorem inOrder_inOrder (analysis : RecordAnalysis) :
    (analysis.inOrder other).inOrder order = analysis.inOrder order := by
  simp only [inOrder, FieldDescriptor.map_inOrder_map_inOrder, Runs.inOrder_inOrder]

theorem addFields_inOrder (typeName : String) (analysis : RecordAnalysis)
    (resolved : List ResolvedField) :
    addFields typeName (analysis.inOrder order) (resolved.map (ResolvedField.inOrder order)) =
      (addFields typeName (analysis.inOrder other) (resolved.map (ResolvedField.inOrder other))).map
        (inOrder order) := by
  induction resolved generalizing analysis with
  | nil => exact congrArg Except.ok (analysis.inOrder_inOrder order other).symm
  | cons entry rest ih =>
    have hcons (order : ByteOrder) : addFields typeName (analysis.inOrder order)
        ((entry :: rest).map (ResolvedField.inOrder order)) =
          entry.outcome.mapError (LayoutFailure.locate typeName entry.field.name) >>= fun descriptor ↦
            ((analysis.inOrder order).addField entry.order entry.field
              (descriptor.inOrder order)).mapError (⟨typeName, some entry.field.name, ·⟩) >>=
                fun next ↦ addFields typeName next (rest.map (ResolvedField.inOrder order)) := by
      rw [addFields, List.map_cons, List.foldlM_cons]
      dsimp only [ResolvedField.inOrder]
      rw [mapError_map, map_bind_eq, bind_assoc]
      rfl
    rw [hcons, hcons, bind_map_eq]
    refine congrArg _ (funext fun descriptor ↦ ?_)
    have hadd := analysis.addField_inOrder order other entry.order entry.field descriptor
    have hsame := analysis.addField_inOrder other other entry.order entry.field descriptor
    rw [hadd]
    cases hother : (analysis.inOrder other).addField entry.order entry.field
        (descriptor.inOrder other) with
    | error => rfl
    | ok next =>
      rw [hother] at hsame
      have hnext : next.inOrder other = next := (Except.ok.inj hsame).symm
      have hrest := ih next
      rw [hnext] at hrest
      exact hrest

end RecordAnalysis

theorem firstRepeated?_map {α β κ : Type} [DecidableEq κ] (key? : β → Option κ) (f : α → β)
    (seen : List κ) (elements : List α) : firstRepeated? key? seen (elements.map f) =
      (firstRepeated? (fun element ↦ key? (f element)) seen elements).map (Prod.map f id) := by
  induction elements generalizing seen with
  | nil => rfl
  | cons element rest ih =>
    rw [List.map_cons, firstRepeated?, firstRepeated?]
    cases key? (f element) with
    | none => exact ih seen
    | some key =>
      dsimp only
      split
      · rfl
      · exact ih _

theorem ResolvedField.sort_map_inOrder (resolved : List ResolvedField) :
    sort (resolved.map (inOrder order)) = (sort resolved).map (inOrder order) := by
  refine (List.map_mergeSort (f := inOrder order) ?_).symm
  exact fun _ _ _ _ ↦ rfl

theorem Layout.assemble_inOrder (name : String) (declared : List Field)
    (resolved : List ResolvedField) :
    assemble name order declared (resolved.map (ResolvedField.inOrder order)) =
      (assemble name other declared (resolved.map (ResolvedField.inOrder other))).map
        (Descriptor.inOrder order) := by
  have hsort (order : ByteOrder) := ResolvedField.sort_map_inOrder order resolved
  unfold ResolvedField.sort at hsort
  generalize resolved.mergeSort _ = sorted at hsort
  have horders (order : ByteOrder) :
      firstRepeated? (fun entry ↦ some entry.order) [] (sorted.map (ResolvedField.inOrder order)) =
        (firstRepeated? (fun entry ↦ some entry.order) [] sorted).map
          (Prod.map (ResolvedField.inOrder order) id) := firstRepeated?_map ..
  have hlengths (order : ByteOrder) :
      firstRepeated? (fun entry ↦ entry.field.lengthOf) [] (sorted.map (ResolvedField.inOrder order)) =
        (firstRepeated? (fun entry ↦ entry.field.lengthOf) [] sorted).map
          (Prod.map (ResolvedField.inOrder order) id) := firstRepeated?_map ..
  unfold assemble
  simp only [hsort, horders, hlengths]
  cases firstRepeated? (fun field : Field ↦ some field.name) [] declared with
  | some repeated => rfl
  | none =>
    cases firstRepeated? (fun entry : ResolvedField ↦ some entry.order) [] sorted with
    | some repeated => rfl
    | none =>
      cases firstRepeated? (fun entry : ResolvedField ↦ entry.field.lengthOf) [] sorted with
      | some repeated => rfl
      | none =>
        have hadd := RecordAnalysis.addFields_inOrder order other name {} sorted
        change RecordAnalysis.addFields name {} _ = (RecordAnalysis.addFields name {} _).map _ at hadd
        change RecordAnalysis.addFields name {} _ >>= _ =
          (RecordAnalysis.addFields name {} _ >>= _).map _
        rw [hadd, map_bind_eq, bind_map_eq]
        refine congrArg _ (funext fun analysis ↦ congrArg Except.ok ?_)
        simp only [RecordAnalysis.toDescriptor, RecordAnalysis.inOrder, Descriptor.inOrder,
          DescriptorKind.inOrder, FieldDescriptor.allInOrder_eq, Runs.inOrder]

/-! ## Describing a layout -/

theorem Layout.describeWithin_inOrder_of {fields : List Field}
    (h : ∀ order other enclosing, Field.describeAll enclosing order fields =
      (Field.describeAll enclosing other fields).map (ResolvedField.inOrder order))
    (enclosing : List String) (name : String) :
    describeWithin enclosing order ⟨name, none, fields⟩ =
      (describeWithin enclosing other ⟨name, none, fields⟩).map (Descriptor.inOrder order) := by
  unfold describeWithin
  split
  · rfl
  · change assemble name order fields (Field.describeAll (enclosing ++ [name]) order fields) =
      (assemble name other fields (Field.describeAll (enclosing ++ [name]) other fields)).map _
    have hsame := h other other (enclosing ++ [name])
    rw [h order other, assemble_inOrder order other, ← hsame]

mutual

theorem Shape.describe_inOrder (order other : ByteOrder) (enclosing : List String)
    (tag : Option Tag) : (shape : Shape) → shape.isNeutral →
      shape.describe enclosing order tag =
        (shape.describe enclosing other tag).map (Descriptor.inOrder order)
  | .scalar kind, _ => Descriptor.unlessCodec_inOrder order other tag
    (Descriptor.ofScalar_inOrder order other tag kind)
  | .enum type, _ => by
    refine Descriptor.unlessCodec_inOrder order other tag ?_
    split <;> first | rfl | rw [Descriptor.ofEnum_inOrder order other, mapError_map]
  | .text, _ => by
    refine Descriptor.unlessCodec_inOrder order other tag ?_
    split <;> first | rfl | rw [Descriptor.ofText_inOrder order other, mapError_map]
  | .list ⟨shape, inner⟩, h => by
    refine Descriptor.unlessCodec_inOrder order other tag ?_
    split
    · rw [bind_map_eq]
      refine congrArg _ (funext fun policy ↦ ?_)
      rw [shape.describe_inOrder order other enclosing inner h, map_bind_eq, bind_map_eq]
      refine congrArg _ (funext fun element ↦ ?_)
      rw [Descriptor.ofList_inOrder order other, mapError_map]
    · rfl
    · rfl
  | .record ⟨name, byteOrder, fields⟩, h => by
    refine Descriptor.unlessCodec_inOrder order other tag ?_
    obtain ⟨hnone, hfields⟩ := Bool.and_eq_true_iff.1 h
    obtain rfl := Option.isNone_iff_eq_none.1 hnone
    have hall := fun order other enclosing ↦
      Field.describeAll_inOrder order other enclosing fields hfields
    split <;> first
      | rfl
      | rw [Layout.describeWithin_inOrder_of order other hall, mapError_map]

theorem Field.describeAll_inOrder (order other : ByteOrder) (enclosing : List String) :
    (fields : List Field) → Field.allNeutral fields → Field.describeAll enclosing order fields =
      (Field.describeAll enclosing other fields).map (ResolvedField.inOrder order)
  | [], _ => rfl
  | ⟨name, place, shape, tag, byteOrder, bitWidth, padAfter, lengthOf, serialize⟩ :: rest, h => by
    obtain ⟨hfield, hrest⟩ := Bool.and_eq_true_iff.1 h
    have hmore := Field.describeAll_inOrder order other enclosing rest hrest
    cases place with
    | none => exact hmore
    | some place =>
      obtain ⟨hnone, hshape⟩ := Bool.and_eq_true_iff.1 hfield
      obtain rfl := Option.isNone_iff_eq_none.1 hnone
      refine List.cons_eq_cons.2 ⟨?_, hmore⟩
      have hdescribe := shape.describe_inOrder order other enclosing tag hshape
      simp only [ResolvedField.inOrder, ResolvedField.mk.injEq, true_and, Option.getD_none]
      rw [hdescribe, map_bind_eq, bind_map_eq]
      refine congrArg _ (funext fun descriptor ↦ ?_)
      cases bitWidth with
      | none => rfl
      | some width =>
        dsimp only
        rw [Descriptor.narrow_inOrder, mapError_map]

end

/-- A layout with no byte order declared inside comes to the same in either, but for the order. -/
theorem Layout.describe_inOrder {layout : Layout} (h : layout.IsNeutral) :
    (layout.inOrder order).describe =
      (layout.inOrder other).describe.map (Descriptor.inOrder order) := by
  exact Layout.describeWithin_inOrder_of order other
    (fun order other enclosing ↦ Field.describeAll_inOrder order other enclosing layout.fields h)
    [] layout.name

end WireFormat
