import WireFormat.Proofs.Failure
import WireFormat.Proofs.Descriptor.Places
import WireFormat.Proofs.Layout.Validation
import WireFormat.Schema.Basic

/-!
# Layouts that fail by a name

Most faults of a layout lie in what a field says.  Two lie in the name of a type: it is not known,
or the type is used inside itself.  A layout holds its types and not their names, so the first
cannot be, and the second can be seen from the record types around a record type.

* `LayoutFault.isOfName` — the two faults;
* `LayoutFault.SparesNames` — the faults that all other steps of the analysis and of the compilation
  have;
* `Shape.failsOnly_describe`, `Layout.failsOnly_describeWithin` — where a fault of a name in a field
  and in a record type comes from;
* `Schema.exists_recursive_of_isOfName` — in the end, from a record type inside itself.
-/

namespace WireFormat

/-- Whether a fault lies in the name of a type. -/
def LayoutFault.isOfName : LayoutFault → Bool
  | recursiveType _ | unknownType _ => true
  | _ => false

/-- What is wrong, wherever it lies. -/
def LayoutFailure.fault : LayoutFailure → LayoutFault
  | ofField fault => fault
  | ofRecord error => error.fault

@[simp] theorem LayoutFailure.locate_fault (failure : LayoutFailure) (typeName field : String) :
    (failure.locate typeName field).fault = failure.fault := by
  cases failure with
  | ofField fault | ofRecord error => rfl

/-- A fault does not lie in the name of a type. -/
def LayoutFault.SparesNames (fault : LayoutFault) : Prop := fault.isOfName = false

/-! ## Fields by themselves -/

open LayoutFault (SparesNames)

section fields

variable {typeName : String} {byteOrder : ByteOrder}

theorem SizePolicy.sparesNames_ofTag (fixedLength : Option Nat) (lengthKey : Option String) :
    FailsOnly SparesNames (ofTag fixedLength lengthKey) := by
  unfold ofTag
  split
  case h_1 | h_5 => exact .error rfl
  all_goals exact .ok _

theorem TextSize.sparesNames_ofTag (tag : TextTag) : FailsOnly SparesNames (ofTag tag) := by
  unfold ofTag
  split
  · split
    · exact .error rfl
    · split
      · exact .ok _
      · exact .error rfl
  · exact (SizePolicy.sparesNames_ofTag _ _).map

namespace Descriptor

theorem sparesNames_ofText (tag : TextTag) : FailsOnly SparesNames (ofText tag byteOrder) := by
  refine (TextSize.sparesNames_ofTag tag).bind fun size ↦ ?_
  dsimp only
  split
  · exact .ok _
  · exact .ok _

theorem sparesNames_ofList (element : Descriptor) (size : SizePolicy String) :
    FailsOnly SparesNames (ofList element size byteOrder) := by
  unfold ofList
  dsimp only
  split
  · exact .ok _
  · split
    · exact .error rfl
    · exact .ok _
  · exact .ok _

theorem sparesNames_integralEquivalent (kind : ScalarKind) :
    FailsOnly SparesNames (integralEquivalent kind) := by
  unfold integralEquivalent
  split
  · exact .ok _
  · exact .error rfl

theorem sparesNames_ofBoolean (equivalent : Option ScalarKind) :
    FailsOnly SparesNames (ofBoolean equivalent byteOrder) :=
  (sparesNames_integralEquivalent _).bind fun _ ↦ .ok _

theorem sparesNames_ofEnum (type : EnumType) (equivalent : Option ScalarKind) :
    FailsOnly SparesNames (ofEnum type equivalent byteOrder) := by
  refine (sparesNames_integralEquivalent _).bind fun repr ↦ ?_
  split
  · exact .error rfl
  · exact .ok _

theorem sparesNames_narrow (descriptor : Descriptor) (width : Nat) (label : String) :
    FailsOnly SparesNames (descriptor.narrow width label) := by
  unfold narrow
  split
  · exact .error rfl
  · split
    · exact .error rfl
    · exact .ok _

end Descriptor

theorem Runs.sparesNames_add (runs : Runs) (width bits : Nat) :
    FailsOnly SparesNames (runs.add width bits byteOrder) := by
  unfold add
  dsimp only
  split
  · exact .error rfl
  · split
    · exact .error rfl
    · split
      · exact .ok _
      · exact .ok _

namespace RecordAnalysis

theorem sparesNames_track (runs : Runs) (descriptor : Descriptor) :
    FailsOnly SparesNames (track runs descriptor) := by
  unfold track
  split
  · split
    · exact .ok _
    · exact (Runs.sparesNames_add _ _ _).bind fun _ ↦ .ok _
  · exact .ok _

theorem sparesNames_addField (analysis : RecordAnalysis) (order : Nat) (field : Field)
    (descriptor : Descriptor) :
    FailsOnly SparesNames (analysis.addField order field descriptor) := by
  unfold addField
  dsimp only
  -- the rules for the keys first, each with a fault of its own, and then the run of bits
  repeat' split
  all_goals first
    | exact .error rfl
    | exact .ok _
    | exact (sparesNames_track _ _).bind fun _ ↦ .ok _

end RecordAnalysis

end fields

/-! ## Where a fault of a name comes from -/

section origins

variable {enclosing : List String} {inherited byteOrder : ByteOrder}

/-- A fault of a name is that of a record type. -/
def LayoutFault.IsOfHeld (enclosing : List String) (byteOrder : ByteOrder) (tag : Option Tag)
    (shape : Shape) (fault : LayoutFault) : Prop :=
  fault.isOfName → ∃ layout error, shape.Holds tag layout ∧
    layout.describeWithin enclosing byteOrder = .error error ∧ error.fault = fault

theorem LayoutFault.SparesNames.isOfHeld {fault : LayoutFault} (h : fault.SparesNames)
    (tag : Option Tag) (shape : Shape) : fault.IsOfHeld enclosing byteOrder tag shape := by
  intro hname
  rw [h] at hname
  cases hname

namespace Shape

theorem failsOnly_unlessCodec {allowed : LayoutFailure → Prop} {tag : Option Tag}
    {otherwise : Except LayoutFailure Descriptor}
    (h : Tag.isCodec tag = false → FailsOnly allowed otherwise) :
    FailsOnly allowed (Descriptor.unlessCodec tag byteOrder otherwise) := by
  unfold Descriptor.unlessCodec
  split
  · exact .ok _
  · next hcodec =>
    apply h
    unfold Tag.isCodec
    split
    · next codec context => exact (hcodec codec context rfl).elim
    · rfl

/-- A fault of a name in a field or element is that of the record type it holds. -/
theorem failsOnly_describe (tag : Option Tag) (shape : Shape) :
    FailsOnly (fun failure ↦ failure.fault.IsOfHeld enclosing byteOrder tag shape)
      (shape.describe enclosing byteOrder tag) := by
  have hspares {α : Type} {result : Except LayoutFault α} (h : FailsOnly SparesNames result)
      (tag : Option Tag) (shape : Shape) :
      FailsOnly (fun failure : LayoutFailure ↦ failure.fault.IsOfHeld enclosing byteOrder tag shape)
        (result.mapError .ofField) :=
    .mapError fun fault hfault ↦ (h fault hfault).isOfHeld tag shape
  have hrefuse (shape : Shape) (tag : Option Tag) (other : Tag) :
      FailsOnly (fun failure : LayoutFailure ↦ failure.fault.IsOfHeld enclosing byteOrder tag shape)
        (.error (shape.refuse other) : Except LayoutFailure Descriptor) :=
    .error (LayoutFault.SparesNames.isOfHeld (by rfl) tag shape)
  match shape with
  | .scalar kind =>
    refine failsOnly_unlessCodec fun _ ↦ ?_
    unfold Descriptor.ofScalar
    split
    case h_1 | h_2 | h_3 => exact hspares (Descriptor.sparesNames_ofBoolean _) _ _
    case h_4 | h_5 => exact .ok _
    case h_6 => exact hrefuse _ _ _
  | .enum type =>
    refine failsOnly_unlessCodec fun _ ↦ ?_
    split
    case h_1 | h_2 | h_3 => exact hspares (Descriptor.sparesNames_ofEnum _ _) _ _
    case h_4 => exact hrefuse _ _ _
  | .text =>
    refine failsOnly_unlessCodec fun _ ↦ ?_
    split
    · exact hspares (Descriptor.sparesNames_ofText _) _ _
    · exact hrefuse _ _ _
    · exact .error (LayoutFault.SparesNames.isOfHeld (by rfl) _ _)
  | .list ⟨inner, elementTag⟩ =>
    refine failsOnly_unlessCodec fun hcodec ↦ ?_
    split
    · next size =>
      refine (hspares (SizePolicy.sparesNames_ofTag _ _) _ _).bind fun policy ↦ ?_
      refine FailsOnly.bind ?_ fun element ↦ hspares (Descriptor.sparesNames_ofList _ _) _ _
      intro failure hfailure hname
      obtain ⟨layout, error, hheld, herror, hfault⟩ :=
        inner.failsOnly_describe elementTag failure hfailure hname
      exact ⟨layout, error, .element hcodec hheld, herror, hfault⟩
    · exact hrefuse _ _ _
    · exact .error (LayoutFault.SparesNames.isOfHeld (by rfl) _ _)
  | .record layout =>
    refine failsOnly_unlessCodec fun hcodec ↦ ?_
    split
    case h_1 | h_2 =>
      exact .mapError fun error herror _ ↦ ⟨layout, error, .record hcodec, herror, rfl⟩
    case h_3 => exact hrefuse _ _ _
termination_by sizeOf shape

end Shape

/-- A fault of a name in a field is that of a record type that the field holds. -/
theorem Field.failsOnly_describeIn (field : Field) :
    FailsOnly (fun failure ↦ failure.fault.IsOfHeld enclosing (field.byteOrder.getD byteOrder)
      field.tag field.shape) (field.describeIn enclosing byteOrder) := by
  refine (Shape.failsOnly_describe _ _).bind fun descriptor ↦ ?_
  split
  · exact .ok _
  · exact .mapError fun fault hfault ↦
      (Descriptor.sparesNames_narrow _ _ _ fault hfault).isOfHeld _ _

/-- A fault of a name among the fields of a record is that of a record type that one of them
holds. -/
theorem RecordAnalysis.failsOnly_addFields {typeName : String} {resolved : List ResolvedField}
    (houtcome : ∀ entry ∈ resolved, entry.outcome = entry.field.describeIn enclosing byteOrder)
    (analysis : RecordAnalysis) :
    FailsOnly (fun error ↦ error.fault.isOfName → ∃ entry ∈ resolved, error.fault.IsOfHeld
      enclosing (entry.field.byteOrder.getD byteOrder) entry.field.tag entry.field.shape)
        (analysis.addFields typeName resolved) := by
  induction resolved generalizing analysis with
  | nil => exact .ok _
  | cons entry rest ih =>
    obtain ⟨hentry, hrest⟩ := List.forall_mem_cons.1 houtcome
    refine FailsOnly.bind ?_ fun next error herror hname ↦ ?_
    · refine FailsOnly.bind ?_ fun descriptor ↦ ?_
      · refine .mapError fun failure hfailure _ ↦ ⟨entry, List.mem_cons_self, ?_⟩
        rw [hentry] at hfailure
        rw [LayoutFailure.locate_fault]
        exact entry.field.failsOnly_describeIn failure hfailure
      · refine .mapError fun fault hfault _ ↦ ⟨entry, List.mem_cons_self, ?_⟩
        exact (sparesNames_addField _ _ _ _ fault hfault).isOfHeld _ _
    · obtain ⟨other, hmem, hother⟩ := ih hrest next error herror hname
      exact ⟨other, List.mem_cons_of_mem _ hmem, hother⟩

namespace Layout

/-- A fault of a name in a record type lies in a record type that one of its fields holds, if the
type is not inside itself. -/
theorem failsOnly_describeWithin (layout : Layout) :
    FailsOnly (fun error ↦ error.fault.isOfName →
      (layout.name ∈ enclosing ∧ error.fault = .recursiveType layout.name) ∨
      ∃ field ∈ layout.ordered, error.fault.IsOfHeld (enclosing ++ [layout.name])
        (field.byteOrder.getD (layout.byteOrder.getD inherited)) field.tag field.shape)
      (layout.describeWithin enclosing inherited) := by
  obtain ⟨name, byteOrder, fields⟩ := layout
  rw [describeWithin.eq_def]
  dsimp only
  split
  · next hmem => exact .error fun _ ↦ .inl ⟨hmem, rfl⟩
  · unfold assemble
    dsimp only
    split
    · exact .error fun hname ↦ (Bool.false_ne_true hname).elim
    · split
      · exact .error fun hname ↦ (Bool.false_ne_true hname).elim
      · split
        · exact .error fun hname ↦ (Bool.false_ne_true hname).elim
        · refine FailsOnly.bind (fun error herror hname ↦ .inr ?_) fun _ ↦ .ok _
          have hperm := ResolvedField.sort_perm (Field.describeAll (enclosing ++ [name])
            (byteOrder.getD inherited) fields)
          obtain ⟨entry, hmem, hheld⟩ := RecordAnalysis.failsOnly_addFields
            (fun entry hmem ↦ (Field.mem_describeAll (hperm.mem_iff.1 hmem)).2) {} error herror
            hname
          refine ⟨entry.field, ?_, hheld⟩
          rw [ordered, ← Field.map_field_resolveIn, ← Field.describeAll_eq]
          exact List.mem_map_of_mem (hperm.mem_iff.1 hmem)

/-- In the end, a fault of a name is that of a record type inside itself. -/
theorem exists_recursive_of_isOfName (layout : Layout) : ∀ enclosing inherited error,
    layout.describeWithin enclosing inherited = .error error → error.fault.isOfName →
      ∃ site, Site.Reaches ⟨enclosing, inherited, layout⟩ site ∧
        site.layout.name ∈ site.enclosing ∧ error.fault = .recursiveType site.layout.name := by
  induction layout using Layout.held_induction with
  | step layout ih =>
    intro enclosing inherited error herror hname
    obtain ⟨hmem, hfault⟩ | ⟨field, hmem, hheld⟩ :=
      layout.failsOnly_describeWithin error herror hname
    · exact ⟨_, .here _, hmem, hfault⟩
    · obtain ⟨inner, cause, hinner, hcause, hfault⟩ := hheld hname
      rw [← hfault] at hname ⊢
      obtain ⟨site, hreaches, hsite⟩ :=
        ih field (List.mem_filter.1 hmem).1 inner hinner _ _ cause hcause hname
      exact ⟨site, .field hmem hinner hreaches, hsite⟩

end Layout

end origins

/-! ## Compiling -/

theorem Scope.sparesNames_bind (scopes : List Scope) (key : String) (measure : Measure) :
    FailsOnly SparesNames (bind scopes key measure) := by
  unfold bind
  dsimp only
  split
  · split
    · exact .error rfl
    · exact .error rfl
  · split
    · next order _ =>
      refine FailsOnly.bind (.ok order) fun consumer ↦ ?_
      -- the order of the fields first, and then whether the length has been taken
      repeat' split
      all_goals first
        | exact .error rfl
        | exact .ok _
    · exact .error rfl
  · exact .error rfl

theorem Scope.sparesNames_close (scope : Scope) :
    FailsOnly (fun error ↦ error.fault.SparesNames) scope.close := by
  cases scope with
  | element => exact .ok _
  | record typeName carriers member =>
    rw [close]
    split
    · exact .error rfl
    · exact .ok _

theorem SizePolicy.sparesNames_compile (policy : SizePolicy String) (scopes : List Scope)
    (measure : Measure) : FailsOnly SparesNames (policy.compile scopes measure) := by
  cases policy with
  | fixed slots => exact .ok _
  | keyed key | padded key => exact (Scope.sparesNames_bind _ _ _).bind fun _ ↦ .ok _

theorem TextSize.sparesNames_compile (size : TextSize String) (scopes : List Scope)
    (encoding : Encoding) : FailsOnly SparesNames (size.compile scopes encoding) := by
  cases size with
  | nullTerminated => exact .ok _
  | sized policy => exact (policy.sparesNames_compile _ _).bind fun _ ↦ .ok _

theorem RecordPlan.sparesNames_assemble (name : String) (fields : List FieldDescriptor)
    (plans : List FieldPlan) (scopes : List Scope) :
    FailsOnly (fun error ↦ error.fault.SparesNames) (assemble name fields plans scopes) :=
  (Scope.sparesNames_close _).bind fun _ ↦ .ok _

theorem FieldDescriptor.sparesNames_compileAll {fields : List FieldDescriptor}
    (hfields : ∀ field ∈ fields, ∀ scopes,
      FailsOnly (fun failure ↦ failure.fault.SparesNames) (field.descriptor.compile scopes))
    (typeName : String) (scopes : List Scope) :
    FailsOnly (fun error ↦ error.fault.SparesNames) (compileAll typeName scopes fields) := by
  induction fields generalizing scopes with
  | nil => exact .ok _
  | cons field rest ih =>
    obtain ⟨hfield, hrest⟩ := List.forall_mem_cons.1 hfields
    obtain ⟨name, order, descriptor, serialize, lengthOf, padAfter⟩ := field
    rw [compileAll]
    split
    · refine FailsOnly.bind (.mapError fun failure hfailure ↦ ?_) fun _ ↦
        (ih hrest _).bind fun _ ↦ .ok _
      change (LayoutFailure.locate typeName name failure).fault.SparesNames
      rw [LayoutFailure.locate_fault]
      exact hfield _ failure hfailure
    · exact ih hrest scopes

theorem Descriptor.sparesNames_compile (descriptor : Descriptor) (scopes : List Scope) :
    FailsOnly (fun failure ↦ failure.fault.SparesNames) (descriptor.compile scopes) := by
  induction descriptor using Descriptor.induction generalizing scopes with
  | step descriptor ihelement ihfields =>
    obtain ⟨kind, byteOrder, hasFixedSize, minSize⟩ := descriptor
    rw [compile]
    cases kind with
    | text encoding size =>
      exact FailsOnly.bind (.mapError (size.sparesNames_compile _ _)) fun _ ↦ .ok _
    | list element size =>
      exact FailsOnly.bind (.mapError (size.sparesNames_compile _ _)) fun _ ↦
        (ihelement element rfl _).bind fun _ ↦ .ok _
    | record name fields =>
      exact FailsOnly.bind (.mapError (FieldDescriptor.sparesNames_compileAll ihfields _ _)) fun _ ↦
        FailsOnly.bind (.mapError (RecordPlan.sparesNames_assemble _ _ _ _)) fun _ ↦ .ok _
    | _ => exact .ok _

theorem Plan.sparesNames_ofDescriptor (descriptor : Descriptor) :
    FailsOnly (fun error ↦ error.fault.SparesNames) (ofDescriptor descriptor) := by
  unfold ofDescriptor
  split
  · refine FailsOnly.bind ?_ fun _ ↦ .ok _
    exact (FieldDescriptor.sparesNames_compileAll
      (fun field _ ↦ field.descriptor.sparesNames_compile) _ _).bind fun _ ↦
        RecordPlan.sparesNames_assemble _ _ _ _
  · exact .error rfl

/-- A layout fails by a name only if some record type in it is inside itself, and then by the name
of that type. -/
theorem Schema.exists_recursive_of_isOfName {layout : Layout} {error : LayoutError}
    (h : ofLayout layout = .error error) (hname : error.fault.isOfName) :
    ∃ site, Site.Reaches ⟨[], .little, layout⟩ site ∧ site.layout.name ∈ site.enclosing ∧
      error.fault = .recursiveType site.layout.name := by
  obtain hdescribe | ⟨descriptor, -, h⟩ := bind_eq_error_iff.1 h
  · exact layout.exists_recursive_of_isOfName _ _ error hdescribe hname
  · have hspares : error.fault.SparesNames :=
      ((Plan.sparesNames_ofDescriptor descriptor).bind fun _ ↦ .ok _) error h
    rw [hspares] at hname
    cases hname

end WireFormat
