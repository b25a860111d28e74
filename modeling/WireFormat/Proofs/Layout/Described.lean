import WireFormat.Proofs.Layout.Assembly
import WireFormat.Proofs.Layout.WellFormed

/-!
# What describing a field can answer

`Shape.describe` goes by shape and tag.  `Shape.Yields` lists the cases in which it succeeds, each
with its answer, and `Shape.describe_eq_ok_iff` says that there are no others; whatever else is to
be known of the descriptor of a field is read off that list.

* `Shape.describe_eq_ok_iff` — the cases in which a shape can be described;
* `Field.describeAll_eq` — the fields of a record, each by itself.
-/

namespace WireFormat

/-! ## Size policies -/

namespace SizePolicy

variable {κ : Type}

/-- The number of slots, where nothing else decides about the size. -/
def only? : SizePolicy κ → Option Nat
  | fixed slots => some slots
  | keyed _ | padded _ _ => none

theorem exists_ofTag_iff {fixedLength : Option Nat} {lengthKey : Option String} :
    (∃ policy, ofTag fixedLength lengthKey = .ok policy) ↔ Admissible fixedLength lengthKey := by
  unfold ofTag Admissible
  split <;> simp_all

theorem ofTag_eq_ok {fixedLength : Option Nat} {lengthKey : Option String}
    {policy : SizePolicy String} (h : ofTag fixedLength lengthKey = .ok policy) :
    policy.key? = lengthKey ∧ policy.slots? = fixedLength ∧ policy.slots? ≠ some 0 := by
  unfold ofTag at h
  split at h <;> cases h <;> simp_all [key?, slots?]

end SizePolicy

theorem TextSize.exists_ofTag_iff {tag : TextTag} :
    (∃ size, TextSize.ofTag tag = .ok size) ↔ tag.Admissible := by
  unfold TextSize.ofTag TextTag.Admissible
  split
  · split
    · next h => simp at h ⊢; grind
    · split <;> simp_all
  · rw [← SizePolicy.exists_ofTag_iff]
    constructor
    · rintro ⟨size, h⟩
      obtain ⟨policy, hpolicy, -⟩ := map_eq_ok_iff.1 h
      exact ⟨policy, hpolicy⟩
    · rintro ⟨policy, hpolicy⟩
      exact ⟨.sized policy, map_eq_ok_iff.2 ⟨policy, hpolicy, rfl⟩⟩

theorem TextSize.ofTag_eq_ok {tag : TextTag} {size : TextSize String}
    (h : TextSize.ofTag tag = .ok size) :
    (size = .nullTerminated ∧ tag.nullTerminated ∧ tag.encoding.isNullTerminable) ∨
      ∃ policy, size = .sized policy ∧ tag.nullTerminated = false ∧
        SizePolicy.ofTag tag.fixedLength tag.lengthKey = .ok policy := by
  unfold TextSize.ofTag at h
  split at h
  · next hnull =>
    split at h
    · simp at h
    · split at h
      · next hterminable =>
        simp only [Except.ok.injEq] at h
        exact .inl ⟨h.symm, hnull, hterminable⟩
      · simp at h
  · next hnull =>
    obtain ⟨policy, hpolicy, rfl⟩ := map_eq_ok_iff.1 h
    exact .inr ⟨policy, rfl, by simpa using hnull, hpolicy⟩

/-! ## Descriptors of scalars, texts and lists -/

namespace Descriptor

variable {byteOrder : ByteOrder} {descriptor : Descriptor}

theorem integralEquivalent_eq_ok_iff {kind : ScalarKind} {repr : IntegerKind} :
    integralEquivalent kind = .ok repr ↔ kind = .integer repr := by
  cases kind <;> simp [integralEquivalent, ScalarKind.integer?]

theorem ofBoolean_eq_ok_iff {equivalent : Option ScalarKind} :
    ofBoolean equivalent byteOrder = .ok descriptor ↔
      ∃ repr, equivalent.getD (.integer .i32) = .integer repr ∧
        ofFixed (.boolean repr) byteOrder repr.width = descriptor := by
  simp only [ofBoolean, bind_eq_ok_iff, integralEquivalent_eq_ok_iff, pure_eq_ok_iff]

theorem ofEnum_eq_ok_iff {type : EnumType} {equivalent : Option ScalarKind} :
    ofEnum type equivalent byteOrder = .ok descriptor ↔
      ∃ repr, equivalent.getD type.underlying = .integer repr ∧
        (∀ member ∈ type.members, repr.Fits member.2) ∧
        ofFixed (.enum repr type) byteOrder repr.width = descriptor := by
  simp only [ofEnum, bind_eq_ok_iff, integralEquivalent_eq_ok_iff]
  refine exists_congr fun repr ↦ and_congr_right fun _ ↦ ?_
  split
  · next member hfind =>
    have hmember := List.find?_some hfind
    simp only [Bool.not_eq_true', decide_eq_false_iff_not] at hmember
    simp only [throw_ne_ok, false_iff, not_and]
    exact fun hall ↦ (hmember (hall member (List.mem_of_find?_eq_some hfind))).elim
  · next hfind =>
    simp only [List.find?_eq_none, Bool.not_eq_true', decide_eq_false_iff_not,
      Decidable.not_not] at hfind
    rw [pure_eq_ok_iff, and_iff_right hfind]

theorem ofText_eq_ok_iff {tag : TextTag} :
    ofText tag byteOrder = .ok descriptor ↔ ∃ size, TextSize.ofTag tag = .ok size ∧
      ⟨.text tag.encoding size, byteOrder, (size.policy?.bind SizePolicy.only?).isSome,
        .ofNat ((size.policy?.bind SizePolicy.only?).getD 0)⟩ = descriptor := by
  simp only [ofText, bind_eq_ok_iff]
  refine exists_congr fun size ↦ and_congr_right fun _ ↦ ?_
  cases size with
  | nullTerminated => simp [TextSize.policy?]
  | sized policy => cases policy <;> simp [TextSize.policy?, SizePolicy.only?, ofFixed]

theorem ofList_eq_ok_iff {element : Descriptor} {policy : SizePolicy String} :
    ofList element policy byteOrder = .ok descriptor ↔
      (policy.slots? = none → ¬ (element.hasFixedSize ∧ element.minSize = 0)) ∧
      ⟨.list element policy, byteOrder, policy.only?.isSome && element.hasFixedSize,
        .ofNat (policy.only?.getD 0) * element.minSize⟩ = descriptor := by
  cases policy with
  | fixed slots => simp [ofList, SizePolicy.slots?, SizePolicy.only?]
  | padded key slots => simp [ofList, SizePolicy.slots?, SizePolicy.only?]
  | keyed key =>
    unfold ofList
    dsimp only
    split
    · next h => simp_all [SizePolicy.slots?]
    · next h => simp_all [SizePolicy.slots?, SizePolicy.only?]

end Descriptor

/-! ## Shapes -/

/-- The cases in which a field or element can be described, with the descriptor in each. -/
inductive Shape.Yields (enclosing : List String) (byteOrder : ByteOrder) :
    Option Tag → Shape → Descriptor → Prop where
  | codec (codec : Codec) (context : Option String) (shape : Shape) :
      Yields enclosing byteOrder (some (.custom codec context)) shape
        (.ofCodec codec context byteOrder)
  | scalar {tag : Option Tag} {kind : ScalarKind} (other : kind ≠ .bool)
      (plain : tag = none ∨ tag = some .primitive) :
      Yields enclosing byteOrder tag (.scalar kind) (.ofFixed (.scalar kind) byteOrder kind.width)
  | boolean {tag : Option Tag} {repr : IntegerKind}
      (integral : (Shape.scalar .bool).equivalent? tag = some (.integer repr)) :
      Yields enclosing byteOrder tag (.scalar .bool) (.ofFixed (.boolean repr) byteOrder repr.width)
  | enum {tag : Option Tag} {type : EnumType} {repr : IntegerKind}
      (integral : (Shape.enum type).equivalent? tag = some (.integer repr))
      (fits : ∀ member ∈ type.members, repr.Fits member.2) :
      Yields enclosing byteOrder tag (.enum type) (.ofFixed (.enum repr type) byteOrder repr.width)
  | text {tag : TextTag} {size : TextSize String} (hsize : TextSize.ofTag tag = .ok size) :
      Yields enclosing byteOrder (some (.text tag)) .text
        ⟨.text tag.encoding size, byteOrder, (size.policy?.bind SizePolicy.only?).isSome,
          .ofNat ((size.policy?.bind SizePolicy.only?).getD 0)⟩
  | list {size : ListTag} {shape : Shape} {tag : Option Tag} {policy : SizePolicy String}
      {element : Descriptor}
      (hpolicy : SizePolicy.ofTag size.fixedLength size.lengthKey = .ok policy)
      (helement : Yields enclosing byteOrder tag shape element)
      (sized : policy.slots? = none → ¬ (element.hasFixedSize ∧ element.minSize = 0)) :
      Yields enclosing byteOrder (some (.list size)) (.list ⟨shape, tag⟩)
        ⟨.list element policy, byteOrder, policy.only?.isSome && element.hasFixedSize,
          .ofNat (policy.only?.getD 0) * element.minSize⟩
  | record {tag : Option Tag} {layout : Layout} {descriptor : Descriptor}
      (plain : tag = none ∨ tag = some .record)
      (inner : layout.describeWithin enclosing byteOrder = .ok descriptor) :
      Yields enclosing byteOrder tag (.record layout) descriptor

namespace Shape

variable {enclosing : List String} {byteOrder : ByteOrder} {tag : Option Tag} {shape : Shape}
  {descriptor : Descriptor}

theorem unlessCodec_eq_ok_iff {otherwise : Except LayoutFailure Descriptor} :
    Descriptor.unlessCodec tag byteOrder otherwise = .ok descriptor ↔
      (∃ codec context, tag = some (.custom codec context) ∧
        .ofCodec codec context byteOrder = descriptor) ∨
      (Tag.isCodec tag = false ∧ otherwise = .ok descriptor) := by
  unfold Descriptor.unlessCodec Tag.isCodec
  split <;> simp_all

theorem ofScalar_eq_ok_iff {kind : ScalarKind} :
    Descriptor.ofScalar tag byteOrder kind = .ok descriptor ↔
      (kind ≠ .bool ∧ (tag = none ∨ tag = some .primitive) ∧
        .ofFixed (.scalar kind) byteOrder kind.width = descriptor) ∨
      (kind = .bool ∧ ∃ repr, (scalar .bool).equivalent? tag = some (.integer repr) ∧
        .ofFixed (.boolean repr) byteOrder repr.width = descriptor) := by
  by_cases hkind : kind = .bool
  · subst hkind
    rcases tag with _ | (_ | _ | _ | _ | _ | _ | _) <;>
      simp [Descriptor.ofScalar, Descriptor.ofBoolean_eq_ok_iff, equivalent?]
  · rcases tag with _ | (_ | _ | _ | _ | _ | _ | _) <;> simp [Descriptor.ofScalar, hkind]

theorem isCodec_of_equivalent?_eq_some {kind : ScalarKind}
    (h : shape.equivalent? tag = some kind) : Tag.isCodec tag = false := by
  unfold equivalent? at h
  split at h <;> first | rfl | cases h

theorem isCodec_of_plain {other : Tag} (hother : Tag.isCodec (some other) = false)
    (h : tag = none ∨ tag = some other) : Tag.isCodec tag = false := by
  rcases h with rfl | rfl
  · rfl
  · exact hother

theorem describe_enum_eq_ok_iff {type : EnumType} (hcodec : Tag.isCodec tag = false) :
    (enum type).describe enclosing byteOrder tag = .ok descriptor ↔
      ∃ repr, (enum type).equivalent? tag = some (.integer repr) ∧
        (∀ member ∈ type.members, repr.Fits member.2) ∧
        .ofFixed (.enum repr type) byteOrder repr.width = descriptor := by
  rcases tag with _ | (_ | _ | _ | _ | _ | _ | _) <;>
    simp [describe, Descriptor.unlessCodec, Descriptor.ofEnum_eq_ok_iff, equivalent?,
      Tag.isCodec] at hcodec ⊢

theorem describe_custom (codec : Codec) (context : Option String) (shape : Shape) :
    shape.describe enclosing byteOrder (some (.custom codec context)) =
      .ok (.ofCodec codec context byteOrder) := by
  rcases shape with _ | _ | _ | ⟨⟨_, _⟩⟩ | _ <;> rfl

theorem Yields.describe_eq_ok (h : Yields enclosing byteOrder tag shape descriptor) :
    shape.describe enclosing byteOrder tag = .ok descriptor := by
  induction h with
  | codec codec context shape => exact describe_custom codec context shape
  | scalar hkind hplain =>
    exact unlessCodec_eq_ok_iff.2 (.inr ⟨isCodec_of_plain rfl hplain,
      ofScalar_eq_ok_iff.2 (.inl ⟨hkind, hplain, rfl⟩)⟩)
  | boolean hrepr =>
    exact unlessCodec_eq_ok_iff.2 (.inr ⟨isCodec_of_equivalent?_eq_some hrepr,
      ofScalar_eq_ok_iff.2 (.inr ⟨rfl, _, hrepr, rfl⟩)⟩)
  | enum hrepr hfits =>
    exact (describe_enum_eq_ok_iff (isCodec_of_equivalent?_eq_some hrepr)).2
      ⟨_, hrepr, hfits, rfl⟩
  | text hsize =>
    exact mapError_eq_ok_iff.2 (Descriptor.ofText_eq_ok_iff.2 ⟨_, hsize, rfl⟩)
  | list hpolicy _ hsized ih =>
    refine bind_eq_ok_iff.2 ⟨_, mapError_eq_ok_iff.2 hpolicy, bind_eq_ok_iff.2 ⟨_, ih, ?_⟩⟩
    exact mapError_eq_ok_iff.2 (Descriptor.ofList_eq_ok_iff.2 ⟨hsized, rfl⟩)
  | record hplain hinner =>
    rcases hplain with rfl | rfl
    · exact mapError_eq_ok_iff.2 hinner
    · exact mapError_eq_ok_iff.2 hinner

theorem yields_of_describe_eq_ok {tag : Option Tag} {shape : Shape} {descriptor : Descriptor}
    (h : shape.describe enclosing byteOrder tag = .ok descriptor) :
    Yields enclosing byteOrder tag shape descriptor := by
  by_cases hcodec : Tag.isCodec tag = true
  · rcases tag with _ | (_ | _ | _ | _ | _ | _ | ⟨codec, context⟩)
    all_goals try cases hcodec
    cases (describe_custom codec context shape).symm.trans h
    exact .codec codec context shape
  · rw [Bool.not_eq_true] at hcodec
    match shape with
    | scalar kind =>
      rcases unlessCodec_eq_ok_iff.1 h with ⟨codec, context, rfl, rfl⟩ | ⟨-, h⟩
      · cases hcodec
      · rcases ofScalar_eq_ok_iff.1 h with ⟨hkind, hplain, rfl⟩ | ⟨rfl, repr, hrepr, rfl⟩
        · exact .scalar hkind hplain
        · exact .boolean hrepr
    | enum type =>
      obtain ⟨repr, hrepr, hfits, rfl⟩ := (describe_enum_eq_ok_iff hcodec).1 h
      exact .enum hrepr hfits
    | text =>
      rcases tag with _ | (_ | _ | _ | tag | _ | _ | _)
      case some.text =>
        obtain ⟨size, hsize, rfl⟩ := Descriptor.ofText_eq_ok_iff.1 (mapError_eq_ok_iff.1 h)
        exact .text hsize
      all_goals cases h
      all_goals cases hcodec
    | list ⟨shape, inner⟩ =>
      rcases tag with _ | (_ | _ | _ | _ | size | _ | _)
      case some.list =>
        obtain ⟨policy, hpolicy, h⟩ := bind_eq_ok_iff.1 h
        obtain ⟨element, helement, h⟩ := bind_eq_ok_iff.1 h
        obtain ⟨hsized, rfl⟩ := Descriptor.ofList_eq_ok_iff.1 (mapError_eq_ok_iff.1 h)
        exact .list (mapError_eq_ok_iff.1 hpolicy) (yields_of_describe_eq_ok helement) hsized
      all_goals cases h
      all_goals cases hcodec
    | record layout =>
      rcases tag with _ | (_ | _ | _ | _ | _ | _ | _)
      case none => exact .record (.inl rfl) (mapError_eq_ok_iff.1 h)
      case some.record => exact .record (.inr rfl) (mapError_eq_ok_iff.1 h)
      all_goals cases h
      all_goals cases hcodec
termination_by sizeOf shape

/-- A field or element is described in exactly the listed cases. -/
theorem describe_eq_ok_iff : shape.describe enclosing byteOrder tag = .ok descriptor ↔
    Yields enclosing byteOrder tag shape descriptor :=
  ⟨yields_of_describe_eq_ok, Yields.describe_eq_ok⟩

end Shape

/-! ## Records -/

namespace Layout

variable {layout : Layout} {enclosing : List String} {inherited : ByteOrder}
  {descriptor : Descriptor}

theorem describeWithin_eq_ok_iff : layout.describeWithin enclosing inherited = .ok descriptor ↔
    layout.name ∉ enclosing ∧
      Layout.assemble layout.name (layout.byteOrder.getD inherited) layout.fields
        (Field.describeAll (enclosing ++ [layout.name]) (layout.byteOrder.getD inherited)
          layout.fields) = .ok descriptor := by
  obtain ⟨name, byteOrder, fields⟩ := layout
  rw [describeWithin]
  split
  · next h => simp [h]
  · next h => simp [h]

/-- The descriptor of a record type is that of a record. -/
theorem describeWithin_kind (h : layout.describeWithin enclosing inherited = .ok descriptor) :
    ∃ fields, descriptor.kind = .record layout.name fields := by
  obtain ⟨-, h⟩ := describeWithin_eq_ok_iff.1 h
  obtain ⟨-, -, -, analysis, -, rfl⟩ := assemble_eq_ok_iff.1 h
  exact ⟨_, rfl⟩

end Layout

/-! ## What all descriptors have in common with shape and tag -/

namespace Shape.Yields

variable {enclosing : List String} {byteOrder : ByteOrder} {tag : Option Tag} {shape : Shape}
  {descriptor : Descriptor} (h : Yields enclosing byteOrder tag shape descriptor)

include h

theorem integerKind?_eq : descriptor.bitContent?.map Prod.snd = shape.integerKind? tag := by
  cases h with
  | codec codec context shape => cases shape <;> rfl
  | @scalar tag kind hkind hplain =>
    rcases hplain with rfl | rfl <;> cases kind <;> first | rfl | exact (hkind rfl).elim
  | boolean hrepr => rw [integerKind?, hrepr]; rfl
  | enum hrepr => rw [integerKind?, hrepr]; rfl
  | text => rfl
  | list => rfl
  | record hplain hinner =>
    obtain ⟨fields, hkind⟩ := Layout.describeWithin_kind hinner
    rw [Descriptor.bitContent?, hkind]
    rcases hplain with rfl | rfl <;> rfl

/-- Only record types have a byte order of their own. -/
theorem byteOrder_eq (hcontent : descriptor.bitContent? ≠ none) :
    descriptor.byteOrder = byteOrder := by
  cases h with
  | record hplain hinner =>
    obtain ⟨fields, hkind⟩ := Layout.describeWithin_kind hinner
    rw [Descriptor.bitContent?, hkind] at hcontent
    exact (hcontent rfl).elim
  | _ => rfl

theorem bitWidth?_eq : descriptor.bitWidth? = none := by
  cases h with
  | record hplain hinner =>
    obtain ⟨fields, hkind⟩ := Layout.describeWithin_kind hinner
    rw [Descriptor.bitWidth?, hkind]
  | _ => rfl

end Shape.Yields

/-! ## Fields -/

/-- What a bit field is if it is not packed. -/
def BitContent.unpacked (repr : IntegerKind) : BitContent → DescriptorKind
  | integer => .scalar (.integer repr)
  | boolean => .boolean repr
  | enum type => .enum repr type

theorem Descriptor.narrow_eq_ok_iff {whole narrowed : Descriptor} {width : Nat} {label : String} :
    whole.narrow width label = .ok narrowed ↔
      ∃ content repr, whole.bitContent? = some (content, repr) ∧ width ≤ repr.bits ∧
        ofFixed (.bits content repr width repr.width) whole.byteOrder 0 = narrowed := by
  unfold narrow
  split
  · next h => simp [h]
  · next content repr h =>
    simp only [h, Option.some.injEq, Prod.mk.injEq, exists_and_left, exists_eq_left', and_assoc]
    split
    · next hwidth => simp [Nat.not_le.2 hwidth]
    · next hwidth => simp [Nat.not_lt.1 hwidth]

namespace Field

variable {enclosing : List String} {byteOrder : ByteOrder} {field : Field}
  {descriptor : Descriptor}

/-- The descriptor of a field by itself. -/
def describeIn (enclosing : List String) (byteOrder : ByteOrder) (field : Field) :
    Except LayoutFailure Descriptor := do
  let descriptor ← field.shape.describe enclosing (field.byteOrder.getD byteOrder) field.tag
  match field.bitWidth with
  | none => return descriptor
  | some width => (descriptor.narrow width (field.shape.bitfieldLabel field.tag)).mapError .ofField

/-- An ordered field with its descriptor. -/
def resolveIn (enclosing : List String) (byteOrder : ByteOrder) (field : Field) :
    Option ResolvedField :=
  field.order.map fun order ↦ ⟨order, field, field.describeIn enclosing byteOrder⟩

theorem describeAll_eq (fields : List Field) :
    describeAll enclosing byteOrder fields = fields.filterMap (resolveIn enclosing byteOrder) := by
  induction fields with
  | nil => rfl
  | cons field rest ih =>
    obtain ⟨name, order, shape, tag, fieldOrder, bitWidth, padAfter, lengthOf, serialize⟩ := field
    rw [describeAll.eq_def, List.filterMap_cons, ← ih]
    cases order with
    | none => rfl
    | some place => cases bitWidth <;> rfl

/-- The cases in which a field can be described, with the descriptor in each. -/
inductive Yields (enclosing : List String) (byteOrder : ByteOrder) (field : Field) :
    Descriptor → Prop where
  | whole {descriptor : Descriptor} (unpacked : field.bitWidth = none)
      (yields : Shape.Yields enclosing (field.byteOrder.getD byteOrder) field.tag field.shape
        descriptor) : Yields enclosing byteOrder field descriptor
  | bits {descriptor : Descriptor} {content : BitContent} {repr : IntegerKind} {width : Nat}
      (packed : field.bitWidth = some width)
      (yields : Shape.Yields enclosing (field.byteOrder.getD byteOrder) field.tag field.shape
        descriptor)
      (hcontent : descriptor.bitContent? = some (content, repr)) (hwidth : width ≤ repr.bits) :
      Yields enclosing byteOrder field
        (.ofFixed (.bits content repr width repr.width) (field.byteOrder.getD byteOrder) 0)

theorem describeIn_eq_ok_iff : field.describeIn enclosing byteOrder = .ok descriptor ↔
    Yields enclosing byteOrder field descriptor := by
  simp only [describeIn, bind_eq_ok_iff, Shape.describe_eq_ok_iff]
  constructor
  · rintro ⟨whole, hwhole, h⟩
    split at h
    · next hbits =>
      cases h
      exact .whole hbits hwhole
    · next width hbits =>
      rw [mapError_eq_ok_iff, Descriptor.narrow_eq_ok_iff] at h
      obtain ⟨content, repr, hcontent, hwidth, rfl⟩ := h
      rw [hwhole.byteOrder_eq (by simp [hcontent])]
      exact .bits hbits hwhole hcontent hwidth
  · intro h
    cases h with
    | whole hbits hwhole => exact ⟨descriptor, hwhole, by rw [hbits]; rfl⟩
    | bits hbits hwhole hcontent hwidth =>
      refine ⟨_, hwhole, ?_⟩
      rw [hbits, mapError_eq_ok_iff, Descriptor.narrow_eq_ok_iff,
        hwhole.byteOrder_eq (by simp [hcontent])]
      exact ⟨_, _, hcontent, hwidth, rfl⟩

namespace Yields

variable (h : Yields enclosing byteOrder field descriptor)

include h

end Yields

end Field

end WireFormat
