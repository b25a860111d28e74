import WireFormat.Proofs.Format.Agreement
import WireFormat.Proofs.Format.Conformance
import WireFormat.Proofs.Format.Typing

/-!
# Descriptors that some value conforms to

A layout is checked for what is wrong with it, but some layouts that are let through have no values:
their texts cannot fill their slots, or their lengths cannot be held by the fields that carry them.
`Descriptor.Viable` says what there is left to check.

* `Descriptor.acceptsDefault` — whether the default of a descriptor conforms to it;
* `Descriptor.leastLength` — the least length of a list or text with a key;
* `Descriptor.Viable` — what is left to check of a descriptor;
* `Descriptor.conforms_default_iff` — a default conforms exactly if it is accepted;
* `Descriptor.viable_of_conforms` — only to what is viable there is a value that conforms.
-/

namespace WireFormat

variable {value : Value} {byteOrder : ByteOrder} {hasFixedSize : Bool} {minSize : UInt64}

/-! ## Texts -/

/-- The number of bytes of a code unit. -/
def Encoding.unitWidth : Encoding → Nat
  | ascii | utf8 => 1
  | utf16 _ => 2
  | utf32 _ => 4

namespace Encoding

variable {encoding : Encoding}

theorem encode_empty (encoding : Encoding) : encoding.encode "" = .ok [] := by
  cases encoding <;> rfl

/-- A text is written in whole code units. -/
theorem unitWidth_dvd_length {text : String} {bytes : List UInt8}
    (h : encoding.encode text = .ok bytes) : encoding.unitWidth ∣ bytes.length := by
  obtain ⟨-, rfl⟩ := encode_eq_ok_iff.1 h
  cases encoding with
  | ascii | utf8 => exact Nat.one_dvd _
  | utf16 order | utf32 order =>
    rw [bytesOf, length_flatMap_wireBytes]
    exact Nat.dvd_mul_right ..

end Encoding

/-- Slots that a text fits, and that are not filled with zeros, hold whole code units. -/
theorem TextSize.unitWidth_dvd_of_fits {encoding : Encoding} {text : String} {bytes : List UInt8}
    {slots : Nat} (hencode : encoding.encode text = .ok bytes)
    (h : (sized (.fixed slots) : TextSize String).Fits encoding text bytes.length) :
    encoding.unitWidth ∣ slots := by
  cases hterminable : encoding.isNullTerminable with
  | true =>
    have hunit : encoding.unitWidth = 1 := by
      cases encoding with
      | ascii | utf8 => rfl
      | _ => cases hterminable
    rw [hunit]
    exact Nat.one_dvd slots
  | false =>
    rw [← h.2 hterminable]
    exact Encoding.unitWidth_dvd_length hencode

/-! ## Defaults -/

mutual

/-- Whether the default can be written, as it is into the free slots of a list. -/
def Descriptor.acceptsDefault : Descriptor → Bool
  | ⟨kind, _, _, _⟩ => kind.acceptsDefault

/-- Whether the default of something of a kind can be written. -/
def DescriptorKind.acceptsDefault : DescriptorKind → Bool
  | .text encoding (.sized (.fixed slots)) => encoding.isNullTerminable || slots == 0
  | .list element size => size.slots?.isNone || element.acceptsDefault
  | .record _ fields => FieldDescriptor.acceptDefaults fields
  | .custom _ _ => false
  | _ => true

/-- Whether the defaults of the fields of a record can be written, which are no lengths but zero. -/
def FieldDescriptor.acceptDefaults : List FieldDescriptor → Bool
  | [] => true
  | ⟨_, _, descriptor, serialize, lengthOf, _⟩ :: rest =>
    (!serialize || if lengthOf.isSome then descriptor.bitWidth? != some 0
      else descriptor.acceptsDefault) && FieldDescriptor.acceptDefaults rest

end

/-- The least number of items of a list, by whether its free slots can be filled. -/
def SizePolicy.leastCount {κ : Type} (fillable : Bool) (policy : SizePolicy κ) : Nat :=
  if fillable then 0 else policy.slots?.getD 0

/-- The least length of a list or text with a key.  If the free slots of a list cannot be filled,
then it has none. -/
def Descriptor.leastLength (descriptor : Descriptor) : Nat :=
  match descriptor.kind with
  | .list element size => size.leastCount element.acceptsDefault
  | _ => 0

/-! ## Lengths -/

theorem IntegerKind.fits_zero (kind : IntegerKind) : kind.Fits 0 := by cases kind <;> decide

/-- The numbers that some bits represent have no gaps. -/
theorem Flavor.Represents.of_le_of_le {signed : Bool} {width : Nat} {low number high : Int}
    (hlow : Represents signed width low) (hhigh : Represents signed width high)
    (hle : low ≤ number) (hge : number ≤ high) : Represents signed width number := by
  cases signed with
  | true => exact ⟨hlow.1.trans hle, hge.trans_lt hhigh.2⟩
  | false => exact ⟨hlow.1.trans hle, hge.trans_lt hhigh.2⟩

/-- What can hold a length can hold the lengths below it. -/
theorem DescriptorKind.HoldsLength.of_le {kind : DescriptorKind} {least length : Nat}
    (h : kind.HoldsLength length) (hle : least ≤ length) : kind.HoldsLength least := by
  have hcast : (least : Int) ≤ length := Int.ofNat_le.2 hle
  cases kind with
  | scalar kind =>
    cases kind with
    | integer own =>
      exact ⟨own.fits_zero.1.trans (Int.natCast_nonneg least), hcast.trans h.2⟩
    | _ => cases h
  | bits content repr width container =>
    cases content with
    | integer => exact ⟨h.1, (Flavor.represents_zero _ width).of_le_of_le h.2
        (Int.natCast_nonneg least) hcast⟩
    | _ => cases h
  | _ => cases h

/-- What can carry a length can hold the length of something empty, if it has any bits. -/
theorem Descriptor.holdsLength_zero_iff {descriptor : Descriptor}
    (h : descriptor.kind.carriesLength) :
    descriptor.kind.HoldsLength 0 ↔ descriptor.bitWidth? ≠ some 0 := by
  obtain ⟨kind, byteOrder, hasFixedSize, minSize⟩ := descriptor
  cases kind with
  | scalar kind =>
    cases kind with
    | integer own => exact iff_of_true own.fits_zero nofun
    | _ => cases h
  | bits content repr width container =>
    cases content with
    | integer =>
      refine ⟨fun hholds hwidth ↦ hholds.1 (Option.some.inj hwidth), fun hwidth ↦ ?_⟩
      exact ⟨fun hzero ↦ hwidth (congrArg some hzero), Flavor.represents_zero _ width⟩
    | _ => cases h
  | _ => cases h

/-! ## Defaults -/

/-- A list with slots has free ones as long as it is empty. -/
theorem SizePolicy.hasFree_zero {κ : Type} {policy : SizePolicy κ} (hslots : policy.slots? ≠ some 0)
    (hsome : policy.slots?.isSome) : policy.HasFree 0 := by
  obtain ⟨slots, hsize⟩ := Option.isSome_iff_exists.1 hsome
  exact ⟨slots, hsize, Nat.pos_of_ne_zero fun hzero ↦ hslots (hsize.trans (congrArg some hzero))⟩

theorem FieldDescriptor.acceptDefaults_iff {fields : List FieldDescriptor} :
    acceptDefaults fields ↔ ∀ field ∈ fields, field.serialize →
      (field.lengthOf = none → field.descriptor.acceptsDefault) ∧
      (field.lengthOf.isSome → field.descriptor.bitWidth? ≠ some 0) := by
  induction fields with
  | nil => simp [acceptDefaults]
  | cons field rest ih =>
    obtain ⟨name, order, descriptor, serialize, lengthOf, padAfter⟩ := field
    rw [acceptDefaults, Bool.and_eq_true, ih, List.forall_mem_cons]
    refine and_congr_left fun _ ↦ ?_
    cases serialize <;> cases lengthOf <;> simp

namespace Descriptor

/-- The empty text conforms if the slots can be left free. -/
theorem conforms_empty_text_iff {encoding : Encoding} {size : TextSize String} :
    Conforms ⟨.text encoding size, byteOrder, hasFixedSize, minSize⟩ (.text "") ↔
      acceptsDefault ⟨.text encoding size, byteOrder, hasFixedSize, minSize⟩ := by
  have hconforms : Conforms ⟨.text encoding size, byteOrder, hasFixedSize, minSize⟩ (.text "") ↔
      size.Fits encoding "" 0 := by
    constructor
    · intro h
      cases h with
      | text encode fits =>
        cases encoding.encode_empty.symm.trans encode
        exact fits
    · exact .text encoding.encode_empty
  rw [hconforms]
  cases size with
  | nullTerminated => exact iff_of_true (by simp [TextSize.Fits]) rfl
  | sized policy =>
    cases policy with
    | keyed key => exact iff_of_true trivial rfl
    | padded key slots => exact iff_of_true (Nat.zero_le slots) rfl
    | fixed slots =>
      change 0 ≤ slots ∧ (encoding.isNullTerminable = false → 0 = slots) ↔
        (encoding.isNullTerminable || slots == 0) = true
      cases encoding.isNullTerminable with
      | true => simp
      | false => simpa using eq_comm

/-- The empty list conforms if its slots can be filled. -/
theorem conforms_empty_list_iff {element : Descriptor} {size : SizePolicy String}
    (hslots : size.slots? ≠ some 0) (hsome : element.default?.isSome)
    (helement : ∀ value ∈ element.default?, element.Conforms value ↔ element.acceptsDefault) :
    Conforms ⟨.list element size, byteOrder, hasFixedSize, minSize⟩ (.list []) ↔
      acceptsDefault ⟨.list element size, byteOrder, hasFixedSize, minSize⟩ := by
  change _ ↔ (size.slots?.isNone || element.acceptsDefault) = true
  rw [Bool.or_eq_true, Option.isNone_iff_eq_none]
  constructor
  · intro h
    cases h with
    | list _ _ _ default =>
      refine or_iff_not_imp_left.2 fun hsized ↦ ?_
      have hfree := SizePolicy.hasFree_zero hslots (Option.isSome_iff_ne_none.2 hsized)
      obtain ⟨value, hvalue⟩ := Option.isSome_iff_exists.1 hsome
      exact (helement value hvalue).1 (default hfree value hvalue)
  · intro haccepts
    refine .list (fun slots _ ↦ Nat.zero_le slots) (fun _ hmem ↦ (List.not_mem_nil hmem).elim)
      (fun _ ↦ hsome) fun ⟨slots, hpolicy, _⟩ value hvalue ↦ ?_
    have hsized : size.slots? ≠ none := by simp [Option.mem_def.1 hpolicy]
    exact (helement value hvalue).2 (haccepts.resolve_left hsized)

/-- The defaults of the fields of a record conform if every field accepts its own. -/
theorem conforms_defaults_iff {name : String} {fields : List FieldDescriptor}
    {pairs : List (String × Value)} (hpairs : FieldDescriptor.defaults? fields = some pairs)
    (hcoherent : Everywhere Coherent ⟨.record name fields, byteOrder, hasFixedSize, minSize⟩)
    (hsettled : Settled ⟨.record name fields, byteOrder, hasFixedSize, minSize⟩)
    (hfields : ∀ field ∈ fields, field.serialize → ∀ value ∈ field.descriptor.default?,
      field.descriptor.Conforms value ↔ field.descriptor.acceptsDefault) :
    Conforms ⟨.record name fields, byteOrder, hasFixedSize, minSize⟩ (.ofMembers pairs) ↔
      acceptsDefault ⟨.record name fields, byteOrder, hasFixedSize, minSize⟩ := by
  have hown := hcoherent.here.1
  have hdefault : default? ⟨.record name fields, byteOrder, hasFixedSize, minSize⟩ =
      some (.ofMembers pairs) := congrArg (Option.map Value.ofMembers) hpairs
  have hfind := fun field (hmem : field ∈ fields) ↦
    FieldDescriptor.exists_find?_of_defaults? hown.names hpairs hmem
  have hfield (field : FieldDescriptor) (hmem : field ∈ fields) (hserialize : field.serialize)
      (value : Value) (hvalue : (Members.ofList pairs).find? field.name = some value) :
      field.descriptor.Conforms value ↔ field.descriptor.acceptsDefault := by
    obtain ⟨own, hdefault, hown⟩ := hfind field hmem
    obtain rfl : own = value := Option.some.inj (hown.symm.trans hvalue)
    exact hfields field hmem hserialize own hdefault
  change _ ↔ FieldDescriptor.acceptDefaults fields = true
  rw [FieldDescriptor.acceptDefaults_iff]
  constructor
  · intro h
    cases h with
    | record present each lengths =>
      refine fun field hmem hserialize ↦ ⟨fun hnone ↦ ?_, fun hkey ↦ ?_⟩
      · obtain ⟨value, -, hvalue⟩ := hfind field hmem
        exact (hfield field hmem hserialize value hvalue).1
          (each field hmem hserialize hnone value hvalue)
      · obtain ⟨key, hlength⟩ := Option.isSome_iff_exists.1 hkey
        obtain ⟨feed, length, -, -, hholds⟩ :=
          lengths field hmem key (FieldDescriptor.carries_iff.2 ⟨hserialize, hlength⟩)
        exact (holdsLength_zero_iff (hown.carriers field hmem hkey)).1
          (hholds.of_le (Nat.zero_le length))
  · intro haccept
    refine .record (fun field hmem _ _ ↦ ?_) (fun field hmem hserialize hnone value hvalue ↦ ?_)
      fun field hmem key hcarries ↦ ?_
    · obtain ⟨value, -, hvalue⟩ := hfind field hmem
      exact Option.isSome_of_eq_some hvalue
    · exact (hfield field hmem hserialize value hvalue).2
        ((haccept field hmem hserialize).1 hnone)
    · obtain ⟨hserialize, hlength⟩ := FieldDescriptor.carries_iff.1 hcarries
      have hkey : field.lengthOf.isSome := Option.isSome_of_eq_some hlength
      obtain ⟨feed, hfeed, -⟩ := hsettled.exists_feedOf hmem hserialize hlength
      obtain ⟨demand, hdemand, rfl⟩ := Option.map_eq_some_iff.1 hfeed
      refine ⟨_, 0, hfeed, count_default? hcoherent (List.mem_of_find?_eq_some hdemand) hdefault,
        (holdsLength_zero_iff (hown.carriers field hmem hkey)).2
          ((haccept field hmem hserialize).2 hkey)⟩

/-- The default of a descriptor conforms to it exactly if the descriptor accepts it. -/
theorem conforms_default_iff {descriptor : Descriptor} (hcoherent : descriptor.Everywhere Coherent)
    (hcodec : descriptor.Everywhere fun inner ↦ inner.isCodec = false)
    (hsettled : descriptor.Settled) (h : descriptor.default? = some value) :
    descriptor.Conforms value ↔ descriptor.acceptsDefault := by
  induction descriptor using Descriptor.induction generalizing value with
  | step descriptor ihelement ihfields =>
    obtain ⟨kind, byteOrder, hasFixedSize, minSize⟩ := descriptor
    cases kind with
    | scalar kind =>
      cases h
      exact iff_of_true (.scalar (Value.isScalar_zero kind)) rfl
    | boolean repr =>
      cases h
      exact iff_of_true (.boolean false) rfl
    | enum repr type =>
      cases h
      exact iff_of_true (.enum repr.fits_zero) rfl
    | bits content repr width container =>
      obtain rfl : content.flavor.zero (.integer repr) = value := by
        cases content <;> exact Option.some.inj h
      refine iff_of_true ?_ rfl
      by_cases hwidth : width = 0
      · subst hwidth
        exact .noBits _
      · exact .bits hwidth (content.flavor.stands_zero repr) (Flavor.represents_zero _ width)
    | text encoding size =>
      cases h
      exact conforms_empty_text_iff
    | list element size =>
      cases h
      exact conforms_empty_list_iff hcoherent.here.2 (isSome_default? (hcodec.of_element rfl))
        fun value ↦ ihelement element rfl (hcoherent.of_element rfl) (hcodec.of_element rfl)
          (settled_list_iff.1 hsettled).1
    | record name fields =>
      obtain ⟨pairs, hpairs, rfl⟩ := Option.map_eq_some_iff.1 h
      exact conforms_defaults_iff hpairs hcoherent hsettled fun field hmem hserialize value ↦
        ihfields field hmem (hcoherent.of_field hmem) (hcodec.of_field hmem)
          ((settled_record_iff.1 hsettled).1 field hmem hserialize)
    | custom codec context => cases hcodec.here

end Descriptor

/-! ## Viability -/

/-- Some value conforms to a descriptor.  A text of a fixed size is made of whole code units, and
every length that a record carries can be held by its field.  Nothing need conform to the elements
of a list that can be empty. -/
inductive Descriptor.Viable : Descriptor → Prop where
  | intro {descriptor : Descriptor}
      (texts : ∀ encoding slots, descriptor.kind = .text encoding (.sized (.fixed slots)) →
        encoding.unitWidth ∣ slots)
      (elements : ∀ element ∈ descriptor.element?, descriptor.fixedLength?.isSome → Viable element)
      (fields : ∀ field ∈ descriptor.fields, field.serialize → field.lengthOf = none →
        Viable field.descriptor)
      (lengths : ∀ field ∈ descriptor.fields, ∀ key, field.carries key →
        ∀ path target, descriptor.Reaches path target → target.lengthKey? = some key →
          field.descriptor.kind.HoldsLength target.leastLength) : Viable descriptor

namespace Descriptor

variable {descriptor target : Descriptor} {path : List FieldDescriptor} {key : String}

/-- The value of a record has a member for every field on the wire that carries no length. -/
theorem Conforms.exists_member {field : FieldDescriptor} (h : descriptor.Conforms value)
    (hmem : field ∈ descriptor.fields) (hserialize : field.serialize)
    (hlength : field.lengthOf = none) :
    ∃ inner, value.member? field.name = some inner ∧ field.descriptor.Conforms inner := by
  cases h with
  | record present each lengths =>
    obtain ⟨inner, hinner⟩ := Option.isSome_iff_exists.1 (present field hmem hserialize hlength)
    exact ⟨inner, hinner, each field hmem hserialize hlength inner hinner⟩
  | _ => cases hmem

/-- What has a length key is there in a value that conforms. -/
theorem Conforms.exists_follow? (hcoherent : descriptor.Everywhere Coherent)
    (h : descriptor.Conforms value) (hreaches : descriptor.Reaches path target)
    (hkey : target.lengthKey? = some key) :
    ∃ inner, value.follow? (FieldDescriptor.names path) = some inner ∧ target.Conforms inner := by
  induction hreaches generalizing value with
  | here => exact ⟨value, rfl, h⟩
  | @field descriptor target field path mem serialize rest ih =>
    have hlength := lengthOf_eq_none_of_reaches hcoherent.here mem rest
      (Option.isSome_of_eq_some hkey)
    obtain ⟨member, hmember, hconforms⟩ := h.exists_member mem serialize hlength
    obtain ⟨inner, hinner, htarget⟩ := ih (hcoherent.of_field mem) hconforms hkey
    exact ⟨inner, Option.bind_eq_some_iff.2 ⟨member, hmember, hinner⟩, htarget⟩

/-- Nothing that conforms is shorter than the least length. -/
theorem leastLength_le {length : Nat} (hcoherent : descriptor.Everywhere Coherent)
    (hcodec : descriptor.Everywhere fun inner ↦ inner.isCodec = false)
    (hsettled : descriptor.Settled) (h : descriptor.Conforms value)
    (hcount : descriptor.measure.count value = some length) : descriptor.leastLength ≤ length := by
  cases h with
  | @list element size _ _ _ items le each filled default =>
    obtain rfl : items.length = length := Option.some.inj hcount
    change size.leastCount element.acceptsDefault ≤ items.length
    rw [SizePolicy.leastCount]
    split
    · exact Nat.zero_le _
    · next haccepts =>
      cases hslots : size.slots? with
      | none => exact Nat.zero_le _
      | some slots =>
        -- A free slot would have been filled with the default.
        refine Nat.not_lt.1 fun hlt ↦ haccepts ?_
        have hfree : size.HasFree items.length := ⟨slots, hslots, hlt⟩
        obtain ⟨value, hvalue⟩ := Option.isSome_iff_exists.1 (filled hfree)
        exact (conforms_default_iff (hcoherent.of_element rfl) (hcodec.of_element rfl)
          (settled_list_iff.1 hsettled).1 hvalue).1 (default hfree value hvalue)
  | _ => exact Nat.zero_le _

theorem Settled.of_reaches (h : descriptor.Settled) (hreaches : descriptor.Reaches path target) :
    target.Settled := by
  induction hreaches with
  | here => exact h
  | field mem serialize _ ih => exact ih ((settled_iff.1 h).2.1 _ mem serialize)

/-- Something conforms to the elements of a list that has slots. -/
theorem Conforms.exists_element {element : Descriptor} (hcoherent : descriptor.Coherent)
    (h : descriptor.Conforms value) (hmem : element ∈ descriptor.element?)
    (hslots : descriptor.fixedLength?.isSome) : ∃ item, element.Conforms item := by
  cases h with
  | @list own size _ _ _ items le each filled default =>
    cases hmem
    cases items with
    | cons item items => exact ⟨item, each item List.mem_cons_self⟩
    | nil =>
      have hfree : size.HasFree 0 := SizePolicy.hasFree_zero hcoherent.2 hslots
      obtain ⟨item, hitem⟩ := Option.isSome_iff_exists.1 (filled hfree)
      exact ⟨item, default hfree item hitem⟩
  | _ => cases hmem

/-- The lengths of a record that conforms can be held. -/
theorem Conforms.holdsLength {field : FieldDescriptor} (hcoherent : descriptor.Everywhere Coherent)
    (hcodec : descriptor.Everywhere fun inner ↦ inner.isCodec = false)
    (hsettled : descriptor.Settled) (h : descriptor.Conforms value)
    (hmem : field ∈ descriptor.fields) (hcarries : field.carries key)
    (hreaches : descriptor.Reaches path target) (hkey : target.lengthKey? = some key) :
    field.descriptor.kind.HoldsLength target.leastLength := by
  have hnames := hcoherent.imp fun inner ↦ Coherent.nodup_names
  have hcount := (settled_iff.1 hsettled).2.2 field hmem key hcarries
  have hfeed := feedOf_demands_eq hnames hcount hreaches hkey
  obtain ⟨inner, hfollow, hinner⟩ := h.exists_follow? hcoherent hreaches hkey
  have htarget := hsettled.of_reaches hreaches
  cases h with
  | record present each lengths =>
    obtain ⟨feed, length, hown, hlength, hholds⟩ := lengths field hmem key hcarries
    obtain rfl := Option.some.inj (hfeed.symm.trans hown)
    obtain ⟨own, hvalue, hmeasure⟩ := Option.bind_eq_some_iff.1 hlength
    obtain rfl : inner = own := Option.some.inj (hfollow.symm.trans hvalue)
    exact hholds.of_le (leastLength_le (hcoherent.of_reaches hreaches) (hcodec.of_reaches hreaches)
      htarget hinner hmeasure)
  | _ => cases hmem

/-- What some value conforms to is viable. -/
theorem viable_of_conforms (hcoherent : descriptor.Everywhere Coherent)
    (hcodec : descriptor.Everywhere fun inner ↦ inner.isCodec = false)
    (hsettled : descriptor.Settled) (h : descriptor.Conforms value) : descriptor.Viable := by
  induction descriptor using Descriptor.induction generalizing value with
  | step descriptor ihelement ihfields =>
    refine .intro ?texts ?elements ?fields ?lengths
    case texts =>
      intro encoding slots hkind
      cases h with
      | text encode fits =>
        cases hkind
        exact TextSize.unitWidth_dvd_of_fits encode fits
      | _ => cases hkind
    case elements =>
      intro element hmem hslots
      obtain ⟨item, hitem⟩ := h.exists_element hcoherent.here hmem hslots
      exact ihelement element hmem (hcoherent.of_element hmem) (hcodec.of_element hmem)
        ((settled_iff.1 hsettled).1 element hmem).1 hitem
    case fields =>
      intro field hmem hserialize hnone
      obtain ⟨inner, -, hconforms⟩ := h.exists_member hmem hserialize hnone
      exact ihfields field hmem (hcoherent.of_field hmem) (hcodec.of_field hmem)
        ((settled_iff.1 hsettled).2.1 field hmem hserialize) hconforms
    case lengths =>
      intro field hmem key hcarries path target hreaches hkey
      exact h.holdsLength hcoherent hcodec hsettled hmem hcarries hreaches hkey

end Descriptor

end WireFormat
