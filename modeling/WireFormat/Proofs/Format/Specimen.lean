import WireFormat.Proofs.Conflict.Passage
import WireFormat.Proofs.Format.Viability
import WireFormat.Proofs.Run.Elements

/-!
# Specimens

A specimen is made by recursion on a descriptor: numbers are zero, lists and texts are empty where
they can be, and otherwise as full as they have to be.  It conforms wherever any value does, so a
schema without clashes has a value that can be written exactly if it is viable.

* `Descriptor.specimen` — the specimen of a descriptor;
* `Descriptor.conforms_specimen` — it conforms to what is viable;
* `Schema.exists_toBytes_iff_viable` — without clashes, some value can be written exactly if the
  schema is viable.
-/

namespace WireFormat

variable {value : Value} {byteOrder : ByteOrder} {hasFixedSize : Bool} {minSize : UInt64}

/-! ## Texts -/

/-- Every character in ASCII is a code unit of its own. -/
theorem Unicode.flatMap_units_of_lt {chars : List Char} (h : ∀ char ∈ chars, char.toNat < 128) :
    chars.flatMap units = chars.map Char.toNat := by
  induction chars with
  | nil => rfl
  | cons char chars ih =>
    obtain ⟨hchar, hchars⟩ := List.forall_mem_cons.1 h
    have hunits : units char = [char.toNat] := if_pos (Nat.lt_trans hchar (by decide))
    rw [List.flatMap_cons, List.map_cons, ih hchars, hunits, List.singleton_append]

/-- A text in ASCII takes one code unit for each character. -/
theorem Encoding.exists_encode_of_lt (encoding : Encoding) {chars : List Char}
    (h : ∀ char ∈ chars, char.toNat < 128) :
    ∃ bytes, encoding.encode (String.ofList chars) = .ok bytes ∧
      bytes.length = encoding.unitWidth * chars.length := by
  refine ⟨_, encode_eq_ok_iff.2 ⟨fun _ ↦ by rwa [String.toList_ofList], rfl⟩, ?_⟩
  cases encoding with
  | ascii | utf8 =>
    rw [bytesOf, String.toList_ofList, flatMap_utf8EncodeChar_of_lt h, List.length_map, unitWidth,
      Nat.one_mul]
  | utf16 order =>
    rw [bytesOf, String.toList_ofList, length_flatMap_wireBytes, Unicode.flatMap_units_of_lt h,
      List.length_map, unitWidth]
  | utf32 order =>
    rw [bytesOf, String.toList_ofList, length_flatMap_wireBytes, List.length_map, unitWidth]

/-- A text that fills slots of whole code units, or takes none. -/
def TextSize.specimen (encoding : Encoding) : TextSize String → String
  | sized (.fixed slots) => String.ofList (List.replicate (slots / encoding.unitWidth) 'a')
  | _ => ""

/-! ## Specimens -/

mutual

/-- A value that conforms to a descriptor, if any does. -/
def Descriptor.specimen : Descriptor → Value
  | ⟨kind, _, _, _⟩ => kind.specimen

/-- A value that conforms to something of a kind, if any does. -/
def DescriptorKind.specimen : DescriptorKind → Value
  | .scalar kind => .zero kind
  | .boolean _ => .bool false
  | .enum _ _ => .enum 0
  | .bits content repr _ _ => content.flavor.zero (.integer repr)
  | .text encoding size => .text (size.specimen encoding)
  | .list element size =>
    .list (List.replicate (size.leastCount element.acceptsDefault) element.specimen)
  | .record _ fields => .ofMembers (FieldDescriptor.specimens fields)
  | .custom _ _ => .bool false

/-- Values that conform to the fields of a record, with their names. -/
def FieldDescriptor.specimens : List FieldDescriptor → List (String × Value)
  | [] => []
  | ⟨name, _, descriptor, _, _, _⟩ :: rest =>
    (name, descriptor.specimen) :: FieldDescriptor.specimens rest

end

/-- The specimen of a text fits. -/
theorem TextSize.exists_encode_specimen {encoding : Encoding} {size : TextSize String}
    (h : ∀ slots, size = .sized (.fixed slots) → encoding.unitWidth ∣ slots) :
    ∃ bytes, encoding.encode (size.specimen encoding) = .ok bytes ∧
      size.Fits encoding (size.specimen encoding) bytes.length := by
  cases size with
  | nullTerminated => exact ⟨[], encoding.encode_empty, by simp [specimen, Fits]⟩
  | sized policy =>
    cases policy with
    | keyed key => exact ⟨[], encoding.encode_empty, trivial⟩
    | padded key slots => exact ⟨[], encoding.encode_empty, Nat.zero_le slots⟩
    | fixed slots =>
      have hascii : ∀ char ∈ List.replicate (slots / encoding.unitWidth) 'a',
          char.toNat < 128 := by
        intro char hmem
        rw [List.eq_of_mem_replicate hmem]
        decide
      obtain ⟨bytes, hencode, hlength⟩ := encoding.exists_encode_of_lt hascii
      rw [List.length_replicate, Nat.mul_div_cancel' (h slots rfl)] at hlength
      exact ⟨bytes, hencode, Nat.le_of_eq hlength, fun _ ↦ hlength⟩

theorem FieldDescriptor.specimens_eq (fields : List FieldDescriptor) :
    specimens fields = fields.map fun field ↦ (field.name, field.descriptor.specimen) := by
  induction fields with
  | nil => rfl
  | cons field rest ih =>
    cases field
    rw [List.map_cons, ← ih]
    rfl

/-- The members of a specimen are those of its fields. -/
theorem FieldDescriptor.find?_specimens {fields : List FieldDescriptor} {field : FieldDescriptor}
    (hnames : (fields.map FieldDescriptor.name).Nodup) (hmem : field ∈ fields) :
    (Members.ofList (specimens fields)).find? field.name = some field.descriptor.specimen := by
  rw [specimens_eq]
  refine Members.find?_ofList (List.mem_map_of_mem hmem) fun other hother ↦ ?_
  obtain ⟨found, hfound, hpair⟩ := List.mem_map.1 hother
  obtain ⟨hname, rfl⟩ := Prod.mk.inj hpair
  obtain rfl : found = field := List.inj_on_of_nodup_map hnames hfound hmem hname
  rfl

namespace Descriptor

variable {descriptor target : Descriptor} {path : List FieldDescriptor} {key : String}

/-- Where a way leads in a specimen there is a specimen. -/
theorem follow?_specimen
    (hnames : descriptor.Everywhere fun inner ↦ (inner.fields.map FieldDescriptor.name).Nodup)
    (hreaches : descriptor.Reaches path target) :
    descriptor.specimen.follow? (FieldDescriptor.names path) = some target.specimen := by
  induction hreaches with
  | here => rfl
  | @field descriptor target field path mem _ _ ih =>
    refine Option.bind_eq_some_iff.2 ⟨field.descriptor.specimen, ?_, ih (hnames.of_field mem)⟩
    have hown := hnames.here
    obtain ⟨kind, byteOrder, hasFixedSize, minSize⟩ := descriptor
    cases kind with
    | record name fields => exact FieldDescriptor.find?_specimens hown mem
    | _ => cases mem

/-- What has a length key has the least length in its specimen. -/
theorem count_specimen (hkey : descriptor.lengthKey? = some key) :
    descriptor.measure.count descriptor.specimen = some descriptor.leastLength := by
  obtain ⟨kind, byteOrder, hasFixedSize, minSize⟩ := descriptor
  cases kind with
  | text encoding size =>
    cases size with
    | nullTerminated => cases hkey
    | sized policy =>
      cases policy with
      | fixed slots => cases hkey
      | keyed | padded => cases encoding <;> rfl
  | list element size => exact congrArg some (List.length_replicate ..)
  | _ => cases hkey

/-- The specimen of a list conforms if that of its elements does, unless it is empty. -/
theorem conforms_specimen_list {element : Descriptor} {size : SizePolicy String}
    (hsome : element.default?.isSome)
    (hdefault : ∀ value ∈ element.default?, element.Conforms value ↔ element.acceptsDefault)
    (h : size.slots?.isSome → element.Conforms element.specimen) :
    Conforms ⟨.list element size, byteOrder, hasFixedSize, minSize⟩
      (specimen ⟨.list element size, byteOrder, hasFixedSize, minSize⟩) := by
  -- There are free slots only if they can be filled.
  have hfree (hfree : size.HasFree (size.leastCount element.acceptsDefault)) :
      element.acceptsDefault := by
    obtain ⟨slots, hslots, hlt⟩ := hfree
    refine Bool.of_not_eq_false fun haccepts ↦ ?_
    rw [SizePolicy.leastCount, haccepts, Option.mem_def.1 hslots] at hlt
    exact Nat.lt_irrefl _ hlt
  have hlength : (List.replicate (size.leastCount element.acceptsDefault)
      element.specimen).length = size.leastCount element.acceptsDefault := List.length_replicate ..
  refine .list (fun slots hslots ↦ ?_) (fun item hmem ↦ ?_) (fun _ ↦ hsome)
    fun hempty value hvalue ↦ (hdefault value hvalue).2 (hfree (hlength ▸ hempty))
  · rw [hlength, SizePolicy.leastCount, Option.mem_def.1 hslots]
    split
    · exact Nat.zero_le slots
    · exact Nat.le_refl slots
  · obtain ⟨hcount, rfl⟩ := List.mem_replicate.1 hmem
    refine h (Option.isSome_iff_ne_none.2 fun hslots ↦ hcount ?_)
    rw [SizePolicy.leastCount, hslots]
    exact ite_self 0

/-- The specimen of what is viable conforms. -/
theorem conforms_specimen (hcoherent : descriptor.Everywhere Coherent)
    (hcodec : descriptor.Everywhere fun inner ↦ inner.isCodec = false)
    (hsettled : descriptor.Settled) (h : descriptor.Viable) :
    descriptor.Conforms descriptor.specimen := by
  induction h with
  | @intro descriptor texts _ _ lengths ihelements ihfields =>
    have hnames := hcoherent.imp fun inner ↦ Coherent.nodup_names
    have hdefault {value : Value} (hvalue : descriptor.default? = some value) :
        descriptor.Conforms value ↔ descriptor.acceptsDefault :=
      conforms_default_iff hcoherent hcodec hsettled hvalue
    obtain ⟨kind, byteOrder, hasFixedSize, minSize⟩ := descriptor
    cases kind with
    | scalar kind | boolean repr | enum repr type => exact (hdefault rfl).2 rfl
    | bits content repr width container => exact (hdefault (by cases content <;> rfl)).2 rfl
    | text encoding size =>
      obtain ⟨bytes, hencode, hfits⟩ := TextSize.exists_encode_specimen fun slots hsize ↦
        texts encoding slots (congrArg _ hsize)
      exact .text hencode hfits
    | list element size =>
      have hinner := settled_list_iff.1 hsettled
      exact conforms_specimen_list (isSome_default? (hcodec.of_element rfl))
        (fun value hvalue ↦ conforms_default_iff (hcoherent.of_element rfl)
          (hcodec.of_element rfl) hinner.1 hvalue)
        fun hslots ↦ ihelements element rfl hslots (hcoherent.of_element rfl)
          (hcodec.of_element rfl) hinner.1
    | record name fields =>
      have hinner := settled_record_iff.1 hsettled
      have hfind (field : FieldDescriptor) (hmem : field ∈ fields) :
          (Members.ofList (FieldDescriptor.specimens fields)).find? field.name =
            some field.descriptor.specimen :=
        FieldDescriptor.find?_specimens hnames.here hmem
      refine .record (fun field hmem _ _ ↦ Option.isSome_of_eq_some (hfind field hmem))
        (fun field hmem hserialize hnone value hvalue ↦ ?_) fun field hmem key hcarries ↦ ?_
      · obtain rfl := Option.some.inj ((hfind field hmem).symm.trans hvalue)
        exact ihfields field hmem hserialize hnone (hcoherent.of_field hmem)
          (hcodec.of_field hmem) (hinner.1 field hmem hserialize)
      · have hcount := hinner.2 field hmem key hcarries
        obtain ⟨path, ⟨target, hreaches, hkey⟩, -⟩ := (countP_demands_eq_one_iff hnames).1 hcount
        refine ⟨_, target.leastLength, feedOf_demands_eq hnames hcount hreaches hkey, ?_,
          lengths field hmem key hcarries path target hreaches hkey⟩
        exact Option.bind_eq_some_iff.2 ⟨target.specimen, follow?_specimen hnames hreaches,
          count_specimen hkey⟩
    | custom codec context => cases hcodec.here

end Descriptor

/-! ## Schemas -/

/-- Bit fields of one order of bytes do not clash. -/
theorem Descriptor.not_clashes_of_inOrder {descriptor : Descriptor} {order : ByteOrder}
    (h : descriptor.Everywhere (InOrder order)) : ¬ descriptor.Clashes := by
  have hswap {field : FieldDescriptor} {container width : Nat} {swap : Bool}
      (horder : field.descriptor.InOrder order)
      (hpacks : field.descriptor.Packs container width swap) : order.reverses container = swap := by
    obtain ⟨content, repr, hkind⟩ := hpacks.kind
    rw [← horder (by rw [isBitfield, hkind]), hpacks.swap]
  intro hclash
  induction hclash with
  | here fields =>
    obtain ⟨hsplit, houtlasts, -, -, hpacks, -⟩ := fields
    have hfirst := hswap (h.of_field (by simp [hsplit])).here houtlasts.packs
    have hsecond := hswap (h.of_field (by simp [hsplit])).here hpacks
    exact Bool.not_ne_self _ (hsecond.symm.trans hfirst)
  | element mem _ ih => exact ih (h.of_element mem)
  | field mem _ _ ih => exact ih (h.of_field mem)

namespace Schema

variable {layout : Layout} {schema : Schema}

/-- Some value can be written only if the schema is viable. -/
theorem viable_of_toBytes {bytes : List UInt8} (h : ofLayout layout = .ok schema)
    (hcodec : ¬ layout.UsesCodec) (hbytes : schema.toBytes value = .ok bytes) :
    schema.descriptor.Viable := by
  obtain ⟨hdescribe, hplan⟩ := ofLayout_eq_ok h
  obtain ⟨⟨hsettled, -⟩, hroot, -, -⟩ := Plan.ofDescriptor_eq_ok_iff.1 hplan
  have hcoherent := Layout.describe_coherent hdescribe
  have hfree := Layout.everywhere_isCodec_eq_false hdescribe hcodec
  obtain ⟨count, sink, hserialize, -⟩ := toBytes_eq_ok_iff.1 hbytes
  obtain ⟨moves, -, -, hwrites, -⟩ :=
    exists_emits_of_serialize (Descriptor.isWritten hcoherent hfree hsettled) hroot hserialize
  exact Descriptor.viable_of_conforms hcoherent hfree hsettled
    ((Descriptor.exists_writes_iff hcoherent).1 ⟨moves, hwrites⟩)

/-- Without clashes, some value can be written exactly if the schema is viable. -/
theorem exists_toBytes_iff_viable (h : ofLayout layout = .ok schema) (hcodec : ¬ layout.UsesCodec)
    (hclash : ¬ schema.descriptor.Clashes) :
    (∃ value bytes, schema.toBytes value = .ok bytes) ↔ schema.descriptor.Viable := by
  constructor
  · rintro ⟨value, bytes, hbytes⟩
    exact viable_of_toBytes h hcodec hbytes
  · intro hviable
    obtain ⟨hdescribe, hplan⟩ := ofLayout_eq_ok h
    have hsettled := (Plan.ofDescriptor_eq_ok_iff.1 hplan).1.1
    have hconforms := Descriptor.conforms_specimen (Layout.describe_coherent hdescribe)
      (Layout.everywhere_isCodec_eq_false hdescribe hcodec) hsettled hviable
    exact ⟨schema.descriptor.specimen, exists_toBytes_of_conforms h hclash hconforms⟩

end Schema

/-- Texts in three slots that cannot be left free, with a count of two bits or of one. -/
def Layout.rack (wide : Bool) : Layout where
  name := "Rack"
  fields := [
    { name := "count", order := some 0, shape := .scalar (.integer .u8)
      bitWidth := some (if wide then 2 else 1), lengthOf := some "labels" },
    { name := "labels", order := some 1, shape := .list ⟨.text, some (.text
        { encoding := .utf16 .little, fixedLength := some 4 })⟩
      tag := some (.list { lengthKey := some "labels", fixedLength := some 3 }) }]

/-- The descriptor of texts in three slots that cannot be left free. -/
def Descriptor.rack (wide : Bool) : Descriptor where
  kind := .record "Rack" [
    ⟨"count", 0, ⟨.bits .integer .u8 (if wide then 2 else 1) 1, .little, true, 0⟩, true,
      some "labels", false⟩,
    ⟨"labels", 1, ⟨.list ⟨.text (.utf16 .little) (.sized (.fixed 4)), .little, true, 4⟩
      (.padded "labels" 3), .little, false, 0⟩, true, none, false⟩]
  byteOrder := .little
  hasFixedSize := false
  minSize := 1

theorem Layout.describe_rack (wide : Bool) : (rack wide).describe = .ok (.rack wide) := by
  cases wide <;> cbv

theorem Layout.not_usesCodec_rack (wide : Bool) : ¬ (rack wide).UsesCodec := by
  cases wide <;> decide

theorem Descriptor.inOrder_rack (wide : Bool) : (rack wide).Everywhere (InOrder .little) := by
  refine .intro nofun nofun fun field hmem ↦ ?_
  rcases hmem with _ | ⟨_, _ | ⟨_, ⟨⟩⟩⟩
  · exact everywhere_of_leaf (fun _ ↦ rfl) rfl rfl
  · refine .intro (fun _ ↦ rfl) ?_ nofun
    rintro _ ⟨⟩
    exact everywhere_of_leaf (fun _ ↦ rfl) rfl rfl

/-- The schema of texts in three slots that cannot be left free. -/
def Schema.rack (wide : Bool) : Schema where
  name := "Rack"
  descriptor := .rack wide
  plan := {
    root := {
      name := "Rack"
      fields := [
        ⟨"count", .bits .u8 (if wide then 2 else 1) 1 false .native, some "labels",
          some ⟨["labels"], .elements⟩, false⟩,
        ⟨"labels", .list (.text (.utf16 .little) (.sized (.fixed 4))) (.padded ⟨"labels", 0⟩ 3)
          (some (.text "")), none, none, false⟩]
      skipped := [] }
    hasFixedSize := false
    minSize := 1 }

theorem Schema.ofLayout_rack (wide : Bool) : ofLayout (.rack wide) = .ok (.rack wide) := by
  rw [ofLayout, Layout.describe_rack]
  cases wide <;> rfl

/-- Two bits hold the length of three texts, so there is something to write.  One bit does not, and
so there is nothing. -/
theorem Schema.rack_viable : (Descriptor.rack true).Viable ∧
    ¬ ∃ value bytes, (Schema.rack false).toBytes value = .ok bytes := by
  have hwide := Schema.exists_toBytes_iff_viable (Schema.ofLayout_rack true)
    (Layout.not_usesCodec_rack true)
    (Descriptor.not_clashes_of_inOrder (Descriptor.inOrder_rack true))
  have hnarrow := Schema.exists_toBytes_iff_viable (Schema.ofLayout_rack false)
    (Layout.not_usesCodec_rack false)
    (Descriptor.not_clashes_of_inOrder (Descriptor.inOrder_rack false))
  refine ⟨hwide.1 ⟨(Descriptor.rack true).specimen,
    [3, 97, 0, 97, 0, 97, 0, 97, 0, 97, 0, 97, 0], rfl⟩, ?_⟩
  rw [hnarrow]
  rintro ⟨-, -, -, lengths⟩
  have hholds := lengths _ List.mem_cons_self "labels" rfl [_] _
    (.field (List.mem_cons_of_mem _ List.mem_cons_self) rfl (.here _)) rfl
  exact absurd hholds.2.2 (by decide)

/-- The schema of bytes that are counted by a field without bits. -/
def Schema.blank : Schema where
  name := "Blank"
  descriptor := .blank
  plan := {
    root := {
      name := "Blank"
      fields := [
        ⟨"size", .bits .u8 0 1 false .native, some "body", some ⟨["body"], .elements⟩, false⟩,
        ⟨"body", .list (.scalar (.integer .u8) false .native) (.keyed ⟨"body", 0⟩)
          (some (.zero (.integer .u8))), none, none, false⟩]
      skipped := [] }
    hasFixedSize := false
    minSize := 0 }

theorem Layout.describe_blank : Layout.blank.describe = .ok Descriptor.blank := by cbv

theorem Layout.not_usesCodec_blank : ¬ blank.UsesCodec := by decide

theorem Schema.ofLayout_blank : ofLayout .blank = .ok .blank := by
  rw [ofLayout, Layout.describe_blank]
  rfl

/-- No value can be written with a length that has no bits, although one can be read. -/
theorem Schema.blank_toBytes_ne : ofLayout .blank = .ok .blank ∧ ¬ Layout.blank.UsesCodec ∧
    (∀ value bytes, Schema.blank.toBytes value ≠ .ok bytes) ∧
    Schema.blank.deserialize [] = (.ok .blank, []) := by
  refine ⟨ofLayout_blank, Layout.not_usesCodec_blank, fun value bytes hbytes ↦ ?_, rfl⟩
  obtain ⟨-, -, -, lengths⟩ :=
    Schema.viable_of_toBytes ofLayout_blank Layout.not_usesCodec_blank hbytes
  have hholds := lengths _ List.mem_cons_self "body" rfl [_] _
    (.field (List.mem_cons_of_mem _ List.mem_cons_self) rfl (.here _)) rfl
  exact hholds.1 rfl

end WireFormat
