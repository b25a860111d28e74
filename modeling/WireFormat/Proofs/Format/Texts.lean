import WireFormat.Proofs.Format.Canonical

/-!
# Texts that are read back

A text ends in one of four ways: with a zero byte, with the first zero byte of its slot, or where a
length says so, in as many bytes or in more.  What is written never lets the wrong end be found,
with one exception: in a slot without a length, where zeros fill the bytes that are free, a text may
hold NUL, and is cut there.

* `Value.at?`, `Descriptor.at?` — what is at a place of a value or of a descriptor;
* `Descriptor.at?_reread` — the texts of a value that is read back;
* `Schema.text_of_serialize` — every text is read back as itself, or cut at NUL;
* `Schema.titled` — a schema with a text that is cut.
-/

namespace WireFormat

/-! ## Places -/

/-- What is at a place of a value. -/
def Value.at? : Path → Value → Option Value
  | [], value => some value
  | .member name :: path, value => (value.member? name).bind (at? path)
  | .index position :: path, value =>
    (value.toItems?.bind fun items ↦ items[position]?).bind (at? path)

/-- The descriptor of what is at a place, if it is on the wire. -/
def Descriptor.at? : Path → Descriptor → Option Descriptor
  | [], descriptor => some descriptor
  | .member name :: path, descriptor =>
    (descriptor.fields.find? fun field ↦ field.serialize && field.name == name).bind fun field ↦
      at? path field.descriptor
  | .index _ :: path, descriptor => descriptor.element?.bind (at? path)

/-- What is added to the items of a list comes after them. -/
theorem SizePolicy.getElem?_extended {κ : Type} {policy : SizePolicy κ} {default? : Option Value}
    {items : List Value} {position : Nat} {item : Value} (h : items[position]? = some item) :
    (policy.extended default? items)[position]? = some item := by
  cases policy with
  | fixed slots =>
    obtain ⟨hlt, -⟩ := List.getElem?_eq_some_iff.1 h
    rw [extended, List.getElem?_append_left hlt]
    exact h
  | keyed key | padded key slots => exact h

namespace Descriptor

variable {descriptor element target : Descriptor} {field : FieldDescriptor} {value inner : Value}
  {path : Path} {text : String} {encoding : Encoding} {size : TextSize String}

theorem exists_field_of_at?_member {name : String}
    (h : descriptor.at? (.member name :: path) = some target) :
    ∃ field ∈ descriptor.fields, field.serialize ∧ field.name = name ∧
      field.descriptor.at? path = some target := by
  obtain ⟨field, hfield, hplace⟩ := Option.bind_eq_some_iff.1 h
  have hsame := List.find?_some hfield
  rw [Bool.and_eq_true, beq_iff_eq] at hsame
  exact ⟨field, List.mem_of_find?_eq_some hfield, hsame.1, hsame.2, hplace⟩

/-- Where a length is carried, there is no text. -/
theorem kind_ne_text_of_carriesLength (hcarries : descriptor.kind.carriesLength)
    (hplace : descriptor.at? path = some target) : target.kind ≠ .text encoding size := by
  obtain ⟨kind, byteOrder, hasFixedSize, minSize⟩ := descriptor
  cases path with
  | nil =>
    obtain rfl := Option.some.inj hplace
    rintro rfl
    cases hcarries
  | cons segment path =>
    cases segment <;> cases kind <;> first | cases hcarries | cases hplace

/-! ## What is read back at a place -/

/-- A member that carries no length is read back by itself. -/
theorem member?_reread (hcoherent : descriptor.Coherent) (hmem : field ∈ descriptor.fields)
    (hserialize : field.serialize) (hlength : field.lengthOf = none)
    (hvalue : value.member? field.name = some inner) :
    (descriptor.reread value).member? field.name = some (field.descriptor.reread inner) := by
  obtain ⟨kind, byteOrder, hasFixedSize, minSize⟩ := descriptor
  cases kind with
  | record name fields =>
    cases value with
    | record members =>
      change (Members.ofList (FieldDescriptor.rereadAll _ members fields ++
        FieldDescriptor.skipped fields)).find? field.name = _
      rw [FieldDescriptor.rereadAll_eq_collect]
      refine FieldDescriptor.find?_collect hcoherent.1.names hmem hserialize ?_
      rw [hlength]
      exact Option.map_eq_some_iff.2 ⟨inner, hvalue, rfl⟩
    | _ => cases hvalue
  | _ => cases hmem

/-- An item is read back by itself. -/
theorem item?_reread {items : List Value} {position : Nat} (hmem : element ∈ descriptor.element?)
    (hvalue : items[position]? = some inner) :
    ∃ items', descriptor.reread (.list items) = .list items' ∧
      items'[position]? = some (element.reread inner) := by
  obtain ⟨kind, byteOrder, hasFixedSize, minSize⟩ := descriptor
  cases kind with
  | list own size =>
    obtain rfl := Option.some.inj hmem
    refine ⟨_, rfl, ?_⟩
    rw [List.getElem?_map, SizePolicy.getElem?_extended hvalue]
    rfl
  | _ => cases hmem

/-- A text of a value is read back as itself, or cut where NUL ends it. -/
theorem at?_reread (hcoherent : descriptor.Everywhere Coherent)
    (hplace : descriptor.at? path = some target) (hkind : target.kind = .text encoding size)
    (hvalue : value.at? path = some (.text text)) :
    (descriptor.reread value).at? path = some (.text (size.kept encoding text)) := by
  induction path generalizing descriptor value with
  | nil =>
    obtain rfl := Option.some.inj hplace
    obtain rfl := Option.some.inj hvalue
    obtain ⟨kind, byteOrder, hasFixedSize, minSize⟩ := descriptor
    obtain rfl := hkind
    rfl
  | cons segment path ih =>
    cases segment with
    | member name =>
      obtain ⟨field, hmem, hserialize, rfl, hinside⟩ := exists_field_of_at?_member hplace
      obtain ⟨inner, hinner, htext⟩ := Option.bind_eq_some_iff.1 hvalue
      have hlength : field.lengthOf = none := by
        refine Option.not_isSome_iff_eq_none.1 fun hsome ↦ ?_
        exact kind_ne_text_of_carriesLength (hcoherent.here.carriesLength hmem hsome) hinside hkind
      rw [Value.at?, member?_reread hcoherent.here hmem hserialize hlength hinner]
      exact ih (hcoherent.of_field hmem) hinside htext
    | index position =>
      obtain ⟨element, hmem, hinside⟩ := Option.bind_eq_some_iff.1 hplace
      obtain ⟨inner, hinner, htext⟩ := Option.bind_eq_some_iff.1 hvalue
      cases value with
      | list items =>
        obtain ⟨items', hitems, hitem⟩ := item?_reread hmem hinner
        rw [hitems]
        change (items'[position]?.bind _) = _
        rw [hitem]
        exact ih (hcoherent.of_element hmem) hinside htext
      | _ => cases hinner

end Descriptor

namespace Schema

variable {layout : Layout} {schema : Schema} {value : Value} {count : Nat} {sink sink' : Sink}

/-- What is written can be read back, whatever follows, and every text in it is read back as itself,
unless it holds NUL in a slot where NUL ends it. -/
theorem text_of_serialize (h : ofLayout layout = .ok schema) (hcodec : ¬ layout.UsesCodec)
    (hserialize : schema.serialize value sink = (.ok count, sink')) :
    ∃ bytes read, sink'.bytes.toList = sink.bytes.toList ++ bytes ∧
      (∀ rest, schema.deserialize (bytes ++ rest) = (.ok read, rest)) ∧
      ∀ path descriptor encoding size text, schema.descriptor.at? path = some descriptor →
        descriptor.kind = .text encoding size → value.at? path = some (.text text) →
          read.at? path = some (.text (size.kept encoding text)) ∧
            (size.kept encoding text = text ↔
              (size.endsAtNul encoding → Char.ofNat 0 ∉ text.toList)) := by
  obtain ⟨hdescribe, hplan⟩ := ofLayout_eq_ok h
  obtain ⟨⟨hsettled, hlent⟩, hroot, -, -⟩ := Plan.ofDescriptor_eq_ok_iff.1 hplan
  have hcoherent := Layout.describe_coherent hdescribe
  have hfree := Layout.everywhere_isCodec_eq_false hdescribe hcodec
  obtain ⟨moves, word, bytes, hwrites, hemits, hbytes, -⟩ :=
    exists_emits_of_serialize (Descriptor.isWritten hcoherent hfree hsettled) hroot hserialize
  have hreads := Descriptor.isReread hcoherent hsettled [] {} value moves
    (Descriptor.lent_nil hlent) (schema.descriptor.provided_nil _ _) hwrites
  refine ⟨bytes, schema.descriptor.reread value, hbytes,
    fun rest ↦ deserialize_of_reads hroot hreads hemits rest, ?_⟩
  intro path descriptor encoding size text hplace hkind hvalue
  exact ⟨Descriptor.at?_reread hcoherent hplace hkind hvalue, TextSize.kept_eq_self_iff⟩

end Schema

/-- A title in a slot of six bytes. -/
def Layout.titled : Layout where
  name := "Titled"
  fields := [
    { name := "title", order := some 0, shape := .text
      tag := some (.text { encoding := .ascii, fixedLength := some 6 }) }]

/-- The descriptor of a title in a slot of six bytes. -/
def Descriptor.titled : Descriptor where
  kind := .record "Titled" [
    ⟨"title", 0, .ofFixed (.text .ascii (.sized (.fixed 6))) .little 6, true, none, false⟩]
  byteOrder := .little
  hasFixedSize := true
  minSize := 6

theorem Layout.describe_titled : Layout.titled.describe = .ok Descriptor.titled := by cbv

theorem Layout.not_usesCodec_titled : ¬ titled.UsesCodec := by decide

/-- The schema of a title in a slot of six bytes. -/
def Schema.titled : Schema where
  name := "Titled"
  descriptor := .titled
  plan := {
    root := {
      name := "Titled"
      fields := [⟨"title", .text .ascii (.sized (.fixed 6)), none, none, false⟩]
      skipped := [] }
    hasFixedSize := true
    minSize := 6 }

theorem Schema.ofLayout_titled : ofLayout .titled = .ok .titled := by
  rw [ofLayout, Layout.describe_titled]
  rfl

/-- A title. -/
def Value.titled (title : String) : Value := .record [("title", .text title)]

/-- A title without NUL is read back as itself. -/
theorem Schema.titled_text_of_serialize :
    Schema.titled.serialize (.titled "ab") {} = (.ok 6, ⟨#[97, 98, 0, 0, 0, 0], none⟩) ∧
      ∃ read, Schema.titled.deserialize [97, 98, 0, 0, 0, 0] = (.ok read, []) ∧
        read.at? [.member "title"] = some (.text "ab") := by
  have hserialize : Schema.titled.serialize (.titled "ab") {} =
      (.ok 6, ⟨#[97, 98, 0, 0, 0, 0], none⟩) := by
    rfl
  obtain ⟨bytes, read, hbytes, hread, htexts⟩ := Schema.text_of_serialize Schema.ofLayout_titled
    Layout.not_usesCodec_titled hserialize
  obtain rfl : [97, 98, 0, 0, 0, 0] = bytes := hbytes
  obtain ⟨htext, hkept⟩ := htexts [.member "title"] _ .ascii (.sized (.fixed 6)) "ab" rfl rfl rfl
  rw [hkept.2 fun _ ↦ by decide] at htext
  exact ⟨hserialize, read, hread [], htext⟩

/-- A title with NUL is written, but it is read back only up to there. -/
theorem Schema.titled_cut :
    ofLayout .titled = .ok .titled ∧ ¬ Layout.titled.UsesCodec ∧
      Schema.titled.serialize (.titled "a\x00b") {} = (.ok 6, ⟨#[97, 0, 98, 0, 0, 0], none⟩) ∧
      Schema.titled.deserialize [97, 0, 98, 0, 0, 0] = (.ok (.titled "a"), []) :=
  ⟨ofLayout_titled, Layout.not_usesCodec_titled, rfl, rfl⟩

end WireFormat
