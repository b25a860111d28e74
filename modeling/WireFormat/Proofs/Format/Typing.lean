import WireFormat.Proofs.Format.Members
import WireFormat.Proofs.Format.Restore
import WireFormat.Proofs.Value.Ranges

/-!
# What is read has the type of its descriptor

Whatever the bytes are, a value that is read has the members of its record type, each of its kind
and in its range, its lists have their slots filled, and the lengths in it are those of what takes
them.  Fields that are not on the wire are read as their defaults, in which all lists are empty.

* `Descriptor.Typed` — a value has the type of a descriptor;
* `Descriptor.typed_default?` — a default has it off the wire;
* `Descriptor.isTyped` — what is read has it on the wire;
* `Schema.typed_of_deserialize` — so a value that has been read has the type of its schema.
-/

namespace WireFormat

variable {reader next : Reader} {traversal outer : Traversal Members} {value : Value}
  {chain : List Enclosure} {byteOrder : ByteOrder} {hasFixedSize : Bool} {minSize : UInt64}

/-! ## Types -/

/-- How many items a list has.  All slots are filled if there is nothing else that says how many
are, but off the wire there are no slots to fill. -/
def SizePolicy.Keeps {κ : Type} (onWire : Bool) (count : Nat) : SizePolicy κ → Prop
  | fixed slots => count = if onWire then slots else 0
  | keyed _ => True
  | padded _ slots => count ≤ slots

/-- Every length that a record carries is that of what takes it.  On the wire, something does. -/
def FieldDescriptor.Measured (name : String) (fields : List FieldDescriptor) (onWire : Bool)
    (members : Members) : Prop :=
  ∀ field ∈ fields, ∀ key, field.carries key →
    (onWire → (feedOf (demandsAll name fields fields) key).isSome) ∧
      ∀ feed ∈ feedOf (demandsAll name fields fields) key, ∃ value, ∃ length : Nat,
        members.find? field.name = some value ∧ feed.count (.record members) = some length ∧
          value.toInteger? = some (length : Int)

/-- A value has the type of a descriptor.  It is on the wire or not, and in a record that is, so are
the fields that `written` says. -/
inductive Descriptor.Typed (written : FieldDescriptor → Bool) :
    Bool → Descriptor → Value → Prop where
  | scalar {onWire : Bool} {kind : ScalarKind} {byteOrder : ByteOrder} {hasFixedSize : Bool}
      {minSize : UInt64} {value : Value} (held : value.IsScalar kind) :
      Typed written onWire ⟨.scalar kind, byteOrder, hasFixedSize, minSize⟩ value
  | boolean {onWire : Bool} {repr : IntegerKind} {byteOrder : ByteOrder} {hasFixedSize : Bool}
      {minSize : UInt64} (truth : Bool) :
      Typed written onWire ⟨.boolean repr, byteOrder, hasFixedSize, minSize⟩ (.bool truth)
  | enum {onWire : Bool} {repr : IntegerKind} {type : EnumType} {byteOrder : ByteOrder}
      {hasFixedSize : Bool} {minSize : UInt64} {number : Int} (fits : repr.Fits number) :
      Typed written onWire ⟨.enum repr type, byteOrder, hasFixedSize, minSize⟩ (.enum number)
  | noBits {onWire : Bool} {content : BitContent} {repr : IntegerKind} {container : Nat}
      {byteOrder : ByteOrder} {hasFixedSize : Bool} {minSize : UInt64} :
      Typed written onWire ⟨.bits content repr 0 container, byteOrder, hasFixedSize, minSize⟩
        (content.flavor.zero (.integer repr))
  | bits {onWire : Bool} {content : BitContent} {repr : IntegerKind} {width container : Nat}
      {byteOrder : ByteOrder} {hasFixedSize : Bool} {minSize : UInt64} {value : Value}
      {number : Int}
      (wide : width ≠ 0) (stands : content.flavor.Stands repr value number)
      (represents : Flavor.Represents (content.flavor.isSigned (.integer repr)) width number) :
      Typed written onWire ⟨.bits content repr width container, byteOrder, hasFixedSize, minSize⟩
        value
  | text {onWire : Bool} {encoding : Encoding} {size : TextSize String} {byteOrder : ByteOrder}
      {hasFixedSize : Bool} {minSize : UInt64} (text : String) :
      Typed written onWire ⟨.text encoding size, byteOrder, hasFixedSize, minSize⟩ (.text text)
  | list {onWire : Bool} {element : Descriptor} {size : SizePolicy String} {byteOrder : ByteOrder}
      {hasFixedSize : Bool} {minSize : UInt64} {items : List Value}
      (keeps : size.Keeps onWire items.length)
      (each : ∀ item ∈ items, Typed written onWire element item) :
      Typed written onWire ⟨.list element size, byteOrder, hasFixedSize, minSize⟩ (.list items)
  | record {onWire : Bool} {name : String} {fields : List FieldDescriptor} {byteOrder : ByteOrder}
      {hasFixedSize : Bool} {minSize : UInt64} {members : Members}
      (names : members.names.Perm (fields.map FieldDescriptor.name))
      (each : ∀ field ∈ fields, ∀ value, members.find? field.name = some value →
        Typed written (onWire && written field) field.descriptor value)
      (lengths : FieldDescriptor.Measured name fields onWire members) :
      Typed written onWire ⟨.record name fields, byteOrder, hasFixedSize, minSize⟩ (.record members)

/-! ## Names of members -/

namespace Members

variable {name : String} {pairs : List (String × Value)} {members : Members}

theorem names_insert_perm (h : name ∉ members.names) :
    (members.insert name value).names.Perm (name :: members.names) := by
  induction members with
  | nil => exact .refl _
  | cons member rest ih =>
    rw [names, List.map_cons, List.mem_cons, not_or] at h
    rw [insert, if_neg h.1]
    split
    · exact .refl _
    · exact ((ih h.2).cons member.1).trans (.swap _ _ _)

/-- The names of the members of a list of pairs with different names are the names of the pairs. -/
theorem names_ofList_perm (h : (pairs.map Prod.fst).Nodup) :
    (ofList pairs).names.Perm (pairs.map Prod.fst) := by
  induction pairs using List.reverseRecOn with
  | nil => exact .refl _
  | append_singleton pairs pair ih =>
    rw [List.map_append, List.nodup_append] at h
    obtain ⟨hpairs, -, hother⟩ := h
    have hnames := ih hpairs
    have hnew : pair.1 ∉ (ofList pairs).names := fun hmem ↦
      hother _ (hnames.mem_iff.1 hmem) _ List.mem_cons_self rfl
    rw [← insert_ofList, List.map_append]
    exact (names_insert_perm hnew).trans
      ((hnames.cons _).trans (List.perm_append_singleton _ _).symm)

end Members

/-! ## Defaults -/

theorem FieldDescriptor.map_fst_of_defaults? {fields : List FieldDescriptor}
    {pairs : List (String × Value)} (h : defaults? fields = some pairs) :
    pairs.map Prod.fst = fields.map FieldDescriptor.name := by
  induction fields generalizing pairs with
  | nil =>
    cases h
    rfl
  | cons field rest ih =>
    obtain ⟨own, order, descriptor, serialize, lengthOf, padAfter⟩ := field
    obtain ⟨value, -, h⟩ := Option.bind_eq_some_iff.1 h
    obtain ⟨more, hmore, h⟩ := Option.bind_eq_some_iff.1 h
    cases h
    rw [List.map_cons, List.map_cons, ih hmore]

/-- The members of a default are the defaults of the fields. -/
theorem FieldDescriptor.exists_find?_of_defaults? {fields : List FieldDescriptor}
    {field : FieldDescriptor} {pairs : List (String × Value)}
    (hnames : (fields.map FieldDescriptor.name).Nodup) (h : defaults? fields = some pairs)
    (hmem : field ∈ fields) : ∃ value, field.descriptor.default? = some value ∧
      (Members.ofList pairs).find? field.name = some value := by
  have hname := List.mem_map_of_mem (f := FieldDescriptor.name) hmem
  rw [← map_fst_of_defaults? h] at hname
  obtain ⟨⟨name, value⟩, hpair, hname⟩ := List.mem_map.1 hname
  obtain rfl : name = field.name := hname
  have hdefault : ∀ other, (field.name, other) ∈ pairs →
      field.descriptor.default? = some other := by
    intro other hother
    obtain ⟨found, hfound, hname, hvalue⟩ := exists_default?_of_mem_defaults? h hother
    obtain rfl : found = field := List.inj_on_of_nodup_map hnames hfound hmem hname
    exact hvalue
  exact ⟨value, hdefault value hpair, Members.find?_ofList hpair fun other hother ↦
    Option.some.inj ((hdefault other hother).symm.trans (hdefault value hpair))⟩

/-- What carries a length has zero for its default. -/
theorem Descriptor.exists_default?_of_carriesLength {descriptor : Descriptor}
    (h : descriptor.kind.carriesLength) :
    ∃ value, descriptor.default? = some value ∧ value.toInteger? = some 0 := by
  obtain ⟨kind, byteOrder, hasFixedSize, minSize⟩ := descriptor
  cases kind with
  | scalar kind =>
    cases kind with
    | integer own => exact ⟨_, rfl, by cases own <;> rfl⟩
    | _ => cases h
  | bits content own width container =>
    cases content with
    | integer => exact ⟨_, rfl, by cases own <;> rfl⟩
    | _ => cases h
  | _ => cases h

theorem Flavor.stands_zero (flavor : Flavor) (own : IntegerKind) :
    flavor.Stands own (flavor.zero (.integer own)) 0 := by
  have hread : own.read 0 = 0 := by cases own <;> rfl
  cases flavor with
  | native => exact hread ▸ .native 0
  | boolean => exact .boolean false
  | enum => exact .enum 0

theorem Flavor.represents_zero (signed : Bool) (width : Nat) : Represents signed width 0 := by
  have hpos (bits : Nat) : (0 : Int) < 2 ^ bits := Int.pow_pos (by decide)
  cases signed with
  | true => exact ⟨Int.neg_nonpos_of_nonneg (Int.le_of_lt (hpos _)), hpos _⟩
  | false => exact ⟨Int.le_refl 0, hpos _⟩

namespace Descriptor

/-- In a default there is nothing to be counted. -/
theorem count_default? {descriptor : Descriptor} (hcoherent : descriptor.Everywhere Coherent)
    {demand : Demand} (hmem : demand ∈ descriptor.demands)
    (h : descriptor.default? = some value) : demand.feed.count value = some 0 := by
  induction descriptor using Descriptor.induction generalizing demand value with
  | step descriptor _ ihfields =>
    obtain ⟨kind, byteOrder, hasFixedSize, minSize⟩ := descriptor
    cases kind with
    | text encoding size =>
      cases h
      cases size with
      | nullTerminated => cases hmem
      | sized policy =>
        obtain ⟨hchain, -, hmeasure⟩ := mem_policy_demands_iff.1 hmem
        obtain ⟨own, key, measure⟩ := demand
        obtain rfl : own = [] := hchain
        obtain rfl : measure = .bytes encoding := hmeasure
        cases encoding <;> rfl
    | list element size =>
      cases h
      obtain ⟨hchain, -, hmeasure⟩ := mem_policy_demands_iff.1 hmem
      obtain ⟨own, key, measure⟩ := demand
      obtain rfl : own = [] := hchain
      obtain rfl : measure = .elements := hmeasure
      rfl
    | record name fields =>
      obtain ⟨pairs, hpairs, rfl⟩ := Option.map_eq_some_iff.1 h
      obtain ⟨field, hfield, -, inner, hinner, rfl⟩ := mem_demandsAll_iff.1 hmem
      obtain ⟨own, hdefault, hfind⟩ := FieldDescriptor.exists_find?_of_defaults?
        hcoherent.here.1.names hpairs hfield
      exact (inner.count_within ⟨name, fields, field⟩ hfind).trans
        (ihfields field hfield (hcoherent.of_field hfield) hinner hdefault)
    | _ => cases hmem

/-- A default has its type off the wire. -/
theorem typed_default? {descriptor : Descriptor} {written : FieldDescriptor → Bool}
    (hcoherent : descriptor.Everywhere Coherent)
    (hcodec : descriptor.Everywhere fun inner ↦ inner.isCodec = false)
    (h : descriptor.default? = some value) : Typed written false descriptor value := by
  induction descriptor using Descriptor.induction generalizing value with
  | step descriptor _ ihfields =>
    have hdemands (demand : Demand) (hmem : demand ∈ descriptor.demands) :
        demand.feed.count value = some 0 := count_default? hcoherent hmem h
    obtain ⟨kind, byteOrder, hasFixedSize, minSize⟩ := descriptor
    cases kind with
    | scalar kind =>
      cases h
      exact .scalar (Value.isScalar_zero kind)
    | boolean repr =>
      cases h
      exact .boolean false
    | enum repr type =>
      cases h
      exact .enum (by cases repr <;> decide)
    | bits content repr width container =>
      obtain rfl : content.flavor.zero (.integer repr) = value := by
        cases content <;> exact Option.some.inj h
      by_cases hwidth : width = 0
      · subst hwidth
        exact .noBits
      · exact .bits hwidth (content.flavor.stands_zero repr) (Flavor.represents_zero _ width)
    | text encoding size =>
      cases h
      exact .text ""
    | list element size =>
      cases h
      refine .list ?_ fun item hmem ↦ (List.not_mem_nil hmem).elim
      cases size with
      | fixed slots => rfl
      | keyed key => trivial
      | padded key slots => exact Nat.zero_le slots
    | record name fields =>
      obtain ⟨pairs, hpairs, rfl⟩ := Option.map_eq_some_iff.1 h
      have hfields := hcoherent.here.1
      have hfind := fun field (hmem : field ∈ fields) ↦
        FieldDescriptor.exists_find?_of_defaults? hfields.names hpairs hmem
      have hmap := FieldDescriptor.map_fst_of_defaults? hpairs
      refine .record ?_ (fun field hmem value hvalue ↦ ?_) fun field hmem key hcarries ↦ ⟨nofun, ?_⟩
      · rw [← hmap]
        exact Members.names_ofList_perm (hmap ▸ hfields.names)
      · obtain ⟨own, hdefault, hown⟩ := hfind field hmem
        obtain rfl : own = value := Option.some.inj (hown.symm.trans hvalue)
        exact ihfields field hmem (hcoherent.of_field hmem) (hcodec.of_field hmem) hdefault
      · intro feed hfeed
        obtain ⟨demand, hdemand, rfl⟩ := Option.map_eq_some_iff.1 hfeed
        obtain ⟨value, hdefault, hvalue⟩ := hfind field hmem
        obtain ⟨zero, hzero, hinteger⟩ := exists_default?_of_carriesLength
          (hfields.carriers field hmem (by rw [(FieldDescriptor.carries_iff.1 hcarries).2]; rfl))
        obtain rfl : zero = value := Option.some.inj (hzero.symm.trans hdefault)
        exact ⟨zero, 0, hvalue, hdemands demand (List.mem_of_find?_eq_some hdemand), hinteger⟩
    | custom codec context => cases hcodec.here

end Descriptor

/-! ## Scalars, texts and lists -/

/-- The elements that are kept are those before a position, and each has been read. -/
theorem Operation.exists_found_of_decodeItems {P : Value → Prop} {action : Nat → ReadM Value}
    {kept position count : Nat} {items values : List Value}
    (haction : ∀ position reader value next, action position reader = .ok value next → P value)
    (h : decodeItems action kept position items count reader = .ok values next) :
    ∃ found, values = items.reverse ++ found ∧ found.length = min count (kept - position) ∧
      ∀ item ∈ found, P item := by
  induction count generalizing position items reader with
  | zero =>
    obtain ⟨rfl, rfl⟩ := run_pure_eq_ok_iff.1 h
    exact ⟨[], by simp, by simp, by simp⟩
  | succ count ih =>
    obtain ⟨item, middle, hitem, h⟩ := run_bind_eq_ok_iff.1 h
    obtain ⟨found, hvalues, hlength, hfound⟩ := ih h
    by_cases hkept : position < kept
    · rw [if_pos hkept] at hvalues
      refine ⟨item :: found, by simp [hvalues], ?_,
        List.forall_mem_cons.2 ⟨haction _ _ _ _ hitem, hfound⟩⟩
      rw [List.length_cons]
      omega
    · rw [if_neg hkept] at hvalues
      exact ⟨found, hvalues, by omega, hfound⟩

namespace Descriptor

/-- Whatever is read has its type, and the lengths that it has been read with are its own. -/
def IsTyped (descriptor : Descriptor) : Prop :=
  ∀ (chain : List Enclosure) (traversal : Traversal Members) (reader : Reader) (value : Value)
    (next : Reader), descriptor.Lent chain →
      (descriptor.operation chain).decode traversal reader = .ok value next →
        descriptor.Provided value chain traversal ∧
          Typed FieldDescriptor.serialize true descriptor value

theorem isTyped_scalar {kind : DescriptorKind} {repr : ScalarKind} {flavor : Flavor}
    (hrepr : flavor = .native ∨ ∃ own, repr = .integer own)
    (hoperation : ∀ chain, operation chain ⟨kind, byteOrder, hasFixedSize, minSize⟩ =
      .ofScalar repr byteOrder flavor)
    (hdemands : kind.demands = [])
    (htyped : ∀ value, (∃ raw, flavor.encode repr value = .ok raw) →
      Typed FieldDescriptor.serialize true ⟨kind, byteOrder, hasFixedSize, minSize⟩ value) :
    IsTyped ⟨kind, byteOrder, hasFixedSize, minSize⟩ := by
  intro chain traversal reader value next _ h
  rw [hoperation, Operation.ofScalar, Operation.decode] at h
  obtain ⟨raw, _, -, hdata⟩ := run_bind_eq_ok_iff.1 h
  obtain ⟨hdecode, -⟩ := ReadM.run_ofData_eq_ok_iff.1 hdata
  exact ⟨provided_of_demands_eq_nil hdemands,
    htyped value (Flavor.exists_encode_of_decode hrepr hdecode)⟩

theorem isTyped_bits {content : BitContent} {repr : IntegerKind} {width container : Nat}
    (hwidth : width ≤ repr.bits) :
    IsTyped ⟨.bits content repr width container, byteOrder, hasFixedSize, minSize⟩ := by
  intro chain traversal reader value next _ h
  refine ⟨provided_of_demands_eq_nil rfl, ?_⟩
  change Operation.decode traversal (.bits ..) reader = _ at h
  rw [Operation.decode] at h
  split at h
  · next hzero =>
    obtain ⟨_, _, -, h⟩ := run_bind_eq_ok_iff.1 h
    obtain ⟨rfl, -⟩ := run_pure_eq_ok_iff.1 h
    subst hzero
    exact .noBits
  · next hzero =>
    obtain ⟨bits, _, hunpack, hdata⟩ := run_bind_eq_ok_iff.1 h
    obtain ⟨hdecode, -⟩ := ReadM.run_ofData_eq_ok_iff.1 hdata
    obtain ⟨-, number, hstands, hrepresents⟩ := Flavor.exists_encodeBits_iff.1
      (Flavor.exists_encodeBits_of_decodeBits hzero hwidth (Reader.lt_of_unpack hzero hunpack)
        hdecode)
    exact .bits hzero hstands hrepresents

theorem isTyped_text {encoding : Encoding} {size : TextSize String} :
    IsTyped ⟨.text encoding size, byteOrder, hasFixedSize, minSize⟩ := by
  intro chain traversal reader value next _ h
  change Operation.decode traversal (.text ..) reader = _ at h
  rw [Operation.decode] at h
  obtain ⟨bytes, _, hbytes, h⟩ := run_bind_eq_ok_iff.1 h
  obtain ⟨text, _, hdata, h⟩ := run_bind_eq_ok_iff.1 h
  obtain ⟨hdecode, rfl⟩ := ReadM.run_ofData_eq_ok_iff.1 hdata
  obtain ⟨rfl, -⟩ := run_pure_eq_ok_iff.1 h
  refine ⟨?_, .text text⟩
  cases size with
  | nullTerminated => exact provided_of_demands_eq_nil rfl
  | sized policy =>
    -- The text has as many bytes as have been read, since they are the only bytes that it has.
    refine provided_of_sourceLength rfl ?_
      ((exists_writes_of_decodeTextBytes hbytes).1 policy · rfl)
    rw [Measure.count, Encoding.encode_decode hdecode]
    rfl

theorem isTyped_list {element : Descriptor} {size : SizePolicy String}
    (hlentInside : element.Lent []) (helement : element.IsTyped) :
    IsTyped ⟨.list element size, byteOrder, hasFixedSize, minSize⟩ := by
  intro chain traversal reader value next _ h
  change Operation.decode traversal (.list ..) reader = _ at h
  rw [Operation.decode] at h
  obtain ⟨⟨kept, count⟩, _, hdata, h⟩ := run_bind_eq_ok_iff.1 h
  obtain ⟨hextent, rfl⟩ := ReadM.run_ofData_eq_ok_iff.1 hdata
  obtain ⟨items, _, hitems, h⟩ := run_bind_eq_ok_iff.1 h
  obtain ⟨rfl, -⟩ := run_pure_eq_ok_iff.1 h
  obtain ⟨found, hvalues, hcount, hfound⟩ := Operation.exists_found_of_decodeItems
    (fun position _ _ _ hitem ↦
      (helement _ _ _ _ _ hlentInside (ReadM.run_locate_eq_ok_iff.1 hitem)).2) hitems
  obtain rfl : items = found := hvalues
  rw [Nat.sub_zero, Nat.min_eq_right (Traversal.extent_eq_ok hextent).2.1] at hcount
  subst hcount
  obtain ⟨hlength, hcases⟩ := Traversal.extent_map_eq_ok hextent
  refine ⟨provided_of_sourceLength rfl rfl hlength, .list ?_ hfound⟩
  obtain ⟨rfl, hcount⟩ | ⟨⟨key, rfl⟩, -⟩ | ⟨key, rfl, hle⟩ := hcases
  · exact hcount
  · trivial
  · exact hle

/-! ## Records -/

theorem isTyped_record {name : String} {fields : List FieldDescriptor}
    (hcoherent : Everywhere Coherent ⟨.record name fields, byteOrder, hasFixedSize, minSize⟩)
    (hcodec : Everywhere (fun inner ↦ inner.isCodec = false)
      ⟨.record name fields, byteOrder, hasFixedSize, minSize⟩)
    (htaken : ∀ field ∈ fields, ∀ key, field.carries key →
      (FieldDescriptor.demandsAll name fields fields).countP (fun demand ↦ demand.key == key) = 1)
    (hfields : ∀ field ∈ fields, field.serialize → field.descriptor.IsTyped) :
    IsTyped ⟨.record name fields, byteOrder, hasFixedSize, minSize⟩ := by
  intro chain traversal reader value next hlent h
  have hnames := hcoherent.here.1.names
  have hdefaults : ∀ field ∈ fields, field.descriptor.default?.isSome :=
    fun _ hmem ↦ isSome_default? (hcodec.of_field hmem)
  obtain ⟨pairs, last, rfl, hfound, -⟩ := exists_foundAll_of_decode
    (fun field value _ _ ↦ Typed FieldDescriptor.serialize true field.descriptor value) hnames
    (fun field hmem hserialize _ _ _ _ hdecode ↦
      hfields field hmem hserialize _ _ _ _ _ (hlent.of_field hmem hserialize) hdecode) h
  refine ⟨hfound.provided hnames, .record ?_ (fun field hmem value hvalue ↦ ?_)
    fun field hmem key hcarries ↦ ?_⟩
  · refine (Members.names_ofList_perm (hfound.nodup_fst hnames)).trans ?_
    rw [List.map_append, hfound.map_fst_eq, FieldDescriptor.map_fst_skipped_of_isSome hdefaults,
      ← List.map_append]
    exact (List.filter_append_perm FieldDescriptor.serialize fields).map FieldDescriptor.name
  · cases hserialize : field.serialize with
    | true =>
      obtain ⟨found, _, _, hpair, htyped, -⟩ := hfound.exists_of_mem hmem hserialize
      obtain rfl : found = value :=
        Option.some.inj ((hfound.find?_eq hnames hpair).symm.trans hvalue)
      exact htyped
    | false =>
      obtain ⟨default, hdefault⟩ := Option.isSome_iff_exists.1 (hdefaults field hmem)
      have hskipped : (field.name, default) ∈ FieldDescriptor.skipped fields :=
        FieldDescriptor.mem_skipped_iff.2 ⟨field, hmem, hserialize, rfl, hdefault⟩
      obtain rfl : default = value := Option.some.inj
        ((hfound.find?_of_mem hnames (List.mem_append_right _ hskipped)).symm.trans hvalue)
      exact typed_default? (hcoherent.of_field hmem) (hcodec.of_field hmem) hdefault
  · obtain ⟨hserialize, -⟩ := FieldDescriptor.carries_iff.1 hcarries
    obtain ⟨value, _, _, hpair, -⟩ := hfound.exists_of_mem hmem hserialize
    obtain ⟨feed, length, hfeed, hcount, hinteger⟩ :=
      hfound.exists_length hnames htaken hlent hmem hcarries hpair
    refine ⟨fun _ ↦ Option.isSome_of_eq_some hfeed, fun own hown ↦ ?_⟩
    obtain rfl : feed = own := Option.some.inj (hfeed.symm.trans hown)
    exact ⟨value, length, hfound.find?_eq hnames hpair, hcount, hinteger⟩

/-- What is read has its type. -/
theorem isTyped {descriptor : Descriptor} (hcoherent : descriptor.Everywhere Coherent)
    (hcodec : descriptor.Everywhere fun inner ↦ inner.isCodec = false)
    (hsettled : descriptor.Settled) : descriptor.IsTyped := by
  induction descriptor using Descriptor.induction with
  | step descriptor ihelement ihfields =>
    obtain ⟨kind, byteOrder, hasFixedSize, minSize⟩ := descriptor
    cases kind with
    | scalar kind =>
      exact isTyped_scalar (.inl rfl) (fun _ ↦ rfl) rfl
        fun _ h ↦ .scalar (Value.exists_toRaw_iff.1 h)
    | boolean repr =>
      refine isTyped_scalar (.inr ⟨repr, rfl⟩) (fun _ ↦ rfl) rfl fun value h ↦ ?_
      obtain ⟨truth, rfl⟩ := Flavor.exists_encode_boolean_iff.1 h
      exact .boolean truth
    | enum repr type =>
      refine isTyped_scalar (.inr ⟨repr, rfl⟩) (fun _ ↦ rfl) rfl fun value h ↦ ?_
      obtain ⟨number, rfl, hfits⟩ := Flavor.exists_encode_enum_iff.1 h
      exact .enum hfits
    | bits content repr width container => exact isTyped_bits hcoherent.here.2
    | text encoding size => exact isTyped_text
    | list element size =>
      obtain ⟨helement, hlent⟩ := settled_list_iff.1 hsettled
      exact isTyped_list (lent_nil hlent) (ihelement element rfl (hcoherent.of_element rfl)
        (hcodec.of_element rfl) helement)
    | record name fields =>
      obtain ⟨hinside, htaken⟩ := settled_record_iff.1 hsettled
      exact isTyped_record hcoherent hcodec htaken fun field hmem hserialize ↦
        ihfields field hmem (hcoherent.of_field hmem) (hcodec.of_field hmem)
          (hinside field hmem hserialize)
    | custom codec context => cases hcodec.here

end Descriptor

/-! ## Schemas -/

namespace Schema

variable {layout : Layout} {schema : Schema} {data rest : List UInt8}

/-- A value that has been read, from whatever bytes, has the type of its schema, and what is not on
the wire is empty. -/
theorem typed_of_deserialize (h : ofLayout layout = .ok schema) (hcodec : ¬ layout.UsesCodec)
    (hread : schema.deserialize data = (.ok value, rest)) :
    Descriptor.Typed FieldDescriptor.serialize true schema.descriptor value := by
  obtain ⟨hdescribe, hplan⟩ := ofLayout_eq_ok h
  obtain ⟨⟨hsettled, hlent⟩, hroot, -, -⟩ := Plan.ofDescriptor_eq_ok_iff.1 hplan
  obtain ⟨next, hdecode, -⟩ := exists_decode_of_deserialize hroot hread
  exact (Descriptor.isTyped (Layout.describe_coherent hdescribe)
    (Layout.everywhere_isCodec_eq_false hdescribe hcodec) hsettled _ _ _ _ _
    (Descriptor.lent_nil hlent) hdecode).2

end Schema

/-- A count, as many bytes as are counted, and three slots that are not on the wire. -/
def Layout.tray : Layout where
  name := "Tray"
  fields := [
    { name := "count", order := some 0, shape := .scalar (.integer .u8), lengthOf := some "items" },
    { name := "items", order := some 1, shape := .list ⟨.scalar (.integer .u8), none⟩
      tag := some (.list { lengthKey := some "items" }) },
    { name := "spare", order := some 2, shape := .list ⟨.scalar (.integer .u8), none⟩
      tag := some (.list { fixedLength := some 3 }), serialize := false }]

/-- The descriptor of a count, the bytes that are counted and three slots. -/
def Descriptor.tray : Descriptor where
  kind := .record "Tray" [
    ⟨"count", 0, .ofFixed (.scalar (.integer .u8)) .little 1, true, some "items", false⟩,
    ⟨"items", 1, ⟨.list (.ofFixed (.scalar (.integer .u8)) .little 1) (.keyed "items"), .little,
      false, 0⟩, true, none, false⟩,
    ⟨"spare", 2, ⟨.list (.ofFixed (.scalar (.integer .u8)) .little 1) (.fixed 3), .little,
      true, 3⟩, false, none, false⟩]
  byteOrder := .little
  hasFixedSize := false
  minSize := 1

theorem Layout.describe_tray : Layout.tray.describe = .ok Descriptor.tray := by cbv

theorem Layout.not_usesCodec_tray : ¬ tray.UsesCodec := by decide

/-- One byte that is counted, and no slots. -/
def Value.tray : Value :=
  .record [("count", .integer .u8 1), ("items", .list [.integer .u8 7]), ("spare", .list [])]

namespace Schema

/-- The schema of a count, the bytes that are counted and three slots. -/
def tray : Schema where
  name := "Tray"
  descriptor := .tray
  plan := {
    root := {
      name := "Tray"
      fields := [
        ⟨"count", .scalar (.integer .u8) false .native, some "items", some ⟨["items"], .elements⟩,
          false⟩,
        ⟨"items", .list (.scalar (.integer .u8) false .native) (.keyed ⟨"items", 0⟩)
          (some (.zero (.integer .u8))), none, none, false⟩]
      skipped := [("spare", .list [])] }
    hasFixedSize := false
    minSize := 1 }

theorem ofLayout_tray : ofLayout .tray = .ok .tray := by
  rw [ofLayout, Layout.describe_tray]
  rfl

theorem tray_typed : tray.deserialize [1, 7] = (.ok .tray, []) ∧
    Descriptor.Typed FieldDescriptor.serialize true .tray .tray := by
  have hread : tray.deserialize [1, 7] = (.ok .tray, []) := rfl
  exact ⟨hread, typed_of_deserialize ofLayout_tray Layout.not_usesCodec_tray hread⟩

/-- Three slots that are not on the wire are not filled when they are read. -/
theorem not_typed_tray : ofLayout .tray = .ok .tray ∧ ¬ Layout.tray.UsesCodec ∧
    tray.deserialize [1, 7] = (.ok .tray, []) ∧
    ¬ Descriptor.Typed (fun _ ↦ true) true .tray .tray := by
  refine ⟨ofLayout_tray, Layout.not_usesCodec_tray, rfl, ?_⟩
  rintro (_ | _ | _ | _ | _ | _ | _ | ⟨-, heach, -⟩)
  have hspare := heach _ (.tail _ (.tail _ (.head _))) (.list []) rfl
  cases hspare with
  | list keeps => cases keeps

end Schema

end WireFormat
