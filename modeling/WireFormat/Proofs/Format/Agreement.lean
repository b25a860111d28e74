import WireFormat.Proofs.Format.Encode
import WireFormat.Proofs.Format.RoundTrip

/-!
# What the bytes of a value depend on

Much of a value never reaches the wire: a field that carries a length is written with the length of
what takes it, a field that is not on the wire is passed over, and members that no field asks for
are not even looked at.  Two values that agree on the rest are written to the same bytes, or turned
down with the same error.

* `Descriptor.Alike` — two values that agree on all that a descriptor puts on the wire;
* `Descriptor.Alike.measured_eq` — a length field measures the same in both;
* `Descriptor.Alike.writesSame` — an operation writes both in the same way;
* `Schema.serialize_eq_of_alike` — so does a schema.
-/

namespace WireFormat

/-! ## Values that agree on the wire -/

section Rel

variable {α β : Type} {r r' : α → β → Prop}

theorem rel_imp (himp : ∀ a b, r a b → r' a b) {first : Option α} {second : Option β}
    (h : Option.Rel r first second) : Option.Rel r' first second := by
  cases h with
  | none => exact .none
  | some h => exact .some (himp _ _ h)

theorem rel_of_forall {r : α → α → Prop} (h : ∀ a, r a a) (found : Option α) :
    Option.Rel r found found := by
  cases found with
  | none => exact .none
  | some a => exact .some (h a)

end Rel

mutual

/-- Two values agree on all that a descriptor puts on the wire. -/
def Descriptor.Alike : Descriptor → Value → Value → Prop
  | ⟨kind, _, _, _⟩, value, value' => kind.Alike value value'

/-- Two values agree on all that a kind puts on the wire.  Without bits that is nothing. -/
def DescriptorKind.Alike : DescriptorKind → Value → Value → Prop
  | .bits _ _ width _, value, value' => width = 0 ∨ value = value'
  | .list element _, .list items, .list items' => List.Forall₂ element.Alike items items'
  | .record _ fields, .record members, .record members' =>
    FieldDescriptor.AllAlike members members' fields
  | _, value, value' => value = value'

/-- The members of two records agree on all that some fields put on the wire.  A field that carries
a length does not get it from the member of its name. -/
def FieldDescriptor.AllAlike (members members' : Members) : List FieldDescriptor → Prop
  | [] => True
  | ⟨name, _, descriptor, serialize, lengthOf, _⟩ :: rest =>
    (serialize → lengthOf = none →
      Option.Rel descriptor.Alike (members.find? name) (members'.find? name)) ∧
    FieldDescriptor.AllAlike members members' rest

end

namespace FieldDescriptor

theorem allAlike_iff {members members' : Members} {fields : List FieldDescriptor} :
    AllAlike members members' fields ↔
      ∀ field ∈ fields, field.serialize → field.lengthOf = none →
        Option.Rel field.descriptor.Alike (members.find? field.name)
          (members'.find? field.name) := by
  induction fields with
  | nil =>
    rw [AllAlike]
    simp
  | cons field rest ih =>
    rw [List.forall_mem_cons, ← ih]
    cases field
    rfl

end FieldDescriptor

namespace Descriptor

variable {byteOrder : ByteOrder} {hasFixedSize : Bool} {minSize : UInt64} {value value' : Value}

theorem Alike.eq_or_lists {element : Descriptor} {size : SizePolicy String}
    (h : Alike ⟨.list element size, byteOrder, hasFixedSize, minSize⟩ value value') :
    value = value' ∨ ∃ items items', value = .list items ∧ value' = .list items' ∧
      List.Forall₂ element.Alike items items' := by
  cases value with
  | list items =>
    cases value' with
    | list items' => exact .inr ⟨items, items', rfl, rfl, h⟩
    | _ => exact .inl h
  | _ => exact .inl h

theorem Alike.eq_or_records {name : String} {fields : List FieldDescriptor}
    (h : Alike ⟨.record name fields, byteOrder, hasFixedSize, minSize⟩ value value') :
    value = value' ∨ ∃ members members', value = .record members ∧ value' = .record members' ∧
      FieldDescriptor.AllAlike members members' fields := by
  cases value with
  | record members =>
    cases value' with
    | record members' => exact .inr ⟨members, members', rfl, rfl, h⟩
    | _ => exact .inl h
  | _ => exact .inl h

/-- Every value agrees with itself. -/
theorem Alike.refl (descriptor : Descriptor) (value : Value) : descriptor.Alike value value := by
  induction descriptor using Descriptor.induction generalizing value with
  | step descriptor ihelement ihfields =>
    obtain ⟨kind, byteOrder, hasFixedSize, minSize⟩ := descriptor
    cases kind with
    | bits content repr width container => exact .inr rfl
    | list element size =>
      cases value with
      | list items => exact List.forall₂_same.2 fun item _ ↦ ihelement element rfl item
      | _ => rfl
    | record name fields =>
      cases value with
      | record members =>
        refine FieldDescriptor.allAlike_iff.2 fun field hmem _ _ ↦ ?_
        exact rel_of_forall (ihfields field hmem) (Members.find? field.name members)
      | _ => rfl
    | _ => rfl

end Descriptor

/-! ## Lengths -/

namespace LengthFeed

/-- The length of what a path leads to, from the value at which the path starts; `depth` members
have been passed already. -/
def measuredAt (measure : Measure) (depth : Nat) : List String → Value → Except MeasureError Nat
  | [], value => (lengthOf measure value).mapError (depth, ·)
  | name :: rest, value => do
    let members ← value.members.mapError (depth, ·)
    match members.find? name with
    | none => throw (depth + 1, .missingField name)
    | some value => measuredAt measure (depth + 1) rest value

/-- A path is followed to its last record first, and then to the member there. -/
theorem measuredAt_append_singleton (measure : Measure) (depth : Nat) (path : List String)
    (target : String) (members : Members) :
    measuredAt measure depth (path ++ [target]) (.record members) = (do
      let members ← reach depth members path
      match members.find? target with
      | none => throw (depth + path.length + 1, .missingField target)
      | some value => (lengthOf measure value).mapError (depth + path.length + 1, ·)) := by
  induction path generalizing depth members with
  | nil => rfl
  | cons name path ih =>
    rw [List.cons_append, measuredAt, reach]
    change (match members.find? name with
      | none => _
      | some value => measuredAt measure (depth + 1) (path ++ [target]) value) = _
    cases members.find? name with
    | none => rfl
    | some value =>
      cases value with
      | record inner =>
        dsimp only
        rw [ih, List.length_cons, Nat.add_right_comm depth 1, Nat.add_assoc depth path.length 1]
      | _ =>
        -- No member can be reached in what is no record, be it the last one or not.
        cases path <;> rfl

/-- What a length field measures is the length of what its path leads to. -/
theorem measured_eq_measuredAt {feed : LengthFeed} (hpath : feed.path ≠ []) (members : Members) :
    feed.measured members = measuredAt feed.measure 0 feed.path (.record members) := by
  rw [← List.dropLast_append_getLast hpath, measuredAt_append_singleton, measured,
    List.getLast?_eq_some_getLast hpath]
  have hlength : 0 + feed.path.dropLast.length + 1 = feed.path.length := by
    have := List.length_pos_of_ne_nil hpath
    rw [List.length_dropLast]
    omega
  generalize 0 + feed.path.dropLast.length + 1 = depth at hlength ⊢
  subst hlength
  rfl

theorem lengthOf_list {items items' : List Value} (measure : Measure)
    (h : items.length = items'.length) :
    lengthOf measure (.list items) = lengthOf measure (.list items') := by
  cases measure with
  | elements => rw [lengthOf, lengthOf, h]
  | bytes encoding => rfl

end LengthFeed

namespace Descriptor

variable {descriptor consumer : Descriptor} {path : List FieldDescriptor} {value value' : Value}
  {members members' : Members}

/-- What carries a length takes none, and nothing inside it does. -/
theorem carriesLength_eq_false_of_reaches (h : descriptor.Reaches path consumer)
    (hkey : consumer.lengthKey?.isSome) : descriptor.kind.carriesLength = false := by
  obtain ⟨kind, byteOrder, hasFixedSize, minSize⟩ := descriptor
  cases h with
  | here =>
    cases kind with
    | scalar | bits => cases hkey
    | _ => rfl
  | field mem =>
    cases kind with
    | record => rfl
    | _ => cases mem

/-- A field on the way to what takes a length carries none. -/
theorem lengthOf_eq_none_of_reaches {field : FieldDescriptor} (hcoherent : descriptor.Coherent)
    (hmem : field ∈ descriptor.fields) (h : field.descriptor.Reaches path consumer)
    (hkey : consumer.lengthKey?.isSome) : field.lengthOf = none := by
  obtain ⟨kind, byteOrder, hasFixedSize, minSize⟩ := descriptor
  cases kind with
  | record name fields =>
    refine Option.not_isSome_iff_eq_none.1 fun hlength ↦ ?_
    have hcarries := hcoherent.1.carriers field hmem hlength
    rw [carriesLength_eq_false_of_reaches h hkey] at hcarries
    cases hcarries
  | _ => cases hmem

/-- The way to what takes a length leads to the same length, or to the same error. -/
theorem Alike.measuredAt_eq (hcoherent : descriptor.Everywhere Coherent)
    (hreaches : descriptor.Reaches path consumer) (hkey : consumer.lengthKey?.isSome)
    (h : descriptor.Alike value value') (measure : Measure) (depth : Nat) :
    LengthFeed.measuredAt measure depth (FieldDescriptor.names path) value =
      LengthFeed.measuredAt measure depth (FieldDescriptor.names path) value' := by
  induction hreaches generalizing value value' depth with
  | here descriptor =>
    obtain ⟨kind, byteOrder, hasFixedSize, minSize⟩ := descriptor
    cases kind with
    | text encoding size =>
      obtain rfl : value = value' := h
      rfl
    | list element size =>
      obtain rfl | ⟨items, items', rfl, rfl, hitems⟩ := h.eq_or_lists
      · rfl
      · exact congrArg (Except.mapError _) (LengthFeed.lengthOf_list measure hitems.length_eq)
    | _ => cases hkey
  | @field descriptor consumer field path mem serialize rest ih =>
    obtain ⟨kind, byteOrder, hasFixedSize, minSize⟩ := descriptor
    cases kind with
    | record name fields =>
      obtain rfl | ⟨members, members', rfl, rfl, hmembers⟩ := h.eq_or_records
      · rfl
      · have hmember := FieldDescriptor.allAlike_iff.1 hmembers field mem serialize
          (lengthOf_eq_none_of_reaches hcoherent.here mem rest hkey)
        rw [FieldDescriptor.names, List.map_cons, LengthFeed.measuredAt, LengthFeed.measuredAt]
        change (match Members.find? field.name members with | none => _ | some value => _) =
          (match Members.find? field.name members' with | none => _ | some value => _)
        generalize Members.find? field.name members = found at hmember ⊢
        generalize Members.find? field.name members' = found' at hmember ⊢
        cases hmember with
        | none => rfl
        | some halike => exact ih (hcoherent.of_field mem) hkey halike (depth + 1)
    | _ => cases mem

/-- A length field measures the same in two records that agree, or fails with the same error. -/
theorem Alike.measured_eq (hcoherent : descriptor.Everywhere Coherent)
    (h : descriptor.Alike (.record members) (.record members')) {key : String}
    {feed : LengthFeed} (hfeed : feedOf descriptor.demands key = some feed)
    (hpath : feed.path ≠ []) : feed.measured members = feed.measured members' := by
  obtain ⟨demand, hfind, rfl⟩ := Option.map_eq_some_iff.1 hfeed
  obtain ⟨path, consumer, hreaches, hkey, -, hchain⟩ :=
    mem_demands_iff.1 (List.mem_of_find?_eq_some hfind)
  rw [LengthFeed.measured_eq_measuredAt hpath, LengthFeed.measured_eq_measuredAt hpath]
  have hnames : demand.feed.path = FieldDescriptor.names path := by
    rw [Demand.feed, Demand.path, hchain, path_enclosures]
  rw [hnames]
  exact h.measuredAt_eq hcoherent hreaches (by rw [hkey]; rfl) _ 0

end Descriptor

/-! ## Items and fields -/

theorem Operation.forItems_eq_of_forall₂ {action : Nat → Value → WriteM Unit}
    {items items' : List Value} (position : Nat)
    (h : List.Forall₂ (fun item item' ↦ ∀ position, action position item = action position item')
      items items') : forItems action position items = forItems action position items' := by
  induction h generalizing position with
  | nil => rfl
  | cons hitem _ ih => rw [forItems, forItems, hitem, ih]

/-- How two values are written in the same way, wherever they are: a traversal only says where. -/
def Descriptor.WritesSame (descriptor : Descriptor) (value value' : Value) : Prop :=
  ∀ (chain : List Enclosure) (traversal traversal' : Traversal Members),
    traversal.steps = traversal'.steps →
      (descriptor.operation chain).encode traversal value =
        (descriptor.operation chain).encode traversal' value'

namespace FieldDescriptor

variable {typeName : String} {fields rest : List FieldDescriptor} {chain : List Enclosure}
  {members members' : Members} {traversal traversal' : Traversal Members}

/-- The fields of two records that agree are written in the same way. -/
theorem encodeAll_eq_of_forall
    (hmembers : ∀ field ∈ rest, field.serialize → field.lengthOf = none →
      Option.Rel field.descriptor.WritesSame (members.find? field.name)
        (members'.find? field.name))
    (hmeasured : ∀ field ∈ rest, field.serialize → ∀ key, field.lengthOf = some key →
      ∃ feed, feedOf (demandsAll typeName fields fields) key = some feed ∧
        feed.measured members = feed.measured members')
    (hsteps : traversal.steps = traversal'.steps) :
    FieldPlan.encodeAll traversal members
      ((rest.filter FieldDescriptor.serialize).map (plan typeName fields chain)) =
    FieldPlan.encodeAll traversal' members'
      ((rest.filter FieldDescriptor.serialize).map (plan typeName fields chain)) := by
  induction rest with
  | nil => rfl
  | cons field rest ih =>
    obtain ⟨hmember, hmembers⟩ := List.forall_mem_cons.1 hmembers
    obtain ⟨hlength, hmeasured⟩ := List.forall_mem_cons.1 hmeasured
    cases hserialize : field.serialize with
    | false =>
      rw [List.filter_cons_of_neg (by simp [hserialize])]
      exact ih hmembers hmeasured
    | true =>
      rw [List.filter_cons_of_pos hserialize, List.map_cons, plan, FieldPlan.encodeAll,
        FieldPlan.encodeAll]
      have henter : (traversal.enter field.name).steps = (traversal'.enter field.name).steps :=
        congrArg (List.cons _) hsteps
      have hpath : (traversal.enter field.name).path = (traversal'.enter field.name).path :=
        congrArg List.reverse henter
      have hsibling : ∀ names, (traversal.enter field.name).siblingPath names =
          (traversal'.enter field.name).siblingPath names :=
        fun names ↦ congrArg (fun steps ↦ steps.tail.reverse ++ names.map Segment.member) henter
      rw [ih hmembers hmeasured, hpath]
      dsimp only
      cases hown : field.lengthOf with
      | none =>
        rw [Option.bind_none]
        have hmember := hmember hserialize hown
        generalize members.find? field.name = found at hmember ⊢
        generalize members'.find? field.name = found' at hmember ⊢
        cases hmember with
        | none => rfl
        | some hsame =>
          dsimp only
          rw [hsame _ _ _ henter]
      | some key =>
        obtain ⟨feed, hfeed, hequal⟩ := hlength hserialize key hown
        rw [Option.bind_some, hfeed]
        dsimp only
        rw [hequal]
        simp only [hsibling]

end FieldDescriptor

/-! ## Descriptors -/

namespace Descriptor

variable {descriptor : Descriptor} {value value' : Value}

/-- Two lists whose items are written in the same way are so themselves.  What is written into free
slots only depends on how many items there are. -/
theorem writesSame_list {element : Descriptor} {size : SizePolicy String} {byteOrder : ByteOrder}
    {hasFixedSize : Bool} {minSize : UInt64} {items items' : List Value}
    (hdefault : ∀ value, element.WritesSame value value)
    (hitems : List.Forall₂ element.WritesSame items items') :
    WritesSame ⟨.list element size, byteOrder, hasFixedSize, minSize⟩ (.list items)
      (.list items') := by
  intro chain traversal traversal' hsteps
  change Operation.encode traversal (.list items) (.list ..) =
    Operation.encode traversal' (.list items') (.list ..)
  rw [Operation.encode, Operation.encode]
  simp only [pure_bind]
  rw [hitems.length_eq]
  have hinner : ∀ position,
      (traversal.enterIndex position).steps = (traversal'.enterIndex position).steps :=
    fun position ↦ congrArg (List.cons _) hsteps
  have hplace : ∀ position,
      (traversal.enterIndex position).path = (traversal'.enterIndex position).path :=
    fun position ↦ congrArg List.reverse (hinner position)
  have haction : ∀ position item, WriteM.locate (traversal.enterIndex position).path
      ((element.operation []).encode (traversal.enterIndex position) item) =
        WriteM.locate (traversal'.enterIndex position).path
          ((element.operation []).encode (traversal'.enterIndex position) item) :=
    fun position item ↦ by rw [hplace, hdefault item [] _ _ (hinner position)]
  simp only [haction]
  rw [Operation.forItems_eq_of_forall₂ 0
    (hitems.imp fun item item' hsame position ↦ by rw [hsame [] _ _ rfl])]

/-- Two records whose members on the wire are written in the same way are so themselves. -/
theorem writesSame_record {name : String} {fields : List FieldDescriptor} {byteOrder : ByteOrder}
    {hasFixedSize : Bool} {minSize : UInt64} {members members' : Members}
    (hnames : (fields.map FieldDescriptor.name).Nodup)
    (hmembers : ∀ field ∈ fields, field.serialize → field.lengthOf = none →
      Option.Rel field.descriptor.WritesSame (members.find? field.name)
        (members'.find? field.name))
    (hmeasured : ∀ field ∈ fields, field.serialize → ∀ key, field.lengthOf = some key →
      ∃ feed, feedOf (FieldDescriptor.demandsAll name fields fields) key = some feed ∧
        feed.measured members = feed.measured members') :
    WritesSame ⟨.record name fields, byteOrder, hasFixedSize, minSize⟩ (.record members)
      (.record members') := by
  intro chain traversal traversal' hsteps
  rw [operation_record hnames, Operation.encode, Operation.encode]
  change RecordPlan.encode traversal members _ = RecordPlan.encode traversal' members' _
  rw [RecordPlan.encode, RecordPlan.encode, FieldDescriptor.encodeAll_eq_of_forall hmembers
    hmeasured (show (traversal.push name members).steps = (traversal'.push name members').steps
      from hsteps)]

/-- Values that agree are written in the same way, wherever they are. -/
theorem Alike.writesSame (hcoherent : descriptor.Everywhere Coherent)
    (hcodec : descriptor.Everywhere fun inner ↦ inner.isCodec = false)
    (hsettled : descriptor.Settled) (h : descriptor.Alike value value') :
    descriptor.WritesSame value value' := by
  induction descriptor using Descriptor.induction generalizing value value' with
  | step descriptor ihelement ihfields =>
    obtain ⟨kind, byteOrder, hasFixedSize, minSize⟩ := descriptor
    cases kind with
    | scalar kind | boolean repr | enum repr type | text encoding size =>
      obtain rfl : value = value' := h
      exact fun _ _ _ _ ↦ rfl
    | bits content repr width container =>
      intro chain traversal traversal' _
      change Operation.encode traversal value (.bits ..) =
        Operation.encode traversal' value' (.bits ..)
      rw [Operation.encode, Operation.encode]
      obtain hwidth | rfl : width = 0 ∨ value = value' := h
      · rw [if_pos hwidth, if_pos hwidth]
      · rfl
    | list element size =>
      have hwrites : ∀ item item', element.Alike item item' → element.WritesSame item item' :=
        fun _ _ ↦ ihelement element rfl (hcoherent.of_element rfl) (hcodec.of_element rfl)
          (settled_list_iff.1 hsettled).1
      have hlists : ∀ {items items'}, List.Forall₂ element.Alike items items' →
          WritesSame ⟨.list element size, byteOrder, hasFixedSize, minSize⟩ (.list items)
            (.list items') := fun hitems ↦
        writesSame_list (fun item ↦ hwrites item item (.refl element item)) (hitems.imp hwrites)
      obtain rfl | ⟨items, items', rfl, rfl, hitems⟩ := h.eq_or_lists
      · cases value with
        | list items => exact hlists h
        | _ => exact fun _ _ _ _ ↦ rfl
      · exact hlists hitems
    | record name fields =>
      obtain ⟨hinside, -⟩ := settled_record_iff.1 hsettled
      have hown := hcoherent.here.1
      have hrecords : ∀ {members members'}, FieldDescriptor.AllAlike members members' fields →
          WritesSame ⟨.record name fields, byteOrder, hasFixedSize, minSize⟩ (.record members)
            (.record members') := by
        intro members members' hmembers
        refine writesSame_record hown.names (fun field hmem hserialize hlength ↦ ?_)
          fun field hmem hserialize key hkey ↦ ?_
        · exact rel_imp (fun _ _ ↦ ihfields field hmem (hcoherent.of_field hmem)
            (hcodec.of_field hmem) (hinside field hmem hserialize))
            (FieldDescriptor.allAlike_iff.1 hmembers field hmem hserialize hlength)
        · obtain ⟨feed, hfeed, hpath⟩ := hsettled.exists_feedOf hmem hserialize hkey
          exact ⟨feed, hfeed, Alike.measured_eq hcoherent hmembers hfeed hpath⟩
      obtain rfl | ⟨members, members', rfl, rfl, hmembers⟩ := h.eq_or_records
      · cases value with
        | record members => exact hrecords h
        | _ => exact fun _ _ _ _ ↦ rfl
      · exact hrecords hmembers
    | custom codec context => cases hcodec.here

end Descriptor

/-! ## Schemas -/

namespace Schema

variable {layout : Layout} {schema : Schema} {value value' : Value}

/-- Values that agree on all that a schema puts on the wire are written to the same bytes, or turned
down with the same error at the same field. -/
theorem serialize_eq_of_alike (h : ofLayout layout = .ok schema) (hcodec : ¬ layout.UsesCodec)
    (halike : schema.descriptor.Alike value value') (sink : Sink) :
    schema.serialize value sink = schema.serialize value' sink := by
  obtain ⟨hdescribe, hplan⟩ := ofLayout_eq_ok h
  obtain ⟨⟨hsettled, -⟩, hroot, -, -⟩ := Plan.ofDescriptor_eq_ok_iff.1 hplan
  obtain ⟨fields, hkind⟩ := Layout.describeWithin_kind hdescribe
  have hsame := halike.writesSame (Layout.describe_coherent hdescribe)
    (Layout.everywhere_isCodec_eq_false hdescribe hcodec) hsettled [] {} {} rfl
  rw [hroot, Operation.encode, Operation.encode] at hsame
  generalize schema.descriptor = descriptor at hkind halike
  obtain ⟨kind, byteOrder, hasFixedSize, minSize⟩ := descriptor
  obtain rfl := hkind
  obtain rfl | ⟨members, members', rfl, rfl, -⟩ := halike.eq_or_records
  · rfl
  · change schema.plan.root.encode {} members = schema.plan.root.encode {} members' at hsame
    have hmembers : ∀ members, rootMembers (.record members) = .ok members := fun _ ↦ rfl
    rw [serialize, serialize, hmembers, hmembers]
    dsimp only
    rw [write, write, hsame]

end Schema

/-- Two bytes, with a text for their count and a member that the layout does not know. -/
def Value.countedOddly : Value :=
  .record [("count", .text "many"), ("items", .list [.integer .u8 3, .integer .u8 5]),
    ("label", .bool true)]

theorem Descriptor.alike_counted (count : BitVec 8) :
    Descriptor.counted.Alike (.counted count) .countedOddly :=
  ⟨nofun, fun _ _ ↦ .some (.refl _ _), trivial⟩

/-- Neither the count nor the other member makes a difference. -/
theorem Schema.counted_serialize_oddly :
    Schema.counted.serialize (.counted 9) {} = Schema.counted.serialize .countedOddly {} ∧
      Schema.counted.serialize .countedOddly {} = (.ok 3, ⟨#[2, 3, 5], none⟩) :=
  ⟨Schema.serialize_eq_of_alike Schema.ofLayout_counted Layout.not_usesCodec_counted
    (Descriptor.alike_counted 9) {}, rfl⟩

end WireFormat
