import WireFormat.Proofs.Layout.Coherent
import WireFormat.Proofs.Length.Ways

/-!
# Length keys are matched exactly if they can be

* `Plan.ofDescriptor_eq_ok_iff` — when a descriptor becomes a plan, and which;
* `Descriptor.Reaches.follow?_operation` — the ways of a descriptor are there in its operation;
* `Layout.compiles_iff_lengthsMatch` — a described layout becomes a plan exactly if its lengths
  match, and then those who carry lengths and those who take them know of each other.
-/

namespace WireFormat

/-! ## Plans -/

theorem RecordPlan.ofFields_eq_ok_iff {name : String} {fields : List FieldDescriptor}
    (byteOrder : ByteOrder) (hasFixedSize : Bool) (minSize : UInt64) {root : RecordPlan} :
    RecordPlan.ofFields name fields = .ok root ↔ ∃ scopes,
      Descriptor.compile [] ⟨.record name fields, byteOrder, hasFixedSize, minSize⟩ =
        .ok (.record root, scopes) := by
  simp only [ofFields, Descriptor.compile, DescriptorKind.compile, bind_eq_ok_iff,
    mapError_eq_ok_iff, pure_eq_ok_iff, Prod.mk.injEq, Operation.record.injEq]
  constructor
  · rintro ⟨⟨plans, inner⟩, hall, hassemble⟩
    exact ⟨inner.tail, ⟨plans, inner⟩, hall, root, hassemble, rfl, rfl⟩
  · rintro ⟨_, ⟨plans, inner⟩, hall, _, hassemble, rfl, rfl⟩
    exact ⟨⟨plans, inner⟩, hall, hassemble⟩

namespace Plan

/-- When a descriptor becomes a plan, and which. -/
theorem ofDescriptor_eq_ok_iff {descriptor : Descriptor} {plan : Plan} :
    ofDescriptor descriptor = .ok plan ↔
      (descriptor.Settled ∧ ∀ demand ∈ descriptor.demands, Lends demand.key demand.chain) ∧
      descriptor.operation [] = .record plan.root ∧ plan.hasFixedSize = descriptor.hasFixedSize ∧
      plan.minSize = descriptor.minSize := by
  have hcompile := fun result ↦ descriptor.compilesAs [] [] result rfl
  simp only [List.map_nil, List.append_nil, Binder.after] at hcompile
  obtain ⟨kind, byteOrder, hasFixedSize, minSize⟩ := descriptor
  obtain ⟨root, fixed, least⟩ := plan
  cases kind with
  | record name fields =>
    simp only [ofDescriptor, bind_eq_ok_iff, pure_eq_ok_iff, mk.injEq,
      RecordPlan.ofFields_eq_ok_iff byteOrder hasFixedSize minSize, hcompile, Prod.mk.injEq]
    constructor
    · rintro ⟨_, ⟨_, hsettled, hlent, -, hoperation, rfl⟩, rfl, rfl, rfl⟩
      exact ⟨⟨hsettled, hlent⟩, hoperation.symm, rfl, rfl⟩
    · rintro ⟨⟨hsettled, hlent⟩, hoperation, rfl, rfl⟩
      exact ⟨root, ⟨_, hsettled, hlent, by simp [Binder.Fresh], hoperation.symm, rfl⟩, rfl, rfl, rfl⟩
  | _ => simp [ofDescriptor, Descriptor.operation, DescriptorKind.operation, Operation.ofScalar]

end Plan

/-- The operation of a record is that of a record. -/
theorem Descriptor.exists_operation_eq_record {descriptor : Descriptor} {name : String}
    {fields : List FieldDescriptor} (h : descriptor.kind = .record name fields)
    (chain : List Enclosure) : ∃ plan, descriptor.operation chain = .record plan := by
  obtain ⟨kind, byteOrder, hasFixedSize, minSize⟩ := descriptor
  cases h
  exact ⟨_, rfl⟩

/-! ## The fields of a plan -/

section Fields

variable {typeName : String} {fields rest : List FieldDescriptor} {field : FieldDescriptor}
  {chain : List Enclosure} {feeds : String → Option LengthFeed}

theorem FieldDescriptor.find?_operations (hnames : (rest.map FieldDescriptor.name).Nodup)
    (hmem : field ∈ rest) (hserialize : field.serialize) :
    (operations typeName fields chain rest).find? (fun plan ↦ plan.name == field.name) =
      some ⟨field.name, field.descriptor.operation (⟨typeName, fields, field⟩ :: chain),
        field.lengthOf, none, field.padAfter⟩ := by
  induction rest with
  | nil => cases hmem
  | cons first rest ih =>
    rw [List.map_cons, List.nodup_cons] at hnames
    rw [operations_cons]
    rcases List.mem_cons.1 hmem with rfl | hmem
    · simp [hserialize]
    · have hne : first.name ≠ field.name := fun h ↦
        hnames.1 (h ▸ List.mem_map_of_mem hmem)
      split
      · simp [hne, ih hnames.2 hmem]
      · exact ih hnames.2 hmem

theorem FieldDescriptor.mem_operations_iff {plan : FieldPlan} :
    plan ∈ operations typeName fields chain rest ↔ ∃ field ∈ rest, field.serialize ∧
      plan = ⟨field.name, field.descriptor.operation (⟨typeName, fields, field⟩ :: chain),
        field.lengthOf, none, field.padAfter⟩ := by
  induction rest with
  | nil => simp [operations]
  | cons first rest ih =>
    rw [operations_cons]
    cases hserialize : first.serialize <;> simp [hserialize, ih]

theorem Carrier.find?_ofFields_of_notMem {name : String}
    (h : name ∉ fields.map FieldDescriptor.name) :
    (ofFields fields feeds).find? (fun carrier ↦ carrier.field == name) = none := by
  rw [List.find?_eq_none]
  intro carrier hmem
  obtain ⟨field, hfield, hcarrier⟩ := List.mem_filterMap.1 hmem
  split at hcarrier
  · obtain ⟨key, -, rfl⟩ := Option.map_eq_some_iff.1 hcarrier
    simp only [beq_iff_eq]
    rintro rfl
    exact h (List.mem_map_of_mem hfield)
  · cases hcarrier

/-- A field has the feed of the length that it carries, and none if it carries none. -/
theorem Carrier.find?_ofFields (hnames : (fields.map FieldDescriptor.name).Nodup)
    (hmem : field ∈ fields) (hserialize : field.serialize) :
    ((ofFields fields feeds).find? fun carrier ↦ carrier.field == field.name).bind Carrier.feed =
      field.lengthOf.bind feeds := by
  induction fields with
  | nil => cases hmem
  | cons first rest ih =>
    rw [List.map_cons, List.nodup_cons] at hnames
    rw [ofFields, List.filterMap_cons]
    rcases List.mem_cons.1 hmem with rfl | hmem
    · rw [if_pos hserialize]
      cases field.lengthOf with
      | none =>
        change (List.find? _ (ofFields rest feeds)).bind _ = _
        rw [find?_ofFields_of_notMem hnames.1]
        rfl
      | some key => simp
    · have hne : first.name ≠ field.name := fun h ↦
        hnames.1 (h ▸ List.mem_map_of_mem hmem)
      split
      · exact ih hnames.2 hmem
      · next carrier hcarrier =>
        split at hcarrier
        · obtain ⟨key, -, rfl⟩ := Option.map_eq_some_iff.1 hcarrier
          rw [List.find?_cons_of_neg (by simpa using hne)]
          exact ih hnames.2 hmem
        · cases hcarrier

/-- The plan of a field on the wire. -/
def FieldDescriptor.plan (typeName : String) (fields : List FieldDescriptor)
    (chain : List Enclosure) (field : FieldDescriptor) : FieldPlan :=
  ⟨field.name, field.descriptor.operation (⟨typeName, fields, field⟩ :: chain), field.lengthOf,
    field.lengthOf.bind (feedOf (demandsAll typeName fields fields)), field.padAfter⟩

/-- The plan of a record has the plans of its fields on the wire. -/
theorem FieldPlan.addFeeds_operations (hnames : (fields.map FieldDescriptor.name).Nodup)
    (hrest : ∀ field ∈ rest, field ∈ fields) :
    addFeeds (Carrier.ofFields fields
      (feedOf (FieldDescriptor.demandsAll typeName fields fields)))
      (FieldDescriptor.operations typeName fields chain rest) =
      (rest.filter FieldDescriptor.serialize).map (FieldDescriptor.plan typeName fields chain) := by
  induction rest with
  | nil => rfl
  | cons field rest ih =>
    obtain ⟨hfield, hrest⟩ := List.forall_mem_cons.1 hrest
    rw [FieldDescriptor.operations_cons, List.filter_cons]
    split
    · next hserialize =>
      rw [List.map_cons, ← ih hrest, addFeeds, List.map_cons,
        Carrier.find?_ofFields hnames hfield hserialize]
      rfl
    · exact ih hrest

/-- The operation of a record has the plans of its fields on the wire. -/
theorem Descriptor.operation_record (hnames : (fields.map FieldDescriptor.name).Nodup)
    (byteOrder : ByteOrder) (hasFixedSize : Bool) (minSize : UInt64) (chain : List Enclosure) :
    Descriptor.operation chain ⟨.record typeName fields, byteOrder, hasFixedSize, minSize⟩ =
      .record ⟨typeName, (fields.filter FieldDescriptor.serialize).map
        (FieldDescriptor.plan typeName fields chain), FieldDescriptor.skipped fields⟩ := by
  rw [← FieldPlan.addFeeds_operations hnames fun _ ↦ id]
  rfl

end Fields

namespace Descriptor

variable {descriptor target : Descriptor} {path : List FieldDescriptor} {chain : List Enclosure}

/-- The fields on the wire of a record are the fields of its plan. -/
theorem exists_operation_eq_of_mem_fields {field : FieldDescriptor}
    (hmem : field ∈ descriptor.fields) (chain : List Enclosure) :
    ∃ plan : RecordPlan, descriptor.operation chain = .record plan ∧
      ((descriptor.fields.map FieldDescriptor.name).Nodup → field.serialize →
        plan.fields.find? (fun plan ↦ plan.name == field.name) =
          some ⟨field.name, field.descriptor.operation (descriptor.enclosure field :: chain),
            field.lengthOf, field.lengthOf.bind (feedOf descriptor.demands), field.padAfter⟩) := by
  obtain ⟨kind, byteOrder, hasFixedSize, minSize⟩ := descriptor
  cases kind with
  | record name fields =>
    refine ⟨_, rfl, fun hnames hserialize ↦ ?_⟩
    change (fields.map FieldDescriptor.name).Nodup at hnames
    change field ∈ fields at hmem
    simp only [FieldPlan.addFeeds, List.find?_map, Function.comp_def,
      FieldDescriptor.find?_operations hnames hmem hserialize, Option.map_some,
      Carrier.find?_ofFields hnames hmem hserialize]
    rfl
  | _ => cases hmem

/-- The ways of a descriptor are there in its operation. -/
theorem Reaches.follow?_operation (h : descriptor.Reaches path target)
    (hnames : descriptor.Everywhere fun inner ↦ (inner.fields.map FieldDescriptor.name).Nodup) :
    (descriptor.operation chain).follow? (FieldDescriptor.names path) =
      some (target.operation (descriptor.enclosures path ++ chain)) := by
  induction h generalizing chain with
  | here => rfl
  | @field descriptor target field path mem serialize _ ih =>
    obtain ⟨plan, hplan, hfind⟩ := exists_operation_eq_of_mem_fields mem chain
    rw [hplan, FieldDescriptor.names, List.map_cons, Operation.follow?,
      hfind hnames.here serialize, Option.bind_some]
    rw [enclosures, List.append_assoc]
    exact ih (hnames.of_field mem)

theorem Starts.enter?_operation {address : List (List FieldDescriptor)} {top : Descriptor}
    (h : descriptor.Starts address top)
    (hnames : descriptor.Everywhere fun inner ↦ (inner.fields.map FieldDescriptor.name).Nodup) :
    (descriptor.operation []).enter? (address.map FieldDescriptor.names) =
      some (top.operation []) := by
  induction h with
  | whole => rfl
  | @element descriptor list element top path address reaches mem _ ih =>
    have helement : ∀ chain, (list.operation chain).element? = some (element.operation []) := by
      obtain ⟨kind, byteOrder, hasFixedSize, minSize⟩ := list
      cases kind with
      | list =>
        cases mem
        exact fun _ ↦ rfl
      | _ => cases mem
    rw [List.map_cons, Operation.enter?, reaches.follow?_operation hnames, Option.bind_some,
      helement, Option.bind_some]
    exact ih ((hnames.of_reaches reaches).of_element mem)

theorem taken?_operation {key : String} (h : descriptor.lengthKey? = some key) :
    (descriptor.operation chain).taken? = some (descriptor.measure, .from chain key) := by
  obtain ⟨kind, byteOrder, hasFixedSize, minSize⟩ := descriptor
  cases kind with
  | list element size => cases size <;> cases h <;> rfl
  | text encoding size =>
    cases size with
    | nullTerminated => cases h
    | sized policy => cases policy <;> cases h <;> rfl
  | _ => cases h

/-- From a list or text, its length is as many records up as there are further fields on the way. -/
theorem Serves.from_eq {before after : List FieldDescriptor} {carrier member : FieldDescriptor}
    {consumer : Descriptor} {key : String}
    (h : descriptor.Serves before carrier (before ++ member :: after))
    (hreaches : descriptor.Reaches (before ++ member :: after) consumer)
    (hkey : consumer.lengthKey? = some key)
    (hlends : Lends key (descriptor.enclosures (before ++ member :: after))) :
    LengthSource.from (descriptor.enclosures (before ++ member :: after)) key =
      ⟨key, after.length⟩ := by
  obtain ⟨member', after', record, hpath, hbefore, inside, -, own, -⟩ :=
    h.only_carrier hreaches hkey hlends
  obtain ⟨rfl, rfl⟩ := List.cons.inj (List.append_cancel_left hpath)
  rw [enclosures_append_cons hbefore, LengthSource.from_eq (by simp [own]) inside,
    length_enclosures]

theorem path_enclosures (descriptor : Descriptor) (path : List FieldDescriptor) :
    ((descriptor.enclosures path).map fun enclosure ↦ enclosure.member.name).reverse =
      FieldDescriptor.names path := by
  have hmap := congrArg (List.map FieldDescriptor.name) (map_member_enclosures descriptor path)
  rw [List.map_map] at hmap
  change ((descriptor.enclosures path).map (FieldDescriptor.name ∘ Enclosure.member)).reverse = _
  rw [hmap, List.map_reverse, List.reverse_reverse, FieldDescriptor.names]

/-- A field measures the one list or text that takes its length. -/
theorem feedOf_demands_eq {key : String} {consumer : Descriptor}
    (hnames : descriptor.Everywhere fun inner ↦ (inner.fields.map FieldDescriptor.name).Nodup)
    (htaken : descriptor.demands.countP (fun demand ↦ demand.key == key) = 1)
    (hreaches : descriptor.Reaches path consumer) (hkey : consumer.lengthKey? = some key) :
    feedOf descriptor.demands key = some ⟨FieldDescriptor.names path, consumer.measure⟩ := by
  have hfeed : feedOf descriptor.demands key ≠ none := (feedOf_ne_none_iff _ _).2 (by omega)
  obtain ⟨demand, hfind⟩ : ∃ demand,
      descriptor.demands.find? (fun demand ↦ demand.key == key) = some demand :=
    Option.ne_none_iff_exists'.1 fun h ↦ hfeed (by rw [feedOf, h]; rfl)
  obtain ⟨path', consumer', hreaches', hkey', hmeasure, hchain⟩ :=
    mem_demands_iff.1 (List.mem_of_find?_eq_some hfind)
  have hdemand : demand.key = key := by simpa using List.find?_some hfind
  rw [hdemand] at hkey'
  obtain rfl := ((countP_demands_eq_one_iff hnames).1 htaken).unique ⟨_, hreaches, hkey⟩
    ⟨_, hreaches', hkey'⟩
  obtain rfl := hreaches.eq hreaches'
  have hpath : demand.path = FieldDescriptor.names path := by
    rw [Demand.path, hchain, path_enclosures]
  rw [feedOf, hfind, Option.map_some, Demand.feed, hpath, hmeasure]

end Descriptor

/-! ## Layouts -/

theorem FieldPlan.feed_eq_none {descriptor : Descriptor} {chain : List Enclosure}
    {record : RecordPlan} {field : FieldPlan} (h : descriptor.operation chain = .record record)
    (hnames : (descriptor.fields.map FieldDescriptor.name).Nodup)
    (hmem : field ∈ record.fields) (hlength : field.lengthOf = none) : field.feed = none := by
  obtain ⟨kind, byteOrder, hasFixedSize, minSize⟩ := descriptor
  cases kind with
  | record name fields =>
    cases h
    change (fields.map FieldDescriptor.name).Nodup at hnames
    obtain ⟨plan, hplan, rfl⟩ := List.mem_map.1 hmem
    obtain ⟨own, hown, hserialize, rfl⟩ := FieldDescriptor.mem_operations_iff.1 hplan
    dsimp only at hlength ⊢
    rw [Carrier.find?_ofFields hnames hown hserialize, hlength]
    rfl
  | _ => cases h

theorem Plan.matchesLengths {descriptor : Descriptor} {plan : Plan}
    (hnames : descriptor.Everywhere fun inner ↦ (inner.fields.map FieldDescriptor.name).Nodup)
    (h : Plan.ofDescriptor descriptor = .ok plan) : plan.MatchesLengths descriptor := by
  obtain ⟨hsettled, hroot, -, -⟩ := Plan.ofDescriptor_eq_ok_iff.1 h
  have hsettles := Descriptor.settled_and_lent_iff.1 hsettled
  constructor
  · intro address top hstarts
    rw [← hroot]
    exact ⟨_, hstarts.enter?_operation hnames⟩
  · intro address top start hstarts hstart before carrier member after hserves
    rw [← hroot, hstarts.enter?_operation hnames, Option.some.injEq] at hstart
    subst hstart
    have htop := hnames.of_starts hstarts
    have hserves' := hserves
    generalize hpath : before ++ member :: after = path at hserves
    obtain @⟨_, _, middle, consumer, key, here, mem, serialize, lengthOf, there, lengthKey⟩ :=
      hserves
    obtain ⟨rfl, rfl⟩ := List.cons.inj (List.append_cancel_left hpath)
    have hinner := here.reaches_of_append there
    have hmiddle := htop.of_reaches here
    have htaken := (hsettles address top hstarts).taken before middle here carrier mem key
      (FieldDescriptor.carries_iff.2 ⟨serialize, lengthOf⟩)
    have hlends := (hsettles address top hstarts).lent ⟨_, key, consumer.measure⟩
      (Descriptor.mem_demands_iff.2 ⟨_, consumer, there, lengthKey, rfl, rfl⟩)
    obtain ⟨record, hrecord, hfind⟩ := Descriptor.exists_operation_eq_of_mem_fields mem
      (top.enclosures before ++ [])
    refine ⟨record, _, ⟨FieldDescriptor.names (member :: after), consumer.measure⟩,
      consumer.operation (top.enclosures (before ++ member :: after)), key, ?_,
      hfind hmiddle.here serialize, lengthOf, ?_, rfl, ?_, ?_⟩
    · rw [here.follow?_operation htop, hrecord]
    · rw [lengthOf, Option.bind_some]
      exact Descriptor.feedOf_demands_eq hmiddle htaken hinner lengthKey
    · rw [← hrecord, hinner.follow?_operation hmiddle, Descriptor.enclosures_append here,
        List.append_nil]
    · rw [Descriptor.taken?_operation lengthKey, hserves'.from_eq there lengthKey hlends]
  · intro address top start hstarts hstart before middle hreaches record hrecord field hmem hlength
    rw [← hroot, hstarts.enter?_operation hnames, Option.some.injEq] at hstart
    subst hstart
    have htop := hnames.of_starts hstarts
    rw [hreaches.follow?_operation htop, Option.some.injEq] at hrecord
    exact FieldPlan.feed_eq_none hrecord (htop.of_reaches hreaches).here hmem hlength

/-- A described layout becomes a plan exactly if its lengths match.  In the plan, what carries a
length and what takes it know of each other. -/
theorem Layout.compiles_iff_lengthsMatch {layout : Layout} {descriptor : Descriptor}
    (h : layout.describe = .ok descriptor) :
    ((∃ plan, Plan.ofDescriptor descriptor = .ok plan) ↔ descriptor.LengthsMatch) ∧
      ∀ plan, Plan.ofDescriptor descriptor = .ok plan → plan.MatchesLengths descriptor := by
  have hnames := everywhere_nodup_names h
  refine ⟨?_, fun plan ↦ Plan.matchesLengths hnames⟩
  rw [Descriptor.lengthsMatch_iff hnames, ← Descriptor.settled_and_lent_iff]
  constructor
  · rintro ⟨plan, hplan⟩
    exact (Plan.ofDescriptor_eq_ok_iff.1 hplan).1
  · intro hsettled
    obtain ⟨fields, hkind⟩ := describeWithin_kind h
    obtain ⟨root, hroot⟩ := Descriptor.exists_operation_eq_record hkind []
    exact ⟨⟨root, _, _⟩, Plan.ofDescriptor_eq_ok_iff.2 ⟨hsettled, hroot, rfl, rfl⟩⟩

/-- A count and the bytes that it counts. -/
def Layout.counted : Layout where
  name := "Counted"
  fields := [
    { name := "count", order := some 0, shape := .scalar (.integer .u8), lengthOf := some "items" },
    { name := "items", order := some 1, shape := .list ⟨.scalar (.integer .u8), none⟩
      tag := some (.list { lengthKey := some "items" }) }]

/-- The descriptor of a count and the bytes that it counts. -/
def Descriptor.counted : Descriptor where
  kind := .record "Counted" [
    ⟨"count", 0, .ofFixed (.scalar (.integer .u8)) .little 1, true, some "items", false⟩,
    ⟨"items", 1, ⟨.list (.ofFixed (.scalar (.integer .u8)) .little 1) (.keyed "items"), .little,
      false, 0⟩, true, none, false⟩]
  byteOrder := .little
  hasFixedSize := false
  minSize := 1

theorem Layout.describe_counted : Layout.counted.describe = .ok Descriptor.counted := by cbv

theorem Descriptor.counted_lengthsMatch :
    Layout.counted.describe = .ok Descriptor.counted ∧ Descriptor.counted.LengthsMatch :=
  ⟨Layout.describe_counted,
    (Layout.compiles_iff_lengthsMatch Layout.describe_counted).1.1 ⟨_, rfl⟩⟩

end WireFormat
