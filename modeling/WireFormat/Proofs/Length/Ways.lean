import WireFormat.Proofs.Length.Matching
import WireFormat.Proofs.Length.Rules

/-!
# Demands and ways

A demand is a way from a record to a list or text with a length key.  This file goes from the lists
of demands that compiling works through to ways, where nothing is listed and nothing is counted.

* `Descriptor.mem_demands_iff` — the demands of a descriptor are its ways to such lists and texts;
* `Descriptor.countP_demands_eq_one_iff` — a length is asked for once if there is one way;
* `Descriptor.lends_iff` — a demand is answered if one field on the way carries the length, and that
  field comes early enough;
* `Descriptor.settled_and_lent_iff` — a descriptor settles if it does so wherever ways begin.
-/

namespace WireFormat

namespace Descriptor

variable {descriptor middle target : Descriptor} {path rest : List FieldDescriptor} {key : String}

/-! ## Ways and enclosures -/

/-- The name of a record type. -/
def typeName (descriptor : Descriptor) : String :=
  match descriptor.kind with
  | .record name _ => name
  | _ => ""

/-- The record with one of its fields. -/
def enclosure (descriptor : Descriptor) (member : FieldDescriptor) : Enclosure :=
  ⟨descriptor.typeName, descriptor.fields, member⟩

/-- The records on a way, innermost first. -/
def enclosures : Descriptor → List FieldDescriptor → List Enclosure
  | _, [] => []
  | descriptor, field :: path =>
    field.descriptor.enclosures path ++ [descriptor.enclosure field]

/-- What a length of the list or text counts. -/
def measure (descriptor : Descriptor) : Measure :=
  match descriptor.kind with
  | .text encoding _ => .bytes encoding
  | _ => .elements

@[simp] theorem length_enclosures (descriptor : Descriptor) (path : List FieldDescriptor) :
    (descriptor.enclosures path).length = path.length := by
  induction path generalizing descriptor with
  | nil => rfl
  | cons field path ih => simp [enclosures, ih]

theorem map_member_enclosures (descriptor : Descriptor) (path : List FieldDescriptor) :
    (descriptor.enclosures path).map Enclosure.member = path.reverse := by
  induction path generalizing descriptor with
  | nil => rfl
  | cons field path ih => simp [enclosures, enclosure, ih]

theorem enclosures_append (h : descriptor.Reaches path middle) :
    descriptor.enclosures (path ++ rest) =
      middle.enclosures rest ++ descriptor.enclosures path := by
  induction h with
  | here => simp [enclosures]
  | field _ _ _ ih => simp [enclosures, ih]

/-- The records on a way, seen from one of its fields. -/
theorem enclosures_append_cons {before after : List FieldDescriptor} {member : FieldDescriptor}
    {record : Descriptor} (h : descriptor.Reaches before record) :
    descriptor.enclosures (before ++ member :: after) =
      member.descriptor.enclosures after ++ record.enclosure member ::
        descriptor.enclosures before := by
  rw [enclosures_append h, enclosures, List.append_assoc, List.singleton_append]

/-- The records on a way are what its first parts lead to. -/
theorem enclosures_eq_append_cons (h : descriptor.Reaches path target) {inner outer : List Enclosure}
    {enclosure : Enclosure} (hsplit : descriptor.enclosures path = inner ++ enclosure :: outer) :
    ∃ before member after record, path = before ++ member :: after ∧
      descriptor.Reaches before record ∧ enclosure = record.enclosure member ∧
      outer = descriptor.enclosures before ∧ inner = member.descriptor.enclosures after := by
  induction h generalizing inner outer with
  | here => simp [enclosures] at hsplit
  | @field descriptor target field path mem serialize rest ih =>
    rw [enclosures] at hsplit
    rcases List.eq_nil_or_concat outer with rfl | ⟨outer, last, rfl⟩
    · obtain ⟨hinner, henclosure⟩ := List.append_inj' hsplit rfl
      exact ⟨[], field, path, descriptor, rfl, .here descriptor,
        (List.cons.inj henclosure).1.symm, rfl, hinner.symm⟩
    · rw [List.concat_eq_append, ← List.cons_append, ← List.append_assoc] at hsplit
      obtain ⟨hinit, hlast⟩ := List.append_inj' hsplit rfl
      obtain ⟨before, member, after, record, rfl, hbefore, henclosure, rfl, hinner⟩ := ih hinit
      refine ⟨field :: before, member, after, record, rfl, .field mem serialize hbefore, henclosure,
        ?_, hinner⟩
      rw [enclosures, List.concat_eq_append, hlast]

theorem mem_enclosures_iff (h : descriptor.Reaches path target) {enclosure : Enclosure} :
    enclosure ∈ descriptor.enclosures path ↔ ∃ before member after record,
      path = before ++ member :: after ∧ descriptor.Reaches before record ∧
      enclosure = record.enclosure member := by
  constructor
  · intro hmem
    obtain ⟨inner, outer, hsplit⟩ := List.append_of_mem hmem
    obtain ⟨before, member, after, record, hpath, hbefore, henclosure, -, -⟩ :=
      enclosures_eq_append_cons h hsplit
    exact ⟨before, member, after, record, hpath, hbefore, henclosure⟩
  · rintro ⟨before, member, after, record, rfl, hbefore, rfl⟩
    rw [enclosures_append_cons hbefore]
    simp

/-! ## Demands -/

theorem mem_demandsAll_iff {typeName : String}
    {fields rest : List FieldDescriptor} {demand : Demand} :
    demand ∈ FieldDescriptor.demandsAll typeName fields rest ↔
      ∃ field ∈ rest, field.serialize ∧ ∃ inner ∈ field.descriptor.demands,
        demand = inner.within ⟨typeName, fields, field⟩ := by
  induction rest with
  | nil => simp [FieldDescriptor.demandsAll]
  | cons field rest ih =>
    rw [FieldDescriptor.demandsAll_cons, List.mem_append, ih]
    cases hserialize : field.serialize <;> simp [hserialize, @eq_comm _ demand]

theorem mem_policy_demands_iff {policy : SizePolicy String}
    {measure : Measure} {demand : Demand} : demand ∈ policy.demands measure ↔
      demand.chain = [] ∧ policy.key? = some demand.key ∧ demand.measure = measure := by
  obtain ⟨chain, key, own⟩ := demand
  simp only [SizePolicy.demands, List.mem_map, Option.mem_toList, Demand.mk.injEq]
  constructor
  · rintro ⟨_, hkey, rfl, rfl, rfl⟩
    exact ⟨rfl, hkey, rfl⟩
  · rintro ⟨rfl, hkey, rfl⟩
    exact ⟨key, hkey, rfl, rfl, rfl⟩

/-- What a descriptor asks for is what it asks for itself and what its fields ask for. -/
theorem mem_demands_iff_own_or_field {demand : Demand} : demand ∈ descriptor.demands ↔
    (demand.chain = [] ∧ descriptor.lengthKey? = some demand.key ∧
      demand.measure = descriptor.measure) ∨
    ∃ field ∈ descriptor.fields, field.serialize ∧ ∃ inner ∈ field.descriptor.demands,
      demand = inner.within (descriptor.enclosure field) := by
  obtain ⟨kind, byteOrder, hasFixedSize, minSize⟩ := descriptor
  cases kind with
  | text encoding size =>
    cases size with
    | nullTerminated =>
      simp [demands, DescriptorKind.demands, TextSize.demands, lengthKey?, DescriptorKind.policy?,
        TextSize.policy?, fields]
    | sized policy =>
      simp [demands, DescriptorKind.demands, TextSize.demands, mem_policy_demands_iff,
        lengthKey?, DescriptorKind.policy?, TextSize.policy?, fields, measure]
  | list element size =>
    simp [demands, DescriptorKind.demands, mem_policy_demands_iff, lengthKey?,
      DescriptorKind.policy?, fields, measure]
  | record name own =>
    simp [demands, DescriptorKind.demands, mem_demandsAll_iff, lengthKey?,
      DescriptorKind.policy?, fields, enclosure, typeName]
  | _ => simp [demands, DescriptorKind.demands, lengthKey?, DescriptorKind.policy?, fields]

/-- The demands of a descriptor are its ways to lists and texts with keys. -/
theorem mem_demands_iff {demand : Demand} : demand ∈ descriptor.demands ↔
    ∃ path target, descriptor.Reaches path target ∧ target.lengthKey? = some demand.key ∧
      demand.measure = target.measure ∧ demand.chain = descriptor.enclosures path := by
  induction descriptor using Descriptor.induction generalizing demand with
  | step descriptor _ ih =>
    rw [mem_demands_iff_own_or_field]
    constructor
    · rintro (⟨hchain, hkey, hmeasure⟩ | ⟨field, hmem, hserialize, inner, hinner, rfl⟩)
      · exact ⟨[], descriptor, .here descriptor, hkey, hmeasure, hchain⟩
      · obtain ⟨path, target, hreaches, hkey, hmeasure, hchain⟩ := (ih field hmem).1 hinner
        refine ⟨field :: path, target, .field hmem hserialize hreaches, hkey, hmeasure, ?_⟩
        rw [Demand.within, hchain]
        rfl
    · rintro ⟨path, target, hreaches, hkey, hmeasure, hchain⟩
      cases hreaches with
      | here => exact .inl ⟨hchain, hkey, hmeasure⟩
      | @field _ _ field path hmem hserialize hrest =>
        refine .inr ⟨field, hmem, hserialize, ⟨field.descriptor.enclosures path, demand.key,
          demand.measure⟩, (ih field hmem).2 ⟨path, target, hrest, hkey, hmeasure, rfl⟩, ?_⟩
        obtain ⟨chain, key, measure⟩ := demand
        cases hchain
        rfl

/-! ## One demand -/

/-- The fields of a demand, outermost first. -/
private def way (demand : Demand) : List FieldDescriptor :=
  (demand.chain.map Enclosure.member).reverse

private theorem nodup_map_way_demandsAll {typeName : String} {fields rest : List FieldDescriptor}
    (hrest : rest.Nodup)
    (hfields : ∀ field ∈ rest, (field.descriptor.demands.map way).Nodup) :
    ((FieldDescriptor.demandsAll typeName fields rest).map way).Nodup := by
  induction rest with
  | nil => simp [FieldDescriptor.demandsAll]
  | cons field rest ih =>
    obtain ⟨hfield, hfields⟩ := List.forall_mem_cons.1 hfields
    obtain ⟨hnew, hrest⟩ := List.nodup_cons.1 hrest
    rw [FieldDescriptor.demandsAll_cons, List.map_append, List.nodup_append']
    refine ⟨?_, ih hrest hfields, ?_⟩
    · split
      · have hways : (field.descriptor.demands.map (Demand.within ⟨typeName, fields, field⟩)).map
            way = (field.descriptor.demands.map way).map (field :: ·) := by
          simp [way, Demand.within]
        rw [hways]
        exact hfield.map fun _ _ h ↦ (List.cons.inj h).2
      · simp
    · intro path hpath hother
      obtain ⟨demand, hdemand, rfl⟩ := List.mem_map.1 hother
      obtain ⟨other, hmem, -, inner, -, rfl⟩ := mem_demandsAll_iff.1 hdemand
      split at hpath
      · obtain ⟨demand, hdemand, heq⟩ := List.mem_map.1 hpath
        obtain ⟨inner', -, rfl⟩ := List.mem_map.1 hdemand
        simp only [way, Demand.within, List.map_append, List.map_cons, List.map_nil,
          List.reverse_append, List.reverse_singleton, List.singleton_append,
          List.cons.injEq] at heq
        exact hnew (heq.1 ▸ hmem)
      · simp at hpath

/-- No way is a demand twice, if no two fields of a record have one name. -/
private theorem nodup_map_way_demands
    (h : descriptor.Everywhere fun inner ↦ (inner.fields.map FieldDescriptor.name).Nodup) :
    (descriptor.demands.map way).Nodup := by
  induction descriptor using Descriptor.induction with
  | step descriptor _ ih =>
    have hfields := h.here.of_map
    have hinner := fun field hmem ↦ ih field hmem (h.of_field hmem)
    obtain ⟨kind, byteOrder, hasFixedSize, minSize⟩ := descriptor
    cases kind with
    | record name fields => exact nodup_map_way_demandsAll hfields hinner
    | text encoding size =>
      cases size with
      | nullTerminated => exact List.nodup_nil
      | sized policy => cases policy <;> simp [demands, DescriptorKind.demands,
          TextSize.demands, SizePolicy.demands, SizePolicy.key?]
    | list element size => cases size <;> simp [demands, DescriptorKind.demands,
        SizePolicy.demands, SizePolicy.key?]
    | _ => exact List.nodup_nil

theorem eq_singleton_iff_of_nodup {α : Type} {elements : List α} {a : α} (h : elements.Nodup) :
    elements = [a] ↔ a ∈ elements ∧ ∀ b ∈ elements, b = a := by
  constructor
  · rintro rfl
    simp
  · rintro ⟨hmem, hall⟩
    cases elements with
    | nil => cases hmem
    | cons b rest =>
      obtain ⟨rfl, hrest⟩ := List.forall_mem_cons.1 hall
      cases rest with
      | nil => rfl
      | cons c rest =>
        obtain rfl := hrest c List.mem_cons_self
        simp at h

/-- A length is asked for once if there is one way to a list or text with its key. -/
theorem countP_demands_eq_one_iff
    (h : descriptor.Everywhere fun inner ↦ (inner.fields.map FieldDescriptor.name).Nodup) :
    descriptor.demands.countP (fun demand ↦ demand.key == key) = 1 ↔
      ∃! path, ∃ target, descriptor.Reaches path target ∧ target.lengthKey? = some key := by
  have hnodup : ((descriptor.demands.filter fun demand ↦ demand.key == key).map way).Nodup :=
    (nodup_map_way_demands h).sublist (List.filter_sublist.map _)
  have hmem : ∀ path, path ∈ (descriptor.demands.filter fun demand ↦ demand.key == key).map way ↔
      ∃ target, descriptor.Reaches path target ∧ target.lengthKey? = some key := by
    intro path
    simp only [List.mem_map, List.mem_filter, mem_demands_iff, beq_iff_eq]
    constructor
    · rintro ⟨demand, ⟨⟨own, target, hreaches, hkey, -, hchain⟩, rfl⟩, rfl⟩
      rw [way, hchain, map_member_enclosures, List.reverse_reverse]
      exact ⟨target, hreaches, hkey⟩
    · rintro ⟨target, hreaches, hkey⟩
      refine ⟨⟨descriptor.enclosures path, key, target.measure⟩,
        ⟨⟨path, target, hreaches, hkey, rfl, rfl⟩, rfl⟩, ?_⟩
      rw [way, map_member_enclosures, List.reverse_reverse]
  rw [List.countP_eq_length_filter, ← List.length_map way, List.length_eq_one_iff]
  refine exists_congr fun path ↦ ?_
  rw [eq_singleton_iff_of_nodup hnodup, hmem]
  exact and_congr_right fun _ ↦ forall_congr' fun other ↦ by rw [hmem]

/-! ## The answer to a demand -/

/-- The fields that carry the length of a list or text are carriers of the records on the way. -/
theorem serves_iff {consumer : Descriptor} (h : descriptor.Reaches path consumer)
    (hkey : consumer.lengthKey? = some key) {before : List FieldDescriptor}
    {carrier : FieldDescriptor} : descriptor.Serves before carrier path ↔
      ∃ member after record, path = before ++ member :: after ∧ descriptor.Reaches before record ∧
        carrier ∈ (record.enclosure member).carriers key := by
  constructor
  · rintro ⟨here, mem, serialize, lengthOf, there, lengthKey⟩
    obtain rfl := there.eq h
    cases lengthKey.symm.trans hkey
    exact ⟨_, _, _, rfl, here, List.mem_filter.2
      ⟨mem, FieldDescriptor.carries_iff.2 ⟨serialize, lengthOf⟩⟩⟩
  · rintro ⟨member, after, record, rfl, here, hmem⟩
    obtain ⟨hmem, hcarries⟩ := List.mem_filter.1 hmem
    obtain ⟨serialize, lengthOf⟩ := FieldDescriptor.carries_iff.1 hcarries
    exact .intro here hmem serialize lengthOf h hkey

theorem eq_of_append_cons_eq {α : Type} {p : α → Prop} {inner inner' outer outer' : List α}
    {a b : α} (h : inner ++ a :: outer = inner' ++ b :: outer') (hinner : ∀ c ∈ inner, ¬ p c)
    (houter : ∀ c ∈ outer, ¬ p c) (hb : p b) : inner = inner' ∧ a = b ∧ outer = outer' := by
  induction inner generalizing inner' with
  | nil =>
    cases inner' with
    | nil => exact ⟨rfl, (List.cons.inj h).1, (List.cons.inj h).2⟩
    | cons c inner' =>
      obtain ⟨rfl, rfl⟩ := List.cons.inj h
      exact (houter b (by simp) hb).elim
  | cons c inner ih =>
    obtain ⟨hc, hinner⟩ := List.forall_mem_cons.1 hinner
    cases inner' with
    | nil =>
      obtain ⟨rfl, -⟩ := List.cons.inj h
      exact (hc hb).elim
    | cons c' inner' =>
      obtain ⟨rfl, hrest⟩ := List.cons.inj h
      obtain ⟨rfl, rfl, rfl⟩ := ih hrest hinner
      exact ⟨rfl, rfl, rfl⟩

/-- If a record on the way carries the length that is lent, then it does so in one field, and no
other record on the way does. -/
theorem carriers_of_lends {inner outer : List Enclosure} {enclosure : Enclosure}
    (h : Lends key (inner ++ enclosure :: outer)) (hcarries : enclosure.carriers key ≠ []) :
    (∀ other ∈ inner, other.carriers key = []) ∧ (∀ other ∈ outer, other.carriers key = []) ∧
      ∃ carrier, enclosure.carriers key = [carrier] ∧
        carrier.order < enclosure.member.order := by
  generalize hsplit : inner ++ enclosure :: outer = chain at h
  obtain @⟨inner', outer', enclosure', carrier, own, hinside, houtside, earlier⟩ := h
  obtain ⟨rfl, rfl, rfl⟩ := eq_of_append_cons_eq
    (p := fun enclosure ↦ enclosure.carriers key ≠ []) hsplit.symm
    (fun other hmem hne ↦ hne (hinside other hmem))
    (fun other hmem hne ↦ hne (houtside other hmem)) hcarries
  exact ⟨hinside, houtside, carrier, own, earlier⟩

section Serves

variable {consumer : Descriptor} {before before' : List FieldDescriptor}
  {carrier carrier' : FieldDescriptor} (h : descriptor.Reaches path consumer)
  (hkey : consumer.lengthKey? = some key)
include h hkey

/-- Where a length is lent, a field that serves the way is the only carrier on it, and comes before
the field that the way goes on with. -/
theorem Serves.only_carrier (hlends : Lends key (descriptor.enclosures path))
    (hserves : descriptor.Serves before carrier path) :
    ∃ member after record, path = before ++ member :: after ∧ descriptor.Reaches before record ∧
      (∀ other ∈ member.descriptor.enclosures after, other.carriers key = []) ∧
      (∀ other ∈ descriptor.enclosures before, other.carriers key = []) ∧
      (record.enclosure member).carriers key = [carrier] ∧ carrier.order < member.order := by
  obtain ⟨member, after, record, rfl, hbefore, hmem⟩ := (serves_iff h hkey).1 hserves
  rw [enclosures_append_cons hbefore] at hlends
  obtain ⟨inside, outside, lender, own, earlier⟩ :=
    carriers_of_lends hlends (List.ne_nil_of_mem hmem)
  obtain rfl : carrier = lender := List.mem_singleton.1 (own ▸ hmem)
  exact ⟨member, after, record, rfl, hbefore, inside, outside, own, earlier⟩

/-- Where a length is lent, one field serves the way. -/
theorem Serves.place_eq (hlends : Lends key (descriptor.enclosures path))
    (hserves : descriptor.Serves before carrier path)
    (hother : descriptor.Serves before' carrier' path) : before' = before ∧ carrier' = carrier := by
  obtain ⟨member, after, record, hpath, hbefore, inside, outside, own, -⟩ :=
    hserves.only_carrier h hkey hlends
  obtain ⟨member', after', record', hpath', hbefore', -, -, own', -⟩ :=
    hother.only_carrier h hkey hlends
  have hchain := congrArg descriptor.enclosures (hpath'.symm.trans hpath)
  rw [enclosures_append_cons hbefore, enclosures_append_cons hbefore'] at hchain
  obtain ⟨-, henclosure, houter⟩ := eq_of_append_cons_eq
    (p := fun enclosure ↦ enclosure.carriers key ≠ []) hchain.symm
    (fun other hmem hne ↦ hne (inside other hmem))
    (fun other hmem hne ↦ hne (outside other hmem)) (by simp [own'])
  have hlength : before'.length = before.length := by
    rw [← length_enclosures descriptor, ← houter, length_enclosures]
  refine ⟨(List.append_inj (hpath'.symm.trans hpath) hlength).1, ?_⟩
  rw [henclosure, own'] at own
  exact (List.cons.inj own).1

/-- A length is lent by the one field that serves the way, if it comes early enough. -/
theorem Serves.lends
    (hnames : descriptor.Everywhere fun inner ↦ (inner.fields.map FieldDescriptor.name).Nodup)
    (hserves : descriptor.Serves before carrier path)
    (honly : ∀ before' carrier', descriptor.Serves before' carrier' path →
      before' = before ∧ carrier' = carrier)
    (hfirst : ∀ member after, path = before ++ member :: after → carrier.order < member.order) :
    Lends key (descriptor.enclosures path) := by
  obtain ⟨member, after, record, hpath, hbefore, hcarries⟩ := (serves_iff h hkey).1 hserves
  have hplace : ∀ before' carrier' member' after' record', path = before' ++ member' :: after' →
      descriptor.Reaches before' record' →
      carrier' ∈ (record'.enclosure member').carriers key →
      before' = before ∧ carrier' = carrier :=
    fun before' carrier' member' after' record' hpath' hbefore' hcarries' ↦
      honly _ _ ((serves_iff h hkey).2 ⟨member', after', record', hpath', hbefore', hcarries'⟩)
  rw [hpath, enclosures_append_cons hbefore]
  have hfields : record.fields.Nodup := (hnames.of_reaches hbefore).here.of_map
  refine .intro ?own ?inside ?outside (hfirst member after hpath)
  case own =>
    exact (eq_singleton_iff_of_nodup (hfields.filter _)).2 ⟨hcarries, fun other hmem ↦
      (hplace before other member after record hpath hbefore hmem).2⟩
  case inside =>
    intro other hmem
    rw [List.eq_nil_iff_forall_not_mem]
    intro carrier' hcarries'
    obtain ⟨middle, hmiddle, hrest⟩ := reaches_append_iff.1 (hpath ▸ h)
    obtain ⟨hmember, hserialize, hrest⟩ := reaches_cons_iff.1 hrest
    obtain ⟨inner, member', after', record', rfl, hinner, rfl⟩ := (mem_enclosures_iff hrest).1 hmem
    have hbefore' := hmiddle.append (.field hmember hserialize hinner)
    have := (hplace _ carrier' member' after' record' (by simp [hpath]) hbefore' hcarries').1
    simp at this
  case outside =>
    intro other hmem
    rw [List.eq_nil_iff_forall_not_mem]
    intro carrier' hcarries'
    obtain ⟨outer, member', after', record', rfl, houter, rfl⟩ :=
      (mem_enclosures_iff hbefore).1 hmem
    have := (hplace outer carrier' member' (after' ++ member :: after) record' (by simp [hpath])
      houter hcarries').1
    simp at this

end Serves

/-- A demand is answered if exactly one field on the way carries the length and comes early
enough. -/
theorem lends_iff {consumer : Descriptor}
    (hnames : descriptor.Everywhere fun inner ↦ (inner.fields.map FieldDescriptor.name).Nodup)
    (h : descriptor.Reaches path consumer) (hkey : consumer.lengthKey? = some key) :
    Lends key (descriptor.enclosures path) ↔
      (∃! place : List FieldDescriptor × FieldDescriptor,
        descriptor.Serves place.1 place.2 path) ∧
      ∀ before carrier member after, path = before ++ member :: after →
        descriptor.Serves before carrier path → carrier.order < member.order := by
  constructor
  · intro hlends
    refine ⟨?_, fun before carrier member after hpath hserves ↦ ?_⟩
    · obtain ⟨before, carrier, hserves⟩ :
          ∃ before carrier, descriptor.Serves before carrier path := by
        generalize hchain : descriptor.enclosures path = chain at hlends
        obtain @⟨inner, outer, _, lender, own, -, -, -⟩ := hlends
        obtain ⟨before, member, after, record, hpath, hbefore, rfl, -⟩ :=
          enclosures_eq_append_cons h hchain
        exact ⟨before, lender, (serves_iff h hkey).2
          ⟨member, after, record, hpath, hbefore, by simp [own]⟩⟩
      refine ⟨(before, carrier), hserves, fun place hother ↦ ?_⟩
      exact Prod.ext_iff.2 (hserves.place_eq h hkey hlends hother)
    · obtain ⟨member', after', -, hpath', -, -, -, -, earlier⟩ :=
        hserves.only_carrier h hkey hlends
      obtain ⟨rfl, -⟩ := List.cons.inj (List.append_cancel_left (hpath.symm.trans hpath'))
      exact earlier
  · rintro ⟨⟨⟨before, carrier⟩, hserves, honly⟩, hfirst⟩
    exact hserves.lends h hkey hnames
      (fun before' carrier' hother ↦ Prod.ext_iff.1 (honly (before', carrier') hother))
      fun member after hpath ↦ hfirst before carrier member after hpath hserves

/-! ## Where ways begin -/

theorem settled_iff_forall_reaches : descriptor.Settled ↔
    ∀ path target, descriptor.Reaches path target →
      (∀ field ∈ target.fields, ∀ key, field.carries key →
        target.demands.countP (fun demand ↦ demand.key == key) = 1) ∧
      ∀ element ∈ target.element?, element.Settled ∧
        ∀ demand ∈ element.demands, Lends demand.key demand.chain := by
  constructor
  · intro h path target hreaches
    induction hreaches with
    | here =>
      obtain ⟨helements, -, htaken⟩ := settled_iff.1 h
      exact ⟨htaken, helements⟩
    | field mem serialize _ ih => exact ih ((settled_iff.1 h).2.1 _ mem serialize)
  · intro h
    induction descriptor using Descriptor.induction with
    | step descriptor _ ih =>
      obtain ⟨htaken, helements⟩ := h [] descriptor (.here descriptor)
      exact settled_iff.2 ⟨helements, fun field mem serialize ↦
        ih field mem fun path target hreaches ↦ h (field :: path) target
          (.field mem serialize hreaches), htaken⟩

/-- What is asked for before the elements of the first lists is answered. -/
structure Settles (top : Descriptor) : Prop where
  lent : ∀ demand ∈ top.demands, Lends demand.key demand.chain
  taken : ∀ path record, top.Reaches path record → ∀ field ∈ record.fields, ∀ key,
    field.carries key → record.demands.countP (fun demand ↦ demand.key == key) = 1

/-- A descriptor settles if it does so wherever ways begin. -/
theorem settled_and_lent_iff :
    (descriptor.Settled ∧ ∀ demand ∈ descriptor.demands, Lends demand.key demand.chain) ↔
      ∀ address top, descriptor.Starts address top → top.Settles := by
  induction descriptor using Descriptor.element_induction with
  | step descriptor ih =>
    rw [settled_iff_forall_reaches]
    constructor
    · rintro ⟨hsettled, hlent⟩ address top hstarts
      cases hstarts with
      | whole => exact ⟨hlent, fun path record hreaches ↦ (hsettled path record hreaches).1⟩
      | element reaches mem rest =>
        exact (ih _ _ reaches _ mem).1 ((hsettled _ _ reaches).2 _ mem) _ top rest
    · intro h
      have hwhole := h [] descriptor (.whole descriptor)
      exact ⟨fun path target hreaches ↦ ⟨hwhole.taken path target hreaches, fun element hmem ↦
        (ih path target hreaches element hmem).2 fun address top hstarts ↦
          h (path :: address) top (.element hreaches hmem hstarts)⟩, hwhole.lent⟩

/-- A record has no length key. -/
theorem lengthKey?_eq_none_of_mem_fields {field : FieldDescriptor}
    (h : field ∈ descriptor.fields) : descriptor.lengthKey? = none := by
  obtain ⟨kind, byteOrder, hasFixedSize, minSize⟩ := descriptor
  cases kind with
  | record => rfl
  | _ => cases h

section Settles

variable (hnames : descriptor.Everywhere fun inner ↦ (inner.fields.map FieldDescriptor.name).Nodup)

include hnames

/-- All demands are answered exactly if every list or text has one carrier, which comes first. -/
theorem forall_lends_iff : (∀ demand ∈ descriptor.demands, Lends demand.key demand.chain) ↔
    (∀ path consumer, descriptor.Reaches path consumer → consumer.lengthKey?.isSome →
      ∃! place : List FieldDescriptor × FieldDescriptor, descriptor.Serves place.1 place.2 path) ∧
    ∀ before carrier member after, descriptor.Serves before carrier (before ++ member :: after) →
      carrier.order < member.order := by
  constructor
  · intro h
    have hlends : ∀ path consumer key, descriptor.Reaches path consumer →
        consumer.lengthKey? = some key → Lends key (descriptor.enclosures path) :=
      fun path consumer key hreaches hkey ↦ h ⟨_, key, consumer.measure⟩
        (mem_demands_iff.2 ⟨path, consumer, hreaches, hkey, rfl, rfl⟩)
    constructor
    · intro path consumer hreaches hkey
      obtain ⟨key, hkey⟩ := Option.isSome_iff_exists.1 hkey
      exact ((lends_iff hnames hreaches hkey).1 (hlends _ _ _ hreaches hkey)).1
    · intro before carrier member after hserves
      generalize hpath : before ++ member :: after = path at hserves
      obtain ⟨-, -, -, -, there, lengthKey⟩ := id hserves
      exact ((lends_iff hnames there lengthKey).1 (hlends _ _ _ there lengthKey)).2 _ _ _ _
        hpath.symm hserves
  · rintro ⟨hone, hfirst⟩ demand hmem
    obtain ⟨path, consumer, hreaches, hkey, -, hchain⟩ := mem_demands_iff.1 hmem
    rw [hchain, lends_iff hnames hreaches hkey]
    refine ⟨hone path consumer hreaches (by simp [hkey]), ?_⟩
    rintro before carrier member after rfl hserves
    exact hfirst before carrier member after hserves

/-- A record gives away each of its lengths once exactly if each of its carriers serves one list or
text. -/
theorem forall_countP_eq_one_iff :
    (∀ path record, descriptor.Reaches path record → ∀ field ∈ record.fields, ∀ key,
      field.carries key → record.demands.countP (fun demand ↦ demand.key == key) = 1) ↔
    (∀ before carrier path path', descriptor.Serves before carrier path →
      descriptor.Serves before carrier path' → path = path') ∧
    ∀ before record, descriptor.Reaches before record → ∀ carrier ∈ record.fields,
      carrier.serialize → carrier.lengthOf.isSome →
        ∃ path, descriptor.Serves before carrier path := by
  constructor
  · intro h
    refine ⟨?_, ?_⟩
    · rintro before carrier _ _ ⟨here, mem, serialize, lengthOf, there, lengthKey⟩
        ⟨here', -, -, lengthOf', there', lengthKey'⟩
      obtain rfl := here.eq here'
      cases lengthOf.symm.trans lengthOf'
      have hone := (countP_demands_eq_one_iff (hnames.of_reaches here)).1
        (h before _ here carrier mem _ (FieldDescriptor.carries_iff.2 ⟨serialize, lengthOf⟩))
      rw [hone.unique ⟨_, here.reaches_of_append there, lengthKey⟩
        ⟨_, here.reaches_of_append there', lengthKey'⟩]
    · intro before record here carrier mem serialize hlength
      obtain ⟨key, lengthOf⟩ := Option.isSome_iff_exists.1 hlength
      obtain ⟨path, ⟨consumer, hreaches, lengthKey⟩, -⟩ :=
        (countP_demands_eq_one_iff (hnames.of_reaches here)).1
          (h before record here carrier mem key
            (FieldDescriptor.carries_iff.2 ⟨serialize, lengthOf⟩))
      cases path with
      | nil =>
        cases hreaches
        rw [lengthKey?_eq_none_of_mem_fields mem] at lengthKey
        cases lengthKey
      | cons member after =>
        exact ⟨_, .intro here mem serialize lengthOf (here.append hreaches) lengthKey⟩
  · rintro ⟨hconsumer, hsome⟩ before record here carrier mem key hcarries
    obtain ⟨serialize, lengthOf⟩ := FieldDescriptor.carries_iff.1 hcarries
    obtain ⟨path, hserves⟩ := hsome before record here carrier mem serialize (by simp [lengthOf])
    rw [countP_demands_eq_one_iff (hnames.of_reaches here)]
    have hserves' := hserves
    obtain ⟨here', -, -, lengthOf', there, lengthKey⟩ := hserves
    obtain rfl := here.eq here'
    cases lengthOf.symm.trans lengthOf'
    refine ⟨_, ⟨_, here.reaches_of_append there, lengthKey⟩, ?_⟩
    rintro other ⟨consumer, hreaches, hkey⟩
    cases other with
    | nil =>
      cases hreaches
      rw [lengthKey?_eq_none_of_mem_fields mem] at hkey
      cases hkey
    | cons member after =>
      have := hconsumer before carrier _ _ hserves'
        (.intro here mem serialize lengthOf (here.append hreaches) hkey)
      exact (List.append_cancel_left this).symm

end Settles

/-- Lengths match exactly if the demands are answered wherever ways begin. -/
theorem lengthsMatch_iff
    (hnames : descriptor.Everywhere fun inner ↦ (inner.fields.map FieldDescriptor.name).Nodup) :
    descriptor.LengthsMatch ↔ ∀ address top, descriptor.Starts address top → top.Settles := by
  constructor
  · rintro ⟨hone, hfirst, hconsumer, hsome⟩ address top hstarts
    have htop := hnames.of_starts hstarts
    exact ⟨(forall_lends_iff htop).2 ⟨hone address top hstarts, hfirst address top hstarts⟩,
      (forall_countP_eq_one_iff htop).2 ⟨hconsumer address top hstarts,
        hsome address top hstarts⟩⟩
  · intro h
    have hlends := fun address top hstarts ↦
      (forall_lends_iff (hnames.of_starts hstarts)).1 (h address top hstarts).lent
    have htaken := fun address top hstarts ↦
      (forall_countP_eq_one_iff (hnames.of_starts hstarts)).1 (h address top hstarts).taken
    exact ⟨fun address top hstarts ↦ (hlends address top hstarts).1,
      fun address top hstarts ↦ (hlends address top hstarts).2,
      fun address top hstarts ↦ (htaken address top hstarts).1,
      fun address top hstarts ↦ (htaken address top hstarts).2⟩

end Descriptor

end WireFormat
