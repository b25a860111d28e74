import WireFormat.Proofs.Format.Canonical
import WireFormat.Proofs.Size.Decode

/-!
# Members that are read

A record is read field by field, and each field may take lengths that were read before it, in its
own record or around.  What holds of each field by itself then holds of all members of the record,
and the lengths in them are those of what takes them.

* `Traversal.Within` — a reader in a record, and where it has the lengths from that it knows;
* `FieldDescriptor.FoundAll` — the members that the fields of a record have been read as;
* `FieldDescriptor.FoundAll.exists_length` — a length that was read is the length of what takes it;
* `Descriptor.exists_foundAll_of_decode` — what is found when a record is read.
-/

namespace WireFormat

variable {reader middle next : Reader} {traversal outer : Traversal Members} {value : Value}
  {chain : List Enclosure} {byteOrder : ByteOrder} {hasFixedSize : Bool} {minSize : UInt64}

/-! ## Readers in a record -/

/-- The traversal is in a record inside another.  The lengths that it knows of the record are those
of its fields, whose values are among `pairs`. -/
def Traversal.Within (outer : Traversal Members) (fields : List FieldDescriptor)
    (pairs : List (String × Value)) (traversal : Traversal Members) : Prop :=
  ∃ typeName subject lengths, traversal.frames = ⟨typeName, subject, lengths⟩ :: outer.frames ∧
    ∀ key length, lengths.lookup key = some length → ∃ carrier ∈ fields, carrier.carries key ∧
      ∃ value, (carrier.name, value) ∈ pairs ∧ value.toInteger? = some length

namespace Traversal.Within

variable {fields : List FieldDescriptor} {pairs : List (String × Value)} {field : FieldDescriptor}
  {after : Traversal Members}

theorem append (h : Within outer fields pairs traversal) (more : List (String × Value)) :
    Within outer fields (pairs ++ more) traversal := by
  obtain ⟨typeName, subject, lengths, hframes, hlengths⟩ := h
  refine ⟨typeName, subject, lengths, hframes, fun key length hlookup ↦ ?_⟩
  obtain ⟨carrier, hmem, hcarries, value, hpair, hvalue⟩ := hlengths key length hlookup
  exact ⟨carrier, hmem, hcarries, value, List.mem_append_left more hpair, hvalue⟩

/-- A field that has been read is kept as one more member, and if it carries a length, then it is an
integer, whose number is the length. -/
theorem keep (h : Within outer fields pairs traversal)
    (hsubject : traversal.subject? = some (.ofList pairs)) (hmem : field ∈ fields)
    (hserialize : field.serialize)
    (hkeep : FieldPlan.keep traversal field.name field.lengthOf value = .ok after) :
    Within outer fields (pairs ++ [(field.name, value)]) after ∧
      after.subject? = some (.ofList (pairs ++ [(field.name, value)])) := by
  obtain ⟨typeName, subject, lengths, hframes, hlengths⟩ := h.append [(field.name, value)]
  obtain rfl : subject = .ofList pairs := by
    rw [subject?, hframes] at hsubject
    exact Option.some.inj hsubject
  obtain ⟨frames, steps⟩ := traversal
  obtain rfl : frames = _ := hframes
  rw [← Members.insert_ofList]
  cases hkey : field.lengthOf with
  | none =>
    rw [hkey] at hkeep
    cases hkeep
    exact ⟨⟨_, _, lengths, rfl, hlengths⟩, rfl⟩
  | some own =>
    rw [hkey, FieldPlan.keep] at hkeep
    split at hkeep
    · next length hlength =>
      cases hkeep
      refine ⟨⟨_, _, (own, length) :: lengths, rfl, fun key found hlookup ↦ ?_⟩, rfl⟩
      rw [List.lookup_cons] at hlookup
      split at hlookup
      · next heq =>
        obtain rfl : key = own := beq_iff_eq.1 heq
        obtain rfl := Option.some.inj hlookup
        exact ⟨field, hmem, FieldDescriptor.carries_iff.2 ⟨hserialize, hkey⟩, value,
          List.mem_append_right pairs List.mem_cons_self, hlength⟩
      · exact hlengths key found hlookup
    · cases hkeep

end Traversal.Within

/-! ## Fields -/

namespace FieldDescriptor

variable {name : String} {fields rest : List FieldDescriptor} {field : FieldDescriptor}
  {pairs : List (String × Value)}
  {found other holds : FieldDescriptor → Value → Reader → Reader → Prop}

/-- What is known of a field that has been read, apart from what holds of it by itself: the lengths
in it are those of the fields of its record or of the records around. -/
structure Found (holds : FieldDescriptor → Value → Reader → Reader → Prop) (name : String)
    (fields : List FieldDescriptor) (chain : List Enclosure) (outer : Traversal Members)
    (pairs : List (String × Value)) (field : FieldDescriptor) (value : Value)
    (reader next : Reader) : Prop where
  holds : holds field value reader next
  provided : ∃ traversal, Traversal.Within outer fields pairs traversal ∧
    field.descriptor.Provided value (⟨name, fields, field⟩ :: chain) traversal

theorem map_fst_skipped (fields : List FieldDescriptor) :
    List.Sublist ((skipped fields).map Prod.fst)
      ((fields.filter fun field ↦ !field.serialize).map FieldDescriptor.name) := by
  induction fields with
  | nil => exact .slnil
  | cons field rest ih =>
    rw [skipped, List.filterMap_cons, List.filter_cons]
    cases field.serialize with
    | true => exact ih
    | false =>
      cases field.descriptor.default? with
      | none => exact ih.cons _
      | some value => exact ih.cons_cons _

theorem map_fst_skipped_of_isSome (h : ∀ field ∈ fields, field.descriptor.default?.isSome) :
    (skipped fields).map Prod.fst =
      (fields.filter fun field ↦ !field.serialize).map FieldDescriptor.name := by
  induction fields with
  | nil => rfl
  | cons field rest ih =>
    obtain ⟨hfield, hrest⟩ := List.forall_mem_cons.1 h
    obtain ⟨value, hvalue⟩ := Option.isSome_iff_exists.1 hfield
    rw [skipped, List.filterMap_cons, List.filter_cons]
    cases field.serialize with
    | true => exact ih hrest
    | false =>
      rw [hvalue]
      exact congrArg _ (ih hrest)

/-- The members that some fields have been read as, and where the reader has gone. -/
inductive FoundAll (found : FieldDescriptor → Value → Reader → Reader → Prop) :
    Reader → List FieldDescriptor → List (String × Value) → Reader → Prop where
  | nil (reader : Reader) : FoundAll found reader [] [] reader
  | skip {reader next : Reader} {field : FieldDescriptor} {rest : List FieldDescriptor}
      {pairs : List (String × Value)} (unwritten : field.serialize = false)
      (more : FoundAll found reader rest pairs next) :
      FoundAll found reader (field :: rest) pairs next
  | cons {reader middle next : Reader} {field : FieldDescriptor} {rest : List FieldDescriptor}
      {value : Value} {pairs : List (String × Value)} (serialize : field.serialize)
      (here : found field value reader middle)
      (more : FoundAll found (middle.padded field.padAfter) rest pairs next) :
      FoundAll found reader (field :: rest) ((field.name, value) :: pairs) next

/-- Fields that are read are found one after the other. -/
theorem exists_foundAll_of_decodeAll {members : Members}
    (hrest : ∀ field ∈ rest, field ∈ fields ∧ (field.serialize → ∀ traversal reader value next,
      (field.descriptor.operation (⟨name, fields, field⟩ :: chain)).decode traversal reader =
        .ok value next →
      field.descriptor.Provided value (⟨name, fields, field⟩ :: chain) traversal ∧
        holds field value reader next))
    (hwithin : Traversal.Within outer fields pairs traversal)
    (hsubject : traversal.subject? = some (.ofList pairs))
    (h : FieldPlan.decodeAll traversal ((rest.filter FieldDescriptor.serialize).map
      (plan name fields chain)) reader = .ok members next) :
    ∃ more, members = .ofList (pairs ++ more) ∧
      FoundAll (Found holds name fields chain outer (pairs ++ more)) reader rest more next := by
  induction rest generalizing pairs traversal reader with
  | nil =>
    obtain ⟨rfl, rfl⟩ := run_pure_eq_ok_iff.1 h
    refine ⟨[], ?_, .nil reader⟩
    rw [hsubject, List.append_nil]
    rfl
  | cons field rest ih =>
    obtain ⟨⟨hmem, hfield⟩, hrest⟩ := List.forall_mem_cons.1 hrest
    cases hserialize : field.serialize with
    | false =>
      rw [List.filter_cons_of_neg (by simp [hserialize])] at h
      obtain ⟨more, hmembers, hmore⟩ := ih hrest hwithin hsubject h
      exact ⟨more, hmembers, .skip hserialize hmore⟩
    | true =>
      rw [List.filter_cons_of_pos hserialize, List.map_cons, FieldPlan.decodeAll_cons,
        run_bind_eq_ok_iff] at h
      obtain ⟨after, _, hadvance, h⟩ := h
      obtain ⟨value, middle, hdecode, hkeep, rfl⟩ := FieldPlan.advance_eq_ok_iff.1 hadvance
      obtain ⟨hprovided, hholds⟩ := hfield hserialize _ _ _ _ hdecode
      obtain ⟨hafter, hsubject⟩ := hwithin.keep hsubject hmem hserialize hkeep
      obtain ⟨more, hmembers, hmore⟩ := ih hrest hafter hsubject h
      rw [List.append_assoc, List.singleton_append] at hmembers hmore
      have hwithin' : Traversal.Within outer fields (pairs ++ (field.name, value) :: more)
          (traversal.enter field.name) := hwithin.append _
      exact ⟨_, hmembers, .cons hserialize ⟨hholds, _, hwithin', hprovided⟩ hmore⟩

namespace FoundAll

theorem imp (h : FoundAll found reader rest pairs next)
    (himp : ∀ field ∈ rest, field.serialize → ∀ value, (field.name, value) ∈ pairs →
      ∀ reader next, found field value reader next → other field value reader next) :
    FoundAll other reader rest pairs next := by
  induction h with
  | nil reader => exact .nil reader
  | skip unwritten _ ih =>
    exact .skip unwritten (ih fun field hmem ↦ himp field (List.mem_cons_of_mem _ hmem))
  | cons serialize here _ ih =>
    refine .cons serialize (himp _ List.mem_cons_self serialize _ List.mem_cons_self _ _ here) ?_
    exact ih fun field hmem hserialize value hpair ↦
      himp field (List.mem_cons_of_mem _ hmem) hserialize value (List.mem_cons_of_mem _ hpair)

theorem exists_of_mem (h : FoundAll found reader rest pairs next) (hmem : field ∈ rest)
    (hserialize : field.serialize) : ∃ value before after, (field.name, value) ∈ pairs ∧
      found field value before after := by
  induction h with
  | nil => cases hmem
  | skip unwritten _ ih =>
    refine ih ((List.mem_cons.1 hmem).resolve_left ?_)
    rintro rfl
    rw [hserialize] at unwritten
    cases unwritten
  | cons _ here _ ih =>
    rcases List.mem_cons.1 hmem with rfl | hmem
    · exact ⟨_, _, _, List.mem_cons_self, here⟩
    · obtain ⟨value, before, after, hpair, hfound⟩ := ih hmem
      exact ⟨value, before, after, List.mem_cons_of_mem _ hpair, hfound⟩

theorem map_fst_eq (h : FoundAll found reader rest pairs next) :
    pairs.map Prod.fst = (rest.filter FieldDescriptor.serialize).map FieldDescriptor.name := by
  induction h with
  | nil => rfl
  | skip unwritten _ ih => rw [List.filter_cons_of_neg (by simp [unwritten]), ih]
  | cons serialize _ _ ih =>
    rw [List.filter_cons_of_pos serialize, List.map_cons, List.map_cons, ih]

/-- The members of a record have different names. -/
theorem nodup_fst (h : FoundAll found reader fields pairs next)
    (hnames : (fields.map FieldDescriptor.name).Nodup) :
    ((pairs ++ skipped fields).map Prod.fst).Nodup := by
  have hperm := (List.filter_append_perm FieldDescriptor.serialize fields).map FieldDescriptor.name
  rw [List.map_append] at hperm
  rw [List.map_append, h.map_fst_eq]
  exact (hperm.nodup_iff.2 hnames).sublist ((List.Sublist.refl _).append (map_fst_skipped fields))

/-- The members of a record are what its fields have been read as, and the defaults of those that
are not on the wire. -/
theorem find?_of_mem (h : FoundAll found reader fields pairs next)
    (hnames : (fields.map FieldDescriptor.name).Nodup)
    (hmem : (name, value) ∈ pairs ++ skipped fields) :
    (Members.ofList (pairs ++ skipped fields)).find? name = some value :=
  Members.find?_ofList hmem fun _ hother ↦
    (Prod.mk.inj (List.inj_on_of_nodup_map (h.nodup_fst hnames) hother hmem rfl)).2

theorem find?_eq (h : FoundAll found reader fields pairs next)
    (hnames : (fields.map FieldDescriptor.name).Nodup) (hpair : (name, value) ∈ pairs) :
    (Members.ofList (pairs ++ skipped fields)).find? name = some value :=
  h.find?_of_mem hnames (List.mem_append_left _ hpair)

/-- The lengths that the fields of a record carry are counted in what takes them. -/
theorem exists_length
    (h : FoundAll (Found holds name fields chain outer pairs) reader fields pairs next)
    (hnames : (fields.map FieldDescriptor.name).Nodup)
    (htaken : ∀ field ∈ fields, ∀ key, field.carries key →
      (demandsAll name fields fields).countP (fun demand ↦ demand.key == key) = 1)
    (hlent : Descriptor.Lent ⟨.record name fields, byteOrder, hasFixedSize, minSize⟩ chain)
    (hmem : field ∈ fields) {key : String} (hcarries : field.carries key)
    (hpair : (field.name, value) ∈ pairs) : ∃ (feed : LengthFeed) (length : Nat),
      feedOf (demandsAll name fields fields) key = some feed ∧
      feed.count (.record (Members.ofList (pairs ++ skipped fields))) = some length ∧
      value.toInteger? = some (length : Int) := by
  have hone := htaken field hmem key hcarries
  obtain ⟨demand, hdemand, hkey⟩ := List.countP_pos_iff.1 (hone ▸ Nat.zero_lt_one)
  obtain rfl : demand.key = key := beq_iff_eq.1 hkey
  have hfeed := feedOf_eq_some hdemand hone
  obtain ⟨taker, htaker, hserialize, inner, hinner, rfl⟩ := Descriptor.mem_demandsAll_iff.1 hdemand
  obtain ⟨found, _, _, hfound, -, traversal, hwithin, hprovided⟩ :=
    h.exists_of_mem htaker hserialize
  -- The record at hand is the only one that carries the length.
  have hcarriers : (⟨name, fields, taker⟩ : Enclosure).carriers inner.key ≠ [] :=
    List.ne_nil_of_mem (List.mem_filter.2 ⟨hmem, hcarries⟩)
  obtain ⟨hinside, -, carrier, hcarrier, -⟩ :=
    Descriptor.carriers_of_lends (hlent.of_field htaker hserialize inner hinner) hcarriers
  have honly : ∀ other ∈ fields, other.carries inner.key → other = carrier := by
    intro other hother hown
    have hothers : other ∈ (⟨name, fields, taker⟩ : Enclosure).carriers inner.key :=
      List.mem_filter.2 ⟨hother, hown⟩
    rw [hcarrier] at hothers
    exact List.mem_singleton.1 hothers
  obtain ⟨length, hcount, hlength⟩ := hprovided inner hinner [] ⟨name, fields, taker⟩ chain rfl
    (by rwa [List.append_nil]) hcarriers
  obtain ⟨typeName, subject, lengths, hframes, hlengths⟩ := hwithin
  rw [Traversal.length?, hframes] at hlength
  obtain ⟨other, hother, hothers, read, hread, hinteger⟩ := hlengths _ _ hlength
  obtain rfl : other = field :=
    (honly other hother hothers).trans (honly field hmem hcarries).symm
  have hvalue := (h.find?_eq hnames hread).symm.trans (h.find?_eq hnames hpair)
  obtain rfl : read = value := Option.some.inj hvalue
  exact ⟨_, length, hfeed,
    (inner.count_within ⟨name, fields, taker⟩ (h.find?_eq hnames hfound)).trans hcount, hinteger⟩

/-- The lengths in a record that it has from the records around have been read there. -/
theorem provided (h : FoundAll (Found holds name fields chain outer pairs) reader fields pairs next)
    (hnames : (fields.map FieldDescriptor.name).Nodup) :
    Descriptor.Provided ⟨.record name fields, byteOrder, hasFixedSize, minSize⟩
      (.record (Members.ofList (pairs ++ skipped fields))) chain outer := by
  intro demand hdemand inner enclosure outside hchain hinside hcarriers
  obtain ⟨taker, htaker, hserialize, own, hown, rfl⟩ := Descriptor.mem_demandsAll_iff.1 hdemand
  obtain ⟨found, _, _, hpair, -, traversal, ⟨typeName, subject, lengths, hframes, -⟩, hprovided⟩ :=
    h.exists_of_mem htaker hserialize
  have hinside' : ∀ other ∈ own.chain ++ ⟨name, fields, taker⟩ :: inner,
      other.carriers own.key = [] := by
    simpa [Demand.within] using hinside
  obtain ⟨length, hcount, hlength⟩ := hprovided own hown (⟨name, fields, taker⟩ :: inner) enclosure
    outside (congrArg _ hchain) hinside' hcarriers
  rw [Traversal.length?, hframes] at hlength
  exact ⟨length, (own.count_within ⟨name, fields, taker⟩ (h.find?_eq hnames hpair)).trans hcount,
    hlength⟩

end FoundAll

end FieldDescriptor

/-! ## Records -/

/-- What is found when a record is read, and the members that it has from it. -/
theorem Descriptor.exists_foundAll_of_decode {name : String} {fields : List FieldDescriptor}
    (holds : FieldDescriptor → Value → Reader → Reader → Prop)
    (hnames : (fields.map FieldDescriptor.name).Nodup)
    (hfields : ∀ field ∈ fields, field.serialize → ∀ traversal reader value next,
      (field.descriptor.operation (⟨name, fields, field⟩ :: chain)).decode traversal reader =
        .ok value next →
      field.descriptor.Provided value (⟨name, fields, field⟩ :: chain) traversal ∧
        holds field value reader next)
    (h : (operation chain ⟨.record name fields, byteOrder, hasFixedSize, minSize⟩).decode traversal
      reader = .ok value next) :
    ∃ pairs last, value = .ofMembers (pairs ++ FieldDescriptor.skipped fields) ∧
      FieldDescriptor.FoundAll (FieldDescriptor.Found holds name fields chain traversal pairs)
        { reader with active := none } fields pairs last ∧
      next = { last with active := none } := by
  rw [operation_record hnames] at h
  obtain ⟨members, last, hall, rfl, rfl⟩ := Operation.decode_record_eq_ok h
  have hwithin : traversal.Within fields [] (traversal.push name []) := ⟨name, [], [], rfl, by simp⟩
  obtain ⟨pairs, rfl, hfound⟩ := FieldDescriptor.exists_foundAll_of_decodeAll
    (fun field hmem ↦ ⟨hmem, hfields field hmem⟩) hwithin rfl hall
  rw [List.nil_append] at hfound ⊢
  refine ⟨pairs, last, ?_, hfound, rfl⟩
  rw [Value.ofMembers, Members.ofList_append]

end WireFormat
