import WireFormat.Proofs.Format.Perform
import WireFormat.Proofs.Format.RoundTrip

/-!
# Encoding is canonical

What is read back makes the same moves as what was written: the lengths in it are those that were
written, and the defaults in it are those that were written into free slots.  So it is written as
the same bytes.

* `Descriptor.count_normalize` — lengths count the same in what is read back;
* `Descriptor.writes_normalize` — what is read back makes the same moves;
* `Schema.toBytes_deserialize` — and is written as the same bytes.
-/

namespace WireFormat

/-! ## Members -/

namespace Members

variable {name : String} {value : Value} {pairs : List (String × Value)}

theorem find?_foldl_insert {members : Members}
    (hvalue : (name, value) ∈ pairs ∨ find? name members = some value)
    (hother : ∀ other, (name, other) ∈ pairs → other = value) :
    find? name (pairs.foldl (fun members pair ↦ insert pair.1 pair.2 members) members) =
      some value := by
  induction pairs generalizing members with
  | nil => exact hvalue.resolve_left List.not_mem_nil
  | cons pair rest ih =>
    refine ih ?_ fun other hmem ↦ hother other (List.mem_cons_of_mem _ hmem)
    by_cases hname : name = pair.1
    · subst hname
      rw [find?_insert_self, hother pair.2 List.mem_cons_self]
      exact .inr rfl
    · rw [find?_insert_of_ne hname]
      refine hvalue.imp_left fun hmem ↦ (List.mem_cons.1 hmem).resolve_left ?_
      rintro rfl
      exact hname rfl

/-- A member about which all pairs agree is that of the pairs. -/
theorem find?_ofList (hmem : (name, value) ∈ pairs)
    (hother : ∀ other, (name, other) ∈ pairs → other = value) :
    find? name (ofList pairs) = some value :=
  find?_foldl_insert (.inl hmem) hother

end Members

namespace FieldDescriptor

variable {demands : List Demand} {members : Members} {name : String} {value : Value}
  {fields : List FieldDescriptor} {field : FieldDescriptor}

theorem mem_collect_iff {own? : FieldDescriptor → Option Value} :
    (name, value) ∈ collect own? fields ↔
      ∃ field ∈ fields, field.serialize ∧ field.name = name ∧ own? field = some value := by
  rw [collect, List.mem_filterMap]
  refine exists_congr fun field ↦ and_congr Iff.rfl ?_
  cases field.serialize with
  | false => simp
  | true => simp [and_comm]

theorem mem_skipped_iff : (name, value) ∈ skipped fields ↔
    ∃ field ∈ fields, field.serialize = false ∧ field.name = name ∧
      field.descriptor.default? = some value := by
  rw [skipped, List.mem_filterMap]
  refine exists_congr fun field ↦ and_congr Iff.rfl ?_
  cases field.serialize with
  | true => simp
  | false => simp [and_comm]

/-- A field on the wire is found among the members of a record that is read back. -/
theorem find?_collect {own? : FieldDescriptor → Option Value}
    (hnames : (fields.map FieldDescriptor.name).Nodup) (hmem : field ∈ fields)
    (hserialize : field.serialize) (h : own? field = some value) :
    (Members.ofList (collect own? fields ++ skipped fields)).find? field.name = some value := by
  refine Members.find?_ofList
    (List.mem_append_left _ (mem_collect_iff.2 ⟨field, hmem, hserialize, rfl, h⟩)) ?_
  intro other hother
  rcases List.mem_append.1 hother with hother | hother
  · obtain ⟨found, hfound, -, hname, hvalue⟩ := mem_collect_iff.1 hother
    obtain rfl : found = field := List.inj_on_of_nodup_map hnames hfound hmem hname
    exact Option.some.inj (hvalue.symm.trans h)
  · obtain ⟨found, hfound, hskipped, hname, -⟩ := mem_skipped_iff.1 hother
    obtain rfl : found = field := List.inj_on_of_nodup_map hnames hfound hmem hname
    rw [hserialize] at hskipped
    cases hskipped

/-- A field on the wire is found in what a record is read back as. -/
theorem find?_normalized (hnames : (fields.map FieldDescriptor.name).Nodup) (hmem : field ∈ fields)
    (hserialize : field.serialize)
    (h : normalizeOwn? demands members field.name field.descriptor.kind field.lengthOf
      field.descriptor.normalize = some value) :
    (Members.ofList (normalizeAll demands members fields ++ skipped fields)).find? field.name =
      some value := by
  rw [normalizeAll_eq_collect]
  exact find?_collect hnames hmem hserialize h

end FieldDescriptor

/-! ## Lengths -/

/-- What can carry a length takes none. -/
theorem Descriptor.demands_eq_nil {descriptor : Descriptor} (h : descriptor.kind.carriesLength) :
    descriptor.demands = [] := by
  obtain ⟨kind, byteOrder, hasFixedSize, minSize⟩ := descriptor
  cases kind with
  | scalar | bits => rfl
  | _ => cases h

/-- Only in a record that has a member can something be counted in the member. -/
theorem Demand.exists_member_of_count {demand : Demand} {enclosure : Enclosure} {value : Value}
    {length : Nat} (h : (demand.within enclosure).feed.count value = some length) :
    ∃ (members : Members) (inner : Value), value = .record members ∧
      members.find? enclosure.member.name = some inner ∧ demand.feed.count inner = some length := by
  have hpath : (demand.within enclosure).path = enclosure.member.name :: demand.path := by
    simp [path, within]
  obtain ⟨target, hfollow, hcount⟩ := Option.bind_eq_some_iff.1 h
  change value.follow? (demand.within enclosure).path = _ at hfollow
  rw [hpath] at hfollow
  obtain ⟨inner, hmember, hinner⟩ := Option.bind_eq_some_iff.1 hfollow
  obtain ⟨members, hmembers, hfind⟩ := Option.bind_eq_some_iff.1 hmember
  obtain rfl : value = .record members := by
    cases value <;> cases hmembers
    rfl
  exact ⟨members, inner, rfl, hfind, Option.bind_eq_some_iff.2 ⟨target, hinner, hcount⟩⟩

/-- What a length counts is the same in what is read back. -/
theorem Descriptor.count_normalize {descriptor : Descriptor}
    (hcoherent : descriptor.Everywhere Coherent) {demand : Demand}
    (hmem : demand ∈ descriptor.demands)
    {value : Value} {length : Nat} (h : demand.feed.count value = some length) :
    demand.feed.count (descriptor.normalize value) = some length := by
  induction descriptor using Descriptor.induction generalizing demand value with
  | step descriptor _ ihfields =>
    obtain ⟨kind, byteOrder, hasFixedSize, minSize⟩ := descriptor
    cases kind with
    | text encoding size => exact h
    | list element size =>
      obtain ⟨hchain, hkey, hmeasure⟩ := mem_policy_demands_iff.1 hmem
      obtain ⟨chain, key, measure⟩ := demand
      obtain rfl : chain = [] := hchain
      obtain rfl : measure = .elements := hmeasure
      cases value with
      | list items =>
        -- A list that takes a length is not extended when it is read back.
        cases size with
        | fixed slots => cases hkey
        | keyed | padded =>
          obtain rfl : items.length = length := Option.some.inj h
          exact congrArg some (List.length_map _)
      | _ => cases h
    | record name fields =>
      obtain ⟨field, hfield, hserialize, inner, hinner, rfl⟩ := mem_demandsAll_iff.1 hmem
      obtain ⟨members, value, rfl, hfind, hcount⟩ := Demand.exists_member_of_count h
      have hlength : field.lengthOf = none := by
        refine Option.not_isSome_iff_eq_none.1 fun hsome ↦ ?_
        rw [demands_eq_nil (hcoherent.here.1.carriers field hfield hsome)] at hinner
        cases hinner
      refine (inner.count_within ⟨name, fields, field⟩ ?_).trans
        (ihfields field hfield (hcoherent.of_field hfield) hinner hcount)
      refine FieldDescriptor.find?_normalized hcoherent.here.1.names hfield hserialize ?_
      rw [hlength]
      exact Option.map_eq_some_iff.2 ⟨value, hfind, rfl⟩
    | _ => cases hmem

/-! ## Moves -/

theorem forall₂_of_forall₂ {α β γ : Type} {R : α → β → Prop} {S : α → γ → Prop} {T : β → γ → Prop}
    {first : List α} {second : List β} {third : List γ} (hfirst : List.Forall₂ R first second)
    (hthird : List.Forall₂ S first third) (h : ∀ a b c, R a b → S a c → T b c) :
    List.Forall₂ T second third := by
  induction hfirst generalizing third with
  | nil =>
    cases hthird
    exact .nil
  | cons hab _ ih =>
    cases hthird with
    | cons hac hrest => exact .cons (h _ _ _ hab hac) (ih hrest)

/-- A list that is read back is filled up to the same items, each of them read back or not. -/
theorem SizePolicy.exists_filled?_extended {policy : SizePolicy String} {default? : Option Value}
    {items filled : List Value} {normalize : Value → Value}
    (h : policy.filled? default? items = some filled) :
    ∃ filled', policy.filled? default? ((policy.extended default? items).map normalize) =
        some filled' ∧
      List.Forall₂ (fun item item' ↦ item' = normalize item ∨ item' = item) filled filled' := by
  have hmap : ∀ values : List Value, List.Forall₂
      (fun item item' ↦ item' = normalize item ∨ item' = item) values (values.map normalize) :=
    fun values ↦ List.forall₂_map_right_iff.2 (List.forall₂_same.2 fun _ _ ↦ .inl rfl)
  cases policy with
  | keyed key =>
    cases h
    exact ⟨items.map normalize, rfl, hmap items⟩
  | fixed slots =>
    obtain ⟨-, hfilled, hslots⟩ := filled?_eq_some rfl h
    have hextended : (fixed slots : SizePolicy String).extended default? items = filled :=
      hfilled.symm
    refine ⟨filled.map normalize, ?_, hmap filled⟩
    rw [hextended, filled?, slots?, List.length_map, hslots]
    simp
  | padded key slots =>
    obtain ⟨hle, hdefault, hfilled⟩ := (filled?_eq_some_iff rfl).1 h
    rw [← List.length_map (f := normalize)] at hle hdefault hfilled
    refine ⟨_, (filled?_eq_some_iff rfl).2 ⟨hle, hdefault, rfl⟩, ?_⟩
    rw [hfilled]
    exact List.rel_append (hmap items) (List.forall₂_same.2 fun _ _ ↦ .inr rfl)

/-- The fields of a record that is read back make the same moves. -/
theorem FieldDescriptor.writesAll_normalize {name : String} {fields rest : List FieldDescriptor}
    {byteOrder : ByteOrder} {hasFixedSize : Bool} {minSize : UInt64}
    (hcoherent : Descriptor.Everywhere Descriptor.Coherent
      ⟨.record name fields, byteOrder, hasFixedSize, minSize⟩)
    (hfields : ∀ field ∈ rest, field ∈ fields ∧ ∀ value moves,
      field.descriptor.Writes value moves →
        field.descriptor.Writes (field.descriptor.normalize value) moves)
    {members : Members} {moves : List Move}
    (h : WritesAll (demandsAll name fields fields) members rest moves) :
    WritesAll (demandsAll name fields fields)
      (.ofList (normalizeAll (demandsAll name fields fields) members fields ++ skipped fields)) rest
      moves := by
  induction rest generalizing moves with
  | nil => exact h
  | cons field rest ih =>
    obtain ⟨⟨hmem, hfield⟩, hrest⟩ := List.forall_mem_cons.1 hfields
    cases hserialize : field.serialize with
    | false =>
      rw [writesAll_cons_of_not_serialize hserialize] at h ⊢
      exact ih hrest h
    | true =>
      rw [writesAll_cons_of_serialize hserialize] at h ⊢
      obtain ⟨own, more, hown, hmore, rfl⟩ := h
      refine ⟨own, more, ?_, ih hrest hmore, rfl⟩
      cases hlength : field.lengthOf with
      | none =>
        rw [hlength] at hown
        obtain ⟨value, hfind, hwrites⟩ := hown
        refine ⟨_, find?_normalized hcoherent.here.1.names hmem hserialize ?_,
          hfield value own hwrites⟩
        rw [hlength]
        exact Option.map_eq_some_iff.2 ⟨value, hfind, rfl⟩
      | some key =>
        rw [hlength] at hown
        obtain ⟨feed, length, hfeed, hcount, hwrites⟩ := hown
        obtain ⟨demand, hdemand, rfl⟩ := Option.map_eq_some_iff.1 hfeed
        exact ⟨_, length, hfeed, Descriptor.count_normalize hcoherent
          (List.mem_of_find?_eq_some hdemand) hcount, hwrites⟩

/-- What is read back makes the same moves. -/
theorem Descriptor.writes_normalize {descriptor : Descriptor}
    (hcoherent : descriptor.Everywhere Coherent) {value : Value} {moves : List Move}
    (h : descriptor.Writes value moves) :
    descriptor.Writes (descriptor.normalize value) moves := by
  induction descriptor using Descriptor.induction generalizing value moves with
  | step descriptor ihelement ihfields =>
    obtain ⟨kind, byteOrder, hasFixedSize, minSize⟩ := descriptor
    cases kind with
    | scalar | boolean | enum | text => exact h
    | bits content repr width container =>
      change if width = 0 then _ else _ at h
      change if width = 0 then _ else _
      split at h
      · next hwidth => rwa [if_pos hwidth]
      · next hwidth =>
        rw [if_neg hwidth]
        change ∃ bits, content.flavor.encodeBits (.integer repr) width (if width = 0 then _ else _) =
          .ok bits ∧ _
        rwa [if_neg hwidth]
    | list element size =>
      obtain ⟨items, filled, parts, rfl, hfilled, hparts, rfl⟩ := h
      obtain ⟨filled', hfilled', hsame⟩ := SizePolicy.exists_filled?_extended hfilled
      refine ⟨_, filled', parts, rfl, hfilled', ?_, rfl⟩
      refine forall₂_of_forall₂ hsame hparts ?_
      rintro item _ part (rfl | rfl) hwrites
      · exact ihelement element rfl (hcoherent.of_element rfl) hwrites
      · exact hwrites
    | record name fields =>
      obtain ⟨members, inner, rfl, hwrites, rfl⟩ := h
      refine ⟨_, inner, rfl, ?_, rfl⟩
      exact FieldDescriptor.writesAll_normalize hcoherent (fun field hmem ↦ ⟨hmem,
        fun value moves ↦ ihfields field hmem (hcoherent.of_field hmem)⟩) hwrites
    | custom codec context => exact h.elim

/-! ## Schemas -/

namespace Schema

variable {layout : Layout} {schema : Schema} {value : Value} {bytes : List UInt8}

theorem toBytes_eq_ok_iff : schema.toBytes value = .ok bytes ↔
    ∃ count sink, schema.serialize value {} = (.ok count, sink) ∧ sink.bytes.toList = bytes := by
  rw [toBytes]
  obtain ⟨result, sink⟩ := schema.serialize value {}
  cases result with
  | error error => simp
  | ok count => simp

theorem serialize_of_write {members : Members} {sink : Sink} {count : Nat} {writer : Writer}
    (h : schema.write members { sink := sink } = .ok count writer) :
    schema.serialize (.record members) sink = (.ok count, writer.sink) := by
  rw [serialize, show rootMembers (.record members) = .ok members from rfl]
  dsimp only
  rw [h]

/-- A value is written as the bytes that its moves come to. -/
theorem toBytes_of_emits (hperformed : schema.descriptor.IsPerformed)
    (hroot : schema.descriptor.operation [] = .record schema.plan.root) {moves : List Move}
    (hwrites : schema.descriptor.Writes value moves) {word : Nat}
    (hemits : Emits none (moves ++ [.bytes []]) word bytes) :
    schema.toBytes value = .ok bytes := by
  have hdue : Writer.Due (moves ++ [.bytes []]) bytes {} := ⟨rfl, word, bytes, hemits, rfl⟩
  obtain ⟨next, hencode, hnext⟩ := hperformed [] {} value moves hwrites _ _ _ hdue
  rw [hroot, Operation.encode] at hencode
  obtain ⟨members, middle, hmembers, hencode⟩ := run_bind_eq_ok_iff.1 hencode
  obtain ⟨hvalue, rfl⟩ := WriteM.run_ofData_eq_ok_iff.1 hmembers
  obtain rfl : value = .record members := by
    cases value <;> cases hvalue
    rfl
  -- The container that is pending at the end is what is left to go out.
  obtain ⟨-, _, _, hlast, houtcome⟩ := hnext.sent
  cases hlast with
  | done =>
    have hwrite : schema.write members {} = .ok _
        ({ next with packer := {} }.sent next.packer.pending) :=
      run_bind_eq_ok_iff.2 ⟨(), next, hencode, run_bind_eq_ok_iff.2
        ⟨(), _, Writer.flushBits_of_capacity_eq_none hnext.1, rfl⟩⟩
    refine toBytes_eq_ok_iff.2 ⟨_, _, serialize_of_write hwrite, ?_⟩
    rw [← houtcome]
    simp [Writer.outcome, Writer.sent, pendingBytes]

/-- What is read back from the bytes of a value is written as the same bytes. -/
theorem toBytes_deserialize (h : ofLayout layout = .ok schema) (hcodec : ¬ layout.UsesCodec)
    (hnul : schema.descriptor.NulFree value) (hbytes : schema.toBytes value = .ok bytes) :
    ∃ value', schema.deserialize bytes = (.ok value', []) ∧ schema.toBytes value' = .ok bytes := by
  obtain ⟨hdescribe, hplan⟩ := ofLayout_eq_ok h
  obtain ⟨⟨hsettled, hlent⟩, hroot, -, -⟩ := Plan.ofDescriptor_eq_ok_iff.1 hplan
  have hcoherent := Layout.describe_coherent hdescribe
  have hfree := Layout.everywhere_isCodec_eq_false hdescribe hcodec
  obtain ⟨count, sink, hserialize, rfl⟩ := toBytes_eq_ok_iff.1 hbytes
  obtain ⟨moves, word, bytes, hwrites, hemits, hsink, -⟩ :=
    exists_emits_of_serialize (Descriptor.isWritten hcoherent hfree hsettled) hroot hserialize
  obtain rfl : sink.bytes.toList = bytes := hsink
  refine ⟨schema.descriptor.normalize value, ?_, toBytes_of_emits (Descriptor.isPerformed hcoherent)
    hroot (Descriptor.writes_normalize hcoherent hwrites) hemits⟩
  have hread := deserialize_of_emits (Descriptor.readsBack hcoherent hsettled) hroot
    (Descriptor.lent_nil hlent) hnul hwrites hemits []
  rwa [List.append_nil] at hread

/-- A wrong count is written as the right one, and so is what is read back. -/
theorem counted_toBytes : counted.toBytes (.counted 9) = .ok [2, 3, 5] ∧
    counted.deserialize [2, 3, 5] = (.ok (.counted 2), []) ∧
    counted.toBytes (.counted 2) = .ok [2, 3, 5] := by
  have hbytes : counted.toBytes (.counted 9) = .ok [2, 3, 5] := rfl
  obtain ⟨value, hread, hwrite⟩ := toBytes_deserialize ofLayout_counted
    Layout.not_usesCodec_counted (Descriptor.nulFree_counted 9) hbytes
  have hcounted : counted.deserialize [2, 3, 5] = (.ok (.counted 2), []) := rfl
  obtain rfl : value = .counted 2 := by
    rw [hcounted] at hread
    injection hread with hvalue
    injection hvalue with hvalue
    exact hvalue.symm
  exact ⟨hbytes, hcounted, hwrite⟩

end Schema

end WireFormat
