import WireFormat.Proofs.Format.Texts
import WireFormat.Proofs.Format.Typing
import WireFormat.Proofs.Layout.Nesting
import WireFormat.Proofs.Run.Inside
import WireFormat.Proofs.Run.Paths

/-!
# What becomes of stages

In a run that succeeds everything that is about to be read is read in the end, and what it is read
as is found in the whole at its place.  Only the elements in free slots of a list are read and
dropped, and so is all that is inside them.

* `Stage.EntersField.exists_of_run`, `Stage.EntersElement.exists_of_run` — what is inside a record
  or a list that can be read;
* `Stage.Stands` — a stage at its place of a descriptor, inside records that all have other names;
* `Stage.Leads.exists_of_path` — a stage has come by way of every place before its own;
* `Schema.exists_run_of_visits` — what is read at a place, and where it is found.
-/

namespace WireFormat

variable {traversal after around : Traversal Members} {reader next last : Reader} {value : Value}

/-! ## Members -/

namespace Members

variable {name : String} {names : List String} {pairs more : List (String × Value)}

/-- A member with another name than some does not change them. -/
theorem filter_insert (h : name ∉ names) (value : Value) (members : Members) :
    (members.insert name value).filter (fun member ↦ member.1 ∈ names) =
      members.filter fun member ↦ member.1 ∈ names := by
  induction members with
  | nil => simp [insert, h]
  | cons member rest ih =>
    rw [insert]
    split
    · next hname =>
      rw [List.filter_cons_of_neg (by simp [h]), List.filter_cons_of_neg (by simp [← hname, h])]
    · split
      · rw [List.filter_cons_of_neg (by simp [h])]
      · rw [List.filter_cons, ih, List.filter_cons]

/-- Of members with different names, those that have come first are those that have the names of
the first. -/
theorem filter_ofList_append (hnames : ((pairs ++ more).map Prod.fst).Nodup) :
    (ofList (pairs ++ more)).filter (fun member ↦ member.1 ∈ pairs.map Prod.fst) = ofList pairs := by
  induction more using List.reverseRecOn with
  | nil =>
    rw [List.append_nil] at hnames ⊢
    rw [List.filter_eq_self]
    exact fun member hmember ↦ decide_eq_true
      ((names_ofList_perm hnames).mem_iff.1 (List.mem_map_of_mem hmember))
  | append_singleton more pair ih =>
    rw [← List.append_assoc, List.map_append, List.nodup_append] at hnames
    obtain ⟨hbefore, -, hother⟩ := hnames
    have hpair : pair.1 ∉ pairs.map Prod.fst := fun hmem ↦
      hother _ (List.map_append ▸ List.mem_append_left _ hmem) _ List.mem_cons_self rfl
    rw [← List.append_assoc, ← insert_ofList, filter_insert hpair, ih hbefore]

end Members

/-! ## Fields of a record -/

namespace FieldPlan

variable {fields before rest : List FieldPlan} {members : Members}
  {pairs : List (String × Value)}

/-- Fields that are passed become members of the innermost record. -/
theorem exists_pairs_of_pass {typeName : String} {lengths : List (String × Int)}
    {frames : List (Frame Members)}
    (hframes : traversal.frames = ⟨typeName, .ofList pairs, lengths⟩ :: frames)
    (h : pass traversal fields reader = .ok around next) :
    ∃ more lengths, more.map Prod.fst = fields.map FieldPlan.name ∧
      around.frames = ⟨typeName, .ofList (pairs ++ more), lengths⟩ :: frames := by
  induction fields generalizing traversal reader pairs lengths with
  | nil =>
    obtain ⟨rfl, -⟩ := run_pure_eq_ok_iff.1 h
    exact ⟨[], lengths, rfl, by rw [List.append_nil, hframes]⟩
  | cons field rest ih =>
    rw [pass, List.foldlM_cons, run_bind_eq_ok_iff] at h
    obtain ⟨after, middle, hadvance, h⟩ := h
    obtain ⟨found, _, -, hkeep, -⟩ := advance_eq_ok_iff.1 hadvance
    obtain ⟨own, hafter⟩ := exists_frame_of_keep hframes hkeep
    rw [Members.insert_ofList] at hafter
    obtain ⟨more, lengths, hnames, haround⟩ := ih hafter h
    refine ⟨(field.name, found) :: more, lengths, congrArg (List.cons field.name) hnames, ?_⟩
    rw [haround, List.append_assoc, List.singleton_append]

end FieldPlan

namespace Stage

variable {stage inner : Stage} {field : FieldPlan}

/-- A record that can be read is the members before a field, the field and those after it.  When the
field is about to be read, those before it are what is known of the record, and it can be read as
well. -/
theorem EntersField.exists_of_run {plan : RecordPlan}
    (h : EntersField ⟨.record plan, traversal, reader⟩ field inner)
    (hrun : run ⟨.record plan, traversal, reader⟩ = .ok value last) :
    ∃ before rest pairs found more lengths next, plan.fields = before ++ field :: rest ∧
      pairs.map Prod.fst = before.map FieldPlan.name ∧
      more.map Prod.fst = rest.map FieldPlan.name ∧
      value = .record (Members.ofList (pairs ++ (field.name, found) :: more ++ plan.skipped)) ∧
      inner.traversal.frames = ⟨plan.name, .ofList pairs, lengths⟩ :: traversal.frames ∧
      inner.run = .ok found next := by
  obtain @⟨_, before, rest, _, _, around, _, middle, split, passed⟩ := h
  obtain ⟨decoded, _, hall, rfl, -⟩ := Operation.decode_record_eq_ok hrun
  obtain ⟨name, fields, skipped⟩ := plan
  obtain rfl : fields = before ++ field :: rest := split
  obtain ⟨ending, hpass, rfl⟩ := FieldPlan.decodeAll_eq_ok_iff.1 hall
  rw [FieldPlan.pass_append, run_bind_eq_ok_iff] at hpass
  obtain ⟨_, _, hbefore, hpass⟩ := hpass
  obtain ⟨rfl, rfl⟩ := EStateM.Result.ok.inj (passed.symm.trans hbefore)
  rw [FieldPlan.pass, List.foldlM_cons, run_bind_eq_ok_iff] at hpass
  obtain ⟨after, _, hadvance, hpass⟩ := hpass
  obtain ⟨found, next, hfound, hkeep, -⟩ := FieldPlan.advance_eq_ok_iff.1 hadvance
  -- What is known of the record grows by the fields before, by the field and by those after it.
  have hstart : (traversal.push name []).frames = ⟨name, .ofList [], []⟩ :: traversal.frames := rfl
  obtain ⟨pairs, lengths, hpairs, haround⟩ := FieldPlan.exists_pairs_of_pass hstart passed
  rw [List.nil_append] at haround
  obtain ⟨own, hafter⟩ := FieldPlan.exists_frame_of_keep haround hkeep
  rw [Members.insert_ofList] at hafter
  obtain ⟨more, _, hmore, hending⟩ := FieldPlan.exists_pairs_of_pass hafter hpass
  refine ⟨before, rest, pairs, found, more, lengths, next, rfl, hpairs, hmore, ?_, haround, hfound⟩
  rw [Traversal.subject?, hending, Members.ofList_append _ skipped, List.append_assoc,
    List.singleton_append]
  rfl

end Stage

/-- The fields of a plan have different names, and so have those that are not on the wire. -/
def RecordPlan.Distinct (plan : RecordPlan) : Prop :=
  (plan.fields.map FieldPlan.name ++ plan.skipped.map Prod.fst).Nodup

/-- The members of a record that is read have different names. -/
theorem RecordPlan.Distinct.nodup {plan : RecordPlan} {before rest : List FieldPlan}
    {field : FieldPlan} {pairs more : List (String × Value)} (h : plan.Distinct)
    (split : plan.fields = before ++ field :: rest)
    (hpairs : pairs.map Prod.fst = before.map FieldPlan.name) (found : Value)
    (hmore : more.map Prod.fst = rest.map FieldPlan.name) :
    ((pairs ++ (field.name, found) :: more ++ plan.skipped).map Prod.fst).Nodup := by
  rw [Distinct, split] at h
  simpa [hpairs, hmore] using h

/-- Records with fields of different names have plans with fields of different names. -/
theorem Descriptor.distinct_of_operation {descriptor : Descriptor} {chain : List Enclosure}
    {plan : RecordPlan} (hnames : (descriptor.fields.map FieldDescriptor.name).Nodup)
    (h : descriptor.operation chain = .record plan) : plan.Distinct := by
  obtain ⟨kind, byteOrder, hasFixedSize, minSize⟩ := descriptor
  cases kind with
  | record name fields =>
    change (fields.map FieldDescriptor.name).Nodup at hnames
    rw [Descriptor.operation_record hnames] at h
    obtain rfl := Operation.record.inj h
    have hperm :=
      (List.filter_append_perm FieldDescriptor.serialize fields).map FieldDescriptor.name
    rw [List.map_append] at hperm
    rw [RecordPlan.Distinct, List.map_map]
    exact (hperm.nodup_iff.2 hnames).sublist
      ((List.Sublist.refl _).append (FieldDescriptor.map_fst_skipped fields))
  | _ => cases h

/-! ## Elements of a list -/

namespace Stage

variable {stage inner : Stage} {field : FieldPlan} {position : Nat}

/-- An element that is about to be read in a list that can be read can be read as well, and is an
item of the list unless the list has no more of them. -/
theorem EntersElement.exists_of_run (h : stage.EntersElement position inner)
    (hrun : stage.run = .ok value last) :
    ∃ items found next, value = .list items ∧ inner.run = .ok found next ∧
      (items[position]? = some found ∨ items.length ≤ position) := by
  obtain @⟨element, size, default?, traversal, reader, middle, kept, slots, _, before, hextent, hlt,
    passed⟩ := h
  rw [run, Operation.decode, run_bind_eq_ok_iff] at hrun
  obtain ⟨⟨_, _⟩, _, hdata, hrun⟩ := hrun
  obtain ⟨hextent', rfl⟩ := ReadM.run_ofData_eq_ok_iff.1 hdata
  obtain ⟨rfl, rfl⟩ := Prod.mk.inj (Except.ok.inj (hextent.symm.trans hextent'))
  obtain ⟨items, _, hitems, hrun⟩ := run_bind_eq_ok_iff.1 hrun
  obtain ⟨rfl, rfl⟩ := run_pure_eq_ok_iff.1 hrun
  obtain ⟨more, rfl⟩ := Nat.exists_eq_add_of_lt hlt
  change Operation.decodeItems (Operation.decodeItem traversal element) _ _ _ _ _ = _ at hitems
  rw [Nat.add_assoc] at hitems
  obtain ⟨_, _, hbefore, hitems⟩ := (Operation.decodeItems_add_eq_ok_iff position (more + 1)).1 hitems
  obtain ⟨rfl, rfl⟩ := EStateM.Result.ok.inj (passed.symm.trans hbefore)
  obtain ⟨found, _, hfound, hitems⟩ := run_bind_eq_ok_iff.1 hitems
  rw [Nat.zero_add] at hfound hitems
  refine ⟨items, found, _, rfl, ReadM.run_locate_eq_ok_iff.1 hfound, ?_⟩
  -- The item has as many before it as have been kept of those before.
  obtain ⟨_, rfl, hcount, -⟩ := Operation.exists_found_of_decodeItems
    (fun _ _ _ _ _ ↦ trivial) passed
  obtain ⟨tail, rfl, hlength, -⟩ := Operation.exists_found_of_decodeItems
    (fun _ _ _ _ _ ↦ trivial) hitems
  rw [Nat.sub_zero] at hcount
  by_cases hkept : position < kept
  · left
    rw [if_pos hkept]
    have hbefore : before.length = position := by simpa [Nat.min_eq_left hkept.le] using hcount
    simp [← hbefore]
  · right
    rw [if_neg hkept]
    simp
    omega

end Stage

/-! ## Places -/

/-- What is further on from a place is at the place that both make up. -/
theorem Value.at?_append (path more : Path) (value : Value) :
    value.at? (path ++ more) = (value.at? path).bind (at? more) := by
  induction path generalizing value with
  | nil => rfl
  | cons segment path ih =>
    cases segment <;> simp only [List.cons_append, at?, funext ih, Option.bind_assoc]

theorem Descriptor.at?_append (path more : Path) (descriptor : Descriptor) :
    descriptor.at? (path ++ more) = (descriptor.at? path).bind (at? more) := by
  induction path generalizing descriptor with
  | nil => rfl
  | cons segment path ih =>
    cases segment <;> simp only [List.cons_append, at?, funext ih, Option.bind_assoc]

/-- A list on the way to a place has ended before. -/
inductive Value.EndsBefore (value : Value) : Path → Prop where
  | intro {path rest : Path} {items : List Value} {position : Nat}
      (list : value.at? path = some (.list items)) (le : items.length ≤ position) :
      EndsBefore value (path ++ .index position :: rest)

/-- There is no list on the way to the whole. -/
theorem Value.not_endsBefore_nil : ¬ value.EndsBefore [] := by
  generalize hpath : [] = path
  rintro ⟨-, -⟩
  exact List.append_ne_nil_of_right_ne_nil _ (List.cons_ne_nil _ _) hpath.symm

theorem Value.EndsBefore.append {path : Path} (h : value.EndsBefore path) (more : Path) :
    value.EndsBefore (path ++ more) := by
  cases h with
  | intro list le =>
    rw [List.append_assoc, List.cons_append]
    exact .intro list le

/-- A field of a record is found by its name. -/
theorem Descriptor.at?_member {descriptor : Descriptor} {field : FieldDescriptor}
    (hnames : (descriptor.fields.map FieldDescriptor.name).Nodup)
    (hmem : field ∈ descriptor.fields) (hserialize : field.serialize) :
    descriptor.at? [.member field.name] = some field.descriptor := by
  have hfind : (descriptor.fields.find? fun other ↦
      other.serialize && other.name == field.name) = some field := by
    cases hfound : descriptor.fields.find? fun other ↦
        other.serialize && other.name == field.name with
    | none => exact (List.find?_eq_none.1 hfound field hmem (by simp [hserialize])).elim
    | some other =>
      have hsame : other.serialize ∧ other.name = field.name := by
        simpa using List.find?_some hfound
      rw [List.inj_on_of_nodup_map hnames (List.mem_of_find?_eq_some hfound) hmem hsame.2]
  rw [at?, hfind]
  rfl

namespace Stage

variable {stage inner middle : Stage} {field : FieldPlan} {position : Nat}

theorem EntersField.path_eq (h : stage.EntersField field inner) :
    inner.traversal.path = stage.traversal.path ++ [.member field.name] := by
  obtain ⟨-, passed⟩ := h
  rw [Traversal.path_enter, FieldPlan.path_of_pass passed]
  rfl

theorem EntersElement.path_eq (h : stage.EntersElement position inner) :
    inner.traversal.path = stage.traversal.path ++ [.index position] := by
  cases h
  exact Traversal.path_enterIndex _ _

/-- What is entered is one step further on. -/
theorem Enters.exists_path_eq (h : stage.Enters inner) :
    ∃ step, inner.traversal.path = stage.traversal.path ++ [step] := by
  cases h with
  | field field enters => exact ⟨_, enters.path_eq⟩
  | element position enters => exact ⟨_, enters.path_eq⟩

/-- The field of a record has the record around it, besides those that are around the record. -/
theorem EntersField.exists_frame {plan : RecordPlan}
    (h : EntersField ⟨.record plan, traversal, reader⟩ field inner) : ∃ subject lengths,
      inner.traversal.frames = ⟨plan.name, subject, lengths⟩ :: traversal.frames := by
  obtain @⟨_, before, rest, _, _, around, _, middle, split, passed⟩ := h
  have hstart : (traversal.push plan.name []).frames =
      ⟨plan.name, .ofList [], []⟩ :: traversal.frames := rfl
  obtain ⟨_, lengths, -, haround⟩ := FieldPlan.exists_pairs_of_pass hstart passed
  exact ⟨_, lengths, haround⟩

/-- What is entered has all records around it that the whole has. -/
theorem Enters.frames_suffix (h : stage.Enters inner) :
    stage.traversal.frames <:+ inner.traversal.frames := by
  cases h with
  | field field enters =>
    obtain ⟨operation, traversal, reader⟩ := stage
    cases operation with
    | record plan =>
      obtain ⟨_, _, hframes⟩ := enters.exists_frame
      rw [hframes]
      exact List.suffix_cons _ _
    | _ => cases enters
  | element position enters =>
    cases enters
    exact List.suffix_refl _

theorem Leads.frames_suffix (h : stage.Leads inner) :
    stage.traversal.frames <:+ inner.traversal.frames := by
  induction h with
  | refl => exact List.suffix_refl _
  | tail _ henters ih => exact ih.trans henters.frames_suffix

/-- A stage has come by way of every place before its own. -/
theorem Leads.exists_of_path {path more : Path} {step : Segment} (h : stage.Leads inner)
    (hstart : stage.traversal.path = [])
    (hpath : inner.traversal.path = path ++ step :: more) :
    ∃ around next, stage.Leads around ∧ around.Enters next ∧ next.Leads inner ∧
      around.traversal.path = path ∧ next.traversal.path = path ++ [step] := by
  induction h generalizing more with
  | refl =>
    rw [hstart] at hpath
    exact (List.append_ne_nil_of_right_ne_nil path (List.cons_ne_nil step more) hpath.symm).elim
  | @tail middle last hleads henters ih =>
    obtain ⟨own, hown⟩ := henters.exists_path_eq
    rw [hown] at hpath
    cases more using List.reverseRecOn with
    | nil =>
      obtain ⟨hbefore, hstep⟩ := List.append_inj' hpath rfl
      obtain rfl := List.singleton_inj.1 hstep
      exact ⟨middle, last, hleads, henters, .refl, hbefore, hbefore ▸ hown⟩
    | append_singleton more final =>
      have hsplit : middle.traversal.path ++ [own] = (path ++ step :: more) ++ [final] := by
        rw [hpath, List.append_assoc, List.cons_append]
      obtain ⟨around, next, haround, hnext, hinner, hplaces⟩ := ih (List.append_inj' hsplit rfl).1
      exact ⟨around, next, haround, hnext, hinner.tail henters, hplaces⟩

/-! ## Stages at descriptors -/

/-- The stage is at its place of a descriptor.  The records around it all have different names, and
none of them has the name of a record inside. -/
structure Stands (root descriptor : Descriptor) (chain : List Enclosure) (stage : Stage) :
    Prop where
  operation : stage.operation = descriptor.operation chain
  place : root.at? stage.traversal.path = some descriptor
  coherent : descriptor.Everywhere Descriptor.Coherent
  apart : descriptor.Apart (stage.traversal.frames.map Frame.typeName).reverse
  nodup : (stage.traversal.frames.map Frame.typeName).Nodup

namespace Stands

variable {root descriptor : Descriptor} {chain : List Enclosure}

theorem distinct {plan : RecordPlan}
    (h : Stands root descriptor chain ⟨.record plan, traversal, reader⟩) : plan.Distinct :=
  Descriptor.distinct_of_operation h.coherent.here.nodup_names h.operation.symm

/-- The elements of a list stand inside it. -/
theorem of_entersElement (h : stage.Stands root descriptor chain)
    (henters : stage.EntersElement position inner) :
    ∃ element ∈ descriptor.element?, inner.Stands root element [] := by
  have hpath := henters.path_eq
  obtain ⟨hoperation, hplace, hcoherent, hapart, hnodup⟩ := h
  obtain @⟨_, size, default?, traversal, reader, next, kept, slots, position, before, hextent, hlt,
    hpassed⟩ := henters
  obtain ⟨kind, byteOrder, hasFixedSize, minSize⟩ := descriptor
  cases kind with
  | list element policy =>
    obtain ⟨rfl, rfl, rfl⟩ := Operation.list.inj hoperation
    refine ⟨element, rfl, rfl, ?_, hcoherent.of_element rfl, hapart.of_element rfl, hnodup⟩
    rw [hpath, Descriptor.at?_append, hplace]
    rfl
  | _ => cases hoperation

/-- The fields of a record stand inside it, and have it around them. -/
theorem of_entersField (h : stage.Stands root descriptor chain)
    (henters : stage.EntersField field inner) :
    ∃ own ∈ descriptor.fields, own.serialize ∧ field.name = own.name ∧
      inner.Stands root own.descriptor (descriptor.enclosure own :: chain) := by
  have hpath := henters.path_eq
  obtain ⟨hoperation, hplace, hcoherent, hapart, hnodup⟩ := h
  obtain ⟨operation, traversal, reader⟩ := stage
  obtain ⟨kind, byteOrder, hasFixedSize, minSize⟩ := descriptor
  cases kind with
  | record name fields =>
    have hown := hcoherent.here.1
    rw [Descriptor.operation_record hown.names] at hoperation
    obtain rfl := hoperation
    obtain ⟨subject, lengths, hframes⟩ := henters.exists_frame
    obtain @⟨_, before, rest, _, _, around, _, next, split, hpassed⟩ := henters
    obtain ⟨own, hmem, rfl⟩ : ∃ own ∈ fields.filter FieldDescriptor.serialize,
        FieldDescriptor.plan name fields chain own = field := by
      have hfield : field ∈ before ++ field :: rest :=
        List.mem_append_right before List.mem_cons_self
      rw [← split] at hfield
      exact List.mem_map.1 hfield
    obtain ⟨hmem, hserialize⟩ := List.mem_filter.1 hmem
    refine ⟨own, hmem, hserialize, rfl, rfl, ?_, hcoherent.of_field hmem, ?_, ?_⟩
    · rw [hpath, Descriptor.at?_append, hplace]
      exact Descriptor.at?_member hown.names hmem hserialize
    · rw [hframes, List.map_cons, List.reverse_cons]
      exact hapart.of_field hmem
    · rw [hframes, List.map_cons, List.nodup_cons, ← List.mem_reverse]
      exact ⟨hapart.not_mem rfl, hnodup⟩
  | _ =>
    obtain rfl := hoperation
    cases henters

end Stands

end Stage

/-! ## Runs of schemas -/

namespace Schema

variable {layout : Layout} {schema : Schema} {bytes rest : List UInt8} {stage : Stage}

/-- Whatever is about to be read stands at its place. -/
theorem exists_stands_of_visits (h : ofLayout layout = .ok schema)
    (hvisits : schema.Visits bytes stage) :
    ∃ descriptor chain, stage.Stands schema.descriptor descriptor chain := by
  obtain ⟨hdescribe, hplan⟩ := ofLayout_eq_ok h
  obtain ⟨-, hroot, -, -⟩ := Plan.ofDescriptor_eq_ok_iff.1 hplan
  induction hvisits with
  | refl =>
    exact ⟨schema.descriptor, [], hroot.symm, rfl, Layout.describe_coherent hdescribe,
      Layout.describe_apart hdescribe, List.nodup_nil⟩
  | tail _ henters ih =>
    obtain ⟨descriptor, chain, hstands⟩ := ih
    cases henters with
    | field field enters =>
      obtain ⟨own, -, -, -, hinner⟩ := hstands.of_entersField enters
      exact ⟨_, _, hinner⟩
    | element position enters =>
      obtain ⟨element, -, hinner⟩ := hstands.of_entersElement enters
      exact ⟨_, _, hinner⟩

/-- In bytes that can be read, everything that is about to be read can be read, and is found at its
place of the whole, unless a list on the way there has ended before. -/
theorem exists_run_of_visits (h : ofLayout layout = .ok schema)
    (hdeserialize : schema.deserialize bytes = (.ok value, rest))
    (hvisits : schema.Visits bytes stage) :
    ∃ found last, stage.run = .ok found last ∧
      (value.at? stage.traversal.path = some found ∨ value.EndsBefore stage.traversal.path) := by
  induction hvisits with
  | refl =>
    rw [deserialize] at hdeserialize
    split at hdeserialize
    · next members last hdecode =>
      cases hdeserialize
      refine ⟨.record members, last, ?_, .inl rfl⟩
      rw [start, Stage.run, Operation.decode]
      exact run_bind_eq_ok_iff.2 ⟨members, last, hdecode, rfl⟩
    · cases hdeserialize
  | @tail stage inner hvisits henters ih =>
    obtain ⟨whole, last, hrun, hplace⟩ := ih
    cases henters with
    | field field enters =>
      obtain ⟨operation, traversal, reader⟩ := stage
      cases operation with
      | record plan =>
        obtain ⟨descriptor, chain, hstands⟩ := exists_stands_of_visits h hvisits
        obtain ⟨before, rest, pairs, found, more, lengths, next, hsplit, hpairs, hmore, rfl, -,
          hinner⟩ := enters.exists_of_run hrun
        refine ⟨found, next, hinner, ?_⟩
        rw [enters.path_eq]
        rcases hplace with hplace | hends
        · left
          have hnames := hstands.distinct.nodup hsplit hpairs found hmore
          have hmem : (field.name, found) ∈ pairs ++ (field.name, found) :: more ++ plan.skipped :=
            List.mem_append_left _ (List.mem_append_right _ List.mem_cons_self)
          rw [Value.at?_append, hplace]
          change (Members.find? field.name _).bind _ = _
          rw [Members.find?_ofList hmem fun _ hother ↦
            (Prod.mk.inj (List.inj_on_of_nodup_map hnames hother hmem rfl)).2]
          rfl
        · exact .inr (hends.append _)
      | _ => cases enters
    | element position enters =>
      obtain ⟨items, found, next, rfl, hinner, hitem⟩ := enters.exists_of_run hrun
      refine ⟨found, next, hinner, ?_⟩
      rw [enters.path_eq]
      rcases hplace with hplace | hends
      · rcases hitem with hitem | hle
        · left
          rw [Value.at?_append, hplace]
          change items[position]?.bind _ = _
          rw [hitem]
          rfl
        · exact .inr (.intro hplace hle)
      · exact .inr (hends.append _)

end Schema

end WireFormat
