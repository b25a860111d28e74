import WireFormat.Proofs.Codec.Contexts
import WireFormat.Proofs.Run.Results

/-!
# The context of a codec that reads

A codec that names a record around it as its context is handed the members that have been read of
it.  The record is still being read: it has all fields on the wire before the one that leads to the
codec, at any depth, as they will be found in the record in the end.  Fields that are not on the
wire get their values only when the record has been read, and are never in a context.

* `FieldDescriptor.namesBefore` — the fields on the wire before a place in the order;
* `Traversal.findSubject?_eq_some` — a record is found if no other has its name;
* `Schema.context_of_deserialize` — what a codec is handed;
* `Schema.table` — a codec in a record in a list, below the record that it has as its context.
-/

namespace WireFormat

/-- The names of the fields on the wire that come before a place in the order. -/
def FieldDescriptor.namesBefore (fields : List FieldDescriptor) (order : Nat) : List String :=
  ((fields.filter FieldDescriptor.serialize).filter fun field ↦ field.order < order).map
    FieldDescriptor.name

/-- Fields are in order, so that those before a place are those before a field. -/
theorem FieldDescriptor.namesBefore_eq {fields before rest : List FieldDescriptor}
    {field : FieldDescriptor}
    (horders : fields.Pairwise fun first second ↦ first.order < second.order)
    (split : fields.filter FieldDescriptor.serialize = before ++ field :: rest) :
    namesBefore fields field.order = before.map FieldDescriptor.name := by
  have hsorted := horders.sublist (List.filter_sublist (p := FieldDescriptor.serialize))
  rw [split] at hsorted
  obtain ⟨-, hlater, hearlier⟩ := List.pairwise_append.1 hsorted
  rw [namesBefore, split, List.filter_append]
  have hbefore : before.filter (fun other ↦ decide (other.order < field.order)) = before :=
    List.filter_eq_self.2 fun other hother ↦
      decide_eq_true (hearlier other hother field List.mem_cons_self)
  have hrest : (field :: rest).filter (fun other ↦ decide (other.order < field.order)) = [] := by
    refine List.filter_eq_nil_iff.2 fun other hother ↦ ?_
    rw [decide_eq_true_eq, Nat.not_lt]
    rcases List.mem_cons.1 hother with rfl | hother
    · exact Nat.le_refl _
    · exact Nat.le_of_lt (List.rel_of_pairwise_cons hlater hother)
  rw [hbefore, hrest, List.append_nil]

/-- A field has a name from before a place only if it is on the wire there. -/
theorem FieldDescriptor.of_mem_namesBefore {fields : List FieldDescriptor}
    {field : FieldDescriptor} {order : Nat} (hnames : (fields.map FieldDescriptor.name).Nodup)
    (hmem : field ∈ fields) (h : field.name ∈ namesBefore fields order) :
    field.serialize ∧ field.order < order := by
  obtain ⟨other, hother, hname⟩ := List.mem_map.1 h
  obtain ⟨hother, hearlier⟩ := List.mem_filter.1 hother
  obtain ⟨hother, hserialize⟩ := List.mem_filter.1 hother
  obtain rfl := List.inj_on_of_nodup_map hnames hother hmem hname
  exact ⟨hserialize, of_decide_eq_true hearlier⟩

/-- A record is found by its name if no other record has it. -/
theorem Traversal.findSubject?_eq_some {traversal : Traversal Members} {frame : Frame Members}
    (hnames : (traversal.frames.map Frame.typeName).Nodup) (hmem : frame ∈ traversal.frames) :
    traversal.findSubject? frame.typeName = some frame.subject := by
  cases hfound : traversal.frames.find? fun other ↦ other.typeName == frame.typeName with
  | none => exact (List.find?_eq_none.1 hfound frame hmem (by simp)).elim
  | some other =>
    have hsame : other.typeName = frame.typeName := by simpa using List.find?_some hfound
    rw [List.inj_on_of_nodup_map hnames (List.mem_of_find?_eq_some hfound) hmem hsame] at hfound
    rw [findSubject?, hfound]
    rfl

namespace Schema

variable {layout : Layout} {schema : Schema} {bytes rest : List UInt8} {value : Value}
  {stage : Stage} {codec : Codec} {typeName : String} {path more : Path} {step : Segment}
  {descriptor : Descriptor} {fields : List FieldDescriptor}

/-- A codec that has a record around it as its context is handed the members of that record that
have been read: those on the wire before the one that leads to the codec, each as it is found in the
record in the end, and no others.  The record itself is found at its place of the whole, unless it
is in a free slot of a list. -/
theorem context_of_deserialize (h : ofLayout layout = .ok schema)
    (hdeserialize : schema.deserialize bytes = (.ok value, rest))
    (hvisits : schema.Visits bytes stage) (hcustom : stage.operation = .custom codec (some typeName))
    (hrecord : schema.descriptor.at? path = some descriptor)
    (hkind : descriptor.kind = .record typeName fields)
    (hpath : stage.traversal.path = path ++ step :: more) :
    (stage.traversal.frames.map Frame.typeName).count typeName = 1 ∧
    ∃ member ∈ fields, member.serialize ∧ step = .member member.name ∧
    ∃ around last members, schema.Visits bytes around ∧ around.Leads stage ∧
      around.traversal.path = path ∧ around.run = .ok (.record members) last ∧
      (value.at? path = some (.record members) ∨ value.EndsBefore path) ∧
    ∃ context, stage.traversal.findSubject? typeName = some context ∧
      stage.run = Operation.decodeCustom codec (some context) stage.reader ∧
      context.names.Perm (FieldDescriptor.namesBefore fields member.order) ∧
      context = members.filter (fun entry ↦
        entry.1 ∈ FieldDescriptor.namesBefore fields member.order) ∧
      ∀ field ∈ fields, field.name ∈ context.names →
        field.serialize ∧ field.order < member.order := by
  obtain ⟨around, inner, haround, henters, hleads, rfl, hinner⟩ :=
    Stage.Leads.exists_of_path hvisits rfl hpath
  obtain ⟨own, chain, hstands⟩ := exists_stands_of_visits h haround
  obtain rfl : own = descriptor := Option.some.inj (hstands.place.symm.trans hrecord)
  obtain ⟨_, _, hnested⟩ := exists_stands_of_visits h hvisits
  obtain ⟨whole, last, hrun, hplace⟩ := exists_run_of_visits h hdeserialize haround
  have hcoherent := hstands.coherent.here
  have hoperation := hstands.operation
  obtain ⟨operation, traversal, reader⟩ := around
  obtain ⟨kind, byteOrder, hasFixedSize, minSize⟩ := own
  obtain rfl := hkind
  have hnames := hcoherent.1.names
  rw [Descriptor.operation_record hnames] at hoperation
  obtain rfl := hoperation
  cases henters with
  | element position enters => cases enters
  | field field enters =>
    obtain ⟨before, after, pairs, found, others, lengths, next, hsplit, hpairs, hothers, rfl,
      hframes, -⟩ := enters.exists_of_run hrun
    have hdistinct := hstands.distinct.nodup hsplit hpairs found hothers
    rw [List.append_assoc] at hdistinct
    obtain ⟨done, tail, hwire, rfl, htail⟩ := List.map_eq_append_iff.1 hsplit
    obtain ⟨member, later, rfl, rfl, rfl⟩ := List.map_eq_cons_iff.1 htail
    have hmember : member ∈ fields ∧ member.serialize := by
      rw [← List.mem_filter, hwire]
      exact List.mem_append_right done List.mem_cons_self
    have hbefore : pairs.map Prod.fst = FieldDescriptor.namesBefore fields member.order := by
      rw [hpairs, FieldDescriptor.namesBefore_eq hcoherent.1.orders hwire, List.map_map]
      rfl
    -- The record is among those around the codec, where no other one has its name.
    have hframe := hleads.frames_suffix.subset (hframes ▸ List.mem_cons_self)
    have hsubject := Traversal.findSubject?_eq_some hnested.nodup hframe
    have hcontext : (Members.ofList pairs).names.Perm
        (FieldDescriptor.namesBefore fields member.order) := by
      rw [List.map_append] at hdistinct
      exact hbefore ▸ Members.names_ofList_perm (List.nodup_append.1 hdistinct).1
    refine ⟨List.count_eq_one_of_mem hnested.nodup (List.mem_map_of_mem hframe), member, hmember.1,
      hmember.2, ?_, _, last, _, haround, .head (.field _ enters) hleads, rfl, hrun, hplace, _,
      hsubject, ?_, hcontext, ?_, ?_⟩
    · have hstep := List.append_cancel_left (enters.path_eq.symm.trans hinner)
      exact (List.singleton_inj.1 hstep).symm
    · rw [Stage.run, hcustom, Operation.decode, Option.bind_some, hsubject]
    · rw [← hbefore, List.append_assoc]
      exact (Members.filter_ofList_append hdistinct).symm
    · exact fun field hfield hname ↦
        FieldDescriptor.of_mem_namesBefore hnames hfield (hcontext.mem_iff.1 hname)

end Schema

/-! ## A codec below its context -/

/-- A reading that is scaled by a factor of the table that it is in. -/
def Layout.row : Layout where
  name := "Row"
  fields := [
    { name := "reading", order := some 0, shape := .scalar (.integer .u16)
      tag := some (.custom .scaled (some "Table")) }]

/-- A factor, two readings and a last number, with one more that is not on the wire. -/
def Layout.table : Layout where
  name := "Table"
  fields := [
    { name := "factor", order := some 0, shape := .scalar (.integer .u8) },
    { name := "spare", order := some 1, shape := .scalar (.integer .u8), serialize := false },
    { name := "rows", order := some 2, shape := .list ⟨.record .row, none⟩
      tag := some (.list { fixedLength := some 2 }) },
    { name := "last", order := some 3, shape := .scalar (.integer .u8) }]

/-- The descriptor of a reading that is scaled by a factor of its table. -/
def Descriptor.row : Descriptor where
  kind := .record "Row" [
    ⟨"reading", 0, ⟨.custom .scaled (some "Table"), .little, true, 2⟩, true, none, false⟩]
  byteOrder := .little
  hasFixedSize := true
  minSize := 2

/-- The fields of a table. -/
def FieldDescriptor.table : List FieldDescriptor := [
  ⟨"factor", 0, .ofFixed (.scalar (.integer .u8)) .little 1, true, none, false⟩,
  ⟨"spare", 1, .ofFixed (.scalar (.integer .u8)) .little 1, false, none, false⟩,
  ⟨"rows", 2, ⟨.list .row (.fixed 2), .little, true, 4⟩, true, none, false⟩,
  ⟨"last", 3, .ofFixed (.scalar (.integer .u8)) .little 1, true, none, false⟩]

/-- The descriptor of a table. -/
def Descriptor.table : Descriptor where
  kind := .record "Table" FieldDescriptor.table
  byteOrder := .little
  hasFixedSize := true
  minSize := 6

theorem Layout.describe_table : Layout.table.describe = .ok Descriptor.table := by cbv

/-- The plan of a row of a table. -/
def RecordPlan.row : RecordPlan where
  name := "Row"
  fields := [⟨"reading", .custom .scaled (some "Table"), none, none, false⟩]
  skipped := []

/-- The schema of a table. -/
def Schema.table : Schema where
  name := "Table"
  descriptor := .table
  plan := {
    root := {
      name := "Table"
      fields := [
        ⟨"factor", .scalar (.integer .u8) false .native, none, none, false⟩,
        ⟨"rows", .list (.record .row) (.fixed 2) none, none, none, false⟩,
        ⟨"last", .scalar (.integer .u8) false .native, none, none, false⟩]
      skipped := [("spare", .integer .u8 0)] }
    hasFixedSize := true
    minSize := 6 }

theorem Schema.ofLayout_table : ofLayout .table = .ok .table := by
  rw [ofLayout, Layout.describe_table]
  rfl

/-- A table as it is read. -/
def Members.table : Members := [
  ("factor", .integer .u8 10), ("last", .integer .u8 99),
  ("rows", .list [.record [("reading", .integer .u16 50)], .record [("reading", .integer .u16 70)]]),
  ("spare", .integer .u8 0)]

/-- The second reading of a table is about to be read. -/
def Stage.table : Stage where
  operation := .custom .scaled (some "Table")
  traversal := {
    frames := [⟨"Row", [], []⟩, ⟨"Table", [("factor", .integer .u8 10)], []⟩]
    steps := [.member "reading", .index 1, .member "rows"] }
  reader := { source := [7, 0, 99], position := 3 }

theorem Schema.visits_table : table.Visits [10, 5, 0, 7, 0, 99] .table := by
  have hrows : table.plan.root.fields = [_] ++ _ :: [_] := rfl
  have hreading : RecordPlan.row.fields = [] ++ _ :: [] := rfl
  have hvisits := visits_of_pass [10, 5, 0, 7, 0, 99] hrows rfl
  have hrow := hvisits.tail (.element 1 (.intro rfl (by decide) rfl))
  exact hrow.tail (.field _ (.intro hreading rfl))

/-- The codec is handed the factor of the table alone: the rows are still being read, the last
number has not been, and the spare number is not on the wire. -/
theorem Schema.table_context_of_deserialize : ofLayout .table = .ok .table ∧
    table.deserialize [10, 5, 0, 7, 0, 99] = (.ok (.record Members.table), []) ∧
    table.Visits [10, 5, 0, 7, 0, 99] .table ∧
    (Stage.table.traversal.frames.map Frame.typeName).count "Table" = 1 ∧
    ∃ member ∈ FieldDescriptor.table, Segment.member "rows" = .member member.name ∧
    ∃ context, Stage.table.run =
        Operation.decodeCustom .scaled (some context) Stage.table.reader ∧
      context = [("factor", .integer .u8 10)] ∧
      context = Members.table.filter (fun entry ↦
        entry.1 ∈ FieldDescriptor.namesBefore FieldDescriptor.table member.order) := by
  have hdeserialize :
      table.deserialize [10, 5, 0, 7, 0, 99] = (.ok (.record Members.table), []) := rfl
  have hrecord : Schema.table.descriptor.at? [] = some Descriptor.table := rfl
  have hpath : Stage.table.traversal.path =
      [] ++ .member "rows" :: [.index 1, .member "reading"] := rfl
  obtain ⟨hcount, member, hmember, -, hstep, around, last, members, -, -, -, -, hplace, context,
    hsubject, hrun, -, hfilter, -⟩ := context_of_deserialize ofLayout_table hdeserialize
      visits_table rfl hrecord rfl hpath
  have hmembers : Members.table = members := by
    rcases hplace with hplace | hends
    · exact Value.record.inj (Option.some.inj hplace)
    · exact (Value.not_endsBefore_nil hends).elim
  obtain rfl := hmembers
  exact ⟨ofLayout_table, hdeserialize, visits_table, hcount, member, hmember, hstep, context, hrun,
    (Option.some.inj hsubject).symm, hfilter⟩

end WireFormat
