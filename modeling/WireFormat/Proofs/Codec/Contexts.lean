import WireFormat.Proofs.Codec.Lockstep
import WireFormat.Proofs.Run.Elements

/-!
# The lengths that codecs see

A codec that names a record around it as its context is handed the members of that record.  On
reading, the lengths among them are the numbers that have been read, and these are the numbers that
were written.  On writing, the members are those that were given to the writer, which does not look
at the numbers in them but measures what they stand for.  The codec sees what is written only if the
members hold it already.

* `Context.HoldsWritten` — some members hold the lengths that have been written;
* `Schema.Calls.holdsWritten_iff` — these are the lengths that were measured;
* `Schema.contexts_of_serialize` — which contexts hold the lengths that have been written;
* `Schema.scaled` — a schema in which a codec sees another length than is written.
-/

namespace WireFormat

namespace Context

/-- Some members hold the lengths that have been written for the fields before. -/
def HoldsWritten (context : Context) (members : Members) : Prop :=
  ∀ carrier ∈ context.before, carrier.lengthOf.isSome →
    ∃ length : Nat, context.WritesLength carrier length ∧
      members.number? carrier.name = some (length : Int)

/-- The number that is written is the one that is measured. -/
theorem WritesLength.eq_of_measured {context : Context} {carrier : FieldPlan} {feed : LengthFeed}
    {written length : Nat} (h : context.WritesLength carrier written)
    (hfeed : carrier.feed = some feed) (hmeasured : feed.measured context.members = .ok length) :
    written = length := by
  obtain @⟨_, _, other, _, _, -, -, hother, hwritten, -⟩ := h
  obtain rfl := Option.some.inj (hfeed.symm.trans hother)
  exact Except.ok.inj (hwritten.symm.trans hmeasured)

/-- Of records that are read beside some that were written, the innermost of a name is read beside
the innermost of that name. -/
theorem innermost?_rel {contexts : List Context} {frames : List (Frame Members)}
    (h : List.Forall₂ Shown contexts frames) (typeName : String) :
    Option.Rel Shown (innermost? contexts typeName)
      (frames.find? fun frame ↦ frame.typeName == typeName) := by
  induction h with
  | nil => exact .none
  | @cons context frame contexts frames hshown _ ih =>
    rw [innermost?, List.find?_cons, List.find?_cons, hshown.typeName]
    split
    · exact .some hshown
    · exact ih

end Context

namespace Schema

variable {layout : Layout} {schema : Schema} {value : Value} {sink sink' : Sink} {count : Nat}

/-- What has been written is what was measured. -/
theorem Calls.holdsWritten_iff {contexts : List Context} {call : Call} {context : Context}
    (h : schema.Calls value sink contexts call) (hschema : ofLayout layout = .ok schema)
    (hmem : context ∈ contexts) (members : Members) :
    context.HoldsWritten members ↔ context.HoldsMeasured members := by
  obtain ⟨hdescribe, hplan⟩ := ofLayout_eq_ok hschema
  obtain ⟨⟨hsettled, -⟩, hroot, -, -⟩ := Plan.ofDescriptor_eq_ok_iff.1 hplan
  have hfeeds := (h.exists_descriptor hroot.symm (Layout.describe_coherent hdescribe) hsettled).2
    context hmem
  obtain ⟨next, hwrites⟩ := h.exists_writes hmem
  constructor
  · intro hholds carrier hcarrier feed length hfeed hmeasured
    obtain ⟨written, hwritten, hnumber⟩ :=
      hholds carrier hcarrier ((hfeeds carrier hcarrier).2 ⟨feed, hfeed⟩)
    rwa [hwritten.eq_of_measured hfeed hmeasured] at hnumber
  · intro hholds carrier hcarrier hcarries
    obtain ⟨feed, hfeed⟩ := (hfeeds carrier hcarrier).1 hcarries
    obtain ⟨length, hwritten⟩ := hwrites.exists_writesLength hcarrier hfeed
    obtain @⟨_, _, other, _, _, -, -, hother, hmeasured, -⟩ := id hwritten
    exact ⟨length, hwritten, hholds carrier hcarrier other length hother hmeasured⟩

/-- A codec that has a record as its context is handed the members that were given for the record,
and they hold the lengths that are written exactly if they hold those that are measured.  As long as
codecs take as many bytes as they have given, what it is handed on reading does hold the lengths
that were written. -/
theorem contexts_of_serialize (h : ofLayout layout = .ok schema)
    (hserialize : schema.serialize value sink = (.ok count, sink')) :
    (∀ contexts call, schema.Calls value sink contexts call →
      (∀ typeName, call.traversal.findSubject? typeName =
        (Context.innermost? contexts typeName).map Context.members) ∧
      ∀ context ∈ contexts, context.HoldsWritten context.members ↔
        context.HoldsMeasured context.members) ∧
    ∃ bytes, sink'.bytes.toList = sink.bytes.toList ++ bytes ∧ ∀ rest,
      (schema.start (bytes ++ rest)).TakesBack (schema.outset value sink) →
      ∀ stage codec typeName, schema.Visits (bytes ++ rest) stage →
        stage.operation = .custom codec (some typeName) →
        ∃ contexts call, schema.Calls value sink contexts call ∧
          call.operation = stage.operation ∧ call.traversal.path = stage.traversal.path ∧
          Option.Rel Context.HoldsWritten (Context.innermost? contexts typeName)
            (stage.traversal.findSubject? typeName) := by
  constructor
  · intro contexts call hcalls
    exact ⟨hcalls.findSubject?_eq rfl, fun context hmem ↦ hcalls.holdsWritten_iff h hmem _⟩
  · obtain ⟨bytes, hbytes, htrails⟩ := exists_trails_of_serialize h hserialize
    refine ⟨bytes, hbytes, fun rest hback stage codec typeName hvisits hcustom ↦ ?_⟩
    obtain ⟨contexts, call, hcalls, hoperation, hpath, hframes⟩ :=
      htrails rest hback stage hvisits codec (some typeName) hcustom
    refine ⟨contexts, call, hcalls, hoperation.symm, hpath.symm, ?_⟩
    have hrel := Context.innermost?_rel hframes typeName
    rw [Traversal.findSubject?]
    generalize stage.traversal.frames.find? _ = found at hrel ⊢
    cases hcontext : Context.innermost? contexts typeName with
    | none =>
      rw [hcontext] at hrel
      cases hrel
      exact .none
    | some context =>
      rw [hcontext] at hrel
      cases hrel with
      | some hshown =>
        have hmem := List.mem_of_find?_eq_some hcontext
        exact .some ((Calls.holdsWritten_iff hcalls h hmem _).2 hshown.holds)

end Schema

/-! ## A codec that scales -/

namespace Codec

/-- The factor in the context of a codec that scales. -/
def factor (context : Option Members) : Except Error Nat :=
  match context.bind fun members ↦ members.number? "factor" with
  | none => .error (.data (.custom "no factor in context"))
  | some number =>
    if number % 65536 = 0 then .error (.data (.custom "zero factor"))
    else .ok (number % 65536).toNat

/-- Writes how many times the factor fits into a reading, in two bytes. -/
def scaled : Codec where
  size := .exactly 2
  encode value context :=
    match value.toInteger? with
    | none => .fail (.data (.custom "reading must be an integer"))
    | some number =>
      match factor context with
      | .error error => .fail error
      | .ok factor =>
        .write (littleEndian 2 ((number % 65536).toNat / factor)) fun count ↦
          if count = 2 then .done else .fail (.io .writeZero)
  decode context :=
    .read 2 fun bytes ↦
      if bytes.length = 2 then
        match factor context with
        | .error error => .fail error
        | .ok factor => .done (.integer .u16 (BitVec.ofNat _ (ofLittleEndian bytes * factor)))
      else
        .fail (.io .unexpectedEof)

/-- Two bytes are given and two are taken. -/
theorem scaled_takesBack : scaled.TakesBack := by
  intro value given seen writer next reader read last bytes taken hencode _ hdecode
  have hgiven : bytes.length = 2 := by
    rw [scaled] at hencode
    dsimp only at hencode
    split at hencode
    · cases hencode
    · split at hencode
      · cases hencode
      · obtain ⟨count, middle, -, hencode⟩ := run_bind_eq_ok_iff.1 hencode
        obtain ⟨more, _, hmore, hencode⟩ := run_bind_eq_ok_iff.1 hencode
        obtain ⟨rfl, -⟩ := run_pure_eq_ok_iff.1 hencode
        dsimp only at hmore
        split at hmore
        · next htwo =>
          obtain ⟨rfl, -⟩ := run_pure_eq_ok_iff.1 hmore
          rw [htwo]
          rfl
        · cases hmore
  have htaken : taken.length = 2 := by
    obtain ⟨own, middle, -, hdecode⟩ := run_bind_eq_ok_iff.1 hdecode
    obtain ⟨⟨found, more⟩, _, hmore, hdecode⟩ := run_bind_eq_ok_iff.1 hdecode
    obtain ⟨hresult, -⟩ := run_pure_eq_ok_iff.1 hdecode
    obtain ⟨-, rfl⟩ := Prod.mk.inj hresult
    dsimp only at hmore
    split at hmore
    · next htwo =>
      split at hmore
      · cases hmore
      · obtain ⟨hdone, -⟩ := run_pure_eq_ok_iff.1 hmore
        cases hdone
        rw [List.append_nil, htwo]
    · cases hmore
  rw [hgiven, htaken]

end Codec

/-- A reading that is scaled by a factor, where the factor is the number of some items. -/
def Layout.scaled : Layout where
  name := "Scaled"
  fields := [
    { name := "factor", order := some 0, shape := .scalar (.integer .u8)
      lengthOf := some "items" },
    { name := "items", order := some 1, shape := .list ⟨.scalar (.integer .u8), none⟩
      tag := some (.list { lengthKey := some "items" }) },
    { name := "reading", order := some 2, shape := .scalar (.integer .u16)
      tag := some (.custom .scaled (some "Scaled")) }]

/-- The descriptor of a reading that is scaled by the number of some items. -/
def Descriptor.scaled : Descriptor where
  kind := .record "Scaled" [
    ⟨"factor", 0, .ofFixed (.scalar (.integer .u8)) .little 1, true, some "items", false⟩,
    ⟨"items", 1, ⟨.list (.ofFixed (.scalar (.integer .u8)) .little 1) (.keyed "items"), .little,
      false, 0⟩, true, none, false⟩,
    ⟨"reading", 2, ⟨.custom .scaled (some "Scaled"), .little, true, 2⟩, true, none, false⟩]
  byteOrder := .little
  hasFixedSize := false
  minSize := 3

/-- The reading is all that is left to a codec. -/
theorem Descriptor.scaled_takesBack : Descriptor.scaled.Everywhere fun inner ↦
    ∀ codec context, inner.kind = .custom codec context → codec.TakesBack := by
  refine .intro nofun nofun fun field hmem ↦ ?_
  obtain rfl | hmem := List.mem_cons.1 hmem
  · exact .intro nofun nofun nofun
  · obtain rfl | rfl := List.mem_pair.1 hmem
    · refine .intro nofun ?_ nofun
      rintro _ ⟨⟩
      exact .intro nofun nofun nofun
    · refine .intro ?_ nofun nofun
      rintro _ _ ⟨⟩
      exact Codec.scaled_takesBack

theorem Layout.describe_scaled : Layout.scaled.describe = .ok Descriptor.scaled := by cbv

/-- The field for the number of the items. -/
def FieldPlan.factor : FieldPlan :=
  ⟨"factor", .scalar (.integer .u8) false .native, some "items", some ⟨["items"], .elements⟩, false⟩

/-- The schema of a reading that is scaled by the number of some items. -/
def Schema.scaled : Schema where
  name := "Scaled"
  descriptor := .scaled
  plan := {
    root := {
      name := "Scaled"
      fields := [
        .factor,
        ⟨"items", .list (.scalar (.integer .u8) false .native) (.keyed ⟨"items", 0⟩)
          (some (.zero (.integer .u8))), none, none, false⟩,
        ⟨"reading", .custom .scaled (some "Scaled"), none, none, false⟩]
      skipped := [] }
    hasFixedSize := false
    minSize := 3 }

theorem Schema.ofLayout_scaled : ofLayout .scaled = .ok .scaled := by
  rw [ofLayout, Layout.describe_scaled]
  rfl

/-- A factor, one item and a reading. -/
def Members.scaled (factor : BitVec 8) (reading : BitVec 16) : Members :=
  [("factor", .integer .u8 factor), ("items", .list [.integer .u8 1]),
    ("reading", .integer .u16 reading)]

/-- The record that a reading of 250 is written in, after the factor and the item. -/
def Context.scaled (factor : BitVec 8) : Context where
  plan := Schema.scaled.plan.root
  outer := {}
  members := .scaled factor 250
  writer := {}
  before := Schema.scaled.plan.root.fields.take 2

/-- A reading of 250 is about to be written, after the factor and the item. -/
def Call.scaled (factor : BitVec 8) : Call where
  operation := .custom .scaled (some "Scaled")
  traversal := (Context.scaled factor).inner.enter "reading"
  value := .integer .u16 250
  writer := { sink := { bytes := #[1, 1] }, position := 2 }

/-- The two bytes of a reading are about to be read, after the factor and the item. -/
def Stage.scaled : Stage where
  operation := .custom .scaled (some "Scaled")
  traversal := {
    frames := [⟨"Scaled", [("factor", .integer .u8 1), ("items", .list [.integer .u8 1])],
      [("items", 1)]⟩]
    steps := [.member "reading"] }
  reader := { source := [250, 0], position := 2 }

/-- The members of the record around a reading are those that are given, whatever the factor is. -/
theorem Schema.calls_scaled (factor : BitVec 8) :
    scaled.Calls (.record (Members.scaled factor 250)) {} [.scaled factor] (.scaled factor) := by
  have hsplit : (Context.scaled factor).plan.fields = (Context.scaled factor).before ++ [_] := rfl
  exact .field .start (.intro hsplit ⟨_, rfl, rfl⟩ rfl rfl)

/-- The factor that is written is the number of the items, which is one. -/
theorem Context.scaled_writesLength (factor : BitVec 8) :
    (scaled factor).WritesLength .factor 1 := by
  have hsplit : (scaled factor).before = [] ++ .factor :: [_] := rfl
  exact .intro hsplit ⟨_, rfl, rfl⟩ rfl rfl rfl

/-- With a factor of 1, which is the number of the items, the codec sees what is written. -/
theorem Schema.scaled_contexts_of_serialize : ofLayout .scaled = .ok .scaled ∧
    scaled.serialize (.record (Members.scaled 1 250)) {} = (.ok 4, ⟨#[1, 1, 250, 0], none⟩) ∧
    scaled.Calls (.record (Members.scaled 1 250)) {} [.scaled 1] (.scaled 1) ∧
    (Call.scaled 1).traversal.findSubject? "Scaled" = some (Members.scaled 1 250) ∧
    (Context.scaled 1).HoldsWritten (Members.scaled 1 250) ∧
    scaled.Visits [1, 1, 250, 0] .scaled ∧
    ∃ contexts call, scaled.Calls (.record (Members.scaled 1 250)) {} contexts call ∧
      call.operation = Stage.scaled.operation ∧
      call.traversal.path = Stage.scaled.traversal.path ∧
      Option.Rel Context.HoldsWritten (Context.innermost? contexts "Scaled")
        (some [("factor", .integer .u8 1), ("items", .list [.integer .u8 1])]) := by
  have hserialize : scaled.serialize (.record (Members.scaled 1 250)) {} =
      (.ok 4, ⟨#[1, 1, 250, 0], none⟩) := rfl
  have hsplit : scaled.plan.root.fields = [_, _] ++ [_] := rfl
  have hvisits := visits_of_pass [1, 1, 250, 0] hsplit rfl
  obtain ⟨hcalls, bytes, hbytes, hreads⟩ := contexts_of_serialize ofLayout_scaled hserialize
  obtain ⟨hsubject, hholds⟩ := hcalls _ _ (calls_scaled 1)
  refine ⟨ofLayout_scaled, hserialize, calls_scaled 1, hsubject "Scaled",
    (hholds _ List.mem_cons_self).2 ?_, hvisits, ?_⟩
  · rintro carrier hcarrier feed length hfeed hmeasured
    obtain rfl | rfl := List.mem_pair.1 hcarrier
    · cases hfeed
      cases hmeasured
      rfl
    · cases hfeed
  · obtain rfl : bytes = [1, 1, 250, 0] := hbytes.symm
    have hback := takesBack_start ofLayout_scaled Descriptor.scaled_takesBack
      (.record (Members.scaled 1 250)) {} ([1, 1, 250, 0] ++ [])
    exact hreads [] hback _ _ _ hvisits rfl

/-- With a factor of 10, the codec sees this one and writes 25, but the factor that is written is
1.  So the reading is read back as 25. -/
theorem Schema.scaled_not_holdsWritten : ofLayout .scaled = .ok .scaled ∧
    scaled.toBytes (.record (Members.scaled 10 250)) = .ok [1, 1, 25, 0] ∧
    scaled.Calls (.record (Members.scaled 10 250)) {} [.scaled 10] (.scaled 10) ∧
    (Call.scaled 10).traversal.findSubject? "Scaled" = some (Members.scaled 10 250) ∧
    (Context.scaled 10).WritesLength .factor 1 ∧
    Members.number? (Members.scaled 10 250) "factor" = some 10 ∧
    ¬ (Context.scaled 10).HoldsWritten (Members.scaled 10 250) ∧
    scaled.deserialize [1, 1, 25, 0] = (.ok (.record (Members.scaled 1 25)), []) := by
  refine ⟨ofLayout_scaled, rfl, calls_scaled 10, rfl, Context.scaled_writesLength 10, rfl, ?_, rfl⟩
  rw [(calls_scaled 10).holdsWritten_iff ofLayout_scaled List.mem_cons_self]
  intro hholds
  have hnumber := hholds .factor List.mem_cons_self _ 1 rfl rfl
  cases hnumber

end WireFormat
