import WireFormat.Proofs.Codec.Following
import WireFormat.Proofs.Run.Inside

/-!
# Writing and reading in step

As long as codecs take as many bytes as they have given, what is read goes through what has been
written call by call, and holds the lengths that were measured.

* `Stage.follows_list`, `Stage.follows_record` — from what is inside to the whole;
* `FieldDescriptor.reached_of_keep` — the lengths that are held are those that were measured;
* `Descriptor.isFollowed` — reading keeps in step with writing;
* `Schema.exists_trails_of_serialize` — along a whole run.
-/

namespace WireFormat

open Reader (Ahead)

variable {start : Call} {contexts : List Context}

/-! ## Lists -/

/-- A list follows if its items do. -/
theorem Stage.follows_list {element : Operation} {size : SizePolicy LengthSource}
    {default? : Option Value} {traversal : Traversal Members} {kept slots : Nat} {reader : Reader}
    {more : List Move} {rest : List UInt8} (hextent : traversal.extent size = .ok (kept, slots))
    (h : start.Paces (IsItem element traversal kept 0 slots [] reader)
      (Operation.decodeItems (Operation.decodeItem traversal element) kept 0 [] slots reader) more
      rest) :
    Follows ⟨.list element size default?, traversal, reader⟩ start more rest := by
  refine follows_of_paces (by rintro _ _ ⟨⟩)
    ⟨fun inner henters ↦ h.trails inner ((enters_list_iff hextent).1 henters), ?_⟩
  intro found last hread
  rw [run, Operation.decode] at hread
  obtain ⟨⟨own, count⟩, _, hdata, hread⟩ := run_bind_eq_ok_iff.1 hread
  obtain ⟨hown, rfl⟩ := ReadM.run_ofData_eq_ok_iff.1 hdata
  obtain ⟨rfl, rfl⟩ := Prod.mk.inj (Except.ok.inj (hextent.symm.trans hown))
  obtain ⟨values, _, hitems, hread⟩ := run_bind_eq_ok_iff.1 hread
  obtain ⟨-, rfl⟩ := run_pure_eq_ok_iff.1 hread
  exact h.ahead values _ hitems

namespace Descriptor

/-- Reading some items of a list, from a position on, keeps in step with the moves that were made
for them. -/
def ItemsStayBeside (element : Descriptor) (start : Call) (contexts : List Context)
    (outer : Traversal Members) (position count : Nat) (moves : List Move) : Prop :=
  ∀ outset : Stage, outset.TakesBack start → ∀ traversal more source kept values reader,
    traversal.path = outer.path → List.Forall₂ Context.Shown contexts traversal.frames →
    Ahead (moves ++ more) source reader →
    (∀ stage, Stage.IsItem (element.operation []) traversal kept position count values reader
      stage → outset.Leads stage) →
    start.Paces (Stage.IsItem (element.operation []) traversal kept position count values reader)
      (Operation.decodeItems (Operation.decodeItem traversal (element.operation [])) kept position
        values count reader) more source

variable {element : Descriptor} {outer : Traversal Members} {item : Value} {writer : Writer}
  {position count : Nat} {own moves : List Move}

theorem ItemsStayBeside.nil : element.ItemsStayBeside start contexts outer position 0 [] := by
  intro outset _ traversal more source kept values reader _ _ hahead _
  refine ⟨fun stage hstage ↦ (Stage.not_isItem_zero hstage).elim, fun found last hread ↦ ?_⟩
  obtain ⟨-, rfl⟩ := run_pure_eq_ok_iff.1 hread
  exact hahead

/-- The items after one that has been read stay in step if this one does. -/
theorem ItemsStayBeside.cons
    (hitem : element.StaysBeside start contexts []
      ⟨element.operation [], outer.enterIndex position, item, writer⟩ own)
    (hmore : element.ItemsStayBeside start contexts outer (position + 1) count moves) :
    element.ItemsStayBeside start contexts outer position (count + 1) (own ++ moves) := by
  intro outset hback traversal more source kept values reader hpath hframes hahead hleads
  rw [List.append_assoc] at hahead
  have hfirst : Stage.Follows ⟨element.operation [], traversal.enterIndex position, reader⟩ start
      (moves ++ more) source := by
    refine hitem outset hback _ _ _ _ (element.provided_nil _ _) ?_ hframes hahead
      (hleads _ (Stage.isItem_succ_iff.2 (.inl rfl)))
    rw [Traversal.path_enterIndex, hpath, Traversal.path_enterIndex]
  -- Once the first item has been read, the reader is before the others.
  have hothers {read : Value} {after : Reader}
      (hread : Operation.decodeItem traversal (element.operation []) position reader =
        .ok read after) :=
    hmore outset hback traversal more source kept
      (if position < kept then read :: values else values) after hpath hframes
      (hfirst.ahead read after (ReadM.run_locate_eq_ok_iff.1 hread))
      fun stage hlater ↦
        hleads stage (Stage.isItem_succ_iff.2 (.inr ⟨read, after, hread, hlater⟩))
  constructor
  · intro stage hstage
    rcases Stage.isItem_succ_iff.1 hstage with rfl | ⟨read, after, hread, hlater⟩
    · exact hfirst.trails
    · exact (hothers hread).trails stage hlater
  · intro found last hfound
    obtain ⟨read, after, hread, hfound⟩ := run_bind_eq_ok_iff.1 hfound
    exact (hothers hread).ahead found last hfound

/-- The items of a list are read in step. -/
theorem IsFollowed.exists_itemsStayBeside {size : SizePolicy LengthSource}
    {default? : Option Value} {items before rest : List Value} {first next : Writer}
    (h : element.IsFollowed start) (hlent : element.Lent [])
    (hwithin : start.Within contexts ⟨.list (element.operation []) size default?, outer,
      .list items, first⟩)
    (hfills : size.filled? default? items = some (before ++ rest))
    (hposition : before.length = position)
    (hbefore : Operation.forItems (Operation.encodeItem outer (element.operation [])) 0 before
      first = .ok () writer)
    (hrest : Operation.forItems (Operation.encodeItem outer (element.operation [])) position rest
      writer = .ok () next) :
    ∃ moves, writer.Along moves next ∧
      element.ItemsStayBeside start contexts outer position rest.length moves := by
  induction rest generalizing before writer position with
  | nil =>
    obtain ⟨-, rfl⟩ := run_pure_eq_ok_iff.1 hrest
    exact ⟨[], .refl writer, .nil⟩
  | cons item rest ih =>
    subst hposition
    obtain ⟨_, middle, hitem, hrest⟩ := run_bind_eq_ok_iff.1 hrest
    have hcall : start.Within contexts
        ⟨element.operation [], outer.enterIndex before.length, item, writer⟩ :=
      hwithin.element (.intro hfills hbefore)
    obtain ⟨own, hown, hstays⟩ := h [] contexts _ middle hlent rfl hcall
      (WriteM.run_locate_eq_ok_iff.1 hitem)
    have hdone : Operation.forItems (Operation.encodeItem outer (element.operation [])) 0
        (before ++ [item]) first = .ok () middle := by
      rw [Operation.forItems_append, Nat.zero_add]
      refine run_bind_eq_ok_iff.2 ⟨(), writer, hbefore, ?_⟩
      exact run_bind_eq_ok_iff.2 ⟨(), middle, hitem, rfl⟩
    have hfills : size.filled? default? items = some ((before ++ [item]) ++ rest) := by
      rwa [List.append_assoc]
    have hlength : (before ++ [item]).length = before.length + 1 := List.length_append
    obtain ⟨moves, hmoves, hmore⟩ := ih hfills hlength hdone hrest
    exact ⟨own ++ moves, hown.trans hmoves, .cons hstays hmore⟩

end Descriptor

theorem Descriptor.isFollowed_list {element : Descriptor} {size : SizePolicy String}
    {byteOrder : ByteOrder} {hasFixedSize : Bool} {minSize : UInt64}
    (helement : element.IsFollowed start) (hinside : element.Lent []) :
    IsFollowed ⟨.list element size, byteOrder, hasFixedSize, minSize⟩ start := by
  rintro chain contexts ⟨operation, outer, value, writer⟩ next hlent hoperation hwithin hrun
  obtain rfl : operation =
    .list (element.operation []) (size.map (.from chain)) element.default? := hoperation
  obtain ⟨items, filled, rfl, hfilled, hitems⟩ := Operation.exists_filled?_of_encode_list hrun
  have hnone : ([] : List Value).length = 0 := rfl
  obtain ⟨moves, halong, hstays⟩ := helement.exists_itemsStayBeside hinside hwithin
    (show _ = some ([] ++ filled) from hfilled) hnone rfl hitems
  rw [SizePolicy.filled?_map] at hfilled
  refine ⟨moves, halong, ?_⟩
  intro outset hback traversal more rest reader hprovided hpath hframes hahead hleads
  obtain ⟨kept, hextent, -⟩ :=
    SizePolicy.exists_extent_map (hprovided.sourceLength_from hlent rfl rfl) hfilled
  have hrest := hstays outset hback traversal more rest kept [] reader hpath hframes hahead
    fun stage hstage ↦ hleads.tail ((Stage.enters_list_iff hextent).2 hstage)
  exact Stage.follows_list hextent hrest

/-! ## Records -/

/-- Padding is read back. -/
theorem Reader.Ahead.padded {padAfter : Bool} {more : List Move} {rest : List UInt8}
    {reader : Reader} (h : Ahead (FieldDescriptor.padding padAfter ++ more) rest reader) :
    Ahead more rest (reader.padded padAfter) := by
  cases padAfter with
  | false => exact h
  | true =>
    obtain ⟨next, hreset, hnext⟩ := Reader.reads_resetBits more rest reader h
    obtain rfl := run_modify_eq_ok_iff.1 hreset
    exact hnext

/-- A record follows if its fields do, and the container ends with them. -/
theorem Stage.follows_record {plan : RecordPlan} {traversal : Traversal Members} {reader : Reader}
    {more : List Move} {rest : List UInt8}
    (h : start.Paces
      (IsField plan.fields (traversal.push plan.name []) { reader with active := none })
      (FieldPlan.pass (traversal.push plan.name []) plan.fields { reader with active := none })
      (.bytes [] :: more) rest) : Follows ⟨.record plan, traversal, reader⟩ start more rest := by
  obtain ⟨name, fields, skipped⟩ := plan
  refine follows_of_paces (by rintro _ _ ⟨⟩)
    ⟨fun inner henters ↦ h.trails inner (enters_record_iff.1 henters), ?_⟩
  intro found stop hread
  obtain ⟨_, _, hfields, -, rfl⟩ := Operation.decode_record_eq_ok hread
  obtain ⟨around, hpass, -⟩ := FieldPlan.decodeAll_eq_ok_iff.1 hfields
  obtain ⟨_, hafter, hmore⟩ := Reader.reads_resetBits more rest _ (h.ahead around _ hpass)
  obtain rfl := run_modify_eq_ok_iff.1 hafter
  exact hmore

/-- The record after one more field has been written. -/
def Context.extend (context : Context) (field : FieldPlan) : Context :=
  { context with before := context.before ++ [field] }

theorem Context.Writes.extend {context : Context} {field : FieldPlan} {writer next : Writer}
    (h : context.Writes context.before writer)
    (hfield : FieldPlan.encodeAll context.inner context.members [field] writer = .ok () next) :
    (context.extend field).Writes (context.extend field).before next := by
  obtain ⟨first, hflush, hwrites⟩ := h
  refine ⟨first, hflush, ?_⟩
  change FieldPlan.encodeAll context.inner context.members (context.before ++ [field]) first = _
  rw [FieldPlan.encodeAll_append]
  exact run_bind_eq_ok_iff.2 ⟨(), writer, hwrites, hfield⟩

/-- The record at hand is read beside one that was written, and its fields `done` have been read. -/
structure Context.Reached (context : Context) (demands : List Demand)
    (done : List FieldDescriptor) (outer traversal : Traversal Members) : Prop where
  path : traversal.path = outer.path
  inside : ∃ pairs, Traversal.Inside outer demands context.members done pairs traversal
  shown : ∃ frame, traversal.frames = frame :: outer.frames ∧ context.Shown frame

/-- A record at hand is reached before its fields. -/
theorem Context.Reached.outset {context : Context} (demands : List Demand)
    (outer : Traversal Members) {name : String} (hname : context.plan.name = name)
    (hbefore : context.before = []) :
    context.Reached demands [] outer (outer.push name []) := by
  obtain ⟨plan, _, members, writer, before⟩ := context
  obtain rfl := hbefore
  exact ⟨rfl, ⟨[], name, [], rfl, nofun⟩, _, rfl, ⟨hname.symm, nofun⟩⟩

namespace FieldDescriptor

variable {name : String} {fields done rest : List FieldDescriptor} {field : FieldDescriptor}
  {chain : List Enclosure} {context : Context} {outer traversal after : Traversal Members}
  {value : Value}

/-- If a field carries a length, a value of it is the one that is measured in some members. -/
def IsMeasured (field : FieldDescriptor) (demands : List Demand) (members : Members)
    (value : Value) : Prop :=
  ∀ key, field.lengthOf = some key → ∃ (feed : LengthFeed) (length : Nat),
    feedOf demands key = some feed ∧ feed.count (.record members) = some length ∧
      value.toInteger? = some (length : Int)

/-- A field that has been read is kept beside the one that was written. -/
theorem reached_of_keep
    (h : context.Reached (demandsAll name fields fields) done outer traversal)
    (hfresh : ∀ carrier ∈ context.before, carrier.name ≠ field.name)
    (hlength : field.IsMeasured (demandsAll name fields fields) context.members value)
    (hkeep : FieldPlan.keep traversal field.name field.lengthOf value = .ok after) :
    (context.extend (field.plan name fields chain)).Reached (demandsAll name fields fields)
      (done ++ [field]) outer after := by
  obtain ⟨hpath, ⟨pairs, hinside⟩, frame, hframe, hshown⟩ := h
  refine ⟨(FieldPlan.path_of_keep hkeep).trans hpath, ?_, ?_⟩
  · obtain ⟨next, hnext, hinside⟩ := hinside.exists_keep hlength
    obtain rfl := Except.ok.inj (hkeep.symm.trans hnext)
    exact ⟨_, hinside⟩
  · obtain ⟨lengths, hafter⟩ := FieldPlan.exists_frame_of_keep hframe hkeep
    refine ⟨_, hafter, hshown.typeName, ?_⟩
    intro carrier hmem feed length hfeed hmeasured
    change ((Members.insert field.name value frame.subject).find? carrier.name).bind _ = _
    rcases List.mem_append.1 hmem with hmem | hmem
    · rw [Members.find?_insert_of_ne (hfresh carrier hmem)]
      exact hshown.holds carrier hmem feed length hfeed hmeasured
    · obtain rfl := List.mem_singleton.1 hmem
      obtain ⟨key, hkey, hfeed⟩ := Option.bind_eq_some_iff.1 hfeed
      obtain ⟨own, count, hown, hcount, hinteger⟩ := hlength key hkey
      obtain rfl := Option.some.inj (hfeed.symm.trans hown)
      change feed.measured context.members = _ at hmeasured
      rw [LengthFeed.count_of_measured (path_ne_nil_of_feedOf hfeed) hmeasured] at hcount
      obtain rfl := Option.some.inj hcount
      change ((Members.insert field.name value frame.subject).find? field.name).bind _ = _
      rw [Members.find?_insert_self]
      exact hinteger

/-! ### One field -/

/-- A field of a record is about to be read. -/
def stage (field : FieldDescriptor) (name : String) (fields : List FieldDescriptor)
    (chain : List Enclosure) (traversal : Traversal Members) (reader : Reader) : Stage :=
  ⟨field.descriptor.operation (⟨name, fields, field⟩ :: chain), traversal.enter field.name, reader⟩

/-- Reading a field of a record keeps in step with the moves that were made for it, and the length
that it carries is the one that was measured. -/
def StaysBeside (field : FieldDescriptor) (name : String) (fields : List FieldDescriptor)
    (chain : List Enclosure) (start : Call) (contexts : List Context) (context : Context)
    (done : List FieldDescriptor) (moves : List Move) : Prop :=
  ∀ outset : Stage, outset.TakesBack start → ∀ outer traversal more source reader,
    (∀ value, context.members.find? field.name = some value →
      field.descriptor.Provided value (⟨name, fields, field⟩ :: chain) traversal) →
    outer.path = context.outer.path → List.Forall₂ Context.Shown contexts outer.frames →
    context.Reached (demandsAll name fields fields) done outer traversal →
    Ahead (moves ++ more) source reader →
    outset.Leads (field.stage name fields chain traversal reader) →
      (field.stage name fields chain traversal reader).Follows start more source ∧
        ∀ value last, (field.stage name fields chain traversal reader).run = .ok value last →
          field.IsMeasured (demandsAll name fields fields) context.members value

/-- A field is read in step that is written from its own member. -/
theorem staysBeside_of_find? {writer own : Writer} {after : List FieldPlan}
    (hwithin : start.Within contexts ⟨.record context.plan, context.outer, .record context.members,
      context.writer⟩)
    (hsplit : context.plan.fields = context.before ++ field.plan name fields chain :: after)
    (hdone : context.Writes context.before writer) (hkey : field.lengthOf = none)
    (hfollowed : field.descriptor.IsFollowed start)
    (hlent : field.descriptor.Lent (⟨name, fields, field⟩ :: chain))
    (hfind : context.members.find? field.name = some value)
    (hencode : (field.descriptor.operation (⟨name, fields, field⟩ :: chain)).encode
      (context.inner.enter field.name) value writer = .ok () own) :
    ∃ moves, writer.Along moves own ∧
      field.StaysBeside name fields chain start contexts context done moves := by
  have hunfed : (field.plan name fields chain).feed = none := by
    rw [plan, hkey, Option.bind_none]
  obtain ⟨moves, halong, hfollows⟩ := hfollowed (⟨name, fields, field⟩ :: chain)
    (context :: contexts) _ own hlent rfl (hwithin.field (.intro hsplit hdone hunfed hfind)) hencode
  refine ⟨moves, halong, ?_⟩
  intro outset hback outer traversal more source reader hprovided hpath hframes hreached hahead
    hleads
  refine ⟨hfollows outset hback _ _ _ _ (hprovided value hfind) ?_ ?_ hahead hleads, ?_⟩
  · rw [Traversal.path_enter, hreached.path, hpath]
    exact (Traversal.path_enter _ _).symm
  · obtain ⟨frame, hframe, hshown⟩ := hreached.shown
    change List.Forall₂ _ _ traversal.frames
    rw [hframe]
    exact .cons hshown hframes
  · intro found last _ key hcarries
    cases hkey.symm.trans hcarries

/-- A field is read in step that is written with a length. -/
theorem staysBeside_of_measured {writer own : Writer} {key : String} {feed : LengthFeed}
    {length : Nat} (hkey : field.lengthOf = some key)
    (hcoherent : field.descriptor.Coherent) (hcarries : field.descriptor.kind.carriesLength)
    (hfeed : feedOf (demandsAll name fields fields) key = some feed) (hpath : feed.path ≠ [])
    (hmeasured : feed.measured context.members = .ok length)
    (hencode : (field.descriptor.operation (⟨name, fields, field⟩ :: chain)).encodeLength length
      writer = .ok () own) :
    ∃ moves, writer.Along moves own ∧
      field.StaysBeside name fields chain start contexts context done moves := by
  obtain ⟨moves, hwrites, halong⟩ := Descriptor.exists_writesLength_of_encodeLength hcarries hencode
  obtain ⟨value, -, hinteger, hreads⟩ := Descriptor.reads_length hcoherent hwrites
  refine ⟨moves, halong, ?_⟩
  intro outset _ outer traversal more source reader _ _ _ _ hahead _
  constructor
  · obtain ⟨hleaf, hcodec⟩ := Descriptor.leaf_of_carriesLength hcarries
    exact Stage.follows_of_reads (hleaf _ _ _) (hcodec _) (hreads _ _) hahead
  · intro found last hdecode other hother
    obtain rfl := Option.some.inj (hkey.symm.trans hother)
    obtain ⟨_, hread, -⟩ := hreads (⟨name, fields, field⟩ :: chain)
      (traversal.enter field.name) more source reader hahead
    cases hdecode.symm.trans hread
    exact ⟨feed, length, hfeed, feed.count_of_measured hpath hmeasured, hinteger⟩

/-- A field by itself is read in step. -/
theorem exists_staysBeside (done : List FieldDescriptor) {writer next : Writer}
    {after : List FieldPlan}
    (hwithin : start.Within contexts ⟨.record context.plan, context.outer, .record context.members,
      context.writer⟩)
    (hsplit : context.plan.fields = context.before ++ field.plan name fields chain :: after)
    (hdone : context.Writes context.before writer)
    (hfollowed : field.descriptor.IsFollowed start)
    (hcoherent : field.descriptor.Coherent)
    (hcarrier : ∀ key, field.lengthOf = some key → field.descriptor.kind.carriesLength ∧
      ∃ feed, feedOf (demandsAll name fields fields) key = some feed ∧ feed.path ≠ [])
    (hlent : field.descriptor.Lent (⟨name, fields, field⟩ :: chain))
    (h : FieldPlan.encodeAll context.inner context.members [field.plan name fields chain] writer =
      .ok () next) :
    ∃ moves, writer.Along (moves ++ padding field.padAfter) next ∧
      field.StaysBeside name fields chain start contexts context done moves := by
  obtain ⟨own, middle, hsends, hpad, hnone⟩ := FieldPlan.sends_of_encodeAll h
  obtain ⟨-, rfl⟩ := run_pure_eq_ok_iff.1 hnone
  suffices ∃ moves, writer.Along moves own ∧
      field.StaysBeside name fields chain start contexts context done moves by
    obtain ⟨moves, halong, hown⟩ := this
    exact ⟨moves, halong.trans (along_of_padding hpad), hown⟩
  cases hkey : field.lengthOf with
  | none =>
    obtain ⟨value, hfind, hsent⟩ := exists_find?_of_sends hkey hsends
    exact staysBeside_of_find? hwithin hsplit hdone hkey hfollowed hlent hfind hsent
  | some key =>
    obtain ⟨hcarries, feed, hfeed, hpath⟩ := hcarrier key hkey
    obtain ⟨length, hmeasured, hsent⟩ := exists_measured_of_sends hkey hfeed hsends
    exact staysBeside_of_measured hkey hcoherent hcarries hfeed hpath hmeasured hsent

/-! ### All fields -/

/-- The plans of some fields of a record, as far as they are on the wire. -/
def plans (name : String) (fields : List FieldDescriptor) (chain : List Enclosure)
    (part : List FieldDescriptor) : List FieldPlan :=
  (part.filter FieldDescriptor.serialize).map (plan name fields chain)

theorem plans_cons_of_serialize (hserialize : field.serialize) :
    plans name fields chain (field :: rest) =
      field.plan name fields chain :: plans name fields chain rest := by
  rw [plans, List.filter_cons_of_pos hserialize]
  rfl

theorem plans_cons_of_not_serialize (hserialize : field.serialize = false) :
    plans name fields chain (field :: rest) = plans name fields chain rest := by
  rw [plans, List.filter_cons_of_neg (by simp [hserialize])]
  rfl

theorem plans_append (part rest : List FieldDescriptor) :
    plans name fields chain (part ++ rest) =
      plans name fields chain part ++ plans name fields chain rest := by
  rw [plans, List.filter_append, List.map_append]
  rfl

/-- The plans before a field in a record are not of its name. -/
theorem name_ne_of_mem_plans (hown : Coherent (done ++ field :: rest)) {carrier : FieldPlan}
    (hmem : carrier ∈ plans name fields chain done) : carrier.name ≠ field.name := by
  obtain ⟨other, hother, rfl⟩ := List.mem_map.1 hmem
  have hnames := hown.names
  rw [List.map_append, List.map_cons, List.nodup_append] at hnames
  exact hnames.2.2 _ (List.mem_map_of_mem (List.mem_filter.1 hother).1) _ List.mem_cons_self

/-- Reading the fields `rest` of a record keeps in step with the moves that were made for them, once
the fields `done` have been read. -/
def AllStayBeside (name : String) (fields : List FieldDescriptor) (whole : Descriptor)
    (chain : List Enclosure) (start : Call) (contexts : List Context) (context : Context)
    (done rest : List FieldDescriptor) (moves : List Move) : Prop :=
  ∀ outset : Stage, outset.TakesBack start → ∀ outer traversal more source reader,
    whole.Provided (.record context.members) chain outer →
    outer.path = context.outer.path → List.Forall₂ Context.Shown contexts outer.frames →
    context.Reached (demandsAll name fields fields) done outer traversal →
    Ahead (moves ++ more) source reader →
    (∀ stage, Stage.IsField (plans name fields chain rest) traversal reader stage →
      outset.Leads stage) →
    start.Paces (Stage.IsField (plans name fields chain rest) traversal reader)
      (FieldPlan.pass traversal (plans name fields chain rest) reader) more source

section All

variable {whole : Descriptor} {own moves : List Move}

theorem AllStayBeside.nil :
    AllStayBeside name fields whole chain start contexts context done [] [] := by
  intro outset _ outer traversal more source reader _ _ _ _ hahead _
  refine ⟨fun stage hstage ↦ (Stage.not_isField_nil hstage).elim, fun around last hpass ↦ ?_⟩
  obtain ⟨-, rfl⟩ := run_pure_eq_ok_iff.1 hpass
  exact hahead

/-- A field that is not on the wire is passed over. -/
theorem AllStayBeside.cons_of_not_serialize (hserialize : field.serialize = false)
    (h : AllStayBeside name fields whole chain start contexts context (done ++ [field]) rest
      moves) :
    AllStayBeside name fields whole chain start contexts context done (field :: rest) moves := by
  intro outset hback outer traversal more source reader hprovided hpath hframes hreached
  rw [plans_cons_of_not_serialize hserialize]
  obtain ⟨hsame, ⟨pairs, hinside⟩, hshown⟩ := hreached
  exact h outset hback outer traversal more source reader hprovided hpath hframes
    ⟨hsame, ⟨pairs, hinside.of_not_serialize hserialize⟩, hshown⟩

/-- The fields after one that has been read stay in step if this one does. -/
theorem AllStayBeside.cons (hserialize : field.serialize)
    (hprovides : ∀ outer traversal, whole.Provided (.record context.members) chain outer →
      context.Reached (demandsAll name fields fields) done outer traversal →
      ∀ value, context.members.find? field.name = some value →
        field.descriptor.Provided value (⟨name, fields, field⟩ :: chain) traversal)
    (hfresh : ∀ carrier ∈ context.before, carrier.name ≠ field.name)
    (hfield : field.StaysBeside name fields chain start contexts context done own)
    (hmore : AllStayBeside name fields whole chain start contexts
      (context.extend (field.plan name fields chain)) (done ++ [field]) rest moves) :
    AllStayBeside name fields whole chain start contexts context done (field :: rest)
      (own ++ padding field.padAfter ++ moves) := by
  intro outset hback outer traversal more source reader hprovided hpath hframes hreached hahead
    hleads
  rw [plans_cons_of_serialize hserialize] at hleads ⊢
  rw [List.append_assoc, List.append_assoc] at hahead
  obtain ⟨hfollow, hlength⟩ := hfield outset hback outer traversal _ source reader
    (hprovides outer traversal hprovided hreached) hpath hframes hreached hahead
    (hleads _ (Stage.isField_cons_iff.2 (.inl rfl)))
  -- Once the field has been read and kept, the reader is before the others.
  have hothers {after : Traversal Members} {last : Reader}
      (hadvance : (field.plan name fields chain).advance traversal reader = .ok after last) :
      start.Paces (Stage.IsField (plans name fields chain rest) after last)
        (FieldPlan.pass after (plans name fields chain rest) last) more source := by
    obtain ⟨value, stop, hdecode, hkeep, rfl⟩ := FieldPlan.advance_eq_ok_iff.1 hadvance
    exact hmore outset hback outer after more source _ hprovided hpath hframes
      (reached_of_keep hreached hfresh (hlength value stop hdecode) hkeep)
      (hfollow.ahead value stop hdecode).padded
      fun stage hlater ↦
        hleads stage (Stage.isField_cons_iff.2 (.inr ⟨after, _, hadvance, hlater⟩))
  constructor
  · intro stage hstage
    rcases Stage.isField_cons_iff.1 hstage with rfl | ⟨after, last, hadvance, hlater⟩
    · exact hfollow.trails
    · exact (hothers hadvance).trails stage hlater
  · intro around last hpass
    obtain ⟨after, middle, hadvance, hpass⟩ := run_bind_eq_ok_iff.1 hpass
    exact (hothers hadvance).ahead around last hpass

end All

variable {byteOrder : ByteOrder} {hasFixedSize : Bool} {minSize : UInt64}
  (hown : Coherent fields)
  (htaken : ∀ field ∈ fields, ∀ key, field.carries key →
    (demandsAll name fields fields).countP (fun demand ↦ demand.key == key) = 1)
  (hcoherent : ∀ field ∈ fields, field.descriptor.Coherent)
  (hcarriers : ∀ field ∈ fields, field.serialize → ∀ key, field.lengthOf = some key →
    field.descriptor.kind.carriesLength ∧
      ∃ feed, feedOf (demandsAll name fields fields) key = some feed ∧ feed.path ≠ [])
  (hfollowed : ∀ field ∈ fields, field.serialize → field.descriptor.IsFollowed start)

include hown htaken hcoherent hcarriers hfollowed

/-- The fields of a record are read in step. -/
theorem exists_allStayBeside (context : Context) (done : List FieldDescriptor)
    {writer next : Writer}
    (hlent : Descriptor.Lent ⟨.record name fields, byteOrder, hasFixedSize, minSize⟩ chain)
    (hwithin : start.Within contexts ⟨.record context.plan, context.outer, .record context.members,
      context.writer⟩)
    (hplan : context.plan.fields = plans name fields chain fields)
    (hbefore : context.before = plans name fields chain done)
    (hfields : done ++ rest = fields) (hdone : context.Writes context.before writer)
    (h : FieldPlan.encodeAll context.inner context.members (plans name fields chain rest) writer =
      .ok () next) :
    ∃ moves, writer.Along moves next ∧
      AllStayBeside name fields ⟨.record name fields, byteOrder, hasFixedSize, minSize⟩ chain start
        contexts context done rest moves := by
  induction rest generalizing done context writer with
  | nil =>
    obtain ⟨-, rfl⟩ := run_pure_eq_ok_iff.1 h
    exact ⟨[], .refl writer, .nil⟩
  | cons field rest ih =>
    have hmem : field ∈ fields := hfields ▸ List.mem_append_right done List.mem_cons_self
    have hwhole := hfields
    rw [List.append_cons] at hfields
    cases hserialize : field.serialize with
    | false =>
      rw [plans_cons_of_not_serialize hserialize] at h
      have hbefore' : context.before = plans name fields chain (done ++ [field]) := by
        rw [hbefore, plans_append, plans_cons_of_not_serialize hserialize]
        exact (List.append_nil _).symm
      obtain ⟨moves, halong, hstay⟩ := ih context _ hwithin hplan hbefore' hfields hdone h
      exact ⟨moves, halong, hstay.cons_of_not_serialize hserialize⟩
    | true =>
      have hsplit : context.plan.fields =
          context.before ++ field.plan name fields chain :: plans name fields chain rest := by
        rw [hplan, ← congrArg (plans name fields chain) hwhole, plans_append,
          plans_cons_of_serialize hserialize, hbefore]
      rw [plans_cons_of_serialize hserialize, ← List.singleton_append,
        FieldPlan.encodeAll_append] at h
      obtain ⟨_, middle, hone, hrest⟩ := run_bind_eq_ok_iff.1 h
      obtain ⟨own, halong, hstays⟩ := exists_staysBeside done hwithin hsplit hdone
        (hfollowed field hmem hserialize) (hcoherent field hmem) (hcarriers field hmem hserialize)
        (hlent.of_field hmem hserialize) hone
      have hbefore' : (context.extend (field.plan name fields chain)).before =
          plans name fields chain (done ++ [field]) := by
        rw [plans_append, plans_cons_of_serialize hserialize, ← hbefore]
        rfl
      have hdone' := hdone.extend hone
      obtain ⟨moves, halongs, hmore⟩ :=
        ih (context.extend _) _ hwithin hplan hbefore' hfields hdone' hrest
      refine ⟨own ++ padding field.padAfter ++ moves, halong.trans halongs,
        .cons hserialize ?_ ?_ hstays hmore⟩
      · intro outer traversal hprovided hreached value hfind
        obtain ⟨pairs, hinside⟩ := hreached.inside
        exact hinside.provided hwhole hown.orders htaken hlent hprovided hserialize hfind
      · rw [hbefore]
        exact fun carrier ↦ name_ne_of_mem_plans (hwhole ▸ hown)

theorem isFollowed_record :
    Descriptor.IsFollowed ⟨.record name fields, byteOrder, hasFixedSize, minSize⟩ start := by
  rintro chain contexts ⟨operation, outer, value, writer⟩ next hlent hoperation hwithin hrun
  rw [Descriptor.operation_record hown.names] at hoperation
  obtain rfl := hoperation
  rw [Call.run, Operation.encode] at hrun
  obtain ⟨members, _, hdata, hrun⟩ := run_bind_eq_ok_iff.1 hrun
  obtain ⟨hmembers, rfl⟩ := WriteM.run_ofData_eq_ok_iff.1 hdata
  obtain rfl : value = .record members := by
    cases value <;> cases hmembers
    rfl
  rw [RecordPlan.encode] at hrun
  obtain ⟨_, first, hstart, hrun⟩ := run_bind_eq_ok_iff.1 hrun
  obtain ⟨_, last, hall, hstop⟩ := run_bind_eq_ok_iff.1 hrun
  obtain ⟨moves, halong, hstay⟩ := exists_allStayBeside hown htaken hcoherent hcarriers hfollowed
    ⟨_, outer, members, writer, []⟩ [] hlent hwithin rfl rfl rfl ⟨first, hstart, rfl⟩ hall
  refine ⟨.bytes [] :: moves ++ [.bytes []], ((Writer.along_of_flushBits hstart).trans halong).trans
    (Writer.along_of_flushBits hstop), ?_⟩
  intro outset hback traversal more rest reader hprovided hpath hframes hahead hleads
  rw [Descriptor.operation_record hown.names] at hleads ⊢
  obtain ⟨_, hreset, hinner⟩ := Reader.reads_resetBits (moves ++ ([.bytes []] ++ more)) rest reader
    (by simpa using hahead)
  obtain rfl := run_modify_eq_ok_iff.1 hreset
  have hrest := hstay outset hback traversal (traversal.push name []) _ rest _ hprovided hpath
    hframes (.outset _ _ rfl rfl) hinner
    fun stage hstage ↦ hleads.tail (Stage.enters_record_iff.2 hstage)
  exact Stage.follows_record hrest

end FieldDescriptor

/-- Reading keeps in step with writing as long as codecs take as many bytes as they have given. -/
theorem Descriptor.isFollowed {descriptor : Descriptor}
    (hcoherent : descriptor.Everywhere Coherent) (hsettled : descriptor.Settled) :
    descriptor.IsFollowed start := by
  induction descriptor using Descriptor.induction with
  | step descriptor ihelement ihfields =>
    obtain ⟨kind, byteOrder, hasFixedSize, minSize⟩ := descriptor
    cases kind with
    | scalar kind | boolean repr | enum repr type | bits content repr width container
    | text encoding size =>
      refine isFollowed_of_leaf hcoherent hsettled (.intro rfl nofun nofun) ?_
      rintro chain traversal reader inner (⟨_, ⟨⟩⟩ | ⟨_, ⟨⟩⟩)
    | list element size =>
      obtain ⟨helement, hlent⟩ := settled_list_iff.1 hsettled
      exact isFollowed_list (ihelement element rfl (hcoherent.of_element rfl) helement)
        (lent_nil hlent)
    | record name fields =>
      obtain ⟨hinside, htaken⟩ := settled_record_iff.1 hsettled
      have hown := hcoherent.here.1
      refine FieldDescriptor.isFollowed_record hown htaken
        (fun field hmem ↦ (hcoherent.of_field hmem).here) ?_
        fun field hmem hserialize ↦ ihfields field hmem (hcoherent.of_field hmem)
          (hinside field hmem hserialize)
      intro field hmem hserialize key hkey
      exact ⟨hown.carriers field hmem (by rw [hkey]; rfl),
        hsettled.exists_feedOf hmem hserialize hkey⟩
    | custom codec context => exact isFollowed_custom

/-! ## Schemas -/

/-- Whatever its context is, the codec takes as many bytes as it has given. -/
def Codec.TakesBack (codec : Codec) : Prop :=
  ∀ value given seen writer next reader read last bytes taken,
    (codec.encode value given).trace writer = .ok bytes next → bytes <+: reader.source →
      (codec.decode seen).trace reader = .ok (read, taken) last → taken.length = bytes.length

namespace Schema

variable {layout : Layout} {schema : Schema} {value : Value} {sink sink' : Sink} {count : Nat}

/-- The call with which the writing of a value starts. -/
def outset (schema : Schema) (value : Value) (sink : Sink) : Call :=
  ⟨.record schema.plan.root, {}, value, { sink := sink }⟩

/-- Something is about to be written while a value is, inside some records. -/
def Calls (schema : Schema) (value : Value) (sink : Sink) (contexts : List Context) (call : Call) :
    Prop :=
  (schema.outset value sink).Within contexts call

/-- Codecs that take as many bytes as they have given do so wherever they are called. -/
theorem takesBack_start (h : ofLayout layout = .ok schema)
    (hcodecs : schema.descriptor.Everywhere fun inner ↦
      ∀ codec context, inner.kind = .custom codec context → codec.TakesBack)
    (value : Value) (sink : Sink) (bytes : List UInt8) :
    (schema.start bytes).TakesBack (schema.outset value sink) := by
  obtain ⟨hdescribe, hplan⟩ := ofLayout_eq_ok h
  obtain ⟨⟨hsettled, -⟩, hroot, -, -⟩ := Plan.ofDescriptor_eq_ok_iff.1 hplan
  intro contexts call stage hwithin _ hsame _ given taken hgives hgiven htakes
  obtain ⟨⟨⟨kind, byteOrder, hasFixedSize, minSize⟩, chain, hoperation, hinside, -⟩, -⟩ :=
    hwithin.exists_descriptor hroot.symm (Layout.describe_coherent hdescribe) hsettled
  cases hgives with
  | @intro codec context _ hcodec hgave =>
    cases htakes with
    | intro hcodec' htook =>
      rw [hsame, hcodec] at hcodec'
      cases hcodec'
      rw [hcodec] at hoperation
      cases kind with
      | custom own name =>
        obtain ⟨rfl, rfl⟩ := Operation.custom.inj hoperation
        exact (hinside _ hcodecs).here codec context rfl _ _ _ _ _ _ _ _ _ _ hgave hgiven htook
      | _ => cases hoperation

/-- Codecs that take as many bytes as they have given keep reading in step with writing: what is
read from what has been written only leads to codecs that were called, at the same paths. -/
theorem exists_trails_of_serialize (h : ofLayout layout = .ok schema)
    (hserialize : schema.serialize value sink = (.ok count, sink')) :
    ∃ bytes, sink'.bytes.toList = sink.bytes.toList ++ bytes ∧
      ∀ rest, (schema.start (bytes ++ rest)).TakesBack (schema.outset value sink) →
        (schema.start (bytes ++ rest)).Trails (schema.outset value sink) := by
  obtain ⟨hdescribe, hplan⟩ := ofLayout_eq_ok h
  obtain ⟨⟨hsettled, hlent⟩, hroot, -, -⟩ := Plan.ofDescriptor_eq_ok_iff.1 hplan
  have hinside := Descriptor.lent_nil hlent
  obtain ⟨next, last, hencode, hfinish, rfl⟩ := exists_encode_of_serialize hroot hserialize
  rw [hroot] at hencode
  obtain ⟨moves, halong, hstays⟩ := Descriptor.isFollowed (Layout.describe_coherent hdescribe)
    hsettled [] [] (schema.outset value sink) next hinside hroot.symm .start hencode
  obtain ⟨word, bytes, hemits, hbytes, -⟩ := Writer.exists_emits_of_finish halong hfinish
  refine ⟨bytes, hbytes, fun rest hback ↦ ?_⟩
  have hahead : Ahead (moves ++ [.bytes []]) rest { source := bytes ++ rest } :=
    .of_emits hemits rfl rfl
  have hfollows := hstays _ hback {} _ rest { source := bytes ++ rest }
    (schema.descriptor.provided_nil _ _) rfl .nil hahead
  rw [hroot] at hfollows
  exact (hfollows .refl).trails

end Schema

end WireFormat
