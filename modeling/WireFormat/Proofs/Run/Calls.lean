import WireFormat.Proofs.Codec.Counting
import WireFormat.Proofs.Run.Lengths

/-!
# Calls of a run

A `Call` is to writing what a stage is to reading: a value that is about to be written, after
everything before it has been written.  The records around it are its `Context`s.  A codec is handed
the members of one of them, just as they were given to the writer, while the number that is written
for a field that carries a length is measured elsewhere in them.

* `Context.WritesLength` — the number that is written for a field of a record;
* `Call.Within` — a call inside another, with the records on the way;
* `Call.Within.findSubject?_eq` — the record that a codec has as its context;
* `Context.Writes.exists_writesLength` — the lengths that are written in a record;
* `Call.Within.exists_descriptor` — what a call is that of, and what is measured on the way.
-/

namespace WireFormat

/-- The number that a member is, if it is an integer. -/
def Members.number? (members : Members) (name : String) : Option Int :=
  (members.find? name).bind Value.toInteger?

/-- A record that is being written, with the fields of it that have been. -/
structure Context where
  plan : RecordPlan
  /-- Where the record is. -/
  outer : Traversal Members
  /-- What the record is written from. -/
  members : Members
  /-- The writer before the record. -/
  writer : Writer
  /-- The fields that have been written. -/
  before : List FieldPlan

namespace Context

/-- The traversal inside the record. -/
def inner (context : Context) : Traversal Members :=
  context.outer.push context.plan.name context.members

/-- The writer after some fields of the record. -/
def Writes (context : Context) (done : List FieldPlan) (next : Writer) : Prop :=
  ∃ start, Writer.flushBits context.writer = .ok () start ∧
    FieldPlan.encodeAll context.inner context.members done start = .ok () next

/-- Of some records around each other, innermost first, the innermost of a name. -/
def innermost? (contexts : List Context) (typeName : String) : Option Context :=
  contexts.find? fun context ↦ context.plan.name == typeName

/-- A field that carries a length has been written, with the number that was measured for it. -/
inductive WritesLength (context : Context) (carrier : FieldPlan) (length : Nat) : Prop where
  | intro {done rest : List FieldPlan} {feed : LengthFeed} {next last : Writer}
      (split : context.before = done ++ carrier :: rest) (written : context.Writes done next)
      (feeds : carrier.feed = some feed) (measured : feed.measured context.members = .ok length)
      (sent : carrier.operation.encodeLength length next = .ok () last) :
      WritesLength context carrier length

end Context

/-- A moment of a run: a value that is about to be written. -/
structure Call where
  operation : Operation
  traversal : Traversal Members
  value : Value
  writer : Writer

namespace Call

/-- What comes of writing it. -/
def run (call : Call) : EStateM.Result Error Writer Unit :=
  call.operation.encode call.traversal call.value call.writer

/-- Some fields of a record have been written, and the next one is about to be, from the member of
its name. -/
inductive EntersField : Call → Context → Call → Prop where
  | intro {context : Context} {field : FieldPlan} {rest : List FieldPlan} {value : Value}
      {next : Writer} (split : context.plan.fields = context.before ++ field :: rest)
      (written : context.Writes context.before next) (unfed : field.feed = none)
      (found : context.members.find? field.name = some value) :
      EntersField ⟨.record context.plan, context.outer, .record context.members, context.writer⟩
        context ⟨field.operation, context.inner.enter field.name, value, next⟩

/-- The items of a list before the given position have been written, and the one there is about to
be. -/
inductive EntersElement : Call → Nat → Call → Prop where
  | intro {element : Operation} {size : SizePolicy LengthSource} {default? : Option Value}
      {traversal : Traversal Members} {items before after : List Value} {item : Value}
      {writer next : Writer} (fills : size.filled? default? items = some (before ++ item :: after))
      (written : Operation.forItems (Operation.encodeItem traversal element) 0 before writer =
        .ok () next) :
      EntersElement ⟨.list element size default?, traversal, .list items, writer⟩ before.length
        ⟨element, traversal.enterIndex before.length, item, next⟩

/-- A call inside another, at any depth, and the records on the way, innermost first. -/
inductive Within (start : Call) : List Context → Call → Prop where
  | start : Within start [] start
  | field {contexts : List Context} {record inner : Call} {context : Context}
      (around : Within start contexts record) (enters : record.EntersField context inner) :
      Within start (context :: contexts) inner
  | element {contexts : List Context} {list inner : Call} {position : Nat}
      (around : Within start contexts list) (enters : list.EntersElement position inner) :
      Within start contexts inner

namespace Within

variable {start call : Call} {contexts : List Context} {context : Context}

/-- The records on the way are those around the call, with the members that they are written
from. -/
theorem frames_eq (h : start.Within contexts call) : call.traversal.frames =
    contexts.map (fun context ↦ ⟨context.plan.name, context.members, []⟩) ++
      start.traversal.frames := by
  induction h with
  | start => rfl
  | field around enters ih =>
    cases enters
    exact congrArg _ ih
  | element around enters ih =>
    cases enters
    exact ih

/-- The record that a codec has as its context is the innermost of the name, as it was given to the
writer. -/
theorem findSubject?_eq (h : start.Within contexts call) (hstart : start.traversal.frames = [])
    (typeName : String) : call.traversal.findSubject? typeName =
      (Context.innermost? contexts typeName).map Context.members := by
  rw [Traversal.findSubject?, h.frames_eq, hstart, List.append_nil, List.find?_map,
    Option.map_map]
  rfl

/-- The fields before have been written. -/
theorem exists_writes (h : start.Within contexts call) (hmem : context ∈ contexts) :
    ∃ next, context.Writes context.before next := by
  induction h with
  | start => cases hmem
  | field around enters ih =>
    rcases List.mem_cons.1 hmem with rfl | hmem
    · cases enters with
      | intro split written unfed found => exact ⟨_, written⟩
    · exact ih hmem
  | element around enters ih => exact ih hmem

end Within

end Call

/-- A field that carries a length is only written with the number that is measured for it. -/
theorem Context.Writes.exists_writesLength {context : Context} {carrier : FieldPlan}
    {feed : LengthFeed} {next : Writer} (h : context.Writes context.before next)
    (hmem : carrier ∈ context.before) (hfeed : carrier.feed = some feed) :
    ∃ length, context.WritesLength carrier length := by
  obtain ⟨start, hflush, hwrites⟩ := h
  obtain ⟨done, rest, hsplit⟩ := List.append_of_mem hmem
  rw [hsplit, FieldPlan.encodeAll_append] at hwrites
  obtain ⟨_, middle, hdone, hrest⟩ := run_bind_eq_ok_iff.1 hwrites
  obtain ⟨own, _, hsends, -, -⟩ := FieldPlan.sends_of_encodeAll hrest
  cases hsends with
  | measured fed measured sent =>
    exact ⟨_, .intro hsplit ⟨start, hflush, hdone⟩ fed measured sent⟩
  | found unfed => cases hfeed.symm.trans unfed

/-- A call inside that of a whole descriptor is that of a descriptor inside it, and in the records
on the way just the fields that carry a length have something to measure. -/
theorem Call.Within.exists_descriptor {start call : Call} {contexts : List Context}
    {root : Descriptor} (hroot : start.operation = root.operation [])
    (hcoherent : root.Everywhere Descriptor.Coherent) (hsettled : root.Settled)
    (h : start.Within contexts call) :
    (∃ (descriptor : Descriptor) (chain : List Enclosure),
      call.operation = descriptor.operation chain ∧
      (∀ P, root.Everywhere P → descriptor.Everywhere P) ∧ descriptor.Settled) ∧
      ∀ context ∈ contexts, ∀ field ∈ context.before, field.lengthOf.isSome ↔
        ∃ feed, field.feed = some feed := by
  induction h with
  | start => exact ⟨⟨root, [], hroot, fun _ ↦ id, hsettled⟩, nofun⟩
  | @field contexts record inner context around enters ih =>
    obtain ⟨⟨descriptor, chain, hoperation, hinside, hsettled⟩, hfeeds⟩ := ih
    obtain @⟨context, field, rest, value, next, split, -, -, -⟩ := enters
    obtain ⟨kind, byteOrder, hasFixedSize, minSize⟩ := descriptor
    cases kind with
    | record name fields =>
      rw [Descriptor.operation_record (hinside _ hcoherent).here.1.names] at hoperation
      have hfields {other : FieldPlan} (hother : other ∈ context.plan.fields) :
          ∃ own ∈ fields, own.serialize ∧ other = own.plan name fields chain := by
        rw [Operation.record.inj hoperation] at hother
        obtain ⟨own, hown, rfl⟩ := List.mem_map.1 hother
        exact ⟨own, (List.mem_filter.1 hown).1, (List.mem_filter.1 hown).2, rfl⟩
      refine ⟨?_, List.forall_mem_cons.2 ⟨fun carrier hcarrier ↦ ?_, hfeeds⟩⟩
      · obtain ⟨own, hmem, hserialize, rfl⟩ :=
          hfields (split ▸ List.mem_append_right _ List.mem_cons_self)
        exact ⟨own.descriptor, _, rfl, fun P hP ↦ (hinside P hP).of_field hmem,
          (Descriptor.settled_record_iff.1 hsettled).1 own hmem hserialize⟩
      · obtain ⟨own, hmem, hserialize, rfl⟩ := hfields (split ▸ List.mem_append_left _ hcarrier)
        change own.lengthOf.isSome ↔ ∃ feed, own.lengthOf.bind _ = some feed
        constructor
        · intro hcarries
          obtain ⟨key, hkey⟩ := Option.isSome_iff_exists.1 hcarries
          obtain ⟨feed, hfeed, -⟩ := hsettled.exists_feedOf hmem hserialize hkey
          exact ⟨feed, Option.bind_eq_some_iff.2 ⟨key, hkey, hfeed⟩⟩
        · rintro ⟨feed, hfeed⟩
          obtain ⟨key, hkey, -⟩ := Option.bind_eq_some_iff.1 hfeed
          exact Option.isSome_iff_exists.2 ⟨key, hkey⟩
    | _ => cases hoperation
  | element around enters ih =>
    obtain ⟨⟨descriptor, chain, hoperation, hinside, hsettled⟩, hfeeds⟩ := ih
    cases enters
    obtain ⟨kind, byteOrder, hasFixedSize, minSize⟩ := descriptor
    cases kind with
    | list element size =>
      obtain ⟨rfl, -, -⟩ := Operation.list.inj hoperation
      exact ⟨⟨element, [], rfl, fun P hP ↦ (hinside P hP).of_element rfl,
        (Descriptor.settled_list_iff.1 hsettled).1⟩, hfeeds⟩
    | _ => cases hoperation

end WireFormat
