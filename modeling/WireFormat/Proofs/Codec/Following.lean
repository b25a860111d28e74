import WireFormat.Proofs.Run.Calls
import WireFormat.Proofs.Run.Paths

/-!
# Stages that follow calls

What is written and what is read from it go through the same records, lists and codecs.  A codec may
answer with anything, so nothing can be said of the values that are read.  But as long as each codec
takes as many bytes as it has given, the reader stays where the writer was: the lengths that it
reads are those that were measured, and what is left to a codec was left to it at the same path.

* `Stage.Beside` — a stage of reading and a call of writing at the same place;
* `Stage.TakesBack` — codecs take as many bytes as they have given;
* `Call.Paces` — what is read along a run keeps in step with what is written inside a call;
* `Descriptor.StaysBeside`, `Descriptor.IsFollowed` — reading under a descriptor keeps in step with
  writing;
* `Descriptor.isFollowed_custom` — where it is left to a codec.
-/

namespace WireFormat

open Reader (Ahead Reads)

/-! ## What codecs move -/

/-- A reader with nothing pending stands before what its source starts with. -/
theorem Reader.Ahead.of_emits {moves : List Move} {word : Nat} {bytes rest : List UInt8}
    {reader : Reader} (hemits : Emits none moves word bytes) (hactive : reader.active = none)
    (hsource : reader.source = bytes ++ rest) : Ahead moves rest reader :=
  ⟨none, word, bytes, hemits, nofun, hactive, hsource⟩

/-- What has come on top is all there is once nothing is pending. -/
theorem Writer.Adds.along {writer next : Writer} {bytes : List UInt8} (h : writer.Adds bytes next)
    (hidle : next.packer = {}) : writer.Along [.bytes bytes] next := by
  obtain ⟨hposition, hsink⟩ := h
  rw [hidle] at hposition hsink
  change _ ++ [] = _ at hsink
  rw [List.append_nil] at hsink
  constructor
  · have hsize := congrArg List.length hsink
    simp only [List.length_append, Array.length_toList] at hsize
    change next.position + 0 = _ at hposition
    omega
  · intro more word rest h
    rw [hidle] at h
    refine ⟨pendingWord writer.packer.active, bytes ++ rest, .bytes h, ?_⟩
    rw [outcome, outcome, hidle, hsink, pending_eq]
    simp [pendingBytes]

/-- What a codec has had written is one move. -/
theorem Operation.exists_trace_of_encodeCustom {codec : Codec} {context : Option Members}
    {value : Value} {writer next : Writer}
    (h : encodeCustom codec context value writer = .ok () next) :
    ∃ bytes middle, (codec.encode value context).trace writer = .ok bytes middle ∧
      writer.Along [.bytes bytes] next := by
  have hidle := packer_eq_of_encodeCustom h
  rw [encodeCustom] at h
  obtain ⟨_, _, hget, h⟩ := run_bind_eq_ok_iff.1 h
  obtain ⟨rfl, rfl⟩ := run_get_eq_ok_iff.1 hget
  obtain ⟨_, middle, hrun, h⟩ := run_bind_eq_ok_iff.1 h
  obtain ⟨bytes, htrace⟩ := WriteScript.run_eq_ok_iff.1 hrun
  obtain ⟨_, flushed, hflush, h⟩ := run_bind_eq_ok_iff.1 h
  obtain ⟨_, _, hget, h⟩ := run_bind_eq_ok_iff.1 h
  obtain ⟨rfl, rfl⟩ := run_get_eq_ok_iff.1 hget
  obtain rfl : flushed = next := by
    split at h
    · cases h
    · cases h
      rfl
  have hadds := (WriteScript.adds_of_trace htrace).trans (Writer.adds_of_flushBits hflush)
  rw [List.append_nil] at hadds
  exact ⟨bytes, middle, htrace, hadds.along hidle⟩

/-- A codec that takes as many bytes as there are in the move before it takes these. -/
theorem Operation.ahead_of_decodeCustom {codec : Codec} {context : Option Members}
    {given rest : List UInt8} {more : List Move} {value : Value} {reader last : Reader}
    (hahead : Ahead (.bytes given :: more) rest reader)
    (htakes : given <+: reader.source → ∀ value taken middle,
      (codec.decode context).trace reader = .ok (value, taken) middle →
        taken.length = given.length)
    (h : decodeCustom codec context reader = .ok value last) : Ahead more rest last := by
  rw [decodeCustom] at h
  obtain ⟨_, _, hget, h⟩ := run_bind_eq_ok_iff.1 h
  obtain ⟨rfl, rfl⟩ := run_get_eq_ok_iff.1 hget
  obtain ⟨own, middle, hrun, h⟩ := run_bind_eq_ok_iff.1 h
  obtain ⟨taken, htrace⟩ := ReadScript.run_eq_ok_iff.1 hrun
  obtain ⟨_, reset, hreset, h⟩ := run_bind_eq_ok_iff.1 h
  obtain rfl := run_modify_eq_ok_iff.1 hreset
  obtain ⟨_, _, hget, h⟩ := run_bind_eq_ok_iff.1 h
  obtain ⟨rfl, rfl⟩ := run_get_eq_ok_iff.1 hget
  obtain rfl : { middle with active := none } = last := by
    split at h
    · cases h
    · cases h
      rfl
  obtain ⟨pending, word, all, hemits, -, -, hsource⟩ := hahead
  cases hemits with
  | @bytes _ _ _ word all hmore =>
    rw [List.append_assoc] at hsource
    have hlength := htakes ⟨_, hsource.symm⟩ own taken middle htrace
    rw [(ReadScript.position_of_trace htrace).2] at hsource
    exact .of_emits hmore rfl (List.append_inj_right hsource hlength)

/-! ## Calls and stages -/

/-- The codec of a call has some bytes written. -/
inductive Call.Gives (call : Call) (bytes : List UInt8) : Prop where
  | intro {codec : Codec} {context : Option String} {next : Writer}
      (operation : call.operation = .custom codec context)
      (traced : (codec.encode call.value (context.bind call.traversal.findSubject?)).trace
        call.writer = .ok bytes next) : Gives call bytes

/-- The codec of a stage takes some bytes. -/
inductive Stage.Takes (stage : Stage) (bytes : List UInt8) : Prop where
  | intro {codec : Codec} {context : Option String} {value : Value} {next : Reader}
      (operation : stage.operation = .custom codec context)
      (traced : (codec.decode (context.bind stage.traversal.findSubject?)).trace stage.reader =
        .ok (value, bytes) next) : Takes stage bytes

/-- Where a codec stands before the bytes that it has given at the same path, it takes as many. -/
def Stage.TakesBack (outset : Stage) (start : Call) : Prop :=
  ∀ contexts call stage, start.Within contexts call → outset.Leads stage →
    stage.operation = call.operation → stage.traversal.path = call.traversal.path →
      ∀ given taken, call.Gives given → given <+: stage.reader.source → stage.Takes taken →
        taken.length = given.length

/-- Some members hold the lengths that are measured in the record for the fields before. -/
def Context.HoldsMeasured (context : Context) (members : Members) : Prop :=
  ∀ carrier ∈ context.before, ∀ feed length, carrier.feed = some feed →
    feed.measured context.members = .ok length →
      members.number? carrier.name = some (length : Int)

/-- The record at hand is read beside one that was written, and holds the lengths that were measured
in that. -/
structure Context.Shown (context : Context) (frame : Frame Members) : Prop where
  typeName : frame.typeName = context.plan.name
  holds : context.HoldsMeasured frame.subject

namespace Stage

/-- The stage is where the call was, and in the records around it the lengths have been read that
were written. -/
structure Beside (stage : Stage) (contexts : List Context) (call : Call) : Prop where
  operation : stage.operation = call.operation
  path : stage.traversal.path = call.traversal.path
  frames : List.Forall₂ Context.Shown contexts stage.traversal.frames

/-- Wherever the stage leads to a codec, that was called inside another call. -/
def Trails (stage : Stage) (start : Call) : Prop :=
  ∀ inner, stage.Leads inner → ∀ codec context, inner.operation = .custom codec context →
    ∃ contexts call, start.Within contexts call ∧ inner.Beside contexts call

/-- The stage trails what is written inside a call, and what it reads is what was written. -/
structure Follows (stage : Stage) (start : Call) (more : List Move) (rest : List UInt8) :
    Prop where
  trails : stage.Trails start
  ahead : ∀ value last, stage.run = .ok value last → Ahead more rest last

end Stage

/-- Some stages trail what is written inside a call, and the run that goes through them reads what
was written. -/
structure Call.Paces {α : Type} (start : Call) (inside : Stage → Prop)
    (run : EStateM.Result Error Reader α) (more : List Move) (rest : List UInt8) : Prop where
  trails : ∀ stage, inside stage → stage.Trails start
  ahead : ∀ value last, run = .ok value last → Ahead more rest last

namespace Stage

variable {stage inner : Stage} {start : Call} {moves more : List Move} {rest : List UInt8}
  {value : Value}

/-- What enters nothing only leads to itself. -/
theorem eq_of_leads (hleaf : ∀ inner, ¬ stage.Enters inner) (h : stage.Leads inner) :
    inner = stage := by
  rcases Relation.ReflTransGen.cases_head h with rfl | ⟨next, henters, -⟩
  · rfl
  · exact (hleaf next henters).elim

/-- What has no codec of its own follows if what it enters does. -/
theorem follows_of_paces (hcodec : ∀ codec context, stage.operation ≠ .custom codec context)
    (h : start.Paces stage.Enters stage.run more rest) : stage.Follows start more rest := by
  refine ⟨fun inner hleads codec context hcustom ↦ ?_, h.ahead⟩
  rcases Relation.ReflTransGen.cases_head hleads with rfl | ⟨next, henters, hnext⟩
  · exact (hcodec codec context hcustom).elim
  · exact h.trails next henters inner hnext codec context hcustom

/-- What reads its moves without a codec stays in step. -/
theorem follows_of_reads (hleaf : ∀ inner, ¬ stage.Enters inner)
    (hcodec : ∀ codec context, stage.operation ≠ .custom codec context)
    (hreads : Reads (stage.operation.decode stage.traversal) moves value)
    (hahead : Ahead (moves ++ more) rest stage.reader) : stage.Follows start more rest := by
  refine follows_of_paces hcodec ⟨fun inner henters ↦ (hleaf inner henters).elim, ?_⟩
  intro found last hrun
  obtain ⟨next, hdecode, hnext⟩ := hreads more rest stage.reader hahead
  rw [run, hdecode] at hrun
  cases hrun
  exact hnext

end Stage

/-- Reading under a descriptor stays beside a call inside some records that made some moves. -/
def Descriptor.StaysBeside (descriptor : Descriptor) (start : Call) (contexts : List Context)
    (chain : List Enclosure) (call : Call) (moves : List Move) : Prop :=
  ∀ outset : Stage, outset.TakesBack start → ∀ traversal more rest reader,
    descriptor.Provided call.value chain traversal →
    traversal.path = call.traversal.path →
    List.Forall₂ Context.Shown contexts traversal.frames →
    Ahead (moves ++ more) rest reader →
    outset.Leads ⟨descriptor.operation chain, traversal, reader⟩ →
      Stage.Follows ⟨descriptor.operation chain, traversal, reader⟩ start more rest

/-- Reading under a descriptor keeps in step with writing. -/
def Descriptor.IsFollowed (descriptor : Descriptor) (start : Call) : Prop :=
  ∀ chain contexts call next, descriptor.Lent chain →
    call.operation = descriptor.operation chain → start.Within contexts call →
    call.run = .ok () next →
    ∃ moves, call.writer.Along moves next ∧ descriptor.StaysBeside start contexts chain call moves

variable {start : Call} {contexts : List Context}

/-- What has no codec and nothing inside is read back. -/
theorem Descriptor.isFollowed_of_leaf {descriptor : Descriptor}
    (hcoherent : descriptor.Everywhere Coherent) (hsettled : descriptor.Settled)
    (hcodec : descriptor.Everywhere fun inner ↦ inner.isCodec = false)
    (hleaf : ∀ chain traversal reader inner,
      ¬ Stage.Enters ⟨descriptor.operation chain, traversal, reader⟩ inner) :
    descriptor.IsFollowed start := by
  rintro chain contexts ⟨operation, outer, value, writer⟩ next hlent hoperation - hrun
  obtain rfl : operation = _ := hoperation
  obtain ⟨moves, hwrites, halong⟩ := isWritten hcoherent hcodec hsettled _ _ _ _ _ hrun
  refine ⟨moves, halong, ?_⟩
  intro outset _ traversal more rest reader hprovided _ _ hahead _
  exact Stage.follows_of_reads (hleaf chain traversal reader)
    (operation_ne_custom hcodec.here chain)
    (isReread hcoherent hsettled chain traversal value moves hlent hprovided hwrites) hahead

/-- A field that carries a length has no codec and nothing inside. -/
theorem Descriptor.leaf_of_carriesLength {descriptor : Descriptor}
    (h : descriptor.kind.carriesLength) :
    (∀ chain traversal reader inner,
      ¬ Stage.Enters ⟨descriptor.operation chain, traversal, reader⟩ inner) ∧
      ∀ chain codec context, descriptor.operation chain ≠ .custom codec context := by
  obtain ⟨kind, byteOrder, hasFixedSize, minSize⟩ := descriptor
  cases kind with
  | scalar kind | bits content repr width container =>
    constructor
    · rintro chain traversal reader inner (⟨_, ⟨⟩⟩ | ⟨_, ⟨⟩⟩)
    · exact operation_ne_custom rfl
  | _ => cases h

theorem Descriptor.isFollowed_custom {codec : Codec} {context : Option String}
    {byteOrder : ByteOrder} {hasFixedSize : Bool} {minSize : UInt64} :
    IsFollowed ⟨.custom codec context, byteOrder, hasFixedSize, minSize⟩ start := by
  rintro chain contexts ⟨operation, outer, value, writer⟩ next - hoperation hwithin hrun
  obtain rfl : operation = .custom codec context := hoperation
  rw [Call.run, Operation.encode] at hrun
  obtain ⟨given, middle, htrace, halong⟩ := Operation.exists_trace_of_encodeCustom hrun
  refine ⟨_, halong, ?_⟩
  intro outset hback traversal more rest reader _ hpath hframes hahead hleads
  have hleaf : ∀ inner, ¬ Stage.Enters ⟨.custom codec context, traversal, reader⟩ inner := by
    rintro inner (⟨_, ⟨⟩⟩ | ⟨_, ⟨⟩⟩)
  constructor
  · intro inner hinner _ _ _
    rw [Stage.eq_of_leads hleaf hinner]
    exact ⟨contexts, _, hwithin, ⟨rfl, hpath, hframes⟩⟩
  · intro found last hread
    change Operation.decode traversal (.custom codec context) reader = _ at hread
    rw [Operation.decode] at hread
    refine Operation.ahead_of_decodeCustom hahead (fun hgiven own taken middle htaken ↦ ?_) hread
    exact hback contexts _ _ hwithin hleads rfl hpath given taken (.intro rfl htrace) hgiven
      (.intro rfl htaken)

end WireFormat
