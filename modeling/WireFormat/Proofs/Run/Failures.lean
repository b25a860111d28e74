import WireFormat.Proofs.Codec.Trace
import WireFormat.Proofs.Format.RoundTrip
import WireFormat.Proofs.Run.Paths

/-!
# Values that cannot be written

A value that cannot be written fails at a field or an element that the writer has come to, or, if it
is a length that cannot be measured, on the way to what is measured.  Only the root has no path: a
value that is no record, and the last container, which goes out after all fields.

* `Operation.Puts` — where the values inside a value go;
* `Operation.FailsAt` — the paths at which a value can fail, each of a field or an item that does;
* `LengthFeed.StopsAt` — the first member at which measuring a length stops;
* `Schema.locatesFailures` — every failure of a schema is located once, at the path of what fails.
-/

namespace WireFormat

/-! ## Places of values -/

namespace Operation

variable {root operation : Operation} {value inner : Value} {path : Path} {cause error : Error}

/-- Where the values inside a value go: a member to its field, unless that measures its value, and
the items of a list, with a default in each free slot, to their positions. -/
inductive Puts (root : Operation) (value : Value) : Path → Operation → Value → Prop where
  | root : Puts root value [] root value
  | member {path : Path} {plan : RecordPlan} {field : FieldPlan} {members : Members}
      {inner : Value} (around : Puts root value path (.record plan) (.record members))
      (mem : field ∈ plan.fields) (given : field.feed = none)
      (found : members.find? field.name = some inner) :
      Puts root value (path ++ [.member field.name]) field.operation inner
  | item {path : Path} {element : Operation} {size : SizePolicy LengthSource}
      {default? : Option Value} {items filled : List Value} {position : Nat} {inner : Value}
      (around : Puts root value path (.list element size default?) (.list items))
      (fills : size.filled? default? items = some filled)
      (found : filled[position]? = some inner) :
      Puts root value (path ++ [.index position]) element inner

/-- The list at a path is given some number of items. -/
inductive GivesItems (root : Operation) (value : Value) : Path → Nat → Prop where
  | intro {path : Path} {element : Operation} {size : SizePolicy LengthSource}
      {default? : Option Value} {items : List Value}
      (put : Puts root value path (.list element size default?) (.list items)) :
      GivesItems root value path items.length

/-- What is put somewhere is put where its path leads. -/
theorem Puts.resolves (h : Puts root value path operation inner) :
    Resolves (GivesItems root value) root path operation := by
  induction h with
  | root => exact .root
  | member _ mem _ _ ih => exact ih.member mem
  | @item path element size default? items filled position inner around fills found ih =>
    have hlt : position < filled.length := (List.getElem?_eq_some_iff.1 found).1
    cases hslots : size.slots? with
    | some slots =>
      rw [(SizePolicy.filled?_eq_some hslots fills).2.2] at hlt
      exact ih.index (.inl hslots) hlt
    | none =>
      rw [SizePolicy.filled?, hslots] at fills
      cases fills
      exact ih.index (.inr ⟨hslots, .intro around⟩) hlt

/-- A value can fail at a path, for a cause that has none: in a field of a record that is put
somewhere, in an item of a list, or on the way to what a field measures.  The field or the item
fails by itself, so that the path is that of the innermost thing that fails. -/
inductive FailsAt (root : Operation) (value : Value) : Path → Error → Prop where
  | field {traversal : Traversal Members} {plan : RecordPlan} {field : FieldPlan}
      {members : Members} {cause : Error} {writer last : Writer}
      (around : Puts root value traversal.path (.record plan) (.record members))
      (mem : field ∈ plan.fields) (plain : cause.IsPlain)
      (fails : FieldPlan.encodeAll traversal members [field] writer =
        .error (.located (traversal.path ++ [.member field.name]) cause) last) :
      FailsAt root value (traversal.path ++ [.member field.name]) cause
  | item {traversal : Traversal Members} {element : Operation} {size : SizePolicy LengthSource}
      {default? : Option Value} {items filled : List Value} {position : Nat} {inner : Value}
      {cause : Error} {writer last : Writer}
      (around : Puts root value traversal.path (.list element size default?) (.list items))
      (fills : size.filled? default? items = some filled)
      (found : filled[position]? = some inner) (plain : cause.IsPlain)
      (fails : element.encode (traversal.enterIndex position) inner writer = .error cause last) :
      FailsAt root value (traversal.path ++ [.index position]) cause
  | measured {path : Path} {plan : RecordPlan} {field : FieldPlan} {members : Members}
      {feed : LengthFeed} {depth : Nat} {fault : DataError}
      (around : Puts root value path (.record plan) (.record members))
      (mem : field ∈ plan.fields) (carries : field.feed = some feed)
      (stops : feed.measured members = .error (depth, fault)) :
      FailsAt root value (path ++ (feed.path.take depth).map .member) (.data fault)

theorem FailsAt.isPlain (h : FailsAt root value path cause) : cause.IsPlain := by
  cases h with
  | field _ _ plain => exact plain
  | item _ _ _ plain => exact plain
  | measured => exact .data _

/-- The feeds of a record lead to something in it. -/
def FeedsLead (plan : RecordPlan) : Prop :=
  ∀ field ∈ plan.fields, ∀ feed, field.feed = some feed →
    ∃ target, (Operation.record plan).follow? feed.path = some target

/-- Where a value fails there is something. -/
theorem FailsAt.exists_resolves (h : FailsAt root value path cause)
    (hfeeds : ∀ path plan inner, Puts root value path (.record plan) inner → FeedsLead plan) :
    ∃ operation, Resolves (GivesItems root value) root path operation := by
  cases h with
  | field around mem _ _ => exact ⟨_, around.resolves.member mem⟩
  | item around fills found _ _ => exact ⟨_, (around.item fills found).resolves⟩
  | measured around mem carries _ =>
    obtain ⟨target, hfollow⟩ := hfeeds _ _ _ around _ mem _ carries
    obtain ⟨middle, hmiddle⟩ := exists_follow?_take hfollow _
    exact ⟨middle, around.resolves.follow hmiddle⟩

/-- The error has a path, at which the value can fail. -/
def Located (root : Operation) (value : Value) (error : Error) : Prop :=
  ∃ path cause, error = .located path cause ∧ FailsAt root value path cause

/-- The error has a path at which the value can fail, or none yet. -/
def Locates (root : Operation) (value : Value) (error : Error) : Prop :=
  error.IsPlain ∨ Located root value error

theorem Locates.locate (h : Locates root value error)
    (hplain : error.IsPlain → FailsAt root value path error) :
    Located root value (error.locate path) := by
  rcases h with hplain' | ⟨path, cause, rfl, hfails⟩
  · exact ⟨path, error, hplain'.locate_eq path, hplain hplain'⟩
  · exact ⟨path, cause, rfl, hfails⟩

end Operation

/-! ## Writing -/

theorem WriteM.raises_ofData {α : Type} (result : Except DataError α) :
    Raises Error.IsPlain (WriteM.ofData result) := by
  cases result with
  | ok a => exact .pure a
  | error fault => exact .throw (.data fault)

namespace Writer

theorem raises_sendAll (bytes : List UInt8) : Raises Error.IsPlain (sendAll bytes) :=
  .of_io fun _ _ _ h ↦ ⟨_, eq_of_sendAll_eq_error h⟩

theorem raises_flushBits : Raises Error.IsPlain flushBits :=
  .of_io fun _ _ _ h ↦ ⟨_, eq_of_flushBits_eq_error h⟩

theorem raises_writeBytes (bytes : List UInt8) : Raises Error.IsPlain (writeBytes bytes) :=
  raises_flushBits.bind fun _ ↦ raises_sendAll bytes

theorem raises_writeZeros (count : Nat) : Raises Error.IsPlain (writeZeros count) := by
  rw [writeZeros, sendZeros_eq]
  exact raises_writeBytes _

theorem raises_pack (value width bits : Nat) (swap : Bool) :
    Raises Error.IsPlain (pack value width bits swap) := by
  refine .bind .get fun writer ↦ ?_
  cases writer.packer.pack value width bits swap with
  | error fault => exact .throw (.data fault)
  | ok result =>
    dsimp only
    split
    · exact .modify _
    · exact .bind (.modify _) fun _ ↦ (raises_sendAll _).bind fun _ ↦ .modify _

end Writer

namespace Operation

theorem raises_encodeText (encoding : Encoding) (size : TextSize LengthSource) (value : Value) :
    Raises Error.IsPlain (encodeText encoding size value) := by
  cases value with
  | text content =>
    rw [encodeText, pure_bind]
    refine (WriteM.raises_ofData _).bind fun bytes ↦ ?_
    cases size with
    | nullTerminated =>
      dsimp only
      split
      · exact .throw (.data _)
      · exact (Writer.raises_writeBytes bytes).bind fun _ ↦ Writer.raises_writeZeros 1
    | sized policy =>
      refine (WriteM.raises_ofData _).bind fun slots ↦ ?_
      split
      · exact .throw (.data _)
      · exact (Writer.raises_writeBytes bytes).bind fun _ ↦ Writer.raises_writeZeros _
  | _ => exact .throw (.data _)

theorem raises_encodeLength (length : Nat) (operation : Operation) :
    Raises Error.IsPlain (operation.encodeLength length) := by
  cases operation with
  | scalar repr swap flavor =>
    rw [encodeLength]
    exact (WriteM.raises_ofData _).bind fun raw ↦ Writer.raises_writeBytes _
  | bits repr width container swap flavor =>
    rw [encodeLength]
    exact (WriteM.raises_ofData _).bind fun bits ↦ Writer.raises_pack _ _ _ _
  | _ => exact .throw (.data _)

theorem raises_ofScalar (kind : ScalarKind) (byteOrder : ByteOrder) (flavor : Flavor)
    (traversal : Traversal Members) (value : Value) :
    Raises Error.IsPlain ((ofScalar kind byteOrder flavor).encode traversal value) := by
  rw [ofScalar, Operation.encode]
  exact (WriteM.raises_ofData _).bind fun raw ↦ Writer.raises_writeBytes _

theorem raises_forItems {P : Error → Prop} {action : Nat → Value → WriteM Unit} {position : Nat}
    {items : List Value}
    (h : ∀ done item, items[done]? = some item → Raises P (action (position + done) item)) :
    Raises P (forItems action position items) := by
  induction items generalizing position with
  | nil => exact .pure ()
  | cons item items ih =>
    refine (h 0 item rfl).bind fun _ ↦ ih fun done other hother ↦ ?_
    rw [Nat.add_assoc, Nat.add_comm 1]
    exact h (done + 1) other hother

variable {root : Operation} {value inner : Value} {traversal : Traversal Members}

/-- A list is no list, does not fit its slots, or fails in one of its items. -/
theorem raises_encode_list {element : Operation} {size : SizePolicy LengthSource}
    {default? : Option Value}
    (hput : Puts root value traversal.path (.list element size default?) inner)
    (helement : ∀ position item,
      Puts root value (traversal.enterIndex position).path element item →
        Raises (Locates root value) (element.encode (traversal.enterIndex position) item)) :
    Raises (Locates root value)
      (Operation.encode traversal inner (.list element size default?)) := by
  cases inner with
  | list items =>
    cases hfree : freeSlots? size default? items.length with
    | error fault =>
      rw [Operation.encode, pure_bind]
      dsimp only
      rw [hfree]
      exact .throw (.inl (.data fault))
    | ok free =>
      have hfilled := SizePolicy.filled?_of_freeSlots? hfree
      rw [encode_list hfilled]
      refine raises_forItems fun position item hitem ↦ ?_
      rw [Nat.zero_add]
      have hput' : Puts root value (traversal.enterIndex position).path element item := by
        rw [Traversal.path_enterIndex]
        exact hput.item hfilled hitem
      refine (helement position item hput').fails.adaptExcept ?_
      rintro error ⟨herror, writer, last, hfails⟩
      refine .inr (herror.locate fun hplain ↦ ?_)
      rw [Traversal.path_enterIndex]
      exact .item hput hfilled hitem hplain hfails
  | _ =>
    rw [Operation.encode]
    · exact .throw (.inl (.data _))
    · rintro _ ⟨⟩

end Operation

open Operation (Puts FailsAt Located Locates FeedsLead)

variable {root : Operation} {value inner : Value} {traversal : Traversal Members}

/-- A field locates what it raises, and is at fault by itself if that has no path yet. -/
theorem FieldPlan.raises_encodeAll_singleton {plan : RecordPlan} {members : Members}
    {field : FieldPlan} (hput : Puts root value traversal.path (.record plan) (.record members))
    (hmem : field ∈ plan.fields)
    (hfield : ∀ inner, Puts root value (traversal.enter field.name).path field.operation inner →
      Raises (Locates root value) (field.operation.encode (traversal.enter field.name) inner)) :
    Raises (Located root value) (encodeAll traversal members [field]) := by
  intro writer error last h
  obtain ⟨name, operation, lengthOf, feed, padAfter⟩ := field
  have hraises := h
  rw [encodeAll] at hraises
  rcases run_bind_eq_error_iff.1 hraises with hraises | ⟨_, _, -, hrest⟩
  · obtain ⟨cause, hown, rfl⟩ := run_adaptExcept_eq_error_iff.1 hraises
    have hpad : Raises (Locates root value) (if padAfter then Writer.flushBits else pure ()) := by
      split
      · exact Writer.raises_flushBits.imp fun _ ↦ .inl
      · exact .pure ()
    have hcause : Locates root value cause := by
      refine (?_ : Raises (Locates root value) _) _ _ _ hown
      cases feed with
      | none =>
        dsimp only
        cases hfind : members.find? name with
        | none => exact (Raises.throw (.inl (.data _))).bind fun _ ↦ hpad
        | some inner =>
          refine (hfield inner ?_).bind fun _ ↦ hpad
          rw [Traversal.path_enter]
          exact hput.member hmem rfl hfind
      | some feed =>
        dsimp only
        cases hmeasured : feed.measured members with
        | error stop =>
          exact (Raises.throw (.inr ⟨_, _, rfl, FailsAt.measured hput hmem rfl hmeasured⟩)).bind
            fun _ ↦ hpad
        | ok length =>
          exact ((Operation.raises_encodeLength length operation).imp fun _ ↦ .inl).bind
            fun _ ↦ hpad
    refine hcause.locate fun hplain ↦ ?_
    rw [hplain.locate_eq, Traversal.path_enter] at h
    rw [Traversal.path_enter]
    exact .field hput hmem hplain h
  · exact (run_pure_ne_error hrest).elim

/-- A record fails in one of its fields, and none of them leaves its failure without a path. -/
theorem FieldPlan.raises_encodeAll {plan : RecordPlan} {members : Members} {fields : List FieldPlan}
    (hput : Puts root value traversal.path (.record plan) (.record members))
    (hsubset : fields ⊆ plan.fields)
    (hfields : ∀ field ∈ fields, ∀ inner,
      Puts root value (traversal.enter field.name).path field.operation inner →
        Raises (Locates root value) (field.operation.encode (traversal.enter field.name) inner)) :
    Raises (Located root value) (encodeAll traversal members fields) := by
  induction fields with
  | nil => exact .pure ()
  | cons field rest ih =>
    obtain ⟨hfield, hrest⟩ := List.forall_mem_cons.1 hfields
    obtain ⟨hmem, hmore⟩ := List.cons_subset.1 hsubset
    rw [← List.singleton_append, encodeAll_append]
    exact (raises_encodeAll_singleton hput hmem hfield).bind fun _ ↦ ih hmore hrest

/-! ## Descriptors -/

namespace Descriptor

variable {descriptor : Descriptor} {chain : List Enclosure} {operation : Operation} {path : Path}

/-- The fields in the plan of a record are fields of its descriptor. -/
theorem exists_field_of_mem_plan (hnames : (descriptor.fields.map FieldDescriptor.name).Nodup)
    {plan : RecordPlan} (h : descriptor.operation chain = .record plan) {field : FieldPlan}
    (hmem : field ∈ plan.fields) : ∃ own ∈ descriptor.fields,
      field.operation = own.descriptor.operation (descriptor.enclosure own :: chain) ∧
      field.feed = own.lengthOf.bind (feedOf descriptor.demands) := by
  obtain ⟨kind, byteOrder, hasFixedSize, minSize⟩ := descriptor
  cases kind with
  | record name fields =>
    have hown : (fields.map FieldDescriptor.name).Nodup := hnames
    rw [operation_record hown] at h
    obtain rfl := Operation.record.inj h
    obtain ⟨own, hown, rfl⟩ := List.mem_map.1 hmem
    exact ⟨own, (List.mem_filter.1 hown).1, rfl, rfl⟩
  | _ => cases h

/-- Whatever is put somewhere is put under the operation of a descriptor inside. -/
theorem exists_of_puts
    (hnames : descriptor.Everywhere fun inner ↦ (inner.fields.map FieldDescriptor.name).Nodup)
    (h : Puts (descriptor.operation []) value path operation inner) :
    ∃ (place : Descriptor) (chain : List Enclosure), operation = place.operation chain ∧
      ∀ P, descriptor.Everywhere P → place.Everywhere P := by
  induction h with
  | root => exact ⟨descriptor, [], rfl, fun _ ↦ id⟩
  | member _ mem _ _ ih =>
    obtain ⟨place, chain, hplace, hinside⟩ := ih
    obtain ⟨own, hown, hoperation, -⟩ :=
      exists_field_of_mem_plan (hinside _ hnames).here hplace.symm mem
    exact ⟨own.descriptor, _, hoperation, fun P hP ↦ (hinside P hP).of_field hown⟩
  | @item _ element _ _ _ _ _ _ _ _ _ ih =>
    obtain ⟨⟨kind, byteOrder, hasFixedSize, minSize⟩, chain, hplace, hinside⟩ := ih
    cases kind with
    | list own size =>
      obtain ⟨rfl, -, -⟩ := Operation.list.inj hplace
      exact ⟨own, [], rfl, fun P hP ↦ (hinside P hP).of_element rfl⟩
    | _ => cases hplace

/-- What a field of a record measures is in the record. -/
theorem feedsLead
    (hnames : descriptor.Everywhere fun inner ↦ (inner.fields.map FieldDescriptor.name).Nodup)
    {plan : RecordPlan} (h : descriptor.operation chain = .record plan) : FeedsLead plan := by
  intro field hmem feed hfeed
  obtain ⟨own, -, -, hown⟩ := exists_field_of_mem_plan hnames.here h hmem
  rw [hown] at hfeed
  obtain ⟨key, -, hfind⟩ := Option.bind_eq_some_iff.1 hfeed
  obtain ⟨demand, hdemand, rfl⟩ := Option.map_eq_some_iff.1 hfind
  obtain ⟨path, target, hreaches, -, -, hchain⟩ :=
    mem_demands_iff.1 (List.mem_of_find?_eq_some hdemand)
  have hpath : demand.feed.path = FieldDescriptor.names path := by
    rw [Demand.feed, Demand.path, hchain, path_enclosures]
  rw [← h, hpath]
  exact ⟨_, hreaches.follow?_operation hnames⟩

/-- A record fails in one of its fields, if all that is put into them fails as it can. -/
theorem raises_encodeAll
    (hnames : (descriptor.fields.map FieldDescriptor.name).Nodup) {plan : RecordPlan}
    (h : descriptor.operation chain = .record plan) {members : Members}
    (hput : Puts root value traversal.path (.record plan) (.record members))
    (hfields : ∀ own ∈ descriptor.fields, ∀ chain traversal inner,
      Puts root value traversal.path (own.descriptor.operation chain) inner →
        Raises (Locates root value) ((own.descriptor.operation chain).encode traversal inner)) :
    Raises (Located root value)
      (FieldPlan.encodeAll (traversal.push plan.name members) members plan.fields) := by
  refine FieldPlan.raises_encodeAll hput (fun _ ↦ id) fun field hmem inner hinner ↦ ?_
  obtain ⟨own, hown, hoperation, -⟩ := exists_field_of_mem_plan hnames h hmem
  rw [hoperation] at hinner ⊢
  exact hfields own hown _ _ inner hinner

/-- What is put somewhere fails without a path, or at a path at which the whole value can fail. -/
theorem raises_encode
    (hnames : descriptor.Everywhere fun inner ↦ (inner.fields.map FieldDescriptor.name).Nodup)
    (hcodec : descriptor.Everywhere fun inner ↦ inner.isCodec = false)
    (hput : Puts root value traversal.path (descriptor.operation chain) inner) :
    Raises (Locates root value) ((descriptor.operation chain).encode traversal inner) := by
  induction descriptor using Descriptor.induction generalizing chain traversal inner with
  | step descriptor ihelement ihfields =>
    obtain ⟨kind, byteOrder, hasFixedSize, minSize⟩ := descriptor
    have hscalar (repr : ScalarKind) (flavor : Flavor) : Raises (Locates root value)
        ((Operation.ofScalar repr byteOrder flavor).encode traversal inner) :=
      (Operation.raises_ofScalar repr byteOrder flavor traversal inner).imp fun _ ↦ .inl
    cases kind with
    | scalar kind => exact hscalar kind .native
    | boolean repr => exact hscalar _ .boolean
    | enum repr type => exact hscalar _ .enum
    | bits content repr width container =>
      change Raises _ (Operation.encode traversal inner (.bits ..))
      rw [Operation.encode]
      split
      · exact Writer.raises_flushBits.imp fun _ ↦ .inl
      · exact ((WriteM.raises_ofData _).bind fun bits ↦ Writer.raises_pack _ _ _ _).imp fun _ ↦ .inl
    | text encoding size =>
      exact (Operation.raises_encodeText encoding _ inner).imp fun _ ↦ .inl
    | list element size =>
      exact Operation.raises_encode_list hput fun position item hitem ↦
        ihelement element rfl (hnames.of_element rfl) (hcodec.of_element rfl) hitem
    | record name fields =>
      obtain ⟨plan, hplan⟩ : ∃ plan, operation chain
          ⟨.record name fields, byteOrder, hasFixedSize, minSize⟩ = .record plan :=
        exists_operation_eq_record rfl chain
      rw [hplan] at hput ⊢
      rw [Operation.encode]
      cases inner with
      | record members =>
        have hflush : Raises (Locates root value) Writer.flushBits :=
          Writer.raises_flushBits.imp fun _ ↦ .inl
        have hall := raises_encodeAll hnames.here hplan hput fun own hown chain traversal inner ↦
          ihfields own hown (hnames.of_field hown) (hcodec.of_field hown)
        obtain ⟨typeName, plans, skipped⟩ := plan
        rw [Value.members]
        dsimp only [WriteM.ofData]
        rw [pure_bind, RecordPlan.encode]
        exact hflush.bind fun _ ↦ (hall.imp fun _ ↦ .inr).bind fun _ ↦ hflush
      | _ => exact .throw (.inl (.data _))
    | custom codec context => cases hcodec.here

end Descriptor

/-! ## Lengths that cannot be measured -/

namespace LengthFeed

variable {feed : LengthFeed} {members : Members} {depth : Nat} {fault : DataError}

/-- The first member on the way to what a length measures at which there is no going on, with the
number of members up to it: it is missing, no record although the way goes on, or at the end of the
way and of no length. -/
inductive StopsAt (feed : LengthFeed) (members : Members) : Nat → DataError → Prop where
  | missing {before after : List String} {name : String} {inner : Members}
      (path : feed.path = before ++ name :: after)
      (reached : (Value.record members).follow? before = some (.record inner))
      (absent : inner.find? name = none) :
      StopsAt feed members (before.length + 1) (.missingField name)
  | mistyped {before after : List String} {name : String} {inner : Members} {other : Value}
      (path : feed.path = before ++ name :: after) (further : after ≠ [])
      (reached : (Value.record members).follow? before = some (.record inner))
      (found : inner.find? name = some other) (mismatched : ∀ members, other ≠ .record members) :
      StopsAt feed members (before.length + 1) (other.mismatch "struct")
  | consumer {before : List String} {name : String} {inner : Members} {target : Value}
      {fault : DataError} (path : feed.path = before ++ [name])
      (reached : (Value.record members).follow? before = some (.record inner))
      (found : inner.find? name = some target)
      (fails : lengthOf feed.measure target = .error fault) :
      StopsAt feed members (before.length + 1) fault

/-- Going down stops at the first member that is missing or no record. -/
theorem exists_of_reach_eq_error {passed : Nat} {path : List String}
    (h : reach passed members path = .error (depth, fault)) :
    ∃ (before : List String) (name : String) (after : List String) (inner : Members),
      path = before ++ name :: after ∧
      (Value.record members).follow? before = some (.record inner) ∧
      depth = passed + (before.length + 1) ∧
      ((inner.find? name = none ∧ fault = .missingField name) ∨
        ∃ other, inner.find? name = some other ∧ (∀ members, other ≠ .record members) ∧
          fault = other.mismatch "struct") := by
  induction path generalizing passed members with
  | nil => cases h
  | cons name path ih =>
    rw [reach] at h
    split at h
    · next hfind =>
      cases h
      exact ⟨[], name, path, members, rfl, rfl, rfl, .inl ⟨hfind, rfl⟩⟩
    · next found hfind =>
      obtain ⟨before, last, after, inner, rfl, hfollow, rfl, hlast⟩ := ih h
      refine ⟨name :: before, last, after, inner, rfl, ?_, by simp; omega, hlast⟩
      change (members.find? name).bind _ = _
      rw [hfind]
      exact hfollow
    · next other hother hfind =>
      cases h
      exact ⟨[], name, path, members, rfl, rfl, rfl, .inr ⟨other, hfind, hother, rfl⟩⟩

/-- Where measuring a length stops. -/
theorem stopsAt_of_measured (h : feed.measured members = .error (depth, fault)) :
    feed.StopsAt members depth fault := by
  rw [measured] at h
  cases hlast : feed.path.getLast? with
  | none =>
    rw [hlast] at h
    cases h
  | some name =>
    obtain ⟨before, hpath⟩ := List.getLast?_eq_some_iff.1 hlast
    rw [hlast] at h
    simp only [hpath, List.dropLast_concat] at h
    rcases bind_eq_error_iff.1 h with hreach | ⟨inner, hreach, h⟩
    · obtain ⟨start, name', after, inner, rfl, hfollow, rfl, ⟨habsent, rfl⟩ |
        ⟨other, hfound, hother, rfl⟩⟩ := exists_of_reach_eq_error hreach
      · rw [Nat.zero_add]
        exact .missing (by rw [hpath, List.append_assoc, List.cons_append]) hfollow habsent
      · rw [Nat.zero_add]
        exact .mistyped (by rw [hpath, List.append_assoc, List.cons_append]) (by simp) hfollow
          hfound hother
    · have hfollow := follow?_of_reach hreach
      have hlength : (before ++ [name]).length = before.length + 1 := by simp
      rw [hlength] at h
      split at h
      · next hfind =>
        cases h
        exact .missing hpath hfollow hfind
      · next target hfind =>
        obtain ⟨own, hown, hpair⟩ := mapError_eq_error_iff.1 h
        cases hpair
        exact .consumer hpath hfollow hfind hown

end LengthFeed

/-- A field whose length cannot be measured fails where measuring stops. -/
theorem FieldPlan.encodeAll_of_measured {field : FieldPlan} {rest : List FieldPlan}
    {members : Members} {feed : LengthFeed} {depth : Nat} {fault : DataError} {writer : Writer}
    (hfeed : field.feed = some feed) (h : feed.measured members = .error (depth, fault)) :
    encodeAll traversal members (field :: rest) writer =
      .error (.located (traversal.path ++ (feed.path.take depth).map .member) (.data fault))
        writer := by
  obtain ⟨name, operation, lengthOf, _, padAfter⟩ := field
  obtain rfl := hfeed
  rw [encodeAll]
  refine run_bind_eq_error_iff.2 (.inl (run_adaptExcept_eq_error_iff.2
    ⟨.located (traversal.path ++ (feed.path.take depth).map .member) (.data fault), ?_, rfl⟩))
  dsimp only
  rw [h]
  exact run_bind_eq_error_iff.2 (.inl rfl)

/-! ## Schemas -/

namespace Schema

variable {layout : Layout} {schema : Schema} {sink sink' : Sink} {error : Error}

/-- Every failure is located once, at the path of what fails by itself, which leads somewhere.  The
exceptions are those of the root: it is no record, or the last container does not fit after all
fields have been written. -/
structure LocatesFailures (schema : Schema) : Prop where
  reading : ∀ bytes rest error, schema.deserialize bytes = (.error error, rest) →
    ∃ stage cause, schema.Visits bytes stage ∧ stage.Breaks cause ∧
      error = .located stage.traversal.path cause ∧
      Operation.Resolves (schema.FindsItems bytes) (.record schema.plan.root) stage.traversal.path
        stage.operation
  writing : ∀ value sink sink' error, schema.serialize value sink = (.error error, sink') →
    (∃ path operation cause, error = .located path cause ∧ cause.IsPlain ∧
      Operation.FailsAt (.record schema.plan.root) value path cause ∧
      Operation.Resolves (Operation.GivesItems (.record schema.plan.root) value)
        (.record schema.plan.root) path operation) ∨
    ((∀ members, value ≠ .record members) ∧ error = .data (value.mismatch "struct")) ∨
    ∃ members written last, value = .record members ∧
      FieldPlan.encodeAll (Traversal.push {} schema.plan.root.name members) members
        schema.plan.root.fields { sink := sink } = .ok () written ∧
      Writer.flushBits written = .error error last ∧ error = .io .writeZero
  /-- A length that cannot be measured is located where measuring stops. -/
  measuring : ∀ value around plan members field feed depth fault,
    Operation.Puts (.record schema.plan.root) value around (.record plan) (.record members) →
    field ∈ plan.fields → field.feed = some feed →
    feed.measured members = .error (depth, fault) →
      feed.StopsAt members depth fault ∧
      (∃ operation, Operation.Resolves (Operation.GivesItems (.record schema.plan.root) value)
        (.record schema.plan.root) (around ++ (feed.path.take depth).map .member) operation) ∧
      ∀ traversal rest writer, traversal.path = around →
        FieldPlan.encodeAll traversal members (field :: rest) writer =
          .error (.located (around ++ (feed.path.take depth).map .member) (.data fault)) writer

/-- What writing the members of the root fails with. -/
theorem write_eq_error {members : Members} {writer : Writer}
    (h : schema.write members { sink := sink } = .error error writer) :
    FieldPlan.encodeAll (Traversal.push {} schema.plan.root.name members) members
        schema.plan.root.fields { sink := sink } = .error error writer ∨
      ∃ written, FieldPlan.encodeAll (Traversal.push {} schema.plan.root.name members) members
          schema.plan.root.fields { sink := sink } = .ok () written ∧
        Writer.flushBits written = .error error writer := by
  have hidle : Writer.flushBits { sink := sink } = .ok () { sink := sink } :=
    Writer.flushBits_of_packer_eq rfl
  obtain ⟨_, _, ⟨⟨name, fields, skipped⟩, _, _⟩⟩ := schema
  rcases run_bind_eq_error_iff.1 h with hencode | ⟨_, last, hencode, hfinish⟩
  · rw [RecordPlan.encode] at hencode
    rcases run_bind_eq_error_iff.1 hencode with hflush | ⟨_, _, hflush, hencode⟩
    · rw [hidle] at hflush
      cases hflush
    · rw [hidle] at hflush
      cases hflush
      rcases run_bind_eq_error_iff.1 hencode with hall | ⟨_, written, hall, hflush⟩
      · exact .inl hall
      · exact .inr ⟨written, hall, hflush⟩
  · -- Nothing is pending after the last container has gone out.
    rw [RecordPlan.encode] at hencode
    obtain ⟨_, _, -, hencode⟩ := run_bind_eq_ok_iff.1 hencode
    obtain ⟨_, written, -, hflush⟩ := run_bind_eq_ok_iff.1 hencode
    rcases run_bind_eq_error_iff.1 hfinish with hagain | ⟨_, _, -, hanswer⟩
    · rw [Writer.flushBits_of_packer_eq (Writer.packer_eq_of_flushBits hflush)] at hagain
      cases hagain
    · cases hanswer

/-- What a record measures leads to what is on the wire, wherever the record is. -/
theorem feedsLead_of_puts (h : ofLayout layout = .ok schema) {value inner : Value} {path : Path}
    {plan : RecordPlan}
    (hput : Puts (.record schema.plan.root) value path (.record plan) inner) : FeedsLead plan := by
  obtain ⟨hdescribe, hplan⟩ := ofLayout_eq_ok h
  obtain ⟨-, hroot, -, -⟩ := Plan.ofDescriptor_eq_ok_iff.1 hplan
  have hnames := Layout.everywhere_nodup_names hdescribe
  rw [← hroot] at hput
  obtain ⟨place, chain, hplace, hinside⟩ := Descriptor.exists_of_puts hnames hput
  exact Descriptor.feedsLead (hinside _ hnames) hplace.symm

/-- What goes wrong in a field of the root is located there. -/
theorem raises_encodeAll (h : ofLayout layout = .ok schema) (hcodec : ¬ layout.UsesCodec)
    (members : Members) : Raises (Located (.record schema.plan.root) (.record members))
      (FieldPlan.encodeAll (Traversal.push {} schema.plan.root.name members) members
        schema.plan.root.fields) := by
  obtain ⟨hdescribe, hplan⟩ := ofLayout_eq_ok h
  obtain ⟨-, hroot, -, -⟩ := Plan.ofDescriptor_eq_ok_iff.1 hplan
  have hnames := Layout.everywhere_nodup_names hdescribe
  have hfree := Layout.everywhere_isCodec_eq_false hdescribe hcodec
  exact Descriptor.raises_encodeAll hnames.here hroot .root fun own hown chain traversal inner ↦
    Descriptor.raises_encode (hnames.of_field hown) (hfree.of_field hown)

/-- What cannot be written fails in a field, for not being a record, or with its last container. -/
theorem located_of_serialize (h : ofLayout layout = .ok schema) (hcodec : ¬ layout.UsesCodec)
    {value : Value} (hserialize : schema.serialize value sink = (.error error, sink')) :
    (∃ path operation cause, error = .located path cause ∧ cause.IsPlain ∧
      Operation.FailsAt (.record schema.plan.root) value path cause ∧
      Operation.Resolves (Operation.GivesItems (.record schema.plan.root) value)
        (.record schema.plan.root) path operation) ∨
    ((∀ members, value ≠ .record members) ∧ error = .data (value.mismatch "struct")) ∨
    ∃ members written last, value = .record members ∧
      FieldPlan.encodeAll (Traversal.push {} schema.plan.root.name members) members
        schema.plan.root.fields { sink := sink } = .ok () written ∧
      Writer.flushBits written = .error error last ∧ error = .io .writeZero := by
  cases value with
  | record members =>
    have hmembers : rootMembers (.record members) = .ok members := rfl
    rw [serialize, hmembers] at hserialize
    dsimp only at hserialize
    cases hwrite : schema.write members { sink := sink } with
    | ok count writer =>
      rw [hwrite] at hserialize
      cases hserialize
    | error failure writer =>
      rw [hwrite] at hserialize
      cases hserialize
      rcases write_eq_error hwrite with hall | ⟨written, hall, hflush⟩
      · obtain ⟨path, cause, rfl, hfails⟩ := raises_encodeAll h hcodec members _ _ _ hall
        obtain ⟨operation, hresolves⟩ :=
          hfails.exists_resolves fun path plan inner ↦ feedsLead_of_puts h
        exact .inl ⟨path, operation, cause, rfl, hfails.isPlain, hfails, hresolves⟩
      · exact .inr (.inr ⟨members, written, writer, rfl, hall, hflush,
          Writer.eq_of_flushBits_eq_error hflush⟩)
  | _ =>
    cases hserialize
    refine .inr (.inl ⟨?_, rfl⟩)
    rintro members ⟨⟩

/-- Every failure is located once, at the path of what fails by itself. -/
theorem locatesFailures (h : ofLayout layout = .ok schema) (hcodec : ¬ layout.UsesCodec) :
    schema.LocatesFailures where
  reading bytes rest error := located_of_deserialize h hcodec
  writing value sink sink' error := located_of_serialize h hcodec
  measuring := by
    intro value around plan members field feed depth fault hput hmem hfeed hmeasured
    refine ⟨LengthFeed.stopsAt_of_measured hmeasured,
      (FailsAt.measured hput hmem hfeed hmeasured).exists_resolves
        fun path plan inner ↦ feedsLead_of_puts h, ?_⟩
    rintro traversal rest writer rfl
    exact FieldPlan.encodeAll_of_measured hfeed hmeasured

end Schema

/-- Without its bytes, a count fails where they are missing. -/
theorem Schema.counted_locatesFailures : Schema.counted.LocatesFailures ∧
    Schema.counted.serialize (.record [("count", .integer .u8 2)]) {} =
      (.error (.located [.member "items"] (.data (.missingField "items"))), {}) :=
  ⟨Schema.locatesFailures Schema.ofLayout_counted Layout.not_usesCodec_counted, rfl⟩

end WireFormat
