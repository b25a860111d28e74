import WireFormat.Proofs.Run.Lengths
import WireFormat.Proofs.Stream.Delimited

/-!
# Paths of failures

An error is given the path of the innermost field or element that it arises in, and keeps it.  Such
a path is not only a list of steps: followed from the root, it leads somewhere.

* `Operation.Resolves` — a path leads to an operation;
* `Raises` — an action whose errors are of some kind;
* `Stage.Breaks` — a stage that fails by itself;
* `Schema.resolves_of_visits` — whatever is about to be read is where its path leads;
* `Schema.located_of_deserialize` — what cannot be read fails at a stage, whose path the error is
  given once.
-/

namespace WireFormat

/-! ## Where a path leads -/

namespace Operation

/-- The operation that a path leads to: each name is that of a field of the record before, and each
index is below the number of slots of the list before.  That number is fixed, or else there are as
many slots as `count` says there are items at the path of the list. -/
inductive Resolves (count : Path → Nat → Prop) (root : Operation) : Path → Operation → Prop where
  | root : Resolves count root [] root
  | member {path : Path} {plan : RecordPlan} {field : FieldPlan}
      (around : Resolves count root path (.record plan)) (mem : field ∈ plan.fields) :
      Resolves count root (path ++ [.member field.name]) field.operation
  | index {path : Path} {element : Operation} {size : SizePolicy LengthSource}
      {default? : Option Value} {slots position : Nat}
      (around : Resolves count root path (.list element size default?))
      (room : size.slots? = some slots ∨ size.slots? = none ∧ count path slots)
      (lt : position < slots) : Resolves count root (path ++ [.index position]) element

variable {count : Path → Nat → Prop} {root operation target : Operation} {path : Path}
  {names : List String}

/-- Names that can be followed lead on. -/
theorem Resolves.follow (h : Resolves count root path operation)
    (hfollow : operation.follow? names = some target) :
    Resolves count root (path ++ names.map .member) target := by
  induction names generalizing path operation with
  | nil =>
    cases hfollow
    simpa using h
  | cons name names ih =>
    cases operation with
    | record plan =>
      obtain ⟨field, hfield, hrest⟩ := Option.bind_eq_some_iff.1 hfollow
      have hname : field.name = name := by simpa using List.find?_some hfield
      subst hname
      have hmember := ih (h.member (List.mem_of_find?_eq_some hfield)) hrest
      rwa [List.append_assoc] at hmember
    | _ => cases hfollow

/-- What can be followed to its end can be followed up to anywhere before. -/
theorem exists_follow?_take (h : operation.follow? names = some target) (depth : Nat) :
    ∃ middle, operation.follow? (names.take depth) = some middle := by
  induction names generalizing operation depth with
  | nil => exact ⟨operation, by simp [follow?]⟩
  | cons name names ih =>
    cases depth with
    | zero => exact ⟨operation, rfl⟩
    | succ depth =>
      cases operation with
      | record plan =>
        obtain ⟨field, hfield, hrest⟩ := Option.bind_eq_some_iff.1 h
        obtain ⟨middle, hmiddle⟩ := ih hrest depth
        exact ⟨middle, Option.bind_eq_some_iff.2 ⟨field, hfield, hmiddle⟩⟩
      | _ => cases h

end Operation

/-! ## Errors without a path -/

/-- An error of the data or of a stream, without a path. -/
inductive Error.IsPlain : Error → Prop where
  | data (fault : DataError) : IsPlain (.data fault)
  | io (failure : IoFailure) : IsPlain (.io failure)

/-- An error without a path is given one. -/
theorem Error.IsPlain.locate_eq {error : Error} (h : error.IsPlain) (path : Path) :
    error.locate path = .located path error := by
  cases h <;> rfl

theorem Error.IsPlain.rootCause_eq {error : Error} (h : error.IsPlain) :
    error.rootCause = error := by
  cases h <;> rfl

/-- No error is without a path once it has been given one. -/
theorem Error.IsPlain.ne_locate {error cause : Error} {path : Path} (h : error.IsPlain) :
    error ≠ cause.locate path := by
  rintro rfl
  cases cause <;> cases h

section

variable {σ α β : Type} {P Q : Error → Prop} {action : EStateM Error σ α}
  {f : α → EStateM Error σ β}

/-- Whatever the action fails with is of some kind. -/
def Raises (P : Error → Prop) (action : EStateM Error σ α) : Prop :=
  ∀ s error next, action s = .error error next → P error

namespace Raises

theorem pure (a : α) : Raises (σ := σ) P (Pure.pure a) := fun _ _ _ h ↦ (run_pure_ne_error h).elim

theorem get : Raises P (MonadState.get : EStateM Error σ σ) :=
  fun _ _ _ h ↦ (run_get_ne_error h).elim

theorem modify (f : σ → σ) : Raises P (modifyThe σ f : EStateM Error σ PUnit) :=
  fun _ _ _ h ↦ (run_modify_ne_error h).elim

theorem throw {error : Error} (h : P error) :
    Raises (σ := σ) P (MonadExcept.throw error : EStateM Error σ α) := by
  intro s other next hthrow
  obtain ⟨rfl, -⟩ := run_throw_eq_error_iff.1 hthrow
  exact h

theorem bind (h : Raises P action) (hmore : ∀ a, Raises P (f a)) : Raises P (action >>= f) := by
  intro s error next herror
  rcases run_bind_eq_error_iff.1 herror with haction | ⟨a, middle, -, hf⟩
  · exact h s error next haction
  · exact hmore a middle error next hf

theorem imp (h : Raises P action) (himp : ∀ error, P error → Q error) : Raises Q action :=
  fun s error next herror ↦ himp error (h s error next herror)

theorem adaptExcept (h : Raises P action) {g : Error → Error}
    (himp : ∀ error, P error → Q (g error)) :
    Raises Q (EStateM.adaptExcept g action) := by
  intro s error next herror
  obtain ⟨cause, haction, rfl⟩ := run_adaptExcept_eq_error_iff.1 herror
  exact himp cause (h s cause next haction)

/-- Whatever the action fails with, it fails with somewhere. -/
theorem fails (h : Raises P action) :
    Raises (fun error ↦ P error ∧ ∃ s next, action s = .error error next) action :=
  fun s error next herror ↦ ⟨h s error next herror, s, next, herror⟩

/-- What can only fail because of a stream fails without a path. -/
theorem of_io (h : ∀ s error next, action s = .error error next → ∃ failure, error = .io failure) :
    Raises Error.IsPlain action := by
  intro s error next herror
  obtain ⟨failure, rfl⟩ := h s error next herror
  exact .io failure

end Raises

end

theorem ReadM.raises_ofData {α : Type} (result : Except DataError α) :
    Raises Error.IsPlain (ReadM.ofData result) := by
  cases result with
  | ok a => exact .pure a
  | error fault => exact .throw (.data fault)

/-! ## Reading -/

namespace Reader

theorem raises_receiveAll (count : Nat) : Raises Error.IsPlain (receiveAll count) :=
  .of_io fun _ _ _ h ↦ ⟨_, eq_of_receiveAll_eq_error h⟩

theorem raises_readBytes (count : Nat) : Raises Error.IsPlain (readBytes count) :=
  .bind (.modify _) fun _ ↦ raises_receiveAll count

theorem raises_readUntilNul : Raises Error.IsPlain readUntilNul :=
  .bind (.modify _) fun _ ↦ .bind .get fun _ ↦ (raises_receiveAll _).bind fun _ ↦ .pure _

theorem raises_unpack {width bits : Nat} {swap : Bool} (hbits : bits ≠ 0) :
    Raises Error.IsPlain (unpack width bits swap) := by
  intro reader error next h
  rcases (unpack_eq_error_iff hbits).1 h with
    ⟨fault, -, rfl, -⟩ | ⟨-, ⟨_, -, -, rfl, -⟩ | ⟨-, hreceive⟩⟩
  · exact .data fault
  · exact .data _
  · exact raises_receiveAll _ _ _ _ hreceive

end Reader

theorem Operation.raises_decodeTextBytes (traversal : Traversal Members) (encoding : Encoding)
    (size : TextSize LengthSource) :
    Raises Error.IsPlain (decodeTextBytes traversal encoding size) := by
  have hread (kept slots : Nat) : Raises Error.IsPlain (do
      let bytes ← Reader.readBytes kept
      Reader.skip (slots - kept)
      return bytes) :=
    (Reader.raises_readBytes kept).bind fun _ ↦
      ((Reader.raises_readBytes _).bind fun _ ↦ .pure _).bind fun _ ↦ .pure _
  cases size with
  | nullTerminated => exact Reader.raises_readUntilNul
  | sized policy =>
    cases policy with
    | fixed slots => exact (Reader.raises_readBytes slots).bind fun _ ↦ .pure _
    | keyed | padded => exact (ReadM.raises_ofData _).bind fun extent ↦ hread extent.1 extent.2

namespace Stage

variable {stage inner : Stage} {error : Error} {last : Reader}

/-- The stage fails by itself, with an error that has no path yet. -/
structure Breaks (stage : Stage) (cause : Error) : Prop extends stage.IsOrigin cause where
  plain : cause.IsPlain
  breaks : ∃ last, stage.run = .error cause last

/-- An error without a path does not come from inside: all that is entered gives its errors one. -/
theorem breaks_of_run (hplain : error.IsPlain) (h : stage.run = .error error last) :
    stage.Breaks error where
  fails := ⟨error, last, h, hplain.rootCause_eq⟩
  alone := by
    rintro inner (⟨field, ⟨split, passed⟩⟩ | ⟨position, ⟨extent, lt, passed⟩⟩)
    · obtain ⟨field, around, middle, cause, -, rfl, -⟩ := run_record_eq_error h
      exact (hplain.ne_locate rfl).elim
    · rcases run_list_eq_error h with ⟨fault, hfault, -⟩ | ⟨position, inner, cause, -, -, rfl⟩
      · rw [extent] at hfault
        cases hfault
      · exact (hplain.ne_locate rfl).elim
  plain := hplain
  breaks := ⟨last, h⟩

/-- Nothing inside is left to a codec, and whatever carries a length there is read as an integer. -/
structure Steady (stage : Stage) : Prop where
  free : ∀ inner, stage.Leads inner → ∀ codec context, inner.operation ≠ .custom codec context
  numbers : ∀ outer, stage.Leads outer → ∀ field inner value next, outer.EntersField field inner →
    field.lengthOf.isSome → inner.run = .ok value next → ∃ length, value.toInteger? = some length

theorem Steady.of_enters (h : stage.Steady) (henters : stage.Enters inner) : inner.Steady where
  free place hleads := h.free place (.head henters hleads)
  numbers outer hleads := h.numbers outer (.head henters hleads)

/-- The stage itself has failed without a path, or one inside has, whose path is that of the error.
-/
def Locates (stage : Stage) (error : Error) : Prop :=
  stage.Breaks error ∨ ∃ inner cause, stage.Leads inner ∧ inner.Breaks cause ∧
    error = .located inner.traversal.path cause

/-- What is raised inside has a path already, or is given the path of what has been entered. -/
theorem Enters.locates (h : stage.Enters inner) (hinner : inner.Locates error) :
    stage.Locates (error.locate inner.traversal.path) := by
  rcases hinner with hbreaks | ⟨place, cause, hleads, hbreaks, rfl⟩
  · exact .inr ⟨inner, error, .single h, hbreaks, hbreaks.plain.locate_eq _⟩
  · exact .inr ⟨place, cause, .head h hleads, hbreaks, rfl⟩

/-- A stage that fails has no path for it yet, or that of the stage inside that has failed. -/
theorem locates_of_run (hsteady : stage.Steady) (h : stage.run = .error error last) :
    stage.Locates error := by
  induction stage using enters_induction generalizing error last with
  | step stage ih =>
    have hplain (hplain : error.IsPlain) : stage.Locates error := .inl (breaks_of_run hplain h)
    have hinside {inner : Stage} (henters : stage.Enters inner) {cause : Error} {last : Reader}
        (h : inner.run = .error cause last) :=
      ih inner henters (hsteady.of_enters henters) h
    obtain ⟨operation, traversal, reader⟩ := stage
    cases operation with
    | scalar repr swap flavor =>
      rw [run, Operation.decode] at h
      exact hplain ((((Reader.raises_readBytes _).bind fun _ ↦ .pure _).bind fun raw ↦
        ReadM.raises_ofData _) _ _ _ h)
    | bits repr width container swap flavor =>
      rw [run, Operation.decode] at h
      split at h
      · cases h
      · next hwidth =>
        exact hplain (((Reader.raises_unpack hwidth).bind fun bits ↦ ReadM.raises_ofData _) _ _ _ h)
    | text encoding size =>
      rw [run, Operation.decode] at h
      exact hplain (((Operation.raises_decodeTextBytes traversal encoding size).bind fun bytes ↦
        (ReadM.raises_ofData _).bind fun text ↦ .pure _) _ _ _ h)
    | list element size default? =>
      rcases run_list_eq_error h with
        ⟨fault, -, rfl⟩ | ⟨position, inner, cause, henters, hinner, rfl⟩
      · exact hplain (.data fault)
      · exact Enters.locates (.element position henters)
          (hinside (.element position henters) hinner)
    | record plan =>
      obtain ⟨field, around, middle, cause, henters, rfl, hinner⟩ := run_record_eq_error h
      rcases hinner with hinner | ⟨value, fault, hvalue, hkeep, -⟩
      · exact Enters.locates (.field field henters) (hinside (.field field henters) hinner)
      · obtain ⟨hlength, hnone⟩ := FieldPlan.isSome_of_keep_eq_error hkeep
        obtain ⟨length, hnumber⟩ := hsteady.numbers _ .refl field _ value _ henters hlength hvalue
        rw [hnone] at hnumber
        cases hnumber
    | custom codec context => exact (hsteady.free _ .refl codec context rfl).elim

/-- A record that fails has a path for it: all it does by itself cannot fail. -/
theorem exists_located_of_run_record {plan : RecordPlan} {traversal : Traversal Members}
    {reader : Reader} (hsteady : Steady ⟨.record plan, traversal, reader⟩)
    (h : run ⟨.record plan, traversal, reader⟩ = .error error last) :
    ∃ inner cause, Leads ⟨.record plan, traversal, reader⟩ inner ∧ inner.Breaks cause ∧
      error = .located inner.traversal.path cause := by
  rcases locates_of_run hsteady h with hbreaks | hlocated
  · obtain ⟨field, around, middle, cause, -, rfl, -⟩ := run_record_eq_error h
    exact (hbreaks.plain.ne_locate rfl).elim
  · exact hlocated

end Stage

/-! ## Paths of stages -/

section Steps

variable {traversal around : Traversal Members} {reader next : Reader} {value : Value}

theorem FieldPlan.path_of_keep {name : String} {lengthOf : Option String}
    (h : keep traversal name lengthOf value = .ok around) : around.path = traversal.path := by
  cases lengthOf with
  | none =>
    cases h
    rfl
  | some key =>
    rw [keep] at h
    split at h <;> cases h
    rfl

/-- Reading fields does not move the record that they are in. -/
theorem FieldPlan.path_of_pass {fields : List FieldPlan}
    (h : pass traversal fields reader = .ok around next) : around.path = traversal.path := by
  induction fields generalizing traversal reader with
  | nil =>
    obtain ⟨rfl, -⟩ := run_pure_eq_ok_iff.1 h
    rfl
  | cons field fields ih =>
    rw [pass, List.foldlM_cons, run_bind_eq_ok_iff] at h
    obtain ⟨after, middle, hadvance, h⟩ := h
    obtain ⟨_, _, -, hkeep, -⟩ := advance_eq_ok_iff.1 hadvance
    exact (ih h).trans (path_of_keep hkeep)

theorem Traversal.path_enter (traversal : Traversal Members) (name : String) :
    (traversal.enter name).path = traversal.path ++ [.member name] :=
  List.reverse_cons

theorem Traversal.path_enterIndex (traversal : Traversal Members) (position : Nat) :
    (traversal.enterIndex position).path = traversal.path ++ [.index position] :=
  List.reverse_cons

/-- A list has the slots of its policy, or as many as there are items to keep. -/
theorem Traversal.slots_of_extent {size : SizePolicy LengthSource} {kept slots : Nat}
    (h : traversal.extent size = .ok (kept, slots)) :
    size.slots? = some slots ∨ size.slots? = none ∧ kept = slots := by
  cases size with
  | fixed own =>
    cases h
    exact .inl rfl
  | keyed source =>
    obtain ⟨length, -, h⟩ := bind_eq_ok_iff.1 h
    cases h
    exact .inr ⟨rfl, rfl⟩
  | padded source own =>
    obtain ⟨length, -, h⟩ := bind_eq_ok_iff.1 h
    split at h <;> cases h
    exact .inl rfl

end Steps

theorem Descriptor.operation_ne_custom {descriptor : Descriptor} (h : descriptor.isCodec = false)
    (chain : List Enclosure) (codec : Codec) (context : Option String) :
    descriptor.operation chain ≠ .custom codec context := by
  obtain ⟨kind, byteOrder, hasFixedSize, minSize⟩ := descriptor
  cases kind with
  | custom => cases h
  | _ => rintro ⟨⟩

namespace Schema

variable {layout : Layout} {schema : Schema} {bytes rest : List UInt8} {stage : Stage}
  {error : Error}

/-- The list at a path has been found to have some number of items, which have been read or are
about to be. -/
inductive FindsItems (schema : Schema) (bytes : List UInt8) : Path → Nat → Prop where
  | intro {element : Operation} {size : SizePolicy LengthSource} {default? : Option Value}
      {traversal : Traversal Members} {reader : Reader} {number : Nat}
      (visits : schema.Visits bytes ⟨.list element size default?, traversal, reader⟩)
      (extent : traversal.extent size = .ok (number, number)) :
      FindsItems schema bytes traversal.path number

/-- Whatever is about to be read is where its path leads. -/
theorem resolves_of_visits (h : schema.Visits bytes stage) :
    Operation.Resolves (schema.FindsItems bytes) (.record schema.plan.root) stage.traversal.path
      stage.operation := by
  induction h with
  | refl => exact .root
  | @tail stage inner hvisits henters ih =>
    cases henters with
    | field field enters =>
      obtain @⟨plan, before, rest, _, traversal, around, reader, next, split, passed⟩ := enters
      have hmem : field ∈ plan.fields := by
        rw [split]
        exact List.mem_append_right before List.mem_cons_self
      have hpath : around.path = (traversal.push plan.name []).path := FieldPlan.path_of_pass passed
      change Operation.Resolves _ _ (around.enter field.name).path field.operation
      rw [Traversal.path_enter, hpath]
      exact ih.member hmem
    | element position enters =>
      obtain @⟨element, size, default?, traversal, reader, next, kept, slots, _, before, extent,
        lt, passed⟩ := enters
      change Operation.Resolves _ _ (traversal.enterIndex position).path element
      rw [Traversal.path_enterIndex]
      refine ih.index ((traversal.slots_of_extent extent).imp_right ?_) lt
      rintro ⟨hslots, rfl⟩
      exact ⟨hslots, .intro hvisits extent⟩

/-- No stage is left to a codec, and whatever carries a length is read as an integer. -/
theorem steady_start (h : ofLayout layout = .ok schema) (hcodec : ¬ layout.UsesCodec)
    (bytes : List UInt8) : (schema.start bytes).Steady := by
  obtain ⟨hdescribe, -⟩ := ofLayout_eq_ok h
  have hfree := Layout.everywhere_isCodec_eq_false hdescribe hcodec
  constructor
  · intro inner hvisits codec context
    obtain ⟨descriptor, chain, hshows⟩ := exists_shows_of_visits h hcodec hvisits
    rw [hshows.operation]
    exact Descriptor.operation_ne_custom (hshows.inside _ hfree).here chain codec context
  · intro outer hvisits field inner value next henters
    obtain ⟨descriptor, chain, hshows⟩ := exists_shows_of_visits h hcodec hvisits
    exact hshows.exists_toInteger? (Layout.describe_coherent hdescribe) hfree
      (fun length hlength ↦ ⟨outer, hvisits, hlength⟩) henters

/-- What cannot be read fails at a stage of the run, and is given the path of that stage once. -/
theorem located_of_deserialize (h : ofLayout layout = .ok schema) (hcodec : ¬ layout.UsesCodec)
    (hdeserialize : schema.deserialize bytes = (.error error, rest)) :
    ∃ stage cause, schema.Visits bytes stage ∧ stage.Breaks cause ∧
      error = .located stage.traversal.path cause ∧
      Operation.Resolves (schema.FindsItems bytes) (.record schema.plan.root) stage.traversal.path
        stage.operation := by
  obtain ⟨last, hrun⟩ := exists_run_of_deserialize_eq_error hdeserialize
  obtain ⟨stage, cause, hvisits, hbreaks, rfl⟩ :=
    Stage.exists_located_of_run_record (steady_start h hcodec bytes) hrun
  exact ⟨stage, cause, hvisits, hbreaks, rfl, resolves_of_visits hvisits⟩

end Schema

end WireFormat
