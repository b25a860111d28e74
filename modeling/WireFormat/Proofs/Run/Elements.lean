import WireFormat.Proofs.Format.Typing
import WireFormat.Proofs.Run.Lengths
import WireFormat.Proofs.Size.Positive

/-!
# The elements of a list and its bytes

The length of a list may be read from the wire, where anything may stand.  The bytes that the
elements take bound it then: each element takes its least room, and this is some bytes unless a
length in the elements has no bits to be read from.

* `Stage.Shows.exists_taken_of_run_list` — a list takes the least room of its elements for each
  slot;
* `Schema.exists_taken_of_run_keyed` — a list that takes its length from the wire has no more
  elements than it takes bytes;
* `Schema.blanks` — a schema with elements that take none.
-/

namespace WireFormat

variable {traversal : Traversal Members} {reader next : Reader} {value : Value}

namespace Stage.Shows

variable {root element : Descriptor} {size : SizePolicy String} {byteOrder : ByteOrder}
  {hasFixedSize : Bool} {minSize : UInt64} {chain : List Enclosure} {read : Int → Prop}
  {stage : Stage}

/-- A list that is read takes the least room of an element for each of its slots. -/
theorem exists_taken_of_run_list (hcoherent : root.Everywhere Descriptor.Coherent)
    (hcodec : root.Everywhere fun inner ↦ inner.isCodec = false)
    (hwhole : root.Everywhere Descriptor.HoldsWhole)
    (h : stage.Shows root ⟨.list element size, byteOrder, hasFixedSize, minSize⟩ chain read)
    (hrun : stage.run = .ok value next) :
    ∃ kept slots items taken, stage.traversal.extent (size.map (.from chain)) = .ok (kept, slots) ∧
      value = .list items ∧ items.length = kept ∧ stage.reader.source = taken ++ next.source ∧
        slots * element.leastSize ≤ taken.length := by
  obtain ⟨hoperation, hinside, hsettled, -, -, hsound⟩ := h
  obtain ⟨operation, traversal, reader⟩ := stage
  obtain rfl := hoperation
  have hread : element.IsRead := Descriptor.isRead ((hinside _ hcoherent).of_element rfl)
    ((hinside _ hcodec).of_element rfl)
  obtain ⟨rooms, hrooms⟩ := Descriptor.exists_leastRooms_eq_align_cons
    ((hinside _ hcoherent).of_element rfl) ((hinside _ hcodec).of_element rfl)
    (Descriptor.endsContainer_of_mem_element? (hinside _ hwhole) hsettled rfl)
  change Operation.decode traversal (.list ..) reader = _ at hrun
  rw [Operation.decode, run_bind_eq_ok_iff] at hrun
  obtain ⟨⟨kept, slots⟩, _, hdata, hrun⟩ := hrun
  obtain ⟨hextent, rfl⟩ := ReadM.run_ofData_eq_ok_iff.1 hdata
  obtain ⟨items, _, hitems, hrun⟩ := run_bind_eq_ok_iff.1 hrun
  obtain ⟨rfl, rfl⟩ := run_pure_eq_ok_iff.1 hrun
  change Operation.decodeItems (Operation.decodeItem traversal (element.operation [])) _ _ _ _ _ =
    _ at hitems
  obtain ⟨found, hvalues, hcount, -⟩ := Operation.exists_found_of_decodeItems
    (fun _ _ _ _ _ ↦ trivial) hitems
  obtain rfl : items = found := hvalues
  obtain ⟨own, hpasses, hleast, -⟩ := Operation.takes_of_decodeItems
    (fun _ _ _ _ ↦ hread.takes_of_decodeItem) hitems
  obtain ⟨taken, htaken, hbytes⟩ := hpasses.taken hsound
  refine ⟨kept, slots, items, taken, hextent, rfl, ?_, htaken, ?_⟩
  · rw [hcount, Nat.sub_zero, Nat.min_eq_right (Traversal.extent_eq_ok hextent).2.1]
  · have hlength := hbytes []
    rw [List.append_nil, occupied_nil, Nat.add_zero] at hlength
    rw [hrooms] at hleast
    calc slots * element.leastSize
        = occupied reader.use (List.replicate slots (.align :: rooms)).flatten := by
          rw [occupied_flatten_replicate, Descriptor.leastSize, hrooms, occupied_align]
      _ ≤ occupied reader.use own := occupied_le_of_sublist hleast reader.use
      _ = taken.length := hlength

end Stage.Shows

namespace Schema

variable {layout : Layout} {schema : Schema} {bytes : List UInt8} {element : Operation}
  {source : LengthSource} {default? : Option Value}

/-- Where a list takes its length from the wire, it has as many elements as the length says, and
they take as many bytes at least, as long as every length in them has bits. -/
theorem exists_taken_of_run_keyed (h : ofLayout layout = .ok schema) (hcodec : ¬ layout.UsesCodec)
    (hvisits : schema.Visits bytes ⟨.list element (.keyed source) default?, traversal, reader⟩)
    (hwide : element.Wide)
    (hrun : Stage.run ⟨.list element (.keyed source) default?, traversal, reader⟩ =
      .ok value next) :
    ∃ length items taken, traversal.sourceLength source = .ok length ∧ value = .list items ∧
      items.length = length ∧ reader.source = taken ++ next.source ∧ length ≤ taken.length := by
  obtain ⟨hdescribe, -⟩ := ofLayout_eq_ok h
  have hcoherent := Layout.describe_coherent hdescribe
  have hfree := Layout.everywhere_isCodec_eq_false hdescribe hcodec
  have hwhole := Layout.everywhere_holdsWhole hdescribe
  obtain ⟨⟨kind, byteOrder, hasFixedSize, minSize⟩, chain, hshows⟩ :=
    exists_shows_of_visits h hcodec hvisits
  have hoperation := hshows.operation
  cases kind with
  | list own size =>
    obtain ⟨rfl, hsize, rfl⟩ := Operation.list.inj hoperation
    obtain ⟨kept, slots, items, taken, hextent, rfl, rfl, htaken, hle⟩ :=
      hshows.exists_taken_of_run_list hcoherent hfree hwhole hrun
    rw [← hsize, Traversal.extent, bind_eq_ok_iff] at hextent
    obtain ⟨length, hlength, hextent⟩ := hextent
    cases hextent
    have hkeyed : size.slots? = none := by
      have hslots := congrArg SizePolicy.slots? hsize
      rw [SizePolicy.slots?_map] at hslots
      exact hslots.symm
    have hpos : 0 < own.leastSize := Descriptor.leastSize_pos_of_keyed
      ((hshows.inside _ hcoherent).of_element rfl) ((hshows.inside _ hfree).of_element rfl)
      ((hshows.inside _ (Layout.everywhere_variesInside hdescribe)).of_element rfl)
      (hshows.inside _ (Layout.everywhere_holdsSome hdescribe)).here hshows.settled hkeyed hwide
    exact ⟨items.length, items, taken, hlength, rfl, rfl, htaken,
      Nat.le_trans (Nat.le_mul_of_pos_right _ hpos) hle⟩
  | _ => cases hoperation

/-- A field of the root is about to be read once those before it have been. -/
theorem visits_of_pass (bytes : List UInt8) {before rest : List FieldPlan} {field : FieldPlan}
    {around : Traversal Members} (split : schema.plan.root.fields = before ++ field :: rest)
    (passed : FieldPlan.pass (({} : Traversal Members).push schema.plan.root.name []) before
      { source := bytes } = .ok around next) :
    schema.Visits bytes ⟨field.operation, around.enter field.name, next⟩ :=
  .single (.field field (.intro split passed))

end Schema

/-- Some items are about to be read, after a byte with their count. -/
def Stage.items (typeName : String) (count : BitVec 8) (source : List UInt8) (element : Operation)
    (default? : Option Value) : Stage where
  operation := .list element (.keyed ⟨"items", 0⟩) default?
  traversal := {
    frames := [⟨typeName, [("count", .integer .u8 count)], [("items", count.toNat)]⟩]
    steps := [.member "items"] }
  reader := { source := source, position := 1 }

/-- The two bytes after their count are about to be read. -/
def Stage.counted : Stage :=
  .items "Counted" 2 [3, 5] (.scalar (.integer .u8) false .native) (some (.zero (.integer .u8)))

/-- Where two bytes are counted, two bytes are taken. -/
theorem Schema.counted_run_keyed : Schema.counted.Visits [2, 3, 5] .counted ∧
    Stage.counted.run =
      .ok (.list [.integer .u8 3, .integer .u8 5]) { source := [], position := 3 } ∧
    ∃ taken : List UInt8, [3, 5] = taken ++ [] ∧ 2 ≤ taken.length := by
  have hsplit : Schema.counted.plan.root.fields = [_] ++ _ :: [] := rfl
  have hvisits := Schema.visits_of_pass [2, 3, 5] hsplit rfl
  refine ⟨hvisits, rfl, ?_⟩
  obtain ⟨length, items, taken, hlength, -, -, htaken, hle⟩ := Schema.exists_taken_of_run_keyed
    Schema.ofLayout_counted Layout.not_usesCodec_counted hvisits (fun _ hinside ↦ nomatch hinside)
    rfl
  cases hlength
  exact ⟨taken, htaken, hle⟩

/-! ## Elements that take no bytes -/

/-- Bytes that are counted by a field without bits, so that there are none. -/
def Layout.blank : Layout where
  name := "Blank"
  fields := [
    { name := "size", order := some 0, shape := .scalar (.integer .u8), bitWidth := some 0
      lengthOf := some "body" },
    { name := "body", order := some 1, shape := .list ⟨.scalar (.integer .u8), none⟩
      tag := some (.list { lengthKey := some "body" }) }]

/-- A count, and as many blanks. -/
def Layout.blanks : Layout where
  name := "Blanks"
  fields := [
    { name := "count", order := some 0, shape := .scalar (.integer .u8), lengthOf := some "items" },
    { name := "items", order := some 1, shape := .list ⟨.record .blank, none⟩
      tag := some (.list { lengthKey := some "items" }) }]

/-- The descriptor of bytes that are counted by a field without bits. -/
def Descriptor.blank : Descriptor where
  kind := .record "Blank" [
    ⟨"size", 0, .ofFixed (.bits .integer .u8 0 1) .little 0, true, some "body", false⟩,
    ⟨"body", 1, ⟨.list (.ofFixed (.scalar (.integer .u8)) .little 1) (.keyed "body"), .little,
      false, 0⟩, true, none, false⟩]
  byteOrder := .little
  hasFixedSize := false
  minSize := 0

/-- The descriptor of a count, and as many blanks. -/
def Descriptor.blanks : Descriptor where
  kind := .record "Blanks" [
    ⟨"count", 0, .ofFixed (.scalar (.integer .u8)) .little 1, true, some "items", false⟩,
    ⟨"items", 1, ⟨.list .blank (.keyed "items"), .little, false, 0⟩, true, none, false⟩]
  byteOrder := .little
  hasFixedSize := false
  minSize := 1

theorem Layout.describe_blanks : Layout.blanks.describe = .ok Descriptor.blanks := by cbv

theorem Layout.not_usesCodec_blanks : ¬ blanks.UsesCodec := by decide

/-- The operation of bytes that are counted by a field without bits. -/
def Operation.blank : Operation :=
  .record {
    name := "Blank"
    fields := [
      ⟨"size", .bits .u8 0 1 false .native, some "body", some ⟨["body"], .elements⟩, false⟩,
      ⟨"body", .list (.scalar (.integer .u8) false .native) (.keyed ⟨"body", 0⟩)
        (some (.zero (.integer .u8))), none, none, false⟩]
    skipped := [] }

/-- A blank, which is all there is. -/
def Value.blank : Value := .record [("body", .list []), ("size", .integer .u8 0)]

/-- The schema of a count, and as many blanks. -/
def Schema.blanks : Schema where
  name := "Blanks"
  descriptor := .blanks
  plan := {
    root := {
      name := "Blanks"
      fields := [
        ⟨"count", .scalar (.integer .u8) false .native, some "items", some ⟨["items"], .elements⟩,
          false⟩,
        ⟨"items", .list .blank (.keyed ⟨"items", 0⟩) (some .blank), none, none, false⟩]
      skipped := [] }
    hasFixedSize := false
    minSize := 1 }

theorem Schema.ofLayout_blanks : ofLayout .blanks = .ok .blanks := by
  rw [ofLayout, Layout.describe_blanks]
  rfl

/-- Two blanks are about to be read, where nothing is left after their count. -/
def Stage.blanks : Stage := .items "Blanks" 2 [] .blank (some .blank)

/-- Two blanks are read from a count alone, although no bytes are left. -/
theorem Schema.blanks_run_keyed :
    ofLayout .blanks = .ok .blanks ∧ ¬ Layout.blanks.UsesCodec ∧
    Schema.blanks.Visits [2] .blanks ∧
    Stage.blanks.traversal.sourceLength ⟨"items", 0⟩ = .ok 2 ∧
    Stage.blanks.run = .ok (.list [.blank, .blank]) { source := [], position := 1 } ∧
    Schema.blanks.deserialize [2] =
      (.ok (.record [("count", .integer .u8 2), ("items", .list [.blank, .blank])]), []) :=
  have hsplit : Schema.blanks.plan.root.fields = [_] ++ _ :: [] := rfl
  have hvisits := Schema.visits_of_pass [2] hsplit rfl
  ⟨ofLayout_blanks, Layout.not_usesCodec_blanks, hvisits, rfl, rfl, rfl⟩

end WireFormat
