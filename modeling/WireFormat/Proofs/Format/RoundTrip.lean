import WireFormat.Proofs.Format.Decode
import WireFormat.Schema.Basic

/-!
# Round trip

Everything that a schema writes it reads back, whatever follows.  Writing and reading are joined by
the moves of the value: `Descriptor.isWritten` says that these are what has been written, and
`Descriptor.readsBack` that they are what is read.

* `Schema.deserialize_serialize` — what comes back is the normalized value, and nothing more is
  read.
-/

namespace WireFormat

namespace Schema

variable {layout : Layout} {schema : Schema} {value : Value} {sink sink' : Sink} {count : Nat}

theorem ofLayout_eq_ok (h : ofLayout layout = .ok schema) :
    layout.describe = .ok schema.descriptor ∧
      Plan.ofDescriptor schema.descriptor = .ok schema.plan := by
  rw [ofLayout, bind_eq_ok_iff] at h
  obtain ⟨descriptor, hdescribe, h⟩ := h
  rw [bind_eq_ok_iff] at h
  obtain ⟨plan, hplan, h⟩ := h
  cases h
  exact ⟨hdescribe, hplan⟩

/-- A value is written by the operation of the root, and then the container ends. -/
theorem exists_encode_of_serialize
    (hroot : schema.descriptor.operation [] = .record schema.plan.root)
    (h : schema.serialize value sink = (.ok count, sink')) :
    ∃ next last, (schema.descriptor.operation []).encode {} value { sink := sink } = .ok () next ∧
      Writer.finish next = .ok count last ∧ last.sink = sink' := by
  obtain ⟨members, rfl⟩ : ∃ members, value = .record members := by
    cases value with
    | record members => exact ⟨members, rfl⟩
    | _ => cases h
  have hmembers : rootMembers (.record members) = .ok members := rfl
  rw [serialize, hmembers] at h
  dsimp only at h
  cases hwrite : schema.write members { sink := sink } with
  | error error writer =>
    rw [hwrite] at h
    cases h
  | ok count' writer =>
    rw [hwrite] at h
    cases h
    rw [write, run_bind_eq_ok_iff] at hwrite
    obtain ⟨_, next, hencode, hfinish⟩ := hwrite
    rw [hroot, Operation.encode]
    exact ⟨next, writer, hencode, hfinish, rfl⟩

/-- What has been written are the bytes that the moves of the value come to. -/
theorem exists_emits_of_serialize (hwritten : schema.descriptor.IsWritten)
    (hroot : schema.descriptor.operation [] = .record schema.plan.root)
    (h : schema.serialize value sink = (.ok count, sink')) :
    ∃ moves word bytes, schema.descriptor.Writes value moves ∧
      Emits none (moves ++ [.bytes []]) word bytes ∧
      sink'.bytes.toList = sink.bytes.toList ++ bytes ∧ count = bytes.length := by
  obtain ⟨next, last, hencode, hfinish, rfl⟩ := exists_encode_of_serialize hroot h
  obtain ⟨moves, hmoves, halong⟩ := hwritten _ _ _ _ _ hencode
  obtain ⟨word, bytes, hemits, hbytes, hcount⟩ := Writer.exists_emits_of_finish halong hfinish
  exact ⟨moves, word, bytes, hmoves, hemits, hbytes, hcount⟩

/-- A value is read by the operation of the root. -/
theorem exists_decode_of_deserialize {bytes rest : List UInt8}
    (hroot : schema.descriptor.operation [] = .record schema.plan.root)
    (h : schema.deserialize bytes = (.ok value, rest)) :
    ∃ reader, (schema.descriptor.operation []).decode {} { source := bytes } = .ok value reader ∧
      reader.source = rest := by
  rw [deserialize] at h
  split at h
  · next members reader hdecode =>
    cases h
    rw [hroot, Operation.decode]
    exact ⟨reader, run_bind_eq_ok_iff.2 ⟨members, reader, hdecode, rfl⟩, rfl⟩
  · cases h

/-- What is read from some moves is read from the bytes that they come to. -/
theorem deserialize_of_reads {read : Value}
    (hroot : schema.descriptor.operation [] = .record schema.plan.root) {moves : List Move}
    (hreads : Reader.Reads ((schema.descriptor.operation []).decode {}) moves read) {word : Nat}
    {bytes : List UInt8} (hemits : Emits none (moves ++ [.bytes []]) word bytes)
    (rest : List UInt8) : schema.deserialize (bytes ++ rest) = (.ok read, rest) := by
  obtain ⟨next, hdecode, hnext⟩ := hreads [.bytes []] rest { source := bytes ++ rest }
    ⟨none, word, bytes, hemits, nofun, rfl, rfl⟩
  rw [hroot, Operation.decode, run_bind_eq_ok_iff] at hdecode
  obtain ⟨members, last, hmembers, hresult⟩ := hdecode
  obtain ⟨rfl, rfl⟩ := run_pure_eq_ok_iff.1 hresult
  rw [deserialize, hmembers]
  dsimp only
  rw [hnext.source_eq, List.nil_append]

/-- The bytes that the moves of a value come to are read back. -/
theorem deserialize_of_emits (hread : schema.descriptor.ReadsBack)
    (hroot : schema.descriptor.operation [] = .record schema.plan.root)
    (hlent : schema.descriptor.Lent []) (hnul : schema.descriptor.NulFree value)
    {moves : List Move} (hwrites : schema.descriptor.Writes value moves) {word : Nat}
    {bytes : List UInt8} (hemits : Emits none (moves ++ [.bytes []]) word bytes)
    (rest : List UInt8) :
    schema.deserialize (bytes ++ rest) = (.ok (schema.descriptor.normalize value), rest) :=
  deserialize_of_reads hroot
    (hread [] {} value moves hlent (schema.descriptor.provided_nil _ _) hnul hwrites) hemits rest

/-- What is written is read back, whatever follows: the normalized value, and nothing more. -/
theorem deserialize_serialize (h : ofLayout layout = .ok schema) (hcodec : ¬ layout.UsesCodec)
    (hnul : schema.descriptor.NulFree value)
    (hserialize : schema.serialize value sink = (.ok count, sink')) :
    ∃ bytes, sink'.bytes.toList = sink.bytes.toList ++ bytes ∧ count = bytes.length ∧
      ∀ rest, schema.deserialize (bytes ++ rest) =
        (.ok (schema.descriptor.normalize value), rest) := by
  obtain ⟨hdescribe, hplan⟩ := ofLayout_eq_ok h
  obtain ⟨⟨hsettled, hlent⟩, hroot, -, -⟩ := Plan.ofDescriptor_eq_ok_iff.1 hplan
  have hcoherent := Layout.describe_coherent hdescribe
  have hfree := Layout.everywhere_isCodec_eq_false hdescribe hcodec
  obtain ⟨moves, word, bytes, hwrites, hemits, hbytes, hcount⟩ :=
    exists_emits_of_serialize (Descriptor.isWritten hcoherent hfree hsettled) hroot hserialize
  refine ⟨bytes, hbytes, hcount, fun rest ↦ ?_⟩
  exact deserialize_of_emits (Descriptor.readsBack hcoherent hsettled) hroot
    (Descriptor.lent_nil hlent) hnul hwrites hemits rest

/-- The schema of a count and the bytes that it counts. -/
def counted : Schema where
  name := "Counted"
  descriptor := .counted
  plan := {
    root := {
      name := "Counted"
      fields := [
        ⟨"count", .scalar (.integer .u8) false .native, some "items", some ⟨["items"], .elements⟩,
          false⟩,
        ⟨"items", .list (.scalar (.integer .u8) false .native) (.keyed ⟨"items", 0⟩)
          (some (.zero (.integer .u8))), none, none, false⟩]
      skipped := [] }
    hasFixedSize := false
    minSize := 1 }

theorem ofLayout_counted : ofLayout .counted = .ok .counted := by
  rw [ofLayout, Layout.describe_counted]
  rfl

end Schema

theorem Layout.not_usesCodec_counted : ¬ counted.UsesCodec := by decide

/-- A count, be it right or not, and two bytes. -/
def Value.counted (count : BitVec 8) : Value :=
  .record [("count", .integer .u8 count), ("items", .list [.integer .u8 3, .integer .u8 5])]

theorem Descriptor.nulFree_counted (count : BitVec 8) :
    Descriptor.counted.NulFree (.counted count) := by
  refine ⟨nofun, ?_, trivial⟩
  rintro - - _ ⟨⟩ item _
  trivial

/-- Whatever the count was, it is read back as the number of bytes. -/
theorem Schema.counted_deserialize :
    Schema.counted.serialize (.counted 9) {} = (.ok 3, ⟨#[2, 3, 5], none⟩) ∧
      Schema.counted.deserialize ([2, 3, 5] ++ [7]) = (.ok (.counted 2), [7]) := by
  have hserialize : Schema.counted.serialize (.counted 9) {} =
      (.ok 3, ⟨#[2, 3, 5], none⟩) := rfl
  refine ⟨hserialize, ?_⟩
  obtain ⟨bytes, hbytes, -, hrest⟩ := Schema.deserialize_serialize Schema.ofLayout_counted
    Layout.not_usesCodec_counted (Descriptor.nulFree_counted 9) hserialize
  obtain rfl : [2, 3, 5] = bytes := hbytes
  exact hrest [7]

end WireFormat
