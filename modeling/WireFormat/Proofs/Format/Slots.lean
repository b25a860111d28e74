import WireFormat.Plan.Encode
import WireFormat.Proofs.Format.Writes
import WireFormat.Proofs.Outcome

/-!
# Writing the items of a list

A list is written item by item, first its own items and then a default for each free slot.  Which
ones these are only depends on the policy: `SizePolicy.filled?` has them all.

* `SizePolicy.filled?_eq_some_iff` — when a list with slots can be filled;
* `Operation.encode_list` — a list is written as all items that fill it;
* `Operation.exists_filled?_of_encode_list` — and only if there are such items.
-/

namespace WireFormat

variable {writer next : Writer}

/-! ## Steps of a writer -/

@[simp] theorem WriteM.run_ofData_eq_ok_iff {α : Type} {x : Except DataError α} {a : α} :
    WriteM.ofData x writer = .ok a next ↔ x = .ok a ∧ writer = next := by
  cases x with
  | error error => simp [WriteM.ofData]
  | ok b => simp [WriteM.ofData]

@[simp] theorem WriteM.run_locate_eq_ok_iff {α : Type} {path : Path} {action : WriteM α} {a : α} :
    WriteM.locate path action writer = .ok a next ↔ action writer = .ok a next :=
  run_adaptExcept_eq_ok_iff

/-! ## Slots -/

namespace SizePolicy

variable {κ ι : Type} {policy : SizePolicy κ} {f : κ → ι}

@[simp] theorem slots?_map : (policy.map f).slots? = policy.slots? := by
  cases policy <;> rfl

theorem filled?_map (default? : Option Value) (items : List Value) :
    (policy.map f).filled? default? items = policy.filled? default? items := by
  rw [filled?, filled?, slots?_map]

/-- A list is filled by its items and a default for each free slot after them. -/
theorem filled?_eq_map_freeSlots? (policy : SizePolicy LengthSource) (default? : Option Value)
    (items : List Value) : policy.filled? default? items =
      (Operation.freeSlots? policy default? items.length).toOption.map fun free ↦
        items ++ (free.map fun slots ↦ List.replicate slots.1 slots.2).getD [] := by
  unfold filled? Operation.freeSlots?
  cases policy.slots? with
  | none =>
    change some items = some (items ++ [])
    rw [List.append_nil]
  | some slots =>
    dsimp only
    split
    · rfl
    · split
      · change some items = some (items ++ [])
        rw [List.append_nil]
      · cases default? <;> rfl

/-- The items and the free slots after them fill a list. -/
theorem filled?_of_freeSlots? {policy : SizePolicy LengthSource} {default? : Option Value}
    {items : List Value} {free : Option (Nat × Value)}
    (h : Operation.freeSlots? policy default? items.length = .ok free) :
    policy.filled? default? items =
      some (items ++ (free.map fun slots ↦ List.replicate slots.1 slots.2).getD []) := by
  rw [filled?_eq_map_freeSlots?, h]
  rfl

/-- If there are items that fill a list, there is something to put into its free slots. -/
theorem exists_freeSlots?_of_filled? {policy : SizePolicy LengthSource} {default? : Option Value}
    {items filled : List Value} (h : policy.filled? default? items = some filled) :
    ∃ free, Operation.freeSlots? policy default? items.length = .ok free ∧
      filled = items ++ (free.map fun slots ↦ List.replicate slots.1 slots.2).getD [] := by
  rw [filled?_eq_map_freeSlots?] at h
  cases hfree : Operation.freeSlots? policy default? items.length with
  | error fault =>
    rw [hfree] at h
    cases h
  | ok free =>
    rw [hfree] at h
    cases h
    exact ⟨free, rfl, rfl⟩

end SizePolicy

/-- A list with slots is filled if there are not too many items, and something to put into the free
slots after them. -/
theorem SizePolicy.filled?_eq_some_iff {κ : Type} {policy : SizePolicy κ} {default? : Option Value}
    {items filled : List Value} {slots : Nat} (hslots : policy.slots? = some slots) :
    policy.filled? default? items = some filled ↔ items.length ≤ slots ∧
      (items.length < slots → default?.isSome) ∧
      filled = items ++ (default?.map (List.replicate (slots - items.length))).getD [] := by
  rw [filled?, hslots]
  dsimp only
  split
  · next hlt => simp [Nat.not_le.2 hlt]
  · next hle =>
    split
    · next heq =>
      subst heq
      cases default? <;> simp [eq_comm]
    · next hne =>
      have hlt : items.length < slots := by omega
      cases default? <;> simp [hlt, Nat.le_of_lt hlt, eq_comm]

/-! ## Items -/

namespace Operation

variable {action : Nat → Value → WriteM Unit} {element : Operation}
  {policy : SizePolicy LengthSource} {default? : Option Value} {traversal : Traversal Members}
  {value : Value} {items filled : List Value} {writer next : Writer}

theorem forItems_append (position : Nat) (items more : List Value) :
    forItems action position (items ++ more) = (do
      forItems action position items
      forItems action (position + items.length) more) := by
  induction items generalizing position with
  | nil => simp [forItems]
  | cons item items ih => simp [forItems, ih, Nat.add_assoc, Nat.add_comm 1]

/-- How an item of a list is written at its position. -/
def encodeItem (traversal : Traversal Members) (element : Operation) (position : Nat)
    (item : Value) : WriteM Unit :=
  WriteM.locate (traversal.enterIndex position).path
    (element.encode (traversal.enterIndex position) item)

/-- A list is written as all items that fill it. -/
theorem encode_list (h : policy.filled? default? items = some filled) :
    Operation.encode traversal (.list items) (.list element policy default?) =
      forItems (encodeItem traversal element) 0 filled := by
  obtain ⟨free, hfree, rfl⟩ := SizePolicy.exists_freeSlots?_of_filled? h
  rw [Operation.encode, forItems_append, Nat.zero_add]
  simp only [pure_bind, hfree, WriteM.ofData]
  cases free with
  | none =>
    simp [forItems]
    rfl
  | some slots =>
    rw [Option.map_some, Option.getD_some, ← forCopies_eq]
    rfl

/-- A value is only written as a list if there are items that fill it. -/
theorem exists_filled?_of_encode_list
    (h : Operation.encode traversal value (.list element policy default?) writer = .ok () next) :
    ∃ items filled, value = .list items ∧ policy.filled? default? items = some filled ∧
      forItems (encodeItem traversal element) 0 filled writer = .ok () next := by
  obtain ⟨items, rfl⟩ : ∃ items, value = .list items := by
    cases value with
    | list items => exact ⟨items, rfl⟩
    | _ => cases h
  have hencode := h
  rw [Operation.encode] at h
  obtain ⟨_, _, hitems, h⟩ := run_bind_eq_ok_iff.1 h
  obtain ⟨rfl, rfl⟩ := run_pure_eq_ok_iff.1 hitems
  obtain ⟨free, _, hdata, -⟩ := run_bind_eq_ok_iff.1 h
  have hfilled := SizePolicy.filled?_of_freeSlots? (WriteM.run_ofData_eq_ok_iff.1 hdata).1
  rw [encode_list hfilled] at hencode
  exact ⟨_, _, rfl, hfilled, hencode⟩

end Operation

end WireFormat
