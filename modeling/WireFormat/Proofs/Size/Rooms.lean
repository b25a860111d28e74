import WireFormat.Proofs.Stream.Moves

/-!
# The room that moves take

How many bytes some moves come to depends on the widths of the bits and the number of the bytes, and
on what is pending before them.  `occupied` counts the bytes in these terms.

* `occupied_le_of_sublist` — fewer moves never take more bytes;
* `occupied_append_align` — what comes after the end of a container is counted by itself;
* `Emits.length_eq` — the bytes that some moves come to are as many as are counted.
-/

namespace WireFormat

/-- What a move takes. -/
inductive Room where
  /-- Some bits of a container of `container` bytes. -/
  | bits (container width : Nat)
  /-- The end of a container. -/
  | align
  /-- A byte outside of containers. -/
  | byte
deriving DecidableEq, Repr

/-- The room of some bytes. -/
def Room.bytes (count : Nat) : List Room := align :: List.replicate count byte

theorem Room.bytes_sublist {count more : Nat} (h : count ≤ more) :
    (Room.bytes count).Sublist (Room.bytes more) :=
  ((List.replicate_sublist_replicate _).2 h).cons_cons align

/-- The room that a move takes. -/
def Move.rooms : Move → List Room
  | .bits _ container width _ => [.bits container width]
  | .bytes own => Room.bytes own.length

/-- The number of bytes that some rooms take, after a container of some width with some bits taken
may be pending.  Bits go into the pending container if they fit there. -/
def occupied : Option (Nat × Nat) → List Room → Nat
  | _, [] => 0
  | _, .align :: rooms => occupied none rooms
  | _, .byte :: rooms => 1 + occupied none rooms
  | none, .bits container width :: rooms =>
    container + occupied (some (container, width)) rooms
  | some (own, used), .bits container width :: rooms =>
    if own = container ∧ used + width ≤ 8 * own then
      occupied (some (own, used + width)) rooms
    else
      container + occupied (some (container, width)) rooms

variable {pending : Option (Nat × Nat)} {rooms more : List Room} {own used container width : Nat}

/-! ## Equations -/

@[simp] theorem occupied_nil : occupied pending [] = 0 := by
  cases pending <;> rfl

@[simp] theorem occupied_align : occupied pending (.align :: rooms) = occupied none rooms := by
  cases pending <;> rfl

@[simp] theorem occupied_byte : occupied pending (.byte :: rooms) = 1 + occupied none rooms := by
  cases pending <;> rfl

theorem occupied_bits_of_fits (h : own = container ∧ used + width ≤ 8 * own) :
    occupied (some (own, used)) (.bits container width :: rooms) =
      occupied (some (own, used + width)) rooms := by
  rw [occupied, if_pos h]

theorem occupied_bits_of_full (h : ¬ (own = container ∧ used + width ≤ 8 * own)) :
    occupied (some (own, used)) (.bits container width :: rooms) =
      container + occupied (some (container, width)) rooms := by
  rw [occupied, if_neg h]

theorem occupied_bits_of_not_fits
    (h : ∀ own used, pending = some (own, used) → ¬ (own = container ∧ used + width ≤ 8 * own)) :
    occupied pending (.bits container width :: rooms) =
      container + occupied (some (container, width)) rooms := by
  cases pending with
  | none => rfl
  | some active =>
    obtain ⟨own, used⟩ := active
    exact occupied_bits_of_full (h own used rfl)

@[simp] theorem occupied_replicate_byte (count : Nat) :
    occupied none (List.replicate count .byte ++ rooms) = count + occupied none rooms := by
  induction count with
  | zero => simp
  | succ count ih =>
    rw [List.replicate_succ, List.cons_append, occupied_byte, ih]
    omega

@[simp] theorem occupied_bytes (count : Nat) :
    occupied pending (Room.bytes count ++ rooms) = count + occupied none rooms := by
  rw [Room.bytes, List.cons_append, occupied_align, occupied_replicate_byte]

/-! ## Comparing pending containers -/

/-- Bits either fit what is pending, or start a container. -/
theorem fits_or (pending : Option (Nat × Nat)) (container width : Nat) :
    (∃ own used, pending = some (own, used) ∧ own = container ∧ used + width ≤ 8 * own) ∨
      ∀ own used, pending = some (own, used) → ¬ (own = container ∧ used + width ≤ 8 * own) := by
  by_cases h : ∃ own used, pending = some (own, used) ∧ own = container ∧ used + width ≤ 8 * own
  · exact .inl h
  · exact .inr fun own used hpending hfits ↦ h ⟨own, used, hpending, hfits⟩

/-- With fewer bits taken, no more bytes follow; and a pending container saves no more than its
width.  Each needs the other for what comes after the first bits. -/
theorem occupied_le_of_used_le_and (rooms : List Room) :
    (∀ own used used', used ≤ used' →
      occupied (some (own, used)) rooms ≤ occupied (some (own, used')) rooms) ∧
    ∀ pending own used, occupied pending rooms ≤ own + occupied (some (own, used)) rooms := by
  induction rooms with
  | nil => simp
  | cons room rooms ih =>
    obtain ⟨hused, hsaves⟩ := ih
    cases room with
    | align => simp
    | byte => simp
    | bits container width =>
      constructor
      · intro own used used' hle
        by_cases hfits : own = container ∧ used' + width ≤ 8 * own
        · rw [occupied_bits_of_fits hfits, occupied_bits_of_fits ⟨hfits.1, by omega⟩]
          exact hused _ _ _ (by omega)
        · rw [occupied_bits_of_full hfits, occupied]
          split
          · exact hsaves _ _ _
          · exact Nat.le_refl _
      · intro pending own used
        by_cases hfits : own = container ∧ used + width ≤ 8 * own
        · rw [occupied_bits_of_fits hfits]
          rcases fits_or pending container width with ⟨own', used', rfl, hown', hle'⟩ | hnot
          · rw [occupied_bits_of_fits ⟨hown', hle'⟩]
            exact hsaves _ _ _
          · rw [occupied_bits_of_not_fits hnot, ← hfits.1]
            exact Nat.add_le_add_left (hused _ _ _ (by omega)) own
        · rw [occupied_bits_of_full hfits]
          rcases fits_or pending container width with ⟨own', used', rfl, hown', hle'⟩ | hnot
          · rw [occupied_bits_of_fits ⟨hown', hle'⟩]
            exact Nat.le_trans (hsaves _ _ _) (Nat.le_add_left ..)
          · rw [occupied_bits_of_not_fits hnot]
            exact Nat.le_add_left ..

/-- With fewer bits taken, no more bytes follow. -/
theorem occupied_le_of_used_le {used' : Nat} (h : used ≤ used') :
    occupied (some (own, used)) rooms ≤ occupied (some (own, used')) rooms :=
  (occupied_le_of_used_le_and rooms).1 own used used' h

/-- A pending container saves no more than its width. -/
theorem occupied_le_add_occupied_some (pending : Option (Nat × Nat)) (own used : Nat)
    (rooms : List Room) : occupied pending rooms ≤ own + occupied (some (own, used)) rooms :=
  (occupied_le_of_used_le_and rooms).2 pending own used

/-- A pending container costs nothing. -/
theorem occupied_le_occupied_none (pending : Option (Nat × Nat)) (rooms : List Room) :
    occupied pending rooms ≤ occupied none rooms := by
  cases rooms with
  | nil => simp
  | cons room rooms =>
    cases room with
    | align => simp
    | byte => simp
    | bits container width =>
      change _ ≤ container + occupied (some (container, width)) rooms
      rcases fits_or pending container width with ⟨own, used, rfl, hfits⟩ | hnot
      · rw [occupied_bits_of_fits hfits]
        exact occupied_le_add_occupied_some ..
      · rw [occupied_bits_of_not_fits hnot]

/-! ## Comparing rooms -/

theorem occupied_le_cons (pending : Option (Nat × Nat)) (room : Room) (rooms : List Room) :
    occupied pending rooms ≤ occupied pending (room :: rooms) := by
  cases room with
  | align =>
    rw [occupied_align]
    exact occupied_le_occupied_none ..
  | byte =>
    rw [occupied_byte]
    exact Nat.le_trans (occupied_le_occupied_none ..) (Nat.le_add_left ..)
  | bits container width =>
    rcases fits_or pending container width with ⟨own, used, rfl, hfits⟩ | hnot
    · rw [occupied_bits_of_fits hfits]
      exact occupied_le_of_used_le (Nat.le_add_right ..)
    · rw [occupied_bits_of_not_fits hnot]
      exact occupied_le_add_occupied_some ..

theorem occupied_cons_le_cons (room : Room)
    (h : ∀ pending, occupied pending rooms ≤ occupied pending more)
    (pending : Option (Nat × Nat)) :
    occupied pending (room :: rooms) ≤ occupied pending (room :: more) := by
  cases room with
  | align =>
    rw [occupied_align, occupied_align]
    exact h none
  | byte =>
    rw [occupied_byte, occupied_byte]
    exact Nat.add_le_add_left (h none) 1
  | bits container width =>
    rcases fits_or pending container width with ⟨own, used, rfl, hfits⟩ | hnot
    · rw [occupied_bits_of_fits hfits, occupied_bits_of_fits hfits]
      exact h _
    · rw [occupied_bits_of_not_fits hnot, occupied_bits_of_not_fits hnot]
      exact Nat.add_le_add_left (h _) container

/-- Fewer moves never take more bytes. -/
theorem occupied_le_of_sublist (h : rooms.Sublist more) :
    ∀ pending, occupied pending rooms ≤ occupied pending more := by
  induction h with
  | slnil => exact fun _ ↦ Nat.le_refl _
  | cons room _ ih => exact fun pending ↦ Nat.le_trans (ih pending) (occupied_le_cons ..)
  | cons_cons room _ ih => exact occupied_cons_le_cons room ih

/-! ## Rooms that follow each other -/

/-- What comes after the end of a container is counted by itself. -/
theorem occupied_append_align (pending : Option (Nat × Nat)) (rooms more : List Room) :
    occupied pending (rooms ++ .align :: more) = occupied pending rooms + occupied none more := by
  induction rooms generalizing pending with
  | nil => simp
  | cons room rooms ih =>
    cases room with
    | align => simp [ih]
    | byte => simp [ih, Nat.add_assoc]
    | bits container width =>
      rw [List.cons_append]
      rcases fits_or pending container width with ⟨own, used, rfl, hfits⟩ | hnot
      · rw [occupied_bits_of_fits hfits, occupied_bits_of_fits hfits, ih]
      · rw [occupied_bits_of_not_fits hnot, occupied_bits_of_not_fits hnot, ih, Nat.add_assoc]

/-- What begins with the end of a container takes its bytes as often as it is repeated. -/
theorem occupied_flatten_replicate (pending : Option (Nat × Nat)) (rooms : List Room)
    (count : Nat) : occupied pending (List.replicate count (.align :: rooms)).flatten =
      count * occupied none rooms := by
  induction count with
  | zero => simp
  | succ count ih =>
    rw [List.replicate_succ', List.flatten_append, List.flatten_singleton, occupied_append_align,
      ih, Nat.succ_mul]

/-! ## What moves come to -/

/-- The width of a container that may be pending, and the number of bits taken. -/
def pendingUse (pending : Option Container) : Option (Nat × Nat) :=
  pending.map fun container ↦ (container.width, container.bits)

/-- The bytes that some moves come to are as many as are counted. -/
theorem Emits.length_eq {pending : Option Container} {moves : List Move} {word : Nat}
    {bytes : List UInt8} (h : Emits pending moves word bytes) :
    bytes.length = occupied (pendingUse pending) (moves.flatMap Move.rooms) := by
  induction h with
  | done => simp
  | add check value_lt room same rest ih =>
    rw [ih, List.flatMap_cons, Move.rooms, List.singleton_append]
    exact (occupied_bits_of_fits (Container.hasRoom_iff.1 room)).symm
  | @start pending value container width swap moves word bytes check value_lt full rest ih =>
    rw [List.length_append, length_wireBytes, ih, List.flatMap_cons, Move.rooms,
      List.singleton_append, occupied_bits_of_not_fits]
    · rfl
    · intro own used hpending hfits
      obtain ⟨active, rfl, hactive⟩ := Option.map_eq_some_iff.1 hpending
      obtain ⟨rfl, rfl⟩ := Prod.mk.inj hactive
      have hroom := Container.hasRoom_iff.2 hfits
      rw [full active rfl] at hroom
      cases hroom
  | bytes rest ih =>
    rw [List.length_append, ih, List.flatMap_cons, Move.rooms, occupied_bytes]
    rfl

end WireFormat
