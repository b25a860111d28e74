import WireFormat.Container.Packer
import WireFormat.Proofs.Value.Word

/-!
# Moves

What is written and what is read are the same moves: bits that go into a container, and bytes that
end the container before them.  `Emits` says which bytes some moves come to.  A container goes out
as a whole when it is full or when bytes follow, so its number is only known from the moves that
come later.

* `Emits` — the number of the pending container and the bytes after it;
* `Emits.word_mod`, `Emits.word_lt` — the number holds the bits that are there already, and fits.
-/

namespace WireFormat

/-- One thing that is done to a stream. -/
inductive Move where
  /-- The lowest `width` bits of a container of `container` bytes that are still free become those
  of a number. -/
  | bits (value container width : Nat) (swap : Bool)
  /-- The container ends, and some bytes follow. -/
  | bytes (bytes : List UInt8)
deriving DecidableEq, Repr

/-! ## Containers -/

namespace Container

/-- The bits that are there make up the number, and they fit the container. -/
structure Valid (container : Container) : Prop where
  bits_le : container.bits ≤ 8 * container.width
  word_lt : container.word < 2 ^ container.bits

variable {container : Container} {value width bits : Nat} {swap : Bool}

theorem check_eq_ok_iff :
    check width bits = .ok () ↔ 1 ≤ width ∧ width ≤ 8 ∧ bits ≤ 8 * width := by
  rw [check]
  split
  · constructor
    · nofun
    · omega
  · split
    · constructor
      · nofun
      · omega
    · constructor
      · intro _
        omega
      · exact fun _ ↦ rfl

theorem hasRoom_iff : container.hasRoom width bits = true ↔
    container.width = width ∧ container.bits + bits ≤ 8 * container.width := by
  rw [hasRoom, capacity, Bool.and_eq_true, beq_iff_eq, decide_eq_true_eq]

theorem holds_iff : container.holds width bits = true ↔
    container.width = width ∧ bits ≤ container.bits := by
  rw [holds, Bool.and_eq_true, beq_iff_eq, decide_eq_true_eq]

theorem valid_start (hcheck : check width bits = .ok ()) (hvalue : value < 2 ^ bits) :
    (start value width bits swap).Valid :=
  ⟨(check_eq_ok_iff.1 hcheck).2.2, hvalue⟩

theorem Valid.add (h : container.Valid) (hroom : container.hasRoom width bits = true)
    (hvalue : value < 2 ^ bits) : (container.add value bits).Valid := by
  refine ⟨(hasRoom_iff.1 hroom).2, ?_⟩
  have hword := h.word_lt
  change container.word + value * 2 ^ container.bits < 2 ^ (container.bits + bits)
  calc container.word + value * 2 ^ container.bits
      < 2 ^ container.bits + value * 2 ^ container.bits := Nat.add_lt_add_right hword _
    _ = (value + 1) * 2 ^ container.bits := by rw [Nat.succ_mul, Nat.add_comm]
    _ ≤ 2 ^ bits * 2 ^ container.bits := Nat.mul_le_mul_right _ hvalue
    _ = 2 ^ (container.bits + bits) := by rw [← Nat.pow_add, Nat.add_comm]

theorem Valid.word_lt_pow (h : container.Valid) : container.word < 256 ^ container.width := by
  refine Nat.lt_of_lt_of_le h.word_lt ?_
  rw [show (256 : Nat) = 2 ^ 8 from rfl, ← Nat.pow_mul]
  exact Nat.pow_le_pow_right (by decide) h.bits_le

end Container

/-! ## What moves come to -/

/-- The number of a container that may be pending. -/
def pendingWord (pending : Option Container) : Nat := (pending.map Container.word).getD 0

/-- The bytes of a container that may be pending, when it goes out with a number. -/
def pendingBytes (pending : Option Container) (word : Nat) : List UInt8 :=
  (pending.map fun container ↦ wireBytes container.width word container.swap).getD []

/-- With a container pending, some moves make it go out with the number `word`, and then come
`bytes`. -/
inductive Emits : Option Container → List Move → Nat → List UInt8 → Prop where
  | done (pending : Option Container) : Emits pending [] (pendingWord pending) []
  | add {active : Container} {value container width : Nat} {swap : Bool} {moves : List Move}
      {word : Nat} {bytes : List UInt8} (check : Container.check container width = .ok ())
      (value_lt : value < 2 ^ width) (room : active.hasRoom container width = true)
      (same : active.swap = swap) (rest : Emits (some (active.add value width)) moves word bytes) :
      Emits (some active) (.bits value container width swap :: moves) word bytes
  | start {pending : Option Container} {value container width : Nat} {swap : Bool}
      {moves : List Move} {word : Nat} {bytes : List UInt8}
      (check : Container.check container width = .ok ()) (value_lt : value < 2 ^ width)
      (full : ∀ active ∈ pending, active.hasRoom container width = false)
      (rest : Emits (some (.start value container width swap)) moves word bytes) :
      Emits pending (.bits value container width swap :: moves) (pendingWord pending)
        (wireBytes container word swap ++ bytes)
  | bytes {pending : Option Container} {own : List UInt8} {moves : List Move} {word : Nat}
      {bytes : List UInt8} (rest : Emits none moves word bytes) :
      Emits pending (.bytes own :: moves) (pendingWord pending) (own ++ bytes)

namespace Emits

variable {pending : Option Container} {active : Container} {moves : List Move} {word : Nat}
  {bytes : List UInt8}

private theorem word_aux (h : Emits pending moves word bytes) :
    ∀ active ∈ pending, active.Valid →
      word % 2 ^ active.bits = active.word ∧ word < 256 ^ active.width := by
  have hlast : ∀ {pending : Option Container}, ∀ active ∈ pending, active.Valid →
      pendingWord pending % 2 ^ active.bits = active.word ∧
        pendingWord pending < 256 ^ active.width := by
    rintro _ active ⟨⟩ hvalid
    exact ⟨Nat.mod_eq_of_lt hvalid.word_lt, hvalid.word_lt_pow⟩
  induction h with
  | done | start | bytes => exact hlast
  | @add active value container width swap moves word bytes check value_lt room same rest ih =>
    rintro _ ⟨⟩ hvalid
    obtain ⟨hmod, hlt⟩ := ih _ rfl (hvalid.add room value_lt)
    refine ⟨?_, hlt⟩
    change word % 2 ^ (active.bits + width) = active.word + value * 2 ^ active.bits at hmod
    have hdvd : 2 ^ active.bits ∣ 2 ^ (active.bits + width) :=
      Nat.pow_dvd_pow 2 (Nat.le_add_right ..)
    rw [← Nat.mod_mod_of_dvd word hdvd, hmod, Nat.add_mul_mod_self_right]
    exact Nat.mod_eq_of_lt hvalid.word_lt

/-- A container keeps the bits that are there. -/
theorem word_mod (h : Emits (some active) moves word bytes) (hvalid : active.Valid) :
    word % 2 ^ active.bits = active.word := (h.word_aux active rfl hvalid).1

/-- A container goes out with a number that fits it. -/
theorem word_lt (h : Emits (some active) moves word bytes) (hvalid : active.Valid) :
    word < 256 ^ active.width := (h.word_aux active rfl hvalid).2

/-- Bytes that follow each other are moved at once or one after the other. -/
theorem append_bytes {own more : List UInt8}
    (h : Emits pending (.bytes own :: .bytes more :: moves) word bytes) :
    Emits pending (.bytes (own ++ more) :: moves) word bytes := by
  cases h with
  | bytes rest =>
    cases rest with
    | bytes rest =>
      rw [← List.append_assoc]
      exact .bytes rest

end Emits

end WireFormat
