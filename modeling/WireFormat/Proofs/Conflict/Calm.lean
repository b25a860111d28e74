import WireFormat.Plan.Encode
import WireFormat.Proofs.Run.Fields
import WireFormat.Proofs.Stream.Reading
import WireFormat.Proofs.Stream.Writing

/-!
# Conflicts between containers

A bit field conflicts with its container if the container cannot have its width, cannot hold its
bits or has its bytes in the other order.  Whether that can happen only depends on what is left of
the container at hand, not on the bits in it, and so it is the same for writers and readers.

* `DataError.isConflict` — the faults that are conflicts;
* `Outline` — what is left of a container;
* `Calm` — an action that starts before some outline, ends before another and has no conflict
  without an excuse;
* `Writer.calm_pack`, `Reader.calm_unpack` — bits that agree with the container at hand.
-/

namespace WireFormat

/-! ## Errors -/

/-- Whether a fault is a conflict between a bit field and its container. -/
def DataError.isConflict : DataError → Bool
  | invalidContainerWidth _ | containerOverflow _ _ | containerSwapMismatch => true
  | _ => false

namespace Error

variable {clash : Prop} {fault : DataError} {error : Error}

/-- If the error is a conflict at all, then one of byte orders, and there is an excuse for it. -/
def Excused (clash : Prop) (error : Error) : Prop :=
  ∀ fault, error.rootCause = .data fault → fault.isConflict →
    fault = .containerSwapMismatch ∧ clash

theorem excused_data (h : fault.isConflict = false) : (data fault).Excused clash := by
  rintro _ ⟨⟩ hconflict
  rw [h] at hconflict
  cases hconflict

theorem excused_io (failure : IoFailure) : (io failure).Excused clash := nofun

theorem excused_locate {path : Path} (h : error.Excused clash) :
    (error.locate path).Excused clash := by
  intro fault hcause
  rw [rootCause_locate] at hcause
  exact h fault hcause

end Error

/-! ## Results -/

/-- If the result is a fault, then no conflict. -/
def Harmless {α : Type} (result : Except DataError α) : Prop :=
  ∀ fault, result = .error fault → fault.isConflict = false

namespace Harmless

variable {α β : Type} {result : Except DataError α} {f : α → Except DataError β}

theorem ok (a : α) : Harmless (.ok a : Except DataError α) := nofun

theorem error {fault : DataError} (h : fault.isConflict = false) :
    Harmless (.error fault : Except DataError α) := by
  rintro _ ⟨⟩
  exact h

theorem bind (h : Harmless result) (hmore : ∀ a, Harmless (f a)) : Harmless (result >>= f) := by
  intro fault hfault
  obtain hfault | ⟨a, -, hfault⟩ := bind_eq_error_iff.1 hfault
  · exact h fault hfault
  · exact hmore a fault hfault

end Harmless

/-! ## Actions -/

/-- What is left of a container. -/
structure Outline where
  /-- The width of the container in bytes. -/
  width : Nat
  /-- The number of bits that are left. -/
  left : Nat
  /-- Whether the container has its highest byte first on the wire. -/
  swap : Bool

/-- Streams with a container at hand. -/
class HasOutline (σ : Type) where
  /-- What is left of the container at hand, if there is one. -/
  outline? : σ → Option Outline

instance : HasOutline Writer where
  outline? writer := writer.packer.active.map fun container ↦
    ⟨container.width, 8 * container.width - container.bits, container.swap⟩

instance : HasOutline Reader where
  outline? reader := reader.active.map fun container ↦
    ⟨container.width, container.bits, container.swap⟩

/-- If there is a container at hand, no more is left of it than there was, and what is left is as
described. -/
def Leaves {σ : Type} [HasOutline σ] (P : Outline → Prop) (s : σ) : Prop :=
  ∀ outline ∈ HasOutline.outline? s, outline.left ≤ 8 * outline.width ∧ P outline

/-- There is no container at hand. -/
abbrev Idle : Outline → Prop := fun _ ↦ False

/-- What is left of a container after some bits. -/
def Outline.After (container width : Nat) (swap : Bool) (outline : Outline) : Prop :=
  outline.width = container ∧ outline.swap = swap ∧ outline.left + width ≤ 8 * container

/-- Wherever a container is left as described before, the action leaves one as described after, or
fails without a conflict that has no excuse. -/
def Calm {σ α : Type} [HasOutline σ] (clash : Prop) (P : Outline → Prop)
    (action : EStateM Error σ α) (Q : Outline → Prop) : Prop :=
  ∀ s, Leaves P s → (∀ a next, action s = .ok a next → Leaves Q next) ∧
    ∀ error next, action s = .error error next → error.Excused clash

section Calm

variable {σ α β : Type} [HasOutline σ] {clash : Prop} {P Q R : Outline → Prop}
  {action : EStateM Error σ α} {f : α → EStateM Error σ β}

theorem Leaves.imp {s : σ} (h : Leaves P s) (himp : ∀ outline, P outline → Q outline) :
    Leaves Q s := fun outline hmem ↦ (h outline hmem).imp_right (himp outline)

namespace Calm

theorem pure (a : α) : Calm (σ := σ) clash P (Pure.pure a) P := by
  refine fun s hs ↦ ⟨fun _ _ h ↦ ?_, nofun⟩
  obtain ⟨-, rfl⟩ := run_pure_eq_ok_iff.1 h
  exact hs

theorem throw {error : Error} (h : error.Excused clash) :
    Calm (σ := σ) clash P (MonadExcept.throw error : EStateM Error σ α) Q := by
  refine fun s _ ↦ ⟨fun _ _ ↦ nofun, fun _ _ herror ↦ ?_⟩
  obtain ⟨rfl, -⟩ := run_throw_eq_error_iff.1 herror
  exact h

theorem get : Calm clash P (MonadState.get : EStateM Error σ σ) P := by
  refine fun s hs ↦ ⟨fun _ next h ↦ ?_, nofun⟩
  obtain ⟨-, rfl⟩ := run_get_eq_ok_iff.1 h
  exact hs

theorem bind (h : Calm clash P action Q) (hmore : ∀ a, Calm clash Q (f a) R) :
    Calm clash P (action >>= f) R := by
  refine fun s hs ↦ ⟨fun b last hok ↦ ?_, fun error last herror ↦ ?_⟩
  · obtain ⟨a, next, haction, hf⟩ := run_bind_eq_ok_iff.1 hok
    exact (hmore a next ((h s hs).1 a next haction)).1 b last hf
  · obtain haction | ⟨a, next, haction, hf⟩ := run_bind_eq_error_iff.1 herror
    · exact (h s hs).2 error last haction
    · exact (hmore a next ((h s hs).1 a next haction)).2 error last hf

theorem imp (h : Calm clash P action Q) (hQ : ∀ outline, Q outline → R outline) :
    Calm clash P action R :=
  fun s hs ↦ ⟨fun a next haction ↦ ((h s hs).1 a next haction).imp hQ, (h s hs).2⟩

theorem of_imp (h : Calm clash P action Q) (hP : ∀ outline, R outline → P outline) :
    Calm clash R action Q := fun s hs ↦ h s (hs.imp hP)

theorem of_idle (h : Calm clash P action Q) : Calm clash Idle action Q :=
  h.of_imp fun _ ↦ False.elim

theorem adaptExcept_locate (h : Calm clash P action Q) (path : Path) :
    Calm clash P (EStateM.adaptExcept (Error.locate path) action) Q := by
  refine fun s hs ↦ ⟨fun a next hok ↦ (h s hs).1 a next (run_adaptExcept_eq_ok_iff.1 hok),
    fun error next herror ↦ ?_⟩
  obtain ⟨cause, hcause, rfl⟩ := run_adaptExcept_eq_error_iff.1 herror
  exact Error.excused_locate ((h s hs).2 cause next hcause)

end Calm

end Calm

theorem WriteM.calm_ofData_bind {α β : Type} {clash : Prop} {P Q : Outline → Prop}
    {result : Except DataError α} {f : α → WriteM β} (h : Harmless result)
    (hmore : ∀ a, result = .ok a → Calm clash P (f a) Q) :
    Calm clash P (WriteM.ofData result >>= f) Q := by
  cases result with
  | ok a => exact hmore a rfl
  | error fault => exact Calm.throw (Error.excused_data (h fault rfl))

theorem ReadM.calm_ofData {α : Type} {clash : Prop} {P : Outline → Prop}
    {result : Except DataError α} (h : Harmless result) : Calm clash P (ReadM.ofData result) P := by
  cases result with
  | ok a => exact .pure a
  | error fault => exact .throw (Error.excused_data (h fault rfl))

theorem ReadM.calm_ofData_bind {α β : Type} {clash : Prop} {P Q : Outline → Prop}
    {result : Except DataError α} {f : α → ReadM β} (h : Harmless result)
    (hmore : ∀ a, result = .ok a → Calm clash P (f a) Q) :
    Calm clash P (ReadM.ofData result >>= f) Q := by
  cases result with
  | ok a => exact hmore a rfl
  | error fault => exact Calm.throw (Error.excused_data (h fault rfl))

/-! ## Writers -/

namespace Packer

/-- Why a packer cannot take a field. -/
theorem of_pack_eq_error {packer : Packer} {value width bits : Nat} {swap : Bool}
    {fault : DataError} (hcheck : Container.check width bits = .ok ()) (hbits : bits ≠ 0)
    (h : packer.pack value width bits swap = .error fault) : fault = .bitOverflow value bits ∨
      ∃ active, packer.active = some active ∧ active.hasRoom width bits = true ∧
        active.swap ≠ swap ∧ fault = .containerSwapMismatch := by
  obtain ⟨active⟩ := packer
  rw [pack, hcheck] at h
  by_cases hvalue : 2 ^ bits ≤ value
  · simp only [hvalue, if_true] at h
    cases h
    exact .inl rfl
  · simp only [hvalue, hbits, if_false] at h
    cases active with
    | none => cases h
    | some active =>
      dsimp only at h
      split at h
      · next hroom =>
        split at h
        · cases h
        · next hswap =>
          cases h
          exact .inr ⟨active, rfl, hroom, hswap, rfl⟩
      · cases h

end Packer

namespace Writer

variable {clash : Prop} {P : Outline → Prop} {bytes : List UInt8}

theorem leaves_of_active_eq_none {writer : Writer} (h : writer.packer.active = none) :
    Leaves P writer := by
  intro outline hmem
  change outline ∈ writer.packer.active.map _ at hmem
  rw [h] at hmem
  cases hmem

theorem calm_sendAll (bytes : List UInt8) : Calm clash P (sendAll bytes) P := by
  refine fun writer hwriter ↦ ⟨fun _ next h ↦ ?_, fun error next h ↦ ?_⟩
  · rw [sendAll_eq_ok h]
    exact hwriter
  · rw [eq_of_sendAll_eq_error h]
    exact Error.excused_io _

theorem calm_flushBits : Calm clash P flushBits Idle := by
  refine fun writer _ ↦ ⟨fun _ next h ↦ ?_, fun error next h ↦ ?_⟩
  · rw [flushBits_eq_ok h]
    exact leaves_of_active_eq_none rfl
  · rw [eq_of_flushBits_eq_error h]
    exact Error.excused_io _

theorem calm_writeBytes (bytes : List UInt8) : Calm clash P (writeBytes bytes) Idle :=
  calm_flushBits.bind fun _ ↦ calm_sendAll bytes

theorem calm_writeZeros (count : Nat) : Calm clash P (writeZeros count) Idle := by
  rw [writeZeros, sendZeros_eq]
  exact calm_writeBytes _

/-- Bits are put into a container without a conflict if they agree with the one at hand. -/
theorem calm_pack {value container width : Nat} {swap : Bool}
    (hcheck : Container.check container width = .ok ()) (hwidth : width ≠ 0)
    (hagree : ∀ outline, P outline → outline.width = container → width ≤ outline.left →
      outline.swap = swap ∨ clash) :
    Calm clash P (pack value container width swap) (Outline.After container width swap) := by
  have hle := (Container.check_eq_ok_iff.1 hcheck).2.2
  refine fun writer hwriter ↦ ⟨fun _ next h ↦ ?_, fun error next h ↦ ?_⟩
  · obtain ⟨bytes, packer, hpack, rfl⟩ := pack_eq_ok h
    obtain ⟨-, -, ⟨active, -, hroom, hswap, -, rfl⟩ | ⟨-, -, rfl⟩⟩ := Packer.pack_eq_ok hwidth hpack
    · obtain ⟨rfl, hbits⟩ := Container.hasRoom_iff.1 hroom
      rintro _ ⟨⟩
      refine ⟨Nat.sub_le .., rfl, hswap, ?_⟩
      change 8 * active.width - (active.bits + width) + width ≤ 8 * active.width
      omega
    · rintro _ ⟨⟩
      refine ⟨Nat.sub_le .., rfl, rfl, ?_⟩
      change 8 * container - width + width ≤ 8 * container
      omega
  · obtain ⟨fault, hpack, rfl, -⟩ | ⟨rfl, -⟩ := pack_eq_error h
    · obtain rfl | ⟨active, hactive, hroom, hswap, rfl⟩ :=
        Packer.of_pack_eq_error hcheck hwidth hpack
      · exact Error.excused_data rfl
      · obtain ⟨hown, hbits⟩ := Container.hasRoom_iff.1 hroom
        have houtline := (hwriter ⟨active.width, 8 * active.width - active.bits, active.swap⟩
          (Option.map_eq_some_iff.2 ⟨active, hactive, rfl⟩)).2
        rintro _ ⟨⟩ -
        exact ⟨rfl, (hagree _ houtline hown (by dsimp only; omega)).resolve_left hswap⟩
    · exact Error.excused_io _

end Writer

/-! ## Readers -/

namespace Reader

variable {clash : Prop} {P : Outline → Prop}

theorem leaves_of_active_eq_none {reader : Reader} (h : reader.active = none) :
    Leaves P reader := by
  intro outline hmem
  change outline ∈ reader.active.map _ at hmem
  rw [h] at hmem
  cases hmem

theorem eq_of_receiveAll_eq_error {reader next : Reader} {count : Nat} {error : Error}
    (h : receiveAll count reader = .error error next) : error = .io .unexpectedEof := by
  obtain h | ⟨_, _, -, h⟩ := run_bind_eq_error_iff.1 h
  · cases h
  · split at h
    · exact (run_throw_eq_error_iff.1 h).1.symm
    · cases h

theorem calm_receiveAll (count : Nat) : Calm clash P (receiveAll count) P := by
  refine fun reader hreader ↦ ⟨fun _ next h ↦ ?_, fun error next h ↦ ?_⟩
  · intro outline hmem
    change outline ∈ next.active.map _ at hmem
    rw [(receiveAll_eq_ok h).2.2] at hmem
    exact hreader outline hmem
  · rw [eq_of_receiveAll_eq_error h]
    exact Error.excused_io _

theorem calm_resetBits : Calm clash P resetBits Idle := by
  refine fun reader _ ↦ ⟨fun _ next h ↦ ?_, nofun⟩
  cases h
  exact leaves_of_active_eq_none rfl

theorem calm_readBytes (count : Nat) : Calm clash P (readBytes count) Idle :=
  calm_resetBits.bind fun _ ↦ calm_receiveAll count

theorem calm_readRaw (width : Nat) (swap : Bool) : Calm clash P (readRaw width swap) Idle :=
  (calm_readBytes width).bind fun _ ↦ .pure _

theorem calm_skip (count : Nat) : Calm clash P (skip count) Idle :=
  (calm_readBytes count).bind fun _ ↦ .pure _

theorem calm_readUntilNul : Calm clash P readUntilNul Idle :=
  calm_resetBits.bind fun _ ↦ .bind .get fun _ ↦ (calm_receiveAll _).bind fun _ ↦ .pure _

/-- Bits are taken from a container without a conflict if they agree with the one at hand. -/
theorem calm_unpack {container width : Nat} {swap : Bool}
    (hcheck : Container.check container width = .ok ()) (hwidth : width ≠ 0)
    (hagree : ∀ outline, P outline → outline.width = container → width ≤ outline.left →
      outline.swap = swap ∨ clash) :
    Calm clash P (unpack container width swap) (Outline.After container width swap) := by
  have hle := (Container.check_eq_ok_iff.1 hcheck).2.2
  refine fun reader hreader ↦ ⟨fun _ next h ↦ ?_, fun error next h ↦ ?_⟩
  · obtain ⟨-, ⟨active, hfilter, hswap, -, rfl⟩ | ⟨-, bytes, middle, hreceive, -, rfl⟩⟩ :=
      (unpack_eq_ok_iff hwidth).1 h
    · obtain ⟨hactive, hholds⟩ := Option.filter_eq_some_iff.1 hfilter
      obtain ⟨rfl, hbits⟩ := Container.holds_iff.1 hholds
      have hbound := (hreader ⟨active.width, active.bits, active.swap⟩
        (Option.map_eq_some_iff.2 ⟨active, hactive, rfl⟩)).1
      dsimp only at hbound
      rintro _ ⟨⟩
      refine ⟨Nat.le_trans (Nat.sub_le ..) hbound, rfl, hswap, ?_⟩
      change active.bits - width + width ≤ 8 * active.width
      omega
    · obtain ⟨rfl, -, -⟩ := receiveAll_eq_ok hreceive
      rintro _ ⟨⟩
      refine ⟨Nat.sub_le .., rfl, rfl, ?_⟩
      change 8 * bytes.length - width + width ≤ 8 * bytes.length
      omega
  · obtain ⟨_, hfault, -⟩ | ⟨-, ⟨active, hfilter, hswap, rfl, -⟩ | ⟨-, hreceive⟩⟩ :=
      (unpack_eq_error_iff hwidth).1 h
    · cases hcheck.symm.trans hfault
    · obtain ⟨hactive, hholds⟩ := Option.filter_eq_some_iff.1 hfilter
      obtain ⟨hown, hbits⟩ := Container.holds_iff.1 hholds
      have houtline := (hreader ⟨active.width, active.bits, active.swap⟩
        (Option.map_eq_some_iff.2 ⟨active, hactive, rfl⟩)).2
      rintro _ ⟨⟩ -
      exact ⟨rfl, (hagree _ houtline hown hbits).resolve_left hswap⟩
    · rw [eq_of_receiveAll_eq_error hreceive]
      exact Error.excused_io _

end Reader

end WireFormat
