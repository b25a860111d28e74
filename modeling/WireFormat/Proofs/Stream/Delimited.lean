import WireFormat.Plan.Decode
import WireFormat.Proofs.Conflict.Calm
import WireFormat.Proofs.Size.Decode
import WireFormat.Proofs.Stream.Mirror

/-!
# Input that delimits itself

A run of a reader that has succeeded depends on the bytes that it has taken and on no others.
Whatever comes after them is left as it is, and if the source ends before the last of them, the run
fails because the source has ended, not with a fault of the data.

* `Reader.Delimited` — what a single run has taken;
* `SelfDelimiting` — an action all of whose successful runs are so.
-/

namespace WireFormat

namespace Error

theorem isEndOfStream_locate (path : Path) (error : Error) :
    (error.locate path).isEndOfStream = error.isEndOfStream := by
  rw [isEndOfStream, isEndOfStream, rootCause_locate]

end Error

section

variable {α β : Type}

/-- The bytes `taken` decide a run of an action from a reader to the next. -/
structure Reader.Delimited (action : ReadM α) (reader : Reader) (taken : List UInt8) (value : α)
    (next : Reader) : Prop where
  source : reader.source = taken ++ next.source
  /-- Other bytes may come after them. -/
  more : ∀ rest,
    action { reader with source := taken ++ rest } = .ok value { next with source := rest }
  /-- Without the last of them, the source runs out. -/
  less : ∀ count < taken.length, ∃ error last,
    action { reader with source := taken.take count } = .error error last ∧
      error.isEndOfStream ∧ last.source = []

/-- Every successful run of the action is decided by the bytes that it takes. -/
def SelfDelimiting (action : ReadM α) : Prop :=
  ∀ reader value next, action reader = .ok value next →
    ∃ taken, Reader.Delimited action reader taken value next

namespace SelfDelimiting

variable {action : ReadM α} {f : α → ReadM β}

/-- An action that never looks at the source and takes nothing from it. -/
theorem of_nothing
    (h : ∀ reader value next, action reader = .ok value next → next.source = reader.source ∧
      ∀ rest, action { reader with source := rest } = .ok value { next with source := rest }) :
    SelfDelimiting action := fun reader value next hrun ↦
  ⟨[], (h reader value next hrun).1.symm, (h reader value next hrun).2, nofun⟩

theorem pure (a : α) : SelfDelimiting (Pure.pure a) := by
  refine of_nothing fun reader value next h ↦ ?_
  obtain ⟨rfl, rfl⟩ := run_pure_eq_ok_iff.1 h
  exact ⟨rfl, fun _ ↦ rfl⟩

theorem throw (error : Error) : SelfDelimiting (MonadExcept.throw error : ReadM α) :=
  fun _ _ _ ↦ nofun

theorem ofData (result : Except DataError α) : SelfDelimiting (ReadM.ofData result) := by
  cases result with
  | ok a => exact .pure a
  | error error => exact .throw _

theorem bind (h : SelfDelimiting action) (hmore : ∀ a, SelfDelimiting (f a)) :
    SelfDelimiting (action >>= f) := by
  intro reader b last hrun
  obtain ⟨a, middle, haction, hf⟩ := run_bind_eq_ok_iff.1 hrun
  obtain ⟨first, hfirst⟩ := h reader a middle haction
  obtain ⟨second, hsecond⟩ := hmore a middle b last hf
  refine ⟨first ++ second, ?_, fun rest ↦ ?_, fun count hcount ↦ ?_⟩
  · rw [hfirst.source, hsecond.source, List.append_assoc]
  · rw [List.append_assoc]
    exact run_bind_eq_ok_iff.2 ⟨a, _, hfirst.more (second ++ rest), hsecond.more rest⟩
  · -- The source ends in what the first action takes, or in what the second does.
    obtain hlt | hle := Nat.lt_or_ge count first.length
    · obtain ⟨error, reader', herror, hend, hsource⟩ := hfirst.less count hlt
      refine ⟨error, reader', run_bind_eq_error_iff.2 (.inl ?_), hend, hsource⟩
      rwa [List.take_append_of_le_length hlt.le]
    · rw [List.length_append] at hcount
      obtain ⟨error, reader', herror, hend, hsource⟩ :=
        hsecond.less (count - first.length) (by omega)
      refine ⟨error, reader', run_bind_eq_error_iff.2 (.inr ⟨a, _, ?_, herror⟩), hend, hsource⟩
      rw [List.take_append, List.take_of_length_le hle]
      exact hfirst.more _

theorem locate (h : SelfDelimiting action) (path : Path) :
    SelfDelimiting (ReadM.locate path action) := by
  intro reader value next hrun
  obtain ⟨taken, hsource, hmore, hless⟩ := h reader value next (ReadM.run_locate_eq_ok_iff.1 hrun)
  refine ⟨taken, hsource, fun rest ↦ ReadM.run_locate_eq_ok_iff.2 (hmore rest),
    fun count hcount ↦ ?_⟩
  obtain ⟨error, last, herror, hend, hlast⟩ := hless count hcount
  refine ⟨error.locate path, last, run_adaptExcept_eq_error_iff.2 ⟨error, herror, rfl⟩, ?_, hlast⟩
  rwa [Error.isEndOfStream_locate]

end SelfDelimiting

end

/-! ## Bytes -/

namespace Reader

/-- A source that is too short is used up. -/
theorem receiveAll_of_lt {count : Nat} {reader : Reader} (h : reader.source.length < count) :
    receiveAll count reader = .error (.io .unexpectedEof)
      ⟨[], reader.position + reader.source.length, reader.active⟩ := by
  obtain ⟨source, position, active⟩ := reader
  change source.length < count at h
  have hreceive : receive count ⟨source, position, active⟩ =
      .ok source ⟨[], position + source.length, active⟩ := by
    rw [receive, List.take_of_length_le h.le, List.drop_of_length_le h.le]
  refine run_bind_eq_error_iff.2 (.inr ⟨_, _, hreceive, ?_⟩)
  rw [if_pos h]
  rfl

theorem selfDelimiting_resetBits : SelfDelimiting resetBits := by
  refine .of_nothing fun reader value next h ↦ ?_
  cases h
  exact ⟨rfl, fun _ ↦ rfl⟩

theorem selfDelimiting_receiveAll (count : Nat) : SelfDelimiting (receiveAll count) := by
  intro reader bytes next h
  obtain ⟨rfl, hsource, -⟩ := receiveAll_eq_ok h
  obtain ⟨source, position, active⟩ := reader
  obtain ⟨left, position', active'⟩ := next
  change source = bytes ++ left at hsource
  subst hsource
  cases (receiveAll_append bytes left position active).symm.trans h
  refine ⟨bytes, rfl, fun rest ↦ receiveAll_append bytes rest position active,
    fun less hless ↦ ⟨_, _, receiveAll_of_lt ?_, rfl, rfl⟩⟩
  rwa [List.length_take_of_le hless.le]

theorem selfDelimiting_readBytes (count : Nat) : SelfDelimiting (readBytes count) :=
  selfDelimiting_resetBits.bind fun _ ↦ selfDelimiting_receiveAll count

theorem selfDelimiting_readRaw (width : Nat) (swap : Bool) : SelfDelimiting (readRaw width swap) :=
  (selfDelimiting_readBytes width).bind fun _ ↦ .pure _

theorem selfDelimiting_skip (count : Nat) : SelfDelimiting (skip count) :=
  (selfDelimiting_readBytes count).bind fun _ ↦ .pure _

/-- Without the zero byte that ends them, all bytes are taken. -/
theorem readUntilNul_of_notMem {reader : Reader} (h : 0 ∉ reader.source) :
    readUntilNul reader = .error (.io .unexpectedEof)
      ⟨[], reader.position + reader.source.length, none⟩ := by
  have htake : reader.source.takeWhile (· != 0) = reader.source := by
    refine List.takeWhile_eq_self_iff.2 fun byte hmem ↦ ?_
    rw [bne_iff_ne]
    rintro rfl
    exact h hmem
  refine run_bind_eq_error_iff.2 (.inr ⟨(), { reader with active := none }, rfl, ?_⟩)
  refine run_bind_eq_error_iff.2 (.inr ⟨_, _, rfl, run_bind_eq_error_iff.2 (.inl ?_)⟩)
  refine receiveAll_of_lt ?_
  change reader.source.length < (reader.source.takeWhile (· != 0)).length + 1
  rw [htake]
  exact Nat.lt_succ_self _

theorem selfDelimiting_readUntilNul : SelfDelimiting readUntilNul := by
  intro reader bytes next h
  obtain ⟨source, position, active⟩ := reader
  obtain ⟨hnul, -⟩ := active_eq_none_of_readUntilNul h
  have hmem : 0 ∈ source := by
    by_contra hmem
    cases (readUntilNul_of_notMem hmem).symm.trans h
  -- The bytes that are found are those before the first zero byte.
  obtain ⟨first, rest, rfl, hfirst⟩ := List.eq_append_cons_of_mem hmem
  have hrun := readUntilNul_append hfirst rest position active
  rw [List.append_assoc, List.singleton_append] at hrun
  cases hrun.symm.trans h
  refine ⟨bytes ++ [0], by simp, fun rest ↦ readUntilNul_append hnul rest position active,
    fun count hcount ↦ ⟨_, _, readUntilNul_of_notMem ?_, rfl, rfl⟩⟩
  rw [List.length_append, List.length_singleton] at hcount
  change 0 ∉ (bytes ++ [0]).take count
  rw [List.take_append_of_le_length (by omega)]
  exact fun hmem ↦ hnul (List.mem_of_mem_take hmem)

/-! ## Bits -/

theorem selfDelimiting_unpack {bits : Nat} (hbits : bits ≠ 0) (width : Nat) (swap : Bool) :
    SelfDelimiting (unpack width bits swap) := by
  intro reader value next h
  obtain ⟨hcheck, ⟨active, hfilter, hswap, rfl, rfl⟩ |
    ⟨hfilter, bytes, middle, hreceive, rfl, rfl⟩⟩ := (unpack_eq_ok_iff hbits).1 h
  · exact ⟨[], rfl, fun rest ↦ (unpack_eq_ok_iff hbits).2
      ⟨hcheck, .inl ⟨active, hfilter, hswap, rfl, rfl⟩⟩, nofun⟩
  · obtain ⟨taken, hsource, hmore, hless⟩ := selfDelimiting_receiveAll width _ _ _ hreceive
    refine ⟨taken, hsource, fun rest ↦ (unpack_eq_ok_iff hbits).2
      ⟨hcheck, .inr ⟨hfilter, bytes, _, hmore rest, rfl, rfl⟩⟩, fun count hcount ↦ ?_⟩
    obtain ⟨error, last, herror, hend⟩ := hless count hcount
    exact ⟨error, last,
      (unpack_eq_error_iff hbits).2 (.inr ⟨hcheck, .inr ⟨hfilter, herror⟩⟩), hend⟩

end Reader

end WireFormat
