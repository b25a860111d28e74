import WireFormat.Proofs.Failure
import WireFormat.Proofs.Stream.Moves
import WireFormat.Stream.Reader

/-!
# Moves of a reader

`Reader.Ahead` says that a reader stands before the bytes that some moves come to.  Each operation
of a reader that stands before the moves it reads succeeds, answers with what was moved and stands
before the next moves.  `Reader.Reads` says this of operations that are built from these.
-/

namespace WireFormat

namespace Reader

/-- What a reader has of a container when a writer has filled some of it: the bits after those. -/
def remaining (container : Container) (word : Nat) : Container :=
  ⟨word / 2 ^ container.bits, container.width, 8 * container.width - container.bits, container.swap⟩

/-- The reader stands before the bytes that some moves come to, with `rest` after them. -/
def Ahead (moves : List Move) (rest : List UInt8) (reader : Reader) : Prop :=
  ∃ pending word bytes, Emits pending moves word bytes ∧ (∀ active ∈ pending, active.Valid) ∧
    reader.active = pending.map (remaining · word) ∧ reader.source = bytes ++ rest

variable {reader next : Reader} {moves : List Move} {bytes rest : List UInt8}

/-- Before moves that end the container, or before none, only the bytes count. -/
theorem Ahead.source_eq (h : Ahead [.bytes bytes] rest reader) : reader.source = bytes ++ rest := by
  obtain ⟨pending, word, all, hemits, -, -, hsource⟩ := h
  cases hemits with
  | bytes hrest =>
    cases hrest with
    | done => rwa [List.append_nil] at hsource

theorem Ahead.append_bytes {own more : List UInt8}
    (h : Ahead (.bytes own :: .bytes more :: moves) rest reader) :
    Ahead (.bytes (own ++ more) :: moves) rest reader := by
  obtain ⟨pending, word, all, hemits, hvalid, hactive, hsource⟩ := h
  exact ⟨pending, word, all, hemits.append_bytes, hvalid, hactive, hsource⟩

/-! ## Operations -/

/-- Before the given moves an operation succeeds with a result, and then stands after them. -/
def Reads {α : Type} (action : ReadM α) (moves : List Move) (result : α) : Prop :=
  ∀ (more : List Move) (rest : List UInt8) (reader : Reader), Ahead (moves ++ more) rest reader →
    ∃ next, action reader = .ok result next ∧ Ahead more rest next

namespace Reads

variable {α β : Type} {action : ReadM α} {f : α → ReadM β} {a : α} {b : β} {more : List Move}

theorem pure (a : α) : Reads (Pure.pure a) [] a := fun _ _ reader h ↦ ⟨reader, rfl, h⟩

theorem bind (h : Reads action moves a) (hmore : Reads (f a) more b) :
    Reads (action >>= f) (moves ++ more) b := by
  intro last rest reader hahead
  rw [List.append_assoc] at hahead
  obtain ⟨middle, hfirst, hmiddle⟩ := h _ _ _ hahead
  obtain ⟨next, hsecond, hnext⟩ := hmore _ _ _ hmiddle
  exact ⟨next, run_bind_eq_ok_iff.2 ⟨a, middle, hfirst, hsecond⟩, hnext⟩

/-- What follows need not move anything. -/
theorem bind_nil (h : Reads action moves a) (hmore : Reads (f a) [] b) :
    Reads (action >>= f) moves b := by
  have hbind := h.bind hmore
  rwa [List.append_nil] at hbind

/-- How errors are reworded does not matter. -/
theorem adaptExcept (h : Reads action moves a) (f : Error → Error) :
    Reads (EStateM.adaptExcept f action) moves a := by
  intro more rest reader hahead
  obtain ⟨next, hread, hnext⟩ := h more rest reader hahead
  exact ⟨next, run_adaptExcept_eq_ok_iff.2 hread, hnext⟩

end Reads

/-! ## Bytes -/

theorem receiveAll_append (bytes source : List UInt8) (position : Nat) (active : Option Container) :
    receiveAll bytes.length ⟨bytes ++ source, position, active⟩ =
      .ok bytes ⟨source, position + bytes.length, active⟩ := by
  unfold receiveAll
  have hreceive : receive bytes.length ⟨bytes ++ source, position, active⟩ =
      .ok bytes ⟨source, position + bytes.length, active⟩ := by
    simp [receive]
  change EStateM.bind _ _ _ = _
  rw [EStateM.bind, hreceive]
  simp [pure, EStateM.pure]

theorem receiveAll_eq_ok {count : Nat} (h : receiveAll count reader = .ok bytes next) :
    bytes.length = count ∧ reader.source = bytes ++ next.source ∧ next.active = reader.active := by
  obtain ⟨source, position, active⟩ := reader
  rw [receiveAll, run_bind_eq_ok_iff] at h
  obtain ⟨_, middle, hreceive, h⟩ := h
  cases hreceive
  split at h
  · cases h
  · next hlength =>
    cases h
    rw [List.length_take] at hlength
    refine ⟨?_, (List.take_append_drop count source).symm, rfl⟩
    rw [List.length_take]
    omega

/-- Bytes are read back, and end the container. -/
theorem reads_readBytes (bytes : List UInt8) :
    Reads (readBytes bytes.length) [.bytes bytes] bytes := by
  intro moves rest reader h
  obtain ⟨pending, word, all, hemits, -, -, hsource⟩ := h
  obtain ⟨source, position, active⟩ := reader
  cases hemits with
  | @bytes _ _ _ word more hrest =>
    dsimp only at hsource
    rw [hsource, List.append_assoc]
    refine ⟨_, receiveAll_append _ _ _ _, ?_⟩
    exact ⟨none, word, more, hrest, nofun, rfl, rfl⟩

theorem reads_resetBits : Reads resetBits [.bytes []] () := by
  intro moves rest reader h
  obtain ⟨pending, word, all, hemits, -, -, hsource⟩ := h
  cases hemits with
  | @bytes _ _ _ word more hrest =>
    exact ⟨_, rfl, none, word, more, hrest, nofun, rfl, hsource⟩

theorem reads_readRaw {width raw : Nat} (hraw : raw < 256 ^ width) (swap : Bool) :
    Reads (readRaw width swap) [.bytes (wireBytes width raw swap)] raw := by
  have hread := reads_readBytes (wireBytes width raw swap)
  rw [length_wireBytes] at hread
  refine hread.bind_nil ?_
  rw [ofWireBytes_wireBytes hraw]
  exact .pure raw

theorem reads_skip (bytes : List UInt8) : Reads (skip bytes.length) [.bytes bytes] () :=
  (reads_readBytes bytes).bind_nil (.pure ())

/-- Bytes up to a zero byte are taken with it. -/
theorem readUntilNul_append (hnul : 0 ∉ bytes) (source : List UInt8) (position : Nat)
    (active : Option Container) : readUntilNul ⟨bytes ++ [0] ++ source, position, active⟩ =
      .ok bytes ⟨source, position + (bytes ++ [0]).length, none⟩ := by
  have htake : (bytes ++ [0] ++ source).takeWhile (· != 0) = bytes := by
    rw [List.append_assoc, List.takeWhile_append_of_pos]
    · simp
    · intro byte hmem
      rw [bne_iff_ne]
      rintro rfl
      exact hnul hmem
  have hreceive : receiveAll (bytes.length + 1) ⟨bytes ++ [0] ++ source, position, none⟩ =
      .ok (bytes ++ [0]) ⟨source, position + (bytes ++ [0]).length, none⟩ := by
    rw [show bytes.length + 1 = (bytes ++ [0]).length by simp]
    exact receiveAll_append _ _ _ _
  unfold Reader.readUntilNul
  rw [run_bind_eq_ok_iff]
  refine ⟨(), ⟨bytes ++ [0] ++ source, position, none⟩, rfl, ?_⟩
  rw [run_bind_eq_ok_iff]
  refine ⟨_, _, rfl, ?_⟩
  dsimp only
  rw [htake, run_bind_eq_ok_iff]
  exact ⟨_, _, hreceive, rfl⟩

/-- Bytes up to a zero byte are read back if no other byte is zero. -/
theorem reads_readUntilNul (hnul : 0 ∉ bytes) :
    Reads readUntilNul [.bytes bytes, .bytes [0]] bytes := by
  intro moves rest reader h
  obtain ⟨pending, word, all, hemits, -, -, hsource⟩ := h.append_bytes
  obtain ⟨source, position, active⟩ := reader
  cases hemits with
  | @bytes _ _ _ word more hrest =>
    dsimp only at hsource
    rw [List.append_assoc] at hsource
    rw [hsource]
    exact ⟨_, readUntilNul_append hnul _ _ _, none, word, more, hrest, nofun, rfl, rfl⟩

/-! ## Bits -/

variable {active : Container} {value width bits word : Nat} {swap : Bool}

theorem holds_remaining (hvalid : active.Valid) (word width bits : Nat) :
    (remaining active word).holds width bits = active.hasRoom width bits := by
  have hle := hvalid.bits_le
  rw [Bool.eq_iff_iff, Container.holds_iff, Container.hasRoom_iff]
  change active.width = width ∧ bits ≤ 8 * active.width - active.bits ↔ _
  omega

/-- The next bits of a container are those that the writer puts in next. -/
theorem peel_remaining (hvalid : active.Valid)
    (hword : word % 2 ^ (active.bits + bits) = active.word + value * 2 ^ active.bits) :
    (remaining active word).peel bits = (value, remaining (active.add value bits) word) := by
  have hpos : 0 < 2 ^ active.bits := Nat.two_pow_pos _
  have hvalue : word / 2 ^ active.bits % 2 ^ bits = value := by
    rw [← Nat.mod_mul_right_div_self, ← Nat.pow_add, hword, Nat.add_mul_div_right _ _ hpos,
      Nat.div_eq_of_lt hvalid.word_lt, Nat.zero_add]
  refine Prod.ext hvalue ?_
  change Container.mk _ _ _ _ = Container.mk _ _ _ _
  rw [Container.mk.injEq]
  refine ⟨?_, rfl, ?_, rfl⟩
  · change word / 2 ^ active.bits / 2 ^ bits = word / 2 ^ (active.bits + bits)
    rw [Nat.div_div_eq_div_mul, Nat.pow_add]
  · change 8 * active.width - active.bits - bits = 8 * active.width - (active.bits + bits)
    omega

/-- A container comes back from its bytes, and its first bits are those that were put in first. -/
theorem peel_load_wireBytes (hword : word < 256 ^ width) (hvalue : word % 2 ^ bits = value) :
    (Container.load (wireBytes width word swap) swap).peel bits =
      (value, remaining (.start value width bits swap) word) := by
  rw [Container.load, ofWireBytes_wireBytes hword, length_wireBytes]
  exact Prod.ext hvalue rfl

/-- Bits come from the container at hand, or from a new one. -/
theorem unpack_eq_ok_iff (hbits : bits ≠ 0) : Reader.unpack width bits swap reader = .ok value next ↔
    Container.check width bits = .ok () ∧
      ((∃ active, reader.active.filter (·.holds width bits) = some active ∧ active.swap = swap ∧
        (active.peel bits).1 = value ∧ { reader with active := some (active.peel bits).2 } = next) ∨
      (reader.active.filter (·.holds width bits) = none ∧ ∃ bytes middle,
        receiveAll width reader = .ok bytes middle ∧
        ((Container.load bytes swap).peel bits).1 = value ∧
        { middle with active := some ((Container.load bytes swap).peel bits).2 } = next)) := by
  unfold Reader.unpack
  cases hcheck : Container.check width bits with
  | error error =>
    simp only [reduceCtorEq, false_and, iff_false]
    intro h
    cases h
  | ok _ =>
    dsimp only
    rw [if_neg hbits, run_bind_eq_ok_iff]
    simp only [run_get_eq_ok_iff, existsAndEq, true_and]
    cases hfilter : reader.active.filter (·.holds width bits) with
    | some active =>
      dsimp only
      by_cases hswap : active.swap = swap
      · rw [if_neg (by simpa using hswap), run_bind_eq_ok_iff]
        simp only [run_modify_eq_ok_iff, run_pure_eq_ok_iff]
        constructor
        · rintro ⟨_, _, rfl, hvalue, hnext⟩
          exact .inl ⟨active, rfl, hswap, hvalue, hnext⟩
        · rintro (⟨_, ⟨⟩, -, hvalue, hnext⟩ | ⟨⟨⟩, -⟩)
          exact ⟨⟨⟩, _, rfl, hvalue, hnext⟩
      · rw [if_pos hswap]
        constructor
        · intro h
          cases h
        · rintro (⟨_, ⟨⟩, hother, -⟩ | ⟨⟨⟩, -⟩)
          exact (hswap hother).elim
    | none =>
      dsimp only
      simp only [run_bind_eq_ok_iff, run_modify_eq_ok_iff, run_pure_eq_ok_iff]
      constructor
      · rintro ⟨bytes, middle, hreceive, _, _, rfl, hvalue, hnext⟩
        exact .inr ⟨trivial, bytes, middle, hreceive, hvalue, hnext⟩
      · rintro (⟨_, ⟨⟩, -⟩ | ⟨-, bytes, middle, hreceive, hvalue, hnext⟩)
        exact ⟨bytes, middle, hreceive, ⟨⟩, _, rfl, hvalue, hnext⟩

/-- Bits cannot be taken if they do not suit a container, or the one at hand, or if there is none to
be read. -/
theorem unpack_eq_error_iff {error : Error} (hbits : bits ≠ 0) :
    Reader.unpack width bits swap reader = .error error next ↔
      (∃ fault, Container.check width bits = .error fault ∧ error = .data fault ∧ next = reader) ∨
      Container.check width bits = .ok () ∧
        ((∃ active, reader.active.filter (·.holds width bits) = some active ∧ active.swap ≠ swap ∧
          error = .data .containerSwapMismatch ∧ next = reader) ∨
        (reader.active.filter (·.holds width bits) = none ∧
          receiveAll width reader = .error error next)) := by
  unfold Reader.unpack
  cases hcheck : Container.check width bits with
  | error fault =>
    simp only [reduceCtorEq, false_and, or_false, Except.error.injEq, exists_eq_left']
    exact run_throw_eq_error_iff.trans (by simp only [eq_comm])
  | ok _ =>
    dsimp only
    rw [if_neg hbits, run_bind_eq_error_iff]
    simp only [run_get_ne_error, run_get_eq_ok_iff, existsAndEq, true_and, false_or, reduceCtorEq,
      false_and, exists_false]
    cases hfilter : reader.active.filter (·.holds width bits) with
    | some active =>
      dsimp only
      by_cases hswap : active.swap = swap
      · rw [if_neg (by simpa using hswap)]
        constructor
        · intro h
          cases h
        · rintro (⟨_, ⟨⟩, hother, -⟩ | ⟨⟨⟩, -⟩)
          exact (hother hswap).elim
      · rw [if_pos hswap]
        refine run_throw_eq_error_iff.trans ⟨?_, ?_⟩
        · rintro ⟨rfl, rfl⟩
          exact .inl ⟨active, rfl, hswap, rfl, rfl⟩
        · rintro (⟨_, -, -, rfl, rfl⟩ | ⟨⟨⟩, -⟩)
          exact ⟨rfl, rfl⟩
    | none =>
      dsimp only
      rw [run_bind_eq_error_iff]
      constructor
      · rintro (h | ⟨_, _, -, h⟩)
        · exact .inr ⟨rfl, h⟩
        · cases h
      · rintro (⟨_, ⟨⟩, -⟩ | ⟨-, h⟩)
        exact .inl h

/-- Bits are read back. -/
theorem reads_unpack (hbits : bits ≠ 0) :
    Reads (unpack width bits swap) [.bits value width bits swap] value := by
  intro moves rest reader h
  obtain ⟨pending, word, all, hemits, hvalid, hactive, hsource⟩ := h
  cases hemits with
  | @add active _ _ _ _ _ _ _ hcheck hvalue hroom hswap hrest =>
    have hfirst := hvalid active rfl
    have hnext := hfirst.add hroom hvalue
    have hfilter : reader.active.filter (·.holds width bits) = some (remaining active word) := by
      rw [hactive, Option.map_some, Option.filter_some, holds_remaining hfirst, hroom, if_pos rfl]
    have hpeel := peel_remaining hfirst (hrest.word_mod hnext)
    refine ⟨_, (unpack_eq_ok_iff hbits).2 ⟨hcheck, .inl ⟨_, hfilter, hswap, by rw [hpeel], rfl⟩⟩,
      some (active.add value bits), word, all, hrest, ?_, by rw [hpeel]; rfl, hsource⟩
    rintro _ ⟨⟩
    exact hnext
  | @start _ _ _ _ _ _ first more hcheck hvalue hfull hrest =>
    have hnext : (Container.start value width bits swap).Valid :=
      Container.valid_start hcheck hvalue
    have hfilter : reader.active.filter (·.holds width bits) = none := by
      rw [hactive]
      cases pending with
      | none => rfl
      | some active =>
        rw [Option.map_some, Option.filter_some, holds_remaining (hvalid active rfl),
          hfull active rfl, if_neg (by simp)]
    have hreceive : receiveAll width reader = .ok (wireBytes width first swap)
        ⟨more ++ rest, reader.position + width, reader.active⟩ := by
      have happend := receiveAll_append (wireBytes width first swap) (more ++ rest) reader.position
        reader.active
      rw [length_wireBytes, ← List.append_assoc, ← hsource] at happend
      exact happend
    have hpeel : (Container.load (wireBytes width first swap) swap).peel bits =
        (value, remaining (.start value width bits swap) first) :=
      peel_load_wireBytes (hrest.word_lt hnext) (hrest.word_mod hnext)
    refine ⟨_, (unpack_eq_ok_iff hbits).2 ⟨hcheck, .inr ⟨hfilter, _, _, hreceive, ?_, rfl⟩⟩,
      some (.start value width bits swap), first, more, hrest, ?_, ?_, rfl⟩
    · rw [hpeel]
    · rintro _ ⟨⟩
      exact hnext
    · rw [hpeel]
      rfl

end Reader

end WireFormat
