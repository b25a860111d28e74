import WireFormat.Proofs.Size.Rooms
import WireFormat.Proofs.Stream.Reading

/-!
# The room that a reader takes

`Reader.Passes` says that a reader has gone from one state to another over some room: it has read as
many bytes as the room takes.  Where there is nothing but zeros to be read, it has read zeros.
`Reader.Takes` says the same where only the least room is known.
-/

namespace WireFormat

theorem ofLittleEndian_replicate_zero (count : Nat) :
    ofLittleEndian (List.replicate count 0) = 0 := by
  induction count with
  | zero => rfl
  | succ count ih => rw [List.replicate_succ, ofLittleEndian, ih, UInt8.toNat_zero]

/-- Zeros stand for zero in either order. -/
theorem ofWireBytes_replicate_zero (count : Nat) (swap : Bool) :
    ofWireBytes (List.replicate count 0) swap = 0 := by
  have hlittle := littleEndian_ofLittleEndian (List.replicate count 0)
  rw [ofLittleEndian_replicate_zero, List.length_replicate] at hlittle
  cases swap with
  | false => exact ofLittleEndian_replicate_zero count
  | true =>
    rw [ofWireBytes, if_pos rfl, ofLittleEndian_replicate_zero, List.length_replicate, reverseBytes]
    split
    · rfl
    · rw [hlittle, List.reverse_replicate, ofLittleEndian_replicate_zero]

namespace Reader

/-- The width of the container at hand, and the number of bits that have been taken from it. -/
def use (reader : Reader) : Option (Nat × Nat) :=
  reader.active.map fun container ↦ (container.width, 8 * container.width - container.bits)

/-- The container at hand has no more bits than fit it. -/
def Sound (reader : Reader) : Prop :=
  ∀ container ∈ reader.active, container.bits ≤ 8 * container.width

/-- There is nothing but zeros to be read. -/
def Blank (reader : Reader) : Prop :=
  (∃ count, reader.source = List.replicate count 0) ∧
    ∀ container ∈ reader.active, container.word = 0

/-- The reader has gone over some room. -/
structure Passes (reader : Reader) (rooms : List Room) (next : Reader) : Prop where
  sound : reader.Sound → next.Sound
  taken : reader.Sound → ∃ taken : List UInt8, reader.source = taken ++ next.source ∧
    ∀ more, occupied reader.use (rooms ++ more) = taken.length + occupied next.use more
  blank : reader.Blank → next.Blank

variable {reader middle next : Reader} {rooms more : List Room}

namespace Passes

theorem refl (reader : Reader) : reader.Passes [] reader :=
  ⟨id, fun _ ↦ ⟨[], rfl, fun _ ↦ (Nat.zero_add _).symm⟩, id⟩

theorem trans (h : reader.Passes rooms middle) (hmore : middle.Passes more next) :
    reader.Passes (rooms ++ more) next := by
  refine ⟨fun hsound ↦ hmore.sound (h.sound hsound), fun hsound ↦ ?_,
    fun hblank ↦ hmore.blank (h.blank hblank)⟩
  obtain ⟨first, hfirst, hrooms⟩ := h.taken hsound
  obtain ⟨second, hsecond, hmore⟩ := hmore.taken (h.sound hsound)
  refine ⟨first ++ second, ?_, fun last ↦ ?_⟩
  · rw [hfirst, hsecond, List.append_assoc]
  · rw [List.append_assoc, hrooms, hmore, List.length_append, Nat.add_assoc]

/-- Bytes that follow each other are passed at once or one after the other. -/
theorem bytes_append {first second : Nat}
    (h : reader.Passes (Room.bytes first ++ Room.bytes second) next) :
    reader.Passes (Room.bytes (first + second)) next := by
  refine ⟨h.sound, fun hsound ↦ ?_, h.blank⟩
  obtain ⟨taken, htaken, hrooms⟩ := h.taken hsound
  refine ⟨taken, htaken, fun more ↦ ?_⟩
  have hmore := hrooms more
  rw [List.append_assoc, occupied_bytes, occupied_bytes] at hmore
  rw [occupied_bytes]
  omega

end Passes

/-! ## Bytes -/

variable {count : Nat} {bytes : List UInt8}

theorem Blank.replicate_of_append (h : ∃ count, bytes ++ next.source = List.replicate count 0) :
    bytes = List.replicate bytes.length 0 ∧
      ∃ count, next.source = List.replicate count 0 := by
  obtain ⟨count, hcount⟩ := h
  obtain ⟨-, hbytes, hsource⟩ := List.append_eq_replicate_iff.1 hcount
  exact ⟨hbytes, _, hsource⟩

theorem passes_resetBits (reader : Reader) :
    reader.Passes [.align] { reader with active := none } :=
  ⟨fun _ ↦ nofun, fun _ ↦ ⟨[], rfl, fun more ↦ by simp [use]⟩, fun h ↦ ⟨h.1, nofun⟩⟩

/-- Bytes that are read are passed, and they are zeros if nothing else is there. -/
theorem passes_of_readBytes (h : readBytes count reader = .ok bytes next) :
    bytes.length = count ∧ reader.Passes (Room.bytes count) next ∧
      (reader.Blank → bytes = List.replicate count 0) := by
  rw [readBytes, run_bind_eq_ok_iff] at h
  obtain ⟨_, _, hreset, h⟩ := h
  cases hreset
  obtain ⟨rfl, hsource, hactive⟩ := receiveAll_eq_ok h
  change reader.source = bytes ++ next.source at hsource
  refine ⟨rfl, ⟨fun _ ↦ ?_, fun _ ↦ ⟨bytes, hsource, fun more ↦ ?_⟩, fun hblank ↦ ?_⟩,
    fun hblank ↦ ?_⟩
  · rw [Sound, hactive]
    nofun
  · rw [occupied_bytes, use, hactive]
    rfl
  · refine ⟨(Blank.replicate_of_append (hsource ▸ hblank.1)).2, ?_⟩
    rw [hactive]
    nofun
  · exact (Blank.replicate_of_append (hsource ▸ hblank.1)).1

theorem passes_of_readRaw {width raw : Nat} {swap : Bool}
    (h : readRaw width swap reader = .ok raw next) :
    reader.Passes (Room.bytes width) next ∧ (reader.Blank → raw = 0) := by
  rw [readRaw, run_bind_eq_ok_iff] at h
  obtain ⟨bytes, _, hread, h⟩ := h
  obtain ⟨rfl, rfl⟩ := run_pure_eq_ok_iff.1 h
  obtain ⟨-, hpasses, hzero⟩ := passes_of_readBytes hread
  refine ⟨hpasses, fun hblank ↦ ?_⟩
  rw [hzero hblank]
  exact ofWireBytes_replicate_zero width swap

theorem passes_of_skip (h : skip count reader = .ok () next) :
    reader.Passes (Room.bytes count) next := by
  rw [skip, run_bind_eq_ok_iff] at h
  obtain ⟨_, _, hread, h⟩ := h
  obtain ⟨-, rfl⟩ := run_pure_eq_ok_iff.1 h
  exact (passes_of_readBytes hread).2.1

/-- Bytes up to a zero byte are passed with it, and there are none before the first of some
zeros. -/
theorem passes_of_readUntilNul (h : readUntilNul reader = .ok bytes next) :
    reader.Passes (Room.bytes (bytes.length + 1)) next ∧ (reader.Blank → bytes = []) := by
  rw [readUntilNul, run_bind_eq_ok_iff] at h
  obtain ⟨_, _, hreset, h⟩ := h
  cases hreset
  rw [run_bind_eq_ok_iff] at h
  obtain ⟨_, _, hget, h⟩ := h
  obtain ⟨rfl, rfl⟩ := run_get_eq_ok_iff.1 hget
  rw [run_bind_eq_ok_iff] at h
  obtain ⟨all, last, hreceive, h⟩ := h
  obtain ⟨rfl, rfl⟩ := run_pure_eq_ok_iff.1 h
  have hread : readBytes ((reader.source.takeWhile (· != 0)).length + 1) reader = .ok all last :=
    run_bind_eq_ok_iff.2 ⟨(), { reader with active := none }, rfl, hreceive⟩
  refine ⟨(passes_of_readBytes hread).2.1, fun hblank ↦ ?_⟩
  obtain ⟨count, hcount⟩ := hblank.1
  change reader.source.takeWhile _ = []
  rw [hcount, List.takeWhile_replicate, if_neg (by simp)]

/-! ## Bits -/

/-- A container from which no more bits can be taken is no room for them. -/
theorem not_fits_of_filter {width bits : Nat} (hsound : reader.Sound)
    (hfilter : reader.active.filter (·.holds width bits) = none) (own used : Nat)
    (hpending : reader.use = some (own, used)) : ¬ (own = width ∧ used + bits ≤ 8 * own) := by
  intro hfits
  obtain ⟨active, hactive, huse⟩ := Option.map_eq_some_iff.1 hpending
  obtain ⟨rfl, rfl⟩ := Prod.mk.inj huse
  have hsound := hsound active hactive
  have hholds := Container.holds_iff.2 ⟨hfits.1, (by omega : bits ≤ active.bits)⟩
  rw [hactive, Option.filter_some, hholds] at hfilter
  cases hfilter

theorem passes_of_unpack {width bits value : Nat} {swap : Bool} (hbits : bits ≠ 0)
    (h : unpack width bits swap reader = .ok value next) :
    reader.Passes [.bits width bits] next ∧ (reader.Blank → value = 0) := by
  obtain ⟨hcheck, ⟨active, hfilter, -, rfl, rfl⟩ | ⟨hfilter, bytes, middle, hreceive, rfl, rfl⟩⟩ :=
    (unpack_eq_ok_iff hbits).1 h
  · obtain ⟨hactive, hholds⟩ := Option.filter_eq_some_iff.1 hfilter
    obtain ⟨rfl, hle⟩ := Container.holds_iff.1 hholds
    refine ⟨⟨fun hsound ↦ ?_, fun hsound ↦ ⟨[], rfl, fun more ↦ ?_⟩, fun hblank ↦ ⟨hblank.1, ?_⟩⟩,
      fun hblank ↦ ?_⟩
    · rintro _ ⟨⟩
      exact Nat.le_trans (Nat.sub_le ..) (hsound active hactive)
    · have hsound := hsound active hactive
      have huse : 8 * active.width - active.bits + bits =
          8 * active.width - (active.bits - bits) := by
        omega
      rw [use, hactive, Option.map_some, List.singleton_append,
        occupied_bits_of_fits ⟨rfl, by omega⟩, huse, List.length_nil, Nat.zero_add]
      rfl
    · rintro _ ⟨⟩
      change active.word / 2 ^ bits = 0
      rw [hblank.2 active hactive, Nat.zero_div]
    · change active.word % 2 ^ bits = 0
      rw [hblank.2 active hactive, Nat.zero_mod]
  · obtain ⟨rfl, hsource, -⟩ := receiveAll_eq_ok hreceive
    have hle := (Container.check_eq_ok_iff.1 hcheck).2.2
    have hword : reader.Blank → ofWireBytes bytes swap = 0 := by
      intro hblank
      have hbytes : bytes = List.replicate bytes.length 0 :=
        (Blank.replicate_of_append (hsource ▸ hblank.1)).1
      rw [hbytes]
      exact ofWireBytes_replicate_zero _ _
    refine ⟨⟨fun _ ↦ ?_, fun hsound ↦ ⟨bytes, hsource, fun more ↦ ?_⟩, fun hblank ↦ ⟨?_, ?_⟩⟩,
      fun hblank ↦ ?_⟩
    · rintro _ ⟨⟩
      exact Nat.sub_le ..
    · have huse : 8 * bytes.length - (8 * bytes.length - bits) = bits := by omega
      rw [List.singleton_append, occupied_bits_of_not_fits (not_fits_of_filter hsound hfilter)]
      change _ = _ + occupied (some (bytes.length, 8 * bytes.length -
        (8 * bytes.length - bits))) more
      rw [huse]
    · exact (Blank.replicate_of_append (hsource ▸ hblank.1)).2
    · rintro _ ⟨⟩
      change ofWireBytes bytes swap / 2 ^ bits = 0
      rw [hword hblank, Nat.zero_div]
    · change ofWireBytes bytes swap % 2 ^ bits = 0
      rw [hword hblank, Nat.zero_mod]

/-! ## Least room -/

/-- The reader has gone over no less than some room, and over no more if it has read zeros. -/
def Takes (reader : Reader) (least : List Room) (zero : Prop) (next : Reader) : Prop :=
  ∃ rooms, reader.Passes rooms next ∧ least.Sublist rooms ∧ (reader.Blank → zero → rooms = least)

namespace Takes

variable {least : List Room} {zero zero' : Prop}

theorem of_passes (h : reader.Passes rooms next) : reader.Takes rooms zero next :=
  ⟨rooms, h, List.Sublist.refl rooms, fun _ _ ↦ rfl⟩

theorem trans (h : reader.Takes least zero middle) (hmore : middle.Takes more zero' next)
    (hzero : reader.Blank → zero → zero') : reader.Takes (least ++ more) zero next := by
  obtain ⟨first, hfirst, hleast, hexact⟩ := h
  obtain ⟨second, hsecond, hmore, hexact'⟩ := hmore
  refine ⟨first ++ second, hfirst.trans hsecond, hleast.append hmore, fun hreader hown ↦ ?_⟩
  rw [hexact hreader hown, hexact' (hfirst.blank hreader) (hzero hreader hown)]

end Takes

end Reader

end WireFormat
