import Mathlib.Algebra.BigOperators.Fin
import WireFormat.Proofs.Stream.Making

/-!
# Where packed bits are

Numbers that are packed one after the other fill containers of one width from the lowest bit on.  A
container takes as many numbers as it has room for, so the numbers fall into groups from left to
right, and each container is the sum of the numbers of its group, each at the place where the ones
before it end.

* `Packer.Call`, `Packer.runAll` — calls of a packer one after the other, and the bytes that go out;
* `Greedy` — the groups, each the longest one that has room; there is one way to form them;
* `Piece.number` — the number of a container by the places of its parts;
* `Packer.runAll_pieces` — what goes out are the containers of the groups.
-/

namespace WireFormat

/-! ## Calls -/

namespace Packer

/-- A call of a packer. -/
inductive Call where
  | pack (value width bits : Nat) (swap : Bool)
  | flush
deriving DecidableEq, Repr

/-- The bytes that go out with a call, and the packer after it. -/
def Call.run (packer : Packer) : Call → Except DataError (List UInt8 × Packer)
  | pack value width bits swap => packer.pack value width bits swap
  | flush => .ok (packer.pending, {})

/-- The bytes that go out with some calls, one after the other, and the packer after them. -/
def runAll (packer : Packer) : List Call → Except DataError (List UInt8 × Packer)
  | [] => .ok ([], packer)
  | call :: rest => do
    let (bytes, packer) ← call.run packer
    let (more, packer) ← runAll packer rest
    return (bytes ++ more, packer)

theorem runAll_cons {packer next last : Packer} {call : Call} {rest : List Call}
    {bytes more : List UInt8} (hcall : call.run packer = .ok (bytes, next))
    (hrest : runAll next rest = .ok (more, last)) :
    runAll packer (call :: rest) = .ok (bytes ++ more, last) := by
  rw [runAll, hcall]
  change (runAll next rest >>= _) = _
  rw [hrest]
  rfl

end Packer

/-! ## Pieces -/

/-- A number with the bits that it takes of a container. -/
structure Piece where
  value : Nat
  bits : Nat
deriving DecidableEq, Repr

namespace Piece

/-- A number can lie in a container of `width` bytes: it takes at least one bit, not more than the
container has, and fits in as many as it takes. -/
structure Fits (width : Nat) (piece : Piece) : Prop where
  pos : 1 ≤ piece.bits
  le : piece.bits ≤ 8 * width
  lt : piece.value < 2 ^ piece.bits

/-- The call that packs a number into containers of `width` bytes. -/
def call (width : Nat) (swap : Bool) (piece : Piece) : Packer.Call :=
  .pack piece.value width piece.bits swap

/-- The bits that some numbers take together. -/
def total (pieces : List Piece) : Nat := (pieces.map bits).sum

/-- The number that is made up of some numbers, each above those before it. -/
def number (pieces : List Piece) : Nat :=
  ∑ i : Fin pieces.length, pieces[i].value * 2 ^ total (pieces.take i)

variable {width : Nat} {piece : Piece} {pieces more : List Piece}

theorem total_append (pieces more : List Piece) :
    total (pieces ++ more) = total pieces + total more := by
  rw [total, List.map_append, List.sum_append, total, total]

theorem total_le_of_prefix (h : pieces <+: more) : total pieces ≤ total more := by
  obtain ⟨rest, rfl⟩ := h
  rw [total_append]
  exact Nat.le_add_right _ _

theorem number_cons (piece : Piece) (pieces : List Piece) :
    number (piece :: pieces) = piece.value + number pieces * 2 ^ piece.bits := by
  have hrest (i : Fin pieces.length) : pieces[i].value * 2 ^ (piece.bits + total (pieces.take i)) =
      pieces[i].value * 2 ^ total (pieces.take i) * 2 ^ piece.bits := by
    rw [Nat.pow_add, Nat.mul_assoc, Nat.mul_comm (2 ^ piece.bits)]
  calc number (piece :: pieces)
      = piece.value * 2 ^ 0 +
          ∑ i : Fin pieces.length, pieces[i].value * 2 ^ (piece.bits + total (pieces.take i)) :=
        Fin.sum_univ_succ _
    _ = piece.value + number pieces * 2 ^ piece.bits := by
        rw [Nat.pow_zero, Nat.mul_one, number, Finset.sum_mul]
        simp only [hrest]

theorem number_append_singleton (pieces : List Piece) (piece : Piece) :
    number (pieces ++ [piece]) = number pieces + piece.value * 2 ^ total pieces := by
  induction pieces with
  | nil => simp [number, total]
  | cons first pieces ih =>
    rw [List.cons_append, number_cons, ih, number_cons, Nat.add_mul, Nat.mul_assoc, ← Nat.pow_add,
      Nat.add_comm (total pieces), Nat.add_assoc]
    rfl

/-- Nothing lies above the bits that the numbers take. -/
theorem number_lt (h : ∀ piece ∈ pieces, piece.value < 2 ^ piece.bits) :
    number pieces < 2 ^ total pieces := by
  induction pieces with
  | nil => simp [number, total]
  | cons piece pieces ih =>
    obtain ⟨hpiece, hpieces⟩ := List.forall_mem_cons.1 h
    rw [number_cons]
    calc piece.value + number pieces * 2 ^ piece.bits
        < (number pieces + 1) * 2 ^ piece.bits := by
          rw [Nat.succ_mul, Nat.add_comm]
          exact Nat.add_lt_add_left hpiece _
      _ ≤ 2 ^ total pieces * 2 ^ piece.bits := Nat.mul_le_mul_right _ (ih hpieces)
      _ = 2 ^ total (piece :: pieces) := by
          rw [← Nat.pow_add, Nat.add_comm]
          rfl

/-- The container of some numbers. -/
def container (width : Nat) (swap : Bool) (pieces : List Piece) : Container :=
  ⟨number pieces, width, total pieces, swap⟩

theorem start_eq_container (width : Nat) (swap : Bool) (piece : Piece) :
    .start piece.value width piece.bits swap = container width swap [piece] := by
  simp [Container.start, container, number, total]

theorem add_container (width : Nat) (swap : Bool) (pieces : List Piece) (piece : Piece) :
    (container width swap pieces).add piece.value piece.bits =
      container width swap (pieces ++ [piece]) := by
  rw [container, container, number_append_singleton, total_append]
  rfl

/-- A container with room goes over the wire as its number, with nothing above the bits taken. -/
theorem bytes_container (swap : Bool) (hroom : total pieces ≤ 8 * width)
    (h : ∀ piece ∈ pieces, piece.value < 2 ^ piece.bits) :
    (container width swap pieces).bytes.length = width ∧
      ofLittleEndian (if swap then (container width swap pieces).bytes.reverse
        else (container width swap pieces).bytes) = number pieces := by
  have hnumber : number pieces < 256 ^ width :=
    calc number pieces < 2 ^ total pieces := number_lt h
      _ ≤ 2 ^ (8 * width) := Nat.pow_le_pow_right (by decide) hroom
      _ = 256 ^ width := Nat.pow_mul 2 8 width
  refine ⟨length_wireBytes _ _ _, ?_⟩
  exact ofLittleEndian_wireBytes hnumber swap

end Piece

/-! ## Groups -/

/-- Some pieces fall into groups from left to right.  A group has room for its pieces, and ends only
where the next piece does not fit any more. -/
inductive Greedy (capacity : Nat) : List Piece → List (List Piece) → Prop
  | nil : Greedy capacity [] []
  | cons {group rest : List Piece} {groups : List (List Piece)} (hne : group ≠ [])
    (hroom : Piece.total group ≤ capacity)
    (hfull : ∀ next ∈ rest.head?, capacity < Piece.total (group ++ [next]))
    (hrest : Greedy capacity rest groups) : Greedy capacity (group ++ rest) (group :: groups)

namespace Greedy

variable {capacity : Nat} {pieces : List Piece} {groups other : List (List Piece)}

/-- Nothing is lost, and nothing changes its place. -/
theorem flatten_eq (h : Greedy capacity pieces groups) : groups.flatten = pieces := by
  induction h with
  | nil => rfl
  | cons _ _ _ _ ih => rw [List.flatten_cons, ih]

theorem total_le (h : Greedy capacity pieces groups) :
    ∀ group ∈ groups, Piece.total group ≤ capacity := by
  induction h with
  | nil => nofun
  | cons _ hroom _ _ ih => exact List.forall_mem_cons.2 ⟨hroom, ih⟩

/-- A group that ends only where the next piece does not fit is not shorter than another one. -/
theorem prefix_of_full {group rest longer : List Piece}
    (hfull : ∀ next ∈ rest.head?, capacity < Piece.total (group ++ [next]))
    (hlonger : longer <+: group ++ rest) (hroom : Piece.total longer ≤ capacity) :
    longer <+: group := by
  rcases List.prefix_or_prefix_of_prefix hlonger (List.prefix_append group rest) with h | h
  · exact h
  · obtain ⟨extra, rfl⟩ := h
    cases extra with
    | nil => rw [List.append_nil]
    | cons next extra =>
      obtain ⟨rest, rfl⟩ := (List.prefix_append_right_inj group).1 hlonger
      have hmore : group ++ [next] <+: group ++ next :: extra :=
        (List.prefix_append_right_inj group).2 ⟨extra, rfl⟩
      have hlt := hfull next rfl
      have hle := Piece.total_le_of_prefix hmore
      omega

/-- There is only one way to form groups. -/
theorem unique (h : Greedy capacity pieces groups) (hother : Greedy capacity pieces other) :
    other = groups := by
  induction h generalizing other with
  | nil =>
    generalize hpieces : [] = pieces at hother
    cases hother with
    | nil => rfl
    | cons hne => exact absurd (List.append_eq_nil_iff.1 hpieces.symm).1 hne
  | @cons group rest groups hne hroom hfull hrest ih =>
    generalize hpieces : group ++ rest = pieces at hother
    cases hother with
    | nil => exact absurd (List.append_eq_nil_iff.1 hpieces).1 hne
    | @cons first last others hfirst hfits hends hlast =>
      have hprefix : first <+: group :=
        prefix_of_full hfull (hpieces ▸ List.prefix_append first last) hfits
      have hsuffix : group <+: first :=
        prefix_of_full hends (hpieces ▸ List.prefix_append group rest) hroom
      obtain rfl := hprefix.eq_of_length_le hsuffix.length_le
      obtain rfl := List.append_cancel_left hpieces
      rw [ih hlast]

end Greedy

/-! ## What goes out -/

namespace Packer

variable {width : Nat} {swap : Bool}

theorem run_call_of_le (hleast : 1 ≤ width) (hmost : width ≤ 8) {piece : Piece}
    (hpiece : piece.Fits width) {group : List Piece}
    (hroom : Piece.total group + piece.bits ≤ 8 * width) :
    (piece.call width swap).run ⟨some (Piece.container width swap group)⟩ =
      .ok ([], ⟨some (Piece.container width swap (group ++ [piece]))⟩) := by
  rw [← Piece.add_container]
  apply pack_of_hasRoom (Container.check_eq_ok_iff.2 ⟨hleast, hmost, hpiece.le⟩) hpiece.lt
    (Nat.pos_iff_ne_zero.1 hpiece.pos)
  · exact Container.hasRoom_iff.2 ⟨rfl, hroom⟩
  · rfl

theorem run_call_of_full (hleast : 1 ≤ width) (hmost : width ≤ 8) {piece : Piece}
    (hpiece : piece.Fits width) {packer : Packer}
    (hfull : ∀ active ∈ packer.active, active.hasRoom width piece.bits = false) :
    (piece.call width swap).run packer =
      .ok (packer.pending, ⟨some (Piece.container width swap [piece])⟩) := by
  rw [← Piece.start_eq_container]
  exact pack_of_full (Container.check_eq_ok_iff.2 ⟨hleast, hmost, hpiece.le⟩) hpiece.lt
    (Nat.pos_iff_ne_zero.1 hpiece.pos) hfull

/-- The pieces that are still to come join the ones of the open container as long as there is room,
and make up containers of their own from there on. -/
theorem runAll_of_open (hleast : 1 ≤ width) (hmost : width ≤ 8) {pieces : List Piece}
    (hpieces : ∀ piece ∈ pieces, piece.Fits width) {group : List Piece} (hne : group ≠ [])
    (hroom : Piece.total group ≤ 8 * width) :
    ∃ groups, Greedy (8 * width) (group ++ pieces) groups ∧
      runAll ⟨some (Piece.container width swap group)⟩
          (pieces.map (Piece.call width swap) ++ [.flush]) =
        .ok (groups.flatMap fun group ↦ (Piece.container width swap group).bytes, {}) := by
  induction pieces generalizing group with
  | nil =>
    refine ⟨[group], .cons hne hroom nofun .nil, ?_⟩
    rw [List.flatMap_cons]
    exact runAll_cons rfl rfl
  | cons piece rest ih =>
    obtain ⟨hpiece, hrest⟩ := List.forall_mem_cons.1 hpieces
    by_cases hfits : Piece.total group + piece.bits ≤ 8 * width
    · -- The piece goes into the open container.
      have hmore : Piece.total (group ++ [piece]) ≤ 8 * width := by
        rwa [Piece.total_append]
      obtain ⟨groups, hgroups, hrun⟩ :=
        ih hrest (List.append_ne_nil_of_right_ne_nil group (List.cons_ne_nil piece [])) hmore
      refine ⟨groups, ?_, ?_⟩
      · rwa [List.append_cons]
      · exact runAll_cons (run_call_of_le hleast hmost hpiece hfits) hrun
    · -- The open container goes out, and the piece opens the next one.
      obtain ⟨groups, hgroups, hrun⟩ := ih hrest (List.cons_ne_nil piece []) hpiece.le
      refine ⟨group :: groups, .cons hne hroom ?_ hgroups, ?_⟩
      · rintro _ ⟨⟩
        rw [Piece.total_append]
        exact Nat.not_le.1 hfits
      · rw [List.flatMap_cons]
        refine runAll_cons (run_call_of_full hleast hmost hpiece ?_) hrun
        rintro _ ⟨⟩
        exact Bool.eq_false_iff.2 fun h ↦ hfits (Container.hasRoom_iff.1 h).2

/-- Numbers that are packed into containers of one width, and flushed, go out as the containers of
their groups: each has the width, and read in its byte order it is the sum of the numbers of its
group, every one at the place where those before it end, with nothing above them. -/
theorem runAll_pieces (hleast : 1 ≤ width) (hmost : width ≤ 8) {pieces : List Piece}
    (hpieces : ∀ piece ∈ pieces, piece.Fits width) :
    ∃ groups containers, Greedy (8 * width) pieces groups ∧
      (∀ other, Greedy (8 * width) pieces other → other = groups) ∧
      runAll {} (pieces.map (Piece.call width swap) ++ [.flush]) = .ok (containers.flatten, {}) ∧
      List.Forall₂ (fun container group ↦ container.length = width ∧
        ofLittleEndian (if swap then container.reverse else container) =
          ∑ i : Fin group.length, group[i].value * 2 ^ ((group.take i).map Piece.bits).sum ∧
        ofLittleEndian (if swap then container.reverse else container) <
          2 ^ (group.map Piece.bits).sum) containers groups := by
  obtain ⟨groups, hgroups, hrun⟩ : ∃ groups, Greedy (8 * width) pieces groups ∧
      runAll {} (pieces.map (Piece.call width swap) ++ [.flush]) =
        .ok (groups.flatMap fun group ↦ (Piece.container width swap group).bytes, {}) := by
    cases pieces with
    | nil => exact ⟨[], .nil, rfl⟩
    | cons piece rest =>
      obtain ⟨hpiece, hrest⟩ := List.forall_mem_cons.1 hpieces
      obtain ⟨groups, hgroups, hrun⟩ :=
        runAll_of_open hleast hmost hrest (List.cons_ne_nil piece []) hpiece.le
      refine ⟨groups, hgroups, runAll_cons (run_call_of_full hleast hmost hpiece ?_) hrun⟩
      rintro _ ⟨⟩
  refine ⟨groups, groups.map fun group ↦ (Piece.container width swap group).bytes, hgroups,
    fun _ ↦ hgroups.unique, ?_, ?_⟩
  · rw [hrun, List.flatMap_def]
  · rw [List.forall₂_map_left_iff, List.forall₂_same]
    intro group hgroup
    have hvalues (piece : Piece) (hpiece : piece ∈ group) : piece.value < 2 ^ piece.bits := by
      apply (hpieces piece _).lt
      rw [← hgroups.flatten_eq]
      exact List.mem_flatten_of_mem hgroup hpiece
    obtain ⟨hlength, hnumber⟩ :=
      Piece.bytes_container swap (hgroups.total_le group hgroup) hvalues
    refine ⟨hlength, hnumber, ?_⟩
    rw [hnumber]
    exact Piece.number_lt hvalues

/-- A full container of two bytes, and one more. -/
theorem runAll_pieces_sixteen_bits :
    ∃ groups containers, Greedy (8 * 2) [⟨5, 3⟩, ⟨18, 9⟩, ⟨1, 4⟩, ⟨1, 1⟩] groups ∧
      (∀ other, Greedy (8 * 2) [⟨5, 3⟩, ⟨18, 9⟩, ⟨1, 4⟩, ⟨1, 1⟩] other → other = groups) ∧
      runAll {} [.pack 5 2 3 true, .pack 18 2 9 true, .pack 1 2 4 true, .pack 1 2 1 true, .flush] =
        .ok (containers.flatten, {}) ∧
      List.Forall₂ (fun container group ↦ container.length = 2 ∧
        ofLittleEndian (if true then container.reverse else container) =
          ∑ i : Fin group.length, group[i].value * 2 ^ ((group.take i).map Piece.bits).sum ∧
        ofLittleEndian (if true then container.reverse else container) <
          2 ^ (group.map Piece.bits).sum) containers groups :=
  runAll_pieces (by decide) (by decide) (by
    simp only [List.forall_mem_cons]
    exact ⟨⟨by decide, by decide, by decide⟩, ⟨by decide, by decide, by decide⟩,
      ⟨by decide, by decide, by decide⟩, ⟨by decide, by decide, by decide⟩, nofun⟩)

example : runAll {} [.pack 5 2 3 true, .pack 18 2 9 true, .pack 1 2 4 true, .pack 1 2 1 true,
    .flush] = .ok ([0x10, 0x95, 0x00, 0x01], {}) := by decide

end Packer
end WireFormat
