import Mathlib.Data.List.Perm.Basic
import Mathlib.Data.List.Nodup
import WireFormat.Descriptor.Analysis
import WireFormat.Proofs.Outcome

/-!
# Putting a record together

`Layout.assemble` checks the fields of a record against each other, one after the other and with
what it has seen so far in hand.  This file says what it takes for that to succeed and what then
comes out.
-/

namespace WireFormat

/-! ## Repeated keys -/

theorem Option.eq_none_of_forall_pair_ne {α β : Type} {found : Option (α × β)}
    (h : ∀ a b, found = some (a, b) → False) : found = none := by
  cases found with
  | none => rfl
  | some pair => exact (h pair.1 pair.2 rfl).elim

/-- No key is met twice exactly if the keys are distinct and none has been seen before. -/
theorem firstRepeated?_eq_none_iff {α κ : Type} [DecidableEq κ] {key? : α → Option κ}
    {seen : List κ} {elements : List α} : firstRepeated? key? seen elements = none ↔
      (elements.filterMap key?).Nodup ∧ ∀ key ∈ elements.filterMap key?, key ∉ seen := by
  induction elements generalizing seen with
  | nil => simp [firstRepeated?]
  | cons element rest ih =>
    rw [firstRepeated?]
    cases hkey : key? element with
    | none => simp [hkey, ih]
    | some key =>
      by_cases hseen : key ∈ seen
      · simp [hkey, hseen]
      · simp only [hseen, if_false, ih, List.filterMap_cons, hkey, List.nodup_cons, List.mem_cons,
          not_or]
        constructor
        · rintro ⟨hnodup, hfresh⟩
          refine ⟨⟨fun hmem ↦ (hfresh key hmem).1 rfl, hnodup⟩, ?_⟩
          rintro other (rfl | hmem)
          · exact hseen
          · exact (hfresh other hmem).2
        · rintro ⟨⟨hnew, hnodup⟩, hfresh⟩
          refine ⟨hnodup, fun other hmem ↦ ⟨?_, hfresh other (.inr hmem)⟩⟩
          rintro rfl
          exact hnew hmem

theorem filterMap_cons_eq {α β : Type} {f : α → Option β} {a : α} {rest : List α} :
    (a :: rest).filterMap f = (f a).toList ++ rest.filterMap f := by
  rw [List.filterMap_cons]
  cases f a <;> rfl

/-- One more key is met without having been seen. -/
theorem nodup_toList_append_iff {κ : Type} {key? : Option κ} {keys seen : List κ} :
    ((key?.toList ++ keys).Nodup ∧ ∀ key ∈ key?.toList ++ keys, key ∉ seen) ↔
      (∀ key ∈ key?, key ∉ seen) ∧ keys.Nodup ∧ ∀ key ∈ keys, key ∉ key?.toList ++ seen := by
  cases key? with
  | none => simp
  | some key =>
    simp only [Option.toList_some, List.cons_append, List.nil_append, List.nodup_cons,
      List.mem_cons, forall_eq_or_imp, not_or, Option.mem_some_iff, forall_eq']
    constructor
    · rintro ⟨⟨hnew, hkeys⟩, hkey, hseen⟩
      refine ⟨hkey, hkeys, fun other hmem ↦ ⟨?_, hseen other hmem⟩⟩
      rintro rfl
      exact hnew hmem
    · rintro ⟨hkey, hkeys, hseen⟩
      exact ⟨⟨fun hmem ↦ (hseen key hmem).1 rfl, hkeys⟩, hkey, fun other hmem ↦
        (hseen other hmem).2⟩

/-! ## The order of the wire -/

/-- The resolved fields of a record in the order of the wire. -/
def ResolvedField.sort (resolved : List ResolvedField) : List ResolvedField :=
  resolved.mergeSort fun first second ↦ decide (first.order ≤ second.order)

theorem ResolvedField.sort_perm (resolved : List ResolvedField) :
    (ResolvedField.sort resolved).Perm resolved := List.mergeSort_perm ..

theorem ResolvedField.sort_pairwise (resolved : List ResolvedField) :
    (ResolvedField.sort resolved).Pairwise fun first second ↦ first.order ≤ second.order := by
  let le : ResolvedField → ResolvedField → Bool := fun first second ↦
    decide (first.order ≤ second.order)
  have htrans : ∀ a b c, le a b → le b c → le a c := fun a b c hab hbc ↦ by simp [le] at *; omega
  have htotal : ∀ a b, le a b || le b a := fun a b ↦ by simp [le]; omega
  exact (List.pairwise_mergeSort htrans htotal resolved).imp fun hle ↦ by simpa [le] using hle

theorem ResolvedField.sort_pairwise_lt {resolved : List ResolvedField}
    (h : (resolved.map ResolvedField.order).Nodup) :
    (ResolvedField.sort resolved).Pairwise fun first second ↦ first.order < second.order := by
  rw [← ((ResolvedField.sort_perm resolved).map _).nodup_iff, List.Nodup, List.pairwise_map] at h
  exact ((ResolvedField.sort_pairwise resolved).and h).imp fun hlt ↦ Nat.lt_of_le_of_ne hlt.1 hlt.2

/-- What it takes for the fields of a record to go together, and what comes out. -/
theorem Layout.assemble_eq_ok_iff {name : String} {byteOrder : ByteOrder} {declared : List Field}
    {resolved : List ResolvedField} {descriptor : Descriptor} :
    Layout.assemble name byteOrder declared resolved = .ok descriptor ↔
      (declared.map Field.name).Nodup ∧ (resolved.map ResolvedField.order).Nodup ∧
      (resolved.filterMap fun entry ↦ entry.field.lengthOf).Nodup ∧
      ∃ analysis, RecordAnalysis.addFields name {} (ResolvedField.sort resolved) = .ok analysis ∧
        analysis.toDescriptor name byteOrder = descriptor := by
  have hperm := ResolvedField.sort_perm resolved
  have hnames : firstRepeated? (fun field : Field ↦ some field.name) [] declared = none ↔
      (declared.map Field.name).Nodup := by
    simp [firstRepeated?_eq_none_iff, List.filterMap_eq_map']
  have horders : firstRepeated? (fun entry : ResolvedField ↦ some entry.order) []
      (ResolvedField.sort resolved) = none ↔ (resolved.map ResolvedField.order).Nodup := by
    simp [firstRepeated?_eq_none_iff, List.filterMap_eq_map', (hperm.map _).nodup_iff]
  have hlengths : firstRepeated? (fun entry : ResolvedField ↦ entry.field.lengthOf) []
      (ResolvedField.sort resolved) = none ↔
        (resolved.filterMap fun entry ↦ entry.field.lengthOf).Nodup := by
    simp [firstRepeated?_eq_none_iff, (hperm.filterMap _).nodup_iff]
  rw [← hnames, ← horders, ← hlengths]
  unfold Layout.assemble ResolvedField.sort
  dsimp only
  split
  · next field key hfound => simp [hfound]
  · next hnone =>
    rw [Option.eq_none_of_forall_pair_ne hnone, eq_self, true_and]
    split
    · next entry order hfound => simp [hfound]
    · next hnone =>
      rw [Option.eq_none_of_forall_pair_ne hnone, eq_self, true_and]
      split
      · next entry key hfound => simp [hfound]
      · next hnone =>
        rw [Option.eq_none_of_forall_pair_ne hnone, eq_self, true_and, bind_eq_ok_iff]
        simp only [pure_eq_ok_iff]

/-! ## Containers and runs -/

namespace Descriptor

/-- The descriptor with another container, if it is that of a bit field. -/
def withContainer (descriptor : Descriptor) (container : Nat) : Descriptor :=
  match descriptor.kind with
  | .bits content repr width _ => { descriptor with kind := .bits content repr width container }
  | _ => descriptor

theorem exists_withContainer_eq (descriptor : Descriptor) :
    ∃ container, descriptor.withContainer container = descriptor := by
  obtain ⟨kind, byteOrder, hasFixedSize, minSize⟩ := descriptor
  cases kind with
  | bits content repr width container => exact ⟨container, rfl⟩
  | _ => exact ⟨0, rfl⟩

theorem withContainer_of_bitWidth?_eq_none {descriptor : Descriptor}
    (h : descriptor.bitWidth? = none) (container : Nat) :
    descriptor.withContainer container = descriptor := by
  obtain ⟨kind, byteOrder, hasFixedSize, minSize⟩ := descriptor
  cases kind with
  | bits => cases h
  | _ => rfl

@[simp] theorem withContainer_byteOrder (descriptor : Descriptor) (container : Nat) :
    (descriptor.withContainer container).byteOrder = descriptor.byteOrder := by
  unfold withContainer
  split <;> rfl

@[simp] theorem withContainer_hasFixedSize (descriptor : Descriptor) (container : Nat) :
    (descriptor.withContainer container).hasFixedSize = descriptor.hasFixedSize := by
  unfold withContainer
  split <;> rfl

@[simp] theorem withContainer_minSize (descriptor : Descriptor) (container : Nat) :
    (descriptor.withContainer container).minSize = descriptor.minSize := by
  unfold withContainer
  split <;> rfl

@[simp] theorem withContainer_lengthKey? (descriptor : Descriptor) (container : Nat) :
    (descriptor.withContainer container).lengthKey? = descriptor.lengthKey? := by
  obtain ⟨kind, byteOrder, hasFixedSize, minSize⟩ := descriptor
  cases kind <;> rfl

@[simp] theorem withContainer_bitWidth? (descriptor : Descriptor) (container : Nat) :
    (descriptor.withContainer container).bitWidth? = descriptor.bitWidth? := by
  obtain ⟨kind, byteOrder, hasFixedSize, minSize⟩ := descriptor
  cases kind <;> rfl

@[simp] theorem withContainer_carriesLength (descriptor : Descriptor) (container : Nat) :
    (descriptor.withContainer container).kind.carriesLength = descriptor.kind.carriesLength := by
  obtain ⟨kind, byteOrder, hasFixedSize, minSize⟩ := descriptor
  cases kind with
  | bits content repr width own => cases content <;> rfl
  | _ => rfl

end Descriptor

namespace RecordAnalysis

/-- A bit field with some bits goes on with the run or begins one; anything else ends it. -/
theorem track_cases {runs next : Runs} {descriptor tracked : Descriptor}
    (h : track runs descriptor = .ok (tracked, next)) :
    ((∀ width ∈ descriptor.bitWidth?, width = 0) ∧ tracked = descriptor ∧ next = runs.close) ∨
      ∃ content repr width own container, descriptor.kind = .bits content repr width own ∧
        width ≠ 0 ∧ runs.add repr.width width descriptor.byteOrder = .ok (container, next) ∧
        tracked = descriptor.withContainer container := by
  obtain ⟨kind, byteOrder, hasFixedSize, minSize⟩ := descriptor
  cases kind with
  | bits content repr width own =>
    by_cases hwidth : width = 0
    · subst hwidth
      simp only [track, if_true, Except.ok.injEq, Prod.mk.injEq] at h
      exact .inl ⟨by simp [Descriptor.bitWidth?], h.1.symm, h.2.symm⟩
    · simp only [track, hwidth, if_false, bind_eq_ok_iff, pure_eq_ok_iff, Prod.mk.injEq] at h
      obtain ⟨⟨container, runs'⟩, hadd, rfl, rfl⟩ := h
      exact .inr ⟨content, repr, width, own, container, rfl, hwidth, hadd, rfl⟩
  | _ =>
    simp only [track, Except.ok.injEq, Prod.mk.injEq] at h
    exact .inl ⟨by simp [Descriptor.bitWidth?], h.1.symm, h.2.symm⟩

/-- Following a run changes nothing of a descriptor but its container, and following it once more
changes nothing at all. -/
theorem track_eq_ok {runs next : Runs} {descriptor tracked : Descriptor}
    (h : track runs descriptor = .ok (tracked, next)) :
    (∃ container, tracked = descriptor.withContainer container) ∧
      track runs tracked = .ok (tracked, next) := by
  rcases track_cases h with ⟨-, rfl, -⟩ |
    ⟨content, repr, width, own, container, hkind, hwidth, hadd, rfl⟩
  · obtain ⟨container, hcontainer⟩ := tracked.exists_withContainer_eq
    exact ⟨⟨container, hcontainer.symm⟩, h⟩
  · refine ⟨⟨container, rfl⟩, ?_⟩
    simp only [Descriptor.withContainer, hkind, track, hwidth, if_false, hadd]
    rfl

/-- What becomes of the descriptor of a field and of the runs when the field is added. -/
def Tracks (runs : Runs) (field : Field) (descriptor tracked : Descriptor) (next : Runs) : Prop :=
  if field.serialize then
    ∃ after, track runs descriptor = .ok (tracked, after) ∧
      next = if field.padAfter then after.close else after
  else
    tracked = descriptor ∧ next = runs

/-- What is known of a record after one more field, whose descriptor has been followed. -/
def grow (analysis : RecordAnalysis) (order : Nat) (field : Field) (consumed : List String)
    (tracked : Descriptor) (next : Runs) : RecordAnalysis where
  fields := analysis.fields ++ [⟨field.name, order, tracked, field.serialize, field.lengthOf,
    field.padAfter⟩]
  consumed := consumed
  runs := next
  hasFixedSize := analysis.hasFixedSize && (!field.serialize || tracked.hasFixedSize)
  minSize := analysis.minSize + if field.serialize then tracked.minSize else 0

private theorem tracked_eq_ok_iff {analysis result : RecordAnalysis} {order : Nat} {field : Field}
    {descriptor : Descriptor} {consumed : List String} :
    (if field.serialize then do
      let (tracked, after) ← track analysis.runs descriptor
      return {
        fields := analysis.fields ++ [⟨field.name, order, tracked, field.serialize, field.lengthOf,
          field.padAfter⟩]
        consumed := consumed
        runs := if field.padAfter then after.close else after
        hasFixedSize := analysis.hasFixedSize && tracked.hasFixedSize
        minSize := analysis.minSize + tracked.minSize }
    else
      return { analysis with
        fields := analysis.fields ++ [⟨field.name, order, descriptor, field.serialize,
          field.lengthOf, field.padAfter⟩]
        consumed := consumed } : Except LayoutFault RecordAnalysis) = .ok result ↔
      ∃ tracked next, Tracks analysis.runs field descriptor tracked next ∧
        result = analysis.grow order field consumed tracked next := by
  unfold Tracks grow
  cases hserialize : field.serialize with
  | false =>
    simp only [Bool.false_eq_true, if_false, pure_eq_ok_iff]
    constructor
    · rintro rfl
      exact ⟨descriptor, analysis.runs, ⟨rfl, rfl⟩, by simp⟩
    · rintro ⟨_, _, ⟨rfl, rfl⟩, rfl⟩
      simp
  | true =>
    simp only [if_true, bind_eq_ok_iff, pure_eq_ok_iff, Bool.not_true, Bool.false_or]
    constructor
    · rintro ⟨⟨tracked, after⟩, htrack, rfl⟩
      exact ⟨tracked, _, ⟨after, htrack, rfl⟩, rfl⟩
    · rintro ⟨tracked, _, ⟨after, htrack, rfl⟩, rfl⟩
      exact ⟨⟨tracked, after⟩, htrack, rfl⟩

/-- What it takes to add a field, and what then is known of the record. -/
theorem addField_eq_ok_iff {analysis result : RecordAnalysis} {order : Nat} {field : Field}
    {descriptor : Descriptor} : analysis.addField order field descriptor = .ok result ↔
      (∀ key ∈ descriptor.lengthKey?, key ∉ analysis.consumed) ∧
      (field.lengthOf.isSome → descriptor.kind.carriesLength) ∧
      ∃ tracked next, Tracks analysis.runs field descriptor tracked next ∧
        result = analysis.grow order field (descriptor.lengthKey?.toList ++ analysis.consumed)
          tracked next := by
  rw [← tracked_eq_ok_iff]
  unfold addField
  dsimp only
  cases hkey : descriptor.lengthKey? with
  | none =>
    cases hlength : field.lengthOf with
    | none => simp
    | some carried => cases hcarries : descriptor.kind.carriesLength <;> simp
  | some key =>
    by_cases hmem : key ∈ analysis.consumed
    · simp [hmem]
    · cases hlength : field.lengthOf with
      | none => simp [hmem]
      | some carried => cases hcarries : descriptor.kind.carriesLength <;> simp [hmem]

@[simp] theorem addFields_nil {typeName : String} {analysis : RecordAnalysis} :
    addFields typeName analysis [] = .ok analysis := rfl

theorem addFields_cons_eq_ok_iff {typeName : String} {analysis result : RecordAnalysis}
    {entry : ResolvedField} {rest : List ResolvedField} :
    addFields typeName analysis (entry :: rest) = .ok result ↔
      ∃ descriptor next, entry.outcome = .ok descriptor ∧
        analysis.addField entry.order entry.field descriptor = .ok next ∧
        addFields typeName next rest = .ok result := by
  simp only [addFields, List.foldlM_cons, bind_eq_ok_iff, mapError_eq_ok_iff]
  constructor
  · rintro ⟨next, ⟨descriptor, houtcome, hadd⟩, hrest⟩
    exact ⟨descriptor, next, houtcome, hadd, hrest⟩
  · rintro ⟨descriptor, next, houtcome, hadd, hrest⟩
    exact ⟨next, ⟨descriptor, houtcome, hadd⟩, hrest⟩

end RecordAnalysis

end WireFormat
