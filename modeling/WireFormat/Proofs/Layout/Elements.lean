import WireFormat.Proofs.Length.Compilation
import WireFormat.Proofs.Size.Promise

/-!
# Elements of lists

The elements of a list are never bit fields, and a list among them takes no length, since the length
would have to come from outside the element.  So every element ends the container at hand.

* `Layout.everywhere_holdsWhole` — no element is a bit field;
* `Descriptor.endsContainer_of_mem_element?` — every element ends the container.
-/

namespace WireFormat

/-- What a list holds is no bit field. -/
def Descriptor.HoldsWhole (descriptor : Descriptor) : Prop :=
  ∀ element ∈ descriptor.element?, element.bitWidth? = none

/-- No element of a list in a layout is a bit field. -/
theorem Layout.everywhere_holdsWhole {layout : Layout} {descriptor : Descriptor}
    (h : layout.describe = .ok descriptor) : descriptor.Everywhere Descriptor.HoldsWhole := by
  refine layout.everywhere_describeWithin (fun _ _ _ _ _ hyields hrecord ↦ ?_) (fun _ _ _ _ _ _ ↦ ?_)
    (fun _ ↦ ?_) _ _ _ h
  · cases hyields with
    | list hpolicy helement =>
      rintro _ ⟨⟩
      exact helement.bitWidth?_eq
    | record hplain hinner =>
      obtain ⟨fields, hkind⟩ := Layout.describeWithin_kind hinner
      exact (hrecord _ _ hkind).elim
    | _ => rintro _ ⟨⟩
  · rintro _ ⟨⟩
  · rintro _ ⟨⟩

namespace Descriptor

/-- A list that asks for no length has slots. -/
theorem isSome_slots?_of_demands {size : SizePolicy String}
    (h : ∀ demand ∈ size.demands .elements, Lends demand.key demand.chain) :
    size.slots?.isSome := by
  cases size with
  | fixed slots => rfl
  | keyed key | padded key =>
    have hlends := h ⟨[], key, .elements⟩ (mem_policy_demands_iff.2 ⟨rfl, rfl, rfl⟩)
    generalize hchain : ([] : List Enclosure) = chain at hlends
    cases hlends
    simp at hchain

/-- Every element of a list ends the container. -/
theorem endsContainer_of_mem_element? {descriptor element : Descriptor}
    (hwhole : descriptor.Everywhere HoldsWhole) (hsettled : descriptor.Settled)
    (hmem : element ∈ descriptor.element?) : element.endsContainer := by
  induction descriptor using Descriptor.induction generalizing element with
  | step descriptor ihelement _ =>
    have hbits := hwhole.here element hmem
    have hinside (inner : Descriptor) (h : element.Settled) (hinner : inner ∈ element.element?) :
        inner.endsContainer := ihelement element hmem (hwhole.of_element hmem) h hinner
    obtain ⟨kind, byteOrder, hasFixedSize, minSize⟩ := descriptor
    cases kind with
    | list own size =>
      cases hmem
      obtain ⟨helement, hlent⟩ := settled_list_iff.1 hsettled
      obtain ⟨kind, byteOrder, hasFixedSize, minSize⟩ := element
      cases kind with
      | list inner size =>
        exact Bool.and_eq_true_iff.2 ⟨isSome_slots?_of_demands hlent, hinside _ helement rfl⟩
      | bits => cases hbits
      | _ => rfl
    | _ => cases hmem

end Descriptor

end WireFormat
