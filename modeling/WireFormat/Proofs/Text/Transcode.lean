import Mathlib.Data.List.TakeWhile
import WireFormat.Proofs.Value.Word
import WireFormat.Text.Transcode

/-!
# Texts are read back

* `Encoding.decode_encode` — a text is read back from its bytes;
* `Encoding.encodedLength_eq_of_encode` — the length of a text is the number of its bytes;
* `Encoding.zero_notMem_of_encode` — a text without NUL has no zero byte, where zero bytes can mark
  the end of a text;
* `Encoding.encode_untilNul` — and otherwise the bytes before the first zero byte are those of the
  text before the first NUL.
-/

namespace WireFormat

namespace Unicode

variable {char : Char} {chars : List Char}

theorem units_lt {unit : Nat} (h : unit ∈ units char) : unit < 0x10000 := by
  have hlt : char.toNat < 0x110000 := by
    rcases char.valid with h | ⟨-, h⟩
    · exact Nat.lt_trans h (by decide)
    · exact h
  rw [units] at h
  split at h
  · next hsmall =>
    rw [List.mem_singleton.1 h]
    exact hsmall
  · simp only [List.mem_cons, List.not_mem_nil, or_false] at h
    omega

theorem ofScalar?_toNat (char : Char) : ofScalar? char.toNat = some char := by
  have hvalid : char.toNat.isValidChar := char.valid
  rw [ofScalar?, if_pos hvalid, Char.ofNat_toNat]

theorem ofUnits?_append_units (char : Char) (rest : List Nat) :
    ofUnits? (units char ++ rest) = (ofUnits? rest).map (char :: ·) := by
  have hvalid := char.valid
  have hbind : ∀ result : Option (List Char),
      (do return char :: (← result)) = result.map (char :: ·) := by
    intro result
    cases result <;> rfl
  rw [units]
  split
  · next hsmall =>
    have hhigh : isHighSurrogate char.toNat = false := by
      simp only [isHighSurrogate, Bool.and_eq_false_imp, decide_eq_true_eq, decide_eq_false_iff_not]
      rcases hvalid with h | ⟨h, -⟩
      · change char.toNat < _ at h
        omega
      · change _ < char.toNat at h
        omega
    rw [List.singleton_append, ofUnits?.eq_def]
    dsimp only
    rw [hhigh, if_neg (by simp), ofScalar?_toNat]
    exact hbind _
  · next hlarge =>
    have hlt : char.toNat < 0x110000 := by
      rcases hvalid with h | ⟨-, h⟩
      · exact Nat.lt_trans h (by decide)
      · exact h
    have hhigh : isHighSurrogate (0xD800 + (char.toNat - 0x10000) / 0x400) = true := by
      simp only [isHighSurrogate, Bool.and_eq_true, decide_eq_true_eq]
      omega
    have hlow : isLowSurrogate (0xDC00 + (char.toNat - 0x10000) % 0x400) = true := by
      simp only [isLowSurrogate, Bool.and_eq_true, decide_eq_true_eq]
      omega
    have hvalue : 0x10000 + (0xD800 + (char.toNat - 0x10000) / 0x400 - 0xD800) * 0x400 +
        (0xDC00 + (char.toNat - 0x10000) % 0x400 - 0xDC00) = char.toNat := by omega
    simp only [List.cons_append, List.nil_append]
    rw [ofUnits?.eq_def]
    dsimp only
    rw [if_pos hhigh, if_pos hlow, hvalue, ofScalar?_toNat]
    exact hbind _

/-- Characters are read back from their code units. -/
theorem ofUnits?_flatMap_units (chars : List Char) :
    ofUnits? (chars.flatMap units) = some chars := by
  induction chars with
  | nil => rfl
  | cons char chars ih => rw [List.flatMap_cons, ofUnits?_append_units, ih, Option.map_some]

theorem mapM_ofScalar?_toNat (chars : List Char) :
    (chars.map Char.toNat).mapM ofScalar? = some chars := by
  induction chars with
  | nil => rfl
  | cons char chars ih => rw [List.map_cons, List.mapM_cons, ofScalar?_toNat, ih]; rfl

end Unicode

namespace Encoding

variable {encoding : Encoding} {text : String} {bytes : List UInt8}

/-! ## Words -/

theorem words16?_flatMap_wireBytes (order : ByteOrder) {units : List Nat}
    (h : ∀ unit ∈ units, unit < 0x10000) :
    words16? order (units.flatMap fun unit ↦ wireBytes 2 unit (order.reverses 2)) = some units := by
  induction units with
  | nil => rfl
  | cons unit units ih =>
    obtain ⟨hunit, hunits⟩ := List.forall_mem_cons.1 h
    have hword : ofWireBytes (wireBytes 2 unit (order.reverses 2)) (order.reverses 2) = unit :=
      ofWireBytes_wireBytes hunit _
    have hlength := length_wireBytes 2 unit (order.reverses 2)
    rw [List.flatMap_cons]
    generalize wireBytes 2 unit (order.reverses 2) = word at hword hlength
    obtain ⟨first, second, rfl⟩ := List.length_eq_two.1 hlength
    simp only [List.cons_append, List.nil_append]
    rw [words16?, ih hunits, hword, Option.map_some]

theorem words32?_flatMap_wireBytes (order : ByteOrder) {values : List Nat}
    (h : ∀ value ∈ values, value < 0x100000000) :
    words32? order (values.flatMap fun value ↦ wireBytes 4 value (order.reverses 4)) =
      some values := by
  induction values with
  | nil => rfl
  | cons value values ih =>
    obtain ⟨hvalue, hvalues⟩ := List.forall_mem_cons.1 h
    have hword : ofWireBytes (wireBytes 4 value (order.reverses 4)) (order.reverses 4) = value :=
      ofWireBytes_wireBytes hvalue _
    have hlength := length_wireBytes 4 value (order.reverses 4)
    rw [List.flatMap_cons]
    generalize wireBytes 4 value (order.reverses 4) = word at hword hlength
    obtain ⟨first, tail, rfl⟩ := List.exists_cons_of_length_eq_add_one hlength
    obtain ⟨second, third, fourth, rfl⟩ := List.length_eq_three.1 (Nat.succ.inj hlength)
    simp only [List.cons_append, List.nil_append]
    rw [words32?, ih hvalues, hword, Option.map_some]

/-! ## Single bytes -/

theorem toList_toUTF8 (text : String) :
    text.toUTF8.data.toList = text.toList.flatMap String.utf8EncodeChar := by
  conv_lhs => rw [← String.ofList_toList (s := text)]
  change (String.ofList text.toList).toByteArray.data.toList = _
  rw [String.toByteArray_ofList, List.utf8Encode, List.toList_data_toByteArray]

theorem utf8EncodeChar_of_lt {char : Char} (h : char.toNat < 128) :
    String.utf8EncodeChar char = [UInt8.ofNat char.toNat] := by
  rw [String.utf8EncodeChar]
  exact if_pos (Nat.le_of_lt_succ h)

/-- Only NUL has a zero byte. -/
theorem eq_nul_of_zero_mem {char : Char} (h : 0 ∈ String.utf8EncodeChar char) :
    char = Char.ofNat 0 := by
  have hzero : ∀ {number : Nat}, number < 256 → 0 = UInt8.ofNat number → number = 0 := by
    intro number hlt h
    have := congrArg UInt8.toNat h
    rw [UInt8.toNat_ofNat', Nat.mod_eq_of_lt hlt] at this
    exact this.symm
  rw [String.utf8EncodeChar] at h
  split at h
  · next hle =>
    have := hzero (Nat.lt_of_le_of_lt hle (by decide)) (List.mem_singleton.1 h)
    rw [← Char.ofNat_toNat char]
    exact congrArg Char.ofNat this
  · exfalso
    split at h
    · simp only [List.mem_cons, List.not_mem_nil, or_false] at h
      rcases h with h | h <;> exact absurd (hzero (by omega) h) (by omega)
    · split at h
      · simp only [List.mem_cons, List.not_mem_nil, or_false] at h
        rcases h with h | h | h <;> exact absurd (hzero (by omega) h) (by omega)
      · simp only [List.mem_cons, List.not_mem_nil, or_false] at h
        rcases h with h | h | h | h <;> exact absurd (hzero (by omega) h) (by omega)

theorem flatMap_utf8EncodeChar_of_lt {chars : List Char} (h : ∀ char ∈ chars, char.toNat < 128) :
    chars.flatMap String.utf8EncodeChar = chars.map fun char ↦ UInt8.ofNat char.toNat := by
  induction chars with
  | nil => rfl
  | cons char chars ih =>
    obtain ⟨hchar, hchars⟩ := List.forall_mem_cons.1 h
    rw [List.flatMap_cons, List.map_cons, ih hchars, utf8EncodeChar_of_lt hchar,
      List.singleton_append]

theorem toNat_ofNat_of_lt {char : Char} (h : char.toNat < 128) :
    (UInt8.ofNat char.toNat).toNat = char.toNat := by
  rw [UInt8.toNat_ofNat', Nat.mod_eq_of_lt (Nat.lt_trans h (by decide))]

theorem decode?_ascii {chars : List Char} (h : ∀ char ∈ chars, char.toNat < 128) :
    decode? ascii (chars.map fun char ↦ UInt8.ofNat char.toNat) = some (String.ofList chars) := by
  have hbytes : (chars.map fun char ↦ UInt8.ofNat char.toNat).all
      (fun byte ↦ decide (byte < 128)) = true := by
    rw [List.all_map, List.all_eq_true]
    intro char hmem
    rw [Function.comp_apply, decide_eq_true_eq, UInt8.lt_iff_toNat_lt,
      toNat_ofNat_of_lt (h char hmem)]
    exact h char hmem
  have hchars : (chars.map fun char ↦ UInt8.ofNat char.toNat).map
      (fun byte ↦ Char.ofNat byte.toNat) = chars := by
    rw [List.map_map]
    conv_rhs => rw [← List.map_id chars]
    refine List.map_congr_left fun char hmem ↦ ?_
    rw [Function.comp_apply, toNat_ofNat_of_lt (h char hmem), Char.ofNat_toNat, id]
  rw [decode?, if_pos hbytes, hchars]

theorem decode?_utf8 (text : String) : decode? utf8 text.toUTF8.data.toList = some text := by
  have hvalid : text.toUTF8.IsValidUTF8 := text.isValidUTF8
  rw [decode?, String.fromUTF8?]
  exact dif_pos hvalid

/-! ## Whole texts -/

theorem isAscii_iff : isAscii text = true ↔ ∀ char ∈ text.toList, char.toNat < 128 := by
  simp [isAscii]

/-- The bytes of a text, which for ASCII are those of a text all in ASCII. -/
def bytesOf (text : String) : Encoding → List UInt8
  | ascii | utf8 => text.toList.flatMap String.utf8EncodeChar
  | utf16 order => (text.toList.flatMap Unicode.units).flatMap fun unit ↦
      wireBytes 2 unit (order.reverses 2)
  | utf32 order => (text.toList.map Char.toNat).flatMap fun value ↦
      wireBytes 4 value (order.reverses 4)

theorem encode_eq_ok_iff : encoding.encode text = .ok bytes ↔
    (encoding = ascii → ∀ char ∈ text.toList, char.toNat < 128) ∧
      bytes = encoding.bytesOf text := by
  cases encoding with
  | ascii =>
    rw [encode, toList_toUTF8, bytesOf, ← isAscii_iff]
    by_cases hascii : isAscii text = true
    · simp [hascii, eq_comm]
    · simp [hascii]
  | utf8 =>
    rw [encode, toList_toUTF8, bytesOf]
    simp [eq_comm]
  | utf16 order => simp [encode, bytesOf, eq_comm]
  | utf32 order => simp [encode, bytesOf, List.flatMap_map, eq_comm]

/-- A text is read back from its bytes. -/
theorem decode_encode (h : encoding.encode text = .ok bytes) : encoding.decode bytes = .ok text := by
  obtain ⟨hascii, rfl⟩ := encode_eq_ok_iff.1 h
  suffices hdecode : encoding.decode? (encoding.bytesOf text) = some text by
    rw [decode, hdecode]
  cases encoding with
  | ascii =>
    rw [bytesOf, flatMap_utf8EncodeChar_of_lt (hascii rfl), decode?_ascii (hascii rfl),
      String.ofList_toList]
  | utf8 => rw [bytesOf, ← toList_toUTF8, decode?_utf8]
  | utf16 order =>
    have hunits : ∀ unit ∈ text.toList.flatMap Unicode.units, unit < 0x10000 := by
      intro unit hmem
      obtain ⟨char, -, hchar⟩ := List.mem_flatMap.1 hmem
      exact Unicode.units_lt hchar
    rw [decode?, bytesOf, words16?_flatMap_wireBytes order hunits]
    change (Unicode.ofUnits? _ >>= fun chars ↦ some (String.ofList chars)) = _
    rw [Unicode.ofUnits?_flatMap_units]
    exact congrArg some String.ofList_toList
  | utf32 order =>
    have hvalues : ∀ value ∈ text.toList.map Char.toNat, value < 0x100000000 := by
      intro value hmem
      obtain ⟨char, -, rfl⟩ := List.mem_map.1 hmem
      exact char.val.toNat_lt
    rw [decode?, bytesOf, words32?_flatMap_wireBytes order hvalues]
    change (List.mapM Unicode.ofScalar? _ >>= fun chars ↦ some (String.ofList chars)) = _
    rw [Unicode.mapM_ofScalar?_toNat]
    exact congrArg some String.ofList_toList

theorem length_flatMap_wireBytes (width : Nat) (swap : Bool) (values : List Nat) :
    (values.flatMap fun value ↦ wireBytes width value swap).length = width * values.length := by
  induction values with
  | nil => rfl
  | cons value values ih =>
    rw [List.flatMap_cons, List.length_append, ih, length_wireBytes, List.length_cons, Nat.mul_succ,
      Nat.add_comm]

/-- The length of a text is the number of its bytes. -/
theorem encodedLength_eq_of_encode (h : encoding.encode text = .ok bytes) :
    encoding.encodedLength text = .ok bytes.length := by
  obtain ⟨hascii, rfl⟩ := encode_eq_ok_iff.1 h
  have hsize : text.utf8ByteSize = (text.toList.flatMap String.utf8EncodeChar).length := by
    rw [← toList_toUTF8]
    rfl
  cases encoding with
  | ascii => rw [encodedLength, if_pos (isAscii_iff.2 (hascii rfl)), hsize, bytesOf]
  | utf8 => rw [encodedLength, hsize, bytesOf]
  | utf16 order =>
    rw [encodedLength, bytesOf, length_flatMap_wireBytes, List.length_flatMap]
    simp only [Unicode.length_units]
  | utf32 order =>
    rw [encodedLength, bytesOf, length_flatMap_wireBytes, List.length_map, String.length_toList]

/-- The length of a text can be had exactly if its bytes can. -/
theorem encodedLength_eq (encoding : Encoding) (text : String) :
    encoding.encodedLength text = (encoding.encode text).map List.length := by
  cases h : encoding.encode text with
  | ok bytes => exact encodedLength_eq_of_encode h
  | error error =>
    cases encoding with
    | ascii =>
      rw [encode] at h
      split at h
      · cases h
      · next hascii =>
        cases h
        rw [encodedLength, if_neg hascii]
        rfl
    | _ => cases h

/-- A text without NUL has no zero byte, where zero bytes can mark the end of a text. -/
theorem zero_notMem_of_encode (hterminable : encoding.isNullTerminable)
    (h : encoding.encode text = .ok bytes) (hnul : Char.ofNat 0 ∉ text.toList) : 0 ∉ bytes := by
  obtain ⟨-, rfl⟩ := encode_eq_ok_iff.1 h
  intro hmem
  cases encoding with
  | ascii | utf8 =>
    obtain ⟨char, hchar, hzero⟩ := List.mem_flatMap.1 hmem
    exact hnul (eq_nul_of_zero_mem hzero ▸ hchar)
  | _ => cases hterminable

/-! ## Texts up to NUL -/

/-- A text up to the first NUL in it. -/
def untilNul (text : String) : String :=
  String.ofList (text.toList.takeWhile (· != Char.ofNat 0))

theorem untilNul_eq_self_iff : untilNul text = text ↔ Char.ofNat 0 ∉ text.toList := by
  rw [untilNul, ← String.toList_inj, String.toList_ofList, List.takeWhile_eq_self_iff]
  constructor
  · rintro h hmem
    exact bne_iff_ne.1 (h _ hmem) rfl
  · rintro h char hmem
    rw [bne_iff_ne]
    rintro rfl
    exact h hmem

/-- The first zero byte of a text is that of the first NUL. -/
theorem flatMap_takeWhile_utf8EncodeChar (chars : List Char) :
    (chars.takeWhile (· != Char.ofNat 0)).flatMap String.utf8EncodeChar =
      (chars.flatMap String.utf8EncodeChar).takeWhile (· != 0) := by
  induction chars with
  | nil => rfl
  | cons char chars ih =>
    rw [List.flatMap_cons]
    by_cases hchar : char = Char.ofNat 0
    · subst hchar
      rfl
    · rw [List.takeWhile_cons, if_pos (bne_iff_ne.2 hchar), List.flatMap_cons, ih,
        List.takeWhile_append_of_pos]
      intro byte hmem
      rw [bne_iff_ne]
      rintro rfl
      exact hchar (eq_nul_of_zero_mem hmem)

/-- Where zero bytes can mark the end of a text, the bytes before the first of them are those of the
text up to NUL. -/
theorem encode_untilNul (hterminable : encoding.isNullTerminable)
    (h : encoding.encode text = .ok bytes) :
    encoding.encode (untilNul text) = .ok (bytes.takeWhile (· != 0)) := by
  obtain ⟨hascii, rfl⟩ := encode_eq_ok_iff.1 h
  rw [encode_eq_ok_iff, untilNul]
  cases encoding with
  | ascii | utf8 =>
    refine ⟨fun hown char hmem ↦ ?_, ?_⟩
    · rw [String.toList_ofList] at hmem
      exact hascii hown char ((List.takeWhile_sublist _).subset hmem)
    · rw [bytesOf, bytesOf, String.toList_ofList, flatMap_takeWhile_utf8EncodeChar]
  | _ => cases hterminable

end Encoding

end WireFormat
