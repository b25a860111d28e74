import WireFormat.Proofs.Text.Transcode

/-!
# Texts are written as the bytes they were read from

Each encoding has one way to write a text, so bytes that stand for a text are its bytes.

* `wireBytes_ofWireBytes` — a raw scalar is written as the bytes that it was read from;
* `Encoding.encode_decode` — and so is a text;
* `Encoding.nul_notMem_of_encode` — without a zero byte there is no NUL;
* `Encoding.encode_iff_decode` — an encoding pairs texts and bytes, and counts what it writes.
-/

namespace WireFormat

theorem wireBytes_ofWireBytes (bytes : List UInt8) (swap : Bool) :
    wireBytes bytes.length (ofWireBytes bytes swap) swap = bytes := by
  cases swap with
  | false => exact littleEndian_ofLittleEndian bytes
  | true =>
    change littleEndian bytes.length (reverseBytes bytes.length
      (reverseBytes bytes.length (ofLittleEndian bytes))) = bytes
    rw [reverseBytes_reverseBytes (ofLittleEndian_lt bytes), littleEndian_ofLittleEndian]

theorem ofWireBytes_lt (bytes : List UInt8) (swap : Bool) :
    ofWireBytes bytes swap < 256 ^ bytes.length := by
  cases swap with
  | false => exact ofLittleEndian_lt bytes
  | true => exact reverseBytes_lt (ofLittleEndian_lt bytes)

/-! ## Code units -/

namespace Unicode

theorem toNat_of_ofScalar? {value : Nat} {char : Char} (h : ofScalar? value = some char) :
    char.toNat = value := by
  rw [ofScalar?] at h
  split at h
  · next hvalid =>
    cases h
    rw [Char.ofNat, dif_pos hvalid]
    rfl
  · cases h

/-- Code units that stand for characters are those of the characters. -/
theorem flatMap_units_of_ofUnits? {all : List Nat} {chars : List Char}
    (hlt : ∀ unit ∈ all, unit < 0x10000) (h : ofUnits? all = some chars) :
    chars.flatMap units = all := by
  induction all using ofUnits?.induct generalizing chars with
  | case1 =>
    cases h
    rfl
  | case2 unit hhigh low rest hlow ih =>
    rw [ofUnits?.eq_def] at h
    dsimp only at h
    rw [if_pos hhigh, if_pos hlow] at h
    obtain ⟨char, hchar, h⟩ := Option.bind_eq_some_iff.1 h
    obtain ⟨more, hmore, h⟩ := Option.bind_eq_some_iff.1 h
    cases h
    have hrest : ∀ unit ∈ rest, unit < 0x10000 :=
      fun unit hmem ↦ hlt unit (List.mem_cons_of_mem _ (List.mem_cons_of_mem _ hmem))
    have hvalue := toNat_of_ofScalar? hchar
    simp only [isHighSurrogate, isLowSurrogate, Bool.and_eq_true, decide_eq_true_eq] at hhigh hlow
    have hunits : units char = [unit, low] := by
      rw [units, hvalue, if_neg (by omega), List.cons.injEq, List.cons.injEq]
      exact ⟨by omega, by omega, rfl⟩
    rw [List.flatMap_cons, ih hrest hmore, hunits]
    rfl
  | case3 unit hhigh low rest hlow =>
    rw [ofUnits?.eq_def] at h
    dsimp only at h
    rw [if_pos hhigh, if_neg hlow] at h
    cases h
  | case4 unit hhigh =>
    rw [ofUnits?.eq_def] at h
    dsimp only at h
    rw [if_pos hhigh] at h
    cases h
  | case5 unit rest hhigh ih =>
    rw [ofUnits?.eq_def] at h
    dsimp only at h
    rw [if_neg hhigh] at h
    obtain ⟨char, hchar, h⟩ := Option.bind_eq_some_iff.1 h
    obtain ⟨more, hmore, h⟩ := Option.bind_eq_some_iff.1 h
    cases h
    obtain ⟨hunit, hrest⟩ := List.forall_mem_cons.1 hlt
    have hunits : units char = [unit] := by
      rw [units, toNat_of_ofScalar? hchar, if_pos hunit]
    rw [List.flatMap_cons, ih hrest hmore, hunits]
    rfl

theorem map_toNat_of_mapM_ofScalar? {values : List Nat} {chars : List Char}
    (h : values.mapM ofScalar? = some chars) : chars.map Char.toNat = values := by
  induction values generalizing chars with
  | nil =>
    cases h
    rfl
  | cons value values ih =>
    rw [List.mapM_cons] at h
    obtain ⟨char, hchar, h⟩ := Option.bind_eq_some_iff.1 h
    obtain ⟨rest, hrest, h⟩ := Option.bind_eq_some_iff.1 h
    cases h
    rw [List.map_cons, toNat_of_ofScalar? hchar, ih hrest]

end Unicode

namespace Encoding

variable {encoding : Encoding} {text : String} {bytes : List UInt8} {order : ByteOrder}

/-! ## Words -/

theorem flatMap_wireBytes_of_words16? {units : List Nat} (h : words16? order bytes = some units) :
    (units.flatMap fun unit ↦ wireBytes 2 unit (order.reverses 2)) = bytes ∧
      ∀ unit ∈ units, unit < 0x10000 := by
  induction bytes using words16?.induct generalizing units with
  | case1 =>
    cases h
    exact ⟨rfl, List.forall_mem_nil _⟩
  | case2 first second rest ih =>
    obtain ⟨more, hmore, rfl⟩ := Option.map_eq_some_iff.1 h
    obtain ⟨hrest, hlt⟩ := ih hmore
    have hword : ofWireBytes [first, second] (order.reverses 2) < 256 ^ 2 :=
      ofWireBytes_lt [first, second] _
    rw [List.flatMap_cons, hrest]
    refine ⟨?_, List.forall_mem_cons.2 ⟨hword, hlt⟩⟩
    exact congrArg (· ++ rest) (wireBytes_ofWireBytes [first, second] _)
  | case3 byte => cases h

theorem flatMap_wireBytes_of_words32? {values : List Nat} (h : words32? order bytes = some values) :
    (values.flatMap fun value ↦ wireBytes 4 value (order.reverses 4)) = bytes := by
  induction bytes using words32?.induct generalizing values with
  | case1 =>
    cases h
    rfl
  | case2 first second third fourth rest ih =>
    obtain ⟨more, hmore, rfl⟩ := Option.map_eq_some_iff.1 h
    rw [List.flatMap_cons, ih hmore]
    exact congrArg (· ++ rest) (wireBytes_ofWireBytes [first, second, third, fourth] _)
  | case3 bytes hnil hfour =>
    rw [words32?] at h
    · cases h
    · exact hnil
    · exact hfour

/-! ## Whole texts -/

theorem decode?_of_decode (h : encoding.decode bytes = .ok text) :
    encoding.decode? bytes = some text := by
  rw [decode] at h
  split at h
  · next hdecode =>
    cases h
    exact hdecode
  · cases h

/-- A text is written as the bytes that it was read from. -/
theorem encode_decode (h : encoding.decode bytes = .ok text) : encoding.encode text = .ok bytes := by
  have hdecode := decode?_of_decode h
  rw [encode_eq_ok_iff]
  cases encoding with
  | ascii =>
    rw [decode?] at hdecode
    split at hdecode
    · next hbytes =>
      cases hdecode
      have hchars : ∀ byte ∈ bytes,
          byte.toNat < 128 ∧ (Char.ofNat byte.toNat).toNat = byte.toNat := by
        intro byte hmem
        have hlt : byte.toNat < 128 := by
          have hbyte := List.all_eq_true.1 hbytes byte hmem
          rwa [decide_eq_true_eq, UInt8.lt_iff_toNat_lt] at hbyte
        have hvalid : byte.toNat.isValidChar := .inl (Nat.lt_trans hlt (by decide))
        exact ⟨hlt, Unicode.toNat_of_ofScalar? (if_pos hvalid)⟩
      have hascii : ∀ char ∈ bytes.map fun byte ↦ Char.ofNat byte.toNat, char.toNat < 128 := by
        intro char hmem
        obtain ⟨byte, hbyte, rfl⟩ := List.mem_map.1 hmem
        rw [(hchars byte hbyte).2]
        exact (hchars byte hbyte).1
      rw [bytesOf, String.toList_ofList]
      refine ⟨fun _ ↦ hascii, ?_⟩
      rw [flatMap_utf8EncodeChar_of_lt hascii, List.map_map]
      refine (List.map_id bytes).symm.trans (List.map_congr_left fun byte hmem ↦ ?_)
      rw [Function.comp_apply, (hchars byte hmem).2, UInt8.ofNat_toNat, id]
    · cases hdecode
  | utf8 =>
    rw [decode?, String.fromUTF8?] at hdecode
    split at hdecode
    · next hvalid =>
      cases hdecode
      refine ⟨by rintro ⟨⟩, ?_⟩
      rw [bytesOf, ← toList_toUTF8]
      rfl
    · cases hdecode
  | utf16 order =>
    obtain ⟨units, hunits, hdecode⟩ := Option.bind_eq_some_iff.1 hdecode
    obtain ⟨chars, hchars, hdecode⟩ := Option.bind_eq_some_iff.1 hdecode
    cases hdecode
    obtain ⟨hbytes, hlt⟩ := flatMap_wireBytes_of_words16? hunits
    refine ⟨by rintro ⟨⟩, ?_⟩
    rw [bytesOf, String.toList_ofList, Unicode.flatMap_units_of_ofUnits? hlt hchars, hbytes]
  | utf32 order =>
    obtain ⟨values, hvalues, hdecode⟩ := Option.bind_eq_some_iff.1 hdecode
    obtain ⟨chars, hchars, hdecode⟩ := Option.bind_eq_some_iff.1 hdecode
    cases hdecode
    refine ⟨by rintro ⟨⟩, ?_⟩
    rw [bytesOf, String.toList_ofList, Unicode.map_toNat_of_mapM_ofScalar? hchars,
      flatMap_wireBytes_of_words32? hvalues]

/-- A text whose bytes hold no zero byte holds no NUL, where zero bytes can mark its end. -/
theorem nul_notMem_of_encode (hterminable : encoding.isNullTerminable)
    (h : encoding.encode text = .ok bytes) (hzero : 0 ∉ bytes) : Char.ofNat 0 ∉ text.toList := by
  obtain ⟨-, rfl⟩ := encode_eq_ok_iff.1 h
  intro hmem
  cases encoding with
  | ascii | utf8 => exact hzero (List.mem_flatMap.2 ⟨Char.ofNat 0, hmem, by decide⟩)
  | _ => cases hterminable

/-- The only texts without bytes are those that ASCII lacks a character of. -/
theorem encode_eq_error_iff {error : DataError} : encoding.encode text = .error error ↔
    encoding = ascii ∧ (∃ char ∈ text.toList, 128 ≤ char.toNat) ∧
      error = .unencodable encoding := by
  cases encoding with
  | ascii =>
    rw [encode]
    split
    · next hascii =>
      rw [isAscii_iff] at hascii
      constructor
      · intro h
        cases h
      · rintro ⟨-, ⟨char, hmem, hchar⟩, -⟩
        exact (Nat.not_lt.2 hchar (hascii char hmem)).elim
    · next hascii =>
      rw [isAscii_iff] at hascii
      push Not at hascii
      simp [hascii, eq_comm]
  | utf8 | utf16 order | utf32 order => simp [encode]

/-- An encoding pairs its texts with their bytes, one with one, and counts the bytes as it writes
them.  It writes all texts, except that ASCII only writes those with no other characters. -/
theorem encode_iff_decode (encoding : Encoding) (text : String) :
    encoding.encodedLength text = (encoding.encode text).map List.length ∧
    (∀ error, encoding.encode text = .error error ↔
      encoding = ascii ∧ (∃ char ∈ text.toList, 128 ≤ char.toNat) ∧
        error = .unencodable encoding) ∧
    ∀ bytes, encoding.encode text = .ok bytes ↔ encoding.decode bytes = .ok text :=
  ⟨encodedLength_eq encoding text, fun _ ↦ encode_eq_error_iff,
    fun _ ↦ ⟨decode_encode, encode_decode⟩⟩

end Encoding

end WireFormat
