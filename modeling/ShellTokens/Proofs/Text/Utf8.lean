import ShellTokens.Bytes
import ShellTokens.Text.Utf8

/-!
# Encoded text

The bytes of a text decode to the text. A position between two characters cuts a text in two, and
next to an ASCII byte there is always such a position.
-/

namespace ShellTokens

namespace Bytes

theorem toList_ofString (text : String) :
    (ofString text).toList = text.toList.flatMap String.utf8EncodeChar := by
  obtain ⟨chars, rfl⟩ : ∃ chars, text = String.ofList chars := ⟨text.toList, by simp⟩
  simp [ofString, String.toUTF8_eq_toByteArray, List.utf8Encode]

theorem length_toList_ofString (text : String) :
    (ofString text).toList.length = text.utf8ByteSize := by
  simp [ofString, String.toUTF8_eq_toByteArray]

end Bytes

namespace Text

variable {b : UInt8} {rest : List UInt8} {missing bits n v : Nat} {lo hi : UInt8}

/-! ### Decoding one character -/

theorem go_cons (state : Option PartialChar) (b : UInt8) (rest : List UInt8) :
    decodeChars.go state (b :: rest) =
      (readByte state b).1 ++ decodeChars.go (readByte state b).2 rest := by
  cases state <;> rfl

theorem go_ascii (hb : b.toNat = v) (hv : v ≤ 0x7f) :
    decodeChars.go none (b :: rest) = Char.ofNat v :: decodeChars.go none rest := by
  have hlt : b < 0x80 := by
    rw [UInt8.lt_iff_toNat_lt, hb]
    exact Nat.lt_succ_of_le hv
  simp [go_cons, readByte, beginChar, hlt, hb]

theorem go_lead {p : PartialChar} (hb : 0x80 ≤ b.toNat) (hlead : PartialChar.ofLead? b = some p) :
    decodeChars.go none (b :: rest) = decodeChars.go (some p) rest := by
  have hnot : ¬ b < 0x80 := by simpa [UInt8.lt_iff_toNat_lt] using hb
  simp [go_cons, readByte, beginChar, hnot, hlead]

/-- A byte that adds the six bits `n` and is not the last one of its character. -/
theorem go_middle (hb : b.toNat = n + 0x80) (hlo : lo.toNat ≤ n + 0x80)
    (hhi : n + 0x80 ≤ hi.toNat) :
    decodeChars.go (some ⟨missing + 2, lo, hi, bits⟩) (b :: rest) =
      decodeChars.go (some ⟨missing + 1, 0x80, 0xbf, bits * 64 + n⟩) rest := by
  have hbounds : lo ≤ b ∧ b ≤ hi := by simp [UInt8.le_iff_toNat_le, hb, hlo, hhi]
  simp [go_cons, readByte, hbounds, hb]

/-- A byte that adds the last six bits. -/
theorem go_last (hb : b.toNat = n + 0x80) (hlo : lo.toNat ≤ n + 0x80)
    (hhi : n + 0x80 ≤ hi.toNat) :
    decodeChars.go (some ⟨1, lo, hi, bits⟩) (b :: rest) =
      Char.ofNat (bits * 64 + n) :: decodeChars.go none rest := by
  have hbounds : lo ≤ b ∧ b ≤ hi := by simp [UInt8.le_iff_toNat_le, hb, hlo, hhi]
  simp [go_cons, readByte, hbounds, hb]

theorem ofLead?_two (hb : b.toNat = v / 64 + 0xc0) (hlo : 0x80 ≤ v) (hhi : v ≤ 0x7ff) :
    PartialChar.ofLead? b = some ⟨1, 0x80, 0xbf, v / 64⟩ := by
  simp [PartialChar.ofLead?, UInt8.le_iff_toNat_le, hb]
  omega

theorem exists_ofLead?_three (hb : b.toNat = v / 4096 + 0xe0) (hlo : 0x800 ≤ v) (hhi : v ≤ 0xffff)
    (hvalid : v < 0xd800 ∨ 0xdfff < v) :
    ∃ lo hi, PartialChar.ofLead? b = some ⟨2, lo, hi, v / 4096⟩ ∧
      lo.toNat ≤ v / 64 % 64 + 0x80 ∧ v / 64 % 64 + 0x80 ≤ hi.toNat := by
  simp only [PartialChar.ofLead?, UInt8.le_iff_toNat_le, ← UInt8.toNat_inj, hb]
  by_cases hzero : v / 4096 = 0
  · refine ⟨0xa0, 0xbf, by simp [hzero], ?_⟩
    simp
    omega
  by_cases hsurrogates : v / 4096 = 0xd
  · refine ⟨0x80, 0x9f, by simp [hsurrogates], ?_⟩
    simp
    omega
  · refine ⟨0x80, 0xbf, ?_, ?_⟩
    · simp [hzero, hsurrogates]
      omega
    · simp
      omega

theorem exists_ofLead?_four (hb : b.toNat = v / 262144 + 0xf0) (hlo : 0x10000 ≤ v)
    (hhi : v ≤ 0x10ffff) :
    ∃ lo hi, PartialChar.ofLead? b = some ⟨3, lo, hi, v / 262144⟩ ∧
      lo.toNat ≤ v / 4096 % 64 + 0x80 ∧ v / 4096 % 64 + 0x80 ≤ hi.toNat := by
  simp only [PartialChar.ofLead?, UInt8.le_iff_toNat_le, ← UInt8.toNat_inj, hb]
  by_cases hzero : v / 262144 = 0
  · refine ⟨0x90, 0xbf, by simp [hzero], ?_⟩
    simp
    omega
  by_cases hlast : v / 262144 = 4
  · refine ⟨0x80, 0x8f, by simp [hlast], ?_⟩
    simp
    omega
  · refine ⟨0x80, 0xbf, ?_, ?_⟩
    · simp [hzero, hlast]
      omega
    · simp
      omega

theorem toNat_ofNat_of_lt (hn : n < 256) : (UInt8.ofNat n).toNat = n :=
  UInt8.toNat_ofNat_of_lt' hn

theorem go_two (hlo : 0x80 ≤ v) (hhi : v ≤ 0x7ff) :
    decodeChars.go none
        ([UInt8.ofNat (v / 64 % 0x20 + 0xc0), UInt8.ofNat (v % 0x40 + 0x80)] ++ rest) =
      Char.ofNat v :: decodeChars.go none rest := by
  have hlead := toNat_ofNat_of_lt (n := v / 64 % 0x20 + 0xc0) (by omega)
  have hbits : v / 64 * 64 + v % 0x40 = v := by omega
  rw [List.cons_append, go_lead (by omega) (ofLead?_two (hlead.trans (by omega)) hlo hhi),
    List.singleton_append, go_last (toNat_ofNat_of_lt (by omega)) (by simp) (by simp; omega), hbits]

theorem go_three (hlo : 0x800 ≤ v) (hhi : v ≤ 0xffff) (hvalid : v < 0xd800 ∨ 0xdfff < v) :
    decodeChars.go none
        ([UInt8.ofNat (v / 4096 % 0x10 + 0xe0), UInt8.ofNat (v / 64 % 0x40 + 0x80),
          UInt8.ofNat (v % 0x40 + 0x80)] ++ rest) =
      Char.ofNat v :: decodeChars.go none rest := by
  have hlead := toNat_ofNat_of_lt (n := v / 4096 % 0x10 + 0xe0) (by omega)
  obtain ⟨lo, hi, hpartial, hfrom, hto⟩ :=
    exists_ofLead?_three (hlead.trans (by omega)) hlo hhi hvalid
  have hbits : (v / 4096 * 64 + v / 64 % 0x40) * 64 + v % 0x40 = v := by omega
  rw [List.cons_append, go_lead (by omega) hpartial, List.cons_append,
    go_middle (toNat_ofNat_of_lt (by omega)) hfrom hto, List.singleton_append,
    go_last (toNat_ofNat_of_lt (by omega)) (by simp) (by simp; omega), hbits]

theorem go_four (hlo : 0x10000 ≤ v) (hhi : v ≤ 0x10ffff) :
    decodeChars.go none
        ([UInt8.ofNat (v / 262144 % 0x08 + 0xf0), UInt8.ofNat (v / 4096 % 0x40 + 0x80),
          UInt8.ofNat (v / 64 % 0x40 + 0x80), UInt8.ofNat (v % 0x40 + 0x80)] ++ rest) =
      Char.ofNat v :: decodeChars.go none rest := by
  have hlead := toNat_ofNat_of_lt (n := v / 262144 % 0x08 + 0xf0) (by omega)
  obtain ⟨lo, hi, hpartial, hfrom, hto⟩ := exists_ofLead?_four (hlead.trans (by omega)) hlo hhi
  have hbits : ((v / 262144 * 64 + v / 4096 % 0x40) * 64 + v / 64 % 0x40) * 64 + v % 0x40 = v := by
    omega
  rw [List.cons_append, go_lead (by omega) hpartial, List.cons_append,
    go_middle (toNat_ofNat_of_lt (by omega)) hfrom hto, List.cons_append,
    go_middle (toNat_ofNat_of_lt (by omega)) (by simp) (by simp; omega), List.singleton_append,
    go_last (toNat_ofNat_of_lt (by omega)) (by simp) (by simp; omega), hbits]

/-! ### Decoding a text -/

theorem go_utf8EncodeChar (c : Char) (rest : List UInt8) :
    decodeChars.go none (String.utf8EncodeChar c ++ rest) = c :: decodeChars.go none rest := by
  have hvalid : c.val.toNat < 0xd800 ∨ 0xdfff < c.val.toNat ∧ c.val.toNat < 0x110000 := c.valid
  have hc : Char.ofNat c.val.toNat = c := Char.ofNat_toNat c
  rw [String.utf8EncodeChar]
  generalize c.val.toNat = v at hvalid hc
  subst hc
  split
  · next hone => exact go_ascii (toNat_ofNat_of_lt (by omega)) hone
  split
  · next htwo => exact go_two (by omega) htwo
  split
  · next hthree => exact go_three (by omega) hthree (by omega)
  · exact go_four (by omega) (by omega)

theorem decodeChars_flatMap (chars : List Char) :
    decodeChars (chars.flatMap String.utf8EncodeChar) = chars := by
  rw [decodeChars]
  induction chars with
  | nil => rfl
  | cons c chars ih => rw [List.flatMap_cons, go_utf8EncodeChar, ih]

theorem decode_ofString (text : String) : decode (Bytes.ofString text) = text := by
  rw [decode, Bytes.toList_ofString, decodeChars_flatMap, String.ofList_toList]

/-! ### Positions between characters -/

variable {text : String} {i : Nat}

theorem isValidUTF8_ascii (hb : b < 0x80) : ByteArray.IsValidUTF8 [b].toByteArray := by
  have hval : (Char.ofUInt8 b).val.toNat = b.toNat := rfl
  have hle : b.toNat ≤ 0x7f := Nat.le_of_lt_succ hb
  refine ⟨[Char.ofUInt8 b], ?_⟩
  rw [List.utf8Encode_singleton, String.utf8EncodeChar, hval, if_pos hle, UInt8.ofNat_toNat]

/-- An ASCII byte is a character. -/
theorem isValid_around_ascii (hi : (Bytes.ofString text)[i]? = some b) (hb : b < 0x80) :
    String.Pos.Raw.IsValid text ⟨i⟩ ∧ String.Pos.Raw.IsValid text ⟨i + 1⟩ := by
  obtain ⟨hlt, hget⟩ := Array.getElem?_eq_some_iff.1 hi
  have hsize : i + 1 ≤ text.toByteArray.size := hlt
  have hextract : text.toByteArray.extract i (i + 1) = [b].toByteArray := by
    rw [ByteArray.extract_add_one hsize, ← hget]
    rfl
  have hvalid := isValidUTF8_ascii hb
  rw [← hextract, String.Pos.Raw.isValidUTF8_extract_iff (s := text) ⟨i⟩ ⟨i + 1⟩ (Nat.le_succ i)
    (by simpa [String.Pos.Raw.le_iff] using hsize)] at hvalid
  exact hvalid.resolve_left (by simp [String.Pos.Raw.ext_iff])

/-- The two bytes within a character are not ASCII. -/
theorem exists_bytes_of_not_isValid (hi : i + 1 ≤ (Bytes.ofString text).size)
    (h : ¬ String.Pos.Raw.IsValid text ⟨i + 1⟩) :
    ∃ a b, (Bytes.ofString text)[i]? = some a ∧ (Bytes.ofString text)[i + 1]? = some b ∧
      0x80 ≤ a ∧ 0x80 ≤ b := by
  have hne : i + 1 ≠ (Bytes.ofString text).size := by
    rintro heq
    apply h
    rw [heq]
    exact String.Pos.Raw.isValid_rawEndPos
  have hlt : i + 1 < (Bytes.ofString text).size := by omega
  have ha := Array.getElem?_eq_getElem (Nat.lt_of_succ_lt hlt)
  have hb := Array.getElem?_eq_getElem hlt
  refine ⟨_, _, ha, hb, ?_, ?_⟩
  · exact UInt8.not_lt.1 fun hascii => h (isValid_around_ascii ha hascii).2
  · exact UInt8.not_lt.1 fun hascii => h (isValid_around_ascii hb hascii).1

theorem exists_append_of_isValid (h : String.Pos.Raw.IsValid text ⟨i⟩) :
    ∃ before after : String, text = before ++ after ∧ before.utf8ByteSize = i := by
  obtain ⟨before, after, hbytes, htext⟩ := h.exists
  refine ⟨String.ofList before, String.ofList after, by rw [← htext, String.ofList_append], ?_⟩
  have hle : i ≤ text.toByteArray.size := by simpa using h.le_utf8ByteSize
  rw [← String.size_toByteArray, String.toByteArray_ofList, hbytes, ByteArray.size_extract]
  exact Nat.min_eq_left hle

end Text

end ShellTokens
