import Mathlib.Tactic.TypeStar

/-!
# UTF-8 and UTF-16

The encodings of a text, a list of Unicode scalar values, and their decoders. UTF-8 is that
of `String`.
-/

namespace Unicode

def utf8 (text : List Char) : List UInt8 := text.flatMap String.utf8EncodeChar

/-- One unit, or a surrogate pair above the basic plane. -/
def utf16EncodeChar (c : Char) : List UInt16 :=
  if c.toNat < 0x10000 then [UInt16.ofNat c.toNat]
  else
    [UInt16.ofNat (0xD800 + (c.toNat - 0x10000) / 0x400),
      UInt16.ofNat (0xDC00 + (c.toNat - 0x10000) % 0x400)]

def utf16 (text : List Char) : List UInt16 := text.flatMap utf16EncodeChar

def decodeUtf8 (bytes : List UInt8) : Option (List Char) :=
  bytes.toByteArray.utf8Decode?.map Array.toList

def decodeUtf16 : List UInt16 → Option (List Char)
  | [] => some []
  | u :: units =>
    if u.toNat < 0xD800 ∨ 0xDFFF < u.toNat then
      (decodeUtf16 units).map (Char.ofNat u.toNat :: ·)
    else if u.toNat < 0xDC00 then
      match units with
      | [] => none
      | v :: units =>
        if 0xDC00 ≤ v.toNat ∧ v.toNat ≤ 0xDFFF then
          (decodeUtf16 units).map
            (Char.ofNat (0x10000 + (u.toNat - 0xD800) * 0x400 + (v.toNat - 0xDC00)) :: ·)
        else none
    else none

theorem char_toNat_valid (c : Char) : c.toNat < 0xD800 ∨ 0xDFFF < c.toNat ∧ c.toNat < 0x110000 :=
  c.valid

theorem char_toNat_ofNat {n : Nat} (h : n < 0xD800 ∨ 0xDFFF < n ∧ n < 0x110000) :
    (Char.ofNat n).toNat = n := by
  have valid : n.isValidChar := h
  rw [Char.ofNat, dif_pos valid]
  rfl

/-! ## UTF-8 -/

theorem decodeUtf8_utf8 (text : List Char) : decodeUtf8 (utf8 text) = some text := by
  have := List.utf8Decode?_utf8Encode (l := text)
  rw [List.utf8Encode] at this
  simp [decodeUtf8, utf8, this]

theorem utf8_of_decodeUtf8 {bytes : List UInt8} {text : List Char}
    (h : decodeUtf8 bytes = some text) : utf8 text = bytes := by
  obtain ⟨chars, hc, rfl⟩ := Option.map_eq_some_iff.mp h
  have whole := ByteArray.utf8Encode_get_utf8Decode? (b := bytes.toByteArray)
    (h := Option.isSome_iff_exists.mpr ⟨chars, hc⟩)
  simp only [hc, Option.get_some] at whole
  exact List.toByteArray_inj.mp whole

/-! ## UTF-16 -/

theorem decodeUtf16_encodeChar (c : Char) (units : List UInt16) :
    decodeUtf16 (utf16EncodeChar c ++ units) = (decodeUtf16 units).map (c :: ·) := by
  have valid := char_toNat_valid c
  unfold utf16EncodeChar
  split
  · rename_i basic
    have back : (UInt16.ofNat c.toNat).toNat = c.toNat := by
      rw [UInt16.toNat_ofNat']
      omega
    rw [List.singleton_append, decodeUtf16.eq_def]
    simp only [back]
    rw [if_pos (by omega), Char.ofNat_toNat]
  · rename_i above
    have high : (UInt16.ofNat (0xD800 + (c.toNat - 0x10000) / 0x400)).toNat =
        0xD800 + (c.toNat - 0x10000) / 0x400 := by
      rw [UInt16.toNat_ofNat']
      omega
    have low : (UInt16.ofNat (0xDC00 + (c.toNat - 0x10000) % 0x400)).toNat =
        0xDC00 + (c.toNat - 0x10000) % 0x400 := by
      rw [UInt16.toNat_ofNat']
      omega
    rw [List.cons_append, List.singleton_append, decodeUtf16.eq_def]
    simp only [high, low]
    rw [if_neg (by omega), if_pos (by omega), if_pos (by omega)]
    have whole : 0x10000 + (0xD800 + (c.toNat - 0x10000) / 0x400 - 0xD800) * 0x400 +
        (0xDC00 + (c.toNat - 0x10000) % 0x400 - 0xDC00) = c.toNat := by omega
    rw [whole, Char.ofNat_toNat]

theorem decodeUtf16_utf16 (text : List Char) : decodeUtf16 (utf16 text) = some text := by
  induction text with
  | nil => rfl
  | cons c text ih =>
    rw [utf16, List.flatMap_cons, decodeUtf16_encodeChar, ← utf16, ih]
    rfl

theorem utf16_of_decodeUtf16 {units : List UInt16} {text : List Char}
    (h : decodeUtf16 units = some text) : utf16 text = units := by
  fun_induction decodeUtf16 units generalizing text with
  | case1 => cases h; rfl
  | case2 u units basic ih =>
    obtain ⟨rest, hr, rfl⟩ := Option.map_eq_some_iff.mp h
    have := u.toNat_lt
    have same : (Char.ofNat u.toNat).toNat = u.toNat := char_toNat_ofNat (by omega)
    rw [utf16, List.flatMap_cons, ← utf16, ih hr, utf16EncodeChar, same, if_pos (by omega)]
    simp
  | case3 u ne high => cases h
  | case4 u ne high v units low ih =>
    obtain ⟨rest, hr, rfl⟩ := Option.map_eq_some_iff.mp h
    have same := char_toNat_ofNat
      (n := 0x10000 + (u.toNat - 0xD800) * 0x400 + (v.toNat - 0xDC00)) (by omega)
    rw [utf16, List.flatMap_cons, ← utf16, ih hr, utf16EncodeChar, same, if_neg (by omega)]
    have first : 0xD800 + (0x10000 + (u.toNat - 0xD800) * 0x400 + (v.toNat - 0xDC00) - 0x10000) /
        0x400 = u.toNat := by omega
    have second : 0xDC00 + (0x10000 + (u.toNat - 0xD800) * 0x400 + (v.toNat - 0xDC00) - 0x10000) %
        0x400 = v.toNat := by omega
    rw [first, second]
    simp
  | case5 => cases h
  | case6 => cases h

/-! ## Lengths -/

/-- The text is ASCII. -/
def Ascii (text : List Char) : Prop := ∀ c ∈ text, c.toNat < 0x80

instance ascii_decidable (text : List Char) : Decidable (Ascii text) :=
  List.decidableBAll (fun c : Char => c.toNat < 0x80) text

theorem utf8EncodeChar_length (c : Char) :
    (utf16EncodeChar c).length ≤ (String.utf8EncodeChar c).length ∧
      ((String.utf8EncodeChar c).length = (utf16EncodeChar c).length ↔ c.toNat < 0x80) := by
  unfold utf16EncodeChar String.utf8EncodeChar
  have same : c.val.toNat = c.toNat := rfl
  simp only [same]
  split <;> split <;> (try split) <;> (try split) <;> simp <;> omega

theorem utf16_length_le (text : List Char) : (utf16 text).length ≤ (utf8 text).length := by
  induction text with
  | nil => exact Nat.le_refl _
  | cons c text ih =>
    have := (utf8EncodeChar_length c).1
    simp only [utf16, utf8, List.flatMap_cons, List.length_append] at ih ⊢
    omega

theorem utf8_length_eq_iff (text : List Char) :
    (utf8 text).length = (utf16 text).length ↔ Ascii text := by
  induction text with
  | nil => simp [utf8, utf16, Ascii]
  | cons c text ih =>
    obtain ⟨le, same⟩ := utf8EncodeChar_length c
    have rest := utf16_length_le text
    simp only [Ascii, List.forall_mem_cons, ← same]
    rw [← Ascii, ← ih]
    simp only [utf16, utf8, List.flatMap_cons, List.length_append] at rest ⊢
    omega

theorem Ascii.utf16_length {text : List Char} (h : Ascii text) :
    (utf16 text).length = text.length := by
  induction text with
  | nil => rfl
  | cons c text ih =>
    obtain ⟨first, rest⟩ := List.forall_mem_cons.mp h
    rw [utf16, List.flatMap_cons, ← utf16, List.length_append, ih rest, utf16EncodeChar,
      if_pos (by omega), List.length_singleton, List.length_cons, Nat.add_comm]

theorem Ascii.utf8_length {text : List Char} (h : Ascii text) :
    (utf8 text).length = text.length := by
  rw [(utf8_length_eq_iff text).mpr h, h.utf16_length]

/-! ## The unit 0 -/

/-- The text does not contain the character 0. -/
def NulFree (text : List Char) : Prop := ∀ c ∈ text, c.toNat ≠ 0

instance nulFree_decidable (text : List Char) : Decidable (NulFree text) :=
  List.decidableBAll (fun c : Char => c.toNat ≠ 0) text

theorem zero_mem_utf8EncodeChar {c : Char} : 0 ∈ String.utf8EncodeChar c ↔ c.toNat = 0 := by
  have valid := char_toNat_valid c
  have same : c.val.toNat = c.toNat := rfl
  have zero (n : Nat) : (0 : UInt8) = UInt8.ofNat n ↔ n % 256 = 0 := by
    rw [← UInt8.toNat_inj, UInt8.toNat_ofNat']
    exact eq_comm
  unfold String.utf8EncodeChar
  simp only [same]
  split <;> (try split) <;> (try split) <;>
    simp only [List.mem_cons, List.not_mem_nil, or_false, zero] <;> omega

theorem zero_mem_utf16EncodeChar {c : Char} : 0 ∈ utf16EncodeChar c ↔ c.toNat = 0 := by
  have valid := char_toNat_valid c
  have zero (n : Nat) : (0 : UInt16) = UInt16.ofNat n ↔ n % 65536 = 0 := by
    rw [← UInt16.toNat_inj, UInt16.toNat_ofNat']
    exact eq_comm
  unfold utf16EncodeChar
  split <;> simp only [List.mem_cons, List.not_mem_nil, or_false, zero] <;> omega

theorem nulFree_iff_utf8 {text : List Char} : NulFree text ↔ 0 ∉ utf8 text := by
  simp [NulFree, utf8, zero_mem_utf8EncodeChar]

theorem nulFree_iff_utf16 {text : List Char} : NulFree text ↔ 0 ∉ utf16 text := by
  simp [NulFree, utf16, zero_mem_utf16EncodeChar]

/-- Units of ASCII are text. -/
theorem exists_utf16_of_ascii {units : List UInt16} (h : ∀ u ∈ units, u < 0x80) :
    ∃ text, Ascii text ∧ utf16 text = units := by
  induction units with
  | nil => exact ⟨[], by simp [Ascii], rfl⟩
  | cons u units ih =>
    obtain ⟨small, rest⟩ := List.forall_mem_cons.mp h
    obtain ⟨text, ascii, rfl⟩ := ih rest
    have small : u.toNat < 0x80 := UInt16.lt_iff_toNat_lt.mp small
    have char : (Char.ofNat u.toNat).toNat = u.toNat := char_toNat_ofNat (.inl (by omega))
    refine ⟨Char.ofNat u.toNat :: text, ?_, ?_⟩
    · exact List.forall_mem_cons.mpr ⟨by omega, ascii⟩
    · rw [utf16, List.flatMap_cons, ← utf16, utf16EncodeChar, char, if_pos (by omega),
        UInt16.ofNat_toNat]
      rfl

theorem utf8_inj {s t : List Char} (h : utf8 s = utf8 t) : s = t := by
  have := decodeUtf8_utf8 s
  rw [h, decodeUtf8_utf8] at this
  exact (Option.some_inj.mp this).symm

theorem utf16_inj {s t : List Char} (h : utf16 s = utf16 t) : s = t := by
  have := decodeUtf16_utf16 s
  rw [h, decodeUtf16_utf16] at this
  exact (Option.some_inj.mp this).symm

theorem ascii_iff_utf16 {text : List Char} : Ascii text ↔ ∀ u ∈ utf16 text, u < 0x80 := by
  constructor
  · intro ascii u hu
    obtain ⟨c, hc, hu⟩ := List.mem_flatMap.mp hu
    have small := ascii c hc
    rw [utf16EncodeChar, if_pos (by omega), List.mem_singleton] at hu
    rw [hu, UInt16.lt_iff_toNat_lt, UInt16.toNat_ofNat']
    exact Nat.lt_of_le_of_lt (Nat.mod_le _ _) small
  · intro units
    obtain ⟨text', ascii, same⟩ := exists_utf16_of_ascii units
    exact utf16_inj same ▸ ascii

end Unicode
