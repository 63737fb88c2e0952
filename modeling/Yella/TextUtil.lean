import Yella.CInt
import Yella.Lib.Unicode
import Yella.Text

/-!
# Conversions between UTF-16 and UTF-8

`yella_to_utf8` and `yella_from_utf8` of `text_util.c` over the conversions of ICU, which are
a parameter. A result of `none` is undefined, and `some none` is NULL.
-/

namespace Yella

open Unicode

inductive UErrorCode where
  | zeroError
  | stringNotTerminatedWarning
  | bufferOverflowError
  | invalidCharFound
  | indexOutOfBoundsError
  deriving DecidableEq, Repr

/-- What a call of `u_strToUTF8` or `u_strFromUTF8` leaves in the buffer, in `dest_len` and in
`ec`. -/
structure Conversion (β : Type) where
  dest : List β
  destLen : Int
  ec : UErrorCode

/-- The arguments are the capacity and the source. -/
structure Icu where
  strToUtf8 : Int → UStr → Conversion UInt8
  strFromUtf8 : Int → List UInt8 → Conversion UChar

section
variable {α β : Type} [OfNat β 0] [DecidableEq β]

/-- A buffer read as a string: its units before the terminator. -/
def cString (dest : List β) : Option (List β) :=
  if 0 ∈ dest then some (dest.takeWhile (· ≠ 0)) else none

/-- A first attempt with one unit for each unit of the source and one for the terminator, and
a second one with the length that the first reported. The length of the source is stored in
an `int32_t`. -/
def convert (conv : Int → List α → Conversion β) (str : List α) : Option (Option (List β)) :=
  let len := toInt32 str.length
  if 0 ≤ len ∧ len < 0x7fffffff then
    let src := str.take len.toNat
    let first := conv (len + 1) src
    if first.ec ≠ .zeroError then
      let second := conv first.destLen src
      if second.ec ≠ .zeroError then some none
      else (cString second.dest).map some
    else (cString first.dest).map some
  else none

end

def yellaFromUtf8 (icu : Icu) (str : List UInt8) : Option (Option UStr) :=
  convert icu.strFromUtf8 str

def yellaToUtf8 (icu : Icu) (str : UStr) : Option (Option (List UInt8)) :=
  convert icu.strToUtf8 str

/-- A string of ASCII, with a length that has room in an `int32_t`. -/
structure UStr.IsAscii (str : UStr) : Prop where
  units : ∀ c ∈ str, c < 0x80
  short : str.length < 0x7fffffff

theorem UStr.isAscii_iff {str : UStr} :
    str.IsAscii ↔ (∀ c ∈ str, c < 0x80) ∧ str.length < 0x7fffffff :=
  ⟨fun h => ⟨h.units, h.short⟩, fun h => ⟨h.1, h.2⟩⟩

-- the units of the string are looked at, not all there are
instance (str : UStr) : Decidable str.IsAscii :=
  have := List.decidableBAll (· < 0x80) str
  decidable_of_iff' _ UStr.isAscii_iff

theorem UStr.IsAscii.of_front {str front : UStr} (h : str.IsAscii) (pre : front <+: str) :
    front.IsAscii :=
  ⟨fun c hc => h.units c (pre.subset hc), Nat.lt_of_le_of_lt pre.length_le h.short⟩

/-- A conversion to UTF-8, with `none` for NULL, and one of well-formed UTF-8, as their callers see
them. -/
structure Utf where
  toUtf8 : UStr → Option (List UInt8)
  fromUtf8 : List UInt8 → UStr

/-- The text does not become NULL. -/
def Utf.Converts (utf : Utf) (str : UStr) : Prop := (utf.toUtf8 str).isSome

instance (utf : Utf) (str : UStr) : Decidable (utf.Converts str) :=
  inferInstanceAs (Decidable ((utf.toUtf8 str).isSome = true))

/-- What a text becomes that is converted. -/
def Utf.bytes (utf : Utf) (str : UStr) : List UInt8 := (utf.toUtf8 str).getD []

theorem Utf.Converts.toUtf8_eq {utf : Utf} {str : UStr} (h : utf.Converts str) :
    utf.toUtf8 str = some (utf.bytes str) := by
  obtain ⟨u, hu⟩ := Option.isSome_iff_exists.mp h
  rw [Utf.bytes, hu, Option.getD_some]

theorem Utf.bytes_eq {utf : Utf} {str : UStr} {u : List UInt8} (h : utf.toUtf8 str = some u) :
    utf.bytes str = u := by rw [Utf.bytes, h, Option.getD_some]

/-- The conversions are inverse on these texts. -/
def Utf.InverseOn (utf : Utf) (texts : List UStr) : Prop :=
  ∀ s ∈ texts, (utf.toUtf8 s).map utf.fromUtf8 = some s

instance (utf : Utf) (texts : List UStr) : Decidable (utf.InverseOn texts) :=
  inferInstanceAs (Decidable (∀ s ∈ texts, (utf.toUtf8 s).map utf.fromUtf8 = some s))

theorem Utf.InverseOn.of_subset {utf : Utf} {ss ts : List UStr} (h : utf.InverseOn ts)
    (hs : ss ⊆ ts) : utf.InverseOn ss := fun s hmem => h s (hs hmem)

theorem Utf.InverseOn.back {utf : Utf} {texts : List UStr} (h : utf.InverseOn texts) {s : UStr}
    (hs : s ∈ texts) : ∃ u, utf.toUtf8 s = some u ∧ utf.fromUtf8 u = s :=
  Option.map_eq_some_iff.mp (h s hs)

/-- Conversions that agree with the real ones on ASCII text and refuse the rest. -/
def asciiUtf : Utf where
  toUtf8 str := if str.IsAscii then some (str.map UInt16.toUInt8) else none
  fromUtf8 str := str.map UInt8.toUInt16

/-- `yella_to_utf8` and `yella_from_utf8`: nothing but ASCII is converted. -/
structure YellaUtf extends Utf where
  ascii : ∀ str : UStr, (toUtf8 str).isSome ↔ str.IsAscii

instance : Coe YellaUtf Utf := ⟨YellaUtf.toUtf⟩

theorem YellaUtf.converts_iff {utf : YellaUtf} {str : UStr} : utf.Converts str ↔ str.IsAscii :=
  utf.ascii str

def asciiYellaUtf : YellaUtf where
  toUtf := asciiUtf
  ascii str := by
    simp only [asciiUtf]
    split <;> simp [*]

/-! ## What ICU documents -/

/-- The calls for one source, whose conversion is `out`: the needed length is reported, and
there is an error or a warning unless there is room for a terminator. -/
structure Reports {β : Type} [OfNat β 0] (conv : Int → Conversion β) (out : List β) : Prop where
  ec : ∀ cap, 0 ≤ cap → out.length < 0x80000000 → (conv cap).ec =
    if cap < out.length then .bufferOverflowError
    else if cap = out.length then .stringNotTerminatedWarning else .zeroError
  destLen : ∀ cap, 0 ≤ cap → out.length < 0x80000000 → (conv cap).destLen = out.length
  long : ∀ cap, 0x80000000 ≤ out.length → (conv cap).ec ≠ .zeroError
  dest : ∀ cap, (conv cap).ec = .zeroError → (conv cap).dest = out ++ [0]

structure Icu.Documented (icu : Icu) : Prop where
  toUtf8 : ∀ text, Reports (fun cap => icu.strToUtf8 cap (utf16 text)) (utf8 text)
  fromUtf8 : ∀ text, Reports (fun cap => icu.strFromUtf8 cap (utf8 text)) (utf16 text)
  toUtf8_ill : ∀ cap src, (∀ text, utf16 text ≠ src) → (icu.strToUtf8 cap src).ec ≠ .zeroError
  fromUtf8_ill : ∀ cap src, (∀ text, utf8 text ≠ src) →
    (icu.strFromUtf8 cap src).ec ≠ .zeroError

section
variable {α β : Type} [OfNat β 0] [DecidableEq β] {conv : Int → List α → Conversion β}
  {str : List α} {out : List β}

theorem cString_append {out : List β} (h : 0 ∉ out) : cString (out ++ [0]) = some out := by
  have stays : ∀ c ∈ out, decide (c ≠ 0) = true := by
    intro c hc
    have : c ≠ 0 := by
      rintro rfl
      exact h hc
    simpa using this
  rw [cString, if_pos (by simp), List.takeWhile_append_of_pos stays]
  simp

theorem toInt32_length {n : Nat} (h : n < 0x7fffffff) : toInt32 n = n :=
  toInt32_of_range (by omega) (by omega)

/-- A string that fits is converted as a whole: the first attempt is enough exactly if the
conversion is no longer than the source, and the second never has room for a terminator. -/
theorem convert_eq_cString (short : str.length < 0x7fffffff)
    (reports : Reports (fun cap => conv cap str) out) :
    convert conv str =
      if out.length ≤ str.length then (cString (out ++ [0])).map some else some none := by
  have len := toInt32_length short
  have fits : 0 ≤ (str.length : Int) ∧ (str.length : Int) < 0x7fffffff := by omega
  simp only [convert, len, fits, and_self, ↓reduceIte, Int.toNat_natCast, List.take_length]
  by_cases room : out.length ≤ str.length
  · have ok : (conv (str.length + 1) str).ec = .zeroError := by
      rw [reports.ec (str.length + 1) (by omega) (by omega), if_neg (by omega), if_neg (by omega)]
    simp [ok, reports.dest _ ok, room]
  · have first : (conv (str.length + 1) str).ec ≠ .zeroError := by
      by_cases long : 0x80000000 ≤ out.length
      · exact reports.long _ long
      · rw [reports.ec (str.length + 1) (by omega) (by omega)]
        split
        · simp
        · rw [if_pos (by omega)]
          simp
    have second : (conv (conv (str.length + 1) str).destLen str).ec ≠ .zeroError := by
      by_cases long : 0x80000000 ≤ out.length
      · exact reports.long _ long
      · rw [reports.destLen (str.length + 1) (by omega) (by omega),
          reports.ec out.length (by omega) (by omega), if_neg (by omega), if_pos rfl]
        simp
    simp [first, second, room]

theorem convert_eq (short : str.length < 0x7fffffff) (free : 0 ∉ out)
    (reports : Reports (fun cap => conv cap str) out) :
    convert conv str = some (if out.length ≤ str.length then some out else none) := by
  rw [convert_eq_cString short reports, cString_append free]
  split <;> rfl

/-- What a conversion returns is the conversion of a prefix that fits. -/
theorem convert_prefix (h : convert conv str = some (some out)) :
    ∃ src, src <+: str ∧ src.length < 0x7fffffff ∧ convert conv src = some (some out) := by
  by_cases fits : 0 ≤ toInt32 str.length ∧ toInt32 str.length < 0x7fffffff
  · have shorter : (toInt32 str.length).toNat ≤ str.length := by
      unfold toInt32 at *
      omega
    have same : (str.take (toInt32 str.length).toNat).length = (toInt32 str.length).toNat := by
      simp [shorter]
    refine ⟨str.take (toInt32 str.length).toNat, List.take_prefix _ _, by omega, ?_⟩
    have len : toInt32 ((toInt32 str.length).toNat : Int) = toInt32 str.length := by
      rw [Int.toNat_of_nonneg fits.1, toInt32_of_range (by omega) (by omega)]
    rw [← h]
    simp only [convert, same, len, List.take_take, Nat.min_self]
  · simp [convert, fits] at h

theorem convert_ill (short : str.length < 0x7fffffff)
    (ill : ∀ cap, (conv cap str).ec ≠ .zeroError) : convert conv str ≠ some (some out) := by
  have fits : 0 ≤ (str.length : Int) ∧ (str.length : Int) < 0x7fffffff := by omega
  simp [convert, toInt32_length short, fits, ill]

end

section
variable {icu : Icu} {text : List Char}

theorem yellaFromUtf8_eq (doc : icu.Documented) (free : NulFree text)
    (short : (utf8 text).length < 0x7fffffff) :
    yellaFromUtf8 icu (utf8 text) = some (some (utf16 text)) := by
  rw [yellaFromUtf8, convert_eq short (nulFree_iff_utf16.mp free) (doc.fromUtf8 text),
    if_pos (utf16_length_le text)]

/-- Only ASCII does not grow. -/
theorem yellaToUtf8_eq (doc : icu.Documented) (free : NulFree text)
    (short : (utf16 text).length < 0x7fffffff) :
    yellaToUtf8 icu (utf16 text) = some (if Ascii text then some (utf8 text) else none) := by
  have grows : (utf8 text).length ≤ (utf16 text).length ↔ Ascii text := by
    rw [← utf8_length_eq_iff]
    have := utf16_length_le text
    omega
  rw [yellaToUtf8, convert_eq short (nulFree_iff_utf8.mp free) (doc.toUtf8 text)]
  simp only [grows]

theorem convert_toUtf8_isSome (doc : icu.Documented) {str : UStr}
    (short : str.length < 0x7fffffff) :
    (yellaToUtf8 icu str).join.isSome ↔ ∀ c ∈ str, c < 0x80 := by
  by_cases well : ∃ t, utf16 t = str
  · obtain ⟨t, rfl⟩ := well
    have grows : (utf8 t).length ≤ (utf16 t).length ↔ Ascii t := by
      rw [← utf8_length_eq_iff]
      have := utf16_length_le t
      omega
    have ended : (cString (utf8 t ++ [0])).isSome := by simp [cString]
    rw [yellaToUtf8, convert_eq_cString short (doc.toUtf8 t), ← ascii_iff_utf16, ← grows]
    split
    · rename_i room
      obtain ⟨u, hu⟩ := Option.isSome_iff_exists.mp ended
      simp [hu, room]
    · rename_i long
      simp [long]
  · apply iff_of_false
    · intro some
      obtain ⟨u, hu⟩ := Option.isSome_iff_exists.mp some
      rw [Option.join_eq_some_iff] at hu
      exact convert_ill short (fun cap => doc.toUtf8_ill cap str fun t ht => well ⟨t, ht⟩) hu
    · intro ascii
      obtain ⟨t, -, ht⟩ := exists_utf16_of_ascii ascii
      exact well ⟨t, ht⟩

/-- What the callers get of ICU: NULL for a text that is not ASCII. A string whose length does not
fit is left out. -/
def Icu.utf (icu : Icu) (doc : icu.Documented) : YellaUtf where
  toUtf8 str := if str.length < 0x7fffffff then (yellaToUtf8 icu str).join else none
  fromUtf8 str := (yellaFromUtf8 icu str).join.getD []
  ascii str := by
    rw [UStr.isAscii_iff]
    split
    · rename_i short
      simp [convert_toUtf8_isSome doc short, short]
    · rename_i long
      simp [long]

/-- A conversion to UTF-8 that returns has converted an ASCII prefix. -/
theorem yellaToUtf8_ascii (doc : icu.Documented) (free : NulFree text) {u : List UInt8}
    (h : yellaToUtf8 icu (utf16 text) = some (some u)) :
    ∃ t, utf16 t <+: utf16 text ∧ (utf16 t).length < 0x7fffffff ∧ NulFree t ∧ Ascii t ∧
      u = utf8 t := by
  obtain ⟨src, pre, short, hsrc⟩ := convert_prefix h
  by_cases well : ∃ t, utf16 t = src
  · obtain ⟨t, rfl⟩ := well
    have freeT : NulFree t := by
      rw [nulFree_iff_utf16] at free ⊢
      exact fun h0 => free (pre.subset h0)
    have eq := yellaToUtf8_eq doc freeT short
    rw [yellaToUtf8, hsrc, Option.some_inj] at eq
    split at eq
    · rename_i ascii
      exact ⟨t, pre, short, freeT, ascii, Option.some_inj.mp eq⟩
    · cases eq
  · exact absurd hsrc
      (convert_ill short fun cap => doc.toUtf8_ill cap src fun t ht => well ⟨t, ht⟩)

theorem yellaFromUtf8_some (doc : icu.Documented) (free : NulFree text) {s : UStr}
    (h : yellaFromUtf8 icu (utf8 text) = some (some s)) :
    ∃ t, utf8 t <+: utf8 text ∧ (utf8 t).length < 0x7fffffff ∧ NulFree t ∧ s = utf16 t := by
  obtain ⟨src, pre, short, hsrc⟩ := convert_prefix h
  by_cases well : ∃ t, utf8 t = src
  · obtain ⟨t, rfl⟩ := well
    have freeT : NulFree t := by
      rw [nulFree_iff_utf8] at free ⊢
      exact fun h0 => free (pre.subset h0)
    have eq := yellaFromUtf8_eq doc freeT short
    rw [yellaFromUtf8, hsrc] at eq
    exact ⟨t, pre, short, freeT, by simpa using eq⟩
  · exact absurd hsrc
      (convert_ill short fun cap => doc.fromUtf8_ill cap src fun t ht => well ⟨t, ht⟩)

end

/-! ## Round trips -/

def RoundTrips16 (icu : Icu) (s : UStr) : Prop :=
  ∃ u, yellaToUtf8 icu s = some (some u) ∧ yellaFromUtf8 icu u = some (some s)

def RoundTrips8 (icu : Icu) (u : List UInt8) : Prop :=
  ∃ s, yellaFromUtf8 icu u = some (some s) ∧ yellaToUtf8 icu s = some (some u)

/-- Only ASCII comes back, in either direction, where the length of the string and its
terminator fit in an `int32_t`. -/
theorem roundTrips_iff_ascii {icu : Icu} (doc : icu.Documented) (text : List Char)
    (free : NulFree text) :
    (RoundTrips16 icu (utf16 text) ↔ Ascii text ∧ text.length < 0x7fffffff) ∧
      (RoundTrips8 icu (utf8 text) ↔ Ascii text ∧ text.length < 0x7fffffff) := by
  constructor
  · constructor
    · rintro ⟨u, hto, hfrom⟩
      obtain ⟨t, -, short, freeT, ascii, rfl⟩ := yellaToUtf8_ascii doc free hto
      rw [ascii.utf16_length] at short
      rw [yellaFromUtf8_eq doc freeT (by rwa [ascii.utf8_length])] at hfrom
      obtain rfl := utf16_inj (Option.some_inj.mp (Option.some_inj.mp hfrom))
      exact ⟨ascii, short⟩
    · rintro ⟨ascii, short⟩
      refine ⟨utf8 text, ?_, yellaFromUtf8_eq doc free (by rwa [ascii.utf8_length])⟩
      rw [yellaToUtf8_eq doc free (by rwa [ascii.utf16_length]), if_pos ascii]
  · constructor
    · rintro ⟨s, hfrom, hto⟩
      obtain ⟨t, -, short, freeT, rfl⟩ := yellaFromUtf8_some doc free hfrom
      have := utf16_length_le t
      rw [yellaToUtf8_eq doc freeT (by omega), Option.some_inj] at hto
      split at hto
      · rename_i ascii
        obtain rfl := utf8_inj (Option.some_inj.mp hto)
        exact ⟨ascii, by rwa [ascii.utf8_length] at short⟩
      · cases hto
    · rintro ⟨ascii, short⟩
      refine ⟨utf16 text, yellaFromUtf8_eq doc free (by rwa [ascii.utf8_length]), ?_⟩
      rw [yellaToUtf8_eq doc free (by rwa [ascii.utf16_length]), if_pos ascii]

/-- ICU as far as it is documented, with 0 in the place of what is left open. -/
def icuReport {β : Type} [OfNat β 0] (cap : Int) : Option (List β) → Conversion β
  | none => ⟨[], 0, .invalidCharFound⟩
  | some out =>
    if 0x80000000 ≤ out.length then ⟨[], 0, .indexOutOfBoundsError⟩
    else if cap < out.length then ⟨out.take cap.toNat, out.length, .bufferOverflowError⟩
    else if cap = out.length then ⟨out, out.length, .stringNotTerminatedWarning⟩
    else ⟨out ++ [0], out.length, .zeroError⟩

def plainIcu : Icu where
  strToUtf8 cap src := icuReport cap ((decodeUtf16 src).map utf8)
  strFromUtf8 cap src := icuReport cap ((decodeUtf8 src).map utf16)

theorem icuReport_reports {β : Type} [OfNat β 0] (out : List β) :
    Reports (fun cap => icuReport cap (some out)) out where
  ec cap _ short := by
    simp only [icuReport, Nat.not_le.mpr short, ↓reduceIte]
    split
    · rfl
    · split <;> rfl
  destLen cap _ short := by
    simp only [icuReport, Nat.not_le.mpr short, ↓reduceIte]
    split
    · rfl
    · split <;> rfl
  long cap long := by simp [icuReport, long]
  dest cap := by
    simp only [icuReport]
    split
    · simp
    · split
      · simp
      · split <;> simp

theorem plainIcu_documented : plainIcu.Documented where
  toUtf8 text := by
    simp only [plainIcu, decodeUtf16_utf16, Option.map_some]
    exact icuReport_reports (utf8 text)
  fromUtf8 text := by
    simp only [plainIcu, decodeUtf8_utf8, Option.map_some]
    exact icuReport_reports (utf16 text)
  toUtf8_ill cap src ill := by
    cases h : decodeUtf16 src with
    | none => simp [plainIcu, h, icuReport]
    | some text => exact absurd (utf16_of_decodeUtf16 h) (ill text)
  fromUtf8_ill cap src ill := by
    cases h : decodeUtf8 src with
    | none => simp [plainIcu, h, icuReport]
    | some text => exact absurd (utf8_of_decodeUtf8 h) (ill text)

theorem roundTrips_abc :
    RoundTrips16 plainIcu (utf16 ['a', 'b', 'c']) ∧
      RoundTrips8 plainIcu (utf8 ['a', 'b', 'c']) := by
  have trips := roundTrips_iff_ascii plainIcu_documented ['a', 'b', 'c'] (by decide)
  exact ⟨trips.1.mpr ⟨by decide, by decide⟩, trips.2.mpr ⟨by decide, by decide⟩⟩

/-- The name `é`. -/
theorem accent_lost :
    plainIcu.Documented ∧ yellaToUtf8 plainIcu (utf16 ['é']) = some none ∧
      ¬ RoundTrips16 plainIcu (utf16 ['é']) ∧ ¬ RoundTrips8 plainIcu (utf8 ['é']) := by
  have lost : yellaToUtf8 plainIcu (utf16 ['é']) = some none := by
    rw [yellaToUtf8_eq plainIcu_documented (by decide) (by decide)]
    simp [Ascii]
  refine ⟨plainIcu_documented, lost, ?_, ?_⟩
  · rintro ⟨u, hto, -⟩
    rw [lost] at hto
    cases hto
  · rintro ⟨s, hfrom, hto⟩
    rw [yellaFromUtf8_eq plainIcu_documented (by decide) (by decide)] at hfrom
    rw [← Option.some_inj.mp (Option.some_inj.mp hfrom), lost] at hto
    cases hto

end Yella
