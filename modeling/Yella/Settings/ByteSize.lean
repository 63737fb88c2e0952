import Mathlib.Data.List.TakeWhile
import Yella.Settings.Kinds
import Yella.Spool.Name

/-!
# Byte sizes

The texts of byte sizes, and what `yella_settings_set_byte_size` makes of them.
-/

namespace Yella

/-! ## Texts -/

/-- The factors of the suffixes, which are in lower case here. -/
def byteSuffixes : List (UStr × Nat) :=
  [([], 1), ([98], 1),
    ([107], 1024), ([107, 98], 1024),
    ([109], 1024 * 1024), ([109, 98], 1024 * 1024),
    ([103], 1024 * 1024 * 1024), ([103, 98], 1024 * 1024 * 1024)]

def byteFactor (suffix : UStr) : Option Nat := byteSuffixes.lookup suffix

def asciiLower (c : UChar) : UChar := if 65 ≤ c ∧ c ≤ 90 then c + 32 else c

def digitsValue (digits : UStr) : Nat := digits.foldl (fun n c => n * 10 + (c.toNat - 48)) 0

/-- The product that a text gives which is ASCII digits and one of the suffixes. -/
def exactByteSize (val : UStr) : Option Nat :=
  let digits := val.takeWhile isDigit
  if digits = [] then none
  else (byteFactor ((val.dropWhile isDigit).map asciiLower)).map (digitsValue digits * ·)

/-- A product that is positive and fits in 64 bits. -/
def storableByteSize (val : UStr) : Option Nat :=
  (exactByteSize val).filter fun n => 0 < n ∧ n < 0x10000000000000000

/-! ## ICU -/

/-- The characters that ICU takes for decimal digits and for white space, and their forms in lower
case. Of those that are not ASCII only this much is used: the terminator is none of them. -/
structure IcuChars where
  digit : UChar → Option Nat
  isSpace : UChar → Bool
  toLower : UChar → UChar
  digit_ascii : ∀ c < 128, digit c = if isDigit c then some (c.toNat - 48) else none
  isSpace_ascii : ∀ c < 128, isSpace c = decide (9 ≤ c ∧ c ≤ 13 ∨ 28 ≤ c ∧ c ≤ 32)
  toLower_ascii : ∀ c < 128, toLower c = asciiLower c
  toLower_ne_zero : ∀ c, c ≠ 0 → toLower c ≠ 0

namespace IcuChars

variable (chars : IcuChars)

def isDigit (c : UChar) : Bool := (chars.digit c).isSome

/-- `%u` -/
def number (val : UStr) : Nat :=
  (val.takeWhile chars.isDigit).foldl (fun n c => n * 10 + (chars.digit c).getD 0) 0

/-- `%3S`, of what follows the digits -/
def suffix (val : UStr) : UStr :=
  (((val.dropWhile chars.isDigit).dropWhile chars.isSpace).takeWhile (!chars.isSpace ·)).take 3

/-- The product of what is read of a text, whatever stands between and behind it. -/
def readByteSize (val : UStr) : Option Nat :=
  if chars.isDigit (unitAt val 0) then
    (byteFactor ((chars.suffix val).map chars.toLower)).map (chars.number val * ·)
  else none

end IcuChars

/-- The digits go to 32 bits. At the end of the text `%3S` may count as read or not. -/
structure ByteSizeIcu.Documented (icu : ByteSizeIcu) (chars : IcuChars) : Prop where
  isDigit : ∀ c, icu.isDigit c = chars.isDigit c
  scan : ∀ val, chars.isDigit (unitAt val 0) = true → ∃ len,
    icu.scan val = (len, UInt32.ofNat (chars.number val), chars.suffix val) ∧
      (len = 2 ∨ len = 1 ∧ chars.suffix val = [])
  toLower : ∀ suffix, icu.toLower suffix = some (suffix.map chars.toLower)

/-! ## What is stored -/

section
variable {icu : ByteSizeIcu} {chars : IcuChars} {val lower : UStr} {factor n : Nat}

theorem byteFactor_mem (h : byteFactor lower = some factor) : (lower, factor) ∈ byteSuffixes := by
  obtain ⟨before, after, split, -⟩ := List.lookup_eq_some_iff.mp h
  rw [split]
  exact List.mem_append_right before List.mem_cons_self

theorem suffix_of_byteFactor (h : byteFactor lower = some factor) :
    suffixInvalid lower = false ∧ suffixFactor lower = UInt32.ofNat factor := by
  have all : ∀ s ∈ byteSuffixes,
      suffixInvalid s.1 = false ∧ suffixFactor s.1 = UInt32.ofNat s.2 := by decide
  exact all _ (byteFactor_mem h)

theorem letters_of_byteFactor (h : byteFactor lower = some factor) :
    lower.length ≤ 2 ∧ ∀ c ∈ lower, 97 ≤ c ∧ c ≤ 122 := by
  have all : (byteSuffixes.all fun s =>
      s.1.length ≤ 2 ∧ s.1.all fun c => 97 ≤ c ∧ c ≤ 122) = true := by decide
  simp only [List.all_eq_true, decide_eq_true_eq] at all
  exact all _ (byteFactor_mem h)

theorem suffixInvalid_of_not_byteFactor (nonzero : 0 ∉ lower) (h : byteFactor lower = none) :
    suffixInvalid lower = true := by
  have other : ∀ s ∈ byteSuffixes, lower ≠ s.1 := by
    intro s hs
    simpa using List.lookup_eq_none_iff.mp h s hs
  simp only [byteSuffixes, List.forall_mem_cons] at other
  rw [suffixInvalid, decide_eq_true_iff]
  rcases lower with _ | ⟨a, _ | ⟨b, _ | ⟨c, rest⟩⟩⟩
  · exact absurd rfl other.1
  · right; right; right
    simp [unitAt] at other nonzero ⊢
    tauto
  · right
    simp [unitAt] at other nonzero ⊢
    tauto
  · left
    simp

theorem suffix_nonzero (nonzero : 0 ∉ val) : 0 ∉ (chars.suffix val).map chars.toLower := by
  intro h
  obtain ⟨c, hc, zero⟩ := List.mem_map.mp h
  apply chars.toLower_ne_zero c _ zero
  rintro rfl
  apply nonzero
  apply (List.dropWhile_sublist chars.isDigit).mem
  apply (List.dropWhile_sublist chars.isSpace).mem
  apply (List.takeWhile_sublist (!chars.isSpace ·)).mem
  exact List.mem_of_mem_take hc

/-- The four conditions on the suffix are those of the table. -/
theorem suffixed_eq (num : Nat) (nonzero : 0 ∉ lower) :
    (if suffixInvalid lower then 0 else UInt32.ofNat num * suffixFactor lower) =
      UInt32.ofNat (((byteFactor lower).map (num * ·)).getD 0) := by
  cases found : byteFactor lower with
  | none =>
    rw [suffixInvalid_of_not_byteFactor nonzero found, if_pos rfl]
    rfl
  | some factor =>
    obtain ⟨valid, same⟩ := suffix_of_byteFactor found
    rw [valid, if_neg Bool.false_ne_true, same, Option.map_some, Option.getD_some,
      UInt32.ofNat_mul]

/-- The number is the product that is read, modulo `2 ^ 32`. -/
theorem byteSizeValue_eq (documented : icu.Documented chars) (nonzero : 0 ∉ val) :
    byteSizeValue icu val = UInt32.ofNat ((chars.readByteSize val).getD 0) := by
  rw [byteSizeValue, IcuChars.readByteSize]
  by_cases digit : chars.isDigit (unitAt val 0) = true
  · have some : ¬ (val.length = 0 ∨ icu.isDigit (unitAt val 0) = false) := by
      rw [documented.isDigit, digit]
      rintro (empty | h)
      · rw [List.length_eq_zero_iff.mp empty] at digit
        have terminator : chars.isDigit 0 = false := by
          rw [IcuChars.isDigit, chars.digit_ascii 0 (by decide)]
          rfl
        exact absurd (terminator.symm.trans digit) Bool.false_ne_true
      · exact absurd h.symm Bool.false_ne_true
    obtain ⟨len, scan, count⟩ := documented.scan val digit
    rw [if_neg some, if_pos digit, scan, ← suffixed_eq _ (suffix_nonzero nonzero)]
    dsimp only
    rcases count with rfl | ⟨rfl, nothing⟩
    · rw [if_neg (by decide), if_pos rfl, documented.toLower]
    · rw [if_neg (by decide), if_neg (by decide), nothing]
      show _ = UInt32.ofNat _ * 1
      rw [UInt32.mul_one]
  · rw [if_pos (.inr (by rw [documented.isDigit]; simpa using digit)), if_neg digit]
    rfl

theorem letter_of_asciiLower {c : UChar} (h : 97 ≤ asciiLower c ∧ asciiLower c ≤ 122) :
    65 ≤ c ∧ c ≤ 122 := by
  unfold asciiLower at h
  split at h
  · simp only [UInt16.le_iff_toNat_le] at *
    simp at *
    omega
  · simp only [UInt16.le_iff_toNat_le] at *
    simp at *
    omega

theorem isDigit_bounds {c : UChar} : isDigit c = true ↔ 48 ≤ c ∧ c ≤ 57 := by
  rw [isDigit, Bool.and_eq_true, decide_eq_true_iff, decide_eq_true_iff]

/-- Among ASCII letters and digits ICU does what it does in the C locale. -/
theorem IcuChars.letter {c : UChar} (h : 65 ≤ c ∧ c ≤ 122) :
    chars.isDigit c = false ∧ chars.isSpace c = false ∧ chars.toLower c = asciiLower c := by
  simp only [UInt16.le_iff_toNat_le] at h
  have ascii : c < 128 := by
    rw [UInt16.lt_iff_toNat_lt]
    simp at *
    omega
  have noDigit : Yella.isDigit c = false := by
    rw [Bool.eq_false_iff, ne_eq, isDigit_bounds]
    simp only [UInt16.le_iff_toNat_le]
    simp at *
    omega
  refine ⟨?_, ?_, chars.toLower_ascii c ascii⟩
  · rw [IcuChars.isDigit, chars.digit_ascii c ascii, noDigit]
    rfl
  · rw [chars.isSpace_ascii c ascii, decide_eq_false_iff_not]
    simp only [UInt16.le_iff_toNat_le]
    simp at *
    omega

theorem IcuChars.digit_of_isDigit {c : UChar} (h : Yella.isDigit c = true) :
    chars.digit c = some (c.toNat - 48) := by
  have ascii : c < 128 := by
    have bounds := isDigit_bounds.mp h
    simp only [UInt16.le_iff_toNat_le, UInt16.lt_iff_toNat_lt] at bounds ⊢
    simp at *
    omega
  rw [chars.digit_ascii c ascii, h, if_pos rfl]

/-- A suffix is letters only. -/
theorem letters_of_suffix {suffix : UStr} (h : byteFactor (suffix.map asciiLower) = some factor) :
    suffix.length ≤ 2 ∧ ∀ c ∈ suffix, 65 ≤ c ∧ c ≤ 122 := by
  obtain ⟨short, letters⟩ := letters_of_byteFactor h
  rw [List.length_map] at short
  refine ⟨short, ?_⟩
  intro c hc
  exact letter_of_asciiLower (letters _ (List.mem_map_of_mem hc))

theorem not_isDigit_of_suffix {suffix : UStr}
    (h : byteFactor (suffix.map asciiLower) = some factor) : ∀ c ∈ suffix, isDigit c = false := by
  intro c hc
  have letter := (letters_of_suffix h).2 c hc
  rw [Bool.eq_false_iff, ne_eq, isDigit_bounds]
  intro digit
  exact absurd (UInt16.le_trans letter.1 digit.2) (by decide)

theorem split_of_all {α : Type} {p : α → Bool} {digits suffix : List α}
    (all : ∀ c ∈ digits, p c = true) (none : ∀ c ∈ suffix, p c = false) :
    (digits ++ suffix).takeWhile p = digits ∧ (digits ++ suffix).dropWhile p = suffix := by
  rw [List.takeWhile_append_of_pos all, List.dropWhile_append_of_pos all]
  cases suffix with
  | nil => exact ⟨List.append_nil digits, rfl⟩
  | cons c suffix =>
    have other := none c List.mem_cons_self
    rw [List.takeWhile_cons, List.dropWhile_cons, other]
    exact ⟨List.append_nil digits, rfl⟩

theorem exactByteSize_eq_some : exactByteSize val = some n ↔
    ∃ digits suffix factor, val = digits ++ suffix ∧ digits ≠ [] ∧
      (∀ c ∈ digits, isDigit c = true) ∧ byteFactor (suffix.map asciiLower) = some factor ∧
        n = digitsValue digits * factor := by
  unfold exactByteSize
  dsimp only
  constructor
  · intro h
    split at h
    · cases h
    · rename_i some
      obtain ⟨factor, found, rfl⟩ := Option.map_eq_some_iff.mp h
      refine ⟨_, _, factor, List.takeWhile_append_dropWhile.symm, some, ?_, found, rfl⟩
      intro c hc
      exact List.mem_takeWhile_imp hc
  · rintro ⟨digits, suffix, factor, rfl, some, all, found, rfl⟩
    obtain ⟨take, drop⟩ := split_of_all all (not_isDigit_of_suffix found)
    rw [take, drop, if_neg some, found]
    rfl

/-- A byte size is cut where the digits end. -/
theorem exactByteSize_parts (h : exactByteSize val = some n) : ∃ digits suffix factor,
    val = digits ++ suffix ∧ val.takeWhile isDigit = digits ∧ val.dropWhile isDigit = suffix ∧
      digits ≠ [] ∧ (∀ c ∈ digits, isDigit c = true) ∧ (∀ c ∈ suffix, 65 ≤ c ∧ c ≤ 122) ∧
        byteFactor (suffix.map asciiLower) = some factor ∧ n = digitsValue digits * factor := by
  obtain ⟨digits, suffix, factor, rfl, some, all, found, rfl⟩ := exactByteSize_eq_some.mp h
  obtain ⟨take, drop⟩ := split_of_all all (not_isDigit_of_suffix found)
  have letters := (letters_of_suffix found).2
  exact ⟨digits, suffix, factor, rfl, take, drop, some, all, letters, found, rfl⟩

/-- Of an exact byte size ICU reads all. -/
theorem readByteSize_of_exact (h : exactByteSize val = some n) :
    chars.readByteSize val = some n := by
  obtain ⟨digits, suffix, factor, rfl, some, all, found, rfl⟩ := exactByteSize_eq_some.mp h
  obtain ⟨short, letters⟩ := letters_of_suffix found
  have digit : ∀ c ∈ digits, chars.isDigit c = true := by
    intro c hc
    rw [IcuChars.isDigit, chars.digit_of_isDigit (all c hc)]
    rfl
  obtain ⟨take, drop⟩ := split_of_all digit fun c hc => (chars.letter (letters c hc)).1
  have number : chars.number (digits ++ suffix) = digitsValue digits := by
    rw [IcuChars.number, take, digitsValue]
    apply List.foldl_ext
    intro n c hc
    rw [chars.digit_of_isDigit (all c hc), Option.getD_some]
  have noSpace : suffix.dropWhile chars.isSpace = suffix := by
    cases suffix with
    | nil => rfl
    | cons c suffix =>
      rw [List.dropWhile_cons, (chars.letter (letters c List.mem_cons_self)).2.1,
        if_neg Bool.false_ne_true]
  have same : chars.suffix (digits ++ suffix) = suffix := by
    rw [IcuChars.suffix, drop, noSpace, List.takeWhile_eq_self_iff.mpr, List.take_of_length_le]
    · omega
    · intro c hc
      rw [(chars.letter (letters c hc)).2.1]
      rfl
  have lower : suffix.map chars.toLower = suffix.map asciiLower :=
    List.map_congr_left fun c hc => (chars.letter (letters c hc)).2.2
  have first : chars.isDigit (unitAt (digits ++ suffix) 0) = true := by
    obtain ⟨c, digits, rfl⟩ := List.exists_cons_of_ne_nil some
    exact digit c List.mem_cons_self
  rw [IcuChars.readByteSize, if_pos first, same, lower, found, number]
  rfl

end

/-! ## Exactness -/

/-- The setting has the exact product after the call, or else what it had before. -/
def SetsExactly (icu : ByteSizeIcu) (val : UStr) : Prop :=
  ∀ st sct key, ∃ st', (SettingsCall.setByteSize sct key val).run icu st = some st' ∧
    (findSetting st'.sections (sct, key)).map Setting.value =
      ((storableByteSize val).map fun n => SettingValue.uint (UInt64.ofNat n)).or
        ((findSetting st.sections (sct, key)).map Setting.value)

/-- An exact product is below `2 ^ 32`, or is too large for a setting and is zero in 32 bits; and
nothing else is read as a byte size, unless as one that is zero in 32 bits. -/
def IcuChars.Fits (chars : IcuChars) (val : UStr) : Prop :=
  (∀ n, exactByteSize val = some n →
    n < 0x100000000 ∨ 0x10000000000000000 ≤ n ∧ 0x100000000 ∣ n) ∧
  (exactByteSize val = none → ∀ n, chars.readByteSize val = some n → 0x100000000 ∣ n)

section
variable {icu : ByteSizeIcu} {chars : IcuChars} {val : UStr}

/-- The number that a call stores. -/
def storedByteSize (num : UInt32) : Option UInt64 := if num > 0 then some num.toUInt64 else none

theorem run_setByteSize (icu : ByteSizeIcu) (val : UStr) (st : Settings) (sct key : UStr) : ∃ st',
    (SettingsCall.setByteSize sct key val).run icu st = some st' ∧
      (findSetting st'.sections (sct, key)).map Setting.value =
        ((storedByteSize (byteSizeValue icu val)).map SettingValue.uint).or
          ((findSetting st.sections (sct, key)).map Setting.value) := by
  unfold SettingsCall.run storedByteSize
  dsimp only
  split
  · refine ⟨_, rfl, ?_⟩
    rw [setUintImpl, findSetting_store, Function.update_self]
    rfl
  · exact ⟨st, rfl, rfl⟩

theorem setsExactly_iff_stored : SetsExactly icu val ↔
    storedByteSize (byteSizeValue icu val) = (storableByteSize val).map UInt64.ofNat := by
  constructor
  · intro exact
    obtain ⟨st', run, value⟩ := exact .initial [] []
    obtain ⟨st'', run', value'⟩ := run_setByteSize icu val .initial [] []
    cases run.symm.trans run'
    have absent : (findSetting Settings.initial.sections ([], [])).map Setting.value = none := rfl
    rw [absent, Option.or_none] at value value'
    rw [value'] at value
    cases stored : storedByteSize (byteSizeValue icu val) <;>
      cases storable : storableByteSize val <;> simp_all
  · intro same st sct key
    obtain ⟨st', run, value⟩ := run_setByteSize icu val st sct key
    refine ⟨st', run, ?_⟩
    rw [value, same, Option.map_map]
    rfl

theorem storedByteSize_ofNat (m : Nat) : storedByteSize (UInt32.ofNat m) =
    if 0x100000000 ∣ m then none else some (UInt64.ofNat (m % 0x100000000)) := by
  have pos : UInt32.ofNat m > 0 ↔ ¬ 0x100000000 ∣ m := by
    rw [gt_iff_lt, UInt32.lt_iff_toNat_lt, UInt32.toNat_ofNat', Nat.dvd_iff_mod_eq_zero]
    exact Nat.pos_iff_ne_zero
  have wide : (UInt32.ofNat m).toUInt64 = UInt64.ofNat (m % 0x100000000) := by
    rw [← UInt64.toNat_inj, UInt32.toNat_toUInt64, UInt32.toNat_ofNat', UInt64.toNat_ofNat']
    omega
  unfold storedByteSize
  by_cases zero : 0x100000000 ∣ m
  · rw [if_neg (mt pos.mp (not_not.mpr zero)), if_pos zero]
  · rw [if_pos (pos.mpr zero), if_neg zero, wide]

theorem stored_exact_iff (n : Nat) :
    (if 0x100000000 ∣ n then none else some (UInt64.ofNat (n % 0x100000000))) =
        ((some n).filter fun n => 0 < n ∧ n < 0x10000000000000000).map UInt64.ofNat ↔
      n < 0x100000000 ∨ 0x10000000000000000 ≤ n ∧ 0x100000000 ∣ n := by
  rw [Option.filter_some]
  by_cases fits : 0 < n ∧ n < 0x10000000000000000
  · rw [if_pos (decide_eq_true fits), Option.map_some]
    split
    · rename_i zero
      have large := Nat.le_of_dvd fits.1 zero
      simp only [reduceCtorEq, false_iff]
      omega
    · rw [Option.some_inj, ← UInt64.toNat_inj, UInt64.toNat_ofNat', UInt64.toNat_ofNat']
      omega
  · rw [decide_eq_false fits, if_neg Bool.false_ne_true, Option.map_none]
    split
    · simp only [true_iff]
      omega
    · simp only [reduceCtorEq, false_iff]
      omega

/-- A byte size is stored exactly as long as it fits in 32 bits. -/
theorem setsExactly_iff (documented : icu.Documented chars) (nonzero : 0 ∉ val) :
    SetsExactly icu val ↔ chars.Fits val := by
  rw [setsExactly_iff_stored, byteSizeValue_eq documented nonzero, storedByteSize_ofNat,
    storableByteSize, IcuChars.Fits]
  cases exact : exactByteSize val with
  | some n =>
    rw [readByteSize_of_exact exact, Option.getD_some, stored_exact_iff]
    simp
  | none =>
    cases read : chars.readByteSize val with
    | none => simp
    | some n => simp

end

theorem asciiLower_ne_zero {c : UChar} (h : c ≠ 0) : asciiLower c ≠ 0 := by
  unfold asciiLower
  split
  · rw [ne_eq, ← UInt16.toNat_inj]
    simp only [UInt16.le_iff_toNat_le] at *
    simp at *
    omega
  · exact h

/-- Characters in the C locale. -/
def IcuChars.ascii : IcuChars where
  digit c := if Yella.isDigit c then some (c.toNat - 48) else none
  isSpace c := decide (9 ≤ c ∧ c ≤ 13 ∨ 28 ≤ c ∧ c ≤ 32)
  toLower := asciiLower
  digit_ascii _ _ := rfl
  isSpace_ascii _ _ := rfl
  toLower_ascii _ _ := rfl
  toLower_ne_zero _ := asciiLower_ne_zero

def IcuChars.icu (chars : IcuChars) : ByteSizeIcu where
  isDigit := chars.isDigit
  scan val :=
    (if chars.suffix val = [] then 1 else 2, UInt32.ofNat (chars.number val), chars.suffix val)
  toLower suffix := some (suffix.map chars.toLower)

theorem IcuChars.documented_icu (chars : IcuChars) : chars.icu.Documented chars where
  isDigit _ := rfl
  scan val _ := by
    refine ⟨_, rfl, ?_⟩
    split
    · rename_i nothing
      exact .inr ⟨rfl, nothing⟩
    · exact .inl rfl
  toLower _ := rfl

/-- `740K` -/
theorem setsExactly_kilobytes : SetsExactly IcuChars.ascii.icu [55, 52, 48, 75] := by
  apply (setsExactly_iff IcuChars.ascii.documented_icu (by decide)).mpr
  have read : exactByteSize [55, 52, 48, 75] = some 757760 := by decide
  constructor
  · intro n exact
    cases read.symm.trans exact
    left
    decide
  · intro none
    cases read.symm.trans none

/-- `4G` is no size at all. -/
theorem not_setsExactly_gigabytes : IcuChars.ascii.icu.Documented IcuChars.ascii ∧
    ¬ SetsExactly IcuChars.ascii.icu [52, 71] := by
  constructor
  · exact IcuChars.ascii.documented_icu
  · rw [setsExactly_iff_stored]
    decide

end Yella
