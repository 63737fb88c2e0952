import Mathlib.Data.List.Lex

/-!
# UTF-16 strings

A NUL-terminated `UChar*` of the source is the list of its code units before the
terminator. Reading `*s` at the terminator is the empty list.
-/

namespace Yella

abbrev UChar := UInt16

abbrev UStr := List UChar

instance : LawfulBEq UStr := inferInstance

/-- `YELLA_DIR_SEP[0]` -/
def dirSep : UChar := 47

def star : UChar := 42

def question : UChar := 63

def backslash : UChar := 92

/-- `u_strchr`: the string from the first occurrence of `c` on. -/
def uStrchr (s : UStr) (c : UChar) : Option UStr :=
  match s with
  | [] => none
  | d :: rest => if d = c then some (d :: rest) else uStrchr rest c

/-- The difference of the first units that differ, as `u_strcmp` returns it. -/
def uStrcmp : UStr → UStr → Int
  | [], [] => 0
  | [], d :: _ => 0 - (d.toNat : Int)
  | c :: _, [] => c.toNat
  | c :: s, d :: t => if c = d then uStrcmp s t else (c.toNat : Int) - d.toNat

theorem uStrchr_none {s : UStr} {c : UChar} : uStrchr s c = none ↔ c ∉ s := by
  induction s with
  | nil => simp [uStrchr]
  | cons d s ih =>
    simp only [uStrchr]
    split
    · rename_i h; simp [h]
    · rename_i h; simp [ih, Ne.symm h]

theorem uStrchr_some {s t : UStr} {c : UChar} (h : uStrchr s c = some t) :
    ∃ u v, s = u ++ c :: v ∧ t = c :: v ∧ c ∉ u := by
  induction s with
  | nil => simp [uStrchr] at h
  | cons d s ih =>
    simp only [uStrchr] at h
    split at h
    · rename_i hd
      cases h
      exact ⟨[], s, by simp [hd], by simp [hd], by simp⟩
    · rename_i hd
      obtain ⟨u, v, rfl, rfl, hu⟩ := ih h
      exact ⟨d :: u, v, rfl, rfl, by simp [hu, Ne.symm hd]⟩

theorem uStrcmp_eq_zero_iff {s t : UStr} (hs : 0 ∉ s) (ht : 0 ∉ t) :
    uStrcmp s t = 0 ↔ s = t := by
  have nonzero {c : UChar} {u : UStr} (h : 0 ∉ c :: u) : c.toNat ≠ 0 := by
    intro hc
    exact List.ne_of_not_mem_cons h (UInt16.toNat.inj hc).symm
  induction s generalizing t with
  | nil =>
    cases t with
    | nil => simp [uStrcmp]
    | cons d t => have := nonzero ht; simp [uStrcmp]; omega
  | cons c s ih =>
    cases t with
    | nil => have := nonzero hs; simp [uStrcmp]; omega
    | cons d t =>
      simp only [uStrcmp, List.cons.injEq]
      split
      · rename_i same
        simp [same, ih (List.not_mem_of_not_mem_cons hs) (List.not_mem_of_not_mem_cons ht)]
      · rename_i differ
        have : c.toNat ≠ d.toNat := fun h => differ (UInt16.toNat.inj h)
        simp only [differ, false_and, iff_false]
        omega

/-- A digit of `%02x`. -/
def hexDigit (n : Nat) : UChar := UInt16.ofNat (if n < 10 then 48 + n else 87 + n)

def hexByte (b : UInt8) : UStr := [hexDigit (b.toNat / 16), hexDigit (b.toNat % 16)]

theorem hexDigit_inj {m n : Nat} (hm : m < 16) (hn : n < 16) (h : hexDigit m = hexDigit n) :
    m = n := by
  have h := congrArg UInt16.toNat h
  simp only [hexDigit, UInt16.toNat_ofNat'] at h
  split at h <;> split at h <;> omega

theorem hexByte_ascii (b : UInt8) : ∀ c ∈ hexByte b, c < 0x80 := by
  have digit (n : Nat) (h : n < 16) : hexDigit n < 0x80 := by
    simp only [hexDigit, UInt16.lt_iff_toNat_lt, UInt16.toNat_ofNat', UInt16.reduceToNat]
    split <;> omega
  have hb := b.toNat_lt
  have high := digit (b.toNat / 16) (by omega)
  have low := digit (b.toNat % 16) (by omega)
  simp [hexByte, high, low]

theorem hexByte_inj {a b : UInt8} (h : hexByte a = hexByte b) : a = b := by
  have ha := a.toNat_lt
  have hb := b.toNat_lt
  simp only [hexByte, List.cons.injEq, and_true] at h
  have high := hexDigit_inj (by omega) (by omega) h.1
  have low := hexDigit_inj (by omega) (by omega) h.2
  apply UInt8.toNat.inj
  omega

theorem flatMap_hexByte_inj {xs ys : List UInt8} (h : xs.flatMap hexByte = ys.flatMap hexByte) :
    xs = ys := by
  induction xs generalizing ys with
  | nil =>
    cases ys with
    | nil => rfl
    | cons y ys => simp [hexByte] at h
  | cons x xs ih =>
    cases ys with
    | nil => simp [hexByte] at h
    | cons y ys =>
      rw [List.flatMap_cons, List.flatMap_cons] at h
      have h := List.append_inj h rfl
      rw [hexByte_inj h.1, ih h.2]

instance : LinearOrder UChar where
  le_refl := UInt16.le_refl
  le_trans _ _ _ := UInt16.le_trans
  le_antisymm _ _ := UInt16.le_antisymm
  le_total := UInt16.le_total
  lt_iff_le_not_ge a b := by
    rw [UInt16.not_le]
    exact ⟨fun h => ⟨UInt16.le_of_lt h, h⟩, fun h => h.2⟩
  toDecidableLE := inferInstance

/-- The comparators of the trees are `u_strcmp` of the names, which have no terminator in
them. -/
theorem uStrcmp_neg_iff {s t : UStr} (ht : 0 ∉ t) : uStrcmp s t < 0 ↔ s < t := by
  induction s generalizing t with
  | nil =>
    cases t with
    | nil => simp [uStrcmp]
    | cons d t =>
      have : d.toNat ≠ 0 := by
        intro h
        exact List.ne_of_not_mem_cons ht (UInt16.toNat.inj h).symm
      simp only [uStrcmp, List.nil_lt_cons, iff_true]
      omega
  | cons c s ih =>
    cases t with
    | nil => simp [uStrcmp]
    | cons d t =>
      by_cases h : c = d
      · subst h
        simpa [uStrcmp, List.cons_lt_cons_iff] using ih (List.not_mem_of_not_mem_cons ht)
      · simp only [uStrcmp, List.cons_lt_cons_iff, h, ↓reduceIte, false_and, or_false,
          UInt16.lt_iff_toNat_lt]
        omega

end Yella
