import Yella.Text

/-!
# Escapes in file name patterns

`first_unescaped_special_char` and `unescape_pattern` of `file_name_matcher.c`.
-/

namespace Yella.Glob

/-- The backslashes that end a prefix, which is given in reverse. -/
def backslashesBefore : UStr → Nat
  | [] => 0
  | c :: before => if c = backslash then backslashesBefore before + 1 else 0

/-- The loop, after `before` (in reverse) and at `rest`. -/
def specialFrom (before : UStr) : UStr → Option Nat
  | [] => none
  | c :: rest =>
    if (c = star ∨ c = question) ∧ backslashesBefore before % 2 = 0 then some before.length
    else specialFrom (c :: before) rest

/-- The offset of the character. -/
def firstUnescapedSpecialChar (pattern : UStr) : Option Nat := specialFrom [] pattern

/-- The loop over the pattern. After a backslash at the end it copies the terminator and
goes on reading behind it. -/
def unescapeFrom : UStr → Option UStr
  | [] => some []
  | c :: rest =>
    if c = backslash then
      match rest with
      | [] => none
      | d :: rest => (unescapeFrom rest).map (d :: ·)
    else (unescapeFrom rest).map (c :: ·)

def unescapePattern (pattern : UStr) : Option UStr :=
  match uStrchr pattern backslash with
  | none => some pattern
  | some _ => unescapeFrom pattern

theorem specialFrom_none {before rest : UStr}
    (h : ∀ c ∈ rest, c ≠ star ∧ c ≠ question) : specialFrom before rest = none := by
  induction rest generalizing before with
  | nil => rfl
  | cons c rest ih =>
    rw [List.forall_mem_cons] at h
    simp [specialFrom, h.1, ih h.2]

theorem backslashesBefore_of_not_mem {before : UStr} (h : backslash ∉ before) :
    backslashesBefore before = 0 := by
  cases before with
  | nil => rfl
  | cons c before => simp [backslashesBefore, Ne.symm (List.ne_of_not_mem_cons h)]

/-- Without a backslash nothing is escaped. -/
theorem specialFrom_of_mem {before rest : UStr} (hb : backslash ∉ before)
    (hr : backslash ∉ rest) (h : ∃ c ∈ rest, c = star ∨ c = question) :
    ∃ i, specialFrom before rest = some i := by
  induction rest generalizing before with
  | nil => simp at h
  | cons c rest ih =>
    by_cases hc : c = star ∨ c = question
    · exact ⟨before.length, by simp [specialFrom, hc, backslashesBefore_of_not_mem hb]⟩
    · have hne := List.ne_of_not_mem_cons hr
      have hrest : ∃ c ∈ rest, c = star ∨ c = question := by
        obtain ⟨d, hd, hs⟩ := h
        rcases List.mem_cons.mp hd with rfl | hd
        · exact absurd hs hc
        · exact ⟨d, hd, hs⟩
      obtain ⟨i, hi⟩ := @ih (c :: before) (by simp [hb, hne])
        (List.not_mem_of_not_mem_cons hr) hrest
      exact ⟨i, by simp [specialFrom, hc, hi]⟩

theorem firstUnescapedSpecialChar_none {s : UStr} (hb : backslash ∉ s) :
    firstUnescapedSpecialChar s = none ↔ ∀ c ∈ s, c ≠ star ∧ c ≠ question := by
  refine ⟨fun h c hc => ?_, specialFrom_none⟩
  rw [← not_or]
  intro hs
  obtain ⟨i, hi⟩ := @specialFrom_of_mem [] s (by simp) hb ⟨c, hc, hs⟩
  rw [firstUnescapedSpecialChar, hi] at h
  cases h

theorem unescapeFrom_length_le {s t : UStr} (h : unescapeFrom s = some t) :
    t.length ≤ s.length := by
  fun_induction unescapeFrom s generalizing t with
  | case1 => cases h; simp
  | case2 => cases h
  | case3 d rest ih =>
    obtain ⟨t', ht', rfl⟩ := Option.map_eq_some_iff.mp h
    have := ih ht'
    simp only [List.length_cons]
    omega
  | case4 c rest hc ih =>
    obtain ⟨t', ht', rfl⟩ := Option.map_eq_some_iff.mp h
    have := ih ht'
    simp only [List.length_cons]
    omega

/-- Every backslash is consumed, so the result is shorter. -/
theorem unescapeFrom_length_lt {s t : UStr} (h : unescapeFrom s = some t)
    (hb : backslash ∈ s) : t.length < s.length := by
  fun_induction unescapeFrom s generalizing t with
  | case1 => simp at hb
  | case2 => cases h
  | case3 d rest ih =>
    obtain ⟨t', ht', rfl⟩ := Option.map_eq_some_iff.mp h
    have := unescapeFrom_length_le ht'
    simp only [List.length_cons]
    omega
  | case4 c rest hc ih =>
    obtain ⟨t', ht', rfl⟩ := Option.map_eq_some_iff.mp h
    have := ih ht' (by simpa [Ne.symm hc] using hb)
    simp only [List.length_cons]
    omega

theorem unescapePattern_self {s : UStr} : unescapePattern s = some s ↔ backslash ∉ s := by
  constructor
  · intro h hb
    cases hu : uStrchr s backslash with
    | none => exact uStrchr_none.mp hu hb
    | some _ =>
      have := unescapeFrom_length_lt (by simpa [unescapePattern, hu] using h) hb
      omega
  · intro h
    simp [unescapePattern, uStrchr_none.mpr h]

end Yella.Glob
