import Yella.File.Checked
import Yella.Glob.Special
import Yella.Plugin.WatchPaths

/-!
# Scans of strings

The functions that move pointers over NUL-terminated strings, with the backward scans of
`run_one_include` and `get_paths`. Each read is of the array that the string is in, or fails.
-/

namespace Yella

namespace CString

/-! ## Back to a separator -/

section
variable (inc : CString)

/-- The loop back from `special`, and the copy that is made where it ends in the string. -/
def topDir (special : Nat) : Option (Option UStr) := do
  let sep ← inc.stepBack notSep special
  if 0 ≤ sep then
    let dir ← inc.copy 0 (if sep = 0 then 1 else sep.toNat)
    some (some dir)
  else some none

/-- `run_one_include` for a pattern with a wildcard. -/
def runOneInclude : Option (Option UStr) := do
  match ← inc.firstUnescapedSpecialChar with
  | none => some none
  | some special => inc.topDir special

/-- One round of the inner loop of `get_paths`. Without a wildcard and a separator the assertion
ends the program. -/
def watchDir : Option (Option UStr) := do
  match (← inc.firstUnescapedSpecialChar).or (uStrrchr inc.text dirSep) with
  | none => some none
  | some spesh => inc.topDir spesh

end

section
variable {inc : CString} {special : Nat}

theorem separatorBefore_eq {text : UStr} (inside : special < text.length) :
    separatorBefore text special =
      if (text.take (special + 1)).rdropWhile notSep = [] then none
      else some (((text.take (special + 1)).rdropWhile notSep).length - 1) := by
  induction special with
  | zero =>
    have last : text.take 1 = [] ++ [text[0]] := by
      rw [← List.take_append_getElem inside, List.take_zero]
    rw [separatorBefore, List.getElem?_eq_getElem inside, last]
    by_cases sep : text[0] = dirSep
    · rw [List.rdropWhile_concat_neg _ _ _ (by simp [notSep, sep]), sep]
      rfl
    · rw [List.rdropWhile_concat_pos _ _ _ (by simpa [notSep] using sep),
        if_neg (by simpa using sep)]
      rfl
  | succ special ih =>
    have last : text.take (special + 1 + 1) = text.take (special + 1) ++ [text[special + 1]] :=
      (List.take_append_getElem inside).symm
    rw [separatorBefore, List.getElem?_eq_getElem inside, last]
    by_cases sep : text[special + 1] = dirSep
    · rw [List.rdropWhile_concat_neg _ _ _ (by simp [notSep, sep]), if_pos (by rw [sep]),
        if_neg (List.concat_ne_nil _ _), List.length_append, List.length_take_of_le (by omega)]
      rfl
    · rw [List.rdropWhile_concat_pos _ _ _ (by simpa [notSep] using sep),
        if_neg (by simpa using sep)]
      exact ih (by omega)

/-- The loop back reads the unit in front of the string if there is no separator. -/
theorem topDir_eq (inside : special < inc.text.length) :
    inc.topDir special = (Yella.topDir inc.text special).map some := by
  have back := inc.stepBack_eq (i := special + 1) (p := notSep) inside
  have index : ((special + 1 : Nat) : Int) - 1 = special := by omega
  rw [index] at back
  rw [topDir, back, Yella.topDir, separatorBefore_eq inside]
  by_cases absent : (inc.text.take (special + 1)).rdropWhile notSep = []
  · rw [if_pos absent, if_pos absent]
    rfl
  · have pos := List.length_pos_of_ne_nil absent
    have within : (inc.text.take (special + 1)).rdropWhile notSep <+: inc.text :=
      (List.rdropWhile_prefix _ _).trans (List.take_prefix _ _)
    have len := within.length_le
    obtain ⟨n, hn⟩ : ∃ n, ((inc.text.take (special + 1)).rdropWhile notSep).length = n + 1 :=
      ⟨_, (Nat.succ_pred_eq_of_pos pos).symm⟩
    have copied := inc.at_start.copy (n := if n = 0 then 1 else n) (by split <;> omega)
    simp [absent, hn, copied]

/-- The scan stays in the string if there is a separator in front of the character. -/
theorem topDir_isSome_iff (inside : special < inc.text.length) :
    (inc.topDir special).isSome ↔ dirSep ∈ inc.text.take (special + 1) := by
  rw [topDir_eq inside, Option.isSome_map, Yella.topDir, Option.isSome_map,
    separatorBefore_eq inside, ← not_iff_not, ← rdropWhile_notSep_eq_nil_iff]
  split <;> simp [*]

theorem special_wildcard {p : UStr} {i : Nat} (found : Glob.firstUnescapedSpecialChar p = some i) :
    ∃ c, p[i]? = some c ∧ (c = star ∨ c = question) := by
  rcases Glob.reads_cases p with ⟨u, h⟩ | ⟨r, u, h, rfl⟩ | ⟨r, u, c, q, h, wild, rfl⟩
  · rw [h.special_none] at found
    cases found
  · rw [h.special_append] at found
    simp [Glob.specialFrom, show ¬ (backslash = star ∨ backslash = question) by decide] at found
  · rw [h.special_wildcard wild] at found
    obtain rfl := Option.some.inj found
    exact ⟨c, by simp, wild⟩

/-- A wildcard is no separator, so there is one in front of it or none. -/
theorem topDir_special_isSome_iff (found : Glob.firstUnescapedSpecialChar inc.text = some special) :
    (inc.topDir special).isSome ↔ dirSep ∈ inc.text.take special := by
  obtain ⟨c, here, wild⟩ := special_wildcard found
  obtain ⟨inside, here⟩ := List.getElem?_eq_some_iff.mp here
  have other : dirSep ≠ c := by
    rcases wild with rfl | rfl <;> decide
  rw [topDir_isSome_iff inside, ← List.take_append_getElem inside, List.mem_append, here,
    List.mem_singleton]
  exact or_iff_left other

theorem runOneInclude_isSome_iff (inc : CString) : inc.runOneInclude.isSome ↔
    ∀ special ∈ Glob.firstUnescapedSpecialChar inc.text, dirSep ∈ inc.text.take special := by
  unfold runOneInclude
  rw [firstUnescapedSpecialChar_eq]
  cases found : Glob.firstUnescapedSpecialChar inc.text with
  | none => simp
  | some special =>
    simp only [Option.mem_def, Option.some.injEq, forall_eq']
    exact topDir_special_isSome_iff found

/-- Without a wildcard the scan starts at a separator. -/
theorem watchDir_isSome_iff (inc : CString) : inc.watchDir.isSome ↔
    ∀ special ∈ Glob.firstUnescapedSpecialChar inc.text, dirSep ∈ inc.text.take special := by
  unfold watchDir
  rw [firstUnescapedSpecialChar_eq]
  cases found : Glob.firstUnescapedSpecialChar inc.text with
  | none =>
    simp only [Option.mem_def, reduceCtorEq, false_implies, implies_true, iff_true]
    cases last : uStrrchr inc.text dirSep with
    | none => simp
    | some sep =>
      obtain ⟨u, v, text, rfl, -⟩ := uStrrchr_some last
      have inside : u.length < inc.text.length := by
        rw [text]
        simp
      show (inc.topDir u.length).isSome
      rw [topDir_isSome_iff inside, text]
      simp [List.take_append]
  | some special =>
    simp only [Option.mem_def, Option.some.injEq, forall_eq']
    exact topDir_special_isSome_iff found

end

end CString

/-! ## Patterns that end with an escape -/

namespace Glob

theorem unescapeFrom_isSome_iff {before rest : UStr} (even : backslashesBefore before % 2 = 0) :
    (unescapeFrom rest).isSome ↔ backslashesBefore (rest.reverse ++ before) % 2 = 0 := by
  fun_induction unescapeFrom rest generalizing before with
  | case1 => simpa using even
  | case2 =>
    have odd : ¬ (backslashesBefore before + 1) % 2 = 0 := by omega
    apply iff_of_false (by simp)
    show ¬ backslashesBefore (backslash :: before) % 2 = 0
    rwa [backslashesBefore_backslash]
  | case3 d rest ih =>
    rw [Option.isSome_map, ih (backslashesBefore_escape even d)]
    simp
  | case4 c rest plain ih =>
    have none : backslashesBefore (c :: before) % 2 = 0 := by rw [backslashesBefore_plain plain]
    rw [Option.isSome_map, ih none]
    simp

/-- The unescaper stays in the pattern unless its last backslash escapes the terminator. -/
theorem unescapePattern_isSome_iff_even (p : UStr) :
    (unescapePattern p).isSome ↔ backslashesBefore p.reverse % 2 = 0 := by
  have whole := @unescapeFrom_isSome_iff [] p rfl
  rw [List.append_nil] at whole
  unfold unescapePattern
  cases found : uStrchr p backslash with
  | none =>
    have absent : backslash ∉ p.reverse := by simpa using uStrchr_none.mp found
    simp [backslashesBefore_of_not_mem absent]
  | some _ => exact whole

end Glob

/-! ## The two names of a path -/

theorem yellaBaseName_isSome (path : UStr) : (yellaBaseName path).isSome := by
  by_cases empty : path = []
  · rw [empty]
    rfl
  · by_cases named : trimmed path = []
    · rw [yellaBaseName_slashes empty named]
      rfl
    · rw [yellaBaseName_eq named]
      rfl

theorem yellaDirName_isSome (path : UStr) : (yellaDirName path).isSome := by
  by_cases empty : path = []
  · rw [empty]
    rfl
  · by_cases named : trimmed path = []
    · rw [yellaDirName_slashes empty named]
      rfl
    · rw [yellaDirName_eq named]
      rfl

/-! ## All of them -/

inductive Scan where
  | fileNameMatches (name pattern : CString)
  | firstUnescapedSpecialChar (pattern : CString)
  | unescapePattern (pattern : CString)
  | yellaBaseName (path : CString)
  | yellaDirName (path : CString)
  | runOneInclude (incl : CString)
  | getPaths (inc : CString)

namespace Scan

/-- Each read is of an index from 0 to that of the terminator. -/
def StaysInside : Scan → Prop
  | .fileNameMatches name pattern => (name.fileNameMatches pattern).isSome
  | .firstUnescapedSpecialChar pattern => pattern.firstUnescapedSpecialChar.isSome
  | .unescapePattern pattern => pattern.unescapePattern.isSome
  | .yellaBaseName path => path.yellaBaseName.isSome
  | .yellaDirName path => path.yellaDirName.isSome
  | .runOneInclude incl => incl.runOneInclude.isSome
  | .getPaths inc => inc.watchDir.isSome

/-- The pattern does not end with an odd number of backslashes. A path has a slash before its last
part, and for `yella_dir_name` a part before that slash, or no part at all. The first wildcard of
a pattern has a separator before it. -/
def Shielded : Scan → Prop
  | .fileNameMatches _ _ => True
  | .firstUnescapedSpecialChar _ => True
  | .unescapePattern pattern => Glob.backslashesBefore pattern.text.reverse % 2 = 0
  | .yellaBaseName path => trimmed path.text = [] ∨ dirSep ∈ trimmed path.text
  | .yellaDirName path => trimmed path.text = [] ∨ front (trimmed path.text) ≠ []
  | .runOneInclude inc | .getPaths inc =>
    ∀ special ∈ Glob.firstUnescapedSpecialChar inc.text, dirSep ∈ inc.text.take special

/-- **Scans of strings.** A scan stays in its string exactly if something stops it there. -/
theorem staysInside_iff (scan : Scan) : scan.StaysInside ↔ scan.Shielded := by
  cases scan with
  | fileNameMatches name pattern => simp [StaysInside, Shielded, CString.fileNameMatches_eq]
  | firstUnescapedSpecialChar pattern =>
    simp [StaysInside, Shielded, CString.firstUnescapedSpecialChar_eq]
  | unescapePattern pattern =>
    rw [StaysInside, CString.unescapePattern_eq]
    exact Glob.unescapePattern_isSome_iff_even pattern.text
  | yellaBaseName path =>
    rw [StaysInside, Shielded, CString.yellaBaseName_eq]
    split <;> simp [*, yellaBaseName_isSome]
  | yellaDirName path =>
    rw [StaysInside, Shielded, CString.yellaDirName_eq]
    split <;> simp [*, yellaDirName_isSome]
  | runOneInclude incl => exact incl.runOneInclude_isSome_iff
  | getPaths inc => exact inc.watchDir_isSome_iff

/-- The base name of `a`: the loop back reads the unit in front of the path. -/
theorem not_staysInside_part :
    ¬ (Scan.yellaBaseName ⟨[97], by decide⟩).StaysInside ∧ ¬ ∀ scan : Scan, scan.StaysInside := by
  have outside : ¬ (Scan.yellaBaseName ⟨[97], by decide⟩).StaysInside := by
    have absent : ¬ (trimmed [97] = [] ∨ dirSep ∈ trimmed [97]) := by decide
    rw [StaysInside, CString.yellaBaseName_eq, if_neg absent]
    exact Bool.false_ne_true
  exact ⟨outside, fun all => outside (all _)⟩

end Scan

end Yella
