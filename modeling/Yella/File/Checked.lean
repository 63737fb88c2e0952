import Yella.File.Split
import Yella.Glob.Checked

/-!
# Paths in their arrays

`yella_base_name` and `yella_dir_name` of `file_posix.c` with pointers as indices into the array of
the path and its terminator, where each read is checked. A result of `none` is a read outside of
the array, or through NULL.
-/

namespace Yella

namespace CString

section
variable (path : CString)

def uStrlen : Option Nat := path.stepOver (fun c => c ≠ 0) 0

def yellaLastNot (c : UChar) : Option (Option Int) := do
  let len ← path.uStrlen
  if len = 0 then some none
  else
    let result ← path.stepBackWithin (fun d => d = c) ((len : Int) - 1)
    some (if result < 0 then none else some result)

def yellaBaseName : Option UStr := do
  let len ← path.uStrlen
  if len = 0 then some [46]
  else
    let span ← path.stepOver isSep 0
    if span = len then some [dirSep]
    else
      let last ← (← path.yellaLastNot dirSep)
      let slash ← path.stepBack notSep last
      if slash < 0 then path.copy 0 len
      else path.copy (slash + 1).toNat (last - slash).toNat

def yellaDirName : Option UStr := do
  let len ← path.uStrlen
  if len = 0 then some [46]
  else
    let span ← path.stepOver isSep 0
    if span = len then some [dirSep]
    else
      let last ← (← path.yellaLastNot dirSep)
      let slash ← path.stepBack notSep last
      if slash < 0 then some [46]
      else
        let last ← path.stepBack isSep slash
        if last < 0 then some [dirSep] else path.copy 0 (last + 1).toNat

end

section
variable {path : CString}

theorem uStrlen_eq (path : CString) : path.uStrlen = some path.text.length :=
  path.stepOver_terminator

theorem span_eq (path : CString) :
    path.stepOver isSep 0 = some (path.text.takeWhile isSep).length :=
  path.stepOver_start (by decide)

/-- `end` of both functions. -/
theorem yellaLastNot_eq (named : trimmed path.text ≠ []) :
    path.yellaLastNot dirSep = some (some (((trimmed path.text).length : Int) - 1)) := by
  have last := path.stepBackWithin_eq (p := isSep) (Nat.le_refl _)
  have pos : 0 < (trimmed path.text).length := List.length_pos_of_ne_nil named
  rw [List.take_length] at last
  unfold yellaLastNot
  rw [uStrlen_eq, Option.bind_eq_bind, Option.bind_some,
    if_neg (length_ne_zero_of_trimmed named)]
  show (path.stepBackWithin isSep _).bind _ = _
  rw [last]
  show some (if (((trimmed path.text).length : Int) - 1) < 0 then none else _) = _
  rw [if_neg (by omega)]
  rfl

theorem trimmed_front (path : UStr) : trimmed path <+: path := List.rdropWhile_prefix _ _

theorem take_trimmed (path : UStr) : path.take (trimmed path).length = trimmed path :=
  (List.prefix_iff_eq_take.mp (trimmed_front path)).symm

theorem trimmed_append_drop (path : UStr) :
    trimmed path ++ path.drop (trimmed path).length = path := by
  nth_rewrite 1 [← take_trimmed path]
  exact List.take_append_drop _ _

theorem rdropWhile_notSep_eq_nil_iff {q : UStr} : q.rdropWhile notSep = [] ↔ dirSep ∉ q := by
  rw [List.rdropWhile_eq_nil_iff]
  constructor
  · intro plain sep
    exact absurd (plain _ sep) (by decide)
  · intro plain c hc
    have : c ≠ dirSep := fun same => plain (same ▸ hc)
    simpa [notSep] using this

/-- The scan for the slash before the last part. -/
theorem slash_eq : path.stepBack notSep (((trimmed path.text).length : Int) - 1) =
    if dirSep ∉ trimmed path.text then none
    else some ((((trimmed path.text).rdropWhile notSep).length : Int) - 1) := by
  rw [path.stepBack_eq (trimmed_front _).length_le, take_trimmed]
  exact if_congr rdropWhile_notSep_eq_nil_iff rfl rfl

/-- `yella_base_name` reads the unit in front of a path of one part. -/
theorem yellaBaseName_eq (path : CString) : path.yellaBaseName =
    if trimmed path.text = [] ∨ dirSep ∈ trimmed path.text then Yella.yellaBaseName path.text
    else none := by
  unfold yellaBaseName
  rw [uStrlen_eq, span_eq]
  simp only [Option.bind_eq_bind, Option.bind_some]
  by_cases empty : path.text = []
  · simp [empty, trimmed, Yella.yellaBaseName]
  by_cases named : trimmed path.text = []
  · have len : path.text.length ≠ 0 := fun zero => empty (List.length_eq_zero_iff.mp zero)
    rw [if_neg len, if_pos (span_eq_length_iff.mpr named), if_pos (.inl named),
      yellaBaseName_slashes empty named]
  rw [if_neg (length_ne_zero_of_trimmed named), if_neg (mt span_eq_length_iff.mp named),
    yellaLastNot_eq named, Option.bind_some, Option.bind_some, slash_eq]
  by_cases sep : dirSep ∈ trimmed path.text
  · have front : 0 < ((trimmed path.text).rdropWhile notSep).length :=
      List.length_pos_of_ne_nil fun none => rdropWhile_notSep_eq_nil_iff.mp none sep
    have parts : (trimmed path.text).rdropWhile notSep ++ lastPart (trimmed path.text) =
        trimmed path.text := List.rdropWhile_append_rtakeWhile
    have start : path.At 0 ((trimmed path.text).rdropWhile notSep ++
        (lastPart (trimmed path.text) ++ path.text.drop (trimmed path.text).length)) := by
      rw [← List.append_assoc, parts, trimmed_append_drop]
      exact path.at_start
    have copied := start.skip.copy (n := (lastPart (trimmed path.text)).length) (by simp)
    have sum := congrArg List.length parts
    rw [List.length_append] at sum
    rw [Nat.zero_add, List.take_left] at copied
    rw [if_neg (not_not_intro sep), if_pos (.inr sep), Yella.yellaBaseName_eq named, if_pos sep,
      Option.bind_some, if_neg (by omega), ← copied]
    congr 1 <;> omega
  · rw [if_pos sep, if_neg (not_or.mpr ⟨named, sep⟩)]
    rfl

/-- `yella_dir_name` reads the unit in front of a path that has no directory other than the
root. -/
theorem yellaDirName_eq (path : CString) : path.yellaDirName =
    if trimmed path.text = [] ∨ front (trimmed path.text) ≠ [] then Yella.yellaDirName path.text
    else none := by
  unfold yellaDirName
  rw [uStrlen_eq, span_eq]
  simp only [Option.bind_eq_bind, Option.bind_some]
  by_cases empty : path.text = []
  · simp [empty, trimmed, Yella.yellaDirName]
  by_cases named : trimmed path.text = []
  · have len : path.text.length ≠ 0 := fun zero => empty (List.length_eq_zero_iff.mp zero)
    rw [if_neg len, if_pos (span_eq_length_iff.mpr named), if_pos (.inl named),
      yellaDirName_slashes empty named]
  rw [if_neg (length_ne_zero_of_trimmed named), if_neg (mt span_eq_length_iff.mp named),
    yellaLastNot_eq named, Option.bind_some, Option.bind_some, slash_eq]
  by_cases sep : dirSep ∈ trimmed path.text
  · have pos : 0 < ((trimmed path.text).rdropWhile notSep).length :=
      List.length_pos_of_ne_nil fun none => rdropWhile_notSep_eq_nil_iff.mp none sep
    have within : (trimmed path.text).rdropWhile notSep <+: path.text :=
      (List.rdropWhile_prefix _ _).trans (trimmed_front _)
    have back := path.stepBack_eq (p := isSep) within.length_le
    rw [← List.prefix_iff_eq_take.mp within] at back
    rw [if_neg (not_not_intro sep), Option.bind_some, if_neg (by omega), back]
    show (if front (trimmed path.text) = [] then none
      else some (((front (trimmed path.text)).length : Int) - 1)).bind _ = _
    by_cases one : front (trimmed path.text) = []
    · rw [if_pos one, if_neg (not_or.mpr ⟨named, not_not_intro one⟩)]
      rfl
    · have pos : 0 < (front (trimmed path.text)).length := List.length_pos_of_ne_nil one
      have inside : front (trimmed path.text) <+: path.text :=
        (List.rdropWhile_prefix _ _).trans within
      have copied := path.at_start.copy inside.length_le
      rw [← List.prefix_iff_eq_take.mp inside] at copied
      rw [if_neg one, if_pos (.inr one), Yella.yellaDirName_eq named, if_pos sep, if_neg one,
        Option.bind_some, if_neg (by omega), ← copied]
      congr 1
      omega
  · have one : front (trimmed path.text) = [] := by
      rw [front, rdropWhile_notSep_eq_nil_iff.mpr sep]
      rfl
    rw [if_pos sep, if_neg (not_or.mpr ⟨named, not_not_intro one⟩)]
    rfl

end

end CString

end Yella
