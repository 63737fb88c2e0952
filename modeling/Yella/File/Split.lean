import Mathlib.Data.List.DropRight
import Yella.Text

/-!
# Base names and directory names

`yella_base_name` and `yella_dir_name` of `file_posix.c`. A pointer into a path is given by the
number of units up to and with the one it points at, so it is 0 before the start of the path. A
result of `none` reads through NULL.
-/

namespace Yella

def isSep (c : UChar) : Bool := c = dirSep

def notSep (c : UChar) : Bool := c ≠ dirSep

/-- A loop that steps back while the unit is one of these. The loops read the unit before the path,
but stop there whatever it is. -/
def stepBack (p : UChar → Bool) (path : UStr) : Nat → Nat
  | 0 => 0
  | n + 1 => if path[n]?.any p then stepBack p path n else n + 1

def yellaLastNot (str : UStr) (c : UChar) : Option Nat :=
  if str.length = 0 then none
  else
    let result := stepBack (fun d => d = c) str str.length
    if result = 0 then none else some result

def yellaBaseName (path : UStr) : Option UStr :=
  let len := path.length
  if len = 0 then some [46]
  else
    let span := (path.takeWhile isSep).length
    if span = len then some [dirSep]
    else do
      let last ← yellaLastNot path dirSep
      let slash := stepBack notSep path last
      if slash = 0 then some path else some ((path.drop slash).take (last - slash))

def yellaDirName (path : UStr) : Option UStr :=
  let len := path.length
  if len = 0 then some [46]
  else
    let span := (path.takeWhile isSep).length
    if span = len then some [dirSep]
    else do
      let last ← yellaLastNot path dirSep
      let slash := stepBack notSep path last
      if slash = 0 then some [46]
      else
        let last := stepBack isSep path slash
        if last = 0 then some [dirSep] else some (path.take last)

/-! ## The loops -/

section
variable {p : UChar → Bool} {path : UStr} {n : Nat}

theorem stepBack_le : stepBack p path n ≤ n := by
  induction n with
  | zero => exact Nat.le_refl 0
  | succ n ih =>
    unfold stepBack
    split
    · exact Nat.le_succ_of_le ih
    · exact Nat.le_refl _

theorem take_stepBack (inside : n ≤ path.length) :
    path.take (stepBack p path n) = (path.take n).rdropWhile p := by
  induction n with
  | zero => rfl
  | succ n ih =>
    have unit : path[n]? = some path[n] := List.getElem?_eq_getElem inside
    have last : path.take (n + 1) = path.take n ++ [path[n]] := by
      rw [List.take_add_one, unit]
      rfl
    rw [stepBack, unit, last]
    by_cases h : p path[n]
    · rw [List.rdropWhile_concat_pos _ _ _ h, Option.any_some, if_pos h]
      exact ih (by omega)
    · rw [List.rdropWhile_concat_neg _ _ _ h, Option.any_some, if_neg h, last]

theorem stepBack_eq_zero_iff (inside : n ≤ path.length) :
    stepBack p path n = 0 ↔ (path.take n).rdropWhile p = [] := by
  have le : stepBack p path n ≤ n := stepBack_le
  rw [← take_stepBack inside, List.take_eq_nil_iff]
  constructor
  · exact .inl
  · rintro (zero | rfl)
    · exact zero
    · rw [List.length_nil] at inside
      omega

end

/-! ## Parts of a path -/

/-- The path without the slashes it ends with. -/
def trimmed (path : UStr) : UStr := path.rdropWhile isSep

/-- What is behind the last slash of a path that does not end with one. -/
def lastPart (q : UStr) : UStr := q.rtakeWhile notSep

/-- What is in front of the slashes before the last part. -/
def front (q : UStr) : UStr := (q.rdropWhile notSep).rdropWhile isSep

section
variable {path : UStr}

theorem trimmed_eq_nil_iff : trimmed path = [] ↔ ∀ c ∈ path, c = dirSep := by
  simp [trimmed, isSep, List.rdropWhile_eq_nil_iff]

theorem span_eq_length_iff : (path.takeWhile isSep).length = path.length ↔ trimmed path = [] := by
  rw [trimmed, List.rdropWhile_eq_nil_iff, ← List.takeWhile_eq_self_iff]
  constructor
  · exact (List.takeWhile_prefix _).eq_of_length
  · exact congrArg List.length

theorem length_ne_zero_of_trimmed (named : trimmed path ≠ []) : path.length ≠ 0 := by
  intro zero
  rw [List.length_eq_zero_iff.mp zero] at named
  exact named rfl

theorem yellaBaseName_slashes (nonempty : path ≠ []) (slashes : trimmed path = []) :
    yellaBaseName path = some [dirSep] := by
  have len : path.length ≠ 0 := fun zero => nonempty (List.length_eq_zero_iff.mp zero)
  have span := span_eq_length_iff.mpr slashes
  simp only [yellaBaseName, len, span, ↓reduceIte]

theorem yellaDirName_slashes (nonempty : path ≠ []) (slashes : trimmed path = []) :
    yellaDirName path = some [dirSep] := by
  have len : path.length ≠ 0 := fun zero => nonempty (List.length_eq_zero_iff.mp zero)
  have span := span_eq_length_iff.mpr slashes
  simp only [yellaDirName, len, span, ↓reduceIte]

/-- `end` of both functions. -/
theorem yellaLastNot_eq (named : trimmed path ≠ []) :
    ∃ last, yellaLastNot path dirSep = some last ∧ last ≤ path.length ∧
      path.take last = trimmed path := by
  have whole : path.take (stepBack isSep path path.length) = trimmed path := by
    rw [take_stepBack (Nat.le_refl _), List.take_length]
    rfl
  have inside : stepBack isSep path path.length ≠ 0 := by
    intro zero
    rw [zero] at whole
    exact named whole.symm
  refine ⟨stepBack isSep path path.length, ?_, stepBack_le, whole⟩
  rw [yellaLastNot, if_neg (length_ne_zero_of_trimmed named)]
  exact if_neg inside

/-- There is no slash before the last part exactly if the path is one part. -/
theorem slash_eq_zero_iff {last : Nat} (inside : last ≤ path.length)
    (whole : path.take last = trimmed path) :
    stepBack notSep path last = 0 ↔ dirSep ∉ trimmed path := by
  rw [stepBack_eq_zero_iff inside, whole, List.rdropWhile_eq_nil_iff]
  constructor
  · intro none sep
    exact absurd (none _ sep) (by decide)
  · intro none c hc
    have : c ≠ dirSep := by
      rintro rfl
      exact none hc
    simpa [notSep] using this

theorem yellaBaseName_eq (named : trimmed path ≠ []) :
    yellaBaseName path =
      some (if dirSep ∈ trimmed path then lastPart (trimmed path) else path) := by
  obtain ⟨last, eq, inside, whole⟩ := yellaLastNot_eq named
  have slash := slash_eq_zero_iff inside whole
  unfold yellaBaseName
  simp only [length_ne_zero_of_trimmed named, ↓reduceIte, span_eq_length_iff, named, eq,
    Option.bind_eq_bind, Option.bind_some, slash]
  by_cases sep : dirSep ∈ trimmed path
  · have before := take_stepBack (p := notSep) inside
    rw [whole] at before
    have parts : (trimmed path).rdropWhile notSep ++ lastPart (trimmed path) = trimmed path :=
      List.rdropWhile_append_rtakeWhile
    have le : stepBack notSep path last ≤ last := stepBack_le
    have len : ((trimmed path).rdropWhile notSep).length = stepBack notSep path last := by
      rw [← before, List.length_take]
      omega
    rw [if_neg (not_not_intro sep), if_pos sep, ← List.drop_take, whole]
    nth_rewrite 1 [← parts]
    rw [← len, List.drop_left]
  · rw [if_pos sep, if_neg sep]

theorem yellaDirName_eq (named : trimmed path ≠ []) :
    yellaDirName path =
      some (if dirSep ∈ trimmed path then
        if front (trimmed path) = [] then [dirSep] else front (trimmed path)
        else [46]) := by
  obtain ⟨last, eq, inside, whole⟩ := yellaLastNot_eq named
  have slash := slash_eq_zero_iff inside whole
  have within : stepBack notSep path last ≤ path.length := stepBack_le.trans inside
  have before := take_stepBack (p := notSep) inside
  have start := take_stepBack (p := isSep) within
  have none := stepBack_eq_zero_iff (p := isSep) within
  rw [whole] at before
  rw [before] at start none
  unfold yellaDirName
  simp only [length_ne_zero_of_trimmed named, ↓reduceIte, span_eq_length_iff, named, eq,
    Option.bind_eq_bind, Option.bind_some, slash, none, start]
  by_cases sep : dirSep ∈ trimmed path
  · rw [if_neg (not_not_intro sep), if_pos sep]
    exact (apply_ite some _ _ _).symm
  · rw [if_pos sep, if_neg sep]

end

/-! ## The two names -/

/-- The directory and what is in it, with a single slash in between. -/
def joined (dir base : UStr) : UStr :=
  if dir = [dirSep] then dir ++ base else dir ++ dirSep :: base

/-- The run of slashes before the last part of `q` is reduced to one. -/
def ReducedTo (q r : UStr) : Prop :=
  ∃ pre run last, q = pre ++ run ++ last ∧ (run ≠ [] ∧ ∀ c ∈ run, c = dirSep) ∧
    dirSep ∉ last ∧ pre.getLast? ≠ some dirSep ∧ r = pre ++ dirSep :: last

structure SplitsPath (path : UStr) : Prop where
  empty : path = [] → yellaBaseName path = some [46] ∧ yellaDirName path = some [46]
  slashes : path ≠ [] → (∀ c ∈ path, c = dirSep) →
    yellaBaseName path = some [dirSep] ∧ yellaDirName path = some [dirSep]
  parts : (∃ c ∈ path, c ≠ dirSep) → ∃ base dir, yellaBaseName path = some base ∧
    yellaDirName path = some dir ∧ base ≠ [] ∧ dirSep ∉ base ∧
    (dirSep ∉ trimmed path → base = trimmed path ∧ dir = [46]) ∧
    (dirSep ∈ trimmed path → ReducedTo (trimmed path) (joined dir base))

/-- A single part with slashes behind it. -/
def OnePartAndSlashes (path : UStr) : Prop :=
  ∃ name run, path = name ++ run ∧ name ≠ [] ∧ dirSep ∉ name ∧ run ≠ [] ∧ ∀ c ∈ run, c = dirSep

section
variable {path q : UStr}

theorem getLast?_rdropWhile_isSep (q : UStr) : (q.rdropWhile isSep).getLast? ≠ some dirSep := by
  intro last
  have nonempty : q.rdropWhile isSep ≠ [] := by
    intro none
    rw [none] at last
    cases last
  apply List.rdropWhile_last_not isSep q nonempty
  rw [List.getLast?_eq_some_getLast nonempty] at last
  rw [Option.some.inj last]
  rfl

theorem dirSep_not_mem_lastPart : dirSep ∉ lastPart q := by
  intro sep
  exact absurd (List.mem_rtakeWhile_imp sep) (by decide)

theorem lastPart_trimmed_ne_nil (named : trimmed path ≠ []) : lastPart (trimmed path) ≠ [] := by
  rw [lastPart, Ne, List.rtakeWhile_eq_nil_iff]
  intro sep
  have last : ¬ isSep ((trimmed path).getLast named) := List.rdropWhile_last_not isSep path named
  apply sep named
  simpa [isSep, notSep] using last

theorem exists_slashes (sep : dirSep ∈ q) :
    ∃ run, q = front q ++ run ++ lastPart q ∧ run ≠ [] ∧ ∀ c ∈ run, c = dirSep := by
  have before : q.rdropWhile notSep ≠ [] := by
    rw [Ne, List.rdropWhile_eq_nil_iff]
    intro none
    exact absurd (none _ sep) (by decide)
  have last := List.rdropWhile_last_not notSep q before
  have whole : q.rdropWhile notSep ++ lastPart q = q := List.rdropWhile_append_rtakeWhile
  have runs : front q ++ (q.rdropWhile notSep).rtakeWhile isSep = q.rdropWhile notSep :=
    List.rdropWhile_append_rtakeWhile
  refine ⟨(q.rdropWhile notSep).rtakeWhile isSep, ?_, ?_, ?_⟩
  · rw [runs, whole]
  · rw [Ne, List.rtakeWhile_eq_nil_iff]
    intro other
    apply other before
    simpa [isSep, notSep] using last
  · intro c hc
    simpa [isSep] using List.mem_rtakeWhile_imp hc

theorem reducedTo_joined (sep : dirSep ∈ q) :
    ReducedTo q (joined (if front q = [] then [dirSep] else front q) (lastPart q)) := by
  obtain ⟨run, whole, slashes⟩ := exists_slashes sep
  have ends : (front q).getLast? ≠ some dirSep := getLast?_rdropWhile_isSep _
  refine ⟨front q, run, lastPart q, whole, slashes, dirSep_not_mem_lastPart, ends, ?_⟩
  by_cases top : front q = []
  · rw [if_pos top, joined, if_pos rfl, top]
    rfl
  · have : front q ≠ [dirSep] := by
      intro root
      rw [root] at ends
      exact ends rfl
    rw [if_neg top, joined, if_neg this]

theorem trimmed_append_run {name run : UStr} (plain : dirSep ∉ name)
    (slashes : ∀ c ∈ run, c = dirSep) : trimmed (name ++ run) = name := by
  have dropped : trimmed (name ++ run) = name.rdropWhile isSep := by
    rw [trimmed, List.rdropWhile, List.reverse_append, List.dropWhile_append_of_pos]
    · rfl
    · intro c hc
      simpa [isSep] using slashes c (List.mem_reverse.mp hc)
  rw [dropped, List.rdropWhile_eq_self_iff]
  intro nonempty last
  apply plain
  have : name.getLast nonempty = dirSep := by simpa [isSep] using last
  exact this ▸ List.getLast_mem nonempty

theorem trimmed_append_slashes (path : UStr) :
    ∃ run, path = trimmed path ++ run ∧ ∀ c ∈ run, c = dirSep := by
  refine ⟨path.rtakeWhile isSep, List.rdropWhile_append_rtakeWhile.symm, fun c hc => ?_⟩
  simpa [isSep] using List.mem_rtakeWhile_imp hc

/-- **Base name and directory name** split a path exactly if it is not one part with slashes
behind it. -/
theorem splitsPath_iff (path : UStr) : SplitsPath path ↔ ¬ OnePartAndSlashes path := by
  constructor
  · rintro splits ⟨name, run, rfl, named, plain, nonempty, slashes⟩
    have whole := trimmed_append_run plain slashes
    obtain ⟨c, hc⟩ := List.exists_mem_of_ne_nil name named
    have other : ∃ c ∈ name ++ run, c ≠ dirSep := by
      refine ⟨c, List.mem_append_left _ hc, ?_⟩
      rintro rfl
      exact plain hc
    obtain ⟨base, dir, eq, -, -, none, -⟩ := splits.parts other
    rw [yellaBaseName_eq (whole.symm ▸ named), whole, if_neg plain] at eq
    obtain ⟨d, hd⟩ := List.exists_mem_of_ne_nil run nonempty
    apply none
    rw [← Option.some.inj eq, ← slashes d hd]
    exact List.mem_append_right _ hd
  · intro proper
    refine ⟨?_, ?_, ?_⟩
    · rintro rfl
      exact ⟨rfl, rfl⟩
    · intro nonempty slashes
      have none := trimmed_eq_nil_iff.mpr slashes
      exact ⟨yellaBaseName_slashes nonempty none, yellaDirName_slashes nonempty none⟩
    · rintro ⟨c, hc, other⟩
      have named : trimmed path ≠ [] := fun none => other (trimmed_eq_nil_iff.mp none c hc)
      refine ⟨_, _, yellaBaseName_eq named, yellaDirName_eq named, ?_⟩
      by_cases sep : dirSep ∈ trimmed path
      · rw [if_pos sep, if_pos sep]
        exact ⟨lastPart_trimmed_ne_nil named, dirSep_not_mem_lastPart, fun none => absurd sep none,
          fun _ => reducedTo_joined sep⟩
      · have whole : path = trimmed path := by
          obtain ⟨run, eq, slashes⟩ := trimmed_append_slashes path
          by_contra more
          apply proper
          refine ⟨trimmed path, run, eq, named, sep, ?_, slashes⟩
          rintro rfl
          exact more (eq.trans (List.append_nil _))
        rw [if_neg sep, if_neg sep, ← whole]
        rw [← whole] at named sep
        exact ⟨named, sep, fun _ => ⟨rfl, rfl⟩, fun again => absurd again sep⟩

end

/-- `yella_base_name` of `a/` keeps the slash. -/
theorem not_splitsPath_slash :
    yellaBaseName [97, 47] = some [97, 47] ∧ ¬ SplitsPath [97, 47] := by
  have eq : yellaBaseName [97, 47] = some [97, 47] := by decide
  refine ⟨eq, ?_⟩
  intro splits
  obtain ⟨base, dir, eq', -, -, plain, -⟩ := splits.parts ⟨97, by decide, by decide⟩
  obtain rfl := Option.some.inj (eq.symm.trans eq')
  exact plain (by decide)

end Yella
