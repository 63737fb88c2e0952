import Mathlib.Data.List.TakeWhile
import Yella.FileName
import Yella.Job.ChangeLog
import Yella.Job.RunJob

/-!
# What a crawl visits

`crawl_dir` of `job.c` against the entries below the directory it starts in. A directory that
cannot be opened has no iterator, and the first call of `yella_directory_iterator_next` reads
through the NULL pointer.
-/

namespace Yella

section
variable (fs : FileSystem)

/-- The directories that a crawl of the first comes to. -/
inductive Reached : UStr → UStr → Prop
  | here (dir : UStr) : Reached dir dir
  | under {dir d : UStr} {entries : List EntryName} {entry : EntryName} :
      fs.readDir dir = some entries → entry ∈ entries →
      fs.isDirectory (fqn dir entry) = true → Reached (fqn dir entry) d → Reached dir d

/-- An entry of a directory that the crawl comes to and can read. -/
def VisibleEntry (start name : UStr) : Prop :=
  ∃ dir entries entry, Reached fs start dir ∧ fs.readDir dir = some entries ∧ entry ∈ entries ∧
    fqn dir entry = name

def AllReadable (start : UStr) : Prop := ∀ dir, Reached fs start dir → fs.readDir dir ≠ none

mutual

/-- A crawl without the patterns and the elements: the names that it comes to. `crawlDir_names`
says that `crawl_dir` makes its calls for these. -/
def visitDir (dir : UStr) : Option (List UStr) :=
  match fs.readDir dir with
  | none => none
  | some entries => visitEntries dir entries
termination_by (fs.pathMax - dir.length, 1, 0)

def visitEntries (dir : UStr) : List EntryName → Option (List UStr)
  | [] => some []
  | entry :: entries => do
    let below ←
      (if _h : fs.isDirectory (fqn dir entry) then visitDir (fqn dir entry) else some [])
    let rest ← visitEntries dir entries
    some (fqn dir entry :: below ++ rest)
termination_by entries => (fs.pathMax - dir.length, 0, entries.length)
decreasing_by
  · have := fqn_length dir entry
    have := fs.isDirectory_length _h
    exact Prod.Lex.left _ _ (by omega)
  · exact Prod.Lex.right _ (Prod.Lex.right _ (by simp))

end

end

section
variable {fs : FileSystem} {incl : UStr} {j : Job}

/-- Directories nest finitely. -/
theorem crawl_induction (fs : FileSystem) {P : UStr → Prop}
    (step : ∀ dir, (∀ entry, fs.isDirectory (fqn dir entry) = true → P (fqn dir entry)) → P dir)
    (dir : UStr) : P dir := by
  induction hk : fs.pathMax - dir.length using Nat.strongRecOn generalizing dir with
  | ind k ih =>
    apply step
    intro entry hd
    have := fqn_length dir entry
    have := fs.isDirectory_length hd
    exact ih (fs.pathMax - (fqn dir entry).length) (by omega) (fqn dir entry) rfl

/-- A property of the reached directories holds of the start and below each entry. -/
theorem forall_reached_iff {P : UStr → Prop} {dir : UStr} {entries : List EntryName}
    (hr : fs.readDir dir = some entries) :
    (∀ d, Reached fs dir d → P d) ↔ P dir ∧ ∀ entry ∈ entries,
      fs.isDirectory (fqn dir entry) = true → ∀ d, Reached fs (fqn dir entry) d → P d := by
  constructor
  · intro h
    exact ⟨h dir (.here dir), fun entry he hd d deeper => h d (.under hr he hd deeper)⟩
  · rintro ⟨here, under⟩ d h
    cases h with
    | here => exact here
    | under hr' he hd deeper =>
      obtain rfl := Option.some_inj.mp (hr.symm.trans hr')
      exact under _ he hd d deeper

theorem visibleEntry_iff {dir name : UStr} {entries : List EntryName}
    (hr : fs.readDir dir = some entries) :
    VisibleEntry fs dir name ↔ ∃ entry ∈ entries, fqn dir entry = name ∨
      (fs.isDirectory (fqn dir entry) = true ∧ VisibleEntry fs (fqn dir entry) name) := by
  constructor
  · rintro ⟨d, entries', entry, reached, hr', he, hn⟩
    cases reached with
    | here =>
      obtain rfl := Option.some_inj.mp (hr.symm.trans hr')
      exact ⟨entry, he, .inl hn⟩
    | under hr'' he' hd deeper =>
      obtain rfl := Option.some_inj.mp (hr.symm.trans hr'')
      exact ⟨_, he', .inr ⟨hd, _, _, _, deeper, hr', he, hn⟩⟩
  · rintro ⟨entry, he, hn | ⟨hd, d, _, _, deeper, hr', he', hn⟩⟩
    · exact ⟨dir, entries, entry, .here dir, hr, he, hn⟩
    · exact ⟨d, _, _, .under hr he hd deeper, hr', he', hn⟩

/-! ## The names visited -/

theorem visitEntries_isSome_iff {dir : UStr} {entries : List EntryName} :
    (visitEntries fs dir entries).isSome ↔ ∀ entry ∈ entries,
      fs.isDirectory (fqn dir entry) = true → (visitDir fs (fqn dir entry)).isSome := by
  induction entries with
  | nil => simp [visitEntries]
  | cons entry entries ih =>
    rw [visitEntries, List.forall_mem_cons, ← ih]
    by_cases hd : fs.isDirectory (fqn dir entry) = true
    · cases hb : visitDir fs (fqn dir entry) <;>
        cases hv : visitEntries fs dir entries <;> simp [hd]
    · cases hv : visitEntries fs dir entries <;> simp [hd]

theorem visitDir_isSome_iff (dir : UStr) : (visitDir fs dir).isSome ↔ AllReadable fs dir := by
  induction dir using crawl_induction fs with
  | step dir ih =>
    rw [visitDir]
    cases hr : fs.readDir dir with
    | none => simpa using fun h : AllReadable fs dir => h dir (.here dir) hr
    | some entries =>
      rw [AllReadable, forall_reached_iff hr, visitEntries_isSome_iff]
      simp only [hr, ne_eq, reduceCtorEq, not_false_eq_true, true_and]
      exact forall₃_congr fun entry _ hd => ih entry hd

theorem mem_visitEntries {dir : UStr} {entries : List EntryName} {names : List UStr}
    (h : visitEntries fs dir entries = some names) (name : UStr) :
    name ∈ names ↔ ∃ entry ∈ entries, fqn dir entry = name ∨
      (fs.isDirectory (fqn dir entry) = true ∧
        ∃ below, visitDir fs (fqn dir entry) = some below ∧ name ∈ below) := by
  induction entries generalizing names with
  | nil =>
    rw [visitEntries] at h
    cases h
    simp
  | cons entry entries ih =>
    rw [visitEntries] at h
    simp only [Option.bind_eq_bind, Option.bind_eq_some_iff, Option.some.injEq] at h
    obtain ⟨below, hbelow, rest, hrest, rfl⟩ := h
    rw [List.exists_mem_cons_iff, ← ih hrest, List.mem_append, List.mem_cons]
    by_cases hd : fs.isDirectory (fqn dir entry) = true
    · simp only [hd, ↓reduceDIte] at hbelow
      simp [hd, hbelow, eq_comm]
    · simp only [hd, Bool.false_eq_true, ↓reduceDIte, Option.some.injEq] at hbelow
      simp [hd, ← hbelow, eq_comm]

/-- The visited names are the entries of the directories that are reached. -/
theorem mem_visitDir {dir : UStr} {names : List UStr} (h : visitDir fs dir = some names)
    (name : UStr) : name ∈ names ↔ VisibleEntry fs dir name := by
  induction dir using crawl_induction fs generalizing names with
  | step dir ih =>
    rw [visitDir] at h
    cases hr : fs.readDir dir with
    | none => simp [hr] at h
    | some entries =>
      simp only [hr] at h
      rw [mem_visitEntries h, visibleEntry_iff hr]
      have defined := visitEntries_isSome_iff.mp (Option.isSome_iff_exists.mpr ⟨names, h⟩)
      refine exists_congr fun entry => and_congr_right fun he => or_congr_right ?_
      apply and_congr_right
      intro hd
      obtain ⟨below, hbelow⟩ := Option.isSome_iff_exists.mp (defined entry he hd)
      rw [← ih entry hd hbelow]
      simp [hbelow]

/-! ## Once each -/

variable (fs) in
/-- Directory entries as they are listed: no name twice, and none has a separator in it. -/
structure FileSystem.ListsNames : Prop where
  nodup : ∀ dir entries, fs.readDir dir = some entries → entries.Nodup
  plain : ∀ dir entries, fs.readDir dir = some entries → ∀ entry ∈ entries, dirSep ∉ entry.1

theorem fqn_eq (dir : UStr) (entry : EntryName) : fqn dir entry = dirName dir ++ entry.1 := by
  unfold fqn dirName
  split <;> simp

theorem dirName_fqn {dir : UStr} {entry : EntryName} (plain : dirSep ∉ entry.1) :
    dirName (fqn dir entry) = fqn dir entry ++ [dirSep] := by
  apply if_neg
  rw [fqn_eq, List.getLast?_append_of_ne_nil _ entry.2]
  intro h
  exact plain (List.mem_of_getLast? h)

/-- The part of a name below `dir` up to the next separator. -/
def component (dir name : UStr) : UStr :=
  (name.drop (dirName dir).length).takeWhile (· ≠ dirSep)

theorem component_fqn {dir rest : UStr} {entry : EntryName} (plain : dirSep ∉ entry.1)
    (ends : rest = [] ∨ rest.head? = some dirSep) :
    component dir (fqn dir entry ++ rest) = entry.1 := by
  have inside : ∀ c ∈ entry.1, decide (c ≠ dirSep) = true := by
    intro c hc
    have : c ≠ dirSep := by
      rintro rfl
      exact plain hc
    simpa using this
  have stops : rest.takeWhile (· ≠ dirSep) = [] := by
    cases rest with
    | nil => rfl
    | cons c rest => simpa using ends
  rw [component, fqn_eq, List.append_assoc, List.drop_left, List.takeWhile_append_of_pos inside,
    stops, List.append_nil]

theorem Reached.dirName_prefix (lists : fs.ListsNames) {dir d : UStr} (h : Reached fs dir d) :
    dirName dir <+: dirName d := by
  induction h with
  | here => exact List.prefix_rfl
  | @under dir d entries entry hr he hd deeper ih =>
    rw [dirName_fqn (lists.plain dir entries hr entry he), fqn_eq, List.append_assoc] at ih
    exact (List.prefix_append _ _).trans ih

/-- The path of what lies below an entry goes through it. -/
theorem VisibleEntry.through (lists : fs.ListsNames) {dir name : UStr} {entry : EntryName}
    (plain : dirSep ∉ entry.1) (h : VisibleEntry fs (fqn dir entry) name) :
    ∃ rest, name = fqn dir entry ++ dirSep :: rest := by
  obtain ⟨d, _, last, reached, -, -, rfl⟩ := h
  obtain ⟨rest, hrest⟩ := reached.dirName_prefix lists
  rw [dirName_fqn plain] at hrest
  exact ⟨rest ++ last.1, by rw [fqn_eq, ← hrest]; simp⟩

/-- An entry and what lies below it. -/
def Within (fs : FileSystem) (dir : UStr) (entry : EntryName) (name : UStr) : Prop :=
  fqn dir entry = name ∨ VisibleEntry fs (fqn dir entry) name

theorem Within.component (lists : fs.ListsNames) {dir name : UStr} {entry : EntryName}
    (plain : dirSep ∉ entry.1) (h : Within fs dir entry name) :
    component dir name = entry.1 := by
  obtain rfl | below := h
  · rw [← List.append_nil (fqn dir entry)]
    exact component_fqn plain (.inl rfl)
  · obtain ⟨rest, rfl⟩ := below.through lists plain
    exact component_fqn plain (.inr rfl)

/-- The path matches the include and no exclude. -/
def Monitored (incl : UStr) (j : Job) (name : UStr) : Bool :=
  Glob.fileNameMatches name incl && !matchesExcludes name j.excludes

variable (fs incl j) in
/-- The call that an entry is meant to lead to. -/
def properCall (name : UStr) : Observation :=
  if Monitored incl j name then collected fs j name else notCollected name

theorem entryCall_proper {isNull : Bool} {cur : UStr} {call : Observation}
    (h : entryCall fs incl j isNull cur = some call) : call = properCall fs incl j cur := by
  unfold entryCall at h
  unfold properCall Monitored
  split at h
  · rename_i monitored
    rw [if_pos monitored]
    exact (Option.some_inj.mp h).symm
  · rename_i other
    rw [if_neg other]
    split at h
    · exact (Option.some_inj.mp h).symm
    · cases h

theorem crawlEntries_proper {dir : UStr} {entries : List EntryName} {isNull : Bool}
    {calls : List Observation}
    (ih : ∀ entry, fs.isDirectory (fqn dir entry) = true → ∀ below,
      crawlDir fs incl j (fqn dir entry) = some below →
        ∃ names, visitDir fs (fqn dir entry) = some names ∧
          below = names.map (properCall fs incl j))
    (h : crawlEntries fs incl j dir isNull entries = some calls) :
    ∃ names, visitEntries fs dir entries = some names ∧
      calls = names.map (properCall fs incl j) := by
  induction entries generalizing isNull calls with
  | nil =>
    rw [crawlEntries] at h
    cases h
    exact ⟨[], by rw [visitEntries], rfl⟩
  | cons entry entries ihe =>
    rw [crawlEntries] at h
    simp only [Option.bind_eq_bind, Option.bind_eq_some_iff, Option.some.injEq] at h
    obtain ⟨call, hcall, below, hbelow, rest, hrest, rfl⟩ := h
    obtain ⟨restNames, hvisit, rfl⟩ := ihe hrest
    obtain rfl := entryCall_proper hcall
    rw [visitEntries]
    split at hbelow
    · rename_i hd
      obtain ⟨names, hnames, rfl⟩ := ih entry hd below hbelow
      exact ⟨fqn dir entry :: names ++ restNames, by simp [hd, hnames, hvisit], by simp⟩
    · rename_i hd
      cases hbelow
      exact ⟨fqn dir entry :: restNames, by simp [hd, hvisit], by simp⟩

/-- A crawl that runs to its end makes the proper call for each visited name. -/
theorem crawlDir_proper {dir : UStr} {calls : List Observation}
    (h : crawlDir fs incl j dir = some calls) :
    ∃ names, visitDir fs dir = some names ∧ calls = names.map (properCall fs incl j) := by
  induction dir using crawl_induction fs generalizing calls with
  | step dir ih =>
    rw [crawlDir] at h
    rw [visitDir]
    cases hr : fs.readDir dir with
    | none =>
      rw [hr] at h
      cases h
    | some entries =>
      rw [hr] at h
      exact crawlEntries_proper (fun entry hd below hbelow => ih entry hd hbelow) h

theorem properCall_name (name : UStr) : (properCall fs incl j name).name = name := by
  unfold properCall
  split <;> rfl

theorem crawlDir_names {dir : UStr} {calls : List Observation}
    (h : crawlDir fs incl j dir = some calls) :
    visitDir fs dir = some (calls.map Observation.name) := by
  obtain ⟨names, hnames, rfl⟩ := crawlDir_proper h
  rw [hnames, List.map_map]
  exact congrArg some (List.map_id'' properCall_name names).symm

end

section
variable {fs : FileSystem} {incl : UStr} {j : Job} {start : UStr}

theorem allReadable_of_crawlDir {calls : List Observation}
    (h : crawlDir fs incl j start = some calls) : AllReadable fs start :=
  (visitDir_isSome_iff start).mp (Option.isSome_iff_exists.mpr ⟨_, crawlDir_names h⟩)

end

def fileStat (t : FileType) : Stat where
  fileType := t
  permissions := ⟨⟨true, true, false⟩, ⟨true, false, false⟩, ⟨true, false, false⟩,
    false, false, false⟩
  user := ⟨0, none⟩
  group := ⟨0, none⟩
  size := 0
  accessTime := 0
  metadataChangeTime := 0
  modificationTime := 0

/-- The directory `/d` holds the directory `s`, which may be locked, and the file `f`. -/
def nestedFiles (locked : Bool) : FileSystem where
  fileExists n := n ∈ [[47, 100], [47, 100, 47, 115], [47, 100, 47, 102]]
  stat n :=
    if n = [47, 100] ∨ n = [47, 100, 47, 115] then some (fileStat .directory)
    else if n = [47, 100, 47, 102] then some (fileStat .regular)
    else none
  readDir n :=
    if n = [47, 100] then some [⟨[115], by decide⟩, ⟨[102], by decide⟩]
    else if n = [47, 100, 47, 115] ∧ locked = false then some []
    else none
  sha256 _ := none
  posixAcl _ := none
  pathMax := 4096
  stat_long := by
    intro n hn
    have long : ∀ m : UStr, m.length < 4096 → n ≠ m := by
      rintro m hm rfl
      exact absurd hm (Nat.not_lt.mpr hn)
    rw [if_neg (not_or.mpr ⟨long _ (by decide), long _ (by decide)⟩), if_neg (long _ (by decide))]

theorem nestedFiles_top (locked : Bool) : (nestedFiles locked).readDir [47, 100] =
    some [⟨[115], by decide⟩, ⟨[102], by decide⟩] := rfl

theorem forall_reached_nested {P : UStr → Prop} (top : P [47, 100]) (sub : P [47, 100, 47, 115]) :
    ∀ d, Reached (nestedFiles false) [47, 100] d → P d := by
  have empty : (nestedFiles false).readDir [47, 100, 47, 115] = some [] := rfl
  rw [forall_reached_iff (nestedFiles_top false)]
  simp only [List.forall_mem_cons, List.not_mem_nil, false_imp_iff, implies_true, and_true]
  refine ⟨top, fun _ => (forall_reached_iff empty).mpr ⟨sub, by simp⟩, ?_⟩
  intro regular
  exact absurd regular (by decide)

theorem nestedFiles_readable : AllReadable (nestedFiles false) [47, 100] :=
  forall_reached_nested (by decide) (by decide)

end Yella
