import Yella.File.Split
import Yella.File.Tree
import Yella.ReturnCode
import Yella.TextUtil

/-!
# Ensuring that a directory exists

`yella_ensure_dir_exists` of `file_posix.c`, over the directory names of a path.
-/

namespace Yella

/-- The loop, which puts what it gets in front of `vec`. `none` is no end within the fuel. -/
def yellaGetDirsLoop : Nat → UStr → List UStr → Option (List UStr)
  | 0, _, _ => none
  | fuel + 1, cur, vec =>
    if cur ≠ [dirSep] ∧ cur ≠ [46] then do
      let next ← yellaDirName cur
      yellaGetDirsLoop fuel next (cur :: vec)
    else some vec

def yellaGetDirs (fuel : Nat) (fqpath : UStr) : Option (List UStr) := do
  let cur ← yellaDirName fqpath
  if cur = [46] then some [cur] else yellaGetDirsLoop fuel cur []

def createError : Errno → Rc
  | .eacces => .noPermission
  | .eexist => .alreadyExists
  | _ => .fileSystemError

/-- `yella_file_exists`: there is no file at NULL. -/
def FileTree.fileExists (utf : Utf) (tree : FileTree) (name : UStr) : Bool :=
  utf.Converts name && tree.access name

/-- `mkdir` of what `yella_to_utf8` returns, `EFAULT` for NULL. -/
def FileTree.mkdirText (utf : Utf) (refuses : Place → Option Errno) (tree : FileTree)
    (name : UStr) : Except Errno FileTree :=
  if utf.Converts name then tree.mkdir refuses name else .error .other

def yellaCreateDirectory (utf : Utf) (refuses : Place → Option Errno) (tree : FileTree)
    (name : UStr) : Rc × FileTree :=
  match tree.mkdirText utf refuses name with
  | .ok tree => (.noError, tree)
  | .error errno => (createError errno, tree)

/-- What a call leaves: its result, the files, and the paths that `yella_create_directory` has been
called on. -/
structure Ensured where
  rc : Rc
  tree : FileTree
  calls : List UStr

section
variable (utf : Utf) (refuses : Place → Option Errno)

def ensureLoop (tree : FileTree) : List UStr → Ensured
  | [] => ⟨.noError, tree, []⟩
  | cur :: dirs =>
    if tree.fileExists utf cur then ensureLoop tree dirs
    else
      let (rc, tree) := yellaCreateDirectory utf refuses tree cur
      if rc ≠ .noError then ⟨rc, tree, [cur]⟩
      else
        let rest := ensureLoop tree dirs
        { rest with calls := cur :: rest.calls }

def yellaEnsureDirExists (fuel : Nat) (tree : FileTree) (name : Option UStr) : Option Ensured :=
  match name with
  | none => some ⟨.logicError, tree, []⟩
  | some name =>
    if name = [] then some ⟨.logicError, tree, []⟩
    else do
      let dirs ← yellaGetDirs fuel name
      let dirs := if dirs.head? = some [46] then dirs.tail else dirs
      some (ensureLoop utf refuses tree (dirs ++ [name]))

end

/-! ## What is to hold -/

/-- The path or one that it goes through. -/
structure AncestorOrSelf (p name : UStr) : Prop where
  nonempty : p ≠ []
  absolute : isFileNameAbsolute p = isFileNameAbsolute name
  parts : parts p <+: parts name

def FileTree.IsDirectory (tree : FileTree) (path : UStr) : Prop :=
  ∃ place, tree.walk (tree.start path) (parts path) = .ok place ∧
    tree.kind place = some .directory

/-- The calls go down to `name`. The directory that a path is in was there, or there has been a call
on it. -/
structure Descends (tree : FileTree) (name : UStr) (calls : List UStr) : Prop where
  ancestors : ∀ p ∈ calls, AncestorOrSelf p name
  longer : calls.Pairwise fun p q => parts p <+: parts q ∧ parts p ≠ parts q
  parent : ∀ pre p post, calls = pre ++ p :: post → ∀ ds c, parts p = ds ++ [c] →
    tree.kind ((tree.start p).along ds) ≠ none ∨
      ∃ q ∈ pre, tree.place q = (tree.start p).along ds

/-- The call ends, whatever it finds. -/
def EnsuresDir (utf : Utf) (refuses : Place → Option Errno) (tree : FileTree) (name : UStr) :
    Prop :=
  ∃ r, (∀ fuel, name.length < fuel →
      yellaEnsureDirExists utf refuses fuel tree (some name) = some r) ∧
    Descends tree name r.calls ∧
    (r.rc = .noError → ∀ p, AncestorOrSelf p name → r.tree.IsDirectory p)

/-- The name, in ASCII, is that of a file which is no directory. Those that it is in are there or
can be made. -/
structure NamesOther (refuses : Place → Option Errno) (tree : FileTree) (name : UStr) : Prop where
  ascii : name.IsAscii
  other : tree.kind (tree.place name) = some .other
  noSlash : name.getLast? ≠ some dirSep
  ancestors : ∀ ds, ds <+: parts name → ds ≠ parts name →
    tree.kind ((tree.start name).along ds) = some .directory ∨
      tree.kind ((tree.start name).along ds) = none ∧ refuses ((tree.start name).along ds) = none

/-! ## The directories of a name -/

/-- Paths each of which has one part more than the one before. -/
inductive Ladder (absolute : Bool) : List UStr → List UStr → Prop where
  | nil (ds : List UStr) : Ladder absolute ds []
  | cons {ds paths : List UStr} {c p : UStr} : isFileNameAbsolute p = absolute →
      parts p = ds ++ [c] → Ladder absolute (ds ++ [c]) paths → Ladder absolute ds (p :: paths)

/-- The parts of a directory name. The name `.` stands also for no parts. -/
def IsOf (absolute : Bool) (cur : UStr) (ds : List UStr) : Prop :=
  parts cur = ds ∧ isFileNameAbsolute cur = absolute ∨ cur = [46] ∧ ds = [] ∧ absolute = false

section
variable {path name cur : UStr} {ds vec : List UStr} {absolute : Bool}

theorem isFileNameAbsolute_append {a b : UStr} (nonempty : a ≠ []) :
    isFileNameAbsolute (a ++ b) = isFileNameAbsolute a := by
  unfold isFileNameAbsolute
  rw [List.head?_append_of_ne_nil a nonempty]

/-- What `yella_dir_name` leaves off is the last part. -/
theorem yellaDirName_parts (named : trimmed path ≠ []) :
    ∃ d ds c, yellaDirName path = some d ∧ parts path = ds ++ [c] ∧
      IsOf (isFileNameAbsolute path) d ds ∧ (d = [dirSep] ∨ trimmed d ≠ []) ∧
      (d = [dirSep] ∨ d = [46] ∨ d.length < path.length ∧ d <+: path) := by
  obtain ⟨rest, whole, slashes⟩ := trimmed_append_slashes path
  have same : parts path = parts (trimmed path) := by
    nth_rewrite 1 [whole]
    exact parts_append_run slashes
  have starts : isFileNameAbsolute path = isFileNameAbsolute (trimmed path) := by
    nth_rewrite 1 [whole]
    exact isFileNameAbsolute_append named
  have before : trimmed path <+: path := List.rdropWhile_prefix _ _
  rw [yellaDirName_eq named, same, starts]
  have someLast := lastPart_trimmed_ne_nil named
  generalize trimmed path = q at *
  by_cases sep : dirSep ∈ q
  · obtain ⟨run, split, someRun, slashes⟩ := exists_slashes sep
    have lastOne : parts (lastPart q) = [lastPart q] :=
      partsFrom_plain dirSep_not_mem_lastPart someLast
    have all : parts q = parts (front q) ++ [lastPart q] := by
      nth_rewrite 1 [split]
      rw [parts_append_run_append someRun slashes, lastOne]
    rw [if_pos sep]
    by_cases top : front q = []
    · rw [if_pos top]
      refine ⟨[dirSep], [], lastPart q, rfl, ?_, .inl ⟨rfl, ?_⟩, .inl rfl, .inl rfl⟩
      · rw [all, top]
        rfl
      · rw [split, top, List.nil_append, isFileNameAbsolute_append someRun]
        obtain ⟨c, more, rfl⟩ := List.exists_cons_of_ne_nil someRun
        rw [slashes c List.mem_cons_self]
        rfl
    · rw [if_neg top]
      refine ⟨front q, parts (front q), lastPart q, rfl, all, .inl ⟨rfl, ?_⟩, .inr ?_,
        .inr (.inr ?_)⟩
      · nth_rewrite 2 [split]
        rw [List.append_assoc, isFileNameAbsolute_append top]
      · rw [trimmed, front, List.rdropWhile_idempotent]
        exact top
      · have le := before.length_le
        have := congrArg List.length split
        simp only [List.length_append] at this
        have := List.length_pos_iff.mpr someRun
        refine ⟨by omega, List.IsPrefix.trans ?_ before⟩
        nth_rewrite 2 [split]
        rw [List.append_assoc]
        exact List.prefix_append _ _
  · rw [if_neg sep]
    refine ⟨[46], [], q, rfl, ?_, .inr ⟨rfl, rfl, ?_⟩, .inr (by decide), .inr (.inl rfl)⟩
    · exact partsFrom_plain sep named
    · obtain ⟨c, more, rfl⟩ := List.exists_cons_of_ne_nil named
      have other : c ≠ dirSep := by
        rintro rfl
        exact sep List.mem_cons_self
      simpa [isFileNameAbsolute] using other

/-- A directory name of ASCII is ASCII. -/
theorem isAscii_dirName {d : UStr} (ascii : path.IsAscii)
    (h : d = [dirSep] ∨ d = [46] ∨ d.length < path.length ∧ d <+: path) : d.IsAscii := by
  rcases h with rfl | rfl | ⟨-, front⟩
  · decide
  · decide
  · exact ascii.of_front front

/-- How many rounds of the loop are left. -/
def rounds (cur : UStr) : Nat := if cur = [dirSep] ∨ cur = [46] then 0 else cur.length

theorem yellaGetDirsLoop_ladder (named : cur = [dirSep] ∨ trimmed cur ≠ [])
    (isOf : IsOf absolute cur ds) (ladder : Ladder absolute ds (vec ++ [name]))
    (noDot : vec.head? ≠ some [46]) :
    ∃ dirs bottom, (∀ fuel, rounds cur < fuel → yellaGetDirsLoop fuel cur vec = some dirs) ∧
      (bottom = [] ∨ bottom = [[46]] ∧ absolute = false) ∧
      Ladder absolute bottom (dirs ++ [name]) ∧ dirs.head? ≠ some [46] ∧
      ((∀ p ∈ cur :: vec, p.IsAscii) → ∀ p ∈ dirs, p.IsAscii) := by
  induction hn : rounds cur using Nat.strong_induction_on generalizing cur ds vec with
  | _ n ih =>
    by_cases stop : cur = [dirSep] ∨ cur = [46]
    · refine ⟨vec, ds, fun fuel enough => ?_, ?_, ladder, noDot,
        fun ascii p hp => ascii p (List.mem_cons_of_mem cur hp)⟩
      · obtain ⟨fuel, rfl⟩ : ∃ k, fuel = k + 1 := ⟨fuel - 1, by omega⟩
        rw [yellaGetDirsLoop, if_neg]
        rintro ⟨root, dot⟩
        exact stop.elim root dot
      · rcases isOf with ⟨rfl, rfl⟩ | ⟨-, rfl, -⟩
        · rcases stop with rfl | rfl
          · exact .inl rfl
          · exact .inr ⟨rfl, rfl⟩
        · exact .inl rfl
    · obtain ⟨root, dot⟩ := not_or.mp stop
      obtain ⟨rfl, rfl⟩ : parts cur = ds ∧ isFileNameAbsolute cur = absolute :=
        isOf.resolve_right fun here => dot here.1
      obtain ⟨d, ds, c, eq, last, isOf, named, shorter⟩ :=
        yellaDirName_parts (named.resolve_left root)
      have less : rounds d < rounds cur := by
        have long : cur.length ≠ 0 := by
          intro zero
          rw [List.length_eq_zero_iff.mp zero] at last
          have := congrArg List.length last
          simp [parts, partsFrom] at this
        unfold rounds
        rw [if_neg stop]
        split
        · omega
        · rename_i go
          obtain ⟨root, dot⟩ := not_or.mp go
          exact ((shorter.resolve_left root).resolve_left dot).1
      have ladder : Ladder (isFileNameAbsolute cur) ds ((cur :: vec) ++ [name]) :=
        .cons rfl last (last ▸ ladder)
      have noDot : (cur :: vec).head? ≠ some [46] := by simpa using dot
      obtain ⟨dirs, bottom, enough, low, rest, dotless, all⟩ :=
        ih (rounds d) (hn ▸ less) named isOf ladder noDot rfl
      refine ⟨dirs, bottom, fun fuel more => ?_, low, rest, dotless, fun ascii => all ?_⟩
      · obtain ⟨fuel, rfl⟩ : ∃ k, fuel = k + 1 := ⟨fuel - 1, by omega⟩
        rw [yellaGetDirsLoop, if_pos ⟨root, dot⟩, eq]
        exact enough fuel (by omega)
      · exact List.forall_mem_cons.mpr
          ⟨isAscii_dirName (ascii cur List.mem_cons_self) shorter, ascii⟩

/-- The paths that the function goes through, whatever the fuel. -/
theorem exists_ladder (utf : Utf) (refuses : Place → Option Errno) (tree : FileTree)
    (nonempty : name ≠ []) :
    ∃ dirs bottom, (∀ fuel, name.length < fuel →
        yellaEnsureDirExists utf refuses fuel tree (some name) =
          some (ensureLoop utf refuses tree (dirs ++ [name]))) ∧
      (name.IsAscii → ∀ p ∈ dirs ++ [name], p.IsAscii) ∧
      (trimmed name = [] ∧ dirs = [] ∨
        (bottom = [] ∨ bottom = [[46]] ∧ isFileNameAbsolute name = false) ∧
          Ladder (isFileNameAbsolute name) bottom (dirs ++ [name])) := by
  by_cases named : trimmed name = []
  · refine ⟨[], [], fun fuel more => ?_, fun ascii => by simpa using ascii, .inl ⟨named, rfl⟩⟩
    obtain ⟨fuel, rfl⟩ : ∃ k, fuel = k + 1 := ⟨fuel - 1, by omega⟩
    have dirs : yellaGetDirs (fuel + 1) name = some [] := by
      unfold yellaGetDirs
      rw [yellaDirName_slashes nonempty named]
      rfl
    simp only [yellaEnsureDirExists, if_neg nonempty, dirs]
    rfl
  · obtain ⟨d, ds, c, eq, last, isOf, named, shorter⟩ := yellaDirName_parts named
    have ladder : Ladder (isFileNameAbsolute name) ds [name] := .cons rfl last (.nil _)
    by_cases dot : d = [46]
    · subst dot
      refine ⟨[], ds, fun fuel more => ?_, fun ascii => by simpa using ascii, .inr ⟨?_, ladder⟩⟩
      · have dirs : yellaGetDirs fuel name = some [[46]] := by
          unfold yellaGetDirs
          rw [eq]
          rfl
        simp only [yellaEnsureDirExists, if_neg nonempty, dirs]
        rfl
      · rcases isOf with ⟨rfl, same⟩ | ⟨-, rfl, -⟩
        · exact .inr ⟨rfl, same.symm⟩
        · exact .inl rfl
    · have ladder : Ladder (isFileNameAbsolute name) ds ([] ++ [name]) := ladder
      obtain ⟨dirs, bottom, enough, low, ladder, noDot, all⟩ :=
        yellaGetDirsLoop_ladder named isOf ladder (by simp)
      refine ⟨dirs, bottom, fun fuel more => ?_, fun ascii => ?_, .inr ⟨low, ladder⟩⟩
      rotate_left
      · have dirsAscii := all (by simpa using isAscii_dirName ascii shorter)
        exact List.forall_mem_append.mpr ⟨dirsAscii, by simpa using ascii⟩
      have few : rounds d < fuel := by
        unfold rounds
        split
        · omega
        · rename_i go
          obtain ⟨root, dot⟩ := not_or.mp go
          have := ((shorter.resolve_left root).resolve_left dot).1
          omega
      have all : yellaGetDirs fuel name = some dirs := by
        unfold yellaGetDirs
        rw [eq, Option.bind_eq_bind, Option.bind_some, if_neg dot]
        exact enough fuel few
      simp only [yellaEnsureDirExists, if_neg nonempty, all, Option.bind_eq_bind, Option.bind_some,
        if_neg noDot]

theorem Ladder.absolute_eq {paths : List UStr} {p : UStr} (ladder : Ladder absolute ds paths)
    (hp : p ∈ paths) : isFileNameAbsolute p = absolute := by
  induction ladder with
  | nil => cases hp
  | cons same _ _ ih =>
    rcases List.mem_cons.mp hp with rfl | hp
    · exact same
    · exact ih hp

theorem Ladder.longer {paths : List UStr} {p : UStr} (ladder : Ladder absolute ds paths)
    (hp : p ∈ paths) : ds <+: parts p ∧ ds ≠ parts p := by
  induction ladder with
  | nil => cases hp
  | @cons ds paths c q _ last _ ih =>
    have below : ds <+: ds ++ [c] := List.prefix_append ds [c]
    rcases List.mem_cons.mp hp with rfl | hp
    · rw [last]
      exact ⟨below, by simp⟩
    · obtain ⟨longer, -⟩ := ih hp
      refine ⟨below.trans longer, ?_⟩
      rintro rfl
      have := longer.length_le
      rw [List.length_append, List.length_singleton] at this
      omega

theorem Ladder.pairwise {paths : List UStr} (ladder : Ladder absolute ds paths) :
    paths.Pairwise fun p q => parts p <+: parts q ∧ parts p ≠ parts q := by
  induction ladder with
  | nil => exact List.Pairwise.nil
  | cons _ last rest ih =>
    apply List.pairwise_cons.mpr ⟨fun q hq => ?_, ih⟩
    rw [last]
    exact rest.longer hq

end

/-! ## The loop over the directories -/

section
open FileTree
variable {utf : YellaUtf} {refuses : Place → Option Errno} {before tree tree' : FileTree}
  {absolute : Bool}
  {past paths ds : List UStr} {p c name : UStr} {errno : Errno}

theorem createError_ne (errno : Errno) : createError errno ≠ .noError := by
  cases errno <;> decide

/-- A path that is not converted ends the loop. -/
theorem ensureLoop_null (null : ¬ utf.Converts p) :
    ensureLoop utf refuses tree (p :: paths) = ⟨createError .other, tree, [p]⟩ := by
  simp [ensureLoop, fileExists, yellaCreateDirectory, mkdirText, null, createError_ne]

theorem ensureLoop_there (converts : utf.Converts p) (there : tree.access p = true) :
    ensureLoop utf refuses tree (p :: paths) = ensureLoop utf refuses tree paths := by
  simp [ensureLoop, fileExists, converts, there]

theorem ensureLoop_made (converts : utf.Converts p) (absent : tree.access p = false)
    (made : tree.mkdir refuses p = .ok tree') :
    ensureLoop utf refuses tree (p :: paths) =
      { ensureLoop utf refuses tree' paths with
        calls := p :: (ensureLoop utf refuses tree' paths).calls } := by
  simp [ensureLoop, fileExists, yellaCreateDirectory, mkdirText, converts, absent, made]

theorem ensureLoop_failed (converts : utf.Converts p) (absent : tree.access p = false)
    (failed : tree.mkdir refuses p = .error errno) :
    ensureLoop utf refuses tree (p :: paths) = ⟨createError errno, tree, [p]⟩ := by
  simp [ensureLoop, fileExists, yellaCreateDirectory, mkdirText, converts, absent, failed,
    createError_ne]

theorem ensureLoop_calls (tree : FileTree) (paths : List UStr) :
    (ensureLoop utf refuses tree paths).calls.Sublist paths := by
  induction paths generalizing tree with
  | nil => exact .slnil
  | cons p paths ih =>
    by_cases converts : utf.Converts p
    · cases there : tree.access p with
      | true =>
        rw [ensureLoop_there converts there]
        exact (ih tree).cons p
      | false =>
        cases made : tree.mkdir refuses p with
        | ok tree' =>
          rw [ensureLoop_made converts there made]
          exact (ih tree').cons_cons p
        | error errno =>
          rw [ensureLoop_failed converts there made]
          exact (List.nil_sublist paths).cons_cons p
    · rw [ensureLoop_null converts]
      exact (List.nil_sublist paths).cons_cons p

/-- The directory that a path is in was there, or has been called on. -/
def ParentKnown (before : FileTree) (past : List UStr) (p : UStr) : Prop :=
  ∀ ds c, parts p = ds ++ [c] → before.kind ((before.start p).along ds) ≠ none ∨
    ∃ q ∈ past, before.place q = (before.start p).along ds

/-- The path is that of a directory, or in ASCII that of another file in one. -/
def EndsAt (tree : FileTree) (p : UStr) : Prop :=
  tree.Reaches (tree.start p) (parts p) ∨
    p.IsAscii ∧ tree.kind (tree.place p) = some .other ∧ p.getLast? ≠ some dirSep ∧
      ∀ ds c, parts p = ds ++ [c] → tree.Reaches (tree.start p) ds

/-- What the loop leaves of paths that go down, after the calls of the past. -/
structure Walked (refuses : Place → Option Errno) (before : FileTree) (past paths : List UStr)
    (r : Ensured) : Prop where
  grown : FileTree.Grown refuses before (past ++ r.calls) r.tree
  parent : ∀ pre p post, r.calls = pre ++ p :: post → ParentKnown before (past ++ pre) p
  done : r.rc = .noError → ∀ p ∈ paths.getLast?, EndsAt r.tree p

theorem parentKnown (grown : FileTree.Grown refuses before past tree) (last : parts p = ds ++ [c])
    (there : tree.kind ((tree.start p).along ds) ≠ none) : ParentKnown before past p := by
  intro es d again
  obtain ⟨rfl, -⟩ := List.append_inj' (again.symm.trans last) rfl
  rw [grown.start_eq] at there
  exact grown.there there

theorem walked_failed (grown : FileTree.Grown refuses before past tree) (last : parts p = ds ++ [c])
    (there : tree.kind ((tree.start p).along ds) ≠ none) :
    Walked refuses before past paths ⟨createError errno, tree, [p]⟩ := by
  refine ⟨grown.call p, ?_, fun ok => absurd ok (createError_ne errno)⟩
  intro pre q post one
  obtain ⟨rfl, rfl⟩ : pre = [] ∧ q = p := by
    cases pre with
    | nil => exact ⟨rfl, (List.cons.inj one).1.symm⟩
    | cons x pre => simp at one
  rw [List.append_nil]
  exact parentKnown grown last there

theorem walked_end (grown : FileTree.Grown refuses before past tree)
    (done : ∀ p ∈ paths.getLast?, EndsAt tree p) :
    Walked refuses before past paths ⟨.noError, tree, []⟩ := by
  refine ⟨by simpa using grown, ?_, fun _ => done⟩
  intro pre p post none
  simp at none

/-- A directory that is reached leaves the rest of the paths. -/
theorem Walked.cons (grown : FileTree.Grown refuses before past tree)
    (further : tree.Reaches (tree.start p) (parts p))
    (h : Walked refuses before past paths (ensureLoop utf refuses tree paths)) :
    Walked refuses before past (p :: paths) (ensureLoop utf refuses tree paths) := by
  by_cases alone : paths = []
  · subst alone
    apply walked_end grown
    intro q hq
    obtain rfl : p = q := by simpa using hq
    exact .inl further
  · refine ⟨h.grown, h.parent, fun ok q hq => h.done ok q ?_⟩
    rwa [List.getLast?_cons_of_ne_nil alone] at hq

theorem Walked.call {r : Ensured} (h : Walked refuses before (past ++ [p]) paths r)
    (known : ParentKnown before past p) :
    Walked refuses before past paths { r with calls := p :: r.calls } := by
  refine ⟨?_, ?_, h.done⟩
  · have grown := h.grown
    rwa [List.append_assoc] at grown
  · intro pre q post eq
    cases pre with
    | nil =>
      obtain ⟨rfl, -⟩ := List.cons.inj eq
      rw [List.append_nil]
      exact known
    | cons x pre =>
      obtain ⟨rfl, rest⟩ := List.cons.inj eq
      have := h.parent pre q post rest
      rwa [List.append_assoc] at this

theorem walked (grown : FileTree.Grown refuses before past tree)
    (reaches : tree.Reaches (tree.base absolute) ds) (ladder : Ladder absolute ds paths) :
    Walked refuses before past paths (ensureLoop utf refuses tree paths) := by
  induction ladder generalizing tree past with
  | nil => exact walked_end grown (by simp)
  | @cons ds paths c p same last ladder ih =>
    subst same
    have reaches : tree.Reaches (tree.start p) ds := reaches
    have known : ParentKnown before past p :=
      parentKnown grown last (by rw [reaches.directory]; exact Option.some_ne_none _)
    by_cases converts : utf.Converts p
    swap
    · rw [ensureLoop_null converts]
      apply walked_failed grown last
      rw [reaches.directory]
      exact Option.some_ne_none _
    cases there : tree.access p with
    | true =>
      rw [ensureLoop_there converts there]
      rcases (reaches.access_iff last).mp there with directory | ⟨other, noSlash⟩
      · have further : tree.Reaches (tree.start p) (parts p) := by
          rw [place, last] at directory
          exact last ▸ reaches.snoc directory
        exact Walked.cons grown further (ih grown (last ▸ further))
      · cases ladder with
        | nil =>
          apply walked_end grown
          intro q hq
          obtain rfl : p = q := by simpa using hq
          refine .inr ⟨YellaUtf.converts_iff.mp converts, other, noSlash, fun es d again => ?_⟩
          obtain ⟨rfl, -⟩ := List.append_inj' (again.symm.trans last) rfl
          exact reaches
        | @cons _ rest d q same next ladder =>
          have start : tree.start q = tree.start p := congrArg tree.base same
          have front : tree.walk (tree.start q) (ds ++ [c]) = .ok (tree.place p) := by
            rw [place, last] at other ⊢
            rw [start, reaches.walk_snoc, if_neg (by rw [other]; exact Option.some_ne_none _)]
          obtain ⟨absent, failed⟩ :
              tree.access q = false ∧ tree.mkdir refuses q = .error .enotdir :=
            blocked front other next
          have known : tree.kind ((tree.start q).along (ds ++ [c])) ≠ none := by
            rw [start, ← last]
            exact fun none => by rw [place, none] at other; cases other
          by_cases nextConverts : utf.Converts q
          · rw [ensureLoop_failed nextConverts absent failed]
            exact walked_failed grown next known
          · rw [ensureLoop_null nextConverts]
            exact walked_failed grown next known
    | false =>
      cases made : tree.mkdir refuses p with
      | error errno =>
        rw [ensureLoop_failed converts there made]
        apply walked_failed grown last
        rw [reaches.directory]
        exact Option.some_ne_none _
      | ok tree' =>
        rw [ensureLoop_made converts there made]
        have grown' := grown.mkdir reaches last made
        have further : tree'.Reaches (tree'.start p) (parts p) := reaches.after_mkdir last made
        apply Walked.call ?_ known
        exact Walked.cons grown' further (ih grown' (last ▸ further))

/-- The name of a file that is no directory is passed over, like those of the directories. -/
theorem ensureLoop_namesOther (grown : FileTree.Grown refuses before past tree)
    (reaches : tree.Reaches (tree.base absolute) ds) (ladder : Ladder absolute ds paths)
    (last : paths.getLast? = some name) (named : NamesOther refuses before name)
    (ascii : ∀ p ∈ paths, p.IsAscii) : (ensureLoop utf refuses tree paths).rc = .noError := by
  induction ladder generalizing tree past with
  | nil => cases last
  | @cons ds paths c p same final ladder ih =>
    have start : tree.start p = tree.base absolute := congrArg tree.base same
    rw [← start] at reaches
    obtain ⟨first, rest⟩ := List.forall_mem_cons.mp ascii
    have converts : utf.Converts p := YellaUtf.converts_iff.mpr first
    have base : tree.start p = before.start p := grown.start_eq p
    by_cases alone : paths = []
    · subst alone
      obtain rfl : p = name := by simpa using last
      have other : tree.kind (tree.place p) = some .other := by
        rw [grown.place_eq]
        exact grown.kept _ _ named.other
      rw [ensureLoop_there converts ((reaches.access_iff final).mpr (.inr ⟨other, named.noSlash⟩))]
      rfl
    · rw [List.getLast?_cons_of_ne_nil alone] at last
      have mem : name ∈ paths := List.mem_of_getLast? last
      have whole : before.start name = before.start p :=
        congrArg before.base ((ladder.absolute_eq mem).trans same.symm)
      obtain ⟨below, ne⟩ := ladder.longer mem
      have place : before.place p = (before.start name).along (ds ++ [c]) := by
        rw [whole, FileTree.place, final]
      have either := named.ancestors (ds ++ [c]) below ne
      rw [← place, ← grown.place_eq] at either
      by_cases directory : tree.kind (tree.place p) = some .directory
      · rw [ensureLoop_there converts ((reaches.access_iff final).mpr (.inl directory))]
        have further : tree.Reaches (tree.start p) (ds ++ [c]) := by
          rw [FileTree.place, final] at directory
          exact reaches.snoc directory
        exact ih grown (start ▸ further) last rest
      · obtain ⟨was, allowed⟩ := either.resolve_left fun was => directory (grown.kept _ _ was)
        have absent : tree.kind (tree.place p) = none := by
          by_contra there
          obtain ⟨k, is⟩ := Option.ne_none_iff_exists'.mp there
          obtain ⟨rfl, -⟩ := grown.made _ k was is
          exact directory is
        have missing : tree.access p = false := by
          rw [Bool.eq_false_iff]
          intro there
          have := (reaches.access_iff final).mp there
          simp [absent] at this
        obtain ⟨tree', made⟩ := reaches.exists_mkdir final absent allowed
        rw [ensureLoop_made converts missing made]
        have further := reaches.after_mkdir final made
        have start' : tree'.start p = tree'.base absolute := congrArg tree'.base same
        rw [start', final] at further
        exact ih (grown.mkdir reaches final made) further last rest

/-! ## The directory -/

/-- `walk` finds the directory that the parts lead to. -/
theorem FileTree.Reaches.isDirectory {q : UStr} (h : tree.Reaches (tree.start name) (parts name))
    (ancestor : AncestorOrSelf q name) : tree.IsDirectory q := by
  obtain ⟨more, eq⟩ := ancestor.parts
  have start : tree.start q = tree.start name := congrArg tree.base ancestor.absolute
  rw [← eq, ← start] at h
  exact ⟨_, h.front.walk, h.front.directory⟩

theorem reaches_bottom {bottom : List UStr} (tree : FileTree)
    (low : bottom = [] ∨ bottom = [[46]] ∧ absolute = false) :
    tree.Reaches (tree.base absolute) bottom := by
  rcases low with rfl | ⟨rfl, rfl⟩
  · apply reaches_nil
    cases absolute with
    | true => exact tree.root
    | false => exact tree.cwdDirectory
  · exact (reaches_nil tree.cwdDirectory).snoc tree.cwdDirectory

theorem descends_calls {dirs bottom : List UStr}
    (ladder : Ladder (isFileNameAbsolute name) bottom (dirs ++ [name]))
    (walked : Walked refuses tree [] (dirs ++ [name])
      (ensureLoop utf refuses tree (dirs ++ [name]))) :
    Descends tree name (ensureLoop utf refuses tree (dirs ++ [name])).calls := by
  have sub : (ensureLoop utf refuses tree (dirs ++ [name])).calls.Sublist (dirs ++ [name]) :=
    ensureLoop_calls tree _
  refine ⟨fun p hp => ?_, ladder.pairwise.sublist sub, fun pre p post eq ds c last => ?_⟩
  · have mem := sub.subset hp
    refine ⟨?_, ladder.absolute_eq mem, ?_⟩
    · rintro rfl
      obtain ⟨below, ne⟩ := ladder.longer mem
      exact ne (List.prefix_nil.mp below)
    · rcases List.mem_append.mp mem with mem | mem
      · exact ((List.pairwise_append.mp ladder.pairwise).2.2 p mem name (by simp)).1
      · obtain rfl : p = name := List.mem_singleton.mp mem
        exact List.prefix_refl _
  · have := walked.parent pre p post eq ds c last
    rwa [List.nil_append] at this

/-- A file that was passed over at the end is one that the name has been given to before. -/
theorem Walked.namesOther {dirs : List UStr} {r : Ensured}
    (walked : Walked refuses tree [] (dirs ++ [name]) r) (ascii : name.IsAscii)
    (other : r.tree.kind (r.tree.place name) = some .other) (noSlash : name.getLast? ≠ some dirSep)
    (front : ∀ ds c, parts name = ds ++ [c] → r.tree.Reaches (r.tree.start name) ds) :
    NamesOther refuses tree name := by
  have grown := walked.grown
  have was {p : Place} {k : FileKind} (is : r.tree.kind p = some k) :
      tree.kind p = some k ∨ tree.kind p = none ∧ k = .directory ∧ refuses p = none := by
    cases before : tree.kind p with
    | none =>
      obtain ⟨directory, allowed, -⟩ := grown.made p k before is
      exact .inr ⟨rfl, directory, allowed⟩
    | some k' => exact .inl ((grown.kept p k' before).symm.trans is)
  rw [grown.place_eq] at other
  refine ⟨ascii, ?_, noSlash, fun ds below ne => ?_⟩
  · rcases was other with was | ⟨-, made, -⟩
    · exact was
    · cases made
  · have directory : r.tree.kind ((tree.start name).along ds) = some .directory := by
      rcases List.eq_nil_or_concat (parts name) with none | ⟨init, c, last⟩
      · rw [none] at below ne
        exact absurd (List.prefix_nil.mp below) ne
      · rw [List.concat_eq_append] at last
        have whole := front init c last
        rw [last] at below ne
        obtain ⟨more, eq⟩ := (List.prefix_concat_iff.mp below).resolve_left ne
        rw [← eq, grown.start_eq] at whole
        exact whole.front.directory
    rcases was directory with was | ⟨was, -, allowed⟩
    · exact .inl was
    · exact .inr ⟨was, allowed⟩

/-- A name of slashes is that of the root. -/
theorem reaches_slashes (tree : FileTree) (nonempty : name ≠ []) (slashes : trimmed name = []) :
    tree.Reaches (tree.start name) (parts name) := by
  have all := trimmed_eq_nil_iff.mp slashes
  have none : parts name = [] := parts_append_run (a := []) all
  have absolute : isFileNameAbsolute name = true := by
    obtain ⟨c, more, rfl⟩ := List.exists_cons_of_ne_nil nonempty
    rw [all c List.mem_cons_self]
    rfl
  rw [none, start, absolute]
  exact reaches_nil tree.root

theorem ensuresDir_slashes (nonempty : name ≠ []) (none : parts name = [])
    (reaches : tree.Reaches (tree.start name) (parts name))
    (runs : ∀ fuel, name.length < fuel → yellaEnsureDirExists utf refuses fuel tree (some name) =
      some (ensureLoop utf refuses tree [name])) :
    EnsuresDir utf refuses tree name := by
  by_cases converts : utf.Converts name
  · have there : tree.access name = true := by
      rw [access, if_neg nonempty, reaches.walk]
      simp [reaches.directory]
    rw [ensureLoop_there converts there] at runs
    refine ⟨_, runs, ⟨by simp [ensureLoop], List.Pairwise.nil, ?_⟩, fun _ p ancestor => ?_⟩
    · intro pre p post eq
      simp [ensureLoop] at eq
    · exact reaches.isDirectory ancestor
  · rw [ensureLoop_null converts] at runs
    refine ⟨_, runs, ⟨?_, List.pairwise_singleton _ _, ?_⟩,
      fun ok => absurd ok (createError_ne .other)⟩
    · intro p hp
      obtain rfl := List.mem_singleton.mp hp
      exact ⟨nonempty, rfl, List.prefix_rfl⟩
    · intro pre p post eq ds c last
      have eq : [name] = pre ++ p :: post := eq
      have mem : p ∈ [name] := eq ▸ List.mem_append_right _ List.mem_cons_self
      rw [List.mem_singleton.mp mem, none] at last
      simp at last

/-- **Ensuring a directory.** The call ends with a directory or an error exactly if it is not given
the name of another file. -/
theorem ensuresDir_iff (utf : YellaUtf) (refuses : Place → Option Errno) (tree : FileTree)
    (nonempty : name ≠ []) :
    EnsuresDir utf refuses tree name ↔ ¬ NamesOther refuses tree name := by
  obtain ⟨dirs, bottom, runs, all, ⟨slashes, rfl⟩ | ⟨low, ladder⟩⟩ :=
    exists_ladder utf refuses tree nonempty
  · have reaches := reaches_slashes tree nonempty slashes
    have none : parts name = [] := @parts_append_run [] name (trimmed_eq_nil_iff.mp slashes)
    apply iff_of_true (ensuresDir_slashes nonempty none reaches runs)
    intro named
    have other := named.other
    rw [FileTree.place, reaches.directory] at other
    cases other
  have last : (dirs ++ [name]).getLast? = some name := List.getLast?_concat
  have start : FileTree.Grown refuses tree [] tree := FileTree.Grown.refl tree
  have reaches := reaches_bottom tree low
  have walk : Walked refuses tree [] (dirs ++ [name]) (ensureLoop utf refuses tree _) :=
    walked start reaches ladder
  constructor
  · rintro ⟨r, ends, -, done⟩ named
    have same := (ends (name.length + 1) (by omega)).symm.trans (runs _ (by omega))
    obtain rfl := Option.some.inj same
    have ok : (ensureLoop utf refuses tree (dirs ++ [name])).rc = .noError :=
      ensureLoop_namesOther start reaches ladder last named (all named.ascii)
    obtain ⟨place, found, directory⟩ := done ok name ⟨nonempty, rfl, List.prefix_refl _⟩
    obtain rfl := eq_along_of_walk found
    have other := walk.grown.kept _ _ named.other
    rw [← walk.grown.place_eq, FileTree.place, directory] at other
    cases other
  · intro proper
    refine ⟨_, runs, descends_calls ladder walk, fun ok p ancestor => ?_⟩
    rcases walk.done ok name last with whole | ⟨ascii, other, noSlash, front⟩
    · exact whole.isDirectory ancestor
    · exact absurd (walk.namesOther ascii other noSlash front) proper

end

/-- A root directory with a file `f` in it, which is also the working directory. -/
def rootWithFile : FileTree where
  kind p := if p = [] then some .directory else if p = [[102]] then some .other else none
  root := rfl
  parent := by
    intro name place there
    split
    · rfl
    · rename_i deeper
      have : name :: place ≠ [[102]] := by
        intro eq
        exact deeper (List.cons.inj eq).2
      simp [this] at there
  cwd := []
  cwdDirectory := rfl

theorem ensuresDir_new :
    [110] ≠ ([] : UStr) ∧ EnsuresDir asciiUtf (fun _ => none) rootWithFile [110] := by
  have nonempty : [110] ≠ ([] : UStr) := by decide
  refine ⟨nonempty, (ensuresDir_iff asciiYellaUtf _ rootWithFile nonempty).mpr ?_⟩
  intro named
  exact absurd named.other (by decide)

/-- The name of the file is taken for that of a directory. -/
theorem not_ensuresDir_file :
    yellaEnsureDirExists asciiUtf (fun _ => none) 2 rootWithFile (some [102]) =
        some ⟨.noError, rootWithFile, []⟩ ∧
      ¬ EnsuresDir asciiUtf (fun _ => none) rootWithFile [102] := by
  have run : yellaEnsureDirExists asciiUtf (fun _ => none) 2 rootWithFile (some [102]) =
      some ⟨.noError, rootWithFile, []⟩ := rfl
  refine ⟨run, ?_⟩
  rintro ⟨r, ends, -, done⟩
  have same := (ends 2 (by decide)).symm.trans run
  obtain rfl := Option.some.inj same
  obtain ⟨place, found, directory⟩ := done rfl [102] ⟨by decide, rfl, List.prefix_refl _⟩
  obtain rfl : [[102]] = place := Except.ok.inj found
  cases directory

end Yella
