import Mathlib.Data.List.Sort
import Yella.Job.Crawl
import Yella.Plugin.Cleanse
import Yella.Plugin.Monitor
import Yella.Plugin.Threads

/-!
# Where watching and crawling start

`get_paths` of `event_source_fswatch.c` and the directory that `run_one_include` crawls. Both
cut the text of the pattern at a separator before its first wildcard.
-/

namespace Yella

/-- `u_strrchr`: the offset of the last occurrence of `c`. -/
def uStrrchr : UStr → UChar → Option Nat
  | [], _ => none
  | d :: s, c =>
    match uStrrchr s c with
    | some i => some (i + 1)
    | none => if d = c then some 0 else none

/-- Where both begin to look back for a separator. -/
def startOffset (inc : UStr) : Option Nat :=
  (Glob.firstUnescapedSpecialChar inc).or (uStrrchr inc dirSep)

/-- One round of the loop over the includes of a spec, with what it pushes back. A result of
`none` is the failed assertion. -/
def watchDir (inc : UStr) : Option (Option UStr) := (startOffset inc).map (topDir inc)

def collectPaths : List UStr → Option (List UStr)
  | [] => some []
  | inc :: incs => do
    let path ← watchDir inc
    let paths ← collectPaths incs
    some (path.toList ++ paths)

/-- The loop over the sorted paths, behind the last one kept. -/
def uniqPaths (last : UStr) : List UStr → List UStr
  | [] => []
  | path :: paths =>
    if uStrcmp path last ≠ 0 then path :: uniqPaths path paths else uniqPaths last paths

/-- `get_paths` up to the log, with the specs in the order of the iterator. -/
def sortedPaths (root : BinaryTree EventSourceSpec) : Option (List UStr) := do
  let paths ← collectPaths ((SortedList.postorder root).flatMap EventSourceSpec.includes)
  match paths.mergeSort (fun p q => uStrcmp p q ≤ 0) with
  | [] => some []
  | first :: rest => some (first :: uniqPaths first rest)

/-- `get_paths`: where the level is INFO, it calls `strlen` for the text of each path. -/
def getUniqPaths (utf : Utf) (permitsInfo : Bool) (root : BinaryTree EventSourceSpec) :
    Option (List UStr) := do
  let paths ← sortedPaths root
  if permitsInfo ∧ ∃ path ∈ paths, ¬ utf.Converts path then none else some paths

/-- The paths that `start_monitor` adds; `fsw_add_path` refuses NULL. -/
def addedPaths (utf : Utf) (paths : List UStr) : List UStr := paths.filter utf.Converts

/-- Where `run_one_include` starts, if there is a directory: `yella_get_file_type` fails for a text
that is not converted. -/
def crawledDir (utf : Utf) (inc : UStr) (special : Nat) : Option UStr :=
  (topDir inc special).filter utf.Converts

/-! ## The paths that are watched -/

theorem mem_uniqPaths {last : UStr} {paths : List UStr} (plain : ∀ p ∈ last :: paths, 0 ∉ p)
    (p : UStr) : p ∈ last :: uniqPaths last paths ↔ p ∈ last :: paths := by
  induction paths generalizing last with
  | nil => rfl
  | cons path paths ih =>
    simp only [List.forall_mem_cons] at plain ih
    obtain ⟨hl, hp, hrest⟩ := plain
    rw [uniqPaths]
    split
    · rw [List.mem_cons, ih ⟨hp, hrest⟩, ← List.mem_cons]
    · rename_i same
      obtain rfl := (uStrcmp_eq_zero_iff hp hl).mp (not_not.mp same)
      rw [ih ⟨hl, hrest⟩]
      simp

theorem mem_collectPaths {incs : List UStr} {paths : List UStr}
    (h : collectPaths incs = some paths) (p : UStr) :
    p ∈ paths ↔ ∃ inc ∈ incs, watchDir inc = some (some p) := by
  induction incs generalizing paths with
  | nil =>
    cases h
    simp
  | cons inc incs ih =>
    simp only [collectPaths, Option.bind_eq_bind, Option.bind_eq_some_iff, Option.some.injEq] at h
    obtain ⟨path, hpath, rest, hrest, rfl⟩ := h
    rw [List.mem_append, ih hrest, List.exists_mem_cons_iff, hpath, Option.mem_toList,
      Option.some.injEq, eq_comm]

theorem collectPaths_isSome_iff {incs : List UStr} :
    (collectPaths incs).isSome ↔ ∀ inc ∈ incs, watchDir inc ≠ none := by
  induction incs with
  | nil => simp [collectPaths]
  | cons inc incs ih =>
    rw [List.forall_mem_cons, ← ih, collectPaths]
    cases watchDir inc <;> cases collectPaths incs <;> simp

theorem watchDir_subset {inc dir : UStr} (h : watchDir inc = some (some dir)) : dir ⊆ inc := by
  obtain ⟨stop, -, htop⟩ := Option.map_eq_some_iff.mp h
  obtain ⟨sep, -, rfl⟩ := Option.map_eq_some_iff.mp htop
  exact List.take_subset _ _

/-- The directory of each pattern is there, and no others are. -/
theorem mem_sortedPaths {root : BinaryTree EventSourceSpec}
    (includes : ∀ spec ∈ SortedList.postorder root, ∀ inc ∈ spec.includes,
      watchDir inc ≠ none ∧ 0 ∉ inc) :
    ∃ dirs, sortedPaths root = some dirs ∧ ∀ dir, dir ∈ dirs ↔
      ∃ spec ∈ SortedList.postorder root, ∃ inc ∈ spec.includes,
        watchDir inc = some (some dir) := by
  have listed : ∀ inc ∈ (SortedList.postorder root).flatMap EventSourceSpec.includes,
      watchDir inc ≠ none ∧ 0 ∉ inc := by
    intro inc hinc
    obtain ⟨spec, hs, hi⟩ := List.mem_flatMap.mp hinc
    exact includes spec hs inc hi
  obtain ⟨paths, hpaths⟩ := Option.isSome_iff_exists.mp
    (collectPaths_isSome_iff.mpr fun inc hinc => (listed inc hinc).1)
  have collected (dir : UStr) : dir ∈ paths.mergeSort (fun p q => uStrcmp p q ≤ 0) ↔
      ∃ spec ∈ SortedList.postorder root, ∃ inc ∈ spec.includes,
        watchDir inc = some (some dir) := by
    rw [List.mem_mergeSort, mem_collectPaths hpaths]
    simp only [List.mem_flatMap]
    constructor
    · rintro ⟨inc, ⟨spec, hs, hi⟩, hdir⟩; exact ⟨spec, hs, inc, hi, hdir⟩
    · rintro ⟨spec, hs, inc, hi, hdir⟩; exact ⟨inc, ⟨spec, hs, hi⟩, hdir⟩
  simp only [sortedPaths, hpaths, Option.bind_eq_bind, Option.bind_some]
  cases hsort : paths.mergeSort (fun p q => uStrcmp p q ≤ 0) with
  | nil =>
    rw [hsort] at collected
    exact ⟨[], rfl, collected⟩
  | cons first rest =>
    rw [hsort] at collected
    refine ⟨_, rfl, ?_⟩
    intro dir
    rw [mem_uniqPaths, collected]
    intro path hpath
    obtain ⟨spec, hs, inc, hi, hdir⟩ := (collected path).mp hpath
    exact fun hz => (includes spec hs inc hi).2 (watchDir_subset hdir hz)

/-! ## The separator -/

theorem uStrrchr_none {s : UStr} {c : UChar} : uStrrchr s c = none ↔ c ∉ s := by
  induction s with
  | nil => simp [uStrrchr]
  | cons d s ih =>
    rw [uStrrchr]
    cases hr : uStrrchr s c with
    | none =>
      have absent := ih.mp hr
      simp only [ite_eq_right_iff, reduceCtorEq, imp_false, List.mem_cons, absent, or_false]
      exact not_congr eq_comm
    | some i =>
      have : c ∈ s := by
        by_contra absent
        rw [ih.mpr absent] at hr
        cases hr
      simp [this]

theorem uStrrchr_some {s : UStr} {c : UChar} {i : Nat} (h : uStrrchr s c = some i) :
    ∃ u v, s = u ++ c :: v ∧ u.length = i ∧ c ∉ v := by
  induction s generalizing i with
  | nil => cases h
  | cons d s ih =>
    rw [uStrrchr] at h
    cases hr : uStrrchr s c with
    | none =>
      rw [hr] at h
      simp only [Option.ite_none_right_eq_some, Option.some.injEq] at h
      obtain ⟨rfl, rfl⟩ := h
      exact ⟨[], s, rfl, rfl, uStrrchr_none.mp hr⟩
    | some j =>
      rw [hr] at h
      obtain rfl := Option.some_inj.mp h
      obtain ⟨u, v, rfl, rfl, hv⟩ := ih hr
      exact ⟨d :: u, v, rfl, rfl, hv⟩

theorem uStrrchr_append {u v : UStr} {c : UChar} (hv : c ∉ v) :
    uStrrchr (u ++ c :: v) c = some u.length := by
  induction u with
  | nil => simp [uStrrchr, uStrrchr_none.mpr hv]
  | cons d u ih => simp [uStrrchr, ih]

theorem separatorBefore_self {incl : UStr} {i : Nat} (h : incl[i]? = some dirSep) :
    separatorBefore incl i = some i := by
  cases i <;> rw [separatorBefore, if_pos h]

/-- The search comes back to the last separator. -/
theorem separatorBefore_append {a s : UStr} {i : Nat} (hi : i ≤ s.length)
    (behind : dirSep ∉ s.take i) :
    separatorBefore (a ++ dirSep :: s) (a.length + i) = some a.length := by
  induction i with
  | zero => exact separatorBefore_self (by simp)
  | succ i ih =>
    have at_i : (a ++ dirSep :: s)[a.length + i + 1]? = s[i]? := by
      rw [List.getElem?_append_right (by omega)]
      simp [show a.length + i + 1 - a.length = i + 1 by omega]
    have other : ¬ s[i]? = some dirSep := by
      intro h
      refine behind (List.mem_iff_getElem?.mpr ⟨i, ?_⟩)
      rw [List.getElem?_take_of_lt (Nat.lt_succ_self i), h]
    rw [← Nat.add_assoc, separatorBefore, at_i, if_neg other]
    refine ih (by omega) fun h => behind ?_
    exact List.take_subset_take_left s (Nat.le_succ i) h

/-! ## What the watcher thread is started with -/

/-- From the end of the pattern the search comes to its last separator. -/
theorem watchedDir_eq_watchDir (inc : UStr) : watchedDir inc = watchDir inc := by
  rw [watchedDir, watchDir, startOffset]
  cases hs : Glob.firstUnescapedSpecialChar inc with
  | some special => rfl
  | none =>
    rw [Option.none_or]
    cases hl : uStrrchr inc dirSep with
    | none => exact if_neg (uStrrchr_none.mp hl)
    | some i =>
      obtain ⟨u, v, rfl, rfl, hv⟩ := uStrrchr_some hl
      have back : separatorBefore (u ++ dirSep :: v) ((u ++ dirSep :: v).length - 1) =
          some u.length := by
        rw [show (u ++ dirSep :: v).length - 1 = u.length + v.length by simp]
        exact separatorBefore_append (Nat.le_refl _) (by rwa [List.take_length])
      have here : separatorBefore (u ++ dirSep :: v) u.length = some u.length :=
        separatorBefore_self (by simp)
      dsimp only
      rw [if_pos (by simp), Option.map_some, topDir, topDir, back, here]

theorem getPaths_eq_collectPaths (specs : SpecTree) :
    getPaths specs = collectPaths (specs.nodes.flatMap EventSourceSpec.includes) := by
  rw [getPaths]
  induction specs.nodes.flatMap EventSourceSpec.includes with
  | nil => rfl
  | cons inc incs ih =>
    rw [collectPaths, ← ih, List.mapM_cons, watchedDir_eq_watchDir]
    cases watchDir inc with
    | none => rfl
    | some path =>
      cases incs.mapM watchedDir with
      | none => rfl
      | some paths => cases path <;> rfl

/-- The watcher thread is started for the directories that are left after the sorting. -/
theorem mem_sortedPaths_iff_mem_getPaths {specs : SpecTree} {root : BinaryTree EventSourceSpec}
    (shape : specs.ShapedAs root) (plain : ∀ spec ∈ specs.nodes, ∀ inc ∈ spec.includes, 0 ∉ inc)
    {paths : List UStr} (started : getPaths specs = some paths) :
    ∃ dirs, sortedPaths root = some dirs ∧ ∀ dir, dir ∈ dirs ↔ dir ∈ paths := by
  rw [getPaths_eq_collectPaths] at started
  have found : ∀ inc ∈ specs.nodes.flatMap EventSourceSpec.includes, watchDir inc ≠ none := by
    apply collectPaths_isSome_iff.mp
    rw [started]
    rfl
  obtain ⟨dirs, hdirs, mem⟩ := @mem_sortedPaths root fun spec hs inc hi => by
    have hs := shape.mem_postorder.mp hs
    exact ⟨found inc (List.mem_flatMap.mpr ⟨spec, hs, hi⟩), plain spec hs inc hi⟩
  refine ⟨dirs, hdirs, ?_⟩
  intro dir
  rw [mem, mem_collectPaths started]
  simp only [shape.mem_postorder, List.mem_flatMap]
  constructor
  · rintro ⟨spec, hs, inc, hi, hdir⟩
    exact ⟨inc, ⟨spec, hs, hi⟩, hdir⟩
  · rintro ⟨inc, ⟨spec, hs, hi⟩, hdir⟩
    exact ⟨spec, hs, inc, hi, hdir⟩

/-- The text of the pattern before the separator that it is cut at. -/
def directoryPart (inc : UStr) : UStr :=
  match (startOffset inc).bind (separatorBefore inc) with
  | none => []
  | some sep => inc.take sep

/-- The directory with that text. -/
def directoryOf (part : UStr) : UStr := if part = [] then [dirSep] else part

theorem dirName_directoryOf {part : UStr} (h : part.getLast? ≠ some dirSep) :
    dirName (directoryOf part) = part ++ [dirSep] := by
  unfold directoryOf
  split
  · rename_i empty
    rw [empty]
    rfl
  · exact if_neg h

/-- A pattern that accepts a name is cut at a separator, and the name has one where the text
up to the cut has been read. -/
theorem exists_cut {inc name : UStr} (canonical : Canonical inc)
    (matched : Glob.fileNameMatches name inc = true) :
    ∃ stop part rest v w, startOffset inc = some stop ∧ inc = part ++ dirSep :: rest ∧
      separatorBefore inc stop = some part.length ∧
      Glob.Reads (part ++ [dirSep]) (v ++ [dirSep]) ∧ name = v ++ dirSep :: w := by
  have notEscape : dirSep ≠ backslash := by decide
  have head : inc.head? = some dirSep := by
    have := canonical.absolute
    simpa [isFileNameAbsolute] using this
  -- the last separator of literal text at the front of the pattern
  have last {r u q : UStr} (h : Glob.Reads r u) (hr : inc = r ++ q) (hc : dirSep ∈ r) :
      ∃ part rest v w, r = part ++ dirSep :: rest ∧ dirSep ∉ rest ∧
        Glob.Reads (part ++ [dirSep]) (v ++ [dirSep]) ∧ name = v ++ dirSep :: w := by
    cases hlast : uStrrchr r dirSep with
    | none => exact absurd hc (uStrrchr_none.mp hlast)
    | some i =>
      obtain ⟨part, rest, rfl, -, hrest⟩ := uStrrchr_some hlast
      obtain ⟨v, w, front, -, rfl⟩ := h.split notEscape rfl
      rw [hr, h.matches_append] at matched
      obtain ⟨behind, -, rfl⟩ := matched
      exact ⟨part, rest, v, w ++ behind, rfl, hrest, front, by simp⟩
  rcases Glob.reads_cases inc with ⟨u, h⟩ | ⟨r, u, h, rfl⟩ | ⟨r, u, c, q, h, hc, rfl⟩
  · obtain ⟨part, rest, v, w, rfl, hrest, front, hname⟩ :=
      last h (List.append_nil inc).symm (List.mem_of_head? head)
    refine ⟨part.length, part, rest, v, w, ?_, rfl, separatorBefore_self (by simp), front, hname⟩
    rw [startOffset, h.special_none, Option.none_or, uStrrchr_append hrest]
  · rw [h.not_matches_dangling] at matched
    cases matched
  · have inFront : dirSep ∈ r := by
      cases r with
      | nil =>
        simp only [List.nil_append, List.head?_cons, Option.some.injEq] at head
        rcases hc with rfl | rfl <;> cases head
      | cons d r =>
        simp only [List.cons_append, List.head?_cons, Option.some.injEq] at head
        exact head ▸ List.mem_cons_self
    obtain ⟨part, rest, v, w, rfl, hrest, front, hname⟩ := last h rfl inFront
    have special := h.special_wildcard (q := q) hc
    refine ⟨_, part, rest ++ c :: q, v, w, by rw [startOffset, special, Option.some_or], by simp,
      ?_, front, hname⟩
    rw [List.append_assoc, List.cons_append,
      show (part ++ dirSep :: rest).length = part.length + (rest.length + 1) by simp]
    apply separatorBefore_append (by simp)
    -- the wildcard itself is no separator
    have other : dirSep ≠ c := by
      rcases hc with rfl | rfl <;> decide
    rw [List.take_append, List.take_of_length_le (Nat.le_succ _)]
    simp [hrest, other]

/-! ## The directory above -/

/-- The directory is a proper ancestor of the name, or both are the root. -/
def Above (dir name : UStr) : Prop :=
  (∃ rest, rest ≠ [] ∧ name = dirName dir ++ rest) ∨ dir = [dirSep] ∧ name = [dirSep]

/-- Text that has an escape in it names another directory than the one it stands for. -/
theorem above_iff {part v w : UStr} (canonical : Canonical (v ++ dirSep :: w))
    (ends : part.getLast? ≠ some dirSep)
    (h : Glob.Reads (part ++ [dirSep]) (v ++ [dirSep])) :
    Above (directoryOf part) (v ++ dirSep :: w) ↔ backslash ∉ part := by
  have name : v ++ dirSep :: w = v ++ [dirSep] ++ w := by simp
  constructor
  · rintro (⟨rest, -, hname⟩ | ⟨root, -⟩)
    · rw [dirName_directoryOf ends, name] at hname
      -- both are at the front of the name, and the unescaped text is not longer
      have front : v ++ [dirSep] <+: part ++ [dirSep] :=
        List.prefix_of_prefix_length_le ⟨w, rfl⟩ ⟨rest, hname.symm⟩ h.length_le
      have := h.no_backslash_of_prefix (by simp) front
      exact fun hb => this (List.mem_append_left _ hb)
    · unfold directoryOf at root
      split at root
      · rename_i empty
        simp [empty]
      · simpa [root] using (by decide : backslash ≠ dirSep)
  · intro plain
    have same : v ++ [dirSep] = part ++ [dirSep] :=
      h.eq_self (by simpa [plain] using (by decide : backslash ≠ dirSep))
    rw [name, same] at canonical ⊢
    by_cases hw : w = []
    · subst hw
      rw [List.append_nil] at canonical ⊢
      have root : part ++ [dirSep] = [dirSep] := by
        by_contra other
        exact canonical.noTrailing other List.getLast?_concat
      obtain rfl : part = [] := by simpa using root
      exact .inr ⟨rfl, rfl⟩
    · exact .inl ⟨w, hw, by rw [dirName_directoryOf ends]⟩

/-- A crawl for the pattern starts above the name, and so does the watcher that is given the
directories of all specs. -/
def StartsAbove (utf : Utf) (permitsInfo : Bool) (root : BinaryTree EventSourceSpec)
    (inc name : UStr) : Prop :=
  (∀ special, Glob.firstUnescapedSpecialChar inc = some special →
    ∃ top, crawledDir utf inc special = some top ∧ Above top name) ∧
  ∃ dirs dir, getUniqPaths utf permitsInfo root = some dirs ∧ dir ∈ addedPaths utf dirs ∧
    watchDir inc = some (some dir) ∧ Above dir name

/-- What the cut leaves of a pattern, whichever of the two makes it. -/
theorem directory_of_cut {inc part rest : UStr} {stop : Nat} (hinc : inc = part ++ dirSep :: rest)
    (hsep : separatorBefore inc stop = some part.length) :
    topDir inc stop = some (directoryOf part) := by
  rw [topDir, hsep, hinc, Option.map_some, directoryOf]
  by_cases empty : part = []
  · simp [empty]
  · have : part.length ≠ 0 := by simpa using empty
    simp [empty, this]

/-- The two functions take the same directory, named by the text before the cut. -/
theorem exists_directory {inc name : UStr} (absolute : Canonical inc) (canonical : Canonical name)
    (matched : Glob.fileNameMatches name inc = true) :
    ∃ dir, watchDir inc = some (some dir) ∧
      (∀ special, Glob.firstUnescapedSpecialChar inc = some special →
        topDir inc special = some dir) ∧
      Canonical dir ∧ (Above dir name ↔ backslash ∉ directoryPart inc) := by
  obtain ⟨stop, part, rest, v, w, hstop, hinc, hsep, front, rfl⟩ := exists_cut absolute matched
  have top := directory_of_cut hinc hsep
  have ends : part.getLast? ≠ some dirSep := by
    intro h
    have single := hinc ▸ absolute.noDouble
    exact (List.isChain_append.mp single).2.2 dirSep h dirSep rfl ⟨rfl, rfl⟩
  have text : directoryPart inc = part := by
    rw [directoryPart, hstop, Option.bind_some, hsep, hinc]
    simp
  refine ⟨directoryOf part, by rw [watchDir, hstop, Option.map_some, top], ?_, ?_, ?_⟩
  · intro special hs
    rw [startOffset, hs, Option.some_or, Option.some_inj] at hstop
    rw [hstop, top]
  · have absolute := hinc ▸ absolute
    unfold directoryOf
    split
    · exact .root
    · rename_i some
      refine ⟨?_, absolute.noDouble.left_of_append, fun _ => ends⟩
      have head := absolute.absolute
      simpa [isFileNameAbsolute, List.head?_append_of_ne_nil _ some] using head
  · rw [text]
    exact above_iff canonical ends front

theorem separatorBefore_of_head {inc : UStr} (head : inc[0]? = some dirSep) (stop : Nat) :
    ∃ sep, separatorBefore inc stop = some sep := by
  induction stop with
  | zero => exact ⟨0, if_pos head⟩
  | succ i ih =>
    rw [separatorBefore]
    split
    · exact ⟨i + 1, rfl⟩
    · exact ih

/-- An absolute pattern has a directory, whether it accepts a name or not. -/
theorem watchDir_eq {inc : UStr} (absolute : Canonical inc) :
    watchDir inc = some (some (directoryOf (directoryPart inc))) := by
  have first : inc.head? = some dirSep := by
    have := absolute.absolute
    simpa [isFileNameAbsolute] using this
  obtain ⟨stop, hstop⟩ : ∃ stop, startOffset inc = some stop := by
    cases hs : Glob.firstUnescapedSpecialChar inc with
    | some special => exact ⟨special, by simp [startOffset, hs]⟩
    | none =>
      cases hl : uStrrchr inc dirSep with
      | none => exact absurd (List.mem_of_head? first) (uStrrchr_none.mp hl)
      | some i => exact ⟨i, by simp [startOffset, hs, hl]⟩
  obtain ⟨sep, hsep⟩ := separatorBefore_of_head (List.head?_eq_getElem? ▸ first) stop
  cases inc with
  | nil => cases first
  | cons c inc =>
    obtain rfl : c = dirSep := by simpa using first
    rw [watchDir, directoryPart, hstop, Option.map_some, Option.bind_some, topDir, hsep,
      Option.map_some, directoryOf]
    cases sep with
    | zero => rfl
    | succ n => simp

theorem directoryOf_isAscii {part : UStr} : (directoryOf part).IsAscii ↔ part.IsAscii := by
  unfold directoryOf
  split
  · rename_i empty
    rw [empty]
    exact iff_of_true (by decide) (by decide)
  · rfl

/-- The paths are logged where each of them is converted. -/
theorem getUniqPaths_iff {utf : YellaUtf} {permitsInfo : Bool}
    {root : BinaryTree EventSourceSpec}
    (includes : ∀ spec ∈ SortedList.postorder root, ∀ inc ∈ spec.includes,
      Canonical inc ∧ 0 ∉ inc) :
    ∃ dirs, (∀ dir, dir ∈ dirs ↔ ∃ spec ∈ SortedList.postorder root, ∃ inc ∈ spec.includes,
        watchDir inc = some (some dir)) ∧
      ∀ dirs', getUniqPaths utf permitsInfo root = some dirs' ↔ dirs = dirs' ∧
        (permitsInfo = true → ∀ spec ∈ SortedList.postorder root, ∀ inc ∈ spec.includes,
          (directoryPart inc).IsAscii) := by
  obtain ⟨dirs, hdirs, mem⟩ := mem_sortedPaths fun spec hs inc hi =>
    ⟨by simp [watchDir_eq (includes spec hs inc hi).1], (includes spec hs inc hi).2⟩
  have ascii : (∀ dir ∈ dirs, utf.Converts dir) ↔ ∀ spec ∈ SortedList.postorder root,
      ∀ inc ∈ spec.includes, (directoryPart inc).IsAscii := by
    constructor
    · intro all spec hs inc hi
      have watched := watchDir_eq (includes spec hs inc hi).1
      exact directoryOf_isAscii.mp
        (YellaUtf.converts_iff.mp (all _ ((mem _).mpr ⟨spec, hs, inc, hi, watched⟩)))
    · intro all dir hdir
      obtain ⟨spec, hs, inc, hi, watched⟩ := (mem dir).mp hdir
      rw [watchDir_eq (includes spec hs inc hi).1, Option.some_inj, Option.some_inj] at watched
      exact YellaUtf.converts_iff.mpr (watched ▸ directoryOf_isAscii.mpr (all spec hs inc hi))
  refine ⟨dirs, mem, fun dirs' => ?_⟩
  rw [← ascii]
  simp only [getUniqPaths, hdirs, Option.bind_eq_bind, Option.bind_some]
  cases permitsInfo with
  | false => simp
  | true =>
    by_cases all : ∀ dir ∈ dirs, utf.Converts dir
    · rw [if_neg (by simpa using all), Option.some_inj]
      exact ⟨fun same => ⟨same, fun _ => all⟩, And.left⟩
    · rw [if_pos (by simpa using all)]
      simp [all]

/-- For a canonical name that a pattern accepts, both start above it exactly if the text before the
cut is ASCII without an escape, which neither of them resolves, and the paths can be logged. -/
theorem startsAbove_iff {utf : YellaUtf} {permitsInfo : Bool} {root : BinaryTree EventSourceSpec}
    (includes : ∀ spec ∈ SortedList.postorder root, ∀ inc ∈ spec.includes,
      Canonical inc ∧ 0 ∉ inc)
    {inc : UStr} (listed : ∃ spec ∈ SortedList.postorder root, inc ∈ spec.includes)
    {name : UStr} (canonical : Canonical name)
    (matched : Glob.fileNameMatches name inc = true) :
    StartsAbove utf permitsInfo root inc name ↔
      backslash ∉ directoryPart inc ∧ (directoryPart inc).IsAscii ∧
        (permitsInfo = true → ∀ spec ∈ SortedList.postorder root, ∀ inc ∈ spec.includes,
          (directoryPart inc).IsAscii) := by
  obtain ⟨spec, hspec, hinc⟩ := listed
  obtain ⟨dir, watched, crawled, -, iff⟩ :=
    exists_directory (includes spec hspec inc hinc).1 canonical matched
  obtain ⟨dirs, mem, started⟩ := @getUniqPaths_iff utf permitsInfo root includes
  have named : (directoryPart inc).IsAscii ↔ utf.Converts dir := by
    rw [watchDir_eq (includes spec hspec inc hinc).1, Option.some_inj, Option.some_inj] at watched
    rw [YellaUtf.converts_iff, ← watched, directoryOf_isAscii]
  rw [← iff]
  constructor
  · rintro ⟨-, dirs', other, logged, added, hother, above⟩
    rw [watched, Option.some_inj, Option.some_inj] at hother
    subst hother
    have converts := (List.mem_filter.mp added).2
    exact ⟨above, named.mpr (by simpa using converts), ((started _).mp logged).2⟩
  · rintro ⟨above, ascii, all⟩
    have converts := named.mp ascii
    refine ⟨fun special hs => ⟨dir, ?_, above⟩, dirs, dir, (started dirs).mpr ⟨rfl, all⟩, ?_,
      watched, above⟩
    · simp [crawledDir, crawled special hs, converts]
    · exact List.mem_filter.mpr ⟨(mem dir).mpr ⟨spec, hspec, inc, hinc, watched⟩, by simpa⟩

/-- The spec with the one pattern. -/
def oneInclude (inc : UStr) : BinaryTree EventSourceSpec := .node ⟨[99], [inc], []⟩ .nil .nil

/-- `/a/?` and `/a/b` -/
theorem startsAbove_plain :
    StartsAbove asciiUtf true (oneInclude [47, 97, 47, 63]) [47, 97, 47, 63] [47, 97, 47, 98] := by
  have walk : SortedList.postorder (oneInclude [47, 97, 47, 63]) =
      [⟨[99], [[47, 97, 47, 63]], []⟩] := rfl
  have pattern : Canonical [47, 97, 47, 63] := ⟨rfl, by unfold NoDouble; decide, by decide⟩
  refine (@startsAbove_iff asciiYellaUtf _ _ ?_ _ ⟨⟨[99], [[47, 97, 47, 63]], []⟩, ?_, ?_⟩ _
    ⟨rfl, by unfold NoDouble; decide, by decide⟩ ?_).mpr ⟨by decide, by decide, ?_⟩
  · intro spec hs inc hinc
    rw [walk, List.mem_singleton] at hs
    rw [hs] at hinc
    obtain rfl := List.mem_singleton.mp hinc
    exact ⟨pattern, by decide⟩
  · rw [walk]
    exact List.mem_singleton.mpr rfl
  · exact List.mem_singleton.mpr rfl
  · simp [Glob.fileNameMatches, Glob.fileNameMatchesImpl, star, backslash, question, dirSep]
  · rintro - spec hs inc hinc
    rw [walk, List.mem_singleton] at hs
    rw [hs] at hinc
    obtain rfl := List.mem_singleton.mp hinc
    decide

/-- The directory `*` of `/\*/?` is looked for under the name `\*`. -/
theorem escaped_directory_not_above :
    Canonical [47, 92, 42, 47, 63] ∧ Canonical [47, 42, 47, 120] ∧
      Glob.fileNameMatches [47, 42, 47, 120] [47, 92, 42, 47, 63] = true ∧
      ∀ permitsInfo, ¬ StartsAbove asciiUtf permitsInfo (oneInclude [47, 92, 42, 47, 63])
        [47, 92, 42, 47, 63] [47, 42, 47, 120] := by
  refine ⟨⟨rfl, by unfold NoDouble; decide, by decide⟩,
    ⟨rfl, by unfold NoDouble; decide, by decide⟩, ?_, ?_⟩
  · simp [Glob.fileNameMatches, Glob.fileNameMatchesImpl, star, backslash, question, dirSep]
  · rintro permitsInfo ⟨crawl, -⟩
    obtain ⟨top, htop, above⟩ := crawl 4 (by decide)
    obtain rfl : [47, 92, 42] = top := Option.some_inj.mp htop
    obtain ⟨rest, -, hname⟩ | ⟨root, -⟩ := above
    · have second := (List.cons.inj (List.cons.inj hname).2).1
      exact absurd second (by decide)
    · cases root

end Yella
