import Yella.Job.Rescan
import Yella.Lib.Fallible
import Yella.Plugin.EventSource
import Yella.Plugin.WatchPaths

/-!
# Watching and scanning one config

The spec and the job of one config ask the same patterns about a file, the spec with
`event_source_file_name_matches_any` and the job with `run_job`.
-/

namespace Yella

/-! ## Names below the root -/

section
variable {fs : FileSystem}

theorem noDouble_fqn {dir : UStr} {entry : EntryName} (plain : dirSep ∉ entry.1)
    (h : NoDouble (dirName dir)) : NoDouble (fqn dir entry) := by
  rw [fqn_eq]
  have inside : NoDouble entry.1 := by
    refine List.Pairwise.isChain (List.pairwise_of_forall_mem_list ?_)
    rintro c hc d hd ⟨rfl, -⟩
    exact plain hc
  apply h.append inside
  rintro c hc d hd ⟨-, rfl⟩
  exact plain (List.mem_of_head? hd)

theorem noDouble_dirName_fqn {dir : UStr} {entry : EntryName} (plain : dirSep ∉ entry.1)
    (h : NoDouble (dirName dir)) : NoDouble (dirName (fqn dir entry)) := by
  rw [dirName_fqn plain]
  apply (noDouble_fqn plain h).append (.singleton _)
  rintro c hc d _ ⟨rfl, -⟩
  rw [fqn_eq, List.getLast?_append_of_ne_nil _ entry.2] at hc
  exact plain (List.mem_of_getLast? hc)

theorem Reached.noDouble (lists : fs.ListsNames) {dir d : UStr} (h : Reached fs dir d)
    (hd : NoDouble (dirName dir)) : NoDouble (dirName d) := by
  induction h with
  | here => exact hd
  | @under dir d entries entry hr he _ _ ih =>
    exact ih (noDouble_dirName_fqn (lists.plain dir entries hr entry he) hd)

/-- A listed file has a canonical name. -/
theorem VisibleEntry.canonical (lists : fs.ListsNames) {name : UStr}
    (h : VisibleEntry fs [dirSep] name) : Canonical name := by
  obtain ⟨d, entries, entry, reached, hr, he, rfl⟩ := h
  have plain := lists.plain d entries hr entry he
  refine ⟨?_, noDouble_fqn plain (reached.noDouble lists (.singleton _)), fun _ ends => ?_⟩
  · obtain ⟨rest, hrest⟩ := reached.dirName_prefix lists
    rw [fqn_eq, ← hrest]
    rfl
  · rw [fqn_eq, List.getLast?_append_of_ne_nil _ entry.2] at ends
    exact plain (List.mem_of_getLast? ends)

theorem VisibleEntry.above (lists : fs.ListsNames) {dir name : UStr}
    (h : VisibleEntry fs dir name) : ∃ rest, rest ≠ [] ∧ name = dirName dir ++ rest := by
  obtain ⟨d, _, entry, reached, -, -, rfl⟩ := h
  obtain ⟨rest, hrest⟩ := reached.dirName_prefix lists
  exact ⟨rest ++ entry.1, by simp [entry.2], by rw [fqn_eq, ← hrest, List.append_assoc]⟩

/-- The way down to a file leads through each directory above it. -/
theorem VisibleEntry.through_directory (lists : fs.ListsNames) {start mid name rest : UStr}
    (h : VisibleEntry fs start name) (nonempty : mid ≠ []) (ends : mid.getLast? ≠ some dirSep)
    (hname : name = dirName start ++ mid ++ dirSep :: rest) :
    fs.isDirectory (dirName start ++ mid) = true ∧ VisibleEntry fs (dirName start ++ mid) name := by
  obtain ⟨d, entries, last, reached, hr, he, hlast⟩ := h
  induction reached generalizing mid with
  | here dir =>
    rw [fqn_eq, hname, List.append_assoc, List.append_cancel_left_eq] at hlast
    exact absurd (hlast ▸ by simp) (lists.plain dir entries hr last he)
  | @under dir d listed entry hdir hentry isDir deeper ih =>
    have plain := lists.plain dir listed hdir entry hentry
    have below : VisibleEntry fs (fqn dir entry) name := ⟨d, entries, last, deeper, hr, he, hlast⟩
    obtain ⟨tail, htail⟩ := below.through lists plain
    -- the entry is the first component of `mid`
    have split : entry.1 ++ dirSep :: tail = mid ++ dirSep :: rest := by
      rw [hname, fqn_eq, List.append_assoc, List.append_assoc, List.append_cancel_left_eq] at htail
      exact htail.symm
    obtain ⟨more, rfl, hmore⟩ := Glob.prefix_before split plain
    cases more with
    | nil =>
      rw [List.append_nil, ← fqn_eq]
      exact ⟨isDir, below⟩
    | cons c more =>
      obtain ⟨rfl, -⟩ := List.cons.inj hmore
      have deep : dirName dir ++ (entry.1 ++ dirSep :: more) =
          dirName (fqn dir entry) ++ more := by
        rw [dirName_fqn plain, fqn_eq]
        simp
      rw [deep]
      cases more with
      | nil => simp at ends
      | cons e more =>
        exact ih (by simp) (by simpa using ends) (by rw [hname, ← deep]) hr hlast

/-- A file that is listed below the root is listed below each directory above it. -/
theorem VisibleEntry.of_above (lists : fs.ListsNames) (root : fs.isDirectory [dirSep] = true)
    {dir name : UStr} (h : VisibleEntry fs [dirSep] name) (canonical : Canonical dir)
    (above : Above dir name) : fs.isDirectory dir = true ∧ VisibleEntry fs dir name := by
  by_cases top : dir = [dirSep]
  · exact top ▸ ⟨root, h⟩
  · obtain ⟨rest, -, hname⟩ := above.resolve_right fun both => top both.1
    have ends := canonical.noTrailing top
    have head := canonical.absolute
    cases dir with
    | nil => cases head
    | cons c mid =>
      obtain rfl : c = dirSep := by simpa [isFileNameAbsolute] using head
      have nonempty : mid ≠ [] := by
        rintro rfl
        exact top rfl
      obtain ⟨d, mid, rfl⟩ := List.exists_cons_of_ne_nil nonempty
      rw [dirName, if_neg ends] at hname
      rw [List.getLast?_cons_cons] at ends
      exact @through_directory _ lists _ _ _ rest h nonempty ends (hname.trans (by simp [dirName]))

end

/-! ## Names that are converted -/

section
variable {fs : FileSystem} {utf : YellaUtf}

theorem FileSystem.ListsNames.through (lists : fs.ListsNames) : (fs.through utf).ListsNames := by
  have listed {dir : UStr} {entries : List EntryName}
      (h : (fs.through utf).readDir dir = some entries) : fs.readDir dir = some entries :=
    (Option.ite_none_right_eq_some.mp h).2
  exact ⟨fun dir entries h => lists.nodup dir entries (listed h),
    fun dir entries h => lists.plain dir entries (listed h)⟩

theorem isDirectory_through {name : UStr} (ascii : name.IsAscii) :
    (fs.through utf).isDirectory name = fs.isDirectory name := by
  simp only [FileSystem.isDirectory, FileSystem.through, if_pos (YellaUtf.converts_iff.mpr ascii)]

theorem prefix_fqn (dir : UStr) (entry : EntryName) : dir <+: fqn dir entry := by
  unfold fqn
  split
  · exact List.prefix_append _ _
  · exact List.prefix_append_of_prefix (List.prefix_append _ _)

theorem Reached.front {dir d : UStr} (h : Reached fs dir d) : dir <+: d := by
  induction h with
  | here => exact List.prefix_rfl
  | under _ _ _ _ ih => exact (prefix_fqn _ _).trans ih

/-- On the way to a directory with a name in ASCII there are no others. -/
theorem Reached.through {dir d : UStr} (h : Reached fs dir d) (ascii : d.IsAscii) :
    Reached (fs.through utf) dir d := by
  induction h with
  | here => exact .here _
  | @under dir d entries entry hr he hd deeper ih =>
    have below := ascii.of_front deeper.front
    have here : utf.Converts dir :=
      YellaUtf.converts_iff.mpr (below.of_front (prefix_fqn dir entry))
    exact .under ((if_pos here).trans hr) he ((isDirectory_through below).trans hd) (ih ascii)

theorem VisibleEntry.through_ascii {start name : UStr} (h : VisibleEntry fs start name)
    (ascii : name.IsAscii) : VisibleEntry (fs.through utf) start name := by
  obtain ⟨dir, entries, entry, reached, hr, he, rfl⟩ := h
  have above := ascii.of_front (prefix_fqn dir entry)
  exact ⟨dir, entries, entry, reached.through above,
    (if_pos (YellaUtf.converts_iff.mpr above)).trans hr, he, rfl⟩

end

/-! ## The calls of the job -/

/-- The job processes the file with an element that it has collected. -/
def Collects (calls : List Observation) (fname : UStr) : Prop :=
  ∃ call ∈ calls, call.name = fname ∧ call.elem.isSome

section
variable {fs : FileSystem} {j : Job} {incl fname : UStr}

/-- A crawl for the include runs to its end. -/
def CrawlEnds (fs : FileSystem) (j : Job) (incl top : UStr) : Prop :=
  AllReadable fs top ∧ ∀ dir, Reached fs top dir → ∀ entries, fs.readDir dir = some entries →
    Shielded fs incl j (entries.map (fqn dir))

/-- A literal include does not end in a backslash that escapes the terminator, and a crawl
runs to its end. -/
def IncludeEnds (fs : FileSystem) (j : Job) (incl : UStr) : Prop :=
  (Glob.firstUnescapedSpecialChar incl = none → Glob.backslashesBefore incl.reverse % 2 = 0) ∧
    ∀ top, (Glob.firstUnescapedSpecialChar incl).bind (topDir incl) = some top →
      fs.isDirectory top = true → CrawlEnds fs j incl top

theorem crawlDir_isSome_iff_crawlEnds {top : UStr} :
    (crawlDir fs incl j top).isSome ↔ CrawlEnds fs j incl top := by
  constructor
  · intro h
    obtain ⟨calls, hcalls⟩ := Option.isSome_iff_exists.mp h
    have readable := allReadable_of_crawlDir hcalls
    exact ⟨readable, (crawlDir_isSome_iff readable).mp h⟩
  · rintro ⟨readable, shielded⟩
    exact (crawlDir_isSome_iff readable).mpr shielded

theorem runOneInclude_isSome_iff :
    (runOneInclude fs j incl).isSome ↔ IncludeEnds fs j incl := by
  unfold runOneInclude IncludeEnds
  cases hs : Glob.firstUnescapedSpecialChar incl with
  | none =>
    have := Glob.unescapePattern_isSome_iff hs
    simpa using this
  | some special =>
    cases ht : topDir incl special with
    | none => simp [ht]
    | some top =>
      by_cases hd : fs.isDirectory top = true
      · simp [ht, hd, crawlDir_isSome_iff_crawlEnds]
      · simp [ht, hd]

/-- A crawl collects the files below it that are monitored. -/
theorem collects_crawl {top : UStr} (present : (collectAttributes fs fname j.attrTypes).isSome)
    {calls : List Observation} (h : crawlDir fs incl j top = some calls) :
    Collects calls fname ↔ VisibleEntry fs top fname ∧ Monitored incl j fname = true := by
  obtain ⟨names, hnames, rfl⟩ := crawlDir_proper h
  rw [← mem_visitDir hnames]
  constructor
  · rintro ⟨call, hcall, hname, helem⟩
    obtain ⟨name, hmem, rfl⟩ := List.mem_map.mp hcall
    rw [properCall_name] at hname
    subst hname
    refine ⟨hmem, ?_⟩
    by_contra other
    rw [properCall, if_neg other] at helem
    cases helem
  · rintro ⟨hmem, monitored⟩
    refine ⟨_, List.mem_map_of_mem hmem, properCall_name fname, ?_⟩
    rw [properCall, if_pos monitored]
    exact present

/-- What one include contributes for a file that is listed and can be collected. -/
theorem collects_include_iff (lists : fs.ListsNames) (root : fs.isDirectory [dirSep] = true)
    (absolute : Canonical incl) (seen : VisibleEntry fs [dirSep] fname)
    (present : (collectAttributes fs fname j.attrTypes).isSome) {calls : List Observation}
    (h : runOneInclude fs j incl = some calls) :
    Collects calls fname ↔ Glob.fileNameMatches fname incl = true ∧
      (Glob.firstUnescapedSpecialChar incl = none ∨
        matchesExcludes fname j.excludes = false ∧ backslash ∉ directoryPart incl) := by
  unfold runOneInclude at h
  cases hs : Glob.firstUnescapedSpecialChar incl with
  | none =>
    simp only [hs, Option.map_eq_some_iff] at h
    obtain ⟨t, ht, rfl⟩ := h
    rw [Glob.matches_iff_unescaped hs ht]
    constructor
    · rintro ⟨call, hcall, hname, -⟩
      obtain rfl := List.mem_singleton.mp hcall
      exact ⟨hname, .inl rfl⟩
    · rintro ⟨rfl, -⟩
      exact ⟨_, List.mem_singleton.mpr rfl, rfl, present⟩
  | some special =>
    simp only [hs, reduceCtorEq, false_or] at h ⊢
    -- the directory of a pattern that accepts the file
    have start (matched : Glob.fileNameMatches fname incl = true) :
        ∃ dir, topDir incl special = some dir ∧ Canonical dir ∧
          (Above dir fname ↔ backslash ∉ directoryPart incl) := by
      obtain ⟨dir, -, htop, canonical, above⟩ :=
        exists_directory absolute (seen.canonical lists) matched
      exact ⟨dir, htop special hs, canonical, above⟩
    cases htop : topDir incl special with
    | none =>
      simp only [htop, Option.some.injEq] at h
      subst h
      apply iff_of_false (by simp [Collects])
      rintro ⟨matched, -⟩
      obtain ⟨dir, hdir, -⟩ := start matched
      rw [htop] at hdir
      cases hdir
    | some top =>
      simp only [htop] at h
      have reach (matched : Glob.fileNameMatches fname incl = true)
          (plain : backslash ∉ directoryPart incl) :
          fs.isDirectory top = true ∧ VisibleEntry fs top fname := by
        obtain ⟨dir, hdir, canonical, above⟩ := start matched
        obtain rfl := Option.some_inj.mp (htop.symm.trans hdir)
        exact seen.of_above lists root canonical (above.mpr plain)
      split at h
      · rw [collects_crawl present h]
        simp only [Monitored, Bool.and_eq_true, Bool.not_eq_true']
        constructor
        · rintro ⟨visible, matched, kept⟩
          obtain ⟨dir, hdir, -, above⟩ := start matched
          obtain rfl := Option.some_inj.mp (htop.symm.trans hdir)
          exact ⟨matched, kept, above.mp (.inl (visible.above lists))⟩
        · rintro ⟨matched, kept, plain⟩
          exact ⟨(reach matched plain).2, matched, kept⟩
      · rename_i other
        obtain rfl := Option.some_inj.mp h
        apply iff_of_false (by simp [Collects])
        rintro ⟨matched, -, plain⟩
        exact other (reach matched plain).1

end

/-! ## One config -/

/-- With this config alone, events for the file are taken for it. -/
def Selects (cfg : ConfigNode) (fname : UStr) : Prop :=
  eventSourceFileNameMatchesAny (.node (configSpec cfg) .nil .nil) fname = some cfg.name

/-- The job of the config runs to its end, and collects the file exactly if events for it are
taken. -/
def Agrees (fs : FileSystem) (db : StateDb) (cfg : ConfigNode) (fname : UStr) : Prop :=
  ∃ calls, runJob fs (configJob cfg) (some db) = some calls ∧
    (Selects cfg fname ↔ Collects calls fname)

/-- The patterns on which the two agree: each include is gone through to its end, an excluded
file that is found is not named by a literal include, which is not held against the excludes, and a
file that is taken is found and has an include that is looked for in the right place. -/
structure AgreesWhen (fs : FileSystem) (cfg : ConfigNode) (fname : UStr) : Prop where
  ends : ∀ incl ∈ cfg.includes, IncludeEnds fs (configJob cfg) incl
  excluded : fname.IsAscii → matchesExcludes fname cfg.excludes = true → ∀ incl ∈ cfg.includes,
    Glob.firstUnescapedSpecialChar incl = none → Glob.fileNameMatches fname incl = false
  included : matchesExcludes fname cfg.excludes = false →
    (∃ incl ∈ cfg.includes, Glob.fileNameMatches fname incl = true) →
      fname.IsAscii ∧ ∃ incl ∈ cfg.includes, Glob.fileNameMatches fname incl = true ∧
        (Glob.firstUnescapedSpecialChar incl = none ∨ backslash ∉ directoryPart incl)

theorem selects_iff {cfg : ConfigNode} {fname : UStr} :
    Selects cfg fname ↔ matchesExcludes fname cfg.excludes = false ∧
      ∃ incl ∈ cfg.includes, Glob.fileNameMatches fname incl = true := by
  have asked : eventSourceFileNameMatchesAny (.node (configSpec cfg) .nil .nil) fname =
      if matchesExcludes fname cfg.excludes then none
      else if cfg.includes.any (Glob.fileNameMatches fname) then some cfg.name else none := rfl
  rw [Selects, asked, ← List.any_eq_true]
  cases matchesExcludes fname cfg.excludes <;>
    cases cfg.includes.any (Glob.fileNameMatches fname) <;> simp

section
variable {fs : FileSystem} {cfg : ConfigNode} {fname : UStr} {db : StateDb}
  {calls : List Observation}

theorem runJob_isSome_iff : (runJob fs (configJob cfg) (some db)).isSome ↔
    ∀ incl ∈ cfg.includes, IncludeEnds fs (configJob cfg) incl := by
  rw [runJob, Option.isSome_map, Fallible.mapM_isSome]
  exact forall₂_congr fun incl _ => runOneInclude_isSome_iff

/-- What the job contributes for a file that is listed and can be collected. -/
theorem collects_iff (lists : fs.ListsNames) (root : fs.isDirectory [dirSep] = true)
    (cleansed : ∀ incl ∈ cfg.includes, Canonical incl) (seen : VisibleEntry fs [dirSep] fname)
    (present : (collectAttributes fs fname cfg.attrTypes).isSome)
    (run : runJob fs (configJob cfg) (some db) = some calls) :
    Collects calls fname ↔ ∃ incl ∈ cfg.includes, Glob.fileNameMatches fname incl = true ∧
      (Glob.firstUnescapedSpecialChar incl = none ∨
        matchesExcludes fname cfg.excludes = false ∧ backslash ∉ directoryPart incl) := by
  obtain ⟨parts, hparts, rfl⟩ := Option.map_eq_some_iff.mp run
  have one {incl : UStr} (hi : incl ∈ cfg.includes) {part : List Observation}
      (hpart : runOneInclude fs (configJob cfg) incl = some part) :=
    collects_include_iff lists root (cleansed incl hi) seen present hpart
  simp only [Collects, Fallible.mem_flatten_mapM hparts]
  constructor
  · rintro ⟨call, ⟨incl, hi, part, hpart, hcall⟩, hname, helem⟩
    exact ⟨incl, hi, (one hi hpart).mp ⟨call, hcall, hname, helem⟩⟩
  · rintro ⟨incl, hi, matched⟩
    have defined := Fallible.mapM_isSome.mp (Option.isSome_iff_exists.mpr ⟨parts, hparts⟩) incl hi
    obtain ⟨part, hpart⟩ := Option.isSome_iff_exists.mp defined
    obtain ⟨call, hcall, hname, helem⟩ := (one hi hpart).mpr matched
    exact ⟨call, ⟨incl, hi, part, hpart, hcall⟩, hname, helem⟩

/-- Nothing is collected of a file that does not exist for the job. -/
theorem not_collects (absent : fs.fileExists fname = false)
    (run : runJob fs (configJob cfg) (some db) = some calls) : ¬ Collects calls fname := by
  rintro ⟨call, hcall, rfl, helem⟩
  obtain ⟨e, he⟩ := Option.isSome_iff_exists.mp helem
  have taken := runJob_taken run call hcall e he
  simp [collectAttributes, absent] at taken

end

/-- For a file that is listed below readable directories, watching and scanning agree exactly
on these patterns. -/
theorem agrees_iff_agreesWhen {utf : YellaUtf} {fs : FileSystem} (lists : fs.ListsNames)
    (root : fs.isDirectory [dirSep] = true) {cfg : ConfigNode}
    (cleansed : ∀ incl ∈ cfg.includes, Canonical incl) {fname : UStr}
    (seen : VisibleEntry fs [dirSep] fname) (found : fs.fileExists fname = true)
    (known : (fs.stat fname).isSome) (db : StateDb) :
    Agrees (fs.through utf) db cfg fname ↔ AgreesWhen (fs.through utf) cfg fname := by
  by_cases ascii : fname.IsAscii
  · have present : (collectAttributes (fs.through utf) fname cfg.attrTypes).isSome := by
      obtain ⟨st, hst⟩ := Option.isSome_iff_exists.mp known
      have converts : utf.Converts fname := YellaUtf.converts_iff.mpr ascii
      have found : (fs.through utf).fileExists fname = true := by
        simp [FileSystem.through, converts, found]
      have hst : (fs.through utf).stat fname = some st := (if_pos converts).trans hst
      simp only [collectAttributes, found, hst, ↓reduceIte]
      split <;> rfl
    have root : (fs.through utf).isDirectory [dirSep] = true :=
      (isDirectory_through (by decide)).trans root
    have collects {calls : List Observation}
        (run : runJob (fs.through utf) (configJob cfg) (some db) = some calls) :=
      collects_iff lists.through root cleansed (seen.through_ascii ascii) present run
    constructor
    · rintro ⟨calls, hcalls, same⟩
      rw [selects_iff, collects hcalls] at same
      refine ⟨runJob_isSome_iff.mp (Option.isSome_iff_exists.mpr ⟨calls, hcalls⟩), ?_, ?_⟩
      · intro _ excluded incl hi literal
        by_contra matched
        have := same.mpr ⟨incl, hi, by simpa using matched, .inl literal⟩
        rw [excluded] at this
        cases this.1
      · intro kept wanted
        obtain ⟨incl, hi, matched, way⟩ := same.mp ⟨kept, wanted⟩
        exact ⟨ascii, incl, hi, matched, way.imp_right And.right⟩
    · intro agrees
      obtain ⟨calls, hcalls⟩ := Option.isSome_iff_exists.mp (runJob_isSome_iff.mpr agrees.ends)
      refine ⟨calls, hcalls, ?_⟩
      rw [selects_iff, collects hcalls]
      constructor
      · rintro ⟨kept, wanted⟩
        obtain ⟨-, incl, hi, matched, way⟩ := agrees.included kept wanted
        exact ⟨incl, hi, matched, way.imp_right fun plain => ⟨kept, plain⟩⟩
      · rintro ⟨incl, hi, matched, literal | ⟨kept, -⟩⟩
        · refine ⟨?_, incl, hi, matched⟩
          by_contra excluded
          rw [agrees.excluded ascii (by simpa using excluded) incl hi literal] at matched
          cases matched
        · exact ⟨kept, incl, hi, matched⟩
  · -- the job does not find the file
    have absent : (fs.through utf).fileExists fname = false := by
      simp [FileSystem.through, mt YellaUtf.converts_iff.mp ascii]
    constructor
    · rintro ⟨calls, hcalls, same⟩
      have other := mt same.mp (not_collects absent hcalls)
      exact ⟨runJob_isSome_iff.mp (Option.isSome_iff_exists.mpr ⟨calls, hcalls⟩),
        fun is => absurd is ascii,
        fun kept wanted => absurd (selects_iff.mpr ⟨kept, wanted⟩) other⟩
    · intro agrees
      obtain ⟨calls, hcalls⟩ := Option.isSome_iff_exists.mp (runJob_isSome_iff.mpr agrees.ends)
      refine ⟨calls, hcalls, iff_of_false ?_ (not_collects absent hcalls)⟩
      intro selects
      obtain ⟨kept, wanted⟩ := selects_iff.mp selects
      exact ascii (agrees.included kept wanted).1

/-- The root directory holds the file `f`. -/
def rootFiles : FileSystem where
  fileExists n := n = [47, 102]
  stat n :=
    if n = [47] then some (fileStat .directory)
    else if n = [47, 102] then some (fileStat .regular)
    else none
  readDir n := if n = [47] then some [⟨[102], List.cons_ne_nil _ _⟩] else none
  sha256 _ := none
  posixAcl _ := none
  pathMax := 4096
  stat_long := by
    intro n hn
    have long : ∀ m : UStr, m.length < 4096 → n ≠ m := by
      rintro m hm rfl
      exact absurd hm (Nat.not_lt.mpr hn)
    rw [if_neg (long _ (by decide)), if_neg (long _ (by decide))]

theorem rootFiles_top : rootFiles.readDir [47] = some [⟨[102], List.cons_ne_nil _ _⟩] := rfl

theorem rootFiles_lists : rootFiles.ListsNames := by
  have listed : ∀ dir entries, rootFiles.readDir dir = some entries →
      entries = [⟨[102], List.cons_ne_nil _ _⟩] := by
    intro dir entries h
    simp only [rootFiles, Option.ite_none_right_eq_some] at h
    exact (Option.some_inj.mp h.2).symm
  constructor
  · intro dir entries h
    obtain rfl := listed dir entries h
    decide
  · intro dir entries h
    obtain rfl := listed dir entries h
    decide

theorem rootFiles_visible : VisibleEntry rootFiles [dirSep] [47, 102] :=
  ⟨[47], _, ⟨[102], List.cons_ne_nil _ _⟩, .here _, rootFiles_top, List.mem_cons_self, rfl⟩

/-- A config with one include, and the exclude `/f` or none. -/
def oneConfig (incl : UStr) (excludes : List UStr) : ConfigNode where
  name := [99]
  recipient := [114]
  includes := [incl]
  excludes
  attrTypes := [.fileType]
  attrTypesFreed := false

/-- `/?` -/
theorem agrees_question :
    Agrees (rootFiles.through asciiYellaUtf) .empty (oneConfig [47, 63] []) [47, 102] := by
  have matched : Glob.fileNameMatches [47, 102] [47, 63] = true := by
    simp [Glob.fileNameMatches, Glob.fileNameMatchesImpl, star, backslash, question, dirSep]
  have cleansed : ∀ incl ∈ (oneConfig [47, 63] []).includes, Canonical incl := by
    intro incl hi
    obtain rfl := List.mem_singleton.mp hi
    exact ⟨rfl, by unfold NoDouble; decide, by decide⟩
  have top : (rootFiles.through asciiYellaUtf).readDir [47] =
      some [⟨[102], List.cons_ne_nil _ _⟩] := rfl
  refine (@agrees_iff_agreesWhen asciiYellaUtf _ rootFiles_lists rfl _ cleansed _
    rootFiles_visible rfl rfl .empty).mpr ⟨?_, ?_, ?_⟩
  · intro incl hi
    obtain rfl := List.mem_singleton.mp hi
    refine ⟨by decide, ?_⟩
    intro top htop _
    obtain rfl : [47] = top := Option.some_inj.mp htop
    have reached {P : UStr → Prop} (here : P [47]) : ∀ d,
        Reached (rootFiles.through asciiYellaUtf) [47] d → P d := by
      rw [forall_reached_iff top]
      refine ⟨here, ?_⟩
      intro entry he hd
      obtain rfl := List.mem_singleton.mp he
      exact absurd hd (by decide)
    refine ⟨reached (by decide), reached ?_⟩
    intro entries hr
    rw [top, Option.some_inj] at hr
    subst hr
    rintro before cur after split other
    have listed : cur ∈ before ++ cur :: after := List.mem_append_right _ List.mem_cons_self
    rw [← split] at listed
    obtain rfl : cur = [47, 102] := by simpa [fqn, dirSep] using listed
    simp [Monitored, matched, matchesExcludes, configJob, oneConfig, createJob] at other
  · intro _ excluded
    cases excluded
  · intro _ _
    exact ⟨by decide, _, List.mem_singleton.mpr rfl, matched, .inr (by decide)⟩

/-- The include `/f` and the exclude `/f`: the job collects the file, and no event for it is
taken. -/
theorem excluded_literal_collected :
    rootFiles.ListsNames ∧ rootFiles.isDirectory [dirSep] = true ∧
      (∀ incl ∈ (oneConfig [47, 102] [[47, 102]]).includes, Canonical incl) ∧
      VisibleEntry rootFiles [dirSep] [47, 102] ∧ rootFiles.fileExists [47, 102] = true ∧
      (rootFiles.stat [47, 102]).isSome ∧
      ¬ Agrees (rootFiles.through asciiUtf) .empty (oneConfig [47, 102] [[47, 102]]) [47, 102] := by
  refine ⟨rootFiles_lists, rfl, ?_, rootFiles_visible, rfl, rfl, ?_⟩
  · intro incl hi
    obtain rfl := List.mem_singleton.mp hi
    exact ⟨rfl, by unfold NoDouble; decide, by decide⟩
  · rintro ⟨calls, hcalls, same⟩
    obtain rfl : [collected (rootFiles.through asciiUtf)
        (configJob (oneConfig [47, 102] [[47, 102]])) [47, 102]] = calls :=
      Option.some_inj.mp hcalls
    have := (selects_iff.mp (same.mpr ⟨_, List.mem_singleton.mpr rfl, rfl, rfl⟩)).1
    have matched : Glob.fileNameMatches [47, 102] [47, 102] = true :=
      plainName_matches_self (by decide)
    simp [matchesExcludes, oneConfig, matched] at this

end Yella
