import Yella.Job.Crawl
import Yella.Plugin.Config

/-!
# A file event leads to a job on that file

`event_received` stores the name of the file in the place of a pattern. The job reaches
that file, and no other, when the name reads as a pattern for itself and nothing else.
-/

namespace Yella

/-- No character of the name has a meaning in a pattern. -/
def PlainName (fname : UStr) : Prop :=
  ∀ c ∈ fname, c ≠ star ∧ c ≠ question ∧ c ≠ backslash

instance (fname : UStr) : Decidable (PlainName fname) :=
  List.decidableBAll (fun c => c ≠ star ∧ c ≠ question ∧ c ≠ backslash) fname

theorem plainName_iff {fname : UStr} : PlainName fname ↔
    Glob.firstUnescapedSpecialChar fname = none ∧ backslash ∉ fname := by
  constructor
  · intro h
    have hb : backslash ∉ fname := fun hm => (h _ hm).2.2 rfl
    exact ⟨(Glob.firstUnescapedSpecialChar_none hb).mpr fun c hc => ⟨(h c hc).1, (h c hc).2.1⟩, hb⟩
  · rintro ⟨hs, hb⟩ c hc
    obtain ⟨h₁, h₂⟩ := (Glob.firstUnescapedSpecialChar_none hb).mp hs c hc
    exact ⟨h₁, h₂, fun h => hb (h ▸ hc)⟩

theorem plainName_matches_self {fname : UStr} (h : PlainName fname) :
    Glob.fileNameMatches fname fname = true := by
  unfold Glob.fileNameMatches
  induction fname with
  | nil => simp [Glob.fileNameMatchesImpl]
  | cons c fname ih =>
    have first := h c (by simp)
    have rest := ih fun d hd => h d (by simp [hd])
    rw [Glob.fileNameMatchesImpl.eq_def]
    simp [first, rest]

/-- The name has an unescaped wildcard and matches itself, and there is nothing but this
file under the directory above the wildcard. -/
def AloneUnderWildcard (fs : FileSystem) (fname : UStr) : Prop :=
  ∃ special top entry, Glob.firstUnescapedSpecialChar fname = some special ∧
    topDir fname special = some top ∧ fs.isDirectory top = true ∧
    fs.readDir top = some [entry] ∧ fqn top entry = fname ∧
    Glob.fileNameMatches fname fname = true ∧
    (fs.isDirectory fname = true → fs.readDir fname = some [])

/-- The names that `process_element` is called for, in order. -/
def calledNames (calls : Option (List Observation)) : Option (List UStr) :=
  calls.map (·.map Observation.name)

/-- The event queues a job, and run with a database the job calls `process_element` once,
for this file. -/
def LeadsToJobOnIt (fs : FileSystem) (db : StateDb) (configs : ConfigTree)
    (configName fname : UStr) : Prop :=
  ∃ j, eventReceived configs configName fname = some j ∧
    calledNames (runJob fs j (some db)) = some [fname]

section
variable {fs : FileSystem} {j : Job} {incl dir : UStr}

theorem entryCall_name {isNull : Bool} {cur : UStr} {call : Observation}
    (h : entryCall fs incl j isNull cur = some call) : call.name = cur := by
  unfold entryCall at h
  split at h
  · cases h; rfl
  · split at h <;> cases h
    rfl

/-- Every entry of the directory is called for, whether it matches or not. -/
theorem crawlEntries_length {entries : List EntryName} {isNull : Bool}
    {calls : List Observation} (h : crawlEntries fs incl j dir isNull entries = some calls) :
    entries.length ≤ calls.length := by
  induction entries generalizing isNull calls with
  | nil => simp
  | cons entry entries ih =>
    rw [crawlEntries] at h
    simp only [Option.bind_eq_bind, Option.bind_eq_some_iff, Option.some.injEq] at h
    obtain ⟨call, -, below, -, rest, hrest, rfl⟩ := h
    have := ih hrest
    simp only [List.cons_append, List.length_cons, List.length_append]
    omega

theorem crawlDir_nil_iff : crawlDir fs incl j dir = some [] ↔ fs.readDir dir = some [] := by
  rw [crawlDir]
  constructor
  · intro h
    split at h
    · cases h
    · rename_i entries hr
      have := crawlEntries_length h
      rw [hr, List.length_eq_zero_iff.mp (Nat.le_zero.mp this)]
  · intro h
    simp [h, crawlEntries]

/-- A crawl makes one call only in a directory with one matching entry that holds nothing
itself. -/
theorem crawlDir_single_iff {name : UStr} :
    calledNames (crawlDir fs incl j dir) = some [name] ↔
      ∃ entry, fs.readDir dir = some [entry] ∧ fqn dir entry = name ∧
        (Glob.fileNameMatches name incl && !matchesExcludes name j.excludes) = true ∧
        (fs.isDirectory name = true → fs.readDir name = some []) := by
  constructor
  · intro h
    obtain ⟨calls, hcalls, hnames⟩ := Option.map_eq_some_iff.mp h
    rw [crawlDir] at hcalls
    split at hcalls
    · cases hcalls
    · rename_i entries hr
      cases entries with
      | nil =>
        rw [crawlEntries] at hcalls
        cases hcalls
        cases hnames
      | cons entry entries =>
        rw [crawlEntries] at hcalls
        simp only [Option.bind_eq_bind, Option.bind_eq_some_iff, Option.some.injEq] at hcalls
        obtain ⟨call, hcall, below, hbelow, rest, hrest, rfl⟩ := hcalls
        simp only [List.cons_append, List.map_cons, List.cons.injEq, List.map_eq_nil_iff,
          List.append_eq_nil_iff] at hnames
        obtain ⟨rfl, rfl, rfl⟩ := hnames
        have hname := entryCall_name hcall
        have : entries = [] := by
          have := crawlEntries_length hrest
          exact List.length_eq_zero_iff.mp (Nat.le_zero.mp this)
        subst this
        refine ⟨entry, hr, hname.symm, ?_, fun hd => ?_⟩
        · rw [hname]
          simp only [entryCall] at hcall
          split at hcall
          · assumption
          · simp at hcall
        · rw [hname] at hd ⊢
          simp only [hd, ↓reduceDIte] at hbelow
          exact crawlDir_nil_iff.mp hbelow
  · rintro ⟨entry, hr, rfl, hm, hd⟩
    have hbelow : (if _h : fs.isDirectory (fqn dir entry) then
        crawlDir fs incl j (fqn dir entry) else some []) = some [] := by
      split
      · rename_i h
        exact crawlDir_nil_iff.mpr (hd h)
      · rfl
    have hcall : entryCall fs incl j false (fqn dir entry) =
        some (collected fs j (fqn dir entry)) := by
      simp only [entryCall, hm, ↓reduceIte]
    rw [crawlDir, hr]
    simp only [crawlEntries, hcall, hbelow]
    rfl

theorem runOneInclude_self_iff {fname : UStr} (hj : j.excludes = []) :
    calledNames (runOneInclude fs j fname) = some [fname] ↔
      PlainName fname ∨ AloneUnderWildcard fs fname := by
  cases hs : Glob.firstUnescapedSpecialChar fname with
  | none =>
    have plain : PlainName fname ↔ Glob.unescapePattern fname = some fname := by
      rw [plainName_iff, Glob.unescapePattern_self]
      exact and_iff_right hs
    have alone : ¬ AloneUnderWildcard fs fname := by
      rintro ⟨special, _, _, hsome, _⟩
      rw [hs] at hsome
      cases hsome
    rw [plain, runOneInclude, hs]
    cases hu : Glob.unescapePattern fname <;> simp [calledNames, collected, alone]
  | some special =>
    have plain : ¬ PlainName fname := by
      rw [plainName_iff, hs]
      simp
    have noExcludes : matchesExcludes fname j.excludes = false := by
      simp [hj, matchesExcludes]
    simp only [plain, false_or, runOneInclude, hs]
    cases ht : topDir fname special with
    | none => simp [calledNames, AloneUnderWildcard, hs, ht]
    | some top =>
      by_cases hd : fs.isDirectory top = true
      · simp only [hd, ↓reduceIte, crawlDir_single_iff, noExcludes, AloneUnderWildcard, hs, ht,
          Option.some.injEq, exists_and_left, exists_eq_left', true_and, Bool.not_false,
          Bool.and_true]
      · simp [calledNames, AloneUnderWildcard, hs, ht, hd]

/-- The job of an event has the name as its one include. -/
theorem runJob_event {configs : ConfigTree} {configName fname : UStr} (db : StateDb)
    (h : eventReceived configs configName fname = some j) :
    j.excludes = [] ∧
      calledNames (runJob fs j (some db)) = calledNames (runOneInclude fs j fname) := by
  obtain ⟨found, -, rfl⟩ := Option.map_eq_some_iff.mp h
  refine ⟨rfl, ?_⟩
  simp only [runJob, createJob, List.nil_append, List.mapM_cons, List.mapM_nil]
  cases runOneInclude fs _ fname <;> simp [calledNames]

end

/-- The job of an event reaches its file and no other exactly when the name has no
wildcard and no backslash, or it is alone under the directory above its wildcard. -/
theorem event_leads_to_job_iff (fs : FileSystem) (db : StateDb) (configs : ConfigTree)
    (configName fname : UStr) (cfg : ConfigNode)
    (found : configs.find configName = some cfg) :
    LeadsToJobOnIt fs db configs configName fname ↔
      PlainName fname ∨ AloneUnderWildcard fs fname := by
  obtain ⟨j, hj⟩ : ∃ j, eventReceived configs configName fname = some j := by
    simp [eventReceived, found]
  obtain ⟨hexcl, calls⟩ := runJob_event db hj
  rw [← runOneInclude_self_iff hexcl, ← calls]
  simp [LeadsToJobOnIt, hj]

/-- A config named `c`. -/
def watched : ConfigTree := SortedList.Tree.empty.add {
  name := [99]
  recipient := [114]
  includes := [[47, 100, 47, 42, 42]]
  excludes := []
  attrTypes := [.fileType]
  attrTypesFreed := false }

/-- The directory `/d` holds the files `a*b` and `axb`. -/
def twoFiles : FileSystem where
  fileExists n := n ∈ [[47, 100], [47, 100, 47, 97, 42, 98], [47, 100, 47, 97, 120, 98]]
  stat n :=
    if n = [47, 100] then some (fileStat .directory)
    else if n = [47, 100, 47, 97, 42, 98] ∨ n = [47, 100, 47, 97, 120, 98] then
      some (fileStat .regular)
    else none
  readDir n :=
    if n = [47, 100] then some [⟨[97, 42, 98], by decide⟩, ⟨[97, 120, 98], by decide⟩] else none
  sha256 _ := none
  posixAcl _ := none
  pathMax := 4096
  stat_long := by
    intro n hn
    have long : ∀ m : UStr, m.length < 4096 → n ≠ m := by
      rintro m hm rfl
      omega
    rw [if_neg (long _ (by decide)), if_neg]
    exact not_or.mpr ⟨long _ (by decide), long _ (by decide)⟩

theorem plain_event_leads_to_job :
    LeadsToJobOnIt twoFiles .empty watched [99] [47, 100, 47, 97, 120, 98] :=
  (event_leads_to_job_iff twoFiles .empty watched [99] _ _ rfl).mpr (.inl (by decide))

/-- The event for `/d/a*b`: its job goes on to `/d/axb`. -/
theorem starred_event_leads_elsewhere :
    (watched.find [99]).isSome ∧
    ¬ LeadsToJobOnIt twoFiles .empty watched [99] [47, 100, 47, 97, 42, 98] := by
  refine ⟨rfl, ?_⟩
  rintro ⟨j, hj, hcalls⟩
  obtain ⟨hexcl, calls⟩ := runJob_event .empty hj
  rw [calls, runOneInclude_self_iff hexcl] at hcalls
  rcases hcalls with plain | ⟨special, top, entry, hs, ht, hd, hr, -⟩
  · exact absurd plain (by decide)
  · obtain rfl : 4 = special := Option.some.inj hs
    obtain rfl : [47, 100] = top := Option.some.inj ht
    simp [twoFiles] at hr

end Yella
