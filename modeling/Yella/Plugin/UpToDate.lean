import Yella.Plugin.Agree
import Yella.Plugin.Removal
import Yella.Plugin.Stale

/-!
# From the files as they are to a recipient

A config is installed with a job that scans its files, and from then on the jobs of file events
follow what changes. The files stay as they are while a job runs, but for the times that it changes
itself.
-/

namespace Yella

/-- The job that `event_received` queues for a file of the config -/
def eventJob (cfg : ConfigNode) (fname : UStr) : Job :=
  { createJob cfg.name cfg.recipient with includes := [fname], attrTypes := cfg.attrTypes }

instance (cfg : ConfigNode) (fname : UStr) : Decidable (Selects cfg fname) := by
  unfold Selects; infer_instance

/-- The files that a config is about, as they are -/
def configFiles (cfg : ConfigNode) (fs : FileSystem) (fname : UStr) : Option Element :=
  if Selects cfg fname then collectAttributes fs fname cfg.attrTypes else none

/-- The files, and one config with its jobs, its database and the messages that were added for it.
Jobs of other configs are left out of `queue`. -/
structure Watched where
  fs : FileSystem
  queue : List Job
  /-- The first job has run. -/
  scanned : Bool
  db : StateDb
  calls : List Observation
  added : List Message

inductive WatchedEvent where
  /-- Files change, and the event source reports these names. -/
  | change (fs : FileSystem) (reported : List UStr)
  | runJob (times : ScanTimes)

section
variable (utf : Utf) (configs : ConfigTree) (cfg : ConfigNode)

def watchedNext (s : Watched) : WatchedEvent → Option Watched
  | .change fs reported => do
    let jobs ← reported.mapM (eventReceived configs cfg.name)
    some { s with fs := fs, queue := s.queue ++ jobs }
  | .runJob times =>
    match s.queue with
    | [] => none
    | j :: queue => do
      let calls ← runJob s.fs j (some s.db)
      let (db, added) ← processAll utf j s.db calls
      some { s with
        fs := s.fs.afterScan j.attrTypes times
        queue := queue
        scanned := true
        db := db
        calls := s.calls ++ calls
        added := s.added ++ added }

/-- From `install_config_node` on -/
def watching : Machine Watched WatchedEvent where
  start s := ∃ fs, s = ⟨fs, [configJob cfg], false, .empty, [], []⟩
  next := watchedNext utf configs cfg

/-- The scan comes to the files that events are taken for, and to each of them alike. -/
structure ScansRight (fs : FileSystem) : Prop where
  agrees : ∀ n, (collectAttributes fs n cfg.attrTypes).isSome → Agrees fs .empty cfg n
  settled : ∀ calls, runJob fs (configJob cfg) (some .empty) = some calls → Settled calls

/-- The event source reports what changes behind the scan. It takes events for the files of the
config only, and no name of them has a meaning as a pattern. -/
def ReportsChanges (s : Watched) : WatchedEvent → Prop
  | .change fs reported =>
    (∀ n ∈ reported, Selects cfg n ∧ PlainName n) ∧ (s.scanned = true → ∀ n, Selects cfg n →
      collectAttributes fs n cfg.attrTypes ≠ collectAttributes s.fs n cfg.attrTypes →
        n ∈ reported)
  | .runJob _ => s.scanned = false → ScansRight cfg s.fs

end

section
variable {utf : Utf} {configs : ConfigTree} {cfg : ConfigNode} {fs : FileSystem} {n : UStr}
  {s t : Watched} {e : WatchedEvent} {events : List WatchedEvent} {db db₁ : StateDb}
  {calls more : List Observation} {added : List Message} {j j' : Job}

/-! ## Jobs -/

theorem eventReceived_eq (found : configs.find cfg.name = some cfg) (fname : UStr) :
    eventReceived configs cfg.name fname = some (eventJob cfg fname) := by
  rw [eventReceived, found]
  rfl

theorem eventReceived_all (found : configs.find cfg.name = some cfg) (names : List UStr) :
    names.mapM (eventReceived configs cfg.name) = some (names.map (eventJob cfg)) := by
  induction names with
  | nil => rfl
  | cons fname names ih =>
    rw [List.mapM_cons, eventReceived_eq found, ih]
    rfl

/-- An event's job looks at its file only. -/
theorem runJob_eventJob (plain : PlainName n) (db : StateDb) :
    runJob fs (eventJob cfg n) (some db) = some [collected fs (eventJob cfg n) n] := by
  obtain ⟨special, noEscape⟩ := plainName_iff.mp plain
  have self := Glob.unescapePattern_self.mpr noEscape
  have one : runOneInclude fs (eventJob cfg n) n = some [collected fs (eventJob cfg n) n] := by
    simp only [runOneInclude, special, self, Option.map_some]
  simp only [runJob, eventJob, createJob] at one ⊢
  simp [one]

/-- Only the recipient and the name of the config matter to `process_element`. -/
theorem processElement_congr (recipient : j.recipient = j'.recipient)
    (config : j.configName = j'.configName) (name : UStr) (elem : Option Element) :
    processElement utf j name elem db = processElement utf j' name elem db := by
  simp only [processElement, message, recipient, config]

theorem processAll_congr (recipient : j.recipient = j'.recipient)
    (config : j.configName = j'.configName) :
    processAll utf j db calls = processAll utf j' db calls := by
  induction calls generalizing db with
  | nil => rfl
  | cons o calls ih => simp only [processAll, processElement_congr recipient config, ih]

theorem processAll_append (first : processAll utf j db calls = some (db₁, added)) :
    processAll utf j db (calls ++ more) =
      (processAll utf j db₁ more).map fun r => (r.1, added ++ r.2) := by
  induction calls generalizing db added with
  | nil =>
    cases first
    simp
  | cons o calls ih =>
    simp only [processAll, Option.bind_eq_bind, Option.bind_eq_some_iff] at first
    obtain ⟨⟨db₂, m⟩, call, ⟨db₃, ms⟩, rest, eq⟩ := first
    cases eq
    simp only [List.cons_append, processAll, call, ih rest, Option.bind_eq_bind, Option.bind_some]
    cases processAll utf j db₃ more <;> simp

/-- **After a scan** every file of the config is known as it is. -/
theorem lastSeen_scan (right : ScansRight cfg fs)
    (run : runJob fs (configJob cfg) (some db) = some calls) (n : UStr) :
    lastSeen calls n = configFiles cfg fs n := by
  have taken := runJob_taken run
  have agree {e : Element} (here : collectAttributes fs n cfg.attrTypes = some e) :
      Selects cfg n ↔ Collects calls n := by
    obtain ⟨calls', run', same⟩ := right.agrees n (by rw [here]; rfl)
    cases run.symm.trans run'
    exact same
  have absent (none' : ∀ o ∈ calls, o.name = n → o.elem = none) : configFiles cfg fs n = none := by
    by_contra some'
    obtain ⟨e, here⟩ := Option.ne_none_iff_exists'.mp some'
    unfold configFiles at here
    split at here
    · rename_i selects
      obtain ⟨o, ho, named, isSome⟩ := (agree here).mp selects
      rw [none' o ho named] at isSome
      cases isSome
    · cases here
  by_cases there : n ∈ calls.map Observation.name
  · obtain ⟨o, ho, named, last⟩ := lastSeen_append_of_mem there
    rw [← List.nil_append calls, last]
    cases elem : o.elem with
    | none =>
      refine (absent fun p hp same => ?_).symm
      have alike := right.settled calls run o ho p hp (named.trans same.symm)
      rw [elem] at alike
      exact Option.isNone_iff_eq_none.mp (by simpa using alike.symm)
    | some e =>
      have here : collectAttributes fs n cfg.attrTypes = some e := named ▸ taken o ho e elem
      have selects := (agree here).mpr ⟨o, ho, named, by rw [elem]; rfl⟩
      rw [configFiles, if_pos selects, here]
  · rw [lastSeen_of_not_mem there]
    exact (absent fun o ho named => absurd (named ▸ List.mem_map_of_mem ho) there).symm

theorem configFiles_afterScan (keeps : ScanKeeps cfg.attrTypes) (times : ScanTimes) (n : UStr) :
    configFiles cfg (fs.afterScan cfg.attrTypes times) n = configFiles cfg fs n := by
  rw [configFiles, configFiles, collectAttributes_afterScan keeps]

/-! ## The invariant -/

/-- The jobs that are queued, and what has been seen of the files that none of them looks at -/
structure WatchedInvariant (utf : Utf) (cfg : ConfigNode) (s : Watched) : Prop where
  queued : ∃ names : List UStr, (∀ n ∈ names, Selects cfg n ∧ PlainName n) ∧
    s.queue = (if s.scanned then [] else [configJob cfg]) ++ names.map (eventJob cfg) ∧
    (s.scanned = true → ∀ n, n ∈ names ∨ lastSeen s.calls n = configFiles cfg s.fs n)
  unseen : s.scanned = false → s.calls = []
  told : processAll utf (configJob cfg) .empty s.calls = some (s.db, s.added)

theorem WatchedInvariant.change {reported : List UStr} (inv : WatchedInvariant utf cfg s)
    (found : configs.find cfg.name = some cfg)
    (reports : ReportsChanges cfg s (.change fs reported))
    (next : watchedNext utf configs cfg s (.change fs reported) = some t) :
    WatchedInvariant utf cfg t := by
  simp only [watchedNext, eventReceived_all found, Option.bind_eq_bind, Option.bind_some,
    Option.some.injEq] at next
  subst next
  obtain ⟨names, plain, queue, seen⟩ := inv.queued
  refine ⟨⟨names ++ reported, ?_, ?_, ?_⟩, inv.unseen, inv.told⟩
  · intro n hn
    exact (List.mem_append.mp hn).elim (plain n) (reports.1 n)
  · rw [queue, List.map_append, List.append_assoc]
  · intro scanned n
    rw [List.mem_append, or_assoc]
    refine (seen scanned n).imp_right fun before => ?_
    by_cases same : configFiles cfg fs n = configFiles cfg s.fs n
    · exact .inr (before.trans same.symm)
    · refine .inl ?_
      have selects : Selects cfg n := by
        by_contra other
        exact same (by rw [configFiles, configFiles, if_neg other, if_neg other])
      apply reports.2 scanned n selects
      rwa [configFiles, configFiles, if_pos selects, if_pos selects] at same

/-- The messages of a job come after those of the ones before it. -/
theorem WatchedInvariant.tells (inv : WatchedInvariant utf cfg s)
    (recipient : j.recipient = cfg.recipient) (config : j.configName = cfg.name)
    (run : processAll utf j s.db calls = some (db, added)) :
    processAll utf (configJob cfg) .empty (s.calls ++ calls) = some (db, s.added ++ added) := by
  have same : processAll utf (configJob cfg) s.db calls = some (db, added) := by
    rw [← run]
    exact processAll_congr recipient.symm config.symm
  rw [processAll_append inv.told, same, Option.map_some]

theorem WatchedInvariant.job {times : ScanTimes} (inv : WatchedInvariant utf cfg s)
    (keeps : ScanKeeps cfg.attrTypes) (reports : ReportsChanges cfg s (.runJob times))
    (next : watchedNext utf configs cfg s (.runJob times) = some t) :
    WatchedInvariant utf cfg t := by
  obtain ⟨names, plain, queue, seen⟩ := inv.queued
  cases scanned : s.scanned with
  | false =>
    rw [scanned] at queue
    simp only [watchedNext, queue, List.singleton_append, Option.bind_eq_bind,
      Option.bind_eq_some_iff, Bool.false_eq_true, if_false] at next
    obtain ⟨calls, run, ⟨db, added⟩, tell, eq⟩ := next
    cases eq
    refine ⟨⟨names, plain, rfl, fun _ n => .inr ?_⟩, nofun, ?_⟩
    · have files : configFiles cfg (s.fs.afterScan (configJob cfg).attrTypes times) n =
          configFiles cfg s.fs n := configFiles_afterScan keeps times n
      rw [inv.unseen scanned, List.nil_append, files]
      exact lastSeen_scan (reports scanned) run n
    · exact inv.tells rfl rfl tell
  | true =>
    rw [scanned, if_pos rfl, List.nil_append] at queue
    cases names with
    | nil =>
      rw [watchedNext, queue] at next
      cases next
    | cons fname names =>
      obtain ⟨⟨selects, plainName⟩, others⟩ := List.forall_mem_cons.mp plain
      simp only [watchedNext, queue, List.map_cons, runJob_eventJob plainName, Option.bind_eq_bind,
        Option.bind_some, Option.bind_eq_some_iff] at next
      obtain ⟨⟨db, added⟩, tell, eq⟩ := next
      cases eq
      refine ⟨⟨names, others, rfl, fun _ n => ?_⟩, nofun, ?_⟩
      · have files : configFiles cfg (s.fs.afterScan (eventJob cfg fname).attrTypes times) n =
            configFiles cfg s.fs n := configFiles_afterScan keeps times n
        rw [lastSeen_snoc, files]
        by_cases own : fname = n
        · subst own
          refine .inr ?_
          rw [configFiles, if_pos selects]
          exact if_pos rfl
        · refine (seen scanned n).imp ?_ fun before => ?_
          · exact fun there => (List.mem_cons.mp there).resolve_left (Ne.symm own)
          · exact (if_neg own).trans before
      · exact inv.tells rfl rfl tell

end

end Yella
