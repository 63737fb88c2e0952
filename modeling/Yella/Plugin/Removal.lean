import Yella.Plugin.Advertised
import Yella.Plugin.Threads

/-!
# Jobs of a removed config

A job has its own copy of the config. Once a config is removed nothing makes a new job for it,
but the jobs that are queued or running by then go on, with a new database.
-/

namespace Yella

def RunnerThread.job : RunnerThread → Option Job
  | idle => none
  | opening jb => some jb
  | running jb _ => some jb

/-- A request is about to complete the removal of this config. -/
def CompletesRemoval (s : PluginThreads) (name : UStr) : Prop :=
  ∃ chance req, s.message = .install .closing chance req ∧ req.isEmpty = true ∧
    req.cfg.name = name

/-- The request adds this config. -/
def AddsConfig (utf : Utf) (name : UStr) (e : PluginEvent) : Prop :=
  ∃ chance pcl req, e = .message (.request chance pcl) ∧ readRequest utf pcl = some req ∧
    req.isEmpty = false ∧ req.cfg.name = name

/-- The job that runs creates or opens the database of this config. -/
def OpensDb (s : PluginThreads) (e : PluginEvent) (name : UStr) : Prop :=
  ∃ fs evicted created jb, e = .runner (.openDb fs evicted created) ∧ s.runner = .opening jb ∧
    jb.configName = name

/-- The messages that are added on the way from `s` to `t` are for other configs. -/
def AddsNoMessage (s t : PluginThreads) (name : UStr) : Prop :=
  ∃ msgs, t.accumulated = s.accumulated ++ msgs ∧ ∀ msg ∈ msgs, msg.configName ≠ name

/-- In no step after `t`, as long as no request adds the config again, a job opens its database
or adds a message for it. -/
def StaysRemoved (utf : Utf) (maxDbs : Nat) (name : UStr) (t : PluginThreads) : Prop :=
  ∀ events u e v, (filePlugin utf maxDbs).after t events = some u →
    (∀ e ∈ events, ¬ AddsConfig utf name e) → (filePlugin utf maxDbs).next u e = some v →
      ¬ OpensDb u e name ∧ AddsNoMessage u v name

/-- No job for this config is in the queue or with the runner. -/
structure NoJobFor (name : UStr) (s : PluginThreads) : Prop where
  queued : ∀ jb ∈ s.fplg.jobs, jb.configName ≠ name
  running : ∀ jb ∈ s.runner.job, jb.configName ≠ name

/-! ## Up to the removal -/

/-- The tree has been changed for the request. -/
def InstallPhase.changed : InstallPhase → Bool
  | wantsConfig => false
  | changing => false
  | _ => true

/-- The config that the request has taken out of the tree. -/
def MessageThread.removed : MessageThread → Option UStr
  | install phase _ req => if phase.changed && req.isEmpty then some req.cfg.name else none
  | idle => none

/-- The watcher has been joined, and `config_guard` is still locked. -/
def MessageThread.joined : MessageThread → Bool
  | install .restarting _ _ => true
  | install .closing _ _ => true
  | _ => false

/-- The watcher has got past `config_guard`. -/
def WatcherThread.pastConfig : WatcherThread → Bool
  | lookingUp _ _ => true
  | pushing _ _ => true
  | _ => false

/-- What holds in every state. -/
structure RemovalInvariant (s : PluginThreads) : Prop where
  distinct : s.fplg.configs.Distinct
  removed : ∀ name ∈ s.message.removed, name ∉ s.fplg.configs.nodes.map ConfigNode.name
  joined : s.message.joined = true → s.watcher.pastConfig = false

section
variable {utf : Utf} {maxDbs : Nat} {s t : PluginThreads} {fplg fplg' : FilePlugin}
  {chance : Chance} {req : MonitorRequest}

theorem installBegin_cases (h : installBegin fplg chance req = some fplg') :
    (req.isEmpty = true ∧ fplg'.configs = fplg.configs.delete req.cfg.name ∧
        fplg'.jobs = fplg.jobs) ∨
      (req.isEmpty = false ∧
        fplg'.configs = (fplg.configs.delete req.cfg.name).add req.cfg ∧
        fplg'.jobs = fplg.jobs ++ [configJob req.cfg]) := by
  simp only [installBegin, Option.bind_eq_bind, Option.bind_eq_some_iff] at h
  obtain ⟨_, _, h⟩ := h
  cases he : req.isEmpty
  · simp only [he, Bool.false_eq_true, ↓reduceIte, Option.some.injEq] at h
    subst h
    exact .inr ⟨rfl, rfl, rfl⟩
  · simp only [he, ↓reduceIte, Option.some.injEq] at h
    subst h
    exact .inl ⟨rfl, rfl, rfl⟩

theorem not_mem_delete {configs : ConfigTree} (h : configs.Distinct) (name : UStr) :
    name ∉ (configs.delete name).nodes.map ConfigNode.name := by
  intro hm
  obtain ⟨cn, hcn, same⟩ := List.mem_map.mp hm
  exact (h.mem_delete.mp hcn).2 same

theorem installEnd_configs (h : installEnd utf fplg chance req = some fplg') :
    fplg'.configs = fplg.configs ∧ fplg'.jobs = fplg.jobs := by
  unfold installEnd at h
  split at h
  · simp only [Option.bind_eq_bind, Option.bind_eq_some_iff] at h
    obtain ⟨-, -, h⟩ := h
    obtain ⟨-, saved, rfl⟩ := saveConfigs_cases h
    exact ⟨rfl, rfl⟩
  · obtain ⟨-, saved, rfl⟩ := saveConfigs_cases h
    exact ⟨rfl, rfl⟩

theorem messageStep_removalInvariant {e : MessageEvent} (inv : RemovalInvariant s)
    (h : MessageStep utf s e t) : RemovalInvariant t := by
  cases h with
  | refused => exact inv
  | request | lockConfig =>
    exact ⟨inv.distinct, fun name hn => (by cases hn), fun late => by cases late⟩
  | @change chance req fplg here begun =>
    rcases installBegin_cases begun with ⟨he, configs, -⟩ | ⟨he, configs, -⟩
    · refine ⟨?_, fun name hn => ?_, fun late => by cases late⟩
      · show fplg.configs.Distinct
        rw [configs]
        exact inv.distinct.delete _
      · show name ∉ fplg.configs.nodes.map ConfigNode.name
        obtain rfl : req.cfg.name = name := by
          simpa [MessageThread.removed, InstallPhase.changed, he] using hn
        rw [configs]
        exact not_mem_delete inv.distinct _
    · refine ⟨?_, fun name hn => ?_, fun late => by cases late⟩
      · show fplg.configs.Distinct
        rw [configs]
        exact (inv.distinct.delete _).add (not_mem_delete inv.distinct _)
      · simp [MessageThread.removed, he] at hn
  | lockSource here | replaceSpecs here | stopMonitor here =>
    have removed := inv.removed
    rw [here] at removed
    exact ⟨inv.distinct, removed, fun late => by cases late⟩
  | joinWatcher here returned =>
    have removed := inv.removed
    rw [here] at removed
    exact ⟨inv.distinct, removed, fun _ => rfl⟩
  | startMonitor here started =>
    have removed := inv.removed
    rw [here] at removed
    refine ⟨inv.distinct, removed, fun _ => ?_⟩
    obtain ⟨paths, -, rfl⟩ := Option.map_eq_some_iff.mp started
    show WatcherThread.pastConfig (if paths = [] then .absent else .starting) = false
    split <;> rfl
  | @finish chance req fplg dbs here ended =>
    refine ⟨?_, fun name hn => (by cases hn), fun late => by cases late⟩
    show fplg.configs.Distinct
    rw [(installEnd_configs ended).1]
    exact inv.distinct

theorem holdsConfig_of_joined {m : MessageThread} (h : m.joined = true) :
    m.holdsConfig = true := by
  unfold MessageThread.joined at h
  split at h
  · rfl
  · rfl
  · cases h

theorem watcherStep_removalInvariant {e : WatcherEvent} (inv : RemovalInvariant s)
    (h : WatcherStep s e t) : RemovalInvariant t := by
  cases h with
  | lockConfig here free =>
    refine ⟨inv.distinct, inv.removed, fun late => ?_⟩
    rw [holdsConfig_of_joined late] at free
    cases free
  | found here =>
    refine ⟨inv.distinct, inv.removed, fun late => ?_⟩
    have := inv.joined late
    rw [here] at this
    cases this
  | monitorRuns | monitorEnds | fileEvents | callbackReturns | passOver | nextEvent | lockSource
  | matched | notMatched | notFound | pushJob => exact ⟨inv.distinct, inv.removed, fun _ => rfl⟩

theorem next_removalInvariant {e : PluginEvent} (inv : RemovalInvariant s)
    (h : (filePlugin utf maxDbs).next s e = some t) : RemovalInvariant t := by
  cases e with
  | message e => exact messageStep_removalInvariant inv (messageNext_step h)
  | watcher e => exact watcherStep_removalInvariant inv (watcherNext_step h)
  | runner e =>
    obtain ⟨message, watcher, configs⟩ := runnerNext_others h
    constructor
    · rw [configs]
      exact inv.distinct
    · rw [message, configs]
      exact inv.removed
    · rw [message, watcher]
      exact inv.joined

theorem run_removalInvariant {Allowed : PluginThreads → PluginEvent → Prop}
    {events : List PluginEvent} (run : (filePlugin utf maxDbs).Run Allowed events s) :
    RemovalInvariant s := by
  apply run.invariant RemovalInvariant
  · rintro _ ⟨permitsInfo, file, fplg, watcher, dbs, -, distinct, -, rfl⟩
    exact ⟨distinct, fun name hn => (by cases hn), fun late => by cases late⟩
  · intro s e t inv _ h
    exact next_removalInvariant inv h

end

/-! ## After the removal -/

/-- Nothing of this config is left, and no request adds it. -/
structure Gone (name : UStr) (s : PluginThreads) : Prop where
  tree : name ∉ s.fplg.configs.nodes.map ConfigNode.name
  request : ∀ phase chance req, s.message = .install phase chance req →
    req.isEmpty = false → req.cfg.name ≠ name
  queued : ∀ jb ∈ s.fplg.jobs, jb.configName ≠ name
  running : ∀ jb ∈ s.runner.job, jb.configName ≠ name
  pushing : ∀ jb batch, s.watcher = .pushing jb batch → jb.configName ≠ name

section
variable {utf : Utf} {maxDbs : Nat} {s t : PluginThreads} {name : UStr}

theorem gone_of_finish (inv : RemovalInvariant s) (completes : CompletesRemoval s name)
    (noJob : NoJobFor name s)
    (finish : (filePlugin utf maxDbs).next s (.message .finish) = some t) : Gone name t := by
  obtain ⟨chance, req, here, he, rfl⟩ := completes
  have removed := inv.removed req.cfg.name (by simp [here, MessageThread.removed,
    InstallPhase.changed, he])
  have joined := inv.joined (by rw [here]; rfl)
  have hstep : MessageStep utf s .finish t := messageNext_step finish
  cases hstep with
  | @finish chance' req' fplg dbs here' ended =>
    obtain ⟨configs, jobs⟩ := installEnd_configs ended
    refine ⟨?_, fun _ _ _ there => (by cases there), ?_, noJob.running, fun jb batch there => ?_⟩
    · show _ ∉ fplg.configs.nodes.map ConfigNode.name
      rwa [configs]
    · show ∀ jb ∈ fplg.jobs, _
      rw [jobs]
      exact noJob.queued
    · have there : s.watcher = .pushing jb batch := there
      rw [there] at joined
      cases joined

theorem eventReceived_name {configs : ConfigTree} {cfg fname : UStr} {jb : Job}
    (h : eventReceived configs cfg fname = some jb) :
    jb.configName = cfg ∧ cfg ∈ configs.nodes.map ConfigNode.name := by
  obtain ⟨found, hf, rfl⟩ := Option.map_eq_some_iff.mp h
  obtain ⟨hm, rfl⟩ := SortedList.find_some ConfigNode.name hf
  exact ⟨rfl, List.mem_map_of_mem hm⟩

theorem processElement_configName {jb : Job} {elem : Option Element} {fname : UStr}
    {db db' : StateDb} {msg : Option Message}
    (h : processElement utf jb fname elem db = some (db', msg)) :
    ∀ m ∈ msg, m.configName = jb.configName := by
  simp only [processElement, Option.bind_eq_bind, Option.bind_eq_some_iff] at h
  obtain ⟨dbElem, _, h⟩ := h
  intro m hm
  split at h
  · cases h
    cases hm
  · obtain ⟨db₁, _, h⟩ := Option.bind_eq_some_iff.mp h
    cases h
    cases hm
    rfl
  · cases h
    cases hm
    rfl
  · obtain ⟨cmp, _, h⟩ := Option.bind_eq_some_iff.mp h
    split at h
    · obtain ⟨db₁, _, h⟩ := Option.bind_eq_some_iff.mp h
      split at h
      · cases h
      · obtain ⟨kept, _, h⟩ := Option.bind_eq_some_iff.mp h
        split at h
        · cases h
        · cases h
          cases hm
          rfl
    · cases h
      cases hm

theorem messageStep_gone {e : MessageEvent} (gone : Gone name s)
    (notAdded : ¬ AddsConfig utf name (.message e)) (h : MessageStep utf s e t) :
    Gone name t := by
  cases h with
  | refused => exact gone
  | @request chance pcl req idle read =>
    refine ⟨gone.tree, fun phase chance' req' here adds same => ?_, gone.queued, gone.running,
      gone.pushing⟩
    cases here
    exact notAdded ⟨chance, pcl, req, rfl, read, adds, same⟩
  | lockConfig here | lockSource here | replaceSpecs here | stopMonitor here =>
    refine ⟨gone.tree, fun phase chance' req' there => ?_, gone.queued, gone.running, gone.pushing⟩
    cases there
    exact gone.request _ _ _ here
  | @change chance req fplg here begun =>
    have request := gone.request _ _ _ here
    refine ⟨?_, fun phase chance' req' there => ?_, ?_, gone.running, gone.pushing⟩
    · show name ∉ fplg.configs.nodes.map ConfigNode.name
      have kept : name ∉ (s.fplg.configs.delete req.cfg.name).nodes.map ConfigNode.name := by
        intro hm
        obtain ⟨cn, hcn, rfl⟩ := List.mem_map.mp hm
        exact gone.tree (List.mem_map_of_mem (List.mem_of_mem_eraseP hcn))
      rcases installBegin_cases begun with ⟨he, configs, -⟩ | ⟨he, configs, -⟩
      · rwa [configs]
      · rw [configs]
        intro hm
        obtain ⟨cn, hcn, rfl⟩ := List.mem_map.mp hm
        rcases SortedList.Tree.mem_nodes_add.mp hcn with rfl | hcn
        · exact request he rfl
        · exact kept (List.mem_map_of_mem hcn)
    · cases there
      exact request
    · show ∀ jb ∈ fplg.jobs, jb.configName ≠ name
      rcases installBegin_cases begun with ⟨he, -, jobs⟩ | ⟨he, -, jobs⟩
      · rw [jobs]
        exact gone.queued
      · rw [jobs]
        intro jb hjb
        rcases List.mem_append.mp hjb with hjb | hjb
        · exact gone.queued jb hjb
        · obtain rfl := List.mem_singleton.mp hjb
          exact request he
  | joinWatcher here =>
    refine ⟨gone.tree, fun phase chance' req' there => ?_, gone.queued, gone.running,
      fun _ _ there => (by cases there)⟩
    cases there
    exact gone.request _ _ _ here
  | @startMonitor chance req watcher here started =>
    refine ⟨gone.tree, fun phase chance' req' there => ?_, gone.queued, gone.running,
      fun jb batch there => ?_⟩
    · cases there
      exact gone.request _ _ _ here
    · obtain ⟨paths, -, rfl⟩ := Option.map_eq_some_iff.mp started
      have there : (if paths = [] then WatcherThread.absent else .starting) =
        .pushing jb batch := there
      split at there <;> cases there
  | @finish chance req fplg dbs here ended =>
    obtain ⟨configs, jobs⟩ := installEnd_configs ended
    refine ⟨?_, fun _ _ _ there => (by cases there), ?_, gone.running, gone.pushing⟩
    · show name ∉ fplg.configs.nodes.map ConfigNode.name
      rw [configs]
      exact gone.tree
    · show ∀ jb ∈ fplg.jobs, jb.configName ≠ name
      rw [jobs]
      exact gone.queued

theorem watcherStep_gone {e : WatcherEvent} (gone : Gone name s) (h : WatcherStep s e t) :
    Gone name t := by
  cases h with
  | @found cfg batch jb here job =>
    refine ⟨gone.tree, gone.request, gone.queued, gone.running, fun jb' batch' there => ?_⟩
    cases there
    obtain ⟨rfl, hm⟩ := eventReceived_name job
    rintro rfl
    exact gone.tree hm
  | @pushJob jb batch here =>
    refine ⟨gone.tree, gone.request, fun jb' hjb => ?_, gone.running,
      fun _ _ there => (by cases there)⟩
    rcases List.mem_append.mp hjb with hjb | hjb
    · exact gone.queued jb' hjb
    · obtain rfl := List.mem_singleton.mp hjb
      exact gone.pushing _ _ here
  | monitorRuns | monitorEnds | fileEvents | callbackReturns | passOver | nextEvent | lockSource
  | matched | notMatched | lockConfig | notFound =>
    exact ⟨gone.tree, gone.request, gone.queued, gone.running, fun _ _ there => (by cases there)⟩

theorem runnerStep_gone {e : RunnerEvent} (gone : Gone name s) (h : RunnerStep utf s e t) :
    Gone name t := by
  cases h with
  | @popJob jb jobs idle front =>
    have queued := gone.queued
    rw [front] at queued
    refine ⟨gone.tree, gone.request, fun jb' hjb => queued jb' (by simp [hjb]), ?_, gone.pushing⟩
    rintro _ ⟨⟩
    exact queued jb (by simp)
  | opened here | element here =>
    have running := gone.running
    rw [here] at running
    exact ⟨gone.tree, gone.request, gone.queued, running, gone.pushing⟩
  | notOpened | endJob =>
    exact ⟨gone.tree, gone.request, gone.queued, fun _ hjb => (by cases hjb), gone.pushing⟩

theorem next_gone {e : PluginEvent} (gone : Gone name s) (notAdded : ¬ AddsConfig utf name e)
    (h : (filePlugin utf maxDbs).next s e = some t) : Gone name t := by
  cases e with
  | message e => exact messageStep_gone gone notAdded (messageNext_step h)
  | watcher e => exact watcherStep_gone gone (watcherNext_step h)
  | runner e => exact runnerStep_gone gone (runnerNext_step h)

theorem AddsNoMessage.of_eq (h : t.accumulated = s.accumulated) : AddsNoMessage s t name :=
  ⟨[], by rw [h, List.append_nil], by simp⟩

/-- Only the runner adds messages, and they are for the config of its job. -/
theorem next_addsNoMessage {e : PluginEvent} (gone : Gone name s)
    (h : (filePlugin utf maxDbs).next s e = some t) : AddsNoMessage s t name := by
  cases e with
  | message e => cases messageNext_step h <;> exact .of_eq rfl
  | watcher e => cases watcherNext_step h <;> exact .of_eq rfl
  | runner e =>
    cases runnerNext_step h with
    | @element jb call calls db msg here processed =>
      refine ⟨msg.toList, rfl, fun m hm => ?_⟩
      have own : m.configName = jb.configName :=
        processElement_configName processed m (Option.mem_toList.mp hm)
      rw [own]
      exact gone.running jb (by rw [here]; rfl)
    | popJob | opened | notOpened | endJob => exact .of_eq rfl

theorem Gone.not_opensDb {e : PluginEvent} (gone : Gone name s) : ¬ OpensDb s e name := by
  rintro ⟨fs, evicted, created, jb, -, here, same⟩
  exact gone.running jb (by rw [here]; rfl) same

theorem stays_removed (gone : Gone name t) : StaysRemoved utf maxDbs name t := by
  intro events
  induction events generalizing t with
  | nil =>
    intro u e v after _ h
    cases after
    exact ⟨gone.not_opensDb, next_addsNoMessage gone h⟩
  | cons e events ih =>
    intro u e' v after notAdded h
    obtain ⟨t', hnext, after⟩ := Option.bind_eq_some_iff.mp after
    have gone' := next_gone gone (notAdded e (by simp)) hnext
    exact ih gone' u e' v after (fun d hd => notAdded d (by simp [hd])) h

end

/-- A removed config stays removed if no job for it is queued or running when the removal
completes. -/
theorem removed_stays_removed {utf : Utf} {maxDbs : Nat} {events : List PluginEvent}
    {s t : PluginThreads} {name : UStr}
    (run : (filePlugin utf maxDbs).Run Machine.Any events s)
    (completes : CompletesRemoval s name) (noJob : NoJobFor name s)
    (finish : (filePlugin utf maxDbs).next s (.message .finish) = some t) :
    StaysRemoved utf maxDbs name t :=
  stays_removed (gone_of_finish (run_removalInvariant run) completes noJob finish)

/-! ## Two runs -/

/-- The config `a` is added, and a request for its removal comes to its last step. -/
def addAndRemove (between : List PluginEvent) : List PluginEvent :=
  wholeRequest (watchRequest [97] .addOrReplace) ++ .watcher .monitorRuns :: between ++
    [.request (removeRequest [97] 0).1 (removeRequest [97] 0).2, .lockConfig, .change, .lockSource,
      .replaceSpecs, .stopMonitor].map .message ++
    [.watcher .monitorEnds, .message .joinWatcher, .message .startMonitor]

/-- A file system without files. -/
def noFiles : FileSystem where
  fileExists _ := false
  stat _ := none
  readDir _ := none
  sha256 _ := none
  posixAcl _ := none
  pathMax := 0
  stat_long _ _ := rfl

/-- The job of the config ends before the removal. -/
theorem removed_stays_removed_after_job :
    ∃ events s t, (filePlugin asciiUtf 100).Run Machine.Any events s ∧ CompletesRemoval s [97] ∧
      NoJobFor [97] s ∧ (filePlugin asciiUtf 100).next s (.message .finish) = some t ∧
      StaysRemoved asciiUtf 100 [97] t := by
  have reached : ∃ s, (filePlugin asciiUtf 100).after emptyPlugin
        (addAndRemove ([.popJob, .openDb noFiles none true, .element, .endJob].map .runner)) =
          some s ∧
      CompletesRemoval s [97] ∧ s.fplg.jobs = [] ∧ s.runner = .idle ∧
      ∃ t, (filePlugin asciiUtf 100).next s (.message .finish) = some t :=
    ⟨_, rfl, ⟨_, _, rfl, rfl, rfl⟩, rfl, rfl, _, rfl⟩
  obtain ⟨s, after, completes, jobs, idle, t, finish⟩ := reached
  have run := Machine.reached_of_after emptyPlugin_starts after
  have noJob : NoJobFor [97] s := ⟨by simp [jobs], by simp [idle, RunnerThread.job]⟩
  exact ⟨_, s, t, run, completes, noJob, finish, removed_stays_removed run completes noJob finish⟩

/-- The job of the config is still in the queue, and makes a new database. -/
theorem queued_job_opens_db :
    ∃ events s t, (filePlugin asciiUtf 100).Run Machine.Any events s ∧ CompletesRemoval s [97] ∧
      (filePlugin asciiUtf 100).next s (.message .finish) = some t ∧
      ¬ StaysRemoved asciiUtf 100 [97] t := by
  have reached : ∃ s, (filePlugin asciiUtf 100).after emptyPlugin (addAndRemove []) = some s ∧
      CompletesRemoval s [97] ∧
      ∃ t, (filePlugin asciiUtf 100).next s (.message .finish) = some t ∧
        ∃ u, (filePlugin asciiUtf 100).after t [.runner .popJob] = some u ∧
          OpensDb u (.runner (.openDb noFiles none true)) [97] ∧
          ∃ v, (filePlugin asciiUtf 100).next u (.runner (.openDb noFiles none true)) = some v :=
    ⟨_, rfl, ⟨_, _, rfl, rfl, rfl⟩, _, rfl, _, rfl, ⟨_, _, _, _, rfl, rfl, rfl⟩, _, rfl⟩
  obtain ⟨s, after, completes, t, finish, u, pop, opens, v, hopen⟩ := reached
  have notAdded : ∀ e ∈ [PluginEvent.runner .popJob], ¬ AddsConfig asciiUtf [97] e := by
    rintro e he ⟨chance, pcl, req, rfl, -⟩
    simp at he
  refine
    ⟨_, s, t, Machine.reached_of_after emptyPlugin_starts after, completes, finish, fun h => ?_⟩
  exact (h _ u _ v pop notAdded hopen).1 opens

end Yella
