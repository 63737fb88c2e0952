import Yella.Lib.Machine
import Yella.Plugin.EventSource
import Yella.Plugin.Saved

/-!
# The threads of the file plugin

The message thread in `install_config_node`, the watcher thread in `worker_callback` of
`event_source_fswatch.c`, and the runner of the job queue, one step after the other in any
order. Who holds `config_guard` and the guard of the event source can be read off from where
the threads are. A step that is not defined is undefined behaviour or a failed assertion.
-/

namespace Yella

/-! ## The parts of `install_config_node` -/

/-- From the lock to the call of the event source. -/
def installBegin (fplg : FilePlugin) (chance : Chance) (req : MonitorRequest) :
    Option FilePlugin := do
  let cfg := req.cfg
  let advertised := if req.act = .replaceAll then [] else fplg.inCapConfigs
  let advertised := updateInCap advertised cfg.name req.isEmpty chance.eraseIdx
  let _ ← destroyConfigNode (fplg.configs.find cfg.name)
  let configs := fplg.configs.delete cfg.name
  if req.isEmpty then
    some { fplg with inCapConfigs := advertised, configs }
  else
    some { fplg with
      inCapConfigs := advertised
      configs := configs.add cfg
      jobs := fplg.jobs ++ [configJob cfg] }

/-- What `add_or_replace_event_source_specs` and `remove_event_source_spec` do under the guard
of the event source. -/
def installSpecs (fplg : FilePlugin) (req : MonitorRequest) : FilePlugin :=
  { fplg with
    specs :=
      if req.isEmpty then fplg.specs.delete req.cfg.name
      else addOrReplaceEventSourceSpec fplg.specs (configSpec req.cfg) }

/-- From the return of the event source to the unlock. -/
def installEnd (utf : Utf) (fplg : FilePlugin) (chance : Chance) (req : MonitorRequest) :
    Option FilePlugin :=
  if req.isEmpty then do
    let _ ← destroyConfigNode (some req.cfg)
    saveConfigs utf { fplg with dbPool := fplg.dbPool.filter (· ≠ req.cfg.name) } chance.save
  else saveConfigs utf fplg chance.save

theorem installConfigNode_eq (utf : Utf) (fplg : FilePlugin) (chance : Chance)
    (req : MonitorRequest) :
    installConfigNode utf fplg chance req =
      (installBegin fplg chance req).bind fun begun =>
        installEnd utf (installSpecs begun req) chance req := by
  simp only [installConfigNode, installBegin, Option.bind_eq_bind, Option.bind_assoc]
  congr 1
  funext
  cases he : req.isEmpty <;> simp [installSpecs, installEnd, he]

/-! ## The event source -/

/-- The directory of an include. One that has neither a wildcard nor a separator fails the
assertion, and one whose wildcard has no separator before it has none. -/
def watchedDir (incl : UStr) : Option (Option UStr) :=
  match Glob.firstUnescapedSpecialChar incl with
  | some special => some (topDir incl special)
  | none => if dirSep ∈ incl then some (topDir incl (incl.length - 1)) else none

/-- `get_paths`, before the names are sorted. -/
def getPaths (specs : SpecTree) : Option (List UStr) :=
  ((specs.nodes.flatMap EventSourceSpec.includes).mapM watchedDir).map (·.filterMap id)

/-! ## Where the threads are -/

/-- The steps of `install_config_node`. -/
inductive InstallPhase where
  | wantsConfig
  | changing
  | wantsSource
  | replacing
  | stopping
  | joining
  | restarting
  | closing
  deriving DecidableEq

inductive MessageThread where
  | idle
  | install (phase : InstallPhase) (chance : Chance) (req : MonitorRequest)

/-- The event that `worker_callback` is at, those that follow, and the names called for. -/
structure Batch where
  path : UStr
  rest : List UStr
  called : List UStr

inductive WatcherThread where
  | absent
  | starting
  | watching
  | inCallback (rest called : List UStr)
  | wantsSource (batch : Batch)
  | matching (batch : Batch)
  | wantsConfig (configName : UStr) (batch : Batch)
  | lookingUp (configName : UStr) (batch : Batch)
  | pushing (jb : Job) (batch : Batch)
  | ended

/-- Back in the loop of `worker_callback`, with the name among those called for. -/
def Batch.done (batch : Batch) : WatcherThread :=
  .inCallback batch.rest (batch.called ++ [batch.path])

/-- A job that runs has its calls of `process_element` before it. -/
inductive RunnerThread where
  | idle
  | opening (jb : Job)
  | running (jb : Job) (calls : List Observation)

/-- `stopRequested` is what `fsw_stop_monitor` sets, `dbs` what the databases on disk hold by
config name, and `accumulated` the messages added to the accumulator. -/
structure PluginThreads where
  fplg : FilePlugin
  message : MessageThread
  watcher : WatcherThread
  stopRequested : Bool
  runner : RunnerThread
  dbs : UStr → StateDb
  accumulated : List Message

namespace MessageThread

/-- `config_guard` is write-locked from the first change to the unlock. -/
def holdsConfig : MessageThread → Bool
  | idle => false
  | install .wantsConfig _ _ => false
  | install _ _ _ => true

def holdsSource : MessageThread → Bool
  | install .replacing _ _ => true
  | _ => false

end MessageThread

namespace WatcherThread

def holdsConfig : WatcherThread → Bool
  | lookingUp _ _ => true
  | _ => false

def holdsSource : WatcherThread → Bool
  | matching _ => true
  | _ => false

def waitsForConfig : WatcherThread → Bool
  | wantsConfig _ _ => true
  | _ => false

def waitsForSource : WatcherThread → Bool
  | wantsSource _ => true
  | _ => false

/-- `fsw_is_running` -/
def isRunning : WatcherThread → Bool
  | absent => false
  | starting => false
  | ended => false
  | _ => true

/-- There is no thread, or a join would return. -/
def joinable : WatcherThread → Bool
  | absent => true
  | ended => true
  | _ => false

end WatcherThread

/-- `start_monitor` makes a thread if there are paths to watch. -/
def startMonitor (specs : SpecTree) : Option WatcherThread :=
  (getPaths specs).map fun paths => if paths = [] then .absent else .starting

/-! ## The steps -/

inductive MessageEvent where
  | request (chance : Chance) (pcl : Parcel)
  | lockConfig
  | change
  | lockSource
  | replaceSpecs
  | stopMonitor
  | joinWatcher
  | startMonitor
  | finish

/-- The paths of `fileEvents` are those with useful flags. -/
inductive WatcherEvent where
  | monitorRuns
  | monitorEnds
  | fileEvents (paths : List UStr)
  | nextEvent
  | lockSourceShared
  | matchName
  | lockConfigShared
  | lookUp
  | pushJob

inductive RunnerEvent where
  | popJob
  | openDb (fs : FileSystem) (evicted : Option UStr) (created : Bool)
  | element
  | endJob

inductive PluginEvent where
  | message (e : MessageEvent)
  | watcher (e : WatcherEvent)
  | runner (e : RunnerEvent)

section
variable (utf : Utf)

/-- The first config that the runner closes when there are `maxDbs` of them is any one, since
the times of use are not modelled. -/
def CanEvict (maxDbs : Nat) (dbPool : List UStr) : Option UStr → Prop
  | some name => maxDbs ≤ dbPool.length ∧ name ∈ dbPool
  | none => dbPool.length < maxDbs ∨ dbPool = []

instance (maxDbs : Nat) (dbPool : List UStr) (evicted : Option UStr) :
    Decidable (CanEvict maxDbs dbPool evicted) := by
  cases evicted <;> unfold CanEvict <;> infer_instance

/-- `get_state_db_from_pool`: the pool afterwards, and whether there is a database. -/
def getStateDbFromPool (maxDbs : Nat) (dbPool : List UStr) (name : UStr)
    (evicted : Option UStr) (created : Bool) : Option (List UStr × Bool) :=
  if name ∈ dbPool then some (dbPool, true)
  else if CanEvict maxDbs dbPool evicted then
    let kept := dbPool.filter (some · ≠ evicted)
    some (if created then name :: kept else kept, created)
  else none

def messageNext (s : PluginThreads) : MessageEvent → Option PluginThreads
  | .request chance pcl =>
    match s.message with
    | .idle =>
      if pcl.type = monitorRequestType ∧ pcl.cmp = .none then
        match readRequest utf pcl with
        | none => some s
        | some req => some { s with message := .install .wantsConfig chance req }
      else none
    | _ => none
  | .lockConfig =>
    match s.message with
    | .install .wantsConfig chance req =>
      if s.watcher.holdsConfig then none
      else some { s with message := .install .changing chance req }
    | _ => none
  | .change =>
    match s.message with
    | .install .changing chance req =>
      (installBegin s.fplg chance req).map fun fplg =>
        { s with fplg, message := .install .wantsSource chance req }
    | _ => none
  | .lockSource =>
    match s.message with
    | .install .wantsSource chance req =>
      if s.watcher.holdsSource then none
      else some { s with message := .install .replacing chance req }
    | _ => none
  | .replaceSpecs =>
    match s.message with
    | .install .replacing chance req =>
      some { s with
        fplg := installSpecs s.fplg req
        message := .install .stopping chance req }
    | _ => none
  | .stopMonitor =>
    match s.message with
    | .install .stopping chance req =>
      some { s with
        stopRequested := s.watcher.isRunning
        message := .install .joining chance req }
    | _ => none
  | .joinWatcher =>
    match s.message with
    | .install .joining chance req =>
      if s.watcher.joinable then
        some { s with
          watcher := .absent
          stopRequested := false
          message := .install .restarting chance req }
      else none
    | _ => none
  | .startMonitor =>
    match s.message with
    | .install .restarting chance req =>
      (startMonitor s.fplg.specs).map fun watcher =>
        { s with watcher, message := .install .closing chance req }
    | _ => none
  | .finish =>
    match s.message with
    | .install .closing chance req =>
      (installEnd utf s.fplg chance req).map fun fplg =>
        { s with
          fplg
          dbs :=
            -- the file goes only with a database that is open
            if req.isEmpty ∧ req.cfg.name ∈ s.fplg.dbPool then
              Function.update s.dbs req.cfg.name .empty
            else s.dbs
          message := .idle }
    | _ => none

def watcherNext (s : PluginThreads) : WatcherEvent → Option PluginThreads
  | .monitorRuns =>
    match s.watcher with
    | .starting => some { s with watcher := .watching }
    | _ => none
  | .monitorEnds =>
    match s.watcher with
    | .watching => if s.stopRequested then some { s with watcher := .ended } else none
    | _ => none
  | .fileEvents paths =>
    match s.watcher with
    | .watching => some { s with watcher := .inCallback paths [] }
    | _ => none
  | .nextEvent =>
    match s.watcher with
    | .inCallback [] _ => some { s with watcher := .watching }
    | .inCallback (path :: rest) called =>
      if path ∈ called then some { s with watcher := .inCallback rest called }
      else some { s with watcher := .wantsSource { path, rest, called } }
    | _ => none
  | .lockSourceShared =>
    match s.watcher with
    | .wantsSource batch =>
      if s.message.holdsSource then none else some { s with watcher := .matching batch }
    | _ => none
  | .matchName =>
    match s.watcher with
    | .matching batch =>
      -- the walk is by name here; which spec comes first decides nothing about the locks
      match fileNameMatchesAny batch.path s.fplg.specs.nodes with
      | some cfg => some { s with watcher := .wantsConfig cfg batch }
      | none => some { s with watcher := batch.done }
    | _ => none
  | .lockConfigShared =>
    match s.watcher with
    | .wantsConfig cfg batch =>
      if s.message.holdsConfig then none else some { s with watcher := .lookingUp cfg batch }
    | _ => none
  | .lookUp =>
    match s.watcher with
    | .lookingUp cfg batch =>
      match eventReceived s.fplg.configs cfg batch.path with
      | some jb => some { s with watcher := .pushing jb batch }
      | none => some { s with watcher := batch.done }
    | _ => none
  | .pushJob =>
    match s.watcher with
    | .pushing jb batch =>
      some { s with
        fplg := { s.fplg with jobs := s.fplg.jobs ++ [jb] }
        watcher := batch.done }
    | _ => none

def runnerNext (maxDbs : Nat) (s : PluginThreads) : RunnerEvent → Option PluginThreads
  | .popJob =>
    match s.runner, s.fplg.jobs with
    | .idle, jb :: jobs =>
      some { s with fplg := { s.fplg with jobs }, runner := .opening jb }
    | _, _ => none
  | .openDb fs evicted created =>
    match s.runner with
    | .opening jb => do
      let (dbPool, found) ←
        getStateDbFromPool maxDbs s.fplg.dbPool jb.configName evicted created
      if found then
        let calls ← runJob fs jb (some (s.dbs jb.configName))
        some { s with fplg := { s.fplg with dbPool }, runner := .running jb calls }
      else some { s with fplg := { s.fplg with dbPool }, runner := .idle }
    | _ => none
  | .element =>
    match s.runner with
    | .running jb (call :: calls) =>
      -- a database that was closed meanwhile is gone
      if jb.configName ∈ s.fplg.dbPool then do
        let (db, msg) ← processElement utf jb call.name call.elem (s.dbs jb.configName)
        some { s with
          dbs := Function.update s.dbs jb.configName db
          accumulated := s.accumulated ++ msg.toList
          runner := .running jb calls }
      else none
    | _ => none
  | .endJob =>
    match s.runner with
    | .running _ [] => some { s with runner := .idle }
    | _ => none

/-- The plugin after `plugin_start`, before any message. -/
def PluginThreads.started (fplg : FilePlugin) (watcher : WatcherThread)
    (dbs : UStr → StateDb) : PluginThreads where
  fplg := fplg
  message := .idle
  watcher := watcher
  stopRequested := false
  runner := .idle
  dbs := dbs
  accumulated := []

/-- The plugin starts on a file that holds no name twice, as `save_configs` writes it. -/
def filePlugin (maxDbs : Nat) : Machine PluginThreads PluginEvent where
  start s := ∃ permitsInfo file fplg watcher dbs, pluginStart utf permitsInfo file = some fplg ∧
    fplg.configs.Distinct ∧ startMonitor fplg.specs = some watcher ∧
    s = .started fplg watcher dbs
  next s
    | .message e => messageNext utf s e
    | .watcher e => watcherNext s e
    | .runner e => runnerNext utf maxDbs s e

end

/-! ## What each step does -/

inductive MessageStep (utf : Utf) (s : PluginThreads) : MessageEvent → PluginThreads → Prop
  | refused {chance : Chance} {pcl : Parcel} : MessageStep utf s (.request chance pcl) s
  | request {chance : Chance} {pcl : Parcel} {req : MonitorRequest} (idle : s.message = .idle)
      (read : readRequest utf pcl = some req) :
      MessageStep utf s (.request chance pcl)
        { s with message := .install .wantsConfig chance req }
  | lockConfig {chance : Chance} {req : MonitorRequest}
      (here : s.message = .install .wantsConfig chance req) (free : s.watcher.holdsConfig = false) :
      MessageStep utf s .lockConfig { s with message := .install .changing chance req }
  | change {chance : Chance} {req : MonitorRequest} {fplg : FilePlugin}
      (here : s.message = .install .changing chance req)
      (begun : installBegin s.fplg chance req = some fplg) :
      MessageStep utf s .change { s with fplg, message := .install .wantsSource chance req }
  | lockSource {chance : Chance} {req : MonitorRequest}
      (here : s.message = .install .wantsSource chance req) :
      MessageStep utf s .lockSource { s with message := .install .replacing chance req }
  | replaceSpecs {chance : Chance} {req : MonitorRequest}
      (here : s.message = .install .replacing chance req) :
      MessageStep utf s .replaceSpecs { s with
        fplg := installSpecs s.fplg req
        message := .install .stopping chance req }
  | stopMonitor {chance : Chance} {req : MonitorRequest}
      (here : s.message = .install .stopping chance req) :
      MessageStep utf s .stopMonitor { s with
        stopRequested := s.watcher.isRunning
        message := .install .joining chance req }
  | joinWatcher {chance : Chance} {req : MonitorRequest}
      (here : s.message = .install .joining chance req) (returned : s.watcher.joinable = true) :
      MessageStep utf s .joinWatcher { s with
        watcher := .absent
        stopRequested := false
        message := .install .restarting chance req }
  | startMonitor {chance : Chance} {req : MonitorRequest} {watcher : WatcherThread}
      (here : s.message = .install .restarting chance req)
      (started : startMonitor s.fplg.specs = some watcher) :
      MessageStep utf s .startMonitor
        { s with watcher, message := .install .closing chance req }
  | finish {chance : Chance} {req : MonitorRequest} {fplg : FilePlugin} {dbs : UStr → StateDb}
      (here : s.message = .install .closing chance req)
      (ended : installEnd utf s.fplg chance req = some fplg) :
      MessageStep utf s .finish { s with fplg, dbs, message := .idle }

theorem messageNext_step {utf : Utf} {s t : PluginThreads} {e : MessageEvent}
    (h : messageNext utf s e = some t) : MessageStep utf s e t := by
  cases e with
  | request chance pcl =>
    simp only [messageNext] at h
    split at h
    · split at h
      · split at h <;> cases h
        · exact .refused
        · exact .request ‹_› ‹_›
      · cases h
    · cases h
  | lockConfig =>
    simp only [messageNext] at h
    split at h
    · split at h <;> cases h
      rename_i here free
      exact .lockConfig here (by simpa using free)
    · cases h
  | change =>
    simp only [messageNext] at h
    split at h
    · obtain ⟨fplg, begun, rfl⟩ := Option.map_eq_some_iff.mp h
      exact .change ‹_› begun
    · cases h
  | lockSource =>
    simp only [messageNext] at h
    split at h
    · split at h <;> cases h
      exact .lockSource ‹_›
    · cases h
  | replaceSpecs =>
    simp only [messageNext] at h
    split at h <;> cases h
    exact .replaceSpecs ‹_›
  | stopMonitor =>
    simp only [messageNext] at h
    split at h <;> cases h
    exact .stopMonitor ‹_›
  | joinWatcher =>
    simp only [messageNext] at h
    split at h
    · split at h <;> cases h
      exact .joinWatcher ‹_› ‹_›
    · cases h
  | startMonitor =>
    simp only [messageNext] at h
    split at h
    · obtain ⟨watcher, started, rfl⟩ := Option.map_eq_some_iff.mp h
      exact .startMonitor ‹_› started
    · cases h
  | finish =>
    simp only [messageNext] at h
    split at h
    · obtain ⟨fplg, ended, rfl⟩ := Option.map_eq_some_iff.mp h
      exact .finish ‹_› ended
    · cases h

inductive WatcherStep (s : PluginThreads) : WatcherEvent → PluginThreads → Prop
  | monitorRuns (here : s.watcher = .starting) :
      WatcherStep s .monitorRuns { s with watcher := .watching }
  | monitorEnds (here : s.watcher = .watching) (requested : s.stopRequested = true) :
      WatcherStep s .monitorEnds { s with watcher := .ended }
  | fileEvents {paths : List UStr} (here : s.watcher = .watching) :
      WatcherStep s (.fileEvents paths) { s with watcher := .inCallback paths [] }
  | callbackReturns {called : List UStr} (here : s.watcher = .inCallback [] called) :
      WatcherStep s .nextEvent { s with watcher := .watching }
  | passOver {path : UStr} {rest called : List UStr}
      (here : s.watcher = .inCallback (path :: rest) called) :
      WatcherStep s .nextEvent { s with watcher := .inCallback rest called }
  | nextEvent {path : UStr} {rest called : List UStr}
      (here : s.watcher = .inCallback (path :: rest) called) :
      WatcherStep s .nextEvent { s with watcher := .wantsSource { path, rest, called } }
  | lockSource {batch : Batch} (here : s.watcher = .wantsSource batch)
      (free : s.message.holdsSource = false) :
      WatcherStep s .lockSourceShared { s with watcher := .matching batch }
  | matched {batch : Batch} {cfg : UStr} (here : s.watcher = .matching batch)
      (found : fileNameMatchesAny batch.path s.fplg.specs.nodes = some cfg) :
      WatcherStep s .matchName { s with watcher := .wantsConfig cfg batch }
  | notMatched {batch : Batch} (here : s.watcher = .matching batch) :
      WatcherStep s .matchName { s with watcher := batch.done }
  | lockConfig {cfg : UStr} {batch : Batch} (here : s.watcher = .wantsConfig cfg batch)
      (free : s.message.holdsConfig = false) :
      WatcherStep s .lockConfigShared { s with watcher := .lookingUp cfg batch }
  | found {cfg : UStr} {batch : Batch} {jb : Job} (here : s.watcher = .lookingUp cfg batch)
      (job : eventReceived s.fplg.configs cfg batch.path = some jb) :
      WatcherStep s .lookUp { s with watcher := .pushing jb batch }
  | notFound {cfg : UStr} {batch : Batch} (here : s.watcher = .lookingUp cfg batch) :
      WatcherStep s .lookUp { s with watcher := batch.done }
  | pushJob {jb : Job} {batch : Batch} (here : s.watcher = .pushing jb batch) :
      WatcherStep s .pushJob { s with
        fplg := { s.fplg with jobs := s.fplg.jobs ++ [jb] }
        watcher := batch.done }

theorem watcherNext_step {s t : PluginThreads} {e : WatcherEvent}
    (h : watcherNext s e = some t) : WatcherStep s e t := by
  cases e with
  | monitorRuns =>
    simp only [watcherNext] at h
    split at h <;> cases h
    exact .monitorRuns ‹_›
  | monitorEnds =>
    simp only [watcherNext] at h
    split at h
    · split at h <;> cases h
      exact .monitorEnds ‹_› ‹_›
    · cases h
  | fileEvents paths =>
    simp only [watcherNext] at h
    split at h <;> cases h
    exact .fileEvents ‹_›
  | nextEvent =>
    simp only [watcherNext] at h
    split at h
    · cases h
      exact .callbackReturns ‹_›
    · split at h <;> cases h
      · exact .passOver ‹_›
      · exact .nextEvent ‹_›
    · cases h
  | lockSourceShared =>
    simp only [watcherNext] at h
    split at h
    · split at h <;> cases h
      rename_i here free
      exact .lockSource here (by simpa using free)
    · cases h
  | matchName =>
    simp only [watcherNext] at h
    split at h
    · split at h <;> cases h
      · exact .matched ‹_› ‹_›
      · exact .notMatched ‹_›
    · cases h
  | lockConfigShared =>
    simp only [watcherNext] at h
    split at h
    · split at h <;> cases h
      rename_i here free
      exact .lockConfig here (by simpa using free)
    · cases h
  | lookUp =>
    simp only [watcherNext] at h
    split at h
    · split at h <;> cases h
      · exact .found ‹_› ‹_›
      · exact .notFound ‹_›
    · cases h
  | pushJob =>
    simp only [watcherNext] at h
    split at h <;> cases h
    exact .pushJob ‹_›

inductive RunnerStep (utf : Utf) (s : PluginThreads) : RunnerEvent → PluginThreads → Prop
  | popJob {jb : Job} {jobs : List Job} (idle : s.runner = .idle)
      (front : s.fplg.jobs = jb :: jobs) :
      RunnerStep utf s .popJob { s with fplg := { s.fplg with jobs }, runner := .opening jb }
  | opened {fs : FileSystem} {evicted : Option UStr} {created : Bool} {jb : Job}
      {dbPool : List UStr} {calls : List Observation} (here : s.runner = .opening jb) :
      RunnerStep utf s (.openDb fs evicted created)
        { s with fplg := { s.fplg with dbPool }, runner := .running jb calls }
  | notOpened {fs : FileSystem} {evicted : Option UStr} {created : Bool} {jb : Job}
      {dbPool : List UStr} (here : s.runner = .opening jb) :
      RunnerStep utf s (.openDb fs evicted created)
        { s with fplg := { s.fplg with dbPool }, runner := .idle }
  | element {jb : Job} {call : Observation} {calls : List Observation} {db : StateDb}
      {msg : Option Message} (here : s.runner = .running jb (call :: calls))
      (processed : processElement utf jb call.name call.elem (s.dbs jb.configName) =
        some (db, msg)) :
      RunnerStep utf s .element { s with
        dbs := Function.update s.dbs jb.configName db
        accumulated := s.accumulated ++ msg.toList
        runner := .running jb calls }
  | endJob {jb : Job} (here : s.runner = .running jb []) :
      RunnerStep utf s .endJob { s with runner := .idle }

theorem runnerNext_step {utf : Utf} {maxDbs : Nat} {s t : PluginThreads} {e : RunnerEvent}
    (h : runnerNext utf maxDbs s e = some t) : RunnerStep utf s e t := by
  cases e with
  | popJob =>
    simp only [runnerNext] at h
    split at h <;> cases h
    exact .popJob ‹_› ‹_›
  | openDb fs evicted created =>
    simp only [runnerNext] at h
    split at h
    · simp only [Option.bind_eq_bind, Option.bind_eq_some_iff] at h
      obtain ⟨⟨dbPool, found⟩, _, h⟩ := h
      split at h
      · obtain ⟨calls, _, h⟩ := Option.bind_eq_some_iff.mp h
        cases h
        exact .opened ‹_›
      · cases h
        exact .notOpened ‹_›
    · cases h
  | element =>
    simp only [runnerNext] at h
    split at h
    · split at h
      · simp only [Option.bind_eq_bind, Option.bind_eq_some_iff] at h
        obtain ⟨⟨db, msg⟩, processed, h⟩ := h
        cases h
        exact .element ‹_› processed
      · cases h
    · cases h
  | endJob =>
    simp only [runnerNext] at h
    split at h <;> cases h
    exact .endJob ‹_›

/-- The runner touches neither of the other threads. -/
theorem runnerNext_others {utf : Utf} {maxDbs : Nat} {s t : PluginThreads} {e : RunnerEvent}
    (h : runnerNext utf maxDbs s e = some t) :
    t.message = s.message ∧ t.watcher = s.watcher ∧ t.fplg.configs = s.fplg.configs := by
  cases runnerNext_step h <;> exact ⟨rfl, rfl, rfl⟩

/-- A plugin without saved configs. -/
def emptyPlugin : PluginThreads := .started .start .absent fun _ => .empty

theorem emptyPlugin_starts : (filePlugin asciiUtf 100).start emptyPlugin :=
  ⟨false, .missing, .start, .absent, fun _ => .empty, rfl, List.nodup_nil, rfl, rfl⟩

/-- A request of the message thread. -/
def wholeRequest (r : Chance × Parcel) : List PluginEvent :=
  [.request r.1 r.2, .lockConfig, .change, .lockSource, .replaceSpecs, .stopMonitor, .joinWatcher,
    .startMonitor, .finish].map .message

end Yella
