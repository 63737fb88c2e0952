import Yella.Plugin.FileEvent
import Yella.Plugin.Threads

/-!
# Requests and file events

The message thread joins the watcher while it holds `config_guard`, and the watcher asks for
this lock in each call of `event_received`. The two never wait for each other as long as the
watcher does not ask in the time from the lock to the join.
-/

namespace Yella

/-- `config_guard` is write-locked, and the join is still ahead or under way. -/
def MessageThread.joinAhead : MessageThread → Bool
  | install .changing _ _ => true
  | install .wantsSource _ _ => true
  | install .replacing _ _ => true
  | install .stopping _ _ => true
  | install .joining _ _ => true
  | _ => false

/-- The message thread waits in the join, and the watcher for a lock that the message thread
holds. -/
structure PluginThreads.Deadlocked (s : PluginThreads) : Prop where
  joining : ∃ chance req, s.message = .install .joining chance req
  waits : s.watcher.waitsForConfig = true ∧ s.message.holdsConfig = true ∨
    s.watcher.waitsForSource = true ∧ s.message.holdsSource = true

/-- The config that the watcher is about to call `event_received` for. -/
def PluginThreads.matched (s : PluginThreads) : Option UStr :=
  match s.watcher with
  | .matching batch => fileNameMatchesAny batch.path s.fplg.specs.nodes
  | _ => none

/-- The watcher does not come to wait for `config_guard` before the join, and the message
thread does not lock it while the watcher waits for it. -/
def NoCrossing (s : PluginThreads) : PluginEvent → Prop
  | .watcher .matchName => s.message.joinAhead = true → s.matched = none
  | .message .lockConfig => s.watcher.waitsForConfig = false
  | _ => True

instance decidableNoCrossing (s : PluginThreads) : (e : PluginEvent) → Decidable (NoCrossing s e)
  | .watcher e => by cases e <;> unfold NoCrossing <;> infer_instance
  | .message e => by cases e <;> unfold NoCrossing <;> infer_instance
  | .runner _ => isTrue trivial

/-- The invariant of the runs in which nothing crosses. -/
def PluginThreads.Uncrossed (s : PluginThreads) : Prop :=
  s.message.joinAhead = true → s.watcher.waitsForConfig = false

section
variable {utf : Utf} {maxDbs : Nat} {s t : PluginThreads}

theorem messageStep_uncrossed {e : MessageEvent} (h : MessageStep utf s e t)
    (kept : NoCrossing s (.message e)) (inv : s.Uncrossed) : t.Uncrossed := by
  cases h with
  | refused => exact inv
  | request => exact fun ahead => by cases ahead
  | lockConfig => exact fun _ => kept
  | change here | lockSource here | replaceSpecs here | stopMonitor here =>
    exact fun _ => inv (by simp [here, MessageThread.joinAhead])
  | joinWatcher | startMonitor | finish => exact fun ahead => by cases ahead

theorem watcherStep_uncrossed {e : WatcherEvent} (h : WatcherStep s e t)
    (kept : NoCrossing s (.watcher e)) : t.Uncrossed := by
  cases h with
  | matched here found =>
    intro ahead
    have := kept ahead
    rw [PluginThreads.matched, here] at this
    cases this.symm.trans found
  | monitorRuns | monitorEnds | fileEvents | callbackReturns | passOver | nextEvent | lockSource
  | notMatched | lockConfig | found | notFound | pushJob => exact fun _ => rfl

theorem next_uncrossed {e : PluginEvent} (inv : s.Uncrossed) (kept : NoCrossing s e)
    (h : (filePlugin utf maxDbs).next s e = some t) : t.Uncrossed := by
  cases e with
  | message e => exact messageStep_uncrossed (messageNext_step h) kept inv
  | watcher e => exact watcherStep_uncrossed (watcherNext_step h) kept
  | runner e =>
    obtain ⟨message, watcher, -⟩ := runnerNext_others h
    rw [PluginThreads.Uncrossed, message, watcher]
    exact inv

end

/-- In any interleaving in which nothing crosses, the two threads never wait for each other. -/
theorem no_deadlock {utf : Utf} {maxDbs : Nat} {events : List PluginEvent} {s : PluginThreads}
    (run : (filePlugin utf maxDbs).Run NoCrossing events s) : ¬ s.Deadlocked := by
  have inv : s.Uncrossed := by
    apply run.invariant PluginThreads.Uncrossed
    · rintro _ ⟨permitsInfo, file, fplg, watcher, dbs, -, -, -, rfl⟩ ahead
      cases ahead
    · intro s e t inv kept h
      exact next_uncrossed inv kept h
  rintro ⟨⟨chance, req, joining⟩, config | source⟩
  · have := inv (by simp [joining, MessageThread.joinAhead])
    rw [config.1] at this
    cases this
  · rw [joining] at source
    cases source.2

/-! ## Once they wait -/

section
variable {utf : Utf} {maxDbs : Nat} {s t : PluginThreads}

theorem Deadlocked.watcher (dead : s.Deadlocked) : s.watcher.waitsForConfig = true := by
  obtain ⟨⟨chance, req, joining⟩, config | source⟩ := dead
  · exact config.1
  · rw [joining] at source
    cases source.2

theorem waitsForConfig_not_joinable {w : WatcherThread} (h : w.waitsForConfig = true) :
    w.joinable = false := by
  cases w <;> first | rfl | cases h

/-- Nothing ends a deadlock. -/
theorem deadlock_forever {e : PluginEvent} (dead : s.Deadlocked)
    (h : (filePlugin utf maxDbs).next s e = some t) : t.Deadlocked := by
  have waits := Deadlocked.watcher dead
  obtain ⟨chance, req, joining⟩ := dead.joining
  have holds : s.message.holdsConfig = true := by rw [joining]; rfl
  cases e with
  | message e =>
    cases messageNext_step h with
    | refused => exact dead
    | joinWatcher here returned =>
      rw [waitsForConfig_not_joinable waits] at returned
      cases returned
    | request here | lockConfig here | change here | lockSource here | replaceSpecs here
    | stopMonitor here | startMonitor here | finish here =>
      rw [joining] at here
      cases here
  | watcher e =>
    cases watcherNext_step h with
    | lockConfig here free =>
      rw [holds] at free
      cases free
    | monitorRuns here | monitorEnds here | fileEvents here | callbackReturns here
    | passOver here | nextEvent here | lockSource here | matched here | notMatched here
    | found here | notFound here | pushJob here =>
      rw [here] at waits
      cases waits
  | runner e =>
    obtain ⟨message, watcher, -⟩ := runnerNext_others h
    exact ⟨⟨chance, req, message.trans joining⟩, .inl ⟨watcher ▸ waits, message ▸ holds⟩⟩

/-- When they cross, the message thread goes on into the deadlock (or dies in the change). -/
theorem crossing_deadlocks (ahead : s.message.joinAhead = true)
    (waits : s.watcher.waitsForConfig = true)
    (begins : ∀ chance req, s.message = .install .changing chance req →
      (installBegin s.fplg chance req).isSome) :
    (filePlugin utf maxDbs).Reaches s PluginThreads.Deadlocked := by
  have joining : ∀ s chance req, s.message = .install .joining chance req →
      s.watcher.waitsForConfig = true →
        (filePlugin utf maxDbs).Reaches s PluginThreads.Deadlocked := by
    intro s chance req here waits
    exact .here ⟨⟨chance, req, here⟩, .inl ⟨waits, by rw [here]; rfl⟩⟩
  have stopping : ∀ s chance req, s.message = .install .stopping chance req →
      s.watcher.waitsForConfig = true →
        (filePlugin utf maxDbs).Reaches s PluginThreads.Deadlocked := by
    intro s chance req here waits
    have next : (filePlugin utf maxDbs).next s (.message .stopMonitor) =
        some { s with
          stopRequested := s.watcher.isRunning, message := .install .joining chance req } := by
      simp only [filePlugin, messageNext, here]
    exact .step _ next (joining _ chance req rfl waits)
  have replacing : ∀ s chance req, s.message = .install .replacing chance req →
      s.watcher.waitsForConfig = true →
        (filePlugin utf maxDbs).Reaches s PluginThreads.Deadlocked := by
    intro s chance req here waits
    have next : (filePlugin utf maxDbs).next s (.message .replaceSpecs) =
        some { s with
          fplg := installSpecs s.fplg req, message := .install .stopping chance req } := by
      simp only [filePlugin, messageNext, here]
    exact .step _ next (stopping _ chance req rfl waits)
  have wantsSource : ∀ s chance req, s.message = .install .wantsSource chance req →
      s.watcher.waitsForConfig = true →
        (filePlugin utf maxDbs).Reaches s PluginThreads.Deadlocked := by
    intro s chance req here waits
    have free : s.watcher.holdsSource = false := by
      cases hw : s.watcher <;> first | rfl | (rw [hw] at waits; cases waits)
    have next : (filePlugin utf maxDbs).next s (.message .lockSource) =
        some { s with message := .install .replacing chance req } := by
      simp only [filePlugin, messageNext, here, free]
      rfl
    exact .step _ next (replacing _ chance req rfl waits)
  cases hm : s.message with
  | idle => rw [hm] at ahead; cases ahead
  | install phase chance req =>
    cases phase with
    | joining => exact joining s chance req hm waits
    | stopping => exact stopping s chance req hm waits
    | replacing => exact replacing s chance req hm waits
    | wantsSource => exact wantsSource s chance req hm waits
    | changing =>
      obtain ⟨fplg, begun⟩ := Option.isSome_iff_exists.mp (begins chance req hm)
      have next : (filePlugin utf maxDbs).next s (.message .change) =
          some { s with fplg, message := .install .wantsSource chance req } := by
        simp only [filePlugin, messageNext, hm, begun]
        rfl
      exact .step _ next (wantsSource _ chance req rfl waits)
    | wantsConfig | restarting | closing => rw [hm] at ahead; cases ahead

end

/-! ## Two runs -/

/-- The config `a` watches `/d`, and an event for `/d` arrives. -/
def eventArrives : List PluginEvent :=
  wholeRequest (watchRequest [97] .addOrReplace) ++
    [.monitorRuns, .fileEvents [[47, 100]], .nextEvent, .lockSourceShared].map .watcher

theorem matched_d {s : PluginThreads} (here : s.watcher = .matching ⟨[47, 100], [], []⟩)
    (specs : s.fplg.specs.nodes = [⟨[97], [[47, 100]], []⟩]) :
    (filePlugin asciiUtf 100).next s (.watcher .matchName) =
      some { s with watcher := .wantsConfig [97] ⟨[47, 100], [], []⟩ } := by
  have plain : PlainName [47, 100] := by decide
  have found : fileNameMatchesAny [47, 100] s.fplg.specs.nodes = some [97] := by
    simp [specs, fileNameMatchesAny, plainName_matches_self plain]
  simp only [filePlugin, watcherNext, here, found]

/-- The watcher calls `event_received` while there is no request, and a request follows. -/
theorem no_deadlock_eventThenRequest :
    ∃ events s, (filePlugin asciiUtf 100).Run NoCrossing events s ∧ ¬ s.Deadlocked := by
  let afterMatch : List PluginEvent :=
    [.lockConfigShared, .lookUp, .pushJob, .nextEvent].map .watcher ++
      [.request (watchRequest [97] .addOrReplace).1 (watchRequest [97] .addOrReplace).2,
        .lockConfig, .change].map .message
  have reached : ∃ s, (filePlugin asciiUtf 100).after emptyPlugin
        eventArrives = some s ∧
      s.watcher = .matching ⟨[47, 100], [], []⟩ ∧
      s.fplg.specs.nodes = [⟨[97], [[47, 100]], []⟩] ∧ NoCrossing s (.watcher .matchName) ∧
      (filePlugin asciiUtf 100).AllowedAlong NoCrossing
        { s with watcher := .wantsConfig [97] ⟨[47, 100], [], []⟩ } afterMatch ∧
      ∃ t, (filePlugin asciiUtf 100).after
        { s with watcher := .wantsConfig [97] ⟨[47, 100], [], []⟩ } afterMatch = some t :=
    ⟨_, rfl, rfl, rfl, by decide, by decide, _, rfl⟩
  obtain ⟨s, before, here, specs, allowed, allowedAfter, t, after⟩ := reached
  have allowedBefore : (filePlugin asciiUtf 100).AllowedAlong NoCrossing emptyPlugin
      eventArrives := by
    decide
  have run := Machine.run_of_after emptyPlugin_starts allowedBefore before
  have run := (run.step allowed (matched_d here specs)).append allowedAfter after
  exact ⟨_, t, run, no_deadlock run⟩

/-- The watcher calls `event_received` for a file while a request for the same config has
locked `config_guard`. -/
theorem request_and_event_deadlock :
    ∃ events s, (filePlugin asciiUtf 100).Run Machine.Any events s ∧ s.Deadlocked := by
  have reached : ∃ s, (filePlugin asciiUtf 100).after emptyPlugin
        (eventArrives ++
          [.request (watchRequest [97] .addOrReplace).1 (watchRequest [97] .addOrReplace).2,
            .lockConfig].map .message) = some s ∧
      s.watcher = .matching ⟨[47, 100], [], []⟩ ∧
      s.fplg.specs.nodes = [⟨[97], [[47, 100]], []⟩] ∧ s.message.joinAhead = true ∧
      ∀ chance req, s.message = .install .changing chance req →
        (installBegin s.fplg chance req).isSome :=
    ⟨_, rfl, rfl, rfl, rfl, fun _ _ h => by cases h; rfl⟩
  obtain ⟨s, before, here, specs, ahead, begins⟩ := reached
  have run := Machine.reached_of_after emptyPlugin_starts before
  have run := run.step trivial (matched_d here specs)
  have leads : (filePlugin asciiUtf 100).Reaches
      { s with watcher := .wantsConfig [97] ⟨[47, 100], [], []⟩ } PluginThreads.Deadlocked :=
    crossing_deadlocks ahead rfl begins
  obtain ⟨events, t, after, dead⟩ := leads
  exact ⟨_, t, run.append (Machine.allowedAlong_of_forall (fun _ _ _ => trivial) _) after, dead⟩

end Yella
