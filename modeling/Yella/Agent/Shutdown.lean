import Yella.Agent.Model
import Yella.Plugin.Removal

/-!
# Taking the agent down

`yella_destroy_agent` destroys the plugin senders and the router before it stops the plugins,
and a plugin that is stopped sends what its accumulator still holds.
-/

namespace Yella

/-- The step uses nothing that has been destroyed, and loses no message while the plugin is being
stopped. -/
def SendUse.Sound (u : SendUse) : Prop :=
  u.senderLives = true ∧ u.routerLives = true ∧ (u.stopping = true → u.lost = false)

namespace Agent

/-- Nothing waits to be sent. -/
def Flushed (s : Agent) : Prop := s.acc.Empty ∧ s.calling = false

/-- `yella_destroy_agent` destroys the sender or the router next. -/
def DestroysNext (s : Agent) : Prop :=
  (s.main = .destroyingSenders ∧ s.sender ≠ .missing) ∨ s.main = .freeingRouter

instance (s : Agent) : Decidable s.Flushed := inferInstanceAs (Decidable (_ ∧ _))

instance (s : Agent) : Decidable s.DestroysNext := inferInstanceAs (Decidable (_ ∨ _))

theorem use_sound {s : Agent} (h : s.canSend = true) (lost : Bool) : (s.use lost).Sound := by
  obtain ⟨sender, router⟩ := Bool.and_eq_true_iff.mp h
  refine ⟨sender, router, fun stopping => ?_⟩
  simp [use, MainThread.stopsPlugin, router] at stopping

end Agent

/-- Nothing waits when the sender or the router is destroyed, and nothing is added after it. -/
def ShutdownAllowed (w : Surroundings) (s : Agent) : AgentEvent → Prop
  | .main => s.DestroysNext → s.Flushed
  | .runner .element => s.canSend = false → s.plugin.nextMessage w.utf = none
  | _ => True

structure ShutdownInvariant (s : Agent) : Prop where
  sound : ∀ u ∈ s.uses, u.Sound
  flushed : s.canSend = false → s.Flushed

section
variable {w : Surroundings} {s t : Agent}

/-! ## What each thread leaves alone -/

/-- A step of the main thread keeps what is sent and what waits, and destroys only what it
destroys next. -/
structure MainKeeps (s t : Agent) : Prop where
  uses : t.uses = s.uses
  recipients : t.acc.recipients = s.acc.recipients
  calls : t.rtr.calls = s.rtr.calls
  canSend : t.canSend = false ↔ s.canSend = false ∨ s.DestroysNext

theorem mainNext_keeps (h : mainNext w s = some t) : MainKeeps s t := by
  unfold mainNext at h
  cases here : s.main with
  | running | joiningHeartbeat =>
    simp only [here, Option.some.injEq] at h
    subst h
    exact ⟨rfl, rfl, rfl, by simp [Agent.canSend, Agent.DestroysNext, here, MainThread.routerLives]⟩
  | destroyingSenders =>
    simp only [here, Option.some.injEq] at h
    subst h
    refine ⟨rfl, rfl, rfl, ?_⟩
    cases sender : s.sender <;>
      simp [Agent.canSend, Agent.DestroysNext, here, sender, MainThread.routerLives]
  | stoppingRouter =>
    simp only [here] at h
    obtain ⟨rtr, stop, rfl⟩ := Option.map_eq_some_iff.mp h
    cases stop
    exact ⟨rfl, rfl, rfl, by simp [Agent.canSend, Agent.DestroysNext, here, MainThread.routerLives]⟩
  | joiningSocketWorker | joiningSpooler | terminatingContext | joiningWatcher | joiningRunner
  | joiningAccumulator =>
    simp only [here] at h
    split at h <;> cases h
    exact ⟨rfl, rfl, rfl, by simp [Agent.canSend, Agent.DestroysNext, here, MainThread.routerLives]⟩
  | freeingRouter | stoppingMonitor | stoppingQueue | destroyingPool =>
    simp only [here, Option.some.injEq] at h
    subst h
    exact ⟨rfl, rfl, rfl, by simp [Agent.canSend, Agent.DestroysNext, here, MainThread.routerLives]⟩
  | stoppingAccumulator =>
    simp only [here] at h
    obtain ⟨⟨acc, parcel⟩, stop, rfl⟩ := Option.map_eq_some_iff.mp h
    cases accumulatorNext_step stop
    exact ⟨rfl, rfl, rfl, by simp [Agent.canSend, Agent.DestroysNext, here, MainThread.routerLives]⟩
  | done =>
    simp only [here] at h
    cases h

/-- A step of a call is possible only in a call. -/
theorem calling_of_next {e : RouterEvent} {rtr : Router} {i : Nat}
    (h : routerNext w.lo w.ready s.rtr e = some rtr)
    (step : e = .readState i ∨ e = .choose i ∨ (∃ allow, e = .push i allow) ∨
      ∃ failing, e = .send i failing) : s.rtr.calls i ≠ .idle := by
  intro idle
  rcases step with rfl | rfl | ⟨allow, rfl⟩ | ⟨failing, rfl⟩ <;> simp [routerNext, idle] at h

/-- A step of the runner, with the message that an element adds. -/
theorem agentRunnerNext_cases {e : RunnerEvent} (h : agentRunnerNext w s e = some t) :
    ∃ plugin, runnerNext w.utf w.maxDbs s.plugin e = some plugin ∧
      (e = .popJob → s.main.queueStops = false) ∧
      (((e = .element → s.plugin.nextMessage w.utf = none) ∧ t = { s with plugin }) ∨
        ∃ msg, e = .element ∧ s.plugin.nextMessage w.utf = some msg ∧
          AccumulatorStep w.utf w.bufferSize w.maxMsgSz s.acc (.add msg) (s.acc.pushed msg) none ∧
          t = { s with plugin, acc := s.acc.pushed msg }) := by
  obtain ⟨plugin, next, h⟩ := Option.bind_eq_some_iff.mp h
  refine ⟨plugin, next, ?_⟩
  cases e with
  | popJob =>
    simp only at h
    split at h
    · cases h
    · rename_i goesOn
      cases h
      exact ⟨fun _ => Bool.eq_false_iff.mpr goesOn, .inl ⟨fun same => (by cases same), rfl⟩⟩
  | openDb | endJob =>
    cases h
    exact ⟨fun same => (by cases same), .inl ⟨fun same => (by cases same), rfl⟩⟩
  | element =>
    obtain ⟨acc, added, h⟩ := Option.bind_eq_some_iff.mp h
    cases h
    refine ⟨fun same => (by cases same), ?_⟩
    cases adds : s.plugin.nextMessage w.utf with
    | none =>
      simp only [addElementMessage, adds, Option.some.injEq] at added
      exact .inl ⟨fun _ => rfl, by rw [added]⟩
    | some msg =>
      simp only [addElementMessage, adds] at added
      obtain ⟨⟨acc', parcel⟩, add, rfl⟩ := Option.map_eq_some_iff.mp added
      have step := accumulatorNext_step add
      cases step
      exact .inr ⟨msg, rfl, rfl, accumulatorNext_step add, rfl⟩

/-- What the thread of the accumulator does outside of a call. -/
theorem agentAccumulatorNext_cases {e : AccumulatorEvent}
    (h : agentAccumulatorNext w s e = some t) :
    s.calling = false ∧ (∀ msg, e ≠ .add msg) ∧ e ≠ .stop ∧ ∃ acc parcel,
      AccumulatorStep w.utf w.bufferSize w.maxMsgSz s.acc e acc parcel ∧
      ((parcel = none ∧ t = { s with acc }) ∨
        ∃ p, parcel = some p ∧ sendPluginMessage w { s with acc } p = some t) := by
  unfold agentAccumulatorNext at h
  split at h
  · cases h
  · cases h
  · rename_i notAdd notStop
    split at h
    · cases h
    · rename_i idle
      obtain ⟨⟨acc, parcel⟩, next, h⟩ := Option.bind_eq_some_iff.mp h
      refine ⟨by simpa using idle, notAdd, notStop, acc, parcel, accumulatorNext_step next, ?_⟩
      cases parcel with
      | none =>
        cases h
        exact .inl ⟨rfl, rfl⟩
      | some p => exact .inr ⟨p, rfl, h⟩

/-- A step of the router, in a call of the accumulator's thread or outside of it. -/
theorem agentRouterNext_cases {e : RouterEvent} (h : agentRouterNext w s e = some t) :
    ∃ rtr, (rtr.calls = s.rtr.calls ∧ t = { s with rtr }) ∨
      (s.calling = true ∧ ∃ lost, t = { s with rtr, uses := s.uses ++ [s.use lost] }) := by
  cases e with
  | monitor | outgoing =>
    simp only [agentRouterNext] at h
    split at h
    · obtain ⟨rtr, next, rfl⟩ := Option.map_eq_some_iff.mp h
      refine ⟨rtr, .inl ⟨?_, rfl⟩⟩
      cases routerNext_step next
      rfl
    · cases h
  | wake | check | pop | sendPopped =>
    obtain ⟨rtr, next, rfl⟩ := Option.map_eq_some_iff.mp h
    refine ⟨rtr, .inl ⟨?_, rfl⟩⟩
    cases routerNext_step next <;> rfl
  | readState i | choose i | push i | send i =>
    simp only [agentRouterNext] at h
    split at h
    · rename_i own
      subst own
      obtain ⟨rtr, next, rfl⟩ := Option.map_eq_some_iff.mp h
      have calling : s.rtr.calls accumulatorSender ≠ .idle := calling_of_next next (by simp)
      exact ⟨rtr, .inr ⟨bne_iff_ne.mpr calling, _, rfl⟩⟩
    · cases h
  | call | stop | restart => cases h

/-! ## Each step keeps the invariant -/

theorem ShutdownInvariant.of_eq (inv : ShutdownInvariant s) (uses : t.uses = s.uses)
    (recipients : t.acc.recipients = s.acc.recipients) (calls : t.rtr.calls = s.rtr.calls)
    (canSend : t.canSend = false → s.canSend = false ∨ s.Flushed) : ShutdownInvariant t := by
  refine ⟨uses ▸ inv.sound, fun cannot => ?_⟩
  obtain ⟨empty, idle⟩ := (canSend cannot).elim inv.flushed id
  exact ⟨by rwa [Accumulator.Empty, recipients], by rwa [Agent.calling, calls]⟩

theorem main_shutdown (inv : ShutdownInvariant s) (allowed : ShutdownAllowed w s .main)
    (h : mainNext w s = some t) : ShutdownInvariant t := by
  obtain ⟨uses, recipients, calls, canSend⟩ := mainNext_keeps h
  exact inv.of_eq uses recipients calls fun cannot => (canSend.mp cannot).imp id allowed

theorem runner_shutdown (inv : ShutdownInvariant s) {e : RunnerEvent}
    (allowed : ShutdownAllowed w s (.runner e)) (h : agentRunnerNext w s e = some t) :
    ShutdownInvariant t := by
  obtain ⟨plugin, -, -, ⟨-, rfl⟩ | ⟨msg, rfl, next, -, rfl⟩⟩ := agentRunnerNext_cases h
  · exact inv.of_eq rfl rfl rfl .inl
  · refine ⟨inv.sound, fun cannot => ?_⟩
    rw [allowed cannot] at next
    cases next

theorem accumulator_shutdown (inv : ShutdownInvariant s) {e : AccumulatorEvent}
    (h : agentAccumulatorNext w s e = some t) : ShutdownInvariant t := by
  obtain ⟨idle, notAdd, -, acc, parcel, step, result⟩ := agentAccumulatorNext_cases h
  by_cases can : s.canSend = true
  · have lives : { s with acc }.canSend = true := can
    obtain ⟨rfl, rfl⟩ | ⟨p, rfl, send⟩ := result
    · refine ⟨inv.sound, fun cannot => ?_⟩
      rw [lives] at cannot
      cases cannot
    · simp only [sendPluginMessage, lives, if_true] at send
      obtain ⟨rtr, -, rfl⟩ := Option.map_eq_some_iff.mp send
      refine ⟨?_, fun cannot => ?_⟩
      · intro u hu
        obtain hu | hu := List.mem_append.mp hu
        · exact inv.sound u hu
        · rw [List.mem_singleton.mp hu]
          exact Agent.use_sound lives false
      · have router := (Bool.and_eq_true_iff.mp can).2
        simp [Agent.canSend, router] at cannot
  · -- without a sender or a router there is nothing to be sent
    have cannot := Bool.eq_false_iff.mpr can
    obtain ⟨empty, rfl⟩ := step.empty (inv.flushed cannot).1 notAdd
    obtain ⟨-, rfl⟩ | ⟨p, some, -⟩ := result
    · exact ⟨inv.sound, fun _ => ⟨empty, idle⟩⟩
    · cases some

theorem router_shutdown (inv : ShutdownInvariant s) {e : RouterEvent}
    (h : agentRouterNext w s e = some t) : ShutdownInvariant t := by
  obtain ⟨rtr, ⟨calls, rfl⟩ | ⟨calling, lost, rfl⟩⟩ := agentRouterNext_cases h
  · exact inv.of_eq rfl rfl calls .inl
  · have can : s.canSend = true := by
      by_contra cannot
      have := (inv.flushed (Bool.eq_false_iff.mpr cannot)).2
      rw [calling] at this
      cases this
    refine ⟨?_, fun cannot => ?_⟩
    · intro u hu
      obtain hu | hu := List.mem_append.mp hu
      · exact inv.sound u hu
      · rw [List.mem_singleton.mp hu]
        exact Agent.use_sound can _
    · have same : s.canSend = false := cannot
      rw [can] at same
      cases same

theorem next_shutdown (inv : ShutdownInvariant s) {e : AgentEvent}
    (allowed : ShutdownAllowed w s e) (h : agentNext w s e = some t) : ShutdownInvariant t := by
  cases e with
  | main => exact main_shutdown inv allowed h
  | message e =>
    simp only [agentNext] at h
    split at h
    · obtain ⟨plugin, -, rfl⟩ := Option.map_eq_some_iff.mp h
      exact inv.of_eq rfl rfl rfl .inl
    · cases h
  | watcher e =>
    obtain ⟨plugin, -, rfl⟩ := Option.map_eq_some_iff.mp h
    exact inv.of_eq rfl rfl rfl .inl
  | runner e => exact runner_shutdown inv allowed h
  | accumulator e => exact accumulator_shutdown inv h
  | router e => exact router_shutdown inv h

theorem run_shutdown {events : List AgentEvent}
    (run : (agentMachine w).Run (ShutdownAllowed w) events s) : ShutdownInvariant s := by
  apply run.invariant ShutdownInvariant
  · rintro s ⟨plugin, rtr, -, -, rfl⟩
    exact ⟨fun _ hu => (by cases hu), fun cannot => (by cases cannot)⟩
  · exact fun s e t inv allowed next => next_shutdown inv allowed next

/-- Where nothing waits when the sender and the router are destroyed, and nothing is added after
it, no step of `send_plugin_message` uses what has been destroyed, and none loses a message while
the plugin is being stopped. -/
theorem shutdown_sound {events : List AgentEvent}
    (run : (agentMachine w).Run (ShutdownAllowed w) events s) : ∀ u ∈ s.uses, u.Sound :=
  (run_shutdown run).sound

end

/-! ## Two runs -/

instance (w : Surroundings) (s : Agent) (e : AgentEvent) : Decidable (ShutdownAllowed w s e) := by
  unfold ShutdownAllowed
  split <;> infer_instance

def smallAgent : Surroundings where
  utf := asciiUtf
  maxDbs := 100
  bufferSize := List.length
  maxMsgSz := 100
  pack _ := []
  lo := inCreationOrder
  ready := false

/-- The databases on disk have the file `/d`, which is gone. -/
def smallStart (sp : Spool) : Agent where
  main := .running
  plugin := .started .start .absent fun _ => ⟨fun n => if n = [47, 100] then some none else none⟩
  acc := createAccumulator
  sender := .missing
  rtr := .created sp
  uses := []

def smallAfter (events : List AgentEvent) : Option Agent :=
  (createSpool inCreationOrder tenPartitions Disk.empty 0).join.bind fun sp =>
    (agentMachine smallAgent).after (smallStart sp) events

theorem exists_agent_run {Allowed : Agent → AgentEvent → Prop} [∀ s e, Decidable (Allowed s e)]
    {events : List AgentEvent} {p : Agent → Bool}
    (allowed : (createSpool inCreationOrder tenPartitions Disk.empty 0).join.all fun sp =>
      (agentMachine smallAgent).AllowedAlong Allowed (smallStart sp) events)
    (h : (smallAfter events).any p = true) :
    ∃ s, (agentMachine smallAgent).Run Allowed events s ∧ p s = true := by
  obtain ⟨s, after, hs⟩ := (Option.any_eq_true _ _).mp h
  obtain ⟨sp, opened, after⟩ := Option.bind_eq_some_iff.mp after
  rw [opened, Option.all_some, decide_eq_true_eq] at allowed
  have starts : (agentMachine smallAgent).start (smallStart sp) :=
    ⟨_, _, ⟨false, .missing, .start, .absent, _, rfl, List.nodup_nil, rfl, rfl⟩,
      ⟨_, _, _, _, Option.join_eq_some_iff.mp opened, rfl⟩, rfl⟩
  exact ⟨s, Machine.run_of_after starts allowed after, hs⟩

def PluginEvent.inAgent : PluginEvent → AgentEvent
  | .message e => .message e
  | .watcher e => .watcher e
  | .runner e => .runner e

/-- A config is added, and its job adds a message; the watcher takes these steps for the
request. -/
def addsMessage (name : List UInt8) (stops : List WatcherEvent) : List AgentEvent :=
  let request := (wholeRequest (watchRequest name .addOrReplace)).map PluginEvent.inAgent
  request.take 6 ++ stops.map .watcher ++ request.drop 6 ++
    [.popJob, .openDb noFiles none true, .element, .endJob].map .runner ++
    [.watcher .monitorRuns]

/-- The message for the config `a` goes to the spool. -/
def sendsMessage : List AgentEvent :=
  [.accumulator (.wake true true), .accumulator .nextRecipient, .router (.readState 0),
    .router (.choose 0), .router (.push 0 .full), .accumulator .unlock]

/-- `yella_destroy_agent`, up to the last loop of the accumulator. -/
def takesDown : List AgentEvent :=
  List.replicate 5 .main ++ [.router .wake, .router .check] ++ List.replicate 4 .main ++
    [.watcher .monitorEnds] ++ List.replicate 5 .main ++
    [.accumulator (.wake false false), .accumulator .lockLast, .accumulator .nextRecipient]

/-- Nothing waits any more when the agent is taken down. -/
theorem shutdown_sound_sentBefore :
    ∃ events s, (agentMachine smallAgent).Run (ShutdownAllowed smallAgent) events s ∧
      s.main = .done ∧ s.rtr.accepted.length = 1 ∧ ∀ u ∈ s.uses, u.Sound := by
  obtain ⟨s, run, h⟩ := @exists_agent_run (ShutdownAllowed smallAgent) _
    (addsMessage [97] [] ++ sendsMessage ++ takesDown ++ [.accumulator .unlock, .main])
    (fun s => s.main = .done ∧ s.rtr.accepted.length = 1) (by decide +kernel) (by decide +kernel)
  obtain ⟨done, accepted⟩ := of_decide_eq_true h
  exact ⟨_, s, run, done, accepted, shutdown_sound run⟩

/-- A message for the config `b` waits, and is lost with the sender and the router gone. -/
theorem waiting_message_lost :
    (∃ events s, (agentMachine smallAgent).Run Machine.Any events s ∧
      ⟨false, false, true, true⟩ ∈ s.uses) ∧
    ¬ ∀ w events s, (agentMachine w).Run Machine.Any events s → ∀ u ∈ s.uses, u.Sound := by
  obtain ⟨s, run, h⟩ := @exists_agent_run (fun _ _ => True) _
    (addsMessage [97] [] ++ sendsMessage ++ addsMessage [98] [.monitorEnds] ++ takesDown)
    (fun s => ⟨false, false, true, true⟩ ∈ s.uses) (by decide +kernel) (by decide +kernel)
  have lost := of_decide_eq_true h
  refine ⟨⟨_, s, run, lost⟩, fun all => ?_⟩
  cases (all smallAgent _ s run _ lost).1

end Yella
