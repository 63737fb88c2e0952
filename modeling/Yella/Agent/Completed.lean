import Yella.Agent.Shutdown

/-!
# When the agent has been taken down

The thread of the accumulator ends with nothing to send. So what waits when the sender or the
router is destroyed, or is added after it, has been sent without them by then.
-/

namespace Yella

/-- The job runner has been joined. -/
def MainThread.runnerJoined : MainThread → Bool
  | destroyingPool | stoppingAccumulator | joiningAccumulator | done => true
  | _ => false

structure CompletedInvariant (s : Agent) : Prop where
  served : s.acc.Served
  left : s.acc.worker.left = true → s.acc.shouldStop = true
  stops : s.acc.shouldStop = true → s.main.runnerJoined = true
  joined : s.main.runnerJoined = true → s.plugin.runner = .idle
  quiet : s.acc.worker = .ended → s.calling = false
  done : s.main = .done → s.acc.worker = .ended

/-- Something has been or will be sent without a sender or a router. -/
def Doomed (s : Agent) : Prop :=
  (∃ u ∈ s.uses, ¬ u.Sound) ∨ (s.canSend = false ∧ ¬ s.Flushed)

section
variable {w : Surroundings} {s t : Agent}

theorem use_unsound (h : s.canSend = false) (lost : Bool) : ¬ (s.use lost).Sound := by
  rintro ⟨sender, router, -⟩
  have : s.canSend = true := Bool.and_eq_true_iff.mpr ⟨sender, router⟩
  rw [h] at this
  cases this

/-! ## What is doomed stays so -/

theorem Doomed.of_eq (before : Doomed s) (uses : t.uses = s.uses)
    (canSend : s.canSend = false → t.canSend = false)
    (flushed : t.Flushed → s.Flushed) : Doomed t := by
  obtain ⟨u, hu, unsound⟩ | ⟨cannot, waits⟩ := before
  · exact .inl ⟨u, uses ▸ hu, unsound⟩
  · exact .inr ⟨canSend cannot, mt flushed waits⟩

/-- With a use added, that one is unsound if none was before. -/
theorem Doomed.of_use (before : Doomed s) {lost : Bool}
    (uses : t.uses = s.uses ++ [s.use lost]) : Doomed t := by
  obtain ⟨u, hu, unsound⟩ | ⟨cannot, -⟩ := before
  · exact .inl ⟨u, by simp [uses, hu], unsound⟩
  · exact .inl ⟨s.use lost, by simp [uses], use_unsound cannot lost⟩

theorem MainKeeps.flushed (keeps : MainKeeps s t) : t.Flushed ↔ s.Flushed := by
  simp only [Agent.Flushed, Agent.calling, Accumulator.Empty, keeps.recipients, keeps.calls]

theorem runner_doomed {e : RunnerEvent} (before : Doomed s) (h : agentRunnerNext w s e = some t) :
    Doomed t := by
  obtain ⟨plugin, -, -, ⟨-, rfl⟩ | ⟨msg, rfl, -, -, rfl⟩⟩ := agentRunnerNext_cases h
  · exact before
  · refine before.of_eq rfl id fun flushed => ?_
    exact absurd flushed.1 (Accumulator.pushed_not_empty s.acc msg)

theorem accumulator_doomed {e : AccumulatorEvent} (before : Doomed s)
    (h : agentAccumulatorNext w s e = some t) : Doomed t := by
  obtain ⟨idle, notAdd, -, acc, parcel, step, result⟩ := agentAccumulatorNext_cases h
  obtain ⟨rfl, rfl⟩ | ⟨p, rfl, send⟩ := result
  · refine before.of_eq rfl id fun flushed => ⟨?_, idle⟩
    have same := step.recipients notAdd
    rw [Accumulator.Empty, ← same]
    exact flushed.1
  · unfold sendPluginMessage at send
    split at send
    · obtain ⟨rtr, -, rfl⟩ := Option.map_eq_some_iff.mp send
      exact before.of_use rfl
    · cases send
      exact before.of_use rfl

theorem router_doomed {e : RouterEvent} (before : Doomed s)
    (h : agentRouterNext w s e = some t) : Doomed t := by
  obtain ⟨rtr, ⟨calls, rfl⟩ | ⟨calling, lost, rfl⟩⟩ := agentRouterNext_cases h
  · refine before.of_eq rfl id fun flushed => ⟨flushed.1, ?_⟩
    rw [Agent.calling, ← calls]
    exact flushed.2
  · exact before.of_use rfl

theorem next_doomed {e : AgentEvent} (before : Doomed s) (h : agentNext w s e = some t) :
    Doomed t := by
  cases e with
  | main =>
    have keeps := mainNext_keeps h
    exact before.of_eq keeps.uses (fun cannot => keeps.canSend.mpr (.inl cannot)) keeps.flushed.mp
  | message e =>
    simp only [agentNext] at h
    split at h
    · obtain ⟨plugin, -, rfl⟩ := Option.map_eq_some_iff.mp h
      exact before
    · cases h
  | watcher e =>
    obtain ⟨plugin, -, rfl⟩ := Option.map_eq_some_iff.mp h
    exact before
  | runner e => exact runner_doomed before h
  | accumulator e => exact accumulator_doomed before h
  | router e => exact router_doomed before h

/-- A step that the condition excludes leaves something to be sent without a sender or a
router. -/
theorem doomed_of_not_allowed {e : AgentEvent} (excluded : ¬ ShutdownAllowed w s e)
    (h : agentNext w s e = some t) : Doomed t := by
  cases e with
  | main =>
    obtain ⟨destroys, waits⟩ := Classical.not_imp.mp excluded
    have keeps := mainNext_keeps h
    exact .inr ⟨keeps.canSend.mpr (.inr destroys), mt keeps.flushed.mp waits⟩
  | runner e =>
    cases e with
    | element =>
      obtain ⟨cannot, adds⟩ := Classical.not_imp.mp excluded
      obtain ⟨plugin, -, -, ⟨none, -⟩ | ⟨msg, -, -, -, rfl⟩⟩ := agentRunnerNext_cases h
      · exact absurd (none rfl) adds
      · exact .inr ⟨cannot, fun flushed => Accumulator.pushed_not_empty s.acc msg flushed.1⟩
    | popJob | openDb | endJob => exact absurd trivial excluded
  | message | watcher | accumulator | router => exact absurd trivial excluded

/-! ## Nothing is left at the end -/

/-- Until the runner is joined the accumulator goes on as it likes. -/
theorem CompletedInvariant.early (inv : CompletedInvariant s) (acc : t.acc = s.acc)
    (calls : t.rtr.calls = s.rtr.calls) (before : s.main.runnerJoined = false)
    (after : t.main.runnerJoined = false) : CompletedInvariant t where
  served := acc ▸ inv.served
  left := acc ▸ inv.left
  stops stop := by
    have := inv.stops (acc ▸ stop)
    rw [before] at this
    cases this
  joined joined := by
    rw [after] at joined
    cases joined
  quiet ended := by
    rw [Agent.calling, calls]
    exact inv.quiet (acc ▸ ended)
  done done := by
    rw [done] at after
    cases after

theorem main_completed (inv : CompletedInvariant s) (h : mainNext w s = some t) :
    CompletedInvariant t := by
  unfold mainNext at h
  cases here : s.main with
  | running | joiningHeartbeat | destroyingSenders | freeingRouter | stoppingMonitor
  | stoppingQueue =>
    simp only [here, Option.some.injEq] at h
    subst h
    exact inv.early rfl rfl (by rw [here]; rfl) rfl
  | stoppingRouter =>
    simp only [here] at h
    obtain ⟨rtr, stop, rfl⟩ := Option.map_eq_some_iff.mp h
    cases stop
    exact inv.early rfl rfl (by rw [here]; rfl) rfl
  | joiningSocketWorker | joiningSpooler | terminatingContext | joiningWatcher =>
    simp only [here] at h
    split at h <;> cases h
    exact inv.early rfl rfl (by rw [here]; rfl) rfl
  | joiningRunner =>
    simp only [here] at h
    split at h <;> cases h
    rename_i idle
    exact ⟨inv.served, inv.left, fun _ => rfl, fun _ => idle, inv.quiet, fun done => by cases done⟩
  | destroyingPool =>
    simp only [here, Option.some.injEq] at h
    subst h
    have idle := inv.joined (by rw [here]; rfl)
    exact ⟨inv.served, inv.left, fun _ => rfl, fun _ => idle, inv.quiet, fun done => by cases done⟩
  | stoppingAccumulator =>
    simp only [here] at h
    obtain ⟨⟨acc, parcel⟩, stop, rfl⟩ := Option.map_eq_some_iff.mp h
    cases accumulatorNext_step stop
    have idle := inv.joined (by rw [here]; rfl)
    exact ⟨inv.served, fun _ => rfl, fun _ => rfl, fun _ => idle, inv.quiet,
      fun done => by cases done⟩
  | joiningAccumulator =>
    simp only [here] at h
    split at h <;> cases h
    rename_i ended
    have idle := inv.joined (by rw [here]; rfl)
    exact ⟨inv.served, inv.left, fun _ => rfl, fun _ => idle, inv.quiet, fun _ => ended⟩
  | done =>
    simp only [here] at h
    cases h

theorem runner_completed {e : RunnerEvent} (inv : CompletedInvariant s)
    (h : agentRunnerNext w s e = some t) : CompletedInvariant t := by
  obtain ⟨plugin, next, goesOn, result⟩ := agentRunnerNext_cases h
  have before : s.main.runnerJoined = false := by
    rw [Bool.eq_false_iff]
    intro joined
    -- the runner takes no job any more
    have idle := inv.joined joined
    cases e with
    | popJob =>
      have stops : s.main.queueStops = true := by
        cases here : s.main <;> rw [here] at joined <;> first | rfl | cases joined
      rw [goesOn rfl] at stops
      cases stops
    | openDb | element | endJob =>
      simp only [runnerNext, idle] at next
      cases next
  obtain ⟨-, rfl⟩ | ⟨msg, -, -, step, rfl⟩ := result
  · exact inv.early rfl rfl before before
  · have alive : s.acc.worker ≠ .ended := by
      intro ended
      have := inv.stops (inv.left (by rw [ended]; rfl))
      rw [before] at this
      cases this
    refine ⟨step.served inv.served fun _ _ => alive, inv.left, inv.stops, fun joined => ?_,
      inv.quiet, inv.done⟩
    exact absurd (before.symm.trans joined) Bool.false_ne_true

theorem accumulator_completed {e : AccumulatorEvent} (inv : CompletedInvariant s)
    (h : agentAccumulatorNext w s e = some t) : CompletedInvariant t := by
  obtain ⟨idle, notAdd, notStop, acc, parcel, step, result⟩ := agentAccumulatorNext_cases h
  have served := step.served inv.served fun msg same => absurd same (notAdd msg)
  have left := step.left inv.left
  have stops : acc.shouldStop = s.acc.shouldStop := step.shouldStop notStop
  have alive := step.alive notAdd notStop
  have notDone : s.main ≠ .done := fun done => alive (inv.done done)
  obtain ⟨rfl, rfl⟩ | ⟨p, rfl, send⟩ := result
  · exact ⟨served, left, fun stop => inv.stops (stops ▸ stop), inv.joined, fun _ => idle,
      fun done => absurd done notDone⟩
  · have sending : acc.worker ≠ .ended := step.sending
    unfold sendPluginMessage at send
    split at send
    · obtain ⟨rtr, -, rfl⟩ := Option.map_eq_some_iff.mp send
      exact ⟨served, left, fun stop => inv.stops (stops ▸ stop), inv.joined,
        fun ended => absurd ended sending, fun done => absurd done notDone⟩
    · cases send
      exact ⟨served, left, fun stop => inv.stops (stops ▸ stop), inv.joined,
        fun ended => absurd ended sending, fun done => absurd done notDone⟩

theorem CompletedInvariant.of_router (inv : CompletedInvariant s) {rtr : Router}
    {uses : List SendUse} (calls : s.calling = false → { s with rtr, uses }.calling = false) :
    CompletedInvariant { s with rtr, uses } :=
  ⟨inv.served, inv.left, inv.stops, inv.joined, fun ended => calls (inv.quiet ended), inv.done⟩

theorem router_completed {e : RouterEvent} (inv : CompletedInvariant s)
    (h : agentRouterNext w s e = some t) : CompletedInvariant t := by
  obtain ⟨rtr, ⟨calls, rfl⟩ | ⟨calling, lost, rfl⟩⟩ := agentRouterNext_cases h
  · apply inv.of_router
    intro idle
    rwa [Agent.calling, calls]
  · apply inv.of_router
    intro idle
    rw [calling] at idle
    cases idle

theorem next_completed {e : AgentEvent} (inv : CompletedInvariant s)
    (h : agentNext w s e = some t) : CompletedInvariant t := by
  cases e with
  | main => exact main_completed inv h
  | message e =>
    simp only [agentNext] at h
    split at h
    · obtain ⟨plugin, next, rfl⟩ := Option.map_eq_some_iff.mp h
      have runner : plugin.runner = s.plugin.runner := by cases messageNext_step next <;> rfl
      exact ⟨inv.served, inv.left, inv.stops, fun joined => runner ▸ inv.joined joined, inv.quiet,
        inv.done⟩
    · cases h
  | watcher e =>
    obtain ⟨plugin, next, rfl⟩ := Option.map_eq_some_iff.mp h
    have runner : plugin.runner = s.plugin.runner := by cases watcherNext_step next <;> rfl
    exact ⟨inv.served, inv.left, inv.stops, fun joined => runner ▸ inv.joined joined, inv.quiet,
      inv.done⟩
  | runner e => exact runner_completed inv h
  | accumulator e => exact accumulator_completed inv h
  | router e => exact router_completed inv h

theorem run_completed {Allowed : Agent → AgentEvent → Prop} {events : List AgentEvent}
    (run : (agentMachine w).Run Allowed events s) : CompletedInvariant s := by
  apply run.invariant CompletedInvariant
  · rintro s ⟨plugin, rtr, -, ⟨_, _, _, sp, -, rfl⟩, rfl⟩
    exact ⟨fun _ hnode => (by cases hnode), fun left => (by cases left),
      fun stop => (by cases stop), fun joined => (by cases joined), fun _ => rfl,
      fun done => (by cases done)⟩
  · exact fun s e t inv _ next => next_completed inv next

/-- When the agent has been taken down nothing is left to be sent. -/
theorem flushed_of_done (inv : CompletedInvariant s) (done : s.main = .done) : s.Flushed :=
  have ended := inv.done done
  ⟨inv.served.empty ended, inv.quiet ended⟩

/-- Of a run that has taken the agent down, the condition holds at every step if no step of
`send_plugin_message` was unsound. -/
theorem completed_sound_iff {events : List AgentEvent}
    (run : (agentMachine w).Run Machine.Any events s) (done : s.main = .done) :
    (∀ u ∈ s.uses, u.Sound) ↔ (agentMachine w).Run (ShutdownAllowed w) events s := by
  constructor
  · intro sound
    have kept : ¬ Doomed s := by
      rintro (⟨u, hu, unsound⟩ | ⟨-, waits⟩)
      · exact unsound (sound u hu)
      · exact waits (flushed_of_done (run_completed run) done)
    clear sound done
    induction run with
    | start starts => exact .start starts
    | @step events s t e _ _ next ih =>
      have before : ¬ Doomed s := fun doomed => kept (next_doomed doomed next)
      refine .step (ih before) ?_ next
      by_contra excluded
      exact kept (doomed_of_not_allowed excluded next)
  · exact fun run => (run_shutdown run).sound

end

end Yella
