import Yella.Agent.Termination

/-!
# Which signals do harm

`main` destroys the event when it is through its wait, and the thread in `sigwait` goes on calling
the handler with it. What that comes to depends on the signals that have been taken.
-/

namespace Yella

/-- The termination signals that have been taken -/
def taken (events : List ProcessEvent) : List Signal :=
  events.filterMap fun
    | .take sig => if sig ∈ termSignals then some sig else none
    | _ => none

/-- `yella_signal_event` has not set the flag in the handler that runs. -/
def Process.Handling (s : Process) : Prop :=
  (∃ handler udata, s.sigwait = .calling handler udata) ∨
    s.event.place .sigwait = .locksToOpen ∨ s.event.place .sigwait = .opens

/-- `main` is at the end of its wait or past it. -/
def Process.Past (s : Process) : Prop :=
  s.event.place .main = .leaves ∨ s.main = .waiting ∧ s.event.place .main = .outside ∨
    s.main.summoned = true

/-- The thread in `sigwait` is done with the event. -/
def Process.Quiet (s : Process) : Prop :=
  s.event.place .sigwait = .outside ∧ ∀ handler udata, s.sigwait ≠ .calling handler udata

/-- What the events so far say about a state -/
structure ProcessHistory (events : List ProcessEvent) (s : Process) : Prop where
  first : s.event.isOpen = true ∨ s.sigwait ≠ .waiting → 1 ≤ (taken events).length
  second : s.event.isOpen = true → s.Handling → 2 ≤ (taken events).length
  past : s.Past → 2 ≤ (taken events).length ∨ s.Quiet
  refused : s.main = .destroyingEvent false ∨ s.main = .returning false →
    .createAgent false ∈ events
  broken : s.outcome = some .brokenEvent →
    .createAgent false ∈ events ∨ 2 ≤ (taken events).length
  set : .setUdata ∈ events → s.udata = true
  calls : ∀ handler udata, s.sigwait = .calling handler udata →
    ∃ pre sig post, events = pre ++ .take sig :: post ∧ sig ∈ termSignals ∧
      (.setUdata ∈ pre → ¬ Stale handler udata)
  early : s.outcome = some .defaultExit ∨ s.outcome = some .nullEvent →
    ∃ pre sig post, events = pre ++ .take sig :: post ∧ sig ∈ termSignals ∧ .setUdata ∉ pre

section
variable {s t : Process} {e : ProcessEvent} {events : List ProcessEvent}

theorem taken_le (events : List ProcessEvent) (e : ProcessEvent) :
    (taken events).length ≤ (taken (events ++ [e])).length := by
  unfold taken
  rw [List.filterMap_append, List.length_append]
  exact Nat.le_add_right _ _

theorem taken_term {sig : Signal} (ends : sig ∈ termSignals) :
    (taken (events ++ [.take sig])).length = (taken events).length + 1 := by
  simp [taken, ends]

theorem processHistory_start : ProcessHistory [] .start where
  first some' := by rcases some' with isOpen | other <;> [cases isOpen; exact absurd rfl other]
  second isOpen := by cases isOpen
  past past := by
    rcases past with leaves | ⟨waiting, -⟩ | summoned
    · cases leaves
    · cases waiting
    · cases summoned
  refused main := by rcases main with main | main <;> cases main
  broken outcome := by cases outcome
  set set := by cases set
  calls _ _ calling := by cases calling
  early outcome := by rcases outcome with outcome | outcome <;> cases outcome

theorem ProcessInvariant.open_of_past (inv : ProcessInvariant s) (past : s.Past) :
    s.event.isOpen = true := by
  rcases past with leaves | ⟨waiting, outside⟩ | summoned
  · exact inv.gate.opened .main (by rw [leaves]; rfl)
  · exact inv.through waiting outside
  · exact inv.summoned summoned

/-- A step in which no handler begins. -/
theorem ProcessHistory.frame (hist : ProcessHistory events s) (e : ProcessEvent)
    (first : t.event.isOpen = true ∨ t.sigwait ≠ .waiting →
      s.event.isOpen = true ∨ s.sigwait ≠ .waiting)
    (second : t.event.isOpen = true → t.Handling → s.event.isOpen = true ∧ s.Handling)
    (past : t.Past → s.event.isOpen = true ∧ s.Handling ∨ t.Quiet ∨
      s.Past ∧ (s.Quiet → t.Quiet))
    (refused : t.main = .destroyingEvent false ∨ t.main = .returning false →
      s.main = .destroyingEvent false ∨ s.main = .returning false ∨ e = .createAgent false)
    (udata : s.udata = true → t.udata = true) (set : e = .setUdata → t.udata = true)
    (calls : ∀ handler udata, t.sigwait = .calling handler udata →
      ∃ handler' udata', s.sigwait = .calling handler' udata' ∧
        (s.udata = true → ¬ Stale handler' udata' → ¬ Stale handler udata))
    (outcome : t.outcome = s.outcome) : ProcessHistory (events ++ [e]) t := by
  have more := taken_le events e
  constructor
  · intro some'
    exact Nat.le_trans (hist.first (first some')) more
  · intro opened handles
    obtain ⟨isOpen, handling⟩ := second opened handles
    exact Nat.le_trans (hist.second isOpen handling) more
  · intro now
    rcases past now with ⟨isOpen, handling⟩ | quiet | ⟨before, quiet⟩
    · exact .inl (Nat.le_trans (hist.second isOpen handling) more)
    · exact .inr quiet
    · exact (hist.past before).imp (fun two => Nat.le_trans two more) quiet
  · intro main
    rw [List.mem_append, List.mem_singleton]
    rcases refused main with main | main | rfl
    · exact .inl (hist.refused (.inl main))
    · exact .inl (hist.refused (.inr main))
    · exact .inr rfl
  · intro broken
    rw [List.mem_append]
    exact (hist.broken (outcome ▸ broken)).imp .inl fun two => Nat.le_trans two more
  · intro there
    rw [List.mem_append, List.mem_singleton] at there
    rcases there with before | now
    · exact udata (hist.set before)
    · exact set now.symm
  · intro handler arg calling
    obtain ⟨handler', arg', before, right⟩ := calls handler arg calling
    obtain ⟨pre, sig, post, rfl, ends, known⟩ := hist.calls handler' arg' before
    refine ⟨pre, sig, post ++ [e], by simp, ends, fun set => ?_⟩
    exact right (hist.set (List.mem_append_left _ set)) (known set)
  · intro early
    obtain ⟨pre, sig, post, rfl, ends, unset⟩ := hist.early (outcome ▸ early)
    exact ⟨pre, sig, post ++ [e], by simp, ends, unset⟩

/-- The process ends. -/
theorem ProcessHistory.ends (hist : ProcessHistory events s) (e : ProcessEvent)
    (outcome : ProcessEnd) (other : e ≠ .setUdata)
    (broken : outcome = .brokenEvent → .createAgent false ∈ events ∨ 2 ≤ (taken events).length)
    (early : outcome = .defaultExit ∨ outcome = .nullEvent → ∃ pre sig post,
      events = pre ++ .take sig :: post ∧ sig ∈ termSignals ∧ .setUdata ∉ pre) :
    ProcessHistory (events ++ [e]) { s with outcome := some outcome } := by
  have more := taken_le events e
  have kept : ProcessHistory (events ++ [e]) s := by
    refine hist.frame e id (fun isOpen handling => ⟨isOpen, handling⟩)
      (fun past => .inr (.inr ⟨past, id⟩)) (Or.imp id .inl) id (fun set => absurd set other) ?_ rfl
    exact fun handler udata calling => ⟨handler, udata, calling, fun _ right => right⟩
  exact { kept with
    broken := fun now => by
      rw [List.mem_append]
      exact (broken (Option.some.inj now)).imp .inl fun two => Nat.le_trans two more
    early := fun now => by
      obtain ⟨pre, sig, post, rfl, ends, unset⟩ :=
        early (now.imp Option.some.inj Option.some.inj)
      exact ⟨pre, sig, post ++ [e], by simp, ends, unset⟩ }

/-- A step of `main` outside of the event. -/
theorem ProcessHistory.main (hist : ProcessHistory events s) (e : ProcessEvent)
    (event : t.event = s.event) (sigwait : t.sigwait = s.sigwait)
    (past : (t.main = .waiting ∧ t.event.place .main = .outside) ∨ t.main.summoned = true →
      s.Past)
    (refused : t.main = .destroyingEvent false ∨ t.main = .returning false →
      s.main = .destroyingEvent false ∨ s.main = .returning false ∨ e = .createAgent false)
    (udata : s.udata = true → t.udata = true) (set : e = .setUdata → t.udata = true)
    (outcome : t.outcome = s.outcome) : ProcessHistory (events ++ [e]) t := by
  have handles : t.Handling ↔ s.Handling := by
    rw [Process.Handling, Process.Handling, event, sigwait]
  have quiet : t.Quiet ↔ s.Quiet := by rw [Process.Quiet, Process.Quiet, event, sigwait]
  refine hist.frame e ?_ ?_ ?_ refused udata set ?_ outcome
  · rw [event, sigwait]
    exact id
  · rw [event, handles]
    exact fun isOpen handling => ⟨isOpen, handling⟩
  · intro now
    refine .inr (.inr ⟨?_, quiet.mpr⟩)
    rcases now with leaves | through
    · exact .inl (event ▸ leaves)
    · exact past through
  · exact fun handler udata calling =>
      ⟨handler, udata, sigwait ▸ calling, fun _ right => right⟩

/-- The thread in `sigwait` is not done with the event while it calls the handler. -/
theorem not_quiet_of_calling {handler : Option TermHandler} {udata : Option Bool}
    (calling : s.sigwait = .calling handler udata) : ¬ s.Quiet :=
  fun quiet => quiet.2 handler udata calling

theorem history_take (inv : ProcessInvariant s) (hist : ProcessHistory events s) {sig : Signal}
    (step : s.step (.take sig) = some t) (running : s.outcome = none) :
    ProcessHistory (events ++ [.take sig]) t := by
  obtain ⟨-, ⟨⟩⟩ := Option.ite_none_right_eq_some.mp step
  by_cases ends : sig ∈ termSignals
  · rw [if_pos ends]
    have one := @taken_term events sig ends
    constructor
    · exact fun _ => by omega
    · intro isOpen _
      have first := hist.first (.inl isOpen)
      omega
    · intro past
      have first := hist.first (.inl (inv.open_of_past past))
      exact .inl (by omega)
    · exact fun main => List.mem_append_left _ (hist.refused main)
    · intro broken
      have broken : s.outcome = some .brokenEvent := broken
      rw [running] at broken
      cases broken
    · intro set
      rw [List.mem_append, List.mem_singleton] at set
      exact hist.set (set.resolve_right (by simp))
    · rintro _ _ ⟨⟩
      refine ⟨events, sig, [], rfl, ends, ?_⟩
      rintro - (stale | stale) <;> cases stale
    · intro early
      have early : s.outcome = some .defaultExit ∨ s.outcome = some .nullEvent := early
      rw [running] at early
      rcases early with early | early <;> cases early
  · rw [if_neg ends]
    refine hist.frame _ ?_ ?_ ?_ (Or.imp id .inl) id (by simp) (by simp) rfl
    · exact Or.imp id fun busy => absurd rfl busy
    · rintro isOpen (⟨_, _, calling⟩ | about)
      · cases calling
      · exact ⟨isOpen, .inr about⟩
    · exact fun past => .inr (.inr ⟨past, fun quiet => ⟨quiet.1, by simp⟩⟩)

/-- The thread in `sigwait` reads one of the variables. -/
theorem history_reads (hist : ProcessHistory events s) (e : ProcessEvent) (other : e ≠ .setUdata)
    {handler handler' : Option TermHandler} {udata udata' : Option Bool}
    (calling : s.sigwait = .calling handler udata)
    (right : s.udata = true → ¬ Stale handler udata → ¬ Stale handler' udata') :
    ProcessHistory (events ++ [e]) { s with sigwait := .calling handler' udata' } := by
  refine hist.frame e ?_ ?_ ?_ (Or.imp id .inl) id (fun set => absurd set other) ?_ rfl
  · exact fun _ => .inr (by rw [calling]; simp)
  · exact fun isOpen _ => ⟨isOpen, .inl ⟨handler, udata, calling⟩⟩
  · exact fun past =>
      .inr (.inr ⟨past, fun quiet => absurd quiet (not_quiet_of_calling calling)⟩)
  · rintro _ _ ⟨⟩
    exact ⟨handler, udata, calling, right⟩

theorem history_callHandler (hist : ProcessHistory events s)
    (step : s.step .callHandler = some t) : ProcessHistory (events ++ [.callHandler]) t := by
  simp only [Process.step] at step
  split at step
  · rename_i handler udata calling
    have early (stale : Stale (some handler) (some udata)) : ∃ pre sig post,
        events = pre ++ .take sig :: post ∧ sig ∈ termSignals ∧ .setUdata ∉ pre := by
      obtain ⟨pre, sig, post, eq, ends, known⟩ := hist.calls _ _ calling
      exact ⟨pre, sig, post, eq, ends, fun set => known set stale⟩
    cases handler with
    | default =>
      cases step
      exact hist.ends _ _ (by simp) (by simp) fun _ => early (.inl rfl)
    | term =>
      cases udata with
      | false =>
        cases step
        exact hist.ends _ _ (by simp) (by simp) fun _ => early (.inr rfl)
      | true =>
        obtain ⟨event, call, rfl⟩ := Option.map_eq_some_iff.mp step
        obtain ⟨-, ⟨⟩⟩ := Option.ite_none_right_eq_some.mp call
        have main : (s.event.put .sigwait .locksToOpen).place .main = s.event.place .main := by
          rw [Gate.put_place, if_neg (by decide)]
        refine hist.frame _ ?_ ?_ ?_ (Or.imp id .inl) id (by simp) (by simp) rfl
        · exact fun _ => .inr (by rw [calling]; simp)
        · exact fun isOpen _ => ⟨isOpen, .inl ⟨_, _, calling⟩⟩
        · intro past
          refine .inr (.inr ⟨?_, fun quiet => absurd quiet (not_quiet_of_calling calling)⟩)
          rcases past with leaves | ⟨waiting, outside⟩ | summoned
          · exact .inl (main.symm.trans leaves)
          · exact .inr (.inl ⟨waiting, main.symm.trans outside⟩)
          · exact .inr (.inr summoned)
  · cases step

/-- A step inside of the event. -/
theorem history_go (inv : ProcessInvariant s) (hist : ProcessHistory events s) {u : ProcessThread}
    {event : Gate.State ProcessThread} (go : s.event.go u = some event) :
    ProcessHistory (events ++ [.go u]) { s with event } := by
  have step := Gate.step_of_go go
  have quiet (quiet : s.Quiet) : { s with event }.Quiet :=
    ⟨Gate.stays_outside go quiet.1, quiet.2⟩
  have handles (handling : { s with event }.Handling) : s.Handling :=
    handling.imp id step.about_before
  -- `main` finds the flag set while it holds the mutex.
  have past (past : { s with event }.Past) : s.event.isOpen = true ∧ s.Handling ∨
      { s with event }.Quiet ∨ s.Past ∧ (s.Quiet → { s with event }.Quiet) := by
    rcases past with leaves | ⟨waiting, outside⟩ | summoned
    · rcases step.leaves leaves with before | ⟨rfl, checks, isOpen⟩
      · exact .inr (.inr ⟨.inl before, quiet⟩)
      · by_cases handling : s.Handling
        · exact .inl ⟨isOpen, handling⟩
        · obtain ⟨notCalling, notAbout⟩ := not_or.mp handling
          obtain ⟨notLocks, notOpens⟩ := not_or.mp notAbout
          have away : s.event.place .sigwait = .outside := by
            have alone : (s.event.place .sigwait).holds ≠ true := by
              intro holds
              have same := inv.gate.unique holds (t := .sigwait) (u := .main) (by rw [checks]; rfl)
              cases same
            have other := inv.sigwaitIn
            cases place : s.event.place .sigwait with
            | outside => rfl
            | locksToOpen => exact absurd place notLocks
            | opens => exact absurd place notOpens
            | broadcasts | unlocks =>
              rw [place] at alone
              exact absurd rfl alone
            | locksToWait | checks | sleeps | leaves =>
              rw [place] at other
              cases other
          exact .inr (.inl (quiet ⟨away, fun _ _ calling => notCalling ⟨_, _, calling⟩⟩))
    · refine .inr (.inr ⟨?_, quiet⟩)
      rcases inv.mainIn with waits | before
      · exact .inl (step.through waits outside)
      · exact .inr (.inl ⟨waiting, before⟩)
    · exact .inr (.inr ⟨.inr (.inr summoned), quiet⟩)
  refine hist.frame _ ?_ ?_ past (Or.imp id .inl) id (by simp) ?_ rfl
  · rintro (isOpen | busy)
    · by_contra none'
      obtain ⟨shut, idle⟩ := not_or.mp none'
      have still := inv.shut_go go (Bool.not_eq_true _ ▸ shut) (by rw [not_not.mp idle]; simp)
      have isOpen : event.isOpen = true := isOpen
      rw [still] at isOpen
      cases isOpen
    · exact .inr busy
  · intro isOpen handling
    refine ⟨?_, handles handling⟩
    by_contra shut
    have opens : s.event.place u = .opens := by
      by_contra other
      have still := step.shut (Bool.not_eq_true _ ▸ shut) other
      have isOpen : event.isOpen = true := isOpen
      rw [still] at isOpen
      cases isOpen
    obtain ⟨rfl, signalling⟩ := inv.opener opens
    rw [Gate.State.go, opens] at go
    cases go
    rcases handling with ⟨_, _, calling⟩ | about
    · have calling : s.sigwait = .calling _ _ := calling
      rw [signalling] at calling
      cases calling
    · simp [Gate.State.put] at about
  · exact fun handler udata calling => ⟨handler, udata, calling, fun _ right => right⟩

/-- The event is destroyed while it is locked, or used after it. -/
theorem history_broken (hist : ProcessHistory events s) {created : Bool}
    (main : s.main = .destroyingEvent created ∨ s.main = .returning created)
    (busy : s.event.place .sigwait ≠ .outside) :
    .createAgent false ∈ events ∨ 2 ≤ (taken events).length := by
  cases created with
  | false => exact .inl (hist.refused main)
  | true =>
    have past : s.Past := .inr (.inr (by rcases main with main | main <;> rw [main] <;> rfl))
    exact .inr ((hist.past past).resolve_right fun quiet => busy quiet.1)

/-- `main` begins to lock the mutex. -/
theorem history_locks (hist : ProcessHistory events s) (e : ProcessEvent) (other : e ≠ .setUdata)
    (main : MainPhase) (same : main = s.main ∨ main = .waiting) :
    ProcessHistory (events ++ [e])
      { s with main, event := s.event.put .main .locksToWait } := by
  have own : (s.event.put .main .locksToWait).place .main = .locksToWait := by
    rw [Gate.put_place, if_pos rfl]
  have away : (s.event.put .main .locksToWait).place .sigwait = s.event.place .sigwait := by
    rw [Gate.put_place, if_neg (by decide)]
  refine hist.frame e id ?_ ?_ ?_ id (fun set => absurd set other) ?_ rfl
  · rintro isOpen (calling | about)
    · exact ⟨isOpen, .inl calling⟩
    · exact ⟨isOpen, .inr (by rwa [← away])⟩
  · rintro (leaves | ⟨-, outside⟩ | summoned)
    · have leaves : (s.event.put .main .locksToWait).place .main = .leaves := leaves
      rw [own] at leaves
      cases leaves
    · have outside : (s.event.put .main .locksToWait).place .main = .outside := outside
      rw [own] at outside
      cases outside
    · have before : s.main.summoned = true := by
        rcases same with rfl | rfl
        · exact summoned
        · cases summoned
      exact .inr (.inr ⟨.inr (.inr before), fun quiet => ⟨away.trans quiet.1, quiet.2⟩⟩)
  · intro refused
    rcases same with rfl | rfl
    · exact refused.imp id .inl
    · rcases refused with refused | refused <;> cases refused
  · exact fun handler udata calling => ⟨handler, udata, calling, fun _ right => right⟩

theorem history_step (inv : ProcessInvariant s) (hist : ProcessHistory events s)
    (next : s.next e = some t) : ProcessHistory (events ++ [e]) t := by
  obtain ⟨running, step⟩ := Option.ite_none_right_eq_some.mp next
  cases e with
  | raise sig =>
    cases step
    exact hist.main _ rfl rfl .inr (Or.imp id .inl) id (by simp) rfl
  | take sig => exact history_take inv hist step running
  | readHandler =>
    simp only [Process.step] at step
    split at step
    · rename_i udata calling
      cases step
      refine history_reads hist .readHandler (by simp) calling ?_
      rintro known right (stale | stale)
      · rw [inv.stored known] at stale
        cases stale
      · exact right (.inr stale)
    · cases step
  | readUdata =>
    simp only [Process.step] at step
    split at step
    · rename_i handler calling
      cases step
      refine history_reads hist .readUdata (by simp) calling ?_
      rintro known right (stale | stale)
      · exact right (.inl stale)
      · rw [known] at stale
        cases stale
    · cases step
  | callHandler => exact history_callHandler hist step
  | returnHandler =>
    obtain ⟨⟨signalling, outside⟩, ⟨⟩⟩ := Option.ite_none_right_eq_some.mp step
    refine hist.frame _ ?_ ?_ ?_ (Or.imp id .inl) id (by simp) (by simp) rfl
    · exact fun _ => .inr (by rw [signalling]; simp)
    · rintro - (⟨_, _, calling⟩ | about)
      · cases calling
      · have about : s.event.place .sigwait = .locksToOpen ∨
            s.event.place .sigwait = .opens := about
        rw [outside] at about
        simp at about
    · exact fun _ => .inr (.inl ⟨outside, by simp⟩)
  | createEvent | setHandler =>
    obtain ⟨-, ⟨⟩⟩ := Option.ite_none_right_eq_some.mp step
    refine hist.main _ rfl rfl ?_ ?_ id (by simp) rfl
    · rintro (⟨main, -⟩ | main) <;> cases main
    · rintro (main | main) <;> cases main
  | setUdata =>
    obtain ⟨-, ⟨⟩⟩ := Option.ite_none_right_eq_some.mp step
    refine hist.main _ rfl rfl ?_ ?_ (fun _ => rfl) (fun _ => rfl) rfl
    · rintro (⟨main, -⟩ | main) <;> cases main
    · rintro (main | main) <;> cases main
  | createAgent created =>
    obtain ⟨-, ⟨⟩⟩ := Option.ite_none_right_eq_some.mp step
    cases created with
    | true =>
      refine hist.main _ rfl rfl ?_ ?_ id (by simp) rfl
      · rintro (⟨main, -⟩ | main) <;> cases main
      · rintro (main | main) <;> cases main
    | false =>
      refine hist.main _ rfl rfl ?_ (fun _ => .inr (.inr rfl))
        id (by simp) rfl
      rintro (⟨main, -⟩ | main) <;> cases main
  | callWait =>
    obtain ⟨main, step⟩ := Option.ite_none_right_eq_some.mp step
    obtain ⟨event, call, rfl⟩ := Option.map_eq_some_iff.mp step
    obtain ⟨-, ⟨⟩⟩ := Option.ite_none_right_eq_some.mp call
    exact history_locks hist .callWait (by simp) .waiting (.inr rfl)
  | endWait =>
    obtain ⟨⟨main, outside⟩, ⟨⟩⟩ := Option.ite_none_right_eq_some.mp step
    refine hist.main _ rfl rfl (fun _ => .inr (.inl ⟨main, outside⟩)) ?_
      id (by simp) rfl
    rintro (main | main) <;> cases main
  | destroyAgent =>
    obtain ⟨main, ⟨⟩⟩ := Option.ite_none_right_eq_some.mp step
    refine hist.main _ rfl rfl (fun _ => .inr (.inr (by rw [main]; rfl))) ?_
      id (by simp) rfl
    rintro (main | main) <;> cases main
  | destroyEvent =>
    simp only [Process.step] at step
    split at step
    · rename_i created main
      cases step
      unfold Process.destroyEvent
      split
      · refine hist.main _ rfl rfl ?_ ?_ id (by simp) rfl
        · rintro (⟨waiting, -⟩ | summoned)
          · cases waiting
          · exact .inr (.inr (by rw [main, ← MainPhase.summoned_returning]; exact summoned))
        · rintro (other | returning)
          · cases other
          · cases returning
            exact .inl main
      · rename_i owned
        refine hist.ends _ _ (by simp) (fun _ => history_broken hist (.inl main) ?_)
          (by rintro (early | early) <;> cases early)
        intro outside
        obtain ⟨u, owner⟩ := Option.ne_none_iff_exists'.mp owned
        have holds := (inv.gate.owner u).mp owner
        cases u with
        | main =>
          rw [inv.mainAway (by rw [main]; simp)] at holds
          cases holds
        | sigwait =>
          rw [outside] at holds
          cases holds
    · cases step
  | returnMain =>
    simp only [Process.step] at step
    split at step
    · cases step
      exact hist.ends _ _ (by simp) (by simp) (by rintro (early | early) <;> cases early)
    · cases step
  | go u =>
    have step : s.go u = some t := step
    unfold Process.go at step
    split at step
    · rename_i freed
      split at step
      · cases step
      · rename_i busy
        cases step
        obtain ⟨created, main⟩ := inv.freed freed
        have own : u = .sigwait := by
          cases u with
          | main => exact absurd (inv.mainAway (by rw [main]; simp)) busy
          | sigwait => rfl
        subst own
        exact hist.ends _ _ (by simp) (fun _ => history_broken hist (.inr main) busy)
          (by rintro (early | early) <;> cases early)
    · obtain ⟨event, go, rfl⟩ := Option.map_eq_some_iff.mp step
      exact history_go inv hist go
  | wake =>
    obtain ⟨event, wake, rfl⟩ := Option.map_eq_some_iff.mp step
    obtain ⟨-, ⟨⟩⟩ := Option.ite_none_right_eq_some.mp wake
    exact history_locks hist .wake (by simp) s.main (.inl rfl)

theorem processHistory_of_run (run : process.Run Machine.Any events s) :
    ProcessInvariant s ∧ ProcessHistory events s := by
  apply run.history fun events s => ProcessInvariant s ∧ ProcessHistory events s
  · rintro s rfl
    exact ⟨processInvariant_start, processHistory_start⟩
  · exact fun _ s e t inv _ next => ⟨process_step inv.1 next, history_step inv.1 inv.2 next⟩

/-- A handler that has not returned uses the event that is gone. -/
theorem breaks_of_busy (freed : s.freed = true) (running : s.outcome = none)
    (busy : s.event.place .sigwait ≠ .outside) :
    s.LeadsTo fun t => t.outcome = some .brokenEvent := by
  have next : s.next (.go .sigwait) = some { s with outcome := some .brokenEvent } := by
    rw [Process.next_eq _ running]
    show s.go .sigwait = _
    unfold Process.go
    rw [if_pos freed, if_neg busy]
  exact .before next trivial (.here rfl)

theorem breaks_of_calling (inv : ProcessInvariant s) (freed : s.freed = true)
    (running : s.outcome = none) (known : s.udata = true) {handler : Option TermHandler}
    {udata : Option Bool} (calling : s.sigwait = .calling handler udata)
    (right : ¬ Stale handler udata) : s.LeadsTo fun t => t.outcome = some .brokenEvent := by
  apply leadsTo_of_calling inv running known calling right
  refine breaks_of_busy freed running ?_
  show (s.event.put .sigwait .locksToOpen).place .sigwait ≠ .outside
  rw [Gate.put_place, if_pos rfl]
  simp

theorem breaks_of_waiting (inv : ProcessInvariant s) (freed : s.freed = true)
    (running : s.outcome = none) (known : s.udata = true) (idle : s.sigwait = .waiting)
    (pending : s.pending .sigterm = true) :
    s.LeadsTo fun t => t.outcome = some .brokenEvent := by
  have next : s.next (.take .sigterm) = some { s with
      pending := Function.update s.pending .sigterm false, sigwait := .calling none none } := by
    rw [Process.next_eq _ running]
    exact if_pos ⟨idle, pending⟩
  exact .before next trivial
    (breaks_of_calling (process_step inv next) freed running known rfl not_stale_start)

/-- Whatever the thread in `sigwait` does, it comes to use the event that is gone. -/
theorem breaks_of_pending (inv : ProcessInvariant s) (freed : s.freed = true)
    (running : s.outcome = none) (isOpen : s.event.isOpen = true)
    (pending : s.pending .sigterm = true) :
    s.LeadsTo fun t => t.outcome = some .brokenEvent := by
  have known := inv.known (.inl isOpen)
  cases sigwait : s.sigwait with
  | waiting => exact breaks_of_waiting inv freed running known sigwait pending
  | calling handler udata =>
    refine breaks_of_calling inv freed running known sigwait fun stale => ?_
    have shut := inv.stale handler udata sigwait stale
    rw [isOpen] at shut
    cases shut
  | signalling =>
    by_cases outside : s.event.place .sigwait = .outside
    · have next : s.next .returnHandler = some { s with sigwait := .waiting } := by
        rw [Process.next_eq s running]
        exact if_pos ⟨sigwait, outside⟩
      exact .before next trivial
        (breaks_of_waiting (process_step inv next) freed running known rfl pending)
    · exact breaks_of_busy freed running outside

/-- **Which signals do harm.** In any run, `main` gets through its wait only for a termination
signal. The event is broken only if the agent could not be created or a second one has been taken;
and once `main` has got through its wait and destroyed the event, one more can break it until `main`
has returned. The default handler ends the process, or the handler gets NULL, only for a signal that
was taken before `main` had set both. -/
theorem harmful_signals (run : process.Run Machine.Any events s) :
    (s.main.summoned = true → 1 ≤ (taken events).length) ∧
      (s.outcome = some .brokenEvent →
        .createAgent false ∈ events ∨ 2 ≤ (taken events).length) ∧
      (s.main.summoned = true → s.freed = true → s.outcome = none →
        ∃ t, s.next (.raise .sigterm) = some t ∧
          t.LeadsTo fun u => u.outcome = some .brokenEvent) ∧
      (s.outcome = some .defaultExit ∨ s.outcome = some .nullEvent → ∃ pre sig post,
        events = pre ++ .take sig :: post ∧ sig ∈ termSignals ∧ .setUdata ∉ pre) := by
  obtain ⟨inv, hist⟩ := processHistory_of_run run
  refine ⟨fun summoned => hist.first (.inl (inv.summoned summoned)), hist.broken, ?_, hist.early⟩
  intro summoned freed running
  have next : s.next (.raise .sigterm) =
      some { s with pending := Function.update s.pending .sigterm true } :=
    Process.next_eq s running _
  have pending : Function.update s.pending .sigterm true .sigterm = true :=
    Function.update_self ..
  exact ⟨_, next, breaks_of_pending (process_step inv next) freed running (inv.summoned summoned)
    pending⟩

end

def signalledTwice : List ProcessEvent :=
  signalledWhileWaiting ++ [.take .sigterm, .readUdata, .readHandler, .callHandler, .go .sigwait,
    .go .sigwait, .go .sigwait, .go .sigwait, .returnHandler, .go .main, .go .main, .go .main,
    .endWait, .destroyAgent, .raise .sigint, .take .sigint, .destroyEvent]

/-- The event is gone when the second signal has been taken. -/
theorem harmful_signals_twice :
    ∃ s, process.Run Machine.Any signalledTwice s ∧ taken signalledTwice = [.sigterm, .sigint] ∧
      ∃ t, s.next (.raise .sigterm) = some t ∧
        t.LeadsTo fun u => u.outcome = some .brokenEvent := by
  obtain ⟨s, after, summoned, freed, running⟩ :
      ∃ s, process.after .start signalledTwice = some s ∧ s.main.summoned = true ∧
        s.freed = true ∧ s.outcome = none := ⟨_, rfl, rfl, rfl, rfl⟩
  have run := Machine.reached_of_after rfl after
  exact ⟨s, run, by decide, (harmful_signals run).2.2.1 summoned freed running⟩

end Yella
