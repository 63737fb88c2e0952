import Yella.Agent.Signals

/-!
# The wait of `main`

While the agent runs, `main` is in `yella_wait_for_event`. When it can get through its wait does
not depend on the order of the steps.
-/

namespace Yella

/-- No new signal -/
def ProcessEvent.Own : ProcessEvent → Prop
  | .raise _ => False
  | _ => True

/-- The process can come to such a state without a new signal. -/
def Process.LeadsTo (s : Process) (P : Process → Prop) : Prop :=
  ∃ more t, (∀ e ∈ more, ProcessEvent.Own e) ∧ process.after s more = some t ∧ P t

/-- Without a new signal `main` can get through its wait. -/
def Process.CanEnd (s : Process) : Prop := s.LeadsTo fun t => t.main = .destroyingAgent

/-- The event has been signalled or will be: the handler is being called with what `main` has set,
or a signal that calls it is there. -/
def Process.Summoned (s : Process) : Prop :=
  s.event.isOpen = true ∨ s.sigwait = .signalling ∨
    (∃ handler udata, s.sigwait = .calling handler udata ∧ ¬ Stale handler udata) ∨
    s.sigwait = .waiting ∧ ∃ sig ∈ termSignals, s.pending sig = true

section
variable {s t : Process} {e : ProcessEvent} {events : List ProcessEvent}

theorem Process.next_eq (s : Process) (running : s.outcome = none) (e : ProcessEvent) :
    s.next e = s.step e := if_pos running

theorem Process.LeadsTo.here {P : Process → Prop} (h : P s) : s.LeadsTo P :=
  ⟨[], s, by simp, rfl, h⟩

theorem Process.LeadsTo.before {P : Process → Prop} (next : s.next e = some t) (own : e.Own)
    (leads : t.LeadsTo P) : s.LeadsTo P := by
  obtain ⟨more, u, each, after, there⟩ := leads
  refine ⟨e :: more, u, List.forall_mem_cons.mpr ⟨own, each⟩, ?_, there⟩
  have next : process.next s e = some t := next
  rw [Machine.after, next]
  exact after

theorem ProcessInvariant.goes {g g' : Gate.State ProcessThread} (goes : Gate.Goes g g')
    (inv : ProcessInvariant { s with event := g }) : ProcessInvariant { s with event := g' } := by
  induction goes with
  | refl => exact inv
  | step go _ ih => exact ih (inv.go go)

theorem canEnd_of_goes {g g' : Gate.State ProcessThread} (goes : Gate.Goes g g')
    (running : s.outcome = none) (there : s.freed = false)
    (ends : { s with event := g' }.CanEnd) : { s with event := g }.CanEnd := by
  induction goes with
  | refl => exact ends
  | @step g g' g'' u go _ ih =>
    have next : { s with event := g }.next (.go u) = some { s with event := g' } := by
      refine (Process.next_eq { s with event := g } running _).trans ?_
      show { s with event := g }.go u = _
      unfold Process.go
      rw [there, go]
      rfl
    exact .before next trivial (ih ends)

theorem canEnd_of_open (inv : ProcessInvariant s) (waiting : s.main = .waiting)
    (running : s.outcome = none) (isOpen : s.event.isOpen = true) : s.CanEnd := by
  have past {g : Gate.State ProcessThread} (outside : g.place .main = .outside) :
      { s with event := g }.CanEnd := by
    have next : { s with event := g }.next .endWait =
        some { s with event := g, main := .destroyingAgent } := by
      refine (Process.next_eq { s with event := g } running _).trans ?_
      exact if_pos ⟨waiting, outside⟩
    exact .before next trivial (.here rfl)
  rcases inv.mainIn with waits | outside
  · obtain ⟨g, goes, outside⟩ := Gate.goes_past inv.gate isOpen waits
    exact canEnd_of_goes goes running (inv.there (by rw [waiting]; simp)) (past outside)
  · exact past outside

theorem canEnd_of_signalling (inv : ProcessInvariant s) (waiting : s.main = .waiting)
    (running : s.outcome = none) (signalling : s.sigwait = .signalling) : s.CanEnd := by
  rcases inv.signals signalling with isOpen | about
  · exact canEnd_of_open inv waiting running isOpen
  · obtain ⟨g, goes, isOpen⟩ := Gate.goes_open inv.gate about
    have inv' : ProcessInvariant { s with event := g } := ProcessInvariant.goes goes inv
    exact canEnd_of_goes goes running (inv.there (by rw [waiting]; simp))
      (canEnd_of_open inv' waiting running isOpen)

/-- The handler is read, then its argument, and then it is called. -/
theorem leadsTo_of_calling {P : Process → Prop} (inv : ProcessInvariant s)
    (running : s.outcome = none) (known : s.udata = true) {handler : Option TermHandler}
    {udata : Option Bool} (calling : s.sigwait = .calling handler udata)
    (right : ¬ Stale handler udata)
    (rest : { s with
      sigwait := .signalling, event := s.event.put .sigwait .locksToOpen }.LeadsTo P) :
    s.LeadsTo P := by
  obtain ⟨notDefault, notNull⟩ := not_or.mp right
  have away := inv.sigwaitAway (by rw [calling]; simp)
  have call : s.event.callOpen .sigwait = some (s.event.put .sigwait .locksToOpen) :=
    if_pos away
  have called : { s with sigwait := .calling (some .term) (some true) }.LeadsTo P := by
    refine .before (e := .callHandler) ?_ trivial rest
    rw [Process.next_eq { s with sigwait := .calling (some .term) (some true) } running]
    simp only [Process.step, Process.callHandler, call, Option.map_some]
  have argued : { s with sigwait := .calling (some .term) udata }.LeadsTo P := by
    cases udata with
    | some known =>
      cases known with
      | true => exact called
      | false => exact absurd rfl notNull
    | none =>
      refine .before (e := .readUdata) ?_ trivial called
      rw [Process.next_eq { s with sigwait := .calling (some .term) none } running]
      simp only [Process.step, known]
  cases handler with
  | some set =>
    cases set with
    | term =>
      rw [← calling] at argued
      exact argued
    | default => exact absurd rfl notDefault
  | none =>
    refine .before (e := .readHandler) ?_ trivial argued
    rw [Process.next_eq _ running]
    simp only [Process.step, calling, inv.stored known]

theorem canEnd_of_calling (inv : ProcessInvariant s) (waiting : s.main = .waiting)
    (running : s.outcome = none) {handler : Option TermHandler} {udata : Option Bool}
    (calling : s.sigwait = .calling handler udata) (right : ¬ Stale handler udata) : s.CanEnd := by
  have known : s.udata = true := inv.handles (by rw [waiting]; rfl)
  have inv' := inv.called (inv.sigwaitAway (by rw [calling]; simp)) known
  exact leadsTo_of_calling inv running known calling right
    (canEnd_of_signalling inv' waiting running rfl)

theorem not_stale_start : ¬ Stale none none := by
  rintro (stale | stale) <;> cases stale

theorem canEnd_of_pending (inv : ProcessInvariant s) (waiting : s.main = .waiting)
    (running : s.outcome = none) (idle : s.sigwait = .waiting) {sig : Signal}
    (ends : sig ∈ termSignals) (pending : s.pending sig = true) : s.CanEnd := by
  have next : s.next (.take sig) = some { s with
      pending := Function.update s.pending sig false, sigwait := .calling none none } := by
    rw [Process.next_eq _ running]
    simp only [Process.step, if_pos (And.intro idle pending), if_pos ends]
  exact .before next trivial
    (canEnd_of_calling (process_step inv next) waiting running rfl not_stale_start)

theorem canEnd_of_summoned (inv : ProcessInvariant s) (waiting : s.main = .waiting)
    (running : s.outcome = none) (summoned : s.Summoned) : s.CanEnd := by
  rcases summoned with isOpen | signalling | ⟨handler, udata, calling, right⟩ | ⟨idle, sig, ends⟩
  · exact canEnd_of_open inv waiting running isOpen
  · exact canEnd_of_signalling inv waiting running signalling
  · exact canEnd_of_calling inv waiting running calling right
  · exact canEnd_of_pending inv waiting running idle ends.1 ends.2

/-- Nobody will wake `main`: the process has ended, or nothing that wakes it is on its way. -/
def Process.Unheard (s : Process) : Prop :=
  s.main = .waiting ∧ (s.outcome ≠ none ∨ ¬ s.Summoned)

theorem unheard_step (inv : ProcessInvariant s) (unheard : s.Unheard) (own : e.Own)
    (next : s.next e = some t) : t.Unheard := by
  obtain ⟨waiting, unheard⟩ := unheard
  obtain ⟨running, step⟩ := Option.ite_none_right_eq_some.mp next
  have unsummoned := unheard.resolve_left (not_not_intro running)
  simp only [Process.Summoned, not_or] at unsummoned
  obtain ⟨shut, notSignalling, notCalling, notPending⟩ := unsummoned
  cases e with
  | raise sig => exact own.elim
  | take sig =>
    obtain ⟨⟨idle, pending⟩, ⟨⟩⟩ := Option.ite_none_right_eq_some.mp step
    have other : sig ∉ termSignals := fun ends => notPending ⟨idle, sig, ends, pending⟩
    refine ⟨waiting, .inr ?_⟩
    rw [if_neg other]
    rintro (isOpen | signalling | ⟨_, _, calling, -⟩ | ⟨-, sig', ends, still⟩)
    · exact shut isOpen
    · cases signalling
    · cases calling
    · have ne : sig' ≠ sig := fun same => other (same ▸ ends)
      have still : Function.update s.pending sig false sig' = true := still
      rw [Function.update_of_ne ne] at still
      exact notPending ⟨idle, sig', ends, still⟩
  | readHandler =>
    simp only [Process.step] at step
    split at step
    · rename_i udata calling
      cases step
      have stale : Stale none udata := by
        by_contra right
        exact notCalling ⟨_, _, calling, right⟩
      refine ⟨waiting, .inr ?_⟩
      rintro (isOpen | signalling | ⟨_, _, ⟨⟩, right⟩ | ⟨idle, -⟩)
      · exact shut isOpen
      · cases signalling
      · exact right (.inr (stale.resolve_left (by simp)))
      · cases idle
    · cases step
  | readUdata =>
    simp only [Process.step] at step
    split at step
    · rename_i handler calling
      cases step
      have stale : Stale handler none := by
        by_contra right
        exact notCalling ⟨_, _, calling, right⟩
      refine ⟨waiting, .inr ?_⟩
      rintro (isOpen | signalling | ⟨_, _, ⟨⟩, right⟩ | ⟨idle, -⟩)
      · exact shut isOpen
      · cases signalling
      · exact right (.inl (stale.resolve_right (by simp)))
      · cases idle
    · cases step
  | callHandler =>
    simp only [Process.step] at step
    split at step
    · rename_i handler udata calling
      have stale : Stale (some handler) (some udata) := by
        by_contra right
        exact notCalling ⟨_, _, calling, right⟩
      cases handler with
      | default =>
        cases step
        exact ⟨waiting, .inl (by simp)⟩
      | term =>
        cases udata with
        | false =>
          cases step
          exact ⟨waiting, .inl (by simp)⟩
        | true => rcases stale with stale | stale <;> cases stale
    · cases step
  | returnHandler =>
    obtain ⟨⟨signalling, -⟩, -⟩ := Option.ite_none_right_eq_some.mp step
    exact absurd signalling notSignalling
  | createEvent | setHandler | setUdata | createAgent | callWait | destroyAgent =>
    obtain ⟨main, -⟩ := Option.ite_none_right_eq_some.mp step
    rw [waiting] at main
    cases main
  | endWait =>
    obtain ⟨⟨-, outside⟩, -⟩ := Option.ite_none_right_eq_some.mp step
    exact absurd (inv.through waiting outside) shut
  | destroyEvent | returnMain =>
    simp only [Process.step, waiting] at step
    cases step
  | go u =>
    have step : s.go u = some t := step
    unfold Process.go at step
    rw [inv.there (by rw [waiting]; simp)] at step
    obtain ⟨event, go, rfl⟩ := Option.map_eq_some_iff.mp step
    have still := inv.shut_go go (Bool.not_eq_true _ ▸ shut) notSignalling
    refine ⟨waiting, .inr ?_⟩
    rintro (isOpen | signalling | calling | pending)
    · have isOpen : event.isOpen = true := isOpen
      rw [still] at isOpen
      cases isOpen
    · exact notSignalling signalling
    · exact notCalling calling
    · exact notPending pending
  | wake =>
    obtain ⟨event, wake, rfl⟩ := Option.map_eq_some_iff.mp step
    obtain ⟨-, ⟨⟩⟩ := Option.ite_none_right_eq_some.mp wake
    refine ⟨waiting, .inr ?_⟩
    rintro (isOpen | signalling | calling | pending)
    · exact shut isOpen
    · exact notSignalling signalling
    · exact notCalling calling
    · exact notPending pending

theorem unheard_after {more : List ProcessEvent} (inv : ProcessInvariant s)
    (unheard : s.Unheard) (own : ∀ e ∈ more, ProcessEvent.Own e)
    (after : process.after s more = some t) : t.Unheard := by
  induction more generalizing s with
  | nil =>
    cases after
    exact unheard
  | cons e more ih =>
    obtain ⟨u, next, rest⟩ := Option.bind_eq_some_iff.mp after
    have next : s.next e = some u := next
    rw [List.forall_mem_cons] at own
    exact ih (process_step inv next) (unheard_step inv unheard own.1 next) own.2 rest

theorem processInvariant_of_run (run : process.Run Machine.Any events s) : ProcessInvariant s := by
  apply run.invariant
  · rintro s rfl
    exact processInvariant_start
  · exact fun s e t inv _ next => process_step inv next

/-- **No wake-up is lost.** In whatever state a process is whose agent runs: it can end the agent
without a further signal exactly if the event has been signalled, its handler is being called with
what `main` has set, or a signal that calls it waits to be taken with the signal thread in
`sigwait`. -/
theorem agent_ends_iff (run : process.Run Machine.Any events s) (waiting : s.main = .waiting)
    (running : s.outcome = none) : s.CanEnd ↔ s.Summoned := by
  have inv := processInvariant_of_run run
  constructor
  · rintro ⟨more, t, own, after, main⟩
    by_contra unsummoned
    have unheard := unheard_after inv ⟨waiting, .inr unsummoned⟩ own after
    rw [unheard.1] at main
    cases main
  · exact canEnd_of_summoned inv waiting running

end

def signalledWhileWaiting : List ProcessEvent :=
  [.createEvent, .setHandler, .setUdata, .createAgent true, .callWait, .go .main, .go .main,
    .raise .sigterm]

/-- The agent runs, `main` sleeps, and a signal is there. -/
theorem agent_ends_iff_signalled :
    ∃ s, process.Run Machine.Any signalledWhileWaiting s ∧
      s.event.place .main = .sleeps ∧ s.CanEnd := by
  obtain ⟨s, after, waiting, running, sleeps, pending⟩ :
      ∃ s, process.after .start signalledWhileWaiting = some s ∧ s.main = .waiting ∧
        s.outcome = none ∧ s.event.place .main = .sleeps ∧
        (s.sigwait = .waiting ∧ ∃ sig ∈ termSignals, s.pending sig = true) :=
    ⟨_, rfl, rfl, rfl, rfl, rfl, .sigterm, by decide, rfl⟩
  have run := Machine.reached_of_after rfl after
  exact ⟨s, run, sleeps, (agent_ends_iff run waiting running).mpr (.inr (.inr (.inr pending)))⟩

end Yella
