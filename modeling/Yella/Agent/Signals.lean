import Mathlib.Tactic.ByContra
import Yella.Lib.Gate
import Yella.Lib.Machine

/-!
# The signals that end the agent

`main`, the thread that `install_signal_handler` starts, and the event between them, one step
after the other in any order. The signals that the thread waits for are blocked everywhere else.
-/

namespace Yella

/-- `async_signals` -/
inductive Signal where
  | sighup
  | sigusr1
  | sigusr2
  | sigchld
  | sigvtalrm
  | sigquit
  | sigxcpu
  | sigxfsz
  | sigint
  | sigpipe
  | sigterm
  deriving DecidableEq

def termSignals : List Signal := [.sigquit, .sigxcpu, .sigxfsz, .sigint, .sigpipe, .sigterm]

/-- `default_term_handler`, and the one that `main` sets -/
inductive TermHandler where
  | default
  | term
  deriving DecidableEq

/-- What `main` does next once the signals are blocked; `waiting` is in `yella_wait_for_event`. -/
inductive MainPhase where
  | creatingEvent
  | storingHandler
  | storingUdata
  | creatingAgent
  | callingWait
  | waiting
  | destroyingAgent
  | destroyingEvent (created : Bool)
  | returning (created : Bool)
  deriving DecidableEq

/-- In `sigwait`, at the call of the handler with what it has read of the two variables, or in
`yella_signal_event`. -/
inductive SigwaitThread where
  | waiting
  | calling (handler : Option TermHandler) (udata : Option Bool)
  | signalling
  deriving DecidableEq

inductive ProcessThread where
  | main
  | sigwait
  deriving DecidableEq

/-- `defaultExit` is the default handler's, and the event is broken when it is destroyed while it
is locked, or used after it. -/
inductive ProcessEnd where
  | returned (created : Bool)
  | defaultExit
  | nullEvent
  | brokenEvent
  deriving DecidableEq

/-- `udata` says whether `term_handler_udata` is the event, which is no longer there when it is
`freed`. -/
structure Process where
  main : MainPhase
  sigwait : SigwaitThread
  pending : Signal → Bool
  termHandler : TermHandler
  udata : Bool
  event : Gate.State ProcessThread
  freed : Bool
  outcome : Option ProcessEnd

/-- `go` is a step inside of a function of the event, and `wake` a wake-up without a broadcast. -/
inductive ProcessEvent where
  | raise (sig : Signal)
  | take (sig : Signal)
  | readHandler
  | readUdata
  | callHandler
  | returnHandler
  | createEvent
  | setHandler
  | setUdata
  | createAgent (created : Bool)
  | callWait
  | endWait
  | destroyAgent
  | destroyEvent
  | returnMain
  | go (t : ProcessThread)
  | wake
  deriving DecidableEq

namespace Process

def start : Process :=
  ⟨.creatingEvent, .waiting, fun _ => false, .default, false, .start, false, none⟩

def callHandler (s : Process) : TermHandler → Bool → Option Process
  | .default, _ => some { s with outcome := some .defaultExit }
  | .term, false => some { s with outcome := some .nullEvent }
  | .term, true =>
    (s.event.callOpen .sigwait).map fun event => { s with sigwait := .signalling, event }

def destroyEvent (s : Process) (created : Bool) : Process :=
  if s.event.owner = none then { s with main := .returning created, freed := true }
  else { s with outcome := some .brokenEvent }

def go (s : Process) (t : ProcessThread) : Option Process :=
  if s.freed then
    if s.event.place t = .outside then none else some { s with outcome := some .brokenEvent }
  else (s.event.go t).map fun event => { s with event }

def step (s : Process) : ProcessEvent → Option Process
  | .raise sig => some { s with pending := Function.update s.pending sig true }
  | .take sig =>
    if s.sigwait = .waiting ∧ s.pending sig then
      some { s with
        pending := Function.update s.pending sig false
        sigwait := if sig ∈ termSignals then .calling none none else .waiting }
    else none
  | .readHandler =>
    match s.sigwait with
    | .calling none udata => some { s with sigwait := .calling (some s.termHandler) udata }
    | _ => none
  | .readUdata =>
    match s.sigwait with
    | .calling handler none => some { s with sigwait := .calling handler (some s.udata) }
    | _ => none
  | .callHandler =>
    match s.sigwait with
    | .calling (some handler) (some udata) => s.callHandler handler udata
    | _ => none
  | .returnHandler =>
    if s.sigwait = .signalling ∧ s.event.place .sigwait = .outside then
      some { s with sigwait := .waiting }
    else none
  | .createEvent =>
    if s.main = .creatingEvent then some { s with main := .storingHandler } else none
  | .setHandler =>
    if s.main = .storingHandler then
      some { s with main := .storingUdata, termHandler := .term }
    else none
  | .setUdata =>
    if s.main = .storingUdata then some { s with main := .creatingAgent, udata := true } else none
  | .createAgent created =>
    if s.main = .creatingAgent then
      some { s with main := if created then .callingWait else .destroyingEvent false }
    else none
  | .callWait =>
    if s.main = .callingWait then
      (s.event.callWait .main).map fun event => { s with main := .waiting, event }
    else none
  | .endWait =>
    if s.main = .waiting ∧ s.event.place .main = .outside then
      some { s with main := .destroyingAgent }
    else none
  | .destroyAgent =>
    if s.main = .destroyingAgent then some { s with main := .destroyingEvent true } else none
  | .destroyEvent =>
    match s.main with
    | .destroyingEvent created => some (s.destroyEvent created)
    | _ => none
  | .returnMain =>
    match s.main with
    | .returning created => some { s with outcome := some (.returned created) }
    | _ => none
  | .go t => s.go t
  | .wake => (s.event.wake .main).map fun event => { s with event }

def next (s : Process) (e : ProcessEvent) : Option Process :=
  if s.outcome = none then s.step e else none

end Process

def process : Machine Process ProcessEvent where
  start s := s = .start
  next := Process.next

/-! ## What holds in every state -/

/-- What has been read was not there yet. -/
def Stale (handler : Option TermHandler) (udata : Option Bool) : Prop :=
  handler = some .default ∨ udata = some false

/-- `main` has set the two variables. -/
def MainPhase.handles : MainPhase → Bool
  | creatingEvent | storingHandler | storingUdata => false
  | _ => true

/-- `main` has been through its wait. -/
def MainPhase.summoned : MainPhase → Bool
  | destroyingAgent | destroyingEvent true | returning true => true
  | _ => false

theorem MainPhase.summoned_returning (created : Bool) :
    (returning created).summoned = (destroyingEvent created).summoned := by
  cases created <;> rfl

structure ProcessInvariant (s : Process) : Prop where
  gate : Gate.Sound s.event
  mainAway : s.main ≠ .waiting → s.event.place .main = .outside
  mainIn : (s.event.place .main).waits = true ∨ s.event.place .main = .outside
  through : s.main = .waiting → s.event.place .main = .outside → s.event.isOpen = true
  summoned : s.main.summoned = true → s.event.isOpen = true
  sigwaitAway : s.sigwait ≠ .signalling → s.event.place .sigwait = .outside
  sigwaitIn : (s.event.place .sigwait).waits = false
  signals : s.sigwait = .signalling → s.event.isOpen = true ∨
    s.event.place .sigwait = .locksToOpen ∨ s.event.place .sigwait = .opens
  handles : s.main.handles = true → s.udata = true
  set : s.main = .storingUdata → s.termHandler = .term
  stored : s.udata = true → s.termHandler = .term
  known : s.event.isOpen = true ∨ s.sigwait = .signalling → s.udata = true
  read : ∀ handler, s.sigwait = .calling handler (some true) → s.udata = true
  stale : ∀ handler udata, s.sigwait = .calling handler udata → Stale handler udata →
    s.event.isOpen = false
  freed : s.freed = true → ∃ created, s.main = .returning created

section
variable {s t : Process} {e : ProcessEvent} {event : Gate.State ProcessThread}

theorem processInvariant_start : ProcessInvariant .start where
  gate := Gate.sound_start
  mainAway _ := rfl
  mainIn := .inr rfl
  through main := by cases main
  summoned main := by cases main
  sigwaitAway _ := rfl
  sigwaitIn := rfl
  signals signalling := by cases signalling
  handles main := by cases main
  set main := by cases main
  stored udata := by cases udata
  known known := by rcases known with known | known <;> cases known
  read _ calling := by cases calling
  stale _ _ calling := by cases calling
  freed freed := by cases freed

/-- `main` takes a step outside of the event. -/
theorem ProcessInvariant.main (inv : ProcessInvariant s) {main : MainPhase}
    (away : s.event.place .main = .outside) (other : main ≠ .waiting ∧ main ≠ .storingUdata)
    (summoned : main.summoned = true → s.event.isOpen = true)
    (handles : main.handles = true → s.udata = true)
    (there : ∀ created, s.main ≠ .returning created) : ProcessInvariant { s with main } :=
  { inv with
    mainAway := fun _ => away
    through := fun waiting => absurd waiting other.1
    summoned, handles
    set := fun set => absurd set other.2
    freed := fun freed => by
      obtain ⟨created, returning⟩ := inv.freed freed
      exact absurd returning (there created) }

/-- Only the thread in `sigwait` sets the flag. -/
theorem ProcessInvariant.opener (inv : ProcessInvariant s) {u : ProcessThread}
    (opens : s.event.place u = .opens) : u = .sigwait ∧ s.sigwait = .signalling := by
  cases u with
  | main =>
    have waits := inv.mainIn
    rw [opens] at waits
    exact absurd waits (by decide)
  | sigwait =>
    refine ⟨rfl, ?_⟩
    by_contra other
    have away := inv.sigwaitAway other
    rw [opens] at away
    cases away

theorem ProcessInvariant.shut_go (inv : ProcessInvariant s) {u : ProcessThread}
    (go : s.event.go u = some event) (shut : s.event.isOpen = false)
    (other : s.sigwait ≠ .signalling) : event.isOpen = false :=
  (Gate.step_of_go go).shut shut fun opens => other (inv.opener opens).2

/-- A step inside of the event. -/
theorem ProcessInvariant.go (inv : ProcessInvariant s) {t : ProcessThread}
    (go : s.event.go t = some event) : ProcessInvariant { s with event } := by
  have step := Gate.step_of_go go
  have gate := step.sound inv.gate
  refine ⟨gate, fun other => Gate.stays_outside go (inv.mainAway other), step.waits inv.mainIn, ?_,
    fun summoned => step.isOpen (inv.summoned summoned),
    fun other => Gate.stays_outside go (inv.sigwaitAway other), step.not_waits inv.sigwaitIn, ?_,
    inv.handles, inv.set, inv.stored, ?_, inv.read, ?_, inv.freed⟩
  · intro waiting outside
    rcases inv.mainIn with waits | before
    · have leaves := step.through waits outside
      exact step.isOpen (inv.gate.opened _ (by rw [leaves]; rfl))
    · exact step.isOpen (inv.through waiting before)
  · intro signalling
    rcases inv.signals signalling with isOpen | about
    · exact .inl (step.isOpen isOpen)
    · exact step.about about
  · rintro (isOpen | signalling)
    · by_contra unknown
      obtain ⟨before, other⟩ := not_or.mp fun known => unknown (inv.known known)
      have still := inv.shut_go go (Bool.not_eq_true _ ▸ before) other
      rw [isOpen] at still
      cases still
    · exact inv.known (.inr signalling)
  · intro handler udata calling stale
    exact inv.shut_go go (inv.stale handler udata calling stale) (by rw [calling]; nofun)

theorem ProcessInvariant.outcome (inv : ProcessInvariant s) (outcome : Option ProcessEnd) :
    ProcessInvariant { s with outcome } := { inv with }

/-- The thread in `sigwait` takes a step outside of the event. -/
theorem ProcessInvariant.sigwait (inv : ProcessInvariant s) {sigwait : SigwaitThread}
    (away : s.event.place .sigwait = .outside) (other : sigwait ≠ .signalling)
    (read : ∀ handler, sigwait = .calling handler (some true) → s.udata = true)
    (stale : ∀ handler udata, sigwait = .calling handler udata → Stale handler udata →
      s.event.isOpen = false) : ProcessInvariant { s with sigwait } :=
  { inv with
    sigwaitAway := fun _ => away
    signals := fun signalling => absurd signalling other
    known := fun known => inv.known (known.imp id fun signalling => absurd signalling other)
    read, stale }

theorem ProcessInvariant.shut (inv : ProcessInvariant s) (unset : s.udata = false) :
    s.event.isOpen = false := by
  by_contra isOpen
  have known := inv.known (.inl (Bool.not_eq_false _ ▸ isOpen))
  rw [unset] at known
  cases known

/-- `main` begins to lock the mutex. -/
theorem ProcessInvariant.locks (inv : ProcessInvariant s)
    (free : (s.event.place .main).holds = false) (known : s.udata = true)
    (there : s.freed = false) : ProcessInvariant { s with
      main := .waiting, event := s.event.put .main .locksToWait } := by
  have own : (s.event.put .main .locksToWait).place .main = .locksToWait := by
    rw [Gate.put_place, if_pos rfl]
  have other : (s.event.put .main .locksToWait).place .sigwait = s.event.place .sigwait := by
    rw [Gate.put_place, if_neg (by decide)]
  exact { inv with
    gate := inv.gate.put free rfl nofun
    mainAway := fun other => absurd rfl other
    mainIn := .inl (by rw [own]; rfl)
    through := fun _ outside => by
      rw [own] at outside
      cases outside
    summoned := nofun
    sigwaitAway := fun away => other.trans (inv.sigwaitAway away)
    sigwaitIn := by
      rw [other]
      exact inv.sigwaitIn
    signals := by
      rw [other]
      exact inv.signals
    handles := fun _ => known
    set := nofun
    freed := fun freed => by
      rw [there] at freed
      cases freed }

theorem ProcessInvariant.there (inv : ProcessInvariant s)
    (main : ∀ created, s.main ≠ .returning created) : s.freed = false := by
  by_contra freed
  obtain ⟨created, returning⟩ := inv.freed (Bool.not_eq_false _ ▸ freed)
  exact main created returning

/-- The handler that `main` has set is called. -/
theorem ProcessInvariant.called (inv : ProcessInvariant s)
    (away : s.event.place .sigwait = .outside) (known : s.udata = true) :
    ProcessInvariant { s with
      sigwait := .signalling, event := s.event.put .sigwait .locksToOpen } := by
  have main : (s.event.put .sigwait .locksToOpen).place .main = s.event.place .main := by
    rw [Gate.put_place, if_neg (by decide)]
  have own : (s.event.put .sigwait .locksToOpen).place .sigwait = .locksToOpen := by
    rw [Gate.put_place, if_pos rfl]
  exact { inv with
    gate := inv.gate.put (by rw [away]; rfl) rfl nofun
    mainAway := fun other => main.trans (inv.mainAway other)
    mainIn := by
      rw [main]
      exact inv.mainIn
    through := fun waiting outside => inv.through waiting (main.symm.trans outside)
    sigwaitAway := fun other => absurd rfl other
    sigwaitIn := by
      rw [own]
      rfl
    signals := fun _ => .inr (.inl own)
    known := fun _ => known
    read := nofun
    stale := nofun }

theorem process_step (inv : ProcessInvariant s) (next : s.next e = some t) :
    ProcessInvariant t := by
  obtain ⟨-, step⟩ := Option.ite_none_right_eq_some.mp next
  cases e with
  | raise sig =>
    cases step
    exact { inv with }
  | take sig =>
    obtain ⟨⟨waiting, -⟩, ⟨⟩⟩ := Option.ite_none_right_eq_some.mp step
    have away := inv.sigwaitAway (by rw [waiting]; nofun)
    have taken : ProcessInvariant { s with
        sigwait := if sig ∈ termSignals then .calling none none else .waiting } := by
      split
      · refine inv.sigwait away nofun nofun ?_
        rintro _ _ ⟨⟩ (stale | stale) <;> cases stale
      · exact inv.sigwait away nofun nofun nofun
    exact { taken with }
  | readHandler =>
    simp only [Process.step] at step
    split at step
    · rename_i udata calling
      cases step
      have away := inv.sigwaitAway (by rw [calling]; nofun)
      refine inv.sigwait away nofun (fun _ same => ?_) ?_
      · cases same
        exact inv.read _ calling
      · rintro _ _ ⟨⟩ (stale | stale)
        · apply inv.shut
          by_contra set
          rw [inv.stored (Bool.not_eq_false _ ▸ set)] at stale
          cases stale
        · exact inv.stale _ _ calling (.inr stale)
    · cases step
  | readUdata =>
    simp only [Process.step] at step
    split at step
    · rename_i handler calling
      cases step
      have away := inv.sigwaitAway (by rw [calling]; nofun)
      refine inv.sigwait away nofun (fun _ same => ?_) ?_
      · exact Option.some.inj (SigwaitThread.calling.inj same).2
      · rintro _ _ ⟨⟩ (stale | stale)
        · exact inv.stale _ _ calling (.inl stale)
        · exact inv.shut (Option.some.inj stale)
    · cases step
  | callHandler =>
    simp only [Process.step] at step
    split at step
    · rename_i handler udata calling
      cases handler with
      | default =>
        cases step
        exact inv.outcome _
      | term =>
        cases udata with
        | false =>
          cases step
          exact inv.outcome _
        | true =>
          obtain ⟨event, call, rfl⟩ := Option.map_eq_some_iff.mp step
          obtain ⟨away, ⟨⟩⟩ := Option.ite_none_right_eq_some.mp call
          exact inv.called away (inv.read _ calling)
    · cases step
  | returnHandler =>
    obtain ⟨⟨-, outside⟩, ⟨⟩⟩ := Option.ite_none_right_eq_some.mp step
    exact inv.sigwait outside nofun nofun nofun
  | createEvent =>
    obtain ⟨main, ⟨⟩⟩ := Option.ite_none_right_eq_some.mp step
    exact inv.main (inv.mainAway (by rw [main]; nofun)) (by decide) nofun nofun
      (by rw [main]; nofun)
  | setHandler =>
    obtain ⟨main, ⟨⟩⟩ := Option.ite_none_right_eq_some.mp step
    exact { inv with
      mainAway := fun _ => inv.mainAway (by rw [main]; nofun)
      through := nofun
      summoned := nofun
      handles := nofun
      set := fun _ => rfl
      stored := fun _ => rfl
      freed := fun freed => absurd (inv.freed freed) (by rw [main]; nofun) }
  | setUdata =>
    obtain ⟨main, ⟨⟩⟩ := Option.ite_none_right_eq_some.mp step
    exact { inv with
      mainAway := fun _ => inv.mainAway (by rw [main]; nofun)
      through := nofun
      summoned := nofun
      handles := fun _ => rfl
      set := nofun
      stored := fun _ => inv.set main
      known := fun _ => rfl
      read := fun _ _ => rfl
      freed := fun freed => absurd (inv.freed freed) (by rw [main]; nofun) }
  | createAgent created =>
    obtain ⟨main, ⟨⟩⟩ := Option.ite_none_right_eq_some.mp step
    have away := inv.mainAway (by rw [main]; nofun)
    have udata := inv.handles (by rw [main]; rfl)
    cases created with
    | true => exact inv.main away (by decide) nofun (fun _ => udata) (by rw [main]; nofun)
    | false => exact inv.main away (by decide) nofun (fun _ => udata) (by rw [main]; nofun)
  | callWait =>
    obtain ⟨main, step⟩ := Option.ite_none_right_eq_some.mp step
    obtain ⟨event, call, rfl⟩ := Option.map_eq_some_iff.mp step
    obtain ⟨outside, ⟨⟩⟩ := Option.ite_none_right_eq_some.mp call
    exact inv.locks (by rw [outside]; rfl) (inv.handles (by rw [main]; rfl))
      (inv.there (by rw [main]; nofun))
  | endWait =>
    obtain ⟨⟨main, outside⟩, ⟨⟩⟩ := Option.ite_none_right_eq_some.mp step
    exact inv.main outside (by decide) (fun _ => inv.through main outside)
      (fun _ => inv.handles (by rw [main]; rfl)) (by rw [main]; nofun)
  | destroyAgent =>
    obtain ⟨main, ⟨⟩⟩ := Option.ite_none_right_eq_some.mp step
    exact inv.main (inv.mainAway (by rw [main]; nofun)) (by decide)
      (fun _ => inv.summoned (by rw [main]; rfl)) (fun _ => inv.handles (by rw [main]; rfl))
      (by rw [main]; nofun)
  | destroyEvent =>
    simp only [Process.step] at step
    split at step
    · rename_i created main
      cases step
      unfold Process.destroyEvent
      split
      · have moved : ProcessInvariant { s with main := .returning created } := inv.main
          (inv.mainAway (by rw [main]; nofun)) ⟨nofun, nofun⟩
          (fun summoned => inv.summoned (by
            rw [main, ← MainPhase.summoned_returning]
            exact summoned))
          (fun _ => inv.handles (by rw [main]; rfl)) (by rw [main]; nofun)
        exact { moved with freed := fun _ => ⟨created, rfl⟩ }
      · exact inv.outcome _
    · cases step
  | returnMain =>
    simp only [Process.step] at step
    split at step
    · cases step
      exact inv.outcome _
    · cases step
  | go u =>
    have step : s.go u = some t := step
    unfold Process.go at step
    split at step
    · split at step
      · cases step
      · cases step
        exact inv.outcome _
    · obtain ⟨event, go, rfl⟩ := Option.map_eq_some_iff.mp step
      exact inv.go go
  | wake =>
    obtain ⟨event, wake, rfl⟩ := Option.map_eq_some_iff.mp step
    obtain ⟨sleeps, ⟨⟩⟩ := Option.ite_none_right_eq_some.mp wake
    have waiting : s.main = .waiting := by
      by_contra other
      have outside := inv.mainAway other
      rw [sleeps] at outside
      cases outside
    have locks := inv.locks (by rw [sleeps]; rfl) (inv.handles (by rw [waiting]; rfl))
      (inv.there (by rw [waiting]; nofun))
    rwa [← waiting] at locks

end

end Yella
