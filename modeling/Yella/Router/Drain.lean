import Yella.Router.Model
import Yella.Spool.Carried
import Yella.Spool.Fifo

/-!
# What the drain loop assumes

`spool_main` pops an event only if its variable `ready` says so, which is never assigned, and
asserts that the event has two parts. `send_plugin_message` gives the router one part.
-/

namespace Yella

/-- The parts that `send_plugin_message` makes of a packed parcel. -/
def pluginMessage (packed : Bytes) : List Bytes := [packed]

/-- In the agent only `send_plugin_message` calls `send_router_message`. -/
def PluginSends : RouterEvent → Prop
  | .call _ msgs => ∃ packed, msgs = pluginMessage packed
  | _ => True

instance (e : RouterEvent) : Decidable (PluginSends e) :=
  match e with
  | .call _ msgs => decidable_of_iff (msgs.length = 1) (by rw [List.length_eq_one_iff]; rfl)
  | .monitor _ | .stop | .readState _ | .choose _ | .push _ _ | .send _ _ | .wake | .check
  | .pop _ _ | .sendPopped _ | .outgoing _ | .restart _ => .isTrue trivial

namespace Router

/-- The thread of `spool_main` has come to the pop: there is a connection, the spool is not
empty, and the router is not stopping. -/
def AtDrain (s : Router) : Prop :=
  s.spooler = .woken .connected ∧ s.shouldStop = false ∧ spoolEmptyOfMessages s.sp = false

/-- The thread of `spool_main` calls `spool_pop` next. -/
def PopsNext (s : Router) (ready : Bool) : Prop :=
  ∃ st, s.spooler = .woken st ∧ s.afterWake ready st = .popping

/-- Whether there is a pop does not depend on `ready`, and an event that is popped passes the
assertion. -/
structure DrainAssumptions (lo : ListingOrder) (s : Router) : Prop where
  decided : ∀ ready ready', s.PopsNext ready → s.PopsNext ready'
  twoParts : s.spooler = .popping → ∀ rounds signaled sp parts,
    spoolPop lo rounds signaled s.sp = some (sp, .noError, parts) → parts.length = 2

instance (s : Router) : Decidable s.AtDrain := inferInstanceAs (Decidable (_ ∧ _ ∧ _))

theorem afterWake_popping {s : Router} {ready : Bool} {st : RouterState} :
    s.afterWake ready st = .popping ↔ s.shouldStop = false ∧ st = .connected ∧
      spoolEmptyOfMessages s.sp = false ∧ ready = true := by
  unfold afterWake
  constructor
  · intro h
    split at h
    · cases h
    · rename_i goesOn
      split at h
      · rename_i connected
        split at h
        · rename_i some
          split at h
          · exact ⟨by simpa using goesOn, connected, by simpa using some, ‹_›⟩
          · cases h
        · cases h
      · cases h
  · rintro ⟨goesOn, rfl, some, rfl⟩
    simp [goesOn, some]

theorem popsNext_iff {s : Router} {ready : Bool} :
    s.PopsNext ready ↔ s.AtDrain ∧ ready = true := by
  constructor
  · rintro ⟨st, here, next⟩
    obtain ⟨goesOn, rfl, some, isReady⟩ := afterWake_popping.mp next
    exact ⟨⟨here, goesOn, some⟩, isReady⟩
  · rintro ⟨⟨here, goesOn, some⟩, isReady⟩
    exact ⟨_, here, afterWake_popping.mpr ⟨goesOn, rfl, some, isReady⟩⟩

/-- At the pop `ready` decides, and nowhere else. -/
theorem decided_iff {s : Router} :
    (∀ ready ready', s.PopsNext ready → s.PopsNext ready') ↔ ¬ s.AtDrain := by
  constructor
  · intro decided atDrain
    have pops := popsNext_iff.mpr ⟨atDrain, rfl⟩
    have := (popsNext_iff.mp (decided true false pops)).2
    cases this
  · intro away ready ready' pops
    exact absurd (popsNext_iff.mp pops).1 away

end Router

section
variable {lo : ListingOrder} {ready : Bool} {events : List RouterEvent} {s : Router}

/-- A thread that was never at the pop is not in it. -/
theorem not_popping {Allowed : Router → RouterEvent → Prop}
    (run : (routerMachine lo ready).Run Allowed events s)
    (away : ∀ s e, Allowed s e → ¬ s.AtDrain) : s.spooler ≠ .popping := by
  refine run.invariant (fun s => s.spooler ≠ .popping) ?_ ?_
  · rintro s ⟨_, _, _, sp, _, _, rfl⟩ popping
    cases popping
  · intro s e t before here next
    have away := away s e here
    cases routerNext_step next with
    | monitor | stop | call | readState | toSpool | toSocket | pushed | notPushed | sent | notSent
    | outgoing => exact before
    | wake | popped | notPopped | sentPopped | lostPopped | restart =>
      intro popping
      cases popping
    | check woken =>
      intro popping
      exact away (Router.popsNext_iff.mp ⟨_, woken, popping⟩).1

/-- In a run of the agent that has not come to the pop before, what the loop assumes holds until
it comes to it. -/
theorem drain_assumptions_iff (run : (routerMachine lo ready).Run
    (fun s e => PluginSends e ∧ ¬ s.AtDrain) events s) :
    s.DrainAssumptions lo ↔ ¬ s.AtDrain := by
  constructor
  · exact fun assumed => Router.decided_iff.mp assumed.decided
  · intro away
    refine ⟨Router.decided_iff.mpr away, fun popping => ?_⟩
    exact absurd popping (not_popping run fun _ _ allowed => allowed.2)

/-- The agent's messages have one part each, those under way too. -/
theorem agent_spool_run (run : (routerMachine lo ready).Run
    (fun s e => PluginSends e ∧ ∀ op, s.spoolOp e = some op → LiveAllowed s.sp op) events s) :
    ∃ trace, SpoolRun lo (PushesOnly (·.length = 1)) trace s.sp := by
  have single := run.invariant
    (fun s => (∀ i msg, (s.calls i).message = some msg → msg.parts.length = 1) ∧
      ∃ trace, SpoolRun lo (PushesOnly (·.length = 1)) trace s.sp) ?_ ?_
  · exact single.2
  · rintro s ⟨settings, disk, listings, sp, empty, opened, rfl⟩
    exact ⟨fun _ _ under => (by cases under), [], .create empty opened⟩
  · rintro s e t ⟨pending, trace, ih⟩ ⟨sends, live⟩ next
    have step := routerNext_step next
    refine ⟨fun i msg under => ?_, ?_⟩
    · rcases step.message under with before | ⟨msgs, rfl, _, rfl⟩
      · exact pending i msg before
      · obtain ⟨packed, rfl⟩ := sends
        rfl
    · rcases step.spool with ⟨_, same⟩ | ⟨op, out, hop, spoolStep⟩
      · exact ⟨trace, same ▸ ih⟩
      · refine ⟨_, .next ih ⟨live op hop, ?_⟩ spoolStep⟩
        rintro msgs allow rfl
        cases e with
        | push i allowance =>
          obtain ⟨msg, under, hmsg⟩ := Option.map_eq_some_iff.mp hop
          cases hmsg
          rw [storedParts_length]
          exact pending i msg under
        | pop | restart => cases hop
        | monitor | stop | call | readState | choose | send | wake | check | sendPopped
        | outgoing => cases hop

/-- Every event that the agent's spool returns has one part, so the assertion fails at each. -/
theorem popped_one_part (run : (routerMachine lo ready).Run
    (fun s e => PluginSends e ∧ ∀ op, s.spoolOp e = some op → LiveAllowed s.sp op) events s)
    {rounds : Nat} {signaled : Bool} {sp : Spool} {parts : List Bytes}
    (h : spoolPop lo rounds signaled s.sp = some (sp, .noError, parts)) : parts.length = 1 := by
  obtain ⟨trace, run⟩ := agent_spool_run run
  exact popped_carried run h

end

/-! ## A message that is sent without a connection -/

/-- `send_plugin_message` without a connection, and the connection after it. -/
def spoolsThenConnects : List RouterEvent :=
  [.call 0 (pluginMessage [1]), .readState 0, .choose 0, .push 0 .full, .monitor .connected]

/-- Before the thread of `spool_main` wakes up, its assumptions hold. -/
theorem drain_assumptions_connected : ∃ events s, (routerMachine inCreationOrder true).Run
      (fun s e => PluginSends e ∧ ¬ s.AtDrain) events s ∧
    s.state = .connected ∧ unvisitedEvents s.sp.disk = [[[1]]] ∧
    (s.DrainAssumptions inCreationOrder ↔ ¬ s.AtDrain) ∧ ¬ s.AtDrain := by
  obtain ⟨s, run, h⟩ := @exists_router_run inCreationOrder true
    (fun s e => PluginSends e ∧ ¬ s.AtDrain) _ tenPartitions spoolsThenConnects
    (fun s => s.state = .connected ∧ unvisitedEvents s.sp.disk = [[[1]]] ∧ ¬ s.AtDrain)
    (by decide +kernel) (by decide +kernel)
  obtain ⟨connected, unvisited, away⟩ := of_decide_eq_true h
  exact ⟨_, s, run, connected, unvisited, drain_assumptions_iff run, away⟩

/-- With `ready` the event is popped and has one part, and without it nothing is popped. -/
theorem spooled_message_fails_assertion :
    (∃ events s, (routerMachine inCreationOrder true).Run (fun _ e => PluginSends e) events s ∧
      s.spooler = .popping ∧
      ∃ sp, spoolPop inCreationOrder 9 false s.sp = some (sp, .noError, [[1]])) ∧
    (∃ events s, (routerMachine inCreationOrder true).Run (fun _ e => PluginSends e) events s ∧
      s.PopsNext true ∧ ¬ s.PopsNext false) ∧
    ¬ ∀ events s, (routerMachine inCreationOrder true).Run (fun _ e => PluginSends e) events s →
      s.DrainAssumptions inCreationOrder := by
  obtain ⟨s, run, h⟩ := @exists_router_run inCreationOrder true (fun _ e => PluginSends e) _
    tenPartitions (spoolsThenConnects ++ [.wake, .check])
    (fun s => s.spooler = .popping ∧
      (spoolPop inCreationOrder 9 false s.sp).map Prod.snd = some (.noError, [[1]]))
    (by decide +kernel) (by decide +kernel)
  obtain ⟨popping, hpop⟩ := of_decide_eq_true h
  obtain ⟨⟨sp, out⟩, hpop, hout⟩ := Option.map_eq_some_iff.mp hpop
  subst hout
  obtain ⟨t, run', h'⟩ := @exists_router_run inCreationOrder true (fun _ e => PluginSends e) _
    tenPartitions (spoolsThenConnects ++ [.wake]) (fun s => s.AtDrain)
    (by decide +kernel) (by decide +kernel)
  have atDrain := of_decide_eq_true h'
  refine ⟨⟨_, s, run, popping, sp, hpop⟩, ⟨_, t, run', ?_, ?_⟩, fun all => ?_⟩
  · exact Router.popsNext_iff.mpr ⟨atDrain, rfl⟩
  · intro pops
    cases (Router.popsNext_iff.mp pops).2
  · have := (all _ s run).twoParts popping 9 false sp _ hpop
    cases this

end Yella
