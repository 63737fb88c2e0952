import Mathlib.Algebra.BigOperators.Ring.Finset
import Yella.AgentFace.Traffic

/-!
# What the router can still do

As long as a worker is left, everything that waits can be worked off without further input. The
weight of a state is what is left to do, and each step that does something lessens it.
-/

namespace Yella.AgentFace

variable {Worker Msg Out : Type} [DecidableEq Worker]

/-- Neither input nor a handler that throws -/
def Event.Internal : Event Worker Msg Out → Prop
  | .agentSends _ | .queueSends _ _ | .workerEnds _ .exception => False
  | _ => True

/-- A worker that has a token, or gets one when it connects -/
def State.Alive (s : State Worker Msg Out) (w : Worker) : Prop :=
  0 < s.tokens w ∨ s.phase w = .starting

/-- Nothing waits and nothing is handled. -/
structure State.Idle (s : State Worker Msg Out) : Prop where
  agents : s.agentMessages = []
  outgoing : s.outgoingMessages = []
  workers : ∀ w, s.working w = 0

/-- Somebody can take what the agents have sent. -/
def State.Able (s : State Worker Msg Out) : Prop := s.agentMessages = [] ∨ ∃ w, s.Alive w

theorem lost_of_internal {e : Event Worker Msg Out} (internal : e.Internal) (w : Worker) :
    e.lost w = 0 := by
  apply lost_eq_zero
  rintro rfl
  exact internal

variable [DecidableEq Msg]

/-! ## What the poll has found -/

/-- The input that the poll has found is there until it is read, and tokens are only with workers
that have connected. -/
structure State.Ready (s : State Worker Msg Out) : Prop where
  backend : s.main = .backend → s.revents.backend → s.readyMessages ≠ []
  outgoing : s.main = .backend ∨ s.main = .outgoing → s.revents.outgoing →
    s.outgoingMessages ≠ []
  agent : s.main ≠ .polling → s.revents.agent → s.readyWorkers ≠ [] ∧ s.agentMessages ≠ []
  tokens : ∀ w, s.tokens w ≤ s.started w

section
variable {s t : State Worker Msg Out} {e : Event Worker Msg Out}

theorem Step.ready (h : Step s e t) (ready : s.Ready) : t.Ready where
  backend := by
    cases h with
    | poll main input => exact fun _ => input.2.1
    | connect | success => exact fun _ _ => by simp
    | recvBackend | recvOutgoing | recvAgent | noBackend | noOutgoing | noAgent =>
      exact fun main => by cases main
    | agentSends | queueSends | noRecipient | workerTakes | exception => exact ready.backend
  outgoing := by
    cases h with
    | poll main input => exact fun _ => input.2.2.1
    | queueSends => exact fun _ _ => by simp
    | recvOutgoing | recvAgent | noOutgoing | noAgent => exact fun main => by simp at main
    | recvBackend main | noBackend main => exact fun _ => ready.outgoing (.inl main)
    | connect | agentSends | noRecipient | workerTakes | success | exception => exact ready.outgoing
  agent := by
    cases h with
    | poll main input => exact fun _ => input.2.2.2
    | recvAgent | noAgent => exact fun main => absurd rfl main
    | agentSends => exact fun main agent => ⟨(ready.agent main agent).1, by simp⟩
    | recvBackend main =>
      exact fun _ agent => ⟨by simp, (ready.agent (by simp [main]) agent).2⟩
    | recvOutgoing main | noBackend main | noOutgoing main =>
      exact fun _ => ready.agent (by simp [main])
    | connect | queueSends | noRecipient | workerTakes | success | exception => exact ready.agent
  tokens w := by
    have tokens := step_tokens h w
    have started := step_started h w
    have before := ready.tokens w
    omega

theorem initial_ready : (State.initial : State Worker Msg Out).Ready where
  backend main := by cases main
  outgoing main := by rcases main with main | main <;> cases main
  agent main := absurd rfl main
  tokens w := by simp [State.initial, State.tokens]

theorem Step.able (h : Step s e t) (internal : e.Internal) (able : s.Able) : t.Able := by
  rcases able with none' | ⟨w, alive⟩
  · left
    cases h with
    | agentSends => exact internal.elim
    | recvAgent => simp [none']
    | connect | queueSends | noRecipient | poll | recvBackend | recvOutgoing | noBackend
    | noOutgoing | noAgent | workerTakes | success | exception => exact none'
  · right
    have tokens := step_tokens h w
    rw [lost_of_internal internal w, Nat.add_zero] at tokens
    rcases alive with token | starting
    · exact ⟨w, .inl (by omega)⟩
    · by_cases connects : e = .connect w
      · subst connects
        have gained : (Event.connect w : Event Worker Msg Out).gained w = 1 := if_pos rfl
        exact ⟨w, .inl (by omega)⟩
      · exact ⟨w, .inr ((step_starting h w).mpr ⟨starting, connects⟩)⟩

/-- Without a worker the messages of the agents only get more. -/
theorem Step.dead (h : Step s e t) (dead : ∀ w, ¬ s.Alive w) :
    (∀ w, ¬ t.Alive w) ∧ t.agentMessages = s.agentMessages ++ e.received := by
  constructor
  · intro w alive
    have before := not_or.mp (dead w)
    have tokens := step_tokens h w
    have other : e ≠ .connect w := by
      rintro rfl
      cases h with
      | connect starting => exact before.2 starting
    rw [gained_eq_zero other] at tokens
    rcases alive with token | starting
    · exact before.1 (by omega)
    · exact before.2 ((step_starting h w).mp starting).1
  · cases h with
    | @recvAgent msg v rest main front =>
      refine absurd (.inl ?_) (dead v)
      simp only [State.tokens, front, List.count_cons_self]
      omega
    | connect | agentSends | queueSends | noRecipient | poll | recvBackend | recvOutgoing
    | noBackend | noOutgoing | noAgent | workerTakes | success | exception => simp [Event.received]

end

/-! ## What is left to do -/

def BackendPhase.load : BackendPhase Msg → ℕ
  | .starting => 2
  | .waiting => 0
  | .handling _ => 2

def State.load (s : State Worker Msg Out) (w : Worker) : ℕ :=
  3 * (s.workMessages w).length + (s.phase w).load

/-- What is left to do: each message is counted for all of its way. -/
def State.weight [Fintype Worker] (s : State Worker Msg Out) : ℕ :=
  5 * s.agentMessages.length + s.outgoingMessages.length + s.readyMessages.length + ∑ w, s.load w

/-- What an event takes off the load of a worker. -/
def Event.unloaded : Event Worker Msg Out → Worker → ℕ
  | .connect v, w | .workerEnds v _, w => if v = w then 2 else 0
  | .workerTakes v, w => if v = w then 1 else 0
  | _, _ => 0

/-- What an event takes off the weight. -/
def Event.done : Event Worker Msg Out → ℕ
  | .connect _ | .recvBackend _ | .recvOutgoing | .workerTakes _ | .workerEnds _ _ => 1
  | .recvAgent _ => 2
  | _ => 0

section
variable {s t : State Worker Msg Out} {e : Event Worker Msg Out}

theorem step_load (h : Step s e t) (w : Worker) :
    t.load w + e.unloaded w = s.load w + 3 * (e.given s w).card := by
  cases h with
  | @connect v starting =>
    by_cases own : w = v
    · subst own
      simp [State.load, Event.unloaded, Event.given, starting, BackendPhase.load]
    · simp [State.load, Event.unloaded, Event.given, own, Ne.symm own]
  | agentSends | queueSends | noRecipient | poll | recvBackend | recvOutgoing | noBackend
  | noOutgoing | noAgent =>
    simp [State.load, Event.unloaded, Event.given]
  | @recvAgent msg v rest main front =>
    by_cases own : w = v
    · subst own
      simp only [State.load, Event.unloaded, Event.given, front, Function.update_self,
        List.head?_cons, if_true, List.length_append, List.length_singleton,
        Multiset.card_singleton]
      omega
    · simp [State.load, Event.unloaded, Event.given, front, own, Ne.symm own]
  | @workerTakes v msg rest waiting work =>
    by_cases own : w = v
    · subst own
      simp only [State.load, Event.unloaded, Event.given, Function.update_self, work, waiting,
        BackendPhase.load, List.length_cons, if_true, Multiset.card_zero]
      omega
    · simp [State.load, Event.unloaded, Event.given, own, Ne.symm own]
  | @success v msg handling | @exception v msg handling =>
    by_cases own : w = v
    · subst own
      simp [State.load, Event.unloaded, Event.given, handling, BackendPhase.load]
    · simp [State.load, Event.unloaded, Event.given, own, Ne.symm own]

theorem next_weight [Fintype Worker] (h : next s e = some t) (internal : e.Internal) :
    t.weight + e.done = s.weight := by
  have step := next_step h
  have load : ∑ w, t.load w + ∑ w, e.unloaded w =
      ∑ w, s.load w + 3 * ∑ w, (e.given s w).card := by
    rw [Finset.mul_sum, ← Finset.sum_add_distrib, ← Finset.sum_add_distrib]
    exact Finset.sum_congr rfl fun w _ => step_load step w
  unfold State.weight
  cases step with
  | agentSends | queueSends | noRecipient | exception => exact internal.elim
  | poll | noBackend | noOutgoing | noAgent => rfl
  | @connect v starting =>
    simp only [Event.unloaded, Event.given, Event.done, Finset.sum_ite_eq, Finset.mem_univ,
      if_true, Multiset.card_zero, Finset.sum_const_zero, List.length_append,
      List.length_singleton] at load ⊢
    omega
  | @recvBackend v main there =>
    have more := List.length_pos_of_mem there
    simp only [Event.unloaded, Event.given, Event.done, Multiset.card_zero, Finset.sum_const_zero,
      List.length_erase_of_mem there] at load ⊢
    omega
  | @recvOutgoing out rest main input =>
    simp only [Event.unloaded, Event.given, Event.done, Multiset.card_zero, Finset.sum_const_zero,
      input, List.length_cons] at load ⊢
    omega
  | @recvAgent msg v rest main front =>
    have there := next_recvAgent_mem h
    have more := List.length_pos_of_mem there
    have one : ∑ w, ((Event.recvAgent msg : Event Worker Msg Out).given s w).card = 1 := by
      simp [Event.given, front, apply_ite Multiset.card]
    rw [one] at load
    simp only [Event.unloaded, Event.done, Finset.sum_const_zero,
      List.length_erase_of_mem there] at load ⊢
    omega
  | @workerTakes v msg rest waiting work =>
    simp only [Event.unloaded, Event.given, Event.done, Finset.sum_ite_eq, Finset.mem_univ,
      if_true, Multiset.card_zero, Finset.sum_const_zero] at load ⊢
    omega
  | @success v msg handling =>
    simp only [Event.unloaded, Event.given, Event.done, Finset.sum_ite_eq, Finset.mem_univ,
      if_true, Multiset.card_zero, Finset.sum_const_zero, List.length_append,
      List.length_singleton] at load ⊢
    omega

end

/-! ## Going on without input -/

/-- Internal events lead from the one state to the other. -/
inductive Leads : State Worker Msg Out → State Worker Msg Out → Prop where
  | refl (s : State Worker Msg Out) : Leads s s
  | step {s t u : State Worker Msg Out} {e : Event Worker Msg Out} : next s e = some t →
      e.Internal → Leads t u → Leads s u

section
variable {s t u : State Worker Msg Out} {e : Event Worker Msg Out}

theorem Leads.trans (first : Leads s t) (second : Leads t u) : Leads s u := by
  induction first with
  | refl => exact second
  | step next internal _ ih => exact .step next internal (ih second)

theorem Leads.ready (h : Leads s t) (ready : s.Ready) : t.Ready := by
  induction h with
  | refl => exact ready
  | step next _ _ ih => exact ih ((next_step next).ready ready)

theorem Leads.able (h : Leads s t) (able : s.Able) : t.Able := by
  induction h with
  | refl => exact able
  | step next internal _ ih => exact ih ((next_step next).able internal able)

theorem Leads.weight_le [Fintype Worker] (h : Leads s t) : t.weight ≤ s.weight := by
  induction h with
  | refl => exact Nat.le_refl _
  | step next internal _ ih =>
    have less := next_weight next internal
    omega

/-- A step that does something, and what follows, lessen the weight. -/
theorem weight_lt_of_done [Fintype Worker] (h : next s e = some t) (internal : e.Internal)
    (done : 0 < e.done) (rest : Leads t u) : u.weight < s.weight := by
  have less := next_weight h internal
  have least := rest.weight_le
  omega

end

/-! ## The main loop -/

section
variable [Fintype Worker] {s t : State Worker Msg Out}

/-- The loop gets back to its poll, and has done something if there was input. -/
def State.Turns (s : State Worker Msg Out) (input : Prop) : Prop :=
  ∃ t, Leads s t ∧ t.main = .polling ∧ (input → t.weight < s.weight)

theorem State.Turns.step {e : Event Worker Msg Out} {input : Prop} (run : next s e = some t)
    (internal : e.Internal) (rest : t.Turns input) : s.Turns (0 < e.done ∨ input) := by
  obtain ⟨u, leads, polling, less⟩ := rest
  refine ⟨u, .step run internal leads, polling, ?_⟩
  rintro (done | found)
  · exact weight_lt_of_done run internal done leads
  · have first := next_weight run internal
    have later := less found
    omega

theorem turns_polling (polling : s.main = .polling) : s.Turns False :=
  ⟨s, .refl s, polling, False.elim⟩

theorem turns_agent (ready : s.Ready) (main : s.main = .agent) : s.Turns s.revents.agent := by
  by_cases input : s.revents.agent = true
  · obtain ⟨some', waits⟩ := ready.agent (by simp [main]) input
    obtain ⟨v, rest, front⟩ := List.exists_cons_of_ne_nil some'
    obtain ⟨msg, there⟩ := List.exists_mem_of_ne_nil _ waits
    obtain ⟨t, run, polling⟩ : ∃ t, next s (.recvAgent msg) = some t ∧ t.main = .polling := by
      simp only [next, front]
      exact ⟨_, if_pos ⟨main, input, there⟩, rfl⟩
    have turn := (turns_polling polling).step run trivial
    exact turn.imp fun _ h => ⟨h.1, h.2.1, fun _ => h.2.2 (.inl Nat.two_pos)⟩
  · have run : next s .noInput = some { s with main := .polling } := by
      simp only [next, main, input]
      rfl
    have turn := (turns_polling rfl).step run trivial
    exact turn.imp fun _ h => ⟨h.1, h.2.1, fun agent => absurd agent input⟩

theorem turns_outgoing (ready : s.Ready) (main : s.main = .outgoing) :
    s.Turns (s.revents.outgoing ∨ s.revents.agent) := by
  by_cases input : s.revents.outgoing = true
  · obtain ⟨out, rest, waits⟩ := List.exists_cons_of_ne_nil (ready.outgoing (.inr main) input)
    obtain ⟨t, run, next'⟩ : ∃ t, next s .recvOutgoing = some t ∧ t.main = .agent := by
      simp only [next, waits]
      exact ⟨_, if_pos ⟨main, input⟩, rfl⟩
    have turn := (turns_agent ((next_step run).ready ready) next').step run trivial
    exact turn.imp fun _ h => ⟨h.1, h.2.1, fun _ => h.2.2 (.inl Nat.one_pos)⟩
  · have run : next s .noInput = some { s with main := .agent } := by
      simp only [next, main, input]
      rfl
    have turn := (turns_agent ((next_step run).ready ready) rfl).step run trivial
    exact turn.imp fun _ h => ⟨h.1, h.2.1, fun found => h.2.2 (.inr (found.resolve_left input))⟩

theorem turns_backend (ready : s.Ready) (main : s.main = .backend) :
    s.Turns (s.revents.backend ∨ s.revents.outgoing ∨ s.revents.agent) := by
  by_cases input : s.revents.backend = true
  · obtain ⟨w, there⟩ := List.exists_mem_of_ne_nil _ (ready.backend main input)
    obtain ⟨t, run, next'⟩ : ∃ t, next s (.recvBackend w) = some t ∧ t.main = .outgoing :=
      ⟨_, if_pos ⟨main, input, there⟩, rfl⟩
    have turn := (turns_outgoing ((next_step run).ready ready) next').step run trivial
    exact turn.imp fun _ h => ⟨h.1, h.2.1, fun _ => h.2.2 (.inl Nat.one_pos)⟩
  · have run : next s .noInput = some { s with main := .outgoing } := by
      simp only [next, main, input]
      rfl
    have turn := (turns_outgoing ((next_step run).ready ready) rfl).step run trivial
    exact turn.imp fun _ h => ⟨h.1, h.2.1, fun found => h.2.2 (.inr (found.resolve_left input))⟩

/-- Wherever the loop is, it gets back to its poll. -/
theorem leads_polling (ready : s.Ready) : ∃ t, Leads s t ∧ t.main = .polling := by
  have turns (input : Prop) (turn : s.Turns input) : ∃ t, Leads s t ∧ t.main = .polling :=
    turn.imp fun _ h => ⟨h.1, h.2.1⟩
  cases main : s.main with
  | polling => exact ⟨s, .refl s, main⟩
  | agent => exact turns _ (turns_agent ready main)
  | outgoing => exact turns _ (turns_outgoing ready main)
  | backend => exact turns _ (turns_backend ready main)

/-- A poll that finds input, and the round of the loop after it. -/
theorem turns_poll (ready : s.Ready) (main : s.main = .polling) {r : Revents}
    (input : s.CanPoll r) : s.Turns True := by
  have run : next s (.poll r) = some { s with main := .backend, revents := r } :=
    if_pos ⟨main, input⟩
  have turn := (turns_backend ((next_step run).ready ready) rfl).step run trivial
  exact turn.imp fun _ h => ⟨h.1, h.2.1, fun _ => h.2.2 (.inr input.1)⟩

/-! ## Working everything off -/

/-- A worker that has a message, or one on its way, gets on with it. -/
theorem turns_worker (ready : s.Ready) (main : s.main = .polling) {w : Worker}
    (busy : s.working w ≠ 0) : s.Turns True := by
  cases phase : s.phase w with
  | handling msg =>
    obtain ⟨t, run, same⟩ : ∃ t, next s (.workerEnds w .success) = some t ∧ t.main = s.main := by
      simp only [next, phase]
      exact ⟨_, rfl, rfl⟩
    have turn := (turns_polling (same.trans main)).step run trivial
    exact turn.imp fun _ h => ⟨h.1, h.2.1, fun _ => h.2.2 (.inl Nat.one_pos)⟩
  | waiting =>
    have some' : s.workMessages w ≠ [] := by
      intro none'
      simp [State.working, none', phase] at busy
    obtain ⟨msg, rest, work⟩ := List.exists_cons_of_ne_nil some'
    obtain ⟨t, run, same⟩ : ∃ t, next s (.workerTakes w) = some t ∧ t.main = s.main := by
      simp only [next, work]
      exact ⟨_, if_pos phase, rfl⟩
    have turn := (turns_polling (same.trans main)).step run trivial
    exact turn.imp fun _ h => ⟨h.1, h.2.1, fun _ => h.2.2 (.inl Nat.one_pos)⟩
  | starting =>
    have tokens := ready.tokens w
    have none' : s.workMessages w = [] := by
      apply List.eq_nil_of_length_eq_zero
      simp only [State.started, State.tokens, phase, if_true] at tokens
      omega
    simp [State.working, none', phase] at busy

/-- Where something waits and somebody can take it, something is done. -/
theorem turns_of_not_idle (ready : s.Ready) (able : s.Able) (main : s.main = .polling)
    (left : ¬ s.Idle) : s.Turns True := by
  by_cases busy : ∃ w, s.working w ≠ 0
  · obtain ⟨w, busy⟩ := busy
    exact turns_worker ready main busy
  have calm (w : Worker) : s.working w = 0 := by
    by_contra h
    exact busy ⟨w, h⟩
  by_cases fresh : s.readyMessages = []
  swap
  · apply turns_poll ready main (r := ⟨true, false, false⟩)
    exact ⟨.inl rfl, fun _ => fresh, by simp, by simp⟩
  by_cases out : s.outgoingMessages = []
  swap
  · apply turns_poll ready main (r := ⟨false, true, false⟩)
    exact ⟨.inr (.inl rfl), by simp, fun _ => out, by simp⟩
  have waits : s.agentMessages ≠ [] := fun none' => left ⟨none', out, calm⟩
  obtain ⟨w, token | starting⟩ := able.resolve_left waits
  · -- The token of an idle worker is its place in the queue.
    have queued : s.readyWorkers ≠ [] := by
      intro none'
      have idle := calm w
      rw [State.working, add_eq_zero] at idle
      have work : s.workMessages w = [] := by simpa using idle.1
      have held : (s.phase w).held = 0 := by
        cases phase : s.phase w with
        | handling msg => simp [phase] at idle
        | starting | waiting => rfl
      simp [State.tokens, fresh, none', work, held] at token
    apply turns_poll ready main (r := ⟨false, false, true⟩)
    exact ⟨.inr (.inr rfl), by simp, by simp, fun _ => ⟨queued, waits⟩⟩
  · obtain ⟨t, run, same⟩ : ∃ t, next s (.connect w) = some t ∧ t.main = s.main :=
      ⟨_, if_pos starting, rfl⟩
    have turn := (turns_polling (same.trans main)).step run trivial
    exact turn.imp fun _ h => ⟨h.1, h.2.1, fun _ => h.2.2 (.inl Nat.one_pos)⟩

theorem leads_idle (ready : s.Ready) (able : s.Able) : ∃ t, Leads s t ∧ t.Idle := by
  induction left : s.weight using Nat.strongRecOn generalizing s with
  | ind n ih =>
    obtain ⟨p, back, polling⟩ := leads_polling ready
    by_cases idle : p.Idle
    · exact ⟨p, back, idle⟩
    · obtain ⟨t, turn, -, less⟩ :=
        turns_of_not_idle (back.ready ready) (back.able able) polling idle
      have lower := less trivial
      have before := back.weight_le
      have leads := back.trans turn
      obtain ⟨u, rest, done⟩ := ih t.weight (by omega) (leads.ready ready) (leads.able able) rfl
      exact ⟨u, leads.trans rest, done⟩

end

/-! ## What becomes of the messages -/

section
variable [Fintype Worker] {events : List (Event Worker Msg Out)} {s : Traffic Worker Msg Out}

/-- Without further input, everything that waits or is being handled is published and the queue's
messages go out. -/
def Traffic.CanFinish (s : Traffic Worker Msg Out) : Prop :=
  ∃ more t, (∀ e ∈ more, e.Internal) ∧ traffic.after s more = some t ∧ t.state.Idle ∧
    t.dropped = s.dropped ∧
    t.published = s.published + (s.state.agentMessages + ∑ w, s.state.working w)

omit [Fintype Worker] [DecidableEq Worker] [DecidableEq Msg] in
theorem Traffic.dropped_internal {e : Event Worker Msg Out} (internal : e.Internal)
    (t : State Worker Msg Out) : (s.after e t).dropped = s.dropped := by
  cases e with
  | workerEnds w outcome =>
    cases outcome with
    | success => exact add_zero _
    | exception => exact internal.elim
  | _ => exact add_zero _

omit [Fintype Worker] in
theorem Leads.traffic {t : State Worker Msg Out} (h : Leads s.state t) :
    ∃ more u, (∀ e ∈ more, e.Internal) ∧ traffic.after s more = some u ∧ u.state = t ∧
      u.dropped = s.dropped := by
  generalize start : s.state = p at h
  induction h generalizing s with
  | refl => exact ⟨[], s, by simp, rfl, start, rfl⟩
  | @step p t u e next internal _ ih =>
    subst start
    have first : AgentFace.traffic.next s e = some (s.after e t) := by
      simp only [AgentFace.traffic, next, Option.map_some]
    obtain ⟨more, v, each, after, state, dropped⟩ := ih (s := s.after e t) rfl
    refine ⟨e :: more, v, List.forall_mem_cons.mpr ⟨internal, each⟩, ?_, state, ?_⟩
    · rw [Machine.after, first]
      exact after
    · rw [dropped, Traffic.dropped_internal internal]

omit [Fintype Worker] [DecidableEq Worker] [DecidableEq Msg] in
theorem received_of_internal {more : List (Event Worker Msg Out)}
    (internal : ∀ e ∈ more, e.Internal) : more.flatMap Event.received = [] := by
  apply List.flatMap_eq_nil_iff.mpr
  intro e he
  cases e with
  | agentSends msg => exact (internal _ he).elim
  | _ => rfl

omit [Fintype Worker] in
theorem ready_of_run (run : traffic.Run Machine.Any events s) : s.state.Ready := by
  apply run.invariant fun s => s.state.Ready
  · rintro s rfl
    exact initial_ready
  · intro s e t ready _ next
    obtain ⟨u, step, rfl⟩ := Option.map_eq_some_iff.mp next
    exact (next_step step).ready ready

/-- A worker is left exactly as long as fewer messages have been dropped than there are workers. -/
theorem alive_iff (run : traffic.Run Machine.Any events s) :
    (∃ w, s.state.Alive w) ↔ s.dropped.card < Fintype.card Worker := by
  have tokens := (conserved_of_run run).tokens
  have all : ∑ _w : Worker, 1 = Fintype.card Worker := by simp
  have each (w : Worker) : s.state.started w ≤ 1 := by
    unfold State.started
    split <;> omega
  constructor
  · rintro ⟨w, token | starting⟩
    · have most := sum_started_le s.state
      have some' : 0 < ∑ w, s.state.tokens w :=
        lt_of_lt_of_le token (Finset.single_le_sum (fun _ _ => Nat.zero_le _) (Finset.mem_univ w))
      omega
    · have less : ∑ w, s.state.started w < ∑ _w : Worker, 1 := by
        apply Finset.sum_lt_sum (fun w _ => each w)
        exact ⟨w, Finset.mem_univ w, by rw [State.started, if_pos starting]; exact Nat.one_pos⟩
      omega
  · intro few
    by_contra none'
    rw [not_exists] at none'
    have dead (w : Worker) : s.state.tokens w = 0 ∧ s.state.started w = 1 := by
      obtain ⟨token, starting⟩ := not_or.mp (none' w)
      exact ⟨Nat.eq_zero_of_not_pos token, if_neg starting⟩
    simp only [dead, Finset.sum_const_zero] at tokens
    omega

omit [Fintype Worker] in
/-- Without a worker what the agents have sent stays where it is. -/
theorem stays_of_dead {t : Traffic Worker Msg Out} {more : List (Event Worker Msg Out)}
    (dead : ∀ w, ¬ s.state.Alive w) (after : traffic.after s more = some t) :
    s.state.agentMessages <+: t.state.agentMessages := by
  induction more generalizing s with
  | nil =>
    cases after
    exact List.prefix_rfl
  | cons e more ih =>
    obtain ⟨u, next, rest⟩ := Option.bind_eq_some_iff.mp after
    obtain ⟨p, step, rfl⟩ := Option.map_eq_some_iff.mp next
    obtain ⟨still, grown⟩ := (next_step step).dead dead
    have later := ih (s := s.after e p) still rest
    exact List.IsPrefix.trans ⟨_, grown.symm⟩ later

/-- **When the router can go on.** In any state it may be in, all messages can still be published
and sent without further input exactly if no agent's message waits or fewer messages have been
dropped than there are workers. -/
theorem router_finishes_iff (run : traffic.Run Machine.Any events s) :
    s.CanFinish ↔ s.state.agentMessages = [] ∨ s.dropped.card < Fintype.card Worker := by
  rw [← alive_iff run]
  constructor
  · rintro ⟨more, t, -, after, idle, -⟩
    by_contra stuck
    obtain ⟨waits, dead⟩ := not_or.mp stuck
    have kept := stays_of_dead (not_exists.mp dead) after
    rw [idle.agents] at kept
    exact waits (List.prefix_nil.mp kept)
  · intro able
    obtain ⟨p, leads, idle⟩ := leads_idle (ready_of_run run) able
    obtain ⟨more, t, internal, after, rfl, dropped⟩ := leads.traffic
    refine ⟨more, t, internal, after, idle, dropped, ?_⟩
    have anyway : traffic.AllowedAlong Machine.Any s more :=
      Machine.allowedAlong_of_forall (fun _ _ _ => trivial) s
    have before := (conserved_of_run run).fromAgents
    have finished := (conserved_of_run (run.append anyway after)).fromAgents
    rw [List.flatMap_append, received_of_internal internal, List.append_nil, before, dropped,
      idle.agents, Finset.sum_eq_zero fun w _ => idle.workers w, Multiset.coe_nil, zero_add,
      zero_add, ← add_assoc] at finished
    rw [← add_right_cancel finished, add_comm]

end

def oneDropped : List (Event Unit ℕ ℕ) :=
  oneMessage ++ [.workerEnds () .exception, .agentSends 1]

/-- The only worker is lost, and a message waits. -/
theorem router_finishes_iff_dropped :
    ∃ s : Traffic Unit ℕ ℕ, traffic.Run Machine.Any oneDropped s ∧ s.dropped = {0} ∧
      (s.CanFinish ↔ s.state.agentMessages = [] ∨ s.dropped.card < Fintype.card Unit) := by
  obtain ⟨s, after, dropped⟩ : ∃ s : Traffic Unit ℕ ℕ,
      traffic.after ⟨.initial, 0, 0⟩ oneDropped = some s ∧ s.dropped = {0} := ⟨_, rfl, rfl⟩
  have run := Machine.reached_of_after rfl after
  exact ⟨s, run, dropped, router_finishes_iff run⟩

end Yella.AgentFace
