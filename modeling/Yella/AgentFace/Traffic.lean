import Mathlib.Algebra.Order.BigOperators.Group.Finset
import Mathlib.Data.Fintype.BigOperators
import Yella.AgentFace.Tokens

/-!
# The messages in the router

Where each message of an agent is, and how many of them can be dropped: a handler that throws
takes its worker with it.
-/

namespace Yella.AgentFace

variable {Worker Msg Out : Type} [DecidableEq Worker]

/-- The message that a worker handles -/
def BackendPhase.message : BackendPhase Msg → Multiset Msg
  | .handling msg => {msg}
  | _ => 0

@[simp] theorem message_starting : (BackendPhase.starting : BackendPhase Msg).message = 0 := rfl

@[simp] theorem message_waiting : (BackendPhase.waiting : BackendPhase Msg).message = 0 := rfl

@[simp] theorem message_handling (msg : Msg) : (BackendPhase.handling msg).message = {msg} := rfl

/-- The messages that a worker has or that are on their way to it -/
def State.working (s : State Worker Msg Out) (w : Worker) : Multiset Msg :=
  s.workMessages w + (s.phase w).message

/-- What an agent sends in an event -/
def Event.received : Event Worker Msg Out → List Msg
  | .agentSends msg => [msg]
  | _ => []

/-- What the message queue sends to a recipient in an event -/
def Event.queued : Event Worker Msg Out → List Out
  | .queueSends true out => [out]
  | _ => []

/-- The message that an event gives to a worker -/
def Event.given (s : State Worker Msg Out) : Event Worker Msg Out → Worker → Multiset Msg
  | .recvAgent msg, w => if s.readyWorkers.head? = some w then {msg} else 0
  | _, _ => 0

/-- The message that a worker is done with in an event -/
def Event.ended (s : State Worker Msg Out) : Event Worker Msg Out → Worker → Multiset Msg
  | .workerEnds v _, w => if v = w then (s.phase v).message else 0
  | _, _ => 0

/-- The router, with the messages whose call of `other_face_->send` has returned and those whose
call has thrown -/
structure Traffic (Worker Msg Out : Type) where
  state : State Worker Msg Out
  published : Multiset Msg
  dropped : Multiset Msg

/-- A message is published or dropped when its call ends. -/
def Traffic.after (s : Traffic Worker Msg Out) (e : Event Worker Msg Out)
    (t : State Worker Msg Out) : Traffic Worker Msg Out where
  state := t
  published := s.published + match e with
    | .workerEnds w .success => (s.state.phase w).message
    | _ => 0
  dropped := s.dropped + match e with
    | .workerEnds w .exception => (s.state.phase w).message
    | _ => 0

variable [DecidableEq Msg]

def traffic : Machine (Traffic Worker Msg Out) (Event Worker Msg Out) where
  start s := s = ⟨.initial, 0, 0⟩
  next s e := (next s.state e).map (s.after e)

/-! ## One step -/

section
variable {s t : State Worker Msg Out} {e : Event Worker Msg Out}

theorem next_recvAgent_mem {msg : Msg} (h : next s (.recvAgent msg) = some t) :
    msg ∈ s.agentMessages := by
  simp only [next] at h
  split at h
  · split at h
    · rename_i guard
      exact guard.2.2
    · cases h
  · cases h

theorem step_working (h : Step s e t) (w : Worker) :
    t.working w + e.ended s w = s.working w + e.given s w := by
  cases h with
  | @connect v starting =>
    by_cases own : w = v
    · subst own
      simp [State.working, Event.ended, Event.given, starting]
    · simp [State.working, Event.ended, Event.given, own]
  | agentSends | queueSends | noRecipient | poll | recvBackend | recvOutgoing | noBackend
  | noOutgoing | noAgent =>
    simp [State.working, Event.ended, Event.given]
  | @recvAgent msg v rest main front =>
    by_cases own : w = v
    · subst own
      simp only [State.working, Event.ended, Event.given, front, Function.update_self,
        List.head?_cons, if_true, ← Multiset.coe_add, Multiset.coe_singleton, add_zero]
      rw [add_right_comm]
    · simp [State.working, Event.ended, Event.given, front, own, Ne.symm own]
  | @workerTakes v msg rest waiting work =>
    by_cases own : w = v
    · subst own
      simp only [State.working, Event.ended, Event.given, Function.update_self, work, waiting,
        message_handling, message_waiting, add_zero]
      rw [← Multiset.cons_coe, ← Multiset.singleton_add, add_comm]
    · simp [State.working, Event.ended, Event.given, own]
  | @success v msg handling | @exception v msg handling =>
    by_cases own : w = v
    · subst own
      simp [State.working, Event.ended, Event.given, handling]
    · simp [State.working, Event.ended, Event.given, own, Ne.symm own]

/-- What comes from the agents, and what the main loop takes of it -/
theorem next_agentMessages [Fintype Worker] (h : next s e = some t) :
    (t.agentMessages : Multiset Msg) + ∑ w, e.given s w = s.agentMessages + e.received := by
  have step := next_step h
  cases step with
  | agentSends => simp [Event.given, Event.received, ← Multiset.coe_add]
  | @recvAgent msg v rest main front =>
    have there := next_recvAgent_mem h
    simp only [Event.given, Event.received, front, List.head?_cons, Option.some_inj,
      Finset.sum_ite_eq, Finset.mem_univ, if_true, Multiset.coe_nil, add_zero]
    rw [← Multiset.coe_erase, add_comm, Multiset.singleton_add, Multiset.cons_erase there]
  | connect | queueSends | noRecipient | poll | recvBackend | recvOutgoing | noBackend | noOutgoing
  | noAgent | workerTakes | success | exception => simp [Event.given, Event.received]

omit [DecidableEq Msg] in
theorem sum_ended [Fintype Worker] (s : Traffic Worker Msg Out) (e : Event Worker Msg Out)
    (t : State Worker Msg Out) :
    (s.after e t).published + (s.after e t).dropped =
      s.published + s.dropped + ∑ w, e.ended s.state w := by
  cases e with
  | workerEnds v outcome =>
    cases outcome with
    | success => simp [Traffic.after, Event.ended, add_right_comm]
    | exception => simp [Traffic.after, Event.ended, add_assoc]
  | _ => simp [Traffic.after, Event.ended]

/-- A worker that has connected -/
def State.started (s : State Worker Msg Out) (w : Worker) : ℕ :=
  if s.phase w = .starting then 0 else 1

theorem step_started (h : Step s e t) (w : Worker) :
    t.started w = s.started w + e.gained w := by
  have starting := step_starting h w
  by_cases connects : e = .connect w
  · subst connects
    cases h with
    | connect before => simp [State.started, before, Event.gained]
  · rw [gained_eq_zero connects, add_zero, State.started, State.started]
    simp only [starting, connects, ne_eq, not_false_eq_true, and_true]

theorem card_dropped [Fintype Worker] {s : Traffic Worker Msg Out} (h : Step s.state e t) :
    (s.after e t).dropped.card = s.dropped.card + ∑ w, e.lost w := by
  cases h with
  | @exception v msg handling => simp [Traffic.after, Event.lost, handling]
  | connect | agentSends | queueSends | noRecipient | poll | recvBackend | recvOutgoing | recvAgent
  | noBackend | noOutgoing | noAgent | workerTakes | success => simp [Traffic.after, Event.lost]

theorem step_outgoing (h : Step s e t) :
    t.sentToAgents ++ t.outgoingMessages = s.sentToAgents ++ s.outgoingMessages ++ e.queued := by
  cases h with
  | recvOutgoing main input => simp [Event.queued, input]
  | queueSends => simp [Event.queued]
  | connect | agentSends | noRecipient | poll | recvBackend | recvAgent | noBackend | noOutgoing
  | noAgent | workerTakes | success | exception => simp [Event.queued]

end

/-! ## A whole run -/

/-- Where the messages are after these events. -/
structure MessagesConserved [Fintype Worker] (events : List (Event Worker Msg Out))
    (s : Traffic Worker Msg Out) : Prop where
  fromAgents : (events.flatMap Event.received : Multiset Msg) =
    s.state.agentMessages + ∑ w, s.state.working w + (s.published + s.dropped)
  toAgents : events.flatMap Event.queued = s.state.sentToAgents ++ s.state.outgoingMessages
  /-- A message that is dropped takes a token with it. -/
  tokens : s.dropped.card + ∑ w, s.state.tokens w = ∑ w, s.state.started w

theorem MessagesConserved.next [Fintype Worker] {events : List (Event Worker Msg Out)}
    {s t : Traffic Worker Msg Out} {e : Event Worker Msg Out} (inv : MessagesConserved events s)
    (h : traffic.next s e = some t) : MessagesConserved (events ++ [e]) t := by
  obtain ⟨t, next, rfl⟩ := Option.map_eq_some_iff.mp h
  have step := next_step next
  constructor
  · have taken := next_agentMessages next
    have worked : ∑ w, t.working w + ∑ w, e.ended s.state w =
        ∑ w, s.state.working w + ∑ w, e.given s.state w := by
      rw [← Finset.sum_add_distrib, ← Finset.sum_add_distrib]
      exact Finset.sum_congr rfl fun w _ => step_working step w
    rw [sum_ended, List.flatMap_append, ← Multiset.coe_add, inv.fromAgents]
    rw [List.flatMap_singleton]
    show _ = (t.agentMessages : Multiset Msg) + ∑ w, t.working w + _
    calc (s.state.agentMessages : Multiset Msg) + ∑ w, s.state.working w +
          (s.published + s.dropped) + e.received
        = (s.state.agentMessages + e.received) + ∑ w, s.state.working w +
          (s.published + s.dropped) := by ac_rfl
      _ = t.agentMessages + (∑ w, s.state.working w + ∑ w, e.given s.state w) +
          (s.published + s.dropped) := by rw [← taken]; ac_rfl
      _ = _ := by rw [← worked]; ac_rfl
  · rw [List.flatMap_append, inv.toAgents, List.flatMap_singleton]
    exact (step_outgoing step).symm
  · have tokens : ∑ w, t.tokens w + ∑ w, e.lost w =
        ∑ w, s.state.tokens w + ∑ w, e.gained w := by
      rw [← Finset.sum_add_distrib, ← Finset.sum_add_distrib]
      exact Finset.sum_congr rfl fun w _ => step_tokens step w
    have started : ∑ w, t.started w = ∑ w, s.state.started w + ∑ w, e.gained w := by
      rw [← Finset.sum_add_distrib]
      exact Finset.sum_congr rfl fun w _ => step_started step w
    have before := inv.tokens
    have dropped := card_dropped step
    show (s.after e t).dropped.card + ∑ w, t.tokens w = ∑ w, t.started w
    omega

theorem conserved_of_run [Fintype Worker] {events : List (Event Worker Msg Out)}
    {s : Traffic Worker Msg Out} (run : traffic.Run Machine.Any events s) :
    MessagesConserved events s := by
  apply run.history MessagesConserved
  · rintro s rfl
    exact ⟨by simp [State.initial, State.working], rfl,
      by simp [State.initial, State.tokens, State.started]⟩
  · exact fun _ _ _ _ inv _ next => inv.next next

omit [DecidableEq Worker] in
theorem sum_started_le [Fintype Worker] (s : State Worker Msg Out) :
    ∑ w, s.started w ≤ Fintype.card Worker := by
  have each (w : Worker) : s.started w ≤ 1 := by
    unfold State.started
    split <;> omega
  calc ∑ w, s.started w ≤ ∑ _w : Worker, 1 := Finset.sum_le_sum fun w _ => each w
    _ = Fintype.card Worker := by simp

/-- **No message gets lost on its way.** In any interleaving, what the agents have sent is
waiting, with one worker, published or dropped, each message once; what the queue has sent goes out
in its order; and no more messages are ever dropped than there are workers. -/
theorem messages_conserved [Fintype Worker] {events : List (Event Worker Msg Out)}
    {s : Traffic Worker Msg Out} (run : traffic.Run Machine.Any events s) :
    (events.flatMap Event.received : Multiset Msg) =
        s.state.agentMessages + ∑ w, s.state.working w + (s.published + s.dropped) ∧
      s.state.sentToAgents <+: events.flatMap Event.queued ∧
      s.dropped.card ≤ Fintype.card Worker := by
  have inv := conserved_of_run run
  refine ⟨inv.fromAgents, ⟨_, inv.toAgents.symm⟩, ?_⟩
  have most := sum_started_le s.state
  have tokens := inv.tokens
  omega

def onePublished : List (Event Unit ℕ ℕ) := oneMessage ++ [.workerEnds () .success]

theorem messages_conserved_published :
    ∃ s : Traffic Unit ℕ ℕ, traffic.Run Machine.Any onePublished s ∧ s.published = {0} ∧
      (onePublished.flatMap Event.received : Multiset ℕ) =
        s.state.agentMessages + ∑ w, s.state.working w + (s.published + s.dropped) ∧
      s.state.sentToAgents <+: onePublished.flatMap Event.queued ∧
      s.dropped.card ≤ Fintype.card Unit := by
  obtain ⟨s, after, published⟩ : ∃ s : Traffic Unit ℕ ℕ,
      traffic.after ⟨.initial, 0, 0⟩ onePublished = some s ∧ s.published = {0} := ⟨_, rfl, rfl⟩
  have run := Machine.reached_of_after rfl after
  exact ⟨s, run, published, messages_conserved run⟩

end Yella.AgentFace
