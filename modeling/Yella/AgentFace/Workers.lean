import Mathlib.Data.List.Count
import Mathlib.Logic.Function.Basic
import Yella.Lib.Machine

/-!
# The back-end workers of the router

`worker_main` and `backend_main` of `zeromq_agent_face.cpp`, up to the time when `should_stop_` is
set, by the destructor or by a worker that catches a `fatal_error`. The messages in flight on each
socket are part of the state. A message is read as a whole, since ZeroMQ delivers its frames
together, and its calls do not fail. A call of `other_face_->send` is one step of its worker: it
either returns or throws, and that `rabbit_mq_face::send` looks its sender up in a map without a
lock is left out.
-/

namespace Yella.AgentFace

variable {Worker Msg Out : Type} [DecidableEq Worker]

/-- Where a `backend_main` is. A worker that waits has its socket in the poll. -/
inductive BackendPhase (Msg : Type) where
  | starting
  | waiting
  | handling (msg : Msg)
  deriving DecidableEq

/-- How `other_face_->send` ends: it returns, or throws a `std::exception` that is not a
`fatal_error`. -/
inductive SendOutcome where
  | success
  | exception
  deriving DecidableEq

/-- Where `worker_main` is in its loop: in the poll, or at one of the three branches. -/
inductive MainPhase where
  | polling
  | backend
  | outgoing
  | agent
  deriving DecidableEq

/-- The `revents` of the three sockets. -/
structure Revents where
  backend : Bool
  outgoing : Bool
  agent : Bool
  deriving DecidableEq

/-- `readyMessages` are the empty messages on their way to `backend_sock`, by their sender, and
`workMessages` those on their way to a worker. The messages of different workers, and those of
different agents, come in any order. -/
structure State (Worker Msg Out : Type) where
  phase : Worker → BackendPhase Msg
  readyMessages : List Worker
  readyWorkers : List Worker
  workMessages : Worker → List Msg
  agentMessages : List Msg
  outgoingMessages : List Out
  sentToAgents : List Out
  main : MainPhase
  revents : Revents

inductive Event (Worker Msg Out : Type) where
  | connect (w : Worker)
  | agentSends (msg : Msg)
  | queueSends (hasRecipient : Bool) (out : Out)
  | poll (revents : Revents)
  | recvBackend (w : Worker)
  | recvOutgoing
  | recvAgent (msg : Msg)
  | noInput
  | workerTakes (w : Worker)
  | workerEnds (w : Worker) (outcome : SendOutcome)
  deriving DecidableEq

namespace State

def initial : State Worker Msg Out where
  phase _ := .starting
  readyMessages := []
  readyWorkers := []
  workMessages _ := []
  agentMessages := []
  outgoingMessages := []
  sentToAgents := []
  main := .polling
  revents := ⟨false, false, false⟩

/-- The poll returns a socket only if there is input, and the agents' one only if it is among
the polled ones. -/
def CanPoll (s : State Worker Msg Out) (r : Revents) : Prop :=
  (r.backend ∨ r.outgoing ∨ r.agent) ∧ (r.backend → s.readyMessages ≠ []) ∧
    (r.outgoing → s.outgoingMessages ≠ []) ∧
    (r.agent → s.readyWorkers ≠ [] ∧ s.agentMessages ≠ [])

instance (s : State Worker Msg Out) (r : Revents) :
    Decidable (s.CanPoll r) := by
  unfold CanPoll; infer_instance

end State

open State

variable [DecidableEq Msg]

def next (s : State Worker Msg Out) : Event Worker Msg Out → Option (State Worker Msg Out)
  | .connect w =>
    if s.phase w = .starting then
      some { s with
        phase := Function.update s.phase w .waiting
        readyMessages := s.readyMessages ++ [w] }
    else none
  | .agentSends msg => some { s with agentMessages := s.agentMessages ++ [msg] }
  | .queueSends true out => some { s with outgoingMessages := s.outgoingMessages ++ [out] }
  -- `send` logs that there is no recipient
  | .queueSends false _ => some s
  | .poll revents =>
    if s.main = .polling ∧ s.CanPoll revents then
      some { s with main := .backend, revents }
    else none
  | .recvBackend w =>
    if s.main = .backend ∧ s.revents.backend ∧ w ∈ s.readyMessages then
      some { s with
        readyMessages := s.readyMessages.erase w
        readyWorkers := s.readyWorkers ++ [w]
        main := .outgoing }
    else none
  | .recvOutgoing =>
    match s.outgoingMessages with
    | out :: rest =>
      if s.main = .outgoing ∧ s.revents.outgoing then
        some { s with
          outgoingMessages := rest
          sentToAgents := s.sentToAgents ++ [out]
          main := .agent }
      else none
    | [] => none
  | .recvAgent msg =>
    -- `front` of an empty queue would be undefined
    match s.readyWorkers with
    | curBackend :: rest =>
      if s.main = .agent ∧ s.revents.agent ∧ msg ∈ s.agentMessages then
        some { s with
          agentMessages := s.agentMessages.erase msg
          readyWorkers := rest
          workMessages := Function.update s.workMessages curBackend
            (s.workMessages curBackend ++ [msg])
          main := .polling }
      else none
    | [] => none
  | .noInput =>
    match s.main with
    | .backend => if s.revents.backend then none else some { s with main := .outgoing }
    | .outgoing => if s.revents.outgoing then none else some { s with main := .agent }
    | .agent => if s.revents.agent then none else some { s with main := .polling }
    | .polling => none
  | .workerTakes w =>
    match s.workMessages w with
    | msg :: rest =>
      if s.phase w = .waiting then
        some { s with
          workMessages := Function.update s.workMessages w rest
          phase := Function.update s.phase w (.handling msg) }
      else none
    | [] => none
  | .workerEnds w outcome =>
    match s.phase w with
    | .handling _ =>
      match outcome with
      | .success =>
        some { s with
          phase := Function.update s.phase w .waiting
          readyMessages := s.readyMessages ++ [w] }
      -- the handler logs the error and goes back to the poll
      | .exception => some { s with phase := Function.update s.phase w .waiting }
    | _ => none

/-- The router with one `backend_main` for each `Worker`. -/
def router : Machine (State Worker Msg Out) (Event Worker Msg Out) where
  start s := s = .initial
  next := next

/-- What each event does, and where it is possible. -/
inductive Step (s : State Worker Msg Out) : Event Worker Msg Out → State Worker Msg Out → Prop
  | connect {w : Worker} (starting : s.phase w = .starting) :
      Step s (.connect w) { s with
        phase := Function.update s.phase w .waiting
        readyMessages := s.readyMessages ++ [w] }
  | agentSends {msg : Msg} :
      Step s (.agentSends msg) { s with agentMessages := s.agentMessages ++ [msg] }
  | queueSends {out : Out} :
      Step s (.queueSends true out) { s with outgoingMessages := s.outgoingMessages ++ [out] }
  | noRecipient {out : Out} : Step s (.queueSends false out) s
  | poll {revents : Revents} (main : s.main = .polling) (input : s.CanPoll revents) :
      Step s (.poll revents) { s with main := .backend, revents }
  | recvBackend {w : Worker} (main : s.main = .backend) (ready : w ∈ s.readyMessages) :
      Step s (.recvBackend w) { s with
        readyMessages := s.readyMessages.erase w
        readyWorkers := s.readyWorkers ++ [w]
        main := .outgoing }
  | recvOutgoing {out : Out} {rest : List Out} (main : s.main = .outgoing)
      (input : s.outgoingMessages = out :: rest) :
      Step s .recvOutgoing { s with
        outgoingMessages := rest
        sentToAgents := s.sentToAgents ++ [out]
        main := .agent }
  | recvAgent {msg : Msg} {curBackend : Worker} {rest : List Worker} (main : s.main = .agent)
      (front : s.readyWorkers = curBackend :: rest) :
      Step s (.recvAgent msg) { s with
        agentMessages := s.agentMessages.erase msg
        readyWorkers := rest
        workMessages := Function.update s.workMessages curBackend
          (s.workMessages curBackend ++ [msg])
        main := .polling }
  | noBackend (main : s.main = .backend) : Step s .noInput { s with main := .outgoing }
  | noOutgoing (main : s.main = .outgoing) : Step s .noInput { s with main := .agent }
  | noAgent (main : s.main = .agent) : Step s .noInput { s with main := .polling }
  | workerTakes {w : Worker} {msg : Msg} {rest : List Msg} (waiting : s.phase w = .waiting)
      (work : s.workMessages w = msg :: rest) :
      Step s (.workerTakes w) { s with
        workMessages := Function.update s.workMessages w rest
        phase := Function.update s.phase w (.handling msg) }
  | success {w : Worker} {msg : Msg} (handling : s.phase w = .handling msg) :
      Step s (.workerEnds w .success) { s with
        phase := Function.update s.phase w .waiting
        readyMessages := s.readyMessages ++ [w] }
  | exception {w : Worker} {msg : Msg} (handling : s.phase w = .handling msg) :
      Step s (.workerEnds w .exception) { s with
        phase := Function.update s.phase w .waiting }

theorem next_step {s t : State Worker Msg Out} {e : Event Worker Msg Out}
    (h : next s e = some t) : Step s e t := by
  cases e with
  | connect w =>
    simp only [next] at h
    split at h <;> cases h
    exact .connect ‹_›
  | agentSends msg => cases h; exact .agentSends
  | queueSends hasRecipient out =>
    cases hasRecipient with
    | true => cases h; exact .queueSends
    | false => cases h; exact .noRecipient
  | poll revents =>
    simp only [next] at h
    split at h <;> cases h
    rename_i guard
    exact .poll guard.1 guard.2
  | recvBackend w =>
    simp only [next] at h
    split at h <;> cases h
    rename_i guard
    exact .recvBackend guard.1 guard.2.2
  | recvOutgoing =>
    simp only [next] at h
    split at h
    · split at h <;> cases h
      rename_i input guard
      exact .recvOutgoing guard.1 input
    · cases h
  | recvAgent msg =>
    simp only [next] at h
    split at h
    · split at h <;> cases h
      rename_i front guard
      exact .recvAgent guard.1 front
    · cases h
  | noInput =>
    simp only [next] at h
    split at h
    · split at h <;> cases h
      exact .noBackend ‹_›
    · split at h <;> cases h
      exact .noOutgoing ‹_›
    · split at h <;> cases h
      exact .noAgent ‹_›
    · cases h
  | workerTakes w =>
    simp only [next] at h
    split at h
    · split at h <;> cases h
      rename_i work waiting
      exact .workerTakes waiting work
    · cases h
  | workerEnds w outcome =>
    simp only [next] at h
    split at h
    · split at h <;> cases h
      · exact .success ‹_›
      · exact .exception ‹_›
    · cases h

end Yella.AgentFace
