import Yella.AgentFace.Workers

/-!
# The tokens of the workers

Each worker that has said that it is ready has one token: the ready message, its place in the
queue, the work message or the message it handles. A handler that throws loses the token.
-/

namespace Yella.AgentFace

variable {Worker Msg Out : Type} [DecidableEq Worker]

/-- One for a message that is handled. -/
def BackendPhase.held : BackendPhase Msg → Nat
  | .handling _ => 1
  | _ => 0

@[simp] theorem held_starting : (BackendPhase.starting : BackendPhase Msg).held = 0 := rfl

@[simp] theorem held_waiting : (BackendPhase.waiting : BackendPhase Msg).held = 0 := rfl

@[simp] theorem held_handling (msg : Msg) : (BackendPhase.handling msg).held = 1 := rfl

def State.tokens (s : State Worker Msg Out) (w : Worker) : Nat :=
  s.readyMessages.count w + s.readyWorkers.count w + (s.workMessages w).length + (s.phase w).held

/-- The tokens that an event brings to a worker. -/
def Event.gained : Event Worker Msg Out → Worker → Nat
  | .connect v, w => if v = w then 1 else 0
  | _, _ => 0

/-- The tokens that an event takes from a worker. -/
def Event.lost : Event Worker Msg Out → Worker → Nat
  | .workerEnds v .exception, w => if v = w then 1 else 0
  | _, _ => 0

theorem gained_eq_zero {e : Event Worker Msg Out} {w : Worker} (h : e ≠ .connect w) :
    e.gained w = 0 := by
  cases e with
  | connect v =>
    have : v ≠ w := by
      rintro rfl
      exact h rfl
    exact if_neg this
  | _ => rfl

theorem lost_eq_zero {e : Event Worker Msg Out} {w : Worker} (h : e ≠ .workerEnds w .exception) :
    e.lost w = 0 := by
  cases e with
  | workerEnds v outcome =>
    cases outcome with
    | success => rfl
    | exception =>
      have : v ≠ w := by
        rintro rfl
        exact h rfl
      exact if_neg this
  | _ => rfl

variable [DecidableEq Msg]

/-- What holds of a state that is reached by these events. -/
structure TokensConserved (events : List (Event Worker Msg Out)) (s : State Worker Msg Out) :
    Prop where
  once : ∀ w, s.phase w ≠ .starting → s.tokens w = 1
  /-- `front` is only taken where there is one. -/
  front : s.main = .agent → s.revents.agent → s.readyWorkers ≠ []
  /-- The worker that gets the next message has answered the last one. -/
  answered : ∀ w ∈ s.readyWorkers, s.phase w = .waiting ∧ s.workMessages w = []
  /-- A worker that has just finished has a ready message in flight. -/
  ready : ∀ pre w outcome, events = pre ++ [.workerEnds w outcome] →
    s.readyMessages.count w = 1

/-- No call of `other_face_->send` ends with an exception. -/
def NoException (_ : State Worker Msg Out) (e : Event Worker Msg Out) : Prop :=
  ∀ w, e ≠ .workerEnds w .exception

section
variable {s t : State Worker Msg Out} {e : Event Worker Msg Out}

theorem step_tokens (h : Step s e t) (w : Worker) :
    t.tokens w + e.lost w = s.tokens w + e.gained w := by
  cases h with
  | @connect v starting =>
    by_cases hw : w = v
    · subst hw
      simp [State.tokens, starting, Event.lost, Event.gained]
      omega
    · simp [State.tokens, hw, Ne.symm hw, Event.lost, Event.gained]
  | agentSends | queueSends | noRecipient | poll | recvOutgoing | noBackend | noOutgoing
  | noAgent =>
    simp [State.tokens, Event.lost, Event.gained]
  | @recvBackend v _ ready =>
    by_cases hw : w = v
    · subst hw
      have : 0 < s.readyMessages.count w := List.count_pos_iff.mpr ready
      simp [State.tokens, Event.lost, Event.gained]
      omega
    · simp [State.tokens, hw, Ne.symm hw, Event.lost, Event.gained]
  | @recvAgent msg curBackend rest _ front =>
    by_cases hw : w = curBackend
    · subst hw
      simp [State.tokens, front, Event.lost, Event.gained]
      omega
    · simp [State.tokens, front, hw, Ne.symm hw, Event.lost, Event.gained]
  | @workerTakes v msg rest waiting work =>
    by_cases hw : w = v
    · subst hw
      simp [State.tokens, work, waiting, Event.lost, Event.gained]
      omega
    · simp [State.tokens, hw, Event.lost, Event.gained]
  | @success v msg handling =>
    by_cases hw : w = v
    · subst hw
      simp [State.tokens, handling, Event.lost, Event.gained]
      omega
    · simp [State.tokens, hw, Ne.symm hw, Event.lost, Event.gained]
  | @exception v msg handling =>
    by_cases hw : w = v
    · subst hw
      simp [State.tokens, handling, Event.lost, Event.gained]
    · simp [State.tokens, hw, Ne.symm hw, Event.lost, Event.gained]

/-- Only `connect` ends the start of a worker. -/
theorem step_starting (h : Step s e t) (w : Worker) :
    t.phase w = .starting ↔ s.phase w = .starting ∧ e ≠ .connect w := by
  cases h with
  | @connect v starting =>
    by_cases hw : w = v
    · simp [hw]
    · simp [hw, Ne.symm hw]
  | @workerTakes v msg rest waiting => by_cases hw : w = v <;> simp [hw, waiting]
  | @success v msg handling => by_cases hw : w = v <;> simp [hw, handling]
  | @exception v msg handling => by_cases hw : w = v <;> simp [hw, handling]
  | agentSends | queueSends | noRecipient | poll | recvBackend | recvOutgoing | recvAgent
  | noBackend | noOutgoing | noAgent => simp

/-- Between the poll and the branch of the agents, the queue only grows. -/
theorem step_front (h : Step s e t)
    (front : s.main ≠ .polling → s.revents.agent → s.readyWorkers ≠ []) :
    t.main ≠ .polling → t.revents.agent → t.readyWorkers ≠ [] := by
  cases h with
  | poll main input => exact fun _ agent => (input.2.2.2 agent).1
  | recvBackend => exact fun _ _ => by simp
  | recvAgent | noAgent => exact fun main => absurd rfl main
  | recvOutgoing main | noBackend main | noOutgoing main =>
    exact fun _ => front (by simp [main])
  | connect | agentSends | queueSends | noRecipient | workerTakes | success | exception =>
    exact front

end

/-- The tokens of every worker, and the queue after a poll. -/
structure TokenInvariant (s : State Worker Msg Out) : Prop where
  tokens : ∀ w, s.tokens w = if s.phase w = .starting then 0 else 1
  front : s.main ≠ .polling → s.revents.agent → s.readyWorkers ≠ []

theorem initial_tokenInvariant :
    TokenInvariant (State.initial : State Worker Msg Out) where
  tokens w := by simp [State.initial, State.tokens]
  front main := absurd rfl main

theorem step_tokenInvariant {s t : State Worker Msg Out} {e : Event Worker Msg Out}
    (inv : TokenInvariant s) (kept : NoException s e) (h : Step s e t) : TokenInvariant t where
  tokens w := by
    have tokens := step_tokens h w
    have start := step_starting h w
    rw [lost_eq_zero (kept w), inv.tokens w] at tokens
    by_cases hc : e = .connect w
    · subst hc
      cases h with
      | connect starting => simpa [starting, Event.gained] using tokens
    · simp only [start, hc, ne_eq, not_false_eq_true, and_true, gained_eq_zero hc,
        Nat.add_zero] at tokens ⊢
      exact tokens
  front := step_front h inv.front

theorem TokenInvariant.count_le {s : State Worker Msg Out} (inv : TokenInvariant s)
    (w : Worker) : s.tokens w ≤ 1 := by
  rw [inv.tokens w]
  split <;> omega

/-- A worker in the queue waits, and has no message on its way. -/
theorem TokenInvariant.answered {s : State Worker Msg Out} (inv : TokenInvariant s) {w : Worker}
    (queued : w ∈ s.readyWorkers) : s.phase w = .waiting ∧ s.workMessages w = [] := by
  have count : 0 < s.readyWorkers.count w := List.count_pos_iff.mpr queued
  have tokens := inv.tokens w
  have most := inv.count_le w
  simp only [State.tokens] at tokens most
  constructor
  · cases hp : s.phase w with
    | starting => simp only [hp, ↓reduceIte] at tokens; omega
    | waiting => rfl
    | handling msg => simp only [hp, held_handling] at most; omega
  · apply List.eq_nil_of_length_eq_zero
    omega

/-- Where the last event is the end of a handler, a ready message of the worker is in flight. -/
def ReadyAtEnd (events : List (Event Worker Msg Out)) (s : State Worker Msg Out) : Prop :=
  ∀ pre w outcome, events = pre ++ [.workerEnds w outcome] → w ∈ s.readyMessages

/-- As long as no handler throws, the tokens are conserved, in every interleaving of the
workers, the agents and the main loop. -/
theorem tokens_conserved {events : List (Event Worker Msg Out)} {s : State Worker Msg Out}
    (run : router.Run NoException events s) : TokensConserved events s := by
  have inv : TokenInvariant s ∧ ReadyAtEnd events s := by
    apply run.history (fun events s => TokenInvariant s ∧ ReadyAtEnd events s)
    · rintro s rfl
      exact ⟨initial_tokenInvariant, fun pre w outcome he => by simp at he⟩
    · rintro events s e t ⟨inv, -⟩ kept hnext
      have hstep := next_step hnext
      refine ⟨step_tokenInvariant inv kept hstep, fun pre w outcome he => ?_⟩
      obtain rfl : e = .workerEnds w outcome := by simpa using (List.append_inj' he rfl).2
      cases hstep with
      | success => simp
      | exception => exact absurd rfl (kept w)
  obtain ⟨inv, ready⟩ := inv
  refine ⟨fun w hw => ?_, fun main => inv.front (by simp [main]), fun w hw => inv.answered hw,
    fun pre w outcome he => ?_⟩
  · rw [inv.tokens w, if_neg hw]
  · have some : 0 < s.readyMessages.count w := List.count_pos_iff.mpr (ready pre w outcome he)
    have most := inv.count_le w
    simp only [State.tokens] at most
    omega

/-- One worker gets a message. -/
def oneMessage : List (Event Unit Nat Nat) :=
  [.connect (), .agentSends 0, .poll ⟨true, false, false⟩, .recvBackend (), .noInput, .noInput,
    .poll ⟨false, false, true⟩, .noInput, .noInput, .recvAgent 0, .workerTakes ()]

/-- A handler that returns. -/
theorem tokens_conserved_oneMessage :
    ∃ s, router.Run NoException (oneMessage ++ [.workerEnds () .success]) s ∧
      TokensConserved (oneMessage ++ [.workerEnds () .success]) s := by
  have allowed : router.AllowedAlong NoException State.initial
      (oneMessage ++ [.workerEnds () .success]) := by
    apply Machine.allowedAlong_of_forall
    rintro e he s w rfl
    simp [oneMessage] at he
  have run := Machine.run_of_after rfl allowed rfl
  exact ⟨_, run, tokens_conserved run⟩

/-- A handler that throws. -/
theorem exception_loses_token :
    ∃ s, router.Run Machine.Any (oneMessage ++ [.workerEnds () .exception]) s ∧
      ¬ TokensConserved (oneMessage ++ [.workerEnds () .exception]) s := by
  refine ⟨_, Machine.reached_of_after rfl rfl, fun h => ?_⟩
  have started := h.once () (by decide)
  revert started
  decide

end Yella.AgentFace
