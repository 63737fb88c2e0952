import Yella.Lib.Lanes
import Yella.Router.Delivery
import Yella.Spool.Filled

/-!
# The order of a sender's messages

A sender's messages come to the router socket over its own socket or over the spool. They come
in order if it sends a message to the spool only when its own socket has delivered the earlier
ones.
-/

namespace Yella

namespace Router

/-- The messages of one sender of one router. -/
def ofSender (boot sender : Nat) (msgs : List Submission) : List Submission :=
  msgs.filter fun m => m.boot = boot ∧ m.sender = sender

/-- The messages of each sender reach the router socket in the order of their calls. -/
def ReceivedInOrder (s : Router) : Prop :=
  ∀ boot sender, (ofSender boot sender s.received).Pairwise fun m n => m.seq < n.seq

/-- The spool does not fail, no event is lost in it, and its size does not overflow. -/
def SpoolWorks (s : Router) (e : RouterEvent) : Prop :=
  ∀ op, s.spoolOp e = some op → SizedAllowed s.sp op

/-- A sender's message goes to the spool only when its own socket is empty. -/
def SocketClear (s : Router) : RouterEvent → Prop
  | .push i _ => s.pipes (.sender i) = []
  | _ => True

def OrderAllowed (s : Router) (e : RouterEvent) : Prop :=
  (s.SpoolWorks e ∧ s.SpoolSends e) ∧ s.SocketClear e

instance (s : Router) (e : RouterEvent) : Decidable (s.SpoolWorks e) :=
  inferInstanceAs (Decidable (∀ op ∈ s.spoolOp e, SizedAllowed s.sp op))

instance (s : Router) (e : RouterEvent) : Decidable (s.SocketClear e) :=
  match e with
  | .push i _ => inferInstanceAs (Decidable (s.pipes (.sender i) = []))
  | .sendPopped _ | .monitor _ | .stop | .call _ _ | .readState _ | .choose _ | .send _ _ | .wake
  | .check | .pop _ _ | .outgoing _ | .restart _ => .isTrue trivial

instance (s : Router) (e : RouterEvent) : Decidable (s.OrderAllowed e) :=
  inferInstanceAs (Decidable (_ ∧ _))

/-! ## The lanes of a sender -/

/-- The messages that come over the spool, from the first one on. -/
def overSpool (s : Router) : List Submission := s.pipes .spool ++ s.inHand ++ s.spooled

def lanes (s : Router) (boot sender : Nat) : Lanes Submission where
  received := ofSender boot sender s.received
  slow := ofSender boot sender s.overSpool
  direct := ofSender boot sender (s.pipes (.sender sender))

theorem ofSender_append (boot sender : Nat) (msgs more : List Submission) :
    ofSender boot sender (msgs ++ more) = ofSender boot sender msgs ++ ofSender boot sender more :=
  List.filter_append ..

@[simp] theorem ofSender_nil (boot sender : Nat) : ofSender boot sender [] = [] := rfl

@[simp] theorem ofSender_cons_of (m : Submission) (msgs : List Submission) :
    ofSender m.boot m.sender (m :: msgs) = m :: ofSender m.boot m.sender msgs := by
  simp [ofSender]

theorem ofSender_cons_other {boot sender : Nat} {m : Submission} (msgs : List Submission)
    (h : ¬ (m.boot = boot ∧ m.sender = sender)) :
    ofSender boot sender (m :: msgs) = ofSender boot sender msgs := by
  simp [ofSender, h]

theorem mem_ofSender {boot sender : Nat} {m : Submission} {msgs : List Submission} :
    m ∈ ofSender boot sender msgs ↔ m ∈ msgs ∧ m.boot = boot ∧ m.sender = sender := by
  simp [ofSender]

end Router

section
variable {lo : ListingOrder} {ready : Bool} {s t : Router} {e : RouterEvent}
  {events : List RouterEvent}

namespace Router

theorem lanes_same (received : t.received = s.received) (overSpool : t.overSpool = s.overSpool)
    (pipes : ∀ i, t.pipes (.sender i) = s.pipes (.sender i)) (boot sender : Nat) :
    t.lanes boot sender = s.lanes boot sender := by
  simp only [lanes, received, overSpool, pipes]

/-- What the sockets took and the reader received. -/
def Taken (s : Router) : Prop :=
  ∀ m, (m ∈ s.received ∨ ∃ socket, m ∈ s.pipes socket) → m ∈ s.handed

theorem Taken.hand (h : s.Taken) (socket : PushSocket) (msg : Submission) :
    (s.hand socket msg).Taken := by
  rintro m (received | ⟨other, there⟩)
  · exact List.mem_append_left _ (h m (.inl received))
  · by_cases same : other = socket
    · subst same
      simp only [Router.hand, Function.update_self] at there
      rcases List.mem_append.mp there with there | there
      · exact List.mem_append_left _ (h m (.inr ⟨other, there⟩))
      · exact List.mem_append_right _ there
    · simp only [Router.hand, Function.update_of_ne same] at there
      exact List.mem_append_left _ (h m (.inr ⟨other, there⟩))

theorem Taken.step (h : s.Taken) (step : RouterStep lo ready s e t) : t.Taken := by
  cases step with
  | monitor | stop | call | readState | toSpool | toSocket | pushed | notPushed | notSent | wake
  | check | popped | notPopped | lostPopped => exact h
  | sent | sentPopped => exact Taken.hand h _ _
  | @outgoing socket msg rest front =>
    have first : msg ∈ s.handed := h msg (.inr ⟨socket, by simp [front]⟩)
    rintro m (received | ⟨other, there⟩)
    · rcases List.mem_append.mp received with received | received
      · exact h m (.inl received)
      · exact List.mem_singleton.mp received ▸ first
    · by_cases same : other = socket
      · subst same
        simp only [Function.update_self] at there
        exact h m (.inr ⟨other, by simp [front, there]⟩)
      · simp only [Function.update_of_ne same] at there
        exact h m (.inr ⟨other, there⟩)
  | restart =>
    rintro m (received | ⟨_, there⟩)
    · exact h m (.inl received)
    · cases there

/-- Every message on a lane was accepted. -/
theorem lanes_accepted (taken : s.Taken) (placed : s.Placed) {boot sender : Nat} {m : Submission}
    (h : m ∈ (s.lanes boot sender).all) : m ∈ s.accepted ∧ m.boot = boot ∧ m.sender = sender := by
  rw [placed.placed.mem_iff]
  simp only [Lanes.all, lanes, List.mem_append, mem_ofSender, overSpool] at h ⊢
  rcases h with (⟨received, of⟩ | ⟨(there | inHand) | spooled, of⟩) | ⟨there, of⟩
  · exact ⟨.inl (.inl (taken m (.inl received))), of⟩
  · exact ⟨.inl (.inl (taken m (.inr ⟨_, there⟩))), of⟩
  · exact ⟨.inl (.inr inHand), of⟩
  · exact ⟨.inr spooled, of⟩
  · exact ⟨.inl (.inl (taken m (.inr ⟨_, there⟩))), of⟩

/-- What a run keeps, with the calls on the spool. -/
structure Lined (trace : SpoolTrace) (s : Router) : Prop where
  placed : s.Placed
  once : SubmittedOnce s
  taken : s.Taken
  pending : ∀ i msg, (s.calls i).message = some msg → msg.boot = s.boot
  boots : ∀ m ∈ s.accepted, m.boot ≤ s.boot
  own : ∀ i, ∀ m ∈ s.pipes (.sender i), m.sender = i
  sending : ∀ i msg, s.calls i = .sending msg → (s.lanes s.boot i).slow = []
  pushed : (∃ m ∈ s.overSpool, m.boot = s.boot) → pushedSinceOpened trace = true
  inOrder : ∀ boot sender, (s.lanes boot sender).InOrder fun m n => m.seq < n.seq

/-- A message under way is later than those on its sender's lanes. -/
theorem Lined.later {trace : SpoolTrace} (h : s.Lined trace) {i : Nat} {msg : Submission}
    (under : (s.calls i).message = some msg) {m : Submission} {boot : Nat}
    (on : m ∈ (s.lanes boot i).all) : m.seq < msg.seq := by
  obtain ⟨accepted, _, sender⟩ := lanes_accepted h.taken h.placed on
  exact (h.once.own i msg under).2.2 m accepted sender

theorem overSpool_same (pipes : t.pipes .spool = s.pipes .spool) (inHand : t.inHand = s.inHand)
    (spooled : t.spooled = s.spooled) : t.overSpool = s.overSpool := by
  simp only [overSpool, pipes, inHand, spooled]

theorem overSpool_popped {trace : SpoolTrace} (run : SpoolRun lo KeptAllowed trace s.sp)
    (placed : s.Placed) {rounds : Nat} {signaled : Bool} {sp : Spool} {parts : List Bytes}
    (kept : KeptAllowed s.sp (.pop signaled)) (here : s.spooler = .popping)
    (pop : spoolPop lo rounds signaled s.sp = some (sp, .noError, parts)) :
    ({ s with sp, spooled := s.spooled.tail, spooler := .sending (s.popped parts) } :
      Router).overSpool = s.overSpool := by
  have unvisited := unvisited_step run kept (.pop pop)
  have first : unvisitedEvents s.sp.disk = parts :: unvisitedEvents sp.disk := by
    simpa [poppedEvents, pushes] using unvisited.symm
  have spooled := (placed.popped first).1
  rw [overSpool, overSpool, inHand_of here, spooled]
  simp [inHand, SpoolThread.inHand]

theorem overSpool_sent {msg : Submission} (here : s.spooler = .sending msg) :
    ({ s with spooler := .waiting }.hand .spool msg : Router).overSpool = s.overSpool := by
  rw [overSpool, overSpool, inHand_of here]
  simp [inHand, SpoolThread.inHand, hand]

theorem sublist_of_same (pipes : t.pipes .spool = s.pipes .spool) (inHand : t.inHand = s.inHand)
    (spooled : t.spooled = s.spooled) : t.overSpool.Sublist s.overSpool := by
  rw [overSpool_same pipes inHand spooled]

/-- The messages that come over the spool get at most one more. -/
theorem overSpool_step {trace : SpoolTrace} (run : SpoolRun lo KeptAllowed trace s.sp)
    (placed : s.Placed) (keeps : s.KeepsSpool e) (step : RouterStep lo ready s e t) :
    t.overSpool.Sublist s.overSpool ∨ ∃ i allow msg, e = .push i allow ∧
      s.calls i = .spooling msg ∧ t.overSpool = s.overSpool ++ [msg] := by
  cases step with
  | monitor | stop | call | readState | toSpool | toSocket | notPushed | notSent =>
    exact .inl (.refl _)
  | wake here | notPopped here => exact .inl (sublist_of_same rfl (inHand_of here).symm rfl)
  | check here =>
    exact .inl (sublist_of_same rfl ((afterWake_inHand s _).trans (inHand_of here).symm) rfl)
  | sent =>
    left
    simp [overSpool, inHand, accept, hand, setCall]
  | @pushed i allow msg sp culled here =>
    exact .inr ⟨i, allow, msg, rfl, here, by simp [overSpool, inHand, accept, setCall]⟩
  | popped here pop =>
    left
    rw [overSpool_popped run placed (keeps _ rfl) here pop]
  | sentPopped here =>
    left
    rw [overSpool_sent here]
  | lostPopped here =>
    left
    simp [overSpool, inHand, SpoolThread.inHand]
  | @outgoing socket msg rest front =>
    left
    cases socket with
    | sender i => simp [overSpool, inHand]
    | spool => simp [overSpool, inHand, front]
  | restart ended =>
    left
    simp [overSpool, inHand, SpoolThread.inHand, created]

theorem stays {boot sender : Nat} (received : t.received = s.received)
    (overSpool : t.overSpool = s.overSpool)
    (pipes : ∀ i, t.pipes (.sender i) = s.pipes (.sender i)) :
    Lanes.Step (fun m n => m.seq < n.seq) (s.lanes boot sender) (t.lanes boot sender) := by
  rw [lanes_same received overSpool pipes]
  exact .stay

/-- Each sender's lanes in a step. -/
theorem lanes_step {trace : SpoolTrace} (run : SpoolRun lo KeptAllowed trace s.sp)
    (lined : s.Lined trace) (keeps : s.KeepsSpool e) (sends : s.SpoolSends e)
    (clear : s.SocketClear e) (step : RouterStep lo ready s e t) (boot sender : Nat) :
    Lanes.Step (fun m n => m.seq < n.seq) (s.lanes boot sender) (t.lanes boot sender) := by
  cases step with
  | monitor | stop | call | readState | toSpool | toSocket | notPushed | notSent => exact .stay
  | wake here | notPopped here =>
    exact stays rfl (overSpool_same rfl (inHand_of here).symm rfl) fun _ => rfl
  | check here =>
    exact stays rfl (overSpool_same rfl ((afterWake_inHand s _).trans (inHand_of here).symm) rfl)
      fun _ => rfl
  | popped here pop =>
    exact stays rfl (overSpool_popped run lined.placed (keeps _ rfl) here pop) fun _ => rfl
  | sentPopped here => exact stays rfl (overSpool_sent here) fun _ => by simp [hand]
  | @lostPopped failing msg here fails =>
    have := sendTransientRouterMessage_all.mpr fun i hi =>
      sends i hi msg (by rw [inHand_of here]; exact List.mem_singleton_self msg)
    rw [this] at fails
    cases fails
  | @pushed i allow msg sp culled here =>
    have under : (s.calls i).message = some msg := by rw [here]; rfl
    have msgSender := (lined.once.own i msg under).1
    have empty : s.pipes (.sender i) = [] := clear
    by_cases of : msg.boot = boot ∧ msg.sender = sender
    · obtain ⟨rfl, rfl⟩ := of
      have put := @Lanes.Step.putSlow _ (fun m n => m.seq < n.seq) (s.lanes msg.boot msg.sender) msg
        (fun m hm => lined.later (msgSender ▸ under) hm) (by simp [lanes, msgSender, empty])
      simpa [lanes, overSpool, inHand, accept, setCall, ofSender_append] using put
    · have same := @Lanes.Step.stay _ (fun m n : Submission => m.seq < n.seq) (s.lanes boot sender)
      simpa [lanes, overSpool, inHand, accept, setCall, ofSender_append,
        ofSender_cons_other [] of] using same
  | @sent i failing msg here all =>
    have under : (s.calls i).message = some msg := by rw [here]; rfl
    have msgSender := (lined.once.own i msg under).1
    have msgBoot := lined.pending i msg under
    by_cases of : msg.boot = boot ∧ msg.sender = sender
    · obtain ⟨rfl, rfl⟩ := of
      subst msgSender
      have put := @Lanes.Step.putDirect _ (fun m n => m.seq < n.seq) (s.lanes msg.boot msg.sender)
        msg (fun m hm => lined.later under hm) (msgBoot ▸ lined.sending _ msg here)
      simpa [lanes, overSpool, inHand, accept, hand, setCall, ofSender_append] using put
    · have same := @Lanes.Step.stay _ (fun m n : Submission => m.seq < n.seq) (s.lanes boot sender)
      by_cases hi : sender = i
      · subst hi
        simpa [lanes, overSpool, inHand, accept, hand, setCall, ofSender_append,
          ofSender_cons_other [] of] using same
      · simpa [lanes, overSpool, inHand, accept, hand, setCall, hi] using same
  | @outgoing socket msg rest front =>
    cases socket with
    | spool =>
      by_cases of : msg.boot = boot ∧ msg.sender = sender
      · obtain ⟨rfl, rfl⟩ := of
        have taken := @Lanes.Step.takeSlow _ (fun m n => m.seq < n.seq)
          (s.lanes msg.boot msg.sender) msg
          (ofSender msg.boot msg.sender (rest ++ s.inHand ++ s.spooled))
          (by simp [lanes, overSpool, front])
        simpa [lanes, overSpool, inHand, ofSender_append] using taken
      · have same := @Lanes.Step.stay _ (fun m n : Submission => m.seq < n.seq)
          (s.lanes boot sender)
        simpa [lanes, overSpool, inHand, front, ofSender_append, ofSender_cons_other _ of]
          using same
    | sender i =>
      have msgSender := lined.own i msg (by simp [front])
      by_cases of : msg.boot = boot ∧ msg.sender = sender
      · obtain ⟨rfl, rfl⟩ := of
        subst msgSender
        have taken := @Lanes.Step.takeDirect _ (fun m n => m.seq < n.seq)
          (s.lanes msg.boot msg.sender) msg (ofSender msg.boot msg.sender rest)
          (by simp [lanes, front])
        simpa [lanes, overSpool, inHand, ofSender_append] using taken
      · have same := @Lanes.Step.stay _ (fun m n : Submission => m.seq < n.seq)
          (s.lanes boot sender)
        by_cases hi : sender = i
        · subst hi
          simpa [lanes, overSpool, inHand, front, ofSender_append, ofSender_cons_other _ of]
            using same
        · simpa [lanes, overSpool, inHand, hi, ofSender_append, ofSender_cons_other _ of] using same
  | @restart settings disk sp ended =>
    have sub : (ofSender boot sender s.spooled).Sublist (s.lanes boot sender).slow := by
      simp [lanes, overSpool, ofSender_append]
    have lost := @Lanes.Step.lose _ (fun m n : Submission => m.seq < n.seq) (s.lanes boot sender)
      _ [] sub (List.nil_sublist _)
    simpa [lanes, overSpool, inHand, SpoolThread.inHand, created] using lost

/-! ## One step of the router -/

theorem own_step (own : ∀ i, ∀ m ∈ s.pipes (.sender i), m.sender = i) (once : SubmittedOnce s)
    (step : RouterStep lo ready s e t) : ∀ i, ∀ m ∈ t.pipes (.sender i), m.sender = i := by
  cases step with
  | monitor | stop | call | readState | toSpool | toSocket | pushed | notPushed | notSent | wake
  | check | popped | notPopped | lostPopped => exact own
  | sentPopped here => simpa [hand] using own
  | @sent i failing msg here =>
    have sender := (once.own i msg (by rw [here]; rfl)).1
    intro j m there
    by_cases same : j = i
    · subst same
      simp only [accept, hand, setCall, Function.update_self] at there
      rcases List.mem_append.mp there with there | there
      · exact own j m there
      · exact List.mem_singleton.mp there ▸ sender
    · exact own j m (by simpa [accept, hand, setCall, same] using there)
  | @outgoing socket msg rest front =>
    intro j m there
    by_cases same : .sender j = socket
    · subst same
      simp only [Function.update_self] at there
      exact own j m (by simp [front, there])
    · exact own j m (by simpa [Function.update_of_ne same] using there)
  | restart =>
    intro i m there
    cases there

/-- Only a restart changes the router of a sender, and no call is under way after it. -/
theorem boot_step (step : RouterStep lo ready s e t) :
    (t.boot = s.boot ∧ ∀ settings, e ≠ .restart settings) ∨
      (∃ settings, e = .restart settings) ∧ t.boot = s.boot + 1 ∧ (∀ i, t.calls i = .idle) ∧
        t.overSpool = s.spooled ∧ t.accepted = s.accepted := by
  cases step with
  | restart =>
    exact .inr ⟨⟨_, rfl⟩, rfl, fun _ => rfl,
      by simp [overSpool, inHand, SpoolThread.inHand, created],
      rfl⟩
  | monitor | stop | call | readState | toSpool | toSocket | pushed | notPushed | sent | notSent
  | wake | check | popped | notPopped | sentPopped | lostPopped | outgoing =>
    exact .inl ⟨rfl, fun _ restarts => by cases restarts⟩

theorem accepted_step (step : RouterStep lo ready s e t) {m : Submission} (h : m ∈ t.accepted) :
    m ∈ s.accepted ∨ ∃ i, (s.calls i).message = some m := by
  cases step with
  | monitor | stop | call | readState | toSpool | toSocket | notPushed | notSent | wake
  | check | popped | notPopped | sentPopped | lostPopped | outgoing | restart => exact .inl h
  | @pushed i _ msg _ _ here | @sent i _ msg here =>
    rcases List.mem_append.mp h with h | h
    · exact .inl h
    · rw [List.mem_singleton.mp h]
      exact .inr ⟨i, by rw [here]; rfl⟩

theorem sending_step (step : RouterStep lo ready s e t) {i : Nat} {msg : Submission}
    (h : t.calls i = .sending msg) :
    s.calls i = .sending msg ∨
      (e = .choose i ∧ t.overSpool = s.overSpool ∧ ∃ curSt, s.spools curSt = false) := by
  have called : ∀ j call, (∀ m, call ≠ .sending m) →
      (s.setCall j call).calls i = .sending msg → s.calls i = .sending msg := by
    intro j call other h
    by_cases same : i = j
    · subst same
      exact absurd (by simpa [setCall] using h) (other msg)
    · simpa [setCall, same] using h
  cases step with
  | monitor | stop | wake | check | popped | notPopped | sentPopped | lostPopped | outgoing =>
    exact .inl h
  | call | readState | toSpool | pushed | notPushed | sent | notSent =>
    exact .inl (called _ _ (by simp) h)
  | @toSocket j _ curSt _ direct =>
    by_cases same : i = j
    · subst same
      exact .inr ⟨rfl, rfl, curSt, direct⟩
    · left
      simpa [setCall, same] using h
  | restart => cases h

theorem OrderAllowed.delivery (h : s.OrderAllowed e) : s.DeliveryAllowed e :=
  ⟨fun op hop => (h.1.1 op hop).1, h.1.2⟩

/-- The calls on the spool grow by the one in the step; the rest of what a run keeps. -/
theorem Lined.step {trace trace' : SpoolTrace} (run : SpoolRun lo SizedAllowed trace s.sp)
    (lined : s.Lined trace) (allowed : s.OrderAllowed e) (step : RouterStep lo ready s e t)
    (grows : (s.spoolOp e = none ∧ trace' = trace) ∨
      ∃ op out, s.spoolOp e = some op ∧ trace' = trace ++ [(op, out)]) : t.Lined trace' := by
  have kept : SpoolRun lo KeptAllowed trace s.sp := run.mono fun _ _ h => h.1
  have delivery := OrderAllowed.delivery allowed
  have grown := overSpool_step kept lined.placed delivery.1 step
  have spooledBoots : ∀ m ∈ s.spooled, m.boot ≤ s.boot := fun m hm =>
    lined.boots m (lined.placed.placed.mem_iff.mpr (List.mem_append_right _ hm))
  refine ⟨lined.placed.step kept delivery step, lined.once.step step, lined.taken.step step, ?_, ?_,
    own_step lined.own lined.once step, ?_, ?_, fun boot sender =>
      (lanes_step kept lined delivery.1 delivery.2 allowed.2 step boot sender).inOrder
        (lined.inOrder boot sender)⟩
  · intro i msg under
    rcases boot_step step with ⟨same, _⟩ | ⟨_, _, idle, _⟩
    · rw [same]
      rcases step.message under with before | ⟨msgs, _, _, rfl⟩
      · exact lined.pending i msg before
      · rfl
    · rw [idle i] at under
      cases under
  · intro m hm
    have before : m.boot ≤ s.boot := by
      rcases accepted_step step hm with hm | ⟨i, under⟩
      · exact lined.boots m hm
      · exact Nat.le_of_eq (lined.pending i m under)
    rcases boot_step step with ⟨same, _⟩ | ⟨_, next, _⟩
    · omega
    · omega
  · intro i msg here
    rcases boot_step step with ⟨same, _⟩ | ⟨_, _, idle, _⟩
    · rw [same]
      rcases sending_step step here with before | ⟨_, overSame, curSt, direct⟩
      · have none := lined.sending i msg before
        rcases grown with sub | ⟨j, allow, other, _, pushing, added⟩
        · exact List.sublist_nil.mp (none ▸ sub.filter _)
        · have sender := (lined.once.own j other (by rw [pushing]; rfl)).1
          have differs : ¬ (other.boot = s.boot ∧ other.sender = i) := by
            rintro ⟨_, rfl⟩
            rw [sender, pushing] at before
            cases before
          simp only [lanes] at none ⊢
          rw [added, ofSender_append, none, ofSender_cons_other [] differs]
          rfl
      · by_contra some
        obtain ⟨m, hm⟩ := List.exists_mem_of_ne_nil _ some
        simp only [lanes, overSame, mem_ofSender] at hm
        have filled := not_empty_since_push run (lined.pushed ⟨m, hm.1, hm.2.1⟩)
        simp [spools, filled] at direct
    · rw [idle i] at here
      cases here
  · rintro ⟨m, hm, hboot⟩
    rcases boot_step step with ⟨same, noRestart⟩ | ⟨_, next, _, overSame, _⟩
    · rcases grows with ⟨noOp, rfl⟩ | ⟨op, out, hop, rfl⟩
      · rcases grown with sub | ⟨j, allow, other, rfl, pushing, _⟩
        · exact lined.pushed ⟨m, sub.subset hm, hboot.trans same⟩
        · rw [spoolOp, pushing] at noOp
          cases noOp
      · rw [pushedSinceOpened_snoc]
        cases op with
        | push msgs allow => rfl
        | pop signaled =>
          rcases grown with sub | ⟨j, allow, other, rfl, pushing, _⟩
          · exact lined.pushed ⟨m, sub.subset hm, hboot.trans same⟩
          · rw [spoolOp, pushing] at hop
            cases hop
        | restart settings =>
          cases e with
          | restart settings => exact absurd rfl (noRestart settings)
          | push i allow =>
            rw [spoolOp, Option.map_eq_some_iff] at hop
            obtain ⟨_, _, hop⟩ := hop
            cases hop
          | monitor | stop | call | readState | choose | send | wake | check | pop | sendPopped
          | outgoing => cases hop
    · rw [overSame] at hm
      have := spooledBoots m hm
      omega

end Router

/-- In every run whose senders change from their sockets to the spool only when the sockets are
empty. -/
theorem messages_in_order (run : (routerMachine lo ready).Run Router.OrderAllowed events s) :
    s.ReceivedInOrder := by
  have lined := run.invariant
    (fun s => ∃ trace, SpoolRun lo SizedAllowed trace s.sp ∧ s.Lined trace) ?_ ?_
  · obtain ⟨trace, _, lined⟩ := lined
    exact fun boot sender => (lined.inOrder boot sender).received
  · rintro s ⟨settings, disk, listings, sp, empty, opened, rfl⟩
    have run : SpoolRun lo SizedAllowed [] sp := .create empty opened
    have kept : SpoolRun lo KeptAllowed [] sp := .create empty opened
    have nothing : (Router.created sp).Taken := by
      rintro m (received | ⟨_, there⟩)
      · cases received
      · cases there
    have noneSpooled :
        ¬ ∃ m ∈ (Router.created sp).overSpool, m.boot = (Router.created sp).boot := by
      rintro ⟨m, hm, _⟩
      cases hm
    refine ⟨[], run, ?_⟩
    exact {
      placed := ⟨(kept_events kept).symm, .refl _⟩
      once := .created sp
      taken := nothing
      pending := fun _ _ under => by cases under
      boots := fun _ hm => by cases hm
      own := fun _ _ there => by cases there
      sending := fun _ _ here => by cases here
      pushed := fun some => absurd some noneSpooled
      inOrder := fun _ _ => ⟨.nil, .inl rfl⟩ }
  · rintro s e t ⟨trace, run, lined⟩ allowed next
    have step := routerNext_step next
    rcases step.spool with ⟨none, same⟩ | ⟨op, out, hop, spoolStep⟩
    · exact ⟨trace, same ▸ run, lined.step run allowed step (.inl ⟨none, rfl⟩)⟩
    · exact ⟨_, run.next (allowed.1.1 op hop) spoolStep,
        lined.step run allowed step (.inr ⟨op, out, hop, rfl⟩)⟩

end

/-! ## A sender on both ways -/

/-- The first message goes to the sender's socket. -/
def sendsDirectly : List RouterEvent :=
  [.monitor .connected, .call 0 [[1], [1]], .readState 0, .choose 0, .send 0 none]

/-- The second one goes to the spool, and from there to the router socket. -/
def sendsOverSpool : List RouterEvent :=
  [.monitor .disconnected, .call 0 [[2], [2]], .readState 0, .choose 0, .push 0 .full,
    .monitor .connected, .wake, .check, .pop 9 false, .sendPopped none, .outgoing .spool]

/-- The first message arrives before the second one is sent. -/
theorem messages_in_order_direct_then_spooled : ∃ events s,
    (routerMachine inCreationOrder true).Run Router.OrderAllowed events s ∧
      s.received.map Submission.parts = [[[1], [1]], [[2], [2]]] ∧ s.ReceivedInOrder := by
  obtain ⟨s, run, h⟩ := @exists_router_run inCreationOrder true Router.OrderAllowed _
    tenPartitions (sendsDirectly ++ .outgoing (.sender 0) :: sendsOverSpool)
    (fun s => s.received.map Submission.parts = [[[1], [1]], [[2], [2]]])
    (by decide +kernel) (by decide +kernel)
  exact ⟨_, s, run, of_decide_eq_true h, messages_in_order run⟩

/-- The first message is still in the sender's socket, and the second one overtakes it. -/
theorem spooled_message_overtakes : ∃ events s,
    (routerMachine inCreationOrder true).Run (fun s e => s.SpoolWorks e ∧ s.SpoolSends e) events s ∧
      s.received = [⟨0, 0, 1, [[2], [2]]⟩, ⟨0, 0, 0, [[1], [1]]⟩] ∧ ¬ s.ReceivedInOrder := by
  obtain ⟨s, run, h⟩ := @exists_router_run inCreationOrder true
    (fun s e => s.SpoolWorks e ∧ s.SpoolSends e) _
    tenPartitions (sendsDirectly ++ sendsOverSpool ++ [.outgoing (.sender 0)])
    (fun s => s.received = [⟨0, 0, 1, [[2], [2]]⟩, ⟨0, 0, 0, [[1], [1]]⟩])
    (by decide +kernel) (by decide +kernel)
  have received := of_decide_eq_true h
  refine ⟨_, s, run, received, fun inOrder => ?_⟩
  have := inOrder 0 0
  rw [received] at this
  simp [Router.ofSender] at this

end Yella
