import Yella.Router.Model
import Yella.Spool.Fifo

/-!
# No accepted message is lost

A message for which `send_router_message` returned true is in the spool, with the thread of
`spool_main`, or handed over to a socket, as long as no send of that thread fails.
-/

namespace Yella

/-- What the thread of `spool_main` has popped and is sending. -/
def SpoolThread.inHand : SpoolThread → List Submission
  | .sending msg => [msg]
  | _ => []

namespace Router

def inHand (s : Router) : List Submission := s.spooler.inHand

/-- Every accepted message is in exactly one place. -/
structure Delivered (s : Router) : Prop where
  spooled : s.spooled.map Submission.parts = unvisitedEvents s.sp.disk
  placed : s.accepted.Perm (s.handed ++ s.inHand ++ s.spooled)
  once : s.accepted.Nodup

/-- The calls on the spool find it as they need it: no cull, no failure, an event that fits,
and no stale end-of-file indicator. -/
def KeepsSpool (s : Router) (e : RouterEvent) : Prop :=
  ∀ op, s.spoolOp e = some op → KeptAllowed s.sp op

/-- The thread of `spool_main` does not fail to send. -/
def SpoolSends (s : Router) : RouterEvent → Prop
  | .sendPopped failing => ∀ i ∈ failing, ∀ msg ∈ s.inHand, msg.parts.length ≤ i
  | _ => True

def DeliveryAllowed (s : Router) (e : RouterEvent) : Prop := s.KeepsSpool e ∧ s.SpoolSends e

instance (s : Router) (e : RouterEvent) : Decidable (s.KeepsSpool e) :=
  inferInstanceAs (Decidable (∀ op ∈ s.spoolOp e, KeptAllowed s.sp op))

instance (s : Router) (e : RouterEvent) : Decidable (s.SpoolSends e) :=
  match e with
  | .sendPopped failing =>
    inferInstanceAs (Decidable (∀ i ∈ failing, ∀ msg ∈ s.inHand, msg.parts.length ≤ i))
  | .monitor _ | .stop | .call _ _ | .readState _ | .choose _ | .push _ _ | .send _ _ | .wake
  | .check | .pop _ _ | .outgoing _ | .restart _ => .isTrue trivial

instance (s : Router) (e : RouterEvent) : Decidable (s.DeliveryAllowed e) :=
  inferInstanceAs (Decidable (_ ∧ _))

end Router

theorem sendTransientRouterMessage_all {failing : Option Nat} {msgs : List Bytes} :
    (sendTransientRouterMessage failing msgs).2 = true ↔ ∀ i ∈ failing, msgs.length ≤ i := by
  induction msgs generalizing failing with
  | nil => simp [sendTransientRouterMessage]
  | cons msg msgs ih =>
    match failing with
    | none => simpa [sendTransientRouterMessage] using @ih none
    | some 0 => simp [sendTransientRouterMessage]
    | some (i + 1) => simpa [sendTransientRouterMessage] using @ih (some i)

section
variable {lo : ListingOrder} {ready : Bool} {s t : Router} {e : RouterEvent}
  {events : List RouterEvent}

/-! ## Every submission is one of its own -/

/-- What has been accepted of a sender was submitted before the message under way. -/
structure SubmittedOnce (s : Router) : Prop where
  nodup : s.accepted.Nodup
  before : ∀ msg ∈ s.accepted, msg.seq < s.submitted msg.sender
  own : ∀ i msg, (s.calls i).message = some msg → msg.sender = i ∧ msg.seq + 1 = s.submitted i ∧
    ∀ m ∈ s.accepted, m.sender = i → m.seq < msg.seq

theorem SubmittedOnce.same (h : SubmittedOnce s) (accepted : t.accepted = s.accepted)
    (submitted : t.submitted = s.submitted)
    (message : ∀ i msg, (t.calls i).message = some msg → (s.calls i).message = some msg) :
    SubmittedOnce t where
  nodup := accepted ▸ h.nodup
  before := by
    rw [accepted, submitted]
    exact h.before
  own i msg under := by
    rw [accepted, submitted]
    exact h.own i msg (message i msg under)

/-- The call of a message that is accepted is over. -/
theorem SubmittedOnce.accept (h : SubmittedOnce s) {i : Nat} {msg : Submission}
    (here : (s.calls i).message = some msg) (accepted : t.accepted = s.accepted ++ [msg])
    (submitted : t.submitted = s.submitted)
    (calls : t.calls = Function.update s.calls i .idle) : SubmittedOnce t := by
  obtain ⟨sender, seq, later⟩ := h.own i msg here
  have new : msg ∉ s.accepted := fun mem => Nat.lt_irrefl _ (later msg mem sender)
  refine ⟨?_, ?_, ?_⟩
  · rw [accepted, List.nodup_append_comm]
    exact List.nodup_cons.mpr ⟨new, h.nodup⟩
  · intro m hm
    rw [accepted, List.mem_append, List.mem_singleton] at hm
    rw [submitted]
    rcases hm with hm | rfl
    · exact h.before m hm
    · rw [sender]
      omega
  · intro j m under
    rw [calls] at under
    have other : j ≠ i := by
      rintro rfl
      simp [SenderCall.message] at under
    rw [Function.update_of_ne other] at under
    obtain ⟨senderM, seqM, laterM⟩ := h.own j m under
    rw [submitted, accepted]
    refine ⟨senderM, seqM, fun q hq hsender => ?_⟩
    rcases List.mem_append.mp hq with hq | hq
    · exact laterM q hq hsender
    · rw [List.mem_singleton.mp hq, sender] at hsender
      exact absurd hsender.symm other

theorem SubmittedOnce.step (h : SubmittedOnce s) (step : RouterStep lo ready s e t) :
    SubmittedOnce t := by
  have message : (∀ i msgs, e ≠ .call i msgs) → ∀ i msg, (t.calls i).message = some msg →
      (s.calls i).message = some msg := by
    intro noCall i msg under
    rcases step.message under with before | ⟨msgs, hcall, _⟩
    · exact before
    · exact absurd hcall (noCall i msgs)
  cases step with
  | monitor | stop | wake | check | popped | notPopped | sentPopped | lostPopped | outgoing
  | readState | toSpool | toSocket | notPushed | notSent | restart =>
    exact h.same rfl rfl (message fun _ _ h => by cases h)
  | pushed here => exact h.accept (by rw [here]; rfl) rfl rfl rfl
  | sent here => exact h.accept (by rw [here]; rfl) rfl rfl rfl
  | @call i msgs idle =>
    refine ⟨h.nodup, fun m hm => ?_, fun j m under => ?_⟩
    · have := h.before m hm
      by_cases same : m.sender = i
      · subst same
        simp only [Function.update_self]
        omega
      · simpa [Function.update_of_ne same] using this
    · rcases Router.setCall_message under with ⟨rfl, new⟩ | old
      · cases new
        refine ⟨rfl, by simp, fun q hq hsender => ?_⟩
        exact hsender ▸ h.before q hq
      · have other : j ≠ i := by
          rintro rfl
          rw [idle] at old
          cases old
        obtain ⟨sender, seq, later⟩ := h.own j m old
        exact ⟨sender, by simpa [Function.update_of_ne other] using seq, later⟩

theorem SubmittedOnce.created (sp : Spool) : SubmittedOnce (.created sp) where
  nodup := List.nodup_nil
  before _ h := by cases h
  own _ _ h := by cases h

theorem submittedOnce_run {Allowed : Router → RouterEvent → Prop}
    (run : (routerMachine lo ready).Run Allowed events s) : SubmittedOnce s := by
  refine run.invariant SubmittedOnce ?_ fun s e t h _ next => h.step (routerNext_step next)
  rintro s ⟨_, _, _, sp, _, _, rfl⟩
  exact .created sp

/-! ## Where the accepted messages are -/

namespace Router

@[simp] theorem afterWake_inHand (s : Router) (st : RouterState) :
    (s.afterWake ready st).inHand = [] := by
  unfold afterWake
  split
  · rfl
  · split
    · split
      · split <;> rfl
      · rfl
    · rfl

theorem inHand_of {spooler : SpoolThread} (here : s.spooler = spooler) :
    s.inHand = spooler.inHand := by
  rw [inHand, here]

structure Placed (s : Router) : Prop where
  spooled : s.spooled.map Submission.parts = unvisitedEvents s.sp.disk
  placed : s.accepted.Perm (s.handed ++ s.inHand ++ s.spooled)

theorem Placed.same (h : s.Placed) (spooled : t.spooled = s.spooled)
    (unvisited : unvisitedEvents t.sp.disk = unvisitedEvents s.sp.disk)
    (accepted : t.accepted = s.accepted) (handed : t.handed = s.handed)
    (inHand : t.inHand = s.inHand) : t.Placed where
  spooled := by rw [spooled, unvisited, h.spooled]
  placed := by rw [accepted, handed, inHand, spooled]; exact h.placed

/-- The popped submission is the first of those that are spooled. -/
theorem Placed.popped (h : s.Placed) {parts : List Bytes} {rest : List (List Bytes)}
    (first : unvisitedEvents s.sp.disk = parts :: rest) :
    s.spooled = s.popped parts :: s.spooled.tail ∧ s.spooled.tail.map Submission.parts = rest := by
  have spooled := h.spooled
  rw [first] at spooled
  cases hs : s.spooled with
  | nil =>
    rw [hs] at spooled
    cases spooled
  | cons m ms =>
    rw [hs, List.map_cons, List.cons.injEq] at spooled
    refine ⟨?_, spooled.2⟩
    rw [Router.popped, hs, List.headD_cons, List.tail_cons, ← spooled.1]

theorem Placed.step {trace : SpoolTrace} (run : SpoolRun lo KeptAllowed trace s.sp)
    (h : s.Placed) (allowed : s.DeliveryAllowed e) (step : RouterStep lo ready s e t) :
    t.Placed := by
  obtain ⟨keeps, sends⟩ := allowed
  cases step with
  | monitor | stop | call | readState | toSpool | toSocket | notSent | outgoing =>
    exact h.same rfl rfl rfl rfl rfl
  | wake here => exact h.same rfl rfl rfl rfl (inHand_of here).symm
  | check here => exact h.same rfl rfl rfl rfl ((afterWake_inHand s _).trans (inHand_of here).symm)
  | @pushed i allow msg sp culled here push =>
    have unvisited := unvisited_step run (keeps _ (by rw [spoolOp, here]; rfl)) (.push push)
    refine ⟨?_, ?_⟩
    · rw [List.map_append, h.spooled]
      exact unvisited.symm
    · show (s.accepted ++ [msg]).Perm (s.handed ++ s.inHand ++ (s.spooled ++ [msg]))
      rw [← List.append_assoc]
      exact h.placed.append_right [msg]
  | notPushed here push fails =>
    exact absurd (kept_push_ok run (keeps _ (by rw [spoolOp, here]; rfl)) push) fails
  | @sent i failing msg here all =>
    refine ⟨h.spooled, ?_⟩
    show (s.accepted ++ [msg]).Perm (s.handed ++ [msg] ++ s.inHand ++ s.spooled)
    have front : (s.inHand ++ s.spooled ++ [msg]).Perm ([msg] ++ (s.inHand ++ s.spooled)) :=
      List.perm_append_comm
    have placed := h.placed.append_right [msg]
    simp only [List.append_assoc] at placed front ⊢
    exact placed.trans (front.append_left _)
  | @popped rounds signaled sp parts here pop =>
    have unvisited := unvisited_step run (keeps _ rfl) (.pop pop)
    have first : unvisitedEvents s.sp.disk = parts :: unvisitedEvents sp.disk := by
      simpa [poppedEvents, pushes] using unvisited.symm
    obtain ⟨spooled, rest⟩ := h.popped first
    refine ⟨rest, ?_⟩
    have placed := h.placed
    rw [inHand_of here, spooled] at placed
    simpa [inHand, SpoolThread.inHand] using placed
  | @notPopped rounds signaled sp rc parts here pop fails =>
    have unvisited := unvisited_step run (keeps _ rfl) (.pop pop)
    have same : unvisitedEvents sp.disk = unvisitedEvents s.sp.disk := by
      simpa [poppedEvents, pushes, fails] using unvisited
    exact h.same rfl same rfl rfl (inHand_of here).symm
  | @sentPopped failing msg here all =>
    refine ⟨h.spooled, ?_⟩
    have placed := h.placed
    rw [inHand_of here] at placed
    simpa [inHand, SpoolThread.inHand, hand] using placed
  | @lostPopped failing msg here fails =>
    have := sendTransientRouterMessage_all.mpr fun i hi =>
      sends i hi msg (by rw [inHand_of here]; exact List.mem_singleton_self msg)
    rw [this] at fails
    cases fails
  | @restart settings disk sp ended closed opened =>
    have unvisited := unvisited_step run (keeps _ rfl) (.restart closed opened)
    have same : unvisitedEvents sp.disk = unvisitedEvents s.sp.disk := by
      simpa [poppedEvents, pushes] using unvisited
    exact h.same rfl same rfl rfl (inHand_of ended).symm

end Router

/-- In every state of a run without a failure of the thread of `spool_main`. -/
theorem accepted_messages_kept
    (run : (routerMachine lo ready).Run Router.DeliveryAllowed events s) :
    s.Delivered := by
  have placed := run.invariant
    (fun s => s.Placed ∧ ∃ trace, SpoolRun lo KeptAllowed trace s.sp) ?_ ?_
  · exact ⟨placed.1.spooled, placed.1.placed, (submittedOnce_run run).nodup⟩
  · rintro s ⟨settings, disk, listings, sp, empty, opened, rfl⟩
    have run : SpoolRun lo KeptAllowed [] sp := .create empty opened
    exact ⟨⟨(kept_events run).symm, .refl _⟩, [], run⟩
  · rintro s e t ⟨placed, trace, run⟩ allowed next
    have step := routerNext_step next
    refine ⟨placed.step run allowed step, ?_⟩
    rcases step.spool with ⟨_, same⟩ | ⟨op, out, hop, spoolStep⟩
    · exact ⟨trace, same ▸ run⟩
    · exact ⟨_, run.next (allowed.1 op hop) spoolStep⟩

/-- A send that fails takes its message away. -/
theorem undelivered_of_failed_send (delivered : s.Delivered) {failing : Option Nat}
    {msg : Submission} (here : s.spooler = .sending msg)
    (fails : (sendTransientRouterMessage failing msg.parts).2 = false)
    (next : routerNext lo ready s (.sendPopped failing) = some t) : ¬ t.Delivered := by
  intro after
  cases routerNext_step next with
  | sentPopped here' all =>
    cases here.symm.trans here'
    rw [fails] at all
    cases all
  | lostPopped =>
    have before := delivered.placed.length_eq
    have now := after.placed.length_eq
    rw [Router.inHand_of here] at before
    simp [Router.inHand, SpoolThread.inHand] at before now
    omega

end

/-! ## One message over the spool -/

/-- A message of two parts is sent without a connection, and popped after it. -/
def spooledAndPopped : List RouterEvent :=
  [.call 0 [[1], [2]], .readState 0, .choose 0, .push 0 .full, .monitor .connected, .wake, .check,
    .pop 9 false]

/-- It is sent from there. -/
theorem accepted_messages_kept_sentPopped : ∃ events s,
    (routerMachine inCreationOrder true).Run Router.DeliveryAllowed events s ∧
      s.handed.map Submission.parts = [[[1], [2]]] ∧ s.Delivered := by
  obtain ⟨s, run, h⟩ := @exists_router_run inCreationOrder true Router.DeliveryAllowed _
    tenPartitions (spooledAndPopped ++ [.sendPopped none])
    (fun s => s.handed.map Submission.parts = [[[1], [2]]]) (by decide +kernel) (by decide +kernel)
  exact ⟨_, s, run, of_decide_eq_true h, accepted_messages_kept run⟩

/-- The send of its first part fails, and it is nowhere any more. -/
theorem failed_send_loses_message : ∃ events s,
    (routerMachine inCreationOrder true).Run Router.KeepsSpool events s ∧
      s.accepted.map Submission.parts = [[[1], [2]]] ∧ s.handed = [] ∧ s.inHand = [] ∧
      unvisitedEvents s.sp.disk = [] ∧ ¬ s.Delivered := by
  obtain ⟨s, run, h⟩ := @exists_router_run inCreationOrder true Router.KeepsSpool _
    tenPartitions (spooledAndPopped ++ [.sendPopped (some 0)])
    (fun s => s.accepted.map Submission.parts = [[[1], [2]]] ∧ s.handed = [] ∧ s.inHand = [] ∧
      unvisitedEvents s.sp.disk = []) (by decide +kernel) (by decide +kernel)
  obtain ⟨accepted, handed, inHand, unvisited⟩ := of_decide_eq_true h
  refine ⟨_, s, run, accepted, handed, inHand, unvisited, fun delivered => ?_⟩
  have spooled := delivered.spooled
  rw [unvisited, List.map_eq_nil_iff] at spooled
  have placed := delivered.placed
  rw [handed, inHand, spooled] at placed
  rw [List.perm_nil.mp placed] at accepted
  cases accepted

end Yella
