import Yella.Lib.Machine
import Yella.Spool.Run

/-!
# The router

`router.c`: the threads that call `send_router_message`, the thread of `spool_main` and the
sockets between them and the router socket, one step after the other in any order. A step that
is not defined is a failed assertion or one that the thread waits for.
-/

namespace Yella

inductive RouterState where
  | connectionPending
  | connected
  | disconnected
  | socketClosed
  deriving DecidableEq

/-- `ZMQ_EVENT_CONNECTED` and so on, as far as `process_monitor_in_event` knows them. -/
inductive MonitorSocketEvent where
  | connected
  | connectDelayed
  | connectRetried
  | closed
  | disconnected
  | other

def processMonitorInEvent (state : RouterState) : MonitorSocketEvent → RouterState
  | .connected => .connected
  | .connectDelayed => .connectionPending
  | .connectRetried => .connectionPending
  | .closed => .socketClosed
  | .disconnected => .disconnected
  | .other => state

/-- A message, and the call of `send_router_message` that it was given to: the `seq`-th of a
sender of the `boot`-th router. -/
structure Submission where
  boot : Nat
  sender : Nat
  seq : Nat
  parts : List Bytes
  deriving DecidableEq

/-- The sockets that push to `inproc://outgoing`. -/
inductive PushSocket where
  | sender (i : Nat)
  | spool
  deriving DecidableEq

/-- Where the thread of a sender is in `send_router_message`. -/
inductive SenderCall where
  | idle
  | called (msg : Submission)
  | stateRead (msg : Submission) (curSt : RouterState)
  | spooling (msg : Submission)
  | sending (msg : Submission)
  deriving DecidableEq

/-- Where the thread of `spool_main` is. -/
inductive SpoolThread where
  | waiting
  | woken (st : RouterState)
  | popping
  | sending (msg : Submission)
  | ended
  deriving DecidableEq

/-- The fields of `router`, the threads and the sockets; from `boot` on what has happened.
`spooled` are the submissions of the events that have not been popped, `accepted` those for
which `send_router_message` returned true, and `handed` those that a socket took with all
their parts. -/
structure Router where
  state : RouterState
  shouldStop : Bool
  sp : Spool
  calls : Nat → SenderCall
  spooler : SpoolThread
  pipes : PushSocket → List Submission
  received : List Submission
  boot : Nat
  submitted : Nat → Nat
  spooled : List Submission
  accepted : List Submission
  handed : List Submission

namespace Router

def setCall (s : Router) (i : Nat) (call : SenderCall) : Router :=
  { s with calls := Function.update s.calls i call }

/-- A socket takes all parts of a message. -/
def hand (s : Router) (socket : PushSocket) (msg : Submission) : Router :=
  { s with
    pipes := Function.update s.pipes socket (s.pipes socket ++ [msg])
    handed := s.handed ++ [msg] }

/-- `send_router_message` returns true. -/
def accept (s : Router) (msg : Submission) : Router :=
  { s with accepted := s.accepted ++ [msg] }

/-- The condition of the loop in which the thread of `spool_main` waits. -/
def waits (s : Router) : Bool :=
  !s.shouldStop && (s.state != .connected ||
    (s.state == .connected && spoolEmptyOfMessages s.sp))

/-- What `send_router_message` does with the state that it has read. -/
def spools (s : Router) (curSt : RouterState) : Bool :=
  curSt != .connected || !spoolEmptyOfMessages s.sp

/-- Where the thread of `spool_main` goes with the state that it has read. `ready` is the value
of a variable that is never assigned. -/
def afterWake (ready : Bool) (s : Router) (st : RouterState) : SpoolThread :=
  if s.shouldStop then .ended
  else if st = .connected then
    if !spoolEmptyOfMessages s.sp then
      if ready then .popping else .waiting
    else .waiting
  else .waiting

/-- The submission of an event that is popped. -/
def popped (s : Router) (parts : List Bytes) : Submission :=
  { s.spooled.headD ⟨0, 0, 0, []⟩ with parts }

/-- `create_router` on a spool that has been opened. -/
def created (sp : Spool) : Router where
  state := .connectionPending
  shouldStop := false
  sp := sp
  calls _ := .idle
  spooler := .waiting
  pipes _ := []
  received := []
  boot := 0
  submitted _ := 0
  spooled := []
  accepted := []
  handed := []

end Router

/-- `send_transient_router_message` where the send of one part may fail: the parts that were
taken, and the result. After a failure the socket drops the parts that it has. -/
def sendTransientRouterMessage : Option Nat → List Bytes → List Bytes × Bool
  | _, [] => ([], true)
  | some 0, _ :: _ => ([], false)
  | failing, msg :: msgs =>
    let (taken, result) := sendTransientRouterMessage (failing.map (· - 1)) msgs
    (msg :: taken, result)

inductive RouterEvent where
  | monitor (e : MonitorSocketEvent)
  /-- `destroy_router` sets `should_stop`. -/
  | stop
  | call (i : Nat) (msgs : List Bytes)
  | readState (i : Nat)
  | choose (i : Nat)
  | push (i : Nat) (allow : Allowance)
  | send (i : Nat) (failing : Option Nat)
  | wake
  | check
  | pop (rounds : Nat) (signaled : Bool)
  | sendPopped (failing : Option Nat)
  /-- `process_outgoing_in_event` -/
  | outgoing (socket : PushSocket)
  /-- The rest of `destroy_router`, and `create_router` on the same directory. -/
  | restart (settings : SpoolSettings)

section
variable (lo : ListingOrder) (ready : Bool)

def routerNext (s : Router) : RouterEvent → Option Router
  | .monitor e => some { s with state := processMonitorInEvent s.state e }
  | .stop => some { s with shouldStop := true }
  | .call i msgs =>
    match s.calls i with
    | .idle =>
      some { s.setCall i (.called ⟨s.boot, i, s.submitted i, msgs⟩) with
        submitted := Function.update s.submitted i (s.submitted i + 1) }
    | _ => none
  | .readState i =>
    match s.calls i with
    | .called msg => some (s.setCall i (.stateRead msg s.state))
    | _ => none
  | .choose i =>
    match s.calls i with
    | .stateRead msg curSt =>
      some (s.setCall i (if s.spools curSt then .spooling msg else .sending msg))
    | _ => none
  | .push i allow =>
    match s.calls i with
    | .spooling msg => do
      let (sp, rc, _) ← spoolPush lo s.sp allow msg.parts
      let s := { s.setCall i .idle with sp }
      some (if rc = .noError then { s.accept msg with spooled := s.spooled ++ [msg] } else s)
    | _ => none
  | .send i failing =>
    match s.calls i with
    | .sending msg =>
      let (_, result) := sendTransientRouterMessage failing msg.parts
      let s := s.setCall i .idle
      some (if result then (s.hand (.sender i) msg).accept msg else s)
    | _ => none
  | .wake =>
    match s.spooler with
    | .waiting => if s.waits then none else some { s with spooler := .woken s.state }
    | _ => none
  | .check =>
    match s.spooler with
    | .woken st => some { s with spooler := s.afterWake ready st }
    | _ => none
  | .pop rounds signaled =>
    match s.spooler with
    | .popping => do
      let (sp, rc, parts) ← spoolPop lo rounds signaled s.sp
      if rc = .noError then
        -- the assertion on count_popped
        if parts.length = 2 then
          some { s with sp, spooled := s.spooled.tail, spooler := .sending (s.popped parts) }
        else none
      else some { s with sp, spooler := .waiting }
    | _ => none
  | .sendPopped failing =>
    match s.spooler with
    | .sending msg =>
      -- the result is not looked at
      let (_, result) := sendTransientRouterMessage failing msg.parts
      let s := { s with spooler := .waiting }
      some (if result then s.hand .spool msg else s)
    | _ => none
  | .outgoing socket =>
    match s.pipes socket with
    | msg :: rest =>
      some { s with
        pipes := Function.update s.pipes socket rest
        received := s.received ++ [msg] }
    | [] => none
  | .restart settings =>
    match s.spooler with
    | .ended => do
      let disk ← destroySpool s.sp
      let sp ← (createSpool lo settings disk s.sp.listings).join
      some { Router.created sp with
        received := s.received
        boot := s.boot + 1
        submitted := s.submitted
        spooled := s.spooled
        accepted := s.accepted
        handed := s.handed }
    | _ => none

/-- The first router finds an empty directory. -/
def routerMachine : Machine Router RouterEvent where
  start s := ∃ settings disk listings sp, disk.dir = [] ∧
    createSpool lo settings disk listings = some (some sp) ∧ s = .created sp
  next := routerNext lo ready

end

/-! ## What each step does -/

inductive RouterStep (lo : ListingOrder) (ready : Bool) (s : Router) :
    RouterEvent → Router → Prop
  | monitor {e : MonitorSocketEvent} :
      RouterStep lo ready s (.monitor e) { s with state := processMonitorInEvent s.state e }
  | stop : RouterStep lo ready s .stop { s with shouldStop := true }
  | call {i : Nat} {msgs : List Bytes} (idle : s.calls i = .idle) :
      RouterStep lo ready s (.call i msgs)
        { s.setCall i (.called ⟨s.boot, i, s.submitted i, msgs⟩) with
          submitted := Function.update s.submitted i (s.submitted i + 1) }
  | readState {i : Nat} {msg : Submission} (here : s.calls i = .called msg) :
      RouterStep lo ready s (.readState i) (s.setCall i (.stateRead msg s.state))
  | toSpool {i : Nat} {msg : Submission} {curSt : RouterState}
      (here : s.calls i = .stateRead msg curSt) (spools : s.spools curSt = true) :
      RouterStep lo ready s (.choose i) (s.setCall i (.spooling msg))
  | toSocket {i : Nat} {msg : Submission} {curSt : RouterState}
      (here : s.calls i = .stateRead msg curSt) (direct : s.spools curSt = false) :
      RouterStep lo ready s (.choose i) (s.setCall i (.sending msg))
  | pushed {i : Nat} {allow : Allowance} {msg : Submission} {sp : Spool} {culled : Option UStr}
      (here : s.calls i = .spooling msg)
      (push : spoolPush lo s.sp allow msg.parts = some (sp, .noError, culled)) :
      RouterStep lo ready s (.push i allow)
        { { s.setCall i .idle with sp }.accept msg with spooled := s.spooled ++ [msg] }
  | notPushed {i : Nat} {allow : Allowance} {msg : Submission} {sp : Spool} {rc : Rc}
      {culled : Option UStr} (here : s.calls i = .spooling msg)
      (push : spoolPush lo s.sp allow msg.parts = some (sp, rc, culled)) (fails : rc ≠ .noError) :
      RouterStep lo ready s (.push i allow) { s.setCall i .idle with sp }
  | sent {i : Nat} {failing : Option Nat} {msg : Submission} (here : s.calls i = .sending msg)
      (all : (sendTransientRouterMessage failing msg.parts).2 = true) :
      RouterStep lo ready s (.send i failing)
        (((s.setCall i .idle).hand (.sender i) msg).accept msg)
  | notSent {i : Nat} {failing : Option Nat} {msg : Submission} (here : s.calls i = .sending msg) :
      RouterStep lo ready s (.send i failing) (s.setCall i .idle)
  | wake (here : s.spooler = .waiting) (passes : s.waits = false) :
      RouterStep lo ready s .wake { s with spooler := .woken s.state }
  | check {st : RouterState} (here : s.spooler = .woken st) :
      RouterStep lo ready s .check { s with spooler := s.afterWake ready st }
  | popped {rounds : Nat} {signaled : Bool} {sp : Spool} {parts : List Bytes}
      (here : s.spooler = .popping)
      (pop : spoolPop lo rounds signaled s.sp = some (sp, .noError, parts))
      (asserted : parts.length = 2) :
      RouterStep lo ready s (.pop rounds signaled)
        { s with sp, spooled := s.spooled.tail, spooler := .sending (s.popped parts) }
  | notPopped {rounds : Nat} {signaled : Bool} {sp : Spool} {rc : Rc} {parts : List Bytes}
      (here : s.spooler = .popping)
      (pop : spoolPop lo rounds signaled s.sp = some (sp, rc, parts)) (fails : rc ≠ .noError) :
      RouterStep lo ready s (.pop rounds signaled) { s with sp, spooler := .waiting }
  | sentPopped {failing : Option Nat} {msg : Submission} (here : s.spooler = .sending msg)
      (all : (sendTransientRouterMessage failing msg.parts).2 = true) :
      RouterStep lo ready s (.sendPopped failing)
        ({ s with spooler := .waiting }.hand .spool msg)
  | lostPopped {failing : Option Nat} {msg : Submission} (here : s.spooler = .sending msg)
      (fails : (sendTransientRouterMessage failing msg.parts).2 = false) :
      RouterStep lo ready s (.sendPopped failing) { s with spooler := .waiting }
  | outgoing {socket : PushSocket} {msg : Submission} {rest : List Submission}
      (front : s.pipes socket = msg :: rest) :
      RouterStep lo ready s (.outgoing socket)
        { s with
          pipes := Function.update s.pipes socket rest
          received := s.received ++ [msg] }
  | restart {settings : SpoolSettings} {disk : Disk} {sp : Spool} (ended : s.spooler = .ended)
      (closed : destroySpool s.sp = some disk)
      (opened : createSpool lo settings disk s.sp.listings = some (some sp)) :
      RouterStep lo ready s (.restart settings)
        { Router.created sp with
          received := s.received
          boot := s.boot + 1
          submitted := s.submitted
          spooled := s.spooled
          accepted := s.accepted
          handed := s.handed }

theorem routerNext_step {lo : ListingOrder} {ready : Bool} {s t : Router} {e : RouterEvent}
    (h : routerNext lo ready s e = some t) : RouterStep lo ready s e t := by
  cases e with
  | monitor e =>
    cases h
    exact .monitor
  | stop =>
    cases h
    exact .stop
  | call i msgs =>
    simp only [routerNext] at h
    split at h <;> cases h
    exact .call ‹_›
  | readState i =>
    simp only [routerNext] at h
    split at h <;> cases h
    exact .readState ‹_›
  | choose i =>
    simp only [routerNext] at h
    split at h
    · split at h <;> cases h
      · exact .toSpool ‹_› ‹_›
      · exact .toSocket ‹_› (Bool.eq_false_iff.mpr ‹¬ _›)
    · cases h
  | push i allow =>
    simp only [routerNext] at h
    split at h
    · obtain ⟨⟨sp, rc, culled⟩, push, h⟩ := Option.bind_eq_some_iff.mp h
      simp only at h
      split at h <;> cases h
      · rename_i ok
        exact .pushed ‹_› (ok ▸ push)
      · exact .notPushed ‹_› push ‹_›
    · cases h
  | send i failing =>
    simp only [routerNext] at h
    split at h
    · split at h <;> cases h
      · exact .sent ‹_› ‹_›
      · exact .notSent ‹_›
    · cases h
  | wake =>
    simp only [routerNext] at h
    split at h
    · split at h <;> cases h
      exact .wake ‹_› (Bool.eq_false_iff.mpr ‹¬ _›)
    · cases h
  | check =>
    simp only [routerNext] at h
    split at h <;> cases h
    exact .check ‹_›
  | pop rounds signaled =>
    simp only [routerNext] at h
    split at h
    · obtain ⟨⟨sp, rc, parts⟩, pop, h⟩ := Option.bind_eq_some_iff.mp h
      simp only at h
      split at h
      · rename_i ok
        split at h <;> cases h
        exact .popped ‹_› (ok ▸ pop) ‹_›
      · cases h
        exact .notPopped ‹_› pop ‹_›
    · cases h
  | sendPopped failing =>
    simp only [routerNext] at h
    split at h
    · split at h <;> cases h
      · exact .sentPopped ‹_› ‹_›
      · exact .lostPopped ‹_› (Bool.eq_false_iff.mpr ‹¬ _›)
    · cases h
  | outgoing socket =>
    simp only [routerNext] at h
    split at h <;> cases h
    exact .outgoing ‹_›
  | restart settings =>
    simp only [routerNext] at h
    split at h
    · obtain ⟨disk, closed, h⟩ := Option.bind_eq_some_iff.mp h
      obtain ⟨sp, opened, h⟩ := Option.bind_eq_some_iff.mp h
      cases h
      exact .restart ‹_› closed (Option.join_eq_some_iff.mp opened)
    · cases h

/-! ## The calls and the spool in a step -/

/-- The message of a call that is under way. -/
def SenderCall.message : SenderCall → Option Submission
  | idle => none
  | called msg => some msg
  | stateRead msg _ => some msg
  | spooling msg => some msg
  | sending msg => some msg

/-- The call on the spool in a step. -/
def Router.spoolOp (s : Router) : RouterEvent → Option SpoolOp
  | .push i allow => (s.calls i).message.map fun msg => .push msg.parts allow
  | .pop _ signaled => some (.pop signaled)
  | .restart settings => some (.restart settings)
  | _ => none

section
variable {lo : ListingOrder} {ready : Bool} {s t : Router} {e : RouterEvent} {msg : Submission}

theorem Router.setCall_message {i j : Nat} {call : SenderCall}
    (h : ((s.setCall i call).calls j).message = some msg) :
    (j = i ∧ call.message = some msg) ∨ (s.calls j).message = some msg := by
  by_cases same : j = i
  · subst same
    left
    simpa [Router.setCall] using h
  · right
    simpa [Router.setCall, same] using h

/-- A message under way was so before, or its call begins. -/
theorem RouterStep.message (h : RouterStep lo ready s e t) {j : Nat}
    (under : (t.calls j).message = some msg) : (s.calls j).message = some msg ∨
      ∃ msgs, e = .call j msgs ∧ s.calls j = .idle ∧
        msg = ⟨s.boot, j, s.submitted j, msgs⟩ := by
  cases h with
  | monitor | stop | wake | check | popped | notPopped | sentPopped | lostPopped | outgoing =>
    exact .inl under
  | @call i msgs idle =>
    rcases Router.setCall_message under with ⟨rfl, new⟩ | old
    · cases new
      exact .inr ⟨msgs, rfl, idle, rfl⟩
    · exact .inl old
  | readState here | toSpool here | toSocket here =>
    rcases Router.setCall_message under with ⟨rfl, same⟩ | old
    · cases same
      exact .inl (by rw [here]; rfl)
    · exact .inl old
  | pushed here | notPushed here | sent here | notSent here =>
    rcases Router.setCall_message under with ⟨rfl, none⟩ | old
    · cases none
    · exact .inl old
  | restart => cases under

/-- What a step does to the spool. -/
theorem RouterStep.spool (h : RouterStep lo ready s e t) :
    (s.spoolOp e = none ∧ t.sp = s.sp) ∨
      ∃ op out, s.spoolOp e = some op ∧ SpoolStep lo s.sp op out t.sp := by
  cases h with
  | monitor | stop | call | readState | toSpool | toSocket | sent | notSent | wake | check
  | sentPopped | lostPopped | outgoing => exact .inl ⟨rfl, rfl⟩
  | pushed here push | notPushed here push =>
    exact .inr ⟨_, _, by rw [Router.spoolOp, here]; rfl, .push push⟩
  | popped _ pop | notPopped _ pop => exact .inr ⟨_, _, rfl, .pop pop⟩
  | restart _ closed opened => exact .inr ⟨_, _, rfl, .restart closed opened⟩

end

/-- The state after these events on a new directory. -/
def routerAfter (lo : ListingOrder) (ready : Bool) (settings : SpoolSettings)
    (events : List RouterEvent) : Option Router :=
  (createSpool lo settings Disk.empty 0).join.bind fun sp =>
    (routerMachine lo ready).after (.created sp) events

theorem exists_router_run {lo : ListingOrder} {ready : Bool}
    {Allowed : Router → RouterEvent → Prop} [∀ s e, Decidable (Allowed s e)]
    {settings : SpoolSettings} {events : List RouterEvent} {p : Router → Bool}
    (allowed : (createSpool lo settings Disk.empty 0).join.all fun sp =>
      (routerMachine lo ready).AllowedAlong Allowed (.created sp) events)
    (h : (routerAfter lo ready settings events).any p = true) :
    ∃ s, (routerMachine lo ready).Run Allowed events s ∧ p s = true := by
  obtain ⟨s, after, hs⟩ := (Option.any_eq_true _ _).mp h
  obtain ⟨sp, opened, after⟩ := Option.bind_eq_some_iff.mp after
  rw [opened, Option.all_some, decide_eq_true_eq] at allowed
  have starts : (routerMachine lo ready).start (.created sp) :=
    ⟨settings, .empty, 0, sp, rfl, Option.join_eq_some_iff.mp opened, rfl⟩
  exact ⟨s, Machine.run_of_after starts allowed after, hs⟩

end Yella
