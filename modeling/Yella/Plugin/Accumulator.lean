import Yella.Plugin.Config

/-!
# The accumulator

`accumulator.c`: the file states that wait for each recipient, and the thread that gives them to
the agent. Whether it holds `guard` can be read off from where it is.
-/

namespace Yella

/-- The builder gets every text of the message: `yella_to_utf8` does not return NULL for the names
of the config and of the element, and the attributes are packed. -/
def Message.packs (utf : Utf) (msg : Message) : Bool :=
  (utf.toUtf8 msg.configName).isSome && (utf.toUtf8 msg.name).isSome &&
    msg.attrs.all fun attrs => (attrs.mapM (packAttribute utf)).isSome

/-- `states` is what the builder has got since it was reset. -/
structure MsgNode where
  recipient : UStr
  states : List Message

def MsgNode.count (node : MsgNode) : Nat := node.states.length

def MsgNode.push (node : MsgNode) (msg : Message) : MsgNode :=
  { node with states := node.states ++ [msg] }

def MsgNode.reset (node : MsgNode) : MsgNode := { node with states := [] }

abbrev MsgTree := SortedList.Tree MsgNode.recipient

/-- What `send_message` gets: a parcel of the type `yella.fb.file.file_states`. -/
structure StatesParcel where
  recipient : UStr
  minor : Nat
  states : List Message

/-- Where `worker_main` is; `rest` are the recipients that the iterator has not come to. -/
inductive AccumulatorThread where
  | waiting
  | sending (timeLimitReached : Bool) (rest : List UStr)
  /-- Behind the `break`. -/
  | leaving
  | sendingLast (rest : List UStr)
  | ended

/-- `guard` is locked while the thread goes through the recipients. -/
def AccumulatorThread.holdsGuard : AccumulatorThread → Bool
  | sending _ _ => true
  | sendingLast _ => true
  | _ => false

/-- There is one node for each recipient. -/
structure Accumulator where
  recipients : MsgTree
  distinct : recipients.Distinct
  shouldStop : Bool
  minorSeq : Nat
  worker : AccumulatorThread

def createAccumulator : Accumulator where
  recipients := .empty
  distinct := List.nodup_nil
  shouldStop := false
  minorSeq := 0
  worker := .waiting

namespace Accumulator

/-- A recipient gets its node. -/
def withNode (acc : Accumulator) (recipient : UStr) : MsgTree :=
  if (acc.recipients.find recipient).isNone then acc.recipients.add ⟨recipient, []⟩
  else acc.recipients

theorem withNode_distinct (acc : Accumulator) (recipient : UStr) :
    (acc.withNode recipient).Distinct := by
  unfold withNode
  split
  · rename_i none
    apply acc.distinct.add
    intro there
    obtain ⟨node, hnode, same⟩ := List.mem_map.mp there
    have := (SortedList.find_none MsgNode.recipient acc.recipients.sorted).mp
      (Option.isNone_iff_eq_none.mp none)
    exact this node hnode same
  · exact acc.distinct

/-- The vector of the recipient gets one more state. -/
def pushed (acc : Accumulator) (msg : Message) : Accumulator :=
  { acc with
    recipients := (acc.withNode msg.recipient).modify msg.recipient (·.push msg) fun _ => rfl
    distinct := (acc.withNode_distinct msg.recipient).modify _ _ _ }

/-- `add_accumulator_message`, between the lock and the unlock; the agent ends in it when a text is
not converted. -/
def addMessage (utf : Utf) (acc : Accumulator) (msg : Message) : Option Accumulator :=
  if msg.packs utf then some (acc.pushed msg) else none

def keys (acc : Accumulator) : List UStr := acc.recipients.nodes.map MsgNode.recipient

/-- A parcel is made of what a node holds, which is reset. -/
def take (acc : Accumulator) (node : MsgNode) : Accumulator × StatesParcel :=
  ({ acc with
      recipients := acc.recipients.modify node.recipient MsgNode.reset fun _ => rfl
      distinct := acc.distinct.modify _ _ _
      minorSeq := (acc.minorSeq + 1) % 0x100000000 },
    { recipient := node.recipient, minor := acc.minorSeq, states := node.states })

end Accumulator

inductive AccumulatorEvent where
  /-- `add_accumulator_message` -/
  | add (msg : Message)
  /-- `destroy_accumulator`, up to the join. -/
  | stop
  /-- The wait ends, because its time has `expired` or otherwise. The clock is then read
  again. -/
  | wake (expired timeLimitReached : Bool)
  | lockLast
  | nextRecipient
  | unlock

section
variable (utf : Utf) (bufferSize : List Message → Nat) (maxMsgSz : Nat)

def noSizeExcess (recipients : MsgTree) : Bool :=
  recipients.nodes.all fun node => bufferSize node.states < maxMsgSz

/-- The condition for a parcel in the first loop over the recipients. -/
def MsgNode.due (node : MsgNode) (timeLimitReached : Bool) : Bool :=
  0 < node.count && (timeLimitReached || maxMsgSz ≤ bufferSize node.states)

/-- The state after a step, and the parcel that is given to `send_message` in it. -/
def accumulatorNext (acc : Accumulator) :
    AccumulatorEvent → Option (Accumulator × Option StatesParcel)
  | .add msg =>
    if acc.worker.holdsGuard then none else (acc.addMessage utf msg).map fun acc => (acc, none)
  | .stop => if acc.worker.holdsGuard then none else some ({ acc with shouldStop := true }, none)
  | .wake expired timeLimitReached =>
    match acc.worker with
    | .waiting =>
      if acc.shouldStop then some ({ acc with worker := .leaving }, none)
      else if expired || !noSizeExcess bufferSize maxMsgSz acc.recipients then
        some ({ acc with worker := .sending timeLimitReached acc.keys }, none)
      else none
    | _ => none
  | .lockLast =>
    match acc.worker with
    | .leaving => some ({ acc with worker := .sendingLast acc.keys }, none)
    | _ => none
  | .nextRecipient =>
    match acc.worker with
    | .sending timeLimitReached (recipient :: rest) =>
      (acc.recipients.find recipient).map fun node =>
        let acc := { acc with worker := .sending timeLimitReached rest }
        if node.due bufferSize maxMsgSz timeLimitReached then
          ((acc.take node).1, some (acc.take node).2)
        else (acc, none)
    | .sendingLast (recipient :: rest) =>
      (acc.recipients.find recipient).map fun node =>
        let acc := { acc with worker := .sendingLast rest }
        if 0 < node.count then ((acc.take node).1, some (acc.take node).2) else (acc, none)
    | _ => none
  | .unlock =>
    match acc.worker with
    | .sending _ [] => some ({ acc with worker := .waiting }, none)
    | .sendingLast [] => some ({ acc with worker := .ended }, none)
    | _ => none

/-! ## What each step does -/

inductive AccumulatorStep (acc : Accumulator) :
    AccumulatorEvent → Accumulator → Option StatesParcel → Prop
  | add {msg : Message} (free : acc.worker.holdsGuard = false) (packs : msg.packs utf) :
      AccumulatorStep acc (.add msg) (acc.pushed msg) none
  | stop (free : acc.worker.holdsGuard = false) :
      AccumulatorStep acc .stop { acc with shouldStop := true } none
  | leave {expired timeLimitReached : Bool} (here : acc.worker = .waiting)
      (stops : acc.shouldStop = true) :
      AccumulatorStep acc (.wake expired timeLimitReached) { acc with worker := .leaving } none
  | wake {expired timeLimitReached : Bool} (here : acc.worker = .waiting)
      (goesOn : acc.shouldStop = false) :
      AccumulatorStep acc (.wake expired timeLimitReached)
        { acc with worker := .sending timeLimitReached acc.keys } none
  | lockLast (here : acc.worker = .leaving) :
      AccumulatorStep acc .lockLast { acc with worker := .sendingLast acc.keys } none
  | send {timeLimitReached : Bool} {node : MsgNode} {rest : List UStr}
      (here : acc.worker = .sending timeLimitReached (node.recipient :: rest))
      (found : acc.recipients.find node.recipient = some node) (filled : node.states ≠ []) :
      AccumulatorStep acc .nextRecipient
        ({ acc with worker := .sending timeLimitReached rest }.take node).1
        (some ({ acc with worker := .sending timeLimitReached rest }.take node).2)
  | passOver {timeLimitReached : Bool} {node : MsgNode} {rest : List UStr}
      (here : acc.worker = .sending timeLimitReached (node.recipient :: rest))
      (found : acc.recipients.find node.recipient = some node)
      (notDue : node.due bufferSize maxMsgSz timeLimitReached = false) :
      AccumulatorStep acc .nextRecipient { acc with worker := .sending timeLimitReached rest } none
  | sendLast {node : MsgNode} {rest : List UStr}
      (here : acc.worker = .sendingLast (node.recipient :: rest))
      (found : acc.recipients.find node.recipient = some node) (filled : node.states ≠ []) :
      AccumulatorStep acc .nextRecipient
        ({ acc with worker := .sendingLast rest }.take node).1
        (some ({ acc with worker := .sendingLast rest }.take node).2)
  | passEmpty {node : MsgNode} {rest : List UStr}
      (here : acc.worker = .sendingLast (node.recipient :: rest))
      (found : acc.recipients.find node.recipient = some node) (empty : node.states = []) :
      AccumulatorStep acc .nextRecipient { acc with worker := .sendingLast rest } none
  | unlock {timeLimitReached : Bool} (here : acc.worker = .sending timeLimitReached []) :
      AccumulatorStep acc .unlock { acc with worker := .waiting } none
  | finish (here : acc.worker = .sendingLast []) :
      AccumulatorStep acc .unlock { acc with worker := .ended } none

variable {utf bufferSize maxMsgSz}

theorem accumulatorNext_step {acc acc' : Accumulator} {e : AccumulatorEvent}
    {parcel : Option StatesParcel}
    (h : accumulatorNext utf bufferSize maxMsgSz acc e = some (acc', parcel)) :
    AccumulatorStep utf bufferSize maxMsgSz acc e acc' parcel := by
  cases e with
  | add msg =>
    simp only [accumulatorNext, Accumulator.addMessage] at h
    split at h
    · cases h
    · rename_i free
      split at h <;> cases h
      exact .add (by simpa using free) ‹_›
  | stop =>
    simp only [accumulatorNext] at h
    split at h <;> cases h
    rename_i free
    exact .stop (by simpa using free)
  | wake expired timeLimitReached =>
    simp only [accumulatorNext] at h
    split at h
    · split at h
      · cases h
        exact .leave ‹_› ‹_›
      · split at h <;> cases h
        rename_i goesOn _
        exact .wake ‹_› (by simpa using goesOn)
    · cases h
  | lockLast =>
    simp only [accumulatorNext] at h
    split at h <;> cases h
    exact .lockLast ‹_›
  | nextRecipient =>
    simp only [accumulatorNext] at h
    split at h
    · rename_i here
      obtain ⟨node, found, result⟩ := Option.map_eq_some_iff.mp h
      obtain ⟨_, rfl⟩ := SortedList.find_some MsgNode.recipient found
      split at result <;> cases result
      · rename_i due
        have positive := of_decide_eq_true (Bool.and_eq_true_iff.mp due).1
        exact .send here found (List.length_pos_iff.mp positive)
      · exact .passOver here found (Bool.eq_false_iff.mpr ‹_›)
    · rename_i here
      obtain ⟨node, found, result⟩ := Option.map_eq_some_iff.mp h
      obtain ⟨_, rfl⟩ := SortedList.find_some MsgNode.recipient found
      split at result <;> cases result
      · rename_i positive
        exact .sendLast here found (List.length_pos_iff.mp positive)
      · rename_i empty
        exact .passEmpty here found (List.length_eq_zero_iff.mp (Nat.eq_zero_of_not_pos empty))
    · cases h
  | unlock =>
    simp only [accumulatorNext] at h
    split at h <;> cases h
    · exact .unlock ‹_›
    · exact .finish ‹_›

end

/-- The thread is behind its first loop. -/
def AccumulatorThread.left : AccumulatorThread → Bool
  | leaving | sendingLast _ | ended => true
  | _ => false

/-- The recipients that the thread still comes to. -/
def AccumulatorThread.comesTo (recipient : UStr) : AccumulatorThread → Prop
  | sendingLast rest => recipient ∈ rest
  | ended => False
  | _ => True

namespace Accumulator

/-- Nothing waits for any recipient. -/
def Empty (acc : Accumulator) : Prop := ∀ node ∈ acc.recipients.nodes, node.states = []

instance (acc : Accumulator) : Decidable acc.Empty :=
  decidable_of_iff (acc.recipients.nodes.all fun node => node.states.isEmpty) (by simp [Empty])

/-- The thread comes to every recipient for which something waits. -/
def Served (acc : Accumulator) : Prop :=
  ∀ node ∈ acc.recipients.nodes, node.states ≠ [] → acc.worker.comesTo node.recipient

theorem Served.empty {acc : Accumulator} (h : acc.Served) (ended : acc.worker = .ended) :
    acc.Empty := by
  intro node hnode
  by_contra filled
  have := h node hnode filled
  rw [ended] at this
  exact this

theorem mem_withNode (acc : Accumulator) (recipient : UStr) :
    ∃ node ∈ (acc.withNode recipient).nodes, node.recipient = recipient := by
  unfold withNode
  split
  · exact ⟨_, SortedList.Tree.mem_nodes_add.mpr (.inl rfl), rfl⟩
  · rename_i found
    obtain ⟨node, hnode⟩ := Option.ne_none_iff_exists'.mp (mt Option.isNone_iff_eq_none.mpr found)
    exact ⟨node, SortedList.find_some MsgNode.recipient hnode⟩

/-- Where a message has just been added, something waits. -/
theorem pushed_not_empty (acc : Accumulator) (msg : Message) : ¬ (acc.pushed msg).Empty := by
  intro empty
  obtain ⟨node, hnode, same⟩ := acc.mem_withNode msg.recipient
  have pushed : node.push msg ∈ (acc.pushed msg).recipients.nodes :=
    (SortedList.mem_modify_of_nodup MsgNode.recipient (acc.withNode_distinct _)).mpr
      (.inr ⟨node, hnode, same, rfl⟩)
  have := empty _ pushed
  simp [MsgNode.push] at this

theorem mem_take {acc : Accumulator} {node n : MsgNode}
    (h : n ∈ (acc.take node).1.recipients.nodes) (filled : n.states ≠ []) :
    n ∈ acc.recipients.nodes ∧ n.recipient ≠ node.recipient := by
  rcases (SortedList.mem_modify_of_nodup MsgNode.recipient acc.distinct).mp h with
    h | ⟨_, _, _, rfl⟩
  · exact h
  · exact absurd rfl filled

end Accumulator

section
variable {utf : Utf} {bufferSize : List Message → Nat} {maxMsgSz : Nat} {acc acc' : Accumulator}
  {e : AccumulatorEvent} {parcel : Option StatesParcel}

/-- Without a new state an empty accumulator stays so and gives nothing to the agent. -/
theorem AccumulatorStep.empty (h : AccumulatorStep utf bufferSize maxMsgSz acc e acc' parcel)
    (empty : acc.Empty) (notAdded : ∀ msg, e ≠ .add msg) : acc'.Empty ∧ parcel = none := by
  cases h with
  | add => exact absurd rfl (notAdded _)
  | stop | leave | wake | lockLast | passOver | passEmpty | unlock | finish => exact ⟨empty, rfl⟩
  | send _ found filled | sendLast _ found filled =>
    exact absurd (empty _ (SortedList.find_some MsgNode.recipient found).1) filled

/-- Where nothing is added or sent, every node stays as it is. -/
theorem AccumulatorStep.recipients (h : AccumulatorStep utf bufferSize maxMsgSz acc e acc' none)
    (notAdded : ∀ msg, e ≠ .add msg) : acc'.recipients = acc.recipients := by
  cases h with
  | add => exact absurd rfl (notAdded _)
  | stop | leave | wake | lockLast | passOver | passEmpty | unlock | finish => rfl

theorem AccumulatorStep.served (h : AccumulatorStep utf bufferSize maxMsgSz acc e acc' parcel)
    (served : acc.Served) (added : ∀ msg, e = .add msg → acc.worker ≠ .ended) : acc'.Served := by
  cases h with
  | @add msg free packs =>
    have goesOn := added msg rfl
    intro node _ _
    show acc.worker.comesTo node.recipient
    cases here : acc.worker with
    | waiting | leaving => trivial
    | ended => exact absurd here goesOn
    | sending | sendingLast =>
      rw [here] at free
      cases free
  | stop => exact served
  | leave | wake | send | passOver | unlock => exact fun _ _ _ => trivial
  | lockLast => exact fun node hnode _ => List.mem_map_of_mem hnode
  | @sendLast node rest here =>
    intro n hn filled
    obtain ⟨before, other⟩ := Accumulator.mem_take hn filled
    have := served n before filled
    rw [here] at this
    exact (List.mem_cons.mp this).resolve_left other
  | @passEmpty node rest here found empty =>
    intro n hn filled
    have := served n hn filled
    rw [here] at this
    refine (List.mem_cons.mp this).resolve_left fun same => filled ?_
    have mem := (SortedList.find_some MsgNode.recipient found).1
    rw [List.inj_on_of_nodup_map acc.distinct hn mem same, empty]
  | finish here =>
    intro node hnode filled
    have := served node hnode filled
    rw [here] at this
    cases this

theorem AccumulatorStep.left (h : AccumulatorStep utf bufferSize maxMsgSz acc e acc' parcel)
    (before : acc.worker.left = true → acc.shouldStop = true) :
    acc'.worker.left = true → acc'.shouldStop = true := by
  cases h with
  | add => exact before
  | stop => exact fun _ => rfl
  | leave _ stops => exact fun _ => stops
  | wake | send | passOver | unlock =>
    intro left
    cases left
  | lockLast here | sendLast here | passEmpty here | finish here =>
    exact fun _ => before (by rw [here]; rfl)

theorem AccumulatorStep.shouldStop (h : AccumulatorStep utf bufferSize maxMsgSz acc e acc' parcel)
    (notStop : e ≠ .stop) : acc'.shouldStop = acc.shouldStop := by
  cases h with
  | stop => exact absurd rfl notStop
  | add | leave | wake | lockLast | send | passOver | sendLast | passEmpty | unlock | finish => rfl

/-- A thread that has ended takes no step. -/
theorem AccumulatorStep.alive (h : AccumulatorStep utf bufferSize maxMsgSz acc e acc' parcel)
    (notAdded : ∀ msg, e ≠ .add msg) (notStop : e ≠ .stop) : acc.worker ≠ .ended := by
  intro ended
  cases h with
  | add => exact notAdded _ rfl
  | stop => exact notStop rfl
  | leave here | wake here | lockLast here | send here | passOver here | sendLast here
  | passEmpty here | unlock here | finish here =>
    rw [ended] at here
    cases here

theorem AccumulatorStep.sending {p : StatesParcel}
    (h : AccumulatorStep utf bufferSize maxMsgSz acc e acc' (some p)) : acc'.worker ≠ .ended := by
  intro ended
  cases h with
  | send | sendLast => cases ended

end

end Yella
