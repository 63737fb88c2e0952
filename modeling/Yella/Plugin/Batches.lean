import Yella.Lib.Machine
import Yella.Plugin.Accumulator

/-!
# What the accumulator sends

For each recipient the states of its parcels, one parcel after the other, are the states that
were added for it, as far as they have been sent.
-/

namespace Yella

/-- The accumulator with the states added so far and the parcels given to `send_message`. -/
structure Deliveries where
  acc : Accumulator
  added : List Message
  sent : List StatesParcel

def AccumulatorEvent.adds : AccumulatorEvent → List Message
  | add msg => [msg]
  | _ => []

/-- The history after a step. -/
def Deliveries.after (s : Deliveries) (e : AccumulatorEvent) (acc : Accumulator)
    (parcel : Option StatesParcel) : Deliveries where
  acc := acc
  added := s.added ++ e.adds
  sent := s.sent ++ parcel.toList

/-- From `create_accumulator` on; `send_message` is called while `guard` is locked. -/
def accumulatorMachine (utf : Utf) (bufferSize : List Message → Nat) (maxMsgSz : Nat) :
    Machine Deliveries AccumulatorEvent where
  start s := s = ⟨createAccumulator, [], []⟩
  next s e :=
    (accumulatorNext utf bufferSize maxMsgSz s.acc e).map fun (acc, parcel) => s.after e acc parcel

/-- Nothing is added after the stop request. -/
def NoneAfterStop (s : Deliveries) : AccumulatorEvent → Prop
  | .add _ => s.acc.shouldStop = false
  | _ => True

def statesFor (recipient : UStr) (added : List Message) : List Message :=
  added.filter fun msg => msg.recipient = recipient

def sentTo (recipient : UStr) (sent : List StatesParcel) : List Message :=
  (sent.filter fun parcel => parcel.recipient = recipient).flatMap StatesParcel.states

/-- Every state goes to its recipient once and in order, in parcels that are not empty and are
numbered one after the other. -/
structure Deliveries.Sound (s : Deliveries) : Prop where
  inOrder : ∀ recipient, sentTo recipient s.sent <+: statesFor recipient s.added
  all : s.acc.worker = .ended → ∀ recipient, sentTo recipient s.sent = statesFor recipient s.added
  filled : ∀ parcel ∈ s.sent, parcel.states ≠ []
  own : ∀ parcel ∈ s.sent, ∀ msg ∈ parcel.states, msg.recipient = parcel.recipient
  numbered : s.sent.map StatesParcel.minor = (List.range s.sent.length).map (· % 0x100000000)

namespace Accumulator

/-- What the node of a recipient holds. -/
def waiting (acc : Accumulator) (recipient : UStr) : List Message :=
  ((acc.recipients.find recipient).map MsgNode.states).getD []

variable {acc : Accumulator} {node : MsgNode}

theorem waiting_of_find (found : acc.recipients.find node.recipient = some node) :
    acc.waiting node.recipient = node.states := by
  rw [waiting, found]
  rfl

theorem find_withNode (acc : Accumulator) (recipient : UStr) :
    (acc.withNode recipient).find recipient = some ⟨recipient, acc.waiting recipient⟩ := by
  unfold withNode waiting
  split
  · rename_i none
    rw [SortedList.Tree.find_add, if_pos rfl, Option.isNone_iff_eq_none.mp none]
    rfl
  · rename_i found
    obtain ⟨node, hnode⟩ := Option.ne_none_iff_exists'.mp (mt Option.isNone_iff_eq_none.mpr found)
    obtain ⟨_, rfl⟩ := SortedList.find_some MsgNode.recipient hnode
    rw [hnode]
    rfl

theorem find_withNode_other (acc : Accumulator) {recipient other : UStr} (h : other ≠ recipient) :
    (acc.withNode recipient).find other = acc.recipients.find other := by
  unfold withNode
  split
  · rw [SortedList.Tree.find_add, if_neg h]
  · rfl

theorem waiting_pushed (acc : Accumulator) (msg : Message) (recipient : UStr) :
    (acc.pushed msg).waiting recipient =
      acc.waiting recipient ++ if msg.recipient = recipient then [msg] else [] := by
  have pushed : (acc.pushed msg).recipients.find recipient = _ :=
    SortedList.Tree.find_modify (acc.withNode msg.recipient) msg.recipient (·.push msg)
      (fun _ => rfl) recipient
  rw [waiting, pushed]
  by_cases own : recipient = msg.recipient
  · subst own
    rw [if_pos rfl, if_pos rfl, find_withNode]
    rfl
  · rw [if_neg own, if_neg (Ne.symm own), find_withNode_other acc own, List.append_nil]
    rfl

theorem waiting_take (found : acc.recipients.find node.recipient = some node) (recipient : UStr) :
    (acc.take node).1.waiting recipient =
      if node.recipient = recipient then [] else acc.waiting recipient := by
  have reset : (acc.take node).1.recipients.find recipient = _ :=
    SortedList.Tree.find_modify acc.recipients node.recipient MsgNode.reset (fun _ => rfl) recipient
  rw [waiting, reset]
  by_cases own : recipient = node.recipient
  · subst own
    rw [if_pos rfl, if_pos rfl, found]
    rfl
  · rw [if_neg own, if_neg (Ne.symm own)]
    rfl

end Accumulator

/-- A parcel is all that waits for its recipient. -/
structure Sends (acc acc' : Accumulator) (parcel : StatesParcel) : Prop where
  filled : parcel.states ≠ []
  minor : parcel.minor = acc.minorSeq
  minorSeq : acc'.minorSeq = (acc.minorSeq + 1) % 0x100000000
  states : parcel.states = acc.waiting parcel.recipient
  waiting : ∀ recipient,
    acc'.waiting recipient = if parcel.recipient = recipient then [] else acc.waiting recipient

section
variable {utf : Utf} {bufferSize : List Message → Nat} {maxMsgSz : Nat} {acc acc' : Accumulator}
  {e : AccumulatorEvent} {parcel : StatesParcel}

theorem AccumulatorStep.sends
    (h : AccumulatorStep utf bufferSize maxMsgSz acc e acc' (some parcel)) :
    Sends acc acc' parcel := by
  cases h with
  | send _ found filled | sendLast _ found filled =>
    exact ⟨filled, rfl, rfl, (Accumulator.waiting_of_find found).symm,
      Accumulator.waiting_take found⟩

theorem AccumulatorStep.minorSeq (h : AccumulatorStep utf bufferSize maxMsgSz acc e acc' none) :
    acc'.minorSeq = acc.minorSeq := by
  cases h with
  | add | stop | leave | wake | lockLast | passOver | passEmpty | unlock | finish => rfl

end

theorem statesFor_snoc (recipient : UStr) (added : List Message) (msg : Message) :
    statesFor recipient (added ++ [msg]) =
      statesFor recipient added ++ if msg.recipient = recipient then [msg] else [] := by
  by_cases own : msg.recipient = recipient <;> simp [statesFor, own]

theorem sentTo_snoc (recipient : UStr) (sent : List StatesParcel) (parcel : StatesParcel) :
    sentTo recipient (sent ++ [parcel]) =
      sentTo recipient sent ++ if parcel.recipient = recipient then parcel.states else [] := by
  by_cases own : parcel.recipient = recipient <;> simp [sentTo, own]

/-- What waits for a recipient comes after what has been sent to it. -/
def Deliveries.Split (s : Deliveries) : Prop := ∀ recipient,
  sentTo recipient s.sent ++ s.acc.waiting recipient = statesFor recipient s.added

structure Deliveries.Numbered (s : Deliveries) : Prop where
  sent : s.sent.map StatesParcel.minor = (List.range s.sent.length).map (· % 0x100000000)
  next : s.acc.minorSeq = s.sent.length % 0x100000000

section
variable {utf : Utf} {bufferSize : List Message → Nat} {maxMsgSz : Nat} {s : Deliveries}
  {e : AccumulatorEvent} {acc : Accumulator} {parcel : Option StatesParcel}

theorem split_after (split : s.Split)
    (step : AccumulatorStep utf bufferSize maxMsgSz s.acc e acc parcel) :
    (s.after e acc parcel).Split := by
  intro recipient
  have before := split recipient
  simp only [Deliveries.after]
  cases parcel with
  | some p =>
    have sends := step.sends
    have none : e.adds = [] := by cases step <;> rfl
    rw [none, List.append_nil, ← before, Option.toList_some, sentTo_snoc, sends.waiting recipient]
    by_cases own : p.recipient = recipient
    · rw [if_pos own, if_pos own, sends.states, own, List.append_nil]
    · rw [if_neg own, if_neg own, List.append_nil]
  | none =>
    rw [Option.toList_none, List.append_nil]
    cases e with
    | add msg =>
      cases step
      rw [AccumulatorEvent.adds, statesFor_snoc, ← before, Accumulator.waiting_pushed,
        List.append_assoc]
    | stop | wake | lockLast | nextRecipient | unlock =>
      have same := step.recipients (by intro msg same; cases same)
      simpa only [AccumulatorEvent.adds, List.append_nil, Accumulator.waiting, same] using before

theorem numbered_after (numbered : s.Numbered)
    (step : AccumulatorStep utf bufferSize maxMsgSz s.acc e acc parcel) :
    (s.after e acc parcel).Numbered := by
  cases parcel with
  | some p =>
    have sends := step.sends
    constructor
    · simp [Deliveries.after, numbered.sent, List.range_succ, sends.minor, numbered.next]
    · simp [Deliveries.after, sends.minorSeq, numbered.next]
  | none =>
    constructor
    · simpa [Deliveries.after] using numbered.sent
    · simpa [Deliveries.after, step.minorSeq] using numbered.next

end

/-- What holds in every state. -/
structure BatchInvariant (s : Deliveries) : Prop where
  split : s.Split
  filled : ∀ parcel ∈ s.sent, parcel.states ≠ []
  numbered : s.Numbered
  served : s.acc.Served
  left : s.acc.worker.left = true → s.acc.shouldStop = true

section
variable {utf : Utf} {bufferSize : List Message → Nat} {maxMsgSz : Nat} {s t : Deliveries}
  {e : AccumulatorEvent}

theorem next_batches (inv : BatchInvariant s) (allowed : NoneAfterStop s e)
    (h : (accumulatorMachine utf bufferSize maxMsgSz).next s e = some t) : BatchInvariant t := by
  obtain ⟨⟨acc, parcel⟩, next, rfl⟩ := Option.map_eq_some_iff.mp h
  have step := accumulatorNext_step next
  refine ⟨split_after inv.split step, ?_, numbered_after inv.numbered step, ?_, step.left inv.left⟩
  · intro p hp
    rcases List.mem_append.mp hp with hp | hp
    · exact inv.filled p hp
    · rw [Option.mem_toList] at hp
      cases hp
      exact step.sends.filled
  · apply step.served inv.served
    intro msg adds ended
    subst adds
    have := inv.left (by rw [ended]; rfl)
    rw [show s.acc.shouldStop = false from allowed] at this
    cases this

theorem mem_statesFor {recipient : UStr} {added : List Message} {msg : Message}
    (h : msg ∈ statesFor recipient added) : msg.recipient = recipient := by
  simpa [statesFor] using (List.mem_filter.mp h).2

theorem BatchInvariant.sound (inv : BatchInvariant s) : s.Sound where
  inOrder recipient := ⟨_, inv.split recipient⟩
  all ended recipient := by
    have none : s.acc.waiting recipient = [] := by
      unfold Accumulator.waiting
      cases found : s.acc.recipients.find recipient with
      | none => rfl
      | some node =>
        exact inv.served.empty ended node (SortedList.find_some MsgNode.recipient found).1
    rw [← inv.split recipient, none, List.append_nil]
  filled := inv.filled
  own parcel hparcel msg hmsg := by
    have sent : msg ∈ sentTo parcel.recipient s.sent :=
      List.mem_flatMap.mpr ⟨parcel, List.mem_filter.mpr ⟨hparcel, by simp⟩, hmsg⟩
    have added : msg ∈ statesFor parcel.recipient s.added := by
      rw [← inv.split]
      exact List.mem_append_left _ sent
    exact mem_statesFor added
  numbered := inv.numbered.sent

end

/-! ## Every run -/

section
variable {utf : Utf} {bufferSize : List Message → Nat} {maxMsgSz : Nat}
  {events : List AccumulatorEvent}

theorem batchInvariant_start : BatchInvariant ⟨createAccumulator, [], []⟩ where
  split _ := rfl
  filled _ there := absurd there List.not_mem_nil
  numbered := ⟨rfl, rfl⟩
  served _ there := absurd there List.not_mem_nil
  left left := absurd left (by decide)

theorem batchInvariant_of_run {s : Deliveries}
    (run : (accumulatorMachine utf bufferSize maxMsgSz).Run NoneAfterStop events s) :
    BatchInvariant s := by
  apply run.invariant BatchInvariant
  · rintro s rfl
    exact batchInvariant_start
  · exact fun s e t inv allowed next => next_batches inv allowed next

/-- `crashed` when the agent has ended in `add_accumulator_message`. -/
structure Delivering where
  deliveries : Deliveries
  crashed : Bool

/-- The call comes to a text that is not converted. -/
def Deliveries.crashesIn (utf : Utf) (s : Deliveries) : AccumulatorEvent → Bool
  | .add msg => !s.acc.worker.holdsGuard && (s.acc.addMessage utf msg).isNone
  | _ => false

def deliveringMachine (utf : Utf) (bufferSize : List Message → Nat) (maxMsgSz : Nat) :
    Machine Delivering AccumulatorEvent where
  start s := s = ⟨⟨createAccumulator, [], []⟩, false⟩
  next s e :=
    if s.crashed then none
    else match (accumulatorMachine utf bufferSize maxMsgSz).next s.deliveries e with
      | some d => some ⟨d, false⟩
      | none => if s.deliveries.crashesIn utf e then some ⟨s.deliveries, true⟩ else none

/-- Every call gets its state to the accumulator, from where it goes to its recipient. -/
structure Delivering.Sound (s : Delivering) : Prop where
  runs : s.crashed = false
  deliveries : s.deliveries.Sound

/-- A step of the accumulator, or the end in a call that cannot pack its state. -/
theorem deliveringNext_cases {s t : Delivering} {e : AccumulatorEvent}
    (h : (deliveringMachine utf bufferSize maxMsgSz).next s e = some t) :
    s.crashed = false ∧
      ((∃ d, (accumulatorMachine utf bufferSize maxMsgSz).next s.deliveries e = some d ∧
          t = ⟨d, false⟩ ∧ ∀ msg ∈ e.adds, msg.packs utf = true) ∨
        (t = ⟨s.deliveries, true⟩ ∧ ∃ msg, e = .add msg ∧ msg.packs utf = false)) := by
  simp only [deliveringMachine] at h
  split at h
  · cases h
  · rename_i runs
    refine ⟨Bool.eq_false_iff.mpr runs, ?_⟩
    split at h
    · rename_i d next
      cases h
      obtain ⟨⟨acc, parcel⟩, next', -⟩ := Option.map_eq_some_iff.mp next
      refine .inl ⟨d, next, rfl, ?_⟩
      intro msg hmsg
      cases accumulatorNext_step next' with
      | add free packs =>
        cases List.mem_singleton.mp hmsg
        exact packs
      | stop | leave | wake | lockLast | send | passOver | sendLast | passEmpty | unlock
      | finish => cases hmsg
    · split at h <;> cases h
      rename_i crashes
      refine .inr ⟨rfl, ?_⟩
      cases e with
      | add msg =>
        refine ⟨msg, rfl, Bool.eq_false_iff.mpr fun packs => ?_⟩
        simp [Deliveries.crashesIn, Accumulator.addMessage, packs] at crashes
      | stop | wake | lockLast | nextRecipient | unlock => cases crashes

/-- However adding and sending take turns, with nothing added after the stop request: every state
is delivered exactly if each one that is added can be packed. -/
theorem accumulator_delivers_iff {s : Delivering}
    (run : (deliveringMachine utf bufferSize maxMsgSz).Run (fun s => NoneAfterStop s.deliveries)
      events s) :
    s.Sound ↔ ∀ e ∈ events, ∀ msg ∈ e.adds, msg.packs utf = true := by
  obtain ⟨batches, packed⟩ : BatchInvariant s.deliveries ∧
      (s.crashed = false ↔ ∀ e ∈ events, ∀ msg ∈ e.adds, msg.packs utf = true) := by
    refine run.history (fun events s => BatchInvariant s.deliveries ∧
      (s.crashed = false ↔ ∀ e ∈ events, ∀ msg ∈ e.adds, msg.packs utf = true)) ?_ ?_
    · rintro s rfl
      exact ⟨batchInvariant_start, iff_of_true rfl (by simp)⟩
    · rintro events s e t ⟨inv, packed⟩ allowed next
      obtain ⟨runs, ⟨d, taken, rfl, packs⟩ | ⟨rfl, msg, rfl, refused⟩⟩ := deliveringNext_cases next
      · refine ⟨next_batches inv allowed taken, iff_of_true rfl fun e' he' => ?_⟩
        rcases List.mem_append.mp he' with before | last
        · exact packed.mp runs e' before
        · cases List.mem_singleton.mp last
          exact packs
      · refine ⟨inv, iff_of_false (by simp) fun all => ?_⟩
        have := all _ (List.mem_append_right _ (List.mem_singleton_self _)) msg
          (List.mem_singleton_self _)
        rw [refused] at this
        cases this
  exact ⟨fun sound => packed.mp sound.runs, fun all => ⟨packed.mpr all, batches.sound⟩⟩

end

instance (s : Deliveries) (e : AccumulatorEvent) : Decidable (NoneAfterStop s e) := by
  unfold NoneAfterStop
  split <;> infer_instance

/-- A state for the recipient `r`. -/
def removedFile (name : UStr) : Message := ⟨[114], [97], name, none, .removed⟩

/-- One state goes out when its time is over, and another one after the stop request. -/
theorem accumulator_delivers_lastLoop :
    ∃ events s, (deliveringMachine asciiUtf List.length 100).Run
        (fun s => NoneAfterStop s.deliveries) events s ∧
      s.deliveries.sent.map StatesParcel.minor = [0, 1] ∧ s.deliveries.acc.worker = .ended ∧
      s.Sound := by
  have reached : ∃ s, (deliveringMachine asciiUtf List.length 100).after
        ⟨⟨createAccumulator, [], []⟩, false⟩
        [.add (removedFile [98]), .wake true true, .nextRecipient, .unlock, .add (removedFile [99]),
          .stop, .wake false false, .lockLast, .nextRecipient, .unlock] = some s ∧
      s.deliveries.sent.map StatesParcel.minor = [0, 1] ∧
      s.deliveries.acc.worker = .ended := ⟨_, rfl, rfl, rfl⟩
  obtain ⟨s, after, minors, ended⟩ := reached
  have run : (deliveringMachine asciiUtf List.length 100).Run
      (fun s => NoneAfterStop s.deliveries) _ s := Machine.run_of_after rfl (by decide) after
  exact ⟨_, s, run, minors, ended, (accumulator_delivers_iff run).mpr (by decide)⟩

/-- The state of the file `é` ends the agent, and one that waits is never sent. -/
theorem accent_ends_agent :
    (∃ events s, (deliveringMachine asciiUtf List.length 100).Run
        (fun s => NoneAfterStop s.deliveries) events s ∧
      s.crashed = true ∧ s.deliveries.sent = [] ∧
      s.deliveries.added = [removedFile [98]]) ∧
    ¬ ∀ utf bufferSize maxMsgSz events s, (deliveringMachine utf bufferSize maxMsgSz).Run
      (fun s => NoneAfterStop s.deliveries) events s → s.Sound := by
  have reached : ∃ s, (deliveringMachine asciiUtf List.length 100).after
        ⟨⟨createAccumulator, [], []⟩, false⟩ [.add (removedFile [98]), .add (removedFile [233])] =
          some s ∧
      s.crashed = true ∧ s.deliveries.sent = [] ∧ s.deliveries.added = [removedFile [98]] :=
    ⟨_, rfl, rfl, rfl, rfl⟩
  obtain ⟨s, after, crashed, sent, added⟩ := reached
  have run : (deliveringMachine asciiUtf List.length 100).Run
      (fun s => NoneAfterStop s.deliveries) _ s := Machine.run_of_after rfl (by decide) after
  refine ⟨⟨_, s, run, crashed, sent, added⟩, fun all => ?_⟩
  have := (all asciiUtf _ _ _ s run).runs
  rw [crashed] at this
  cases this

end Yella
