import Yella.Job.Replica
import Yella.Plugin.Batches

/-!
# From the files to a recipient

The calls of `process_element` for one config, the accumulator that takes their messages among
those of other configs, and what a recipient can put together from its parcels.
-/

namespace Yella

/-- The states of one config among all that its recipient has been sent. -/
def receivedOf (j : Job) (sent : List StatesParcel) : List Message :=
  (sentTo j.recipient sent).filter fun m => m.configName = j.configName

/-- The states of one config among all that have been added. -/
def addedOf (j : Job) (added : List Message) : List Message :=
  (statesFor j.recipient added).filter fun m => m.configName = j.configName

section
variable {utf : Utf} {bufferSize : List Message → ℕ} {maxMsgSz : ℕ} {s : Deliveries}
  {events : List AccumulatorEvent}

theorem Deliveries.Sound.received (sound : s.Sound) (j : Job) :
    receivedOf j s.sent <+: addedOf j s.added :=
  (sound.inOrder j.recipient).filter _

theorem Deliveries.Sound.receivedAll (sound : s.Sound) (ended : s.acc.worker = .ended) (j : Job) :
    receivedOf j s.sent = addedOf j s.added := by
  unfold receivedOf addedOf
  rw [sound.all ended]

/-- **A recipient can follow the files.** However calls, messages of other configs and the
accumulator's steps take turns: what a recipient has been sent of a config always shows the files as
they had been observed after some of the calls, and in the end after all of them. -/
theorem recipient_follows {j : Job} {obs : List Observation} {db : StateDb}
    (run : (accumulatorMachine utf bufferSize maxMsgSz).Run NoneAfterStop events s)
    (proper : ∀ o ∈ obs, o.Proper utf)
    (calls : processAll utf j .empty obs = some (db, addedOf j s.added)) :
    (∃ seen later, obs = seen ++ later ∧ (replicaOf (receivedOf j s.sent)).ShowsLast seen) ∧
      (s.acc.worker = .ended → (replicaOf (receivedOf j s.sent)).ShowsLast obs) := by
  have sound := (batchInvariant_of_run run).sound
  constructor
  · obtain ⟨seen, later, db₁, split, before⟩ := processAll_prefix (sound.received j) calls
    refine ⟨seen, later, split, ?_⟩
    apply replicaOf_showsLast _ before
    exact fun o ho => proper o (split ▸ List.mem_append_left _ ho)
  · intro ended
    rw [sound.receivedAll ended j]
    exact replicaOf_showsLast proper calls

end

theorem oneFileCall_proper : oneFileCall.Proper asciiUtf where
  stores := oneFileCall_stores
  terminated := by
    rintro e ⟨⟩ a ha
    rcases List.mem_pair.mp ha with rfl | rfl <;> trivial
  collected := ⟨nestedFiles false, oneFileJob.attrTypes, fun _ he => he⟩

def oneFileAdded : Message :=
  message oneFileJob [47, 100, 47, 102] (oneFileCall.elem.map Element.attrs) .added

/-- A file is reported among the states of another recipient. -/
theorem recipient_follows_one_file :
    ∃ events s, (accumulatorMachine asciiUtf List.length 100).Run NoneAfterStop events s ∧
      s.sent.length = 2 ∧
      (∃ seen later, [oneFileCall] = seen ++ later ∧
        (replicaOf (receivedOf oneFileJob s.sent)).ShowsLast seen) ∧
      (s.acc.worker = .ended →
        (replicaOf (receivedOf oneFileJob s.sent)).ShowsLast [oneFileCall]) := by
  have reached : ∃ s,
      (accumulatorMachine asciiUtf List.length 100).after ⟨createAccumulator, [], []⟩
        [.add ⟨[115], [97], [98], none, .removed⟩, .add oneFileAdded, .wake true true,
          .nextRecipient, .nextRecipient, .unlock] = some s ∧
      s.sent.length = 2 ∧ addedOf oneFileJob s.added = [oneFileAdded] := ⟨_, rfl, rfl, rfl⟩
  obtain ⟨s, after, two, added⟩ := reached
  have run : (accumulatorMachine asciiUtf List.length 100).Run NoneAfterStop _ s :=
    Machine.run_of_after rfl (by decide) after
  have proper : ∀ o ∈ [oneFileCall], o.Proper asciiUtf := by
    intro o ho
    cases List.mem_singleton.mp ho
    exact oneFileCall_proper
  obtain ⟨db, calls⟩ : ∃ db, processAll asciiUtf oneFileJob .empty [oneFileCall] =
      some (db, [oneFileAdded]) := ⟨_, rfl⟩
  rw [← added] at calls
  exact ⟨_, s, run, two, recipient_follows run proper calls⟩

end Yella
