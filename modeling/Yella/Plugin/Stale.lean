import Mathlib.Data.Set.Insert
import Yella.Plugin.Follows

/-!
# What a recipient may be wrong about

The calls for one config over many starts of the agent. A message does not come to the recipient
when the agent ends before its parcel is sent, or when the config has another recipient at that
time. And nothing is told to it when the database is removed with the config.
-/

namespace Yella

/-- `before` is what the recipient was sent in earlier starts, and `observed` the calls since the
database was created. -/
structure Telling where
  db : StateDb
  current : Deliveries
  before : List Message
  observed : List Observation
  /-- The files of which something was not told, and which have not been told anew since -/
  stale : Set UStr

inductive TellingEvent where
  /-- `process_element` for a job of the config -/
  | call (j : Job) (o : Observation)
  | accumulator (e : AccumulatorEvent)
  /-- `remove_state_db_from_pool`, where the pool has the database -/
  | removeDb
  /-- The agent ends, stopped or not, and starts again. A last call may have changed the database
  without coming to `add_accumulator_message`. -/
  | restart (cut : Option (Job × Observation))

/-- The states of a config that wait for its recipient -/
def waitingOf (j : Job) (acc : Accumulator) : List Message :=
  (acc.waiting j.recipient).filter fun m => m.configName = j.configName

/-- A message about a file goes to its own recipient. -/
def staleAfter (j : Job) (stale : Set UStr) (msg : Message) : Set UStr :=
  if msg.recipient = j.recipient then
    if msg.TellsAll then stale \ {msg.name} else stale
  else insert msg.name stale

namespace Telling

def start : Telling := ⟨.empty, ⟨createAccumulator, [], []⟩, [], [], ∅⟩

/-- All that the recipient has been sent of the config -/
def received (j : Job) (s : Telling) : List Message := s.before ++ receivedOf j s.current.sent

/-- A call up to `add_accumulator_message` -/
def observe (s : Telling) (o : Observation) (db : StateDb) : Telling :=
  { s with db := db, observed := s.observed ++ [o] }

/-- What waits is lost. -/
def restarted (j : Job) (s : Telling) : Telling :=
  { s with
    current := start.current
    before := s.received j
    stale := s.stale ∪ {n | ∃ msg ∈ waitingOf j s.current.acc, msg.name = n} }

end Telling

section
variable (utf : Utf) (bufferSize : List Message → ℕ) (maxMsgSz : ℕ) (j : Job)

def tellingNext (s : Telling) : TellingEvent → Option Telling
  | .call j' o => do
    let (db, m) ← processElement utf j' o.name o.elem s.db
    match m with
    | none => some (s.observe o db)
    | some msg =>
      let current ← (accumulatorMachine utf bufferSize maxMsgSz).next s.current (.add msg)
      some { s.observe o db with current := current, stale := staleAfter j s.stale msg }
  | .accumulator e =>
    ((accumulatorMachine utf bufferSize maxMsgSz).next s.current e).map fun current =>
      { s with current := current }
  | .removeDb => some { s with
      db := .empty
      observed := []
      stale := s.stale ∪ {n | s.db.rows n ≠ none} }
  | .restart none => some (s.restarted j)
  | .restart (some (j', o)) => do
    let (db, m) ← processElement utf j' o.name o.elem s.db
    let s := s.observe o db
    some ({ s with stale := s.stale ∪ {n | ∃ msg ∈ m, msg.name = n} }.restarted j)

/-- The history of the config of `j`, as far as it concerns the recipient of `j` -/
def telling : Machine Telling TellingEvent where
  start s := s = .start
  next := tellingNext utf bufferSize maxMsgSz j

/-- The jobs of the config, whatever their recipient, and the messages of other configs. Nothing is
added after the stop request. -/
def OfConfig (s : Telling) : TellingEvent → Prop
  | .call j' o => j'.configName = j.configName ∧ o.Proper utf ∧ s.current.acc.shouldStop = false
  | .accumulator e => NoneAfterStop s.current e ∧ ∀ msg ∈ e.adds, msg.configName ≠ j.configName
  | .restart (some (_, o)) => o.Proper utf
  | _ => True

end

/-! ## Messages -/

section
variable {utf : Utf} {j j' : Job} {name n : UStr} {db db' : StateDb} {elem : Option Element}
  {m : Option Message} {msg : Message} {ms : List Message} {r : Replica} {s : Deliveries}

theorem ElementStep.message (h : ElementStep utf j name db elem db' (some msg)) :
    msg.name = name ∧ msg.recipient = j.recipient ∧ msg.configName = j.configName := by
  cases h <;> exact ⟨rfl, rfl, rfl⟩

theorem ElementStep.others (h : ElementStep utf j name db elem db' m)
    (named : ∀ e ∈ elem, e.name = name) (other : n ≠ name) : db'.rows n = db.rows n := by
  cases h with
  | absent | same => rfl
  | removed => exact if_neg other
  | @added e _ _ written | @changed s e _ _ _ written =>
    obtain ⟨packed, -, eq⟩ := Option.bind_eq_some_iff.mp written
    cases eq
    have own := named e rfl
    exact if_neg (own ▸ other)

theorem foldl_apply_of_ne (others : ∀ msg ∈ ms, msg.name ≠ n) :
    ms.foldl Replica.apply r n = r n := by
  induction ms generalizing r with
  | nil => rfl
  | cons msg ms ih =>
    obtain ⟨first, rest⟩ := List.forall_mem_cons.mp others
    rw [List.foldl_cons, ih rest, Replica.apply_of_ne first.symm]

theorem replicaOf_append (ms more : List Message) :
    replicaOf (ms ++ more) = more.foldl Replica.apply (replicaOf ms) := List.foldl_append

theorem addedOf_snoc (added : List Message) (msg : Message) :
    addedOf j (added ++ [msg]) = addedOf j added ++
      if msg.recipient = j.recipient ∧ msg.configName = j.configName then [msg] else [] := by
  unfold addedOf
  rw [statesFor_snoc, List.filter_append]
  by_cases own : msg.recipient = j.recipient <;> by_cases config : msg.configName = j.configName <;>
    simp [own, config]

theorem addedOf_others {added more : List Message}
    (others : ∀ msg ∈ more, msg.configName ≠ j.configName) :
    addedOf j (added ++ more) = addedOf j added := by
  unfold addedOf statesFor
  rw [List.filter_append, List.filter_append, List.append_right_eq_self]
  apply List.filter_eq_nil_iff.mpr
  intro msg hmsg
  simpa using others msg (List.mem_filter.mp hmsg).1

/-- What waits comes after what was sent. -/
theorem received_waiting (split : s.Split) (j : Job) :
    receivedOf j s.sent ++ waitingOf j s.acc = addedOf j s.added := by
  unfold receivedOf waitingOf addedOf
  rw [← List.filter_append, split]

end

/-! ## The invariant -/

section
variable {utf : Utf} {bufferSize : List Message → ℕ} {maxMsgSz : ℕ} {j j' : Job} {o : Observation}
  {db : StateDb} {m : Option Message} {msg : Message} {s t : Telling} {d : Deliveries}
  {e : TellingEvent} {events : List TellingEvent} {n : UStr}

/-- What the recipient will know once nothing waits -/
def Telling.announced (j : Job) (s : Telling) : Replica :=
  replicaOf (s.before ++ addedOf j s.current.added)

structure TellingInvariant (utf : Utf) (j : Job) (s : Telling) : Prop where
  batches : BatchInvariant s.current
  fresh : ∀ n, n ∉ s.stale → (s.announced j).FollowsAt utf s.db n
  proper : ∀ o ∈ s.observed, o.Proper utf
  logged : ∃ ms, Logged utf s.observed s.db ms

theorem tellingInvariant_start : TellingInvariant utf j .start where
  batches := batchInvariant_start
  fresh _ _ := .none
  proper _ ho := absurd ho List.not_mem_nil
  logged := ⟨[], logged_start utf⟩

/-- The database and the calls after one more call -/
theorem TellingInvariant.observe (inv : TellingInvariant utf j s) (proper : o.Proper utf)
    (run : processElement utf j' o.name o.elem s.db = some (db, m)) :
    (∀ p ∈ (s.observe o db).observed, p.Proper utf) ∧
      ∃ ms, Logged utf (s.observe o db).observed (s.observe o db).db ms := by
  obtain ⟨ms, logged⟩ := inv.logged
  refine ⟨?_, _, logged.call proper.stores run⟩
  intro p hp
  rcases List.mem_append.mp hp with before | last
  · exact inv.proper p before
  · cases List.mem_singleton.mp last
    exact proper

/-- A name that the message of a call is not about -/
theorem TellingInvariant.other (inv : TellingInvariant utf j s)
    (run : processElement utf j' o.name o.elem s.db = some (db, m)) (fresh : n ∉ s.stale)
    (other : n ≠ o.name) : (s.announced j).FollowsAt utf db n := by
  have rows := (processElement_step run).others o.named other
  rw [Replica.FollowsAt, rows]
  exact inv.fresh n fresh

/-- A call with nothing to tell -/
theorem TellingInvariant.silent (inv : TellingInvariant utf j s) (proper : o.Proper utf)
    (run : processElement utf j' o.name o.elem s.db = some (db, none)) :
    TellingInvariant utf j (s.observe o db) where
  batches := inv.batches
  fresh := by
    intro n fresh
    rw [Telling.observe, processElement_silent run]
    exact inv.fresh n fresh
  proper := (inv.observe proper run).1
  logged := (inv.observe proper run).2

/-- A call whose message is added -/
theorem TellingInvariant.tell (inv : TellingInvariant utf j s) (proper : o.Proper utf)
    (config : j'.configName = j.configName) (goesOn : s.current.acc.shouldStop = false)
    (run : processElement utf j' o.name o.elem s.db = some (db, some msg))
    (add : (accumulatorMachine utf bufferSize maxMsgSz).next s.current (.add msg) = some d) :
    TellingInvariant utf j
      { s.observe o db with current := d, stale := staleAfter j s.stale msg } where
  batches := by
    apply next_batches inv.batches _ add
    exact goesOn
  fresh := by
    intro n fresh
    obtain ⟨named, to', of'⟩ := (processElement_step run).message
    obtain ⟨⟨acc, parcel⟩, next, rfl⟩ := Option.map_eq_some_iff.mp add
    simp only [staleAfter, to'] at fresh
    simp only [Telling.announced, Telling.observe, Deliveries.after, AccumulatorEvent.adds]
    rw [addedOf_snoc, to', of']
    by_cases own : j'.recipient = j.recipient
    · rw [if_pos own] at fresh
      rw [if_pos ⟨own, config⟩, ← List.append_assoc, replicaOf_append]
      apply Replica.FollowsAt.call _ proper run
      by_cases whole : msg.TellsAll
      · rw [if_pos whole, Set.mem_sdiff, not_and_not_right] at fresh
        by_cases before : n ∈ s.stale
        · exact .inr ⟨msg, rfl, (fresh before).symm, whole⟩
        · exact .inl (inv.fresh n before)
      · rw [if_neg whole] at fresh
        exact .inl (inv.fresh n fresh)
    · rw [if_neg own, Set.mem_insert_iff, not_or, named] at fresh
      rw [if_neg fun both => own both.1, List.append_nil]
      exact inv.other run fresh.2 fresh.1
  proper := (inv.observe proper run).1
  logged := (inv.observe proper run).2

/-- A step of the accumulator that is about other configs -/
theorem TellingInvariant.accumulate {e : AccumulatorEvent} (inv : TellingInvariant utf j s)
    (allowed : NoneAfterStop s.current e) (others : ∀ msg ∈ e.adds, msg.configName ≠ j.configName)
    (next : (accumulatorMachine utf bufferSize maxMsgSz).next s.current e = some d) :
    TellingInvariant utf j { s with current := d } where
  batches := next_batches inv.batches allowed next
  fresh := by
    intro n fresh
    obtain ⟨_, -, rfl⟩ := Option.map_eq_some_iff.mp next
    simp only [Telling.announced, Deliveries.after, addedOf_others others]
    exact inv.fresh n fresh
  proper := inv.proper
  logged := inv.logged

/-- An entry that is removed with the database is one the recipient still has. -/
theorem TellingInvariant.removeDb (inv : TellingInvariant utf j s) :
    TellingInvariant utf j
      { s with db := .empty, observed := [], stale := s.stale ∪ {n | s.db.rows n ≠ none} } where
  batches := inv.batches
  fresh := by
    intro n fresh
    obtain ⟨before, row⟩ := not_or.mp fresh
    have follows := inv.fresh n before
    rw [Replica.FollowsAt, not_not.mp row] at follows
    exact follows
  proper _ ho := absurd ho List.not_mem_nil
  logged := ⟨[], logged_start utf⟩

/-- What has not been sent was about other names. -/
theorem TellingInvariant.restarted (inv : TellingInvariant utf j s) :
    TellingInvariant utf j (s.restarted j) where
  batches := batchInvariant_start
  fresh := by
    intro n fresh
    obtain ⟨before, quiet⟩ := not_or.mp fresh
    have follows := inv.fresh n before
    have others : ∀ msg ∈ waitingOf j s.current.acc, msg.name ≠ n :=
      fun msg hmsg same => quiet ⟨msg, hmsg, same⟩
    rw [Telling.announced, ← received_waiting inv.batches.split, ← List.append_assoc,
      replicaOf_append] at follows
    rw [Replica.FollowsAt, foldl_apply_of_ne others] at follows
    simpa [Replica.FollowsAt, Telling.announced, Telling.restarted, Telling.received, addedOf,
      statesFor, Telling.start] using follows
  proper := inv.proper
  logged := inv.logged

/-- A call that does not come to its message -/
theorem TellingInvariant.cut (inv : TellingInvariant utf j s) (proper : o.Proper utf)
    (run : processElement utf j' o.name o.elem s.db = some (db, m)) :
    TellingInvariant utf j
      { s.observe o db with stale := s.stale ∪ {n | ∃ msg ∈ m, msg.name = n} } where
  batches := inv.batches
  fresh := by
    intro n fresh
    obtain ⟨before, untold⟩ := not_or.mp fresh
    cases m with
    | none => exact (inv.silent proper run).fresh n before
    | some msg =>
      have named := (processElement_step run).message.1
      apply inv.other run before
      rintro rfl
      exact untold ⟨msg, rfl, named⟩
  proper := (inv.observe proper run).1
  logged := (inv.observe proper run).2

theorem telling_step (inv : TellingInvariant utf j s) (allowed : OfConfig utf j s e)
    (next : (telling utf bufferSize maxMsgSz j).next s e = some t) : TellingInvariant utf j t := by
  cases e with
  | call j' o =>
    obtain ⟨config, proper, goesOn⟩ := allowed
    obtain ⟨⟨db, m⟩, run, told⟩ := Option.bind_eq_some_iff.mp next
    cases m with
    | none =>
      cases told
      exact inv.silent proper run
    | some msg =>
      obtain ⟨d, add, eq⟩ := Option.bind_eq_some_iff.mp told
      cases eq
      exact inv.tell proper config goesOn run add
  | accumulator e =>
    obtain ⟨d, step, rfl⟩ := Option.map_eq_some_iff.mp next
    exact inv.accumulate allowed.1 allowed.2 step
  | removeDb =>
    cases next
    exact inv.removeDb
  | restart cut =>
    cases cut with
    | none =>
      cases next
      exact inv.restarted
    | some last =>
      obtain ⟨⟨db, m⟩, run, eq⟩ := Option.bind_eq_some_iff.mp next
      cases eq
      exact (inv.cut allowed run).restarted

/-- **What a recipient can rely on.** Over any history of calls, parcels, other recipients of the
config, removals of its database, stops and crashes: what the recipient has been sent shows a file
as it was observed last, unless a message about it waits, or one has not come to the recipient, or
the file's entry was removed with the database, and the file has not been told anew since. -/
theorem told_unless_stale (run : (telling utf bufferSize maxMsgSz j).Run (OfConfig utf j) events s)
    (fresh : n ∉ s.stale) (quiet : ∀ msg ∈ waitingOf j s.current.acc, msg.name ≠ n) :
    (replicaOf (s.received j)).ShowsLastAt s.observed n := by
  have inv : TellingInvariant utf j s := by
    apply run.invariant
    · rintro s rfl
      exact tellingInvariant_start
    · exact fun s e t inv allowed next => telling_step inv allowed next
  obtain ⟨ms, logged⟩ := inv.logged
  have follows := inv.restarted.fresh n (not_or.mpr ⟨fresh, fun ⟨msg, there, same⟩ =>
    quiet msg there same⟩)
  simpa [Telling.announced, Telling.restarted, addedOf, statesFor, Telling.start] using
    follows.showsLast logged inv.proper

end

theorem notCollected_proper (name : UStr) : (notCollected name).Proper asciiUtf where
  stores := ⟨by rintro e ⟨⟩, by rintro e ⟨⟩⟩
  terminated := by rintro e ⟨⟩
  collected := ⟨nestedFiles false, [], by rintro e ⟨⟩⟩

/-- The agent ends before it says that the file was added; then it says that the file is gone. -/
def addedUnsaid : List TellingEvent :=
  [.call oneFileJob oneFileCall, .restart none, .call oneFileJob (notCollected oneFileCall.name),
    .accumulator (.wake true true), .accumulator .nextRecipient, .accumulator .unlock]

theorem addedUnsaid_allowed :
    (telling asciiUtf List.length 100 oneFileJob).AllowedAlong (OfConfig asciiUtf oneFileJob) .start
      addedUnsaid := by
  have quiet (e : AccumulatorEvent) (adds : e.adds = []) (s : Telling)
      (goesOn : NoneAfterStop s.current e) : OfConfig asciiUtf oneFileJob s (.accumulator e) :=
    ⟨goesOn, by simp [adds]⟩
  refine ⟨⟨rfl, oneFileCall_proper, rfl⟩, ?_⟩
  rintro _ ⟨⟩
  refine ⟨trivial, ?_⟩
  rintro _ ⟨⟩
  refine ⟨⟨rfl, notCollected_proper _, rfl⟩, fun s _ => ⟨quiet _ rfl s trivial, ?_⟩⟩
  exact fun s _ => ⟨quiet _ rfl s trivial, fun s _ => ⟨quiet _ rfl s trivial, fun _ _ => trivial⟩⟩

theorem told_unless_stale_unsaid :
    ∃ s, (telling asciiUtf List.length 100 oneFileJob).Run (OfConfig asciiUtf oneFileJob)
        addedUnsaid s ∧
      s.received oneFileJob = [message oneFileJob oneFileCall.name none .removed] ∧
      (replicaOf (s.received oneFileJob)).ShowsLastAt s.observed oneFileCall.name := by
  obtain ⟨s, after, received, fresh, quiet⟩ : ∃ s,
      (telling asciiUtf List.length 100 oneFileJob).after .start addedUnsaid = some s ∧
        s.received oneFileJob = [message oneFileJob oneFileCall.name none .removed] ∧
        oneFileCall.name ∉ s.stale ∧ waitingOf oneFileJob s.current.acc = [] :=
    ⟨_, rfl, rfl, fun stale => And.right stale rfl, rfl⟩
  have run : (telling asciiUtf List.length 100 oneFileJob).Run (OfConfig asciiUtf oneFileJob) _ s :=
    Machine.run_of_after rfl addedUnsaid_allowed after
  exact ⟨s, run, received, told_unless_stale run fresh (by simp [quiet])⟩

end Yella
