import Yella.Agent.Identity
import Yella.Console.Heartbeats

/-!
# Heartbeats on their way

From `heartbeat_thr` of an agent to the map of the console: a heartbeat is packed into a parcel,
which the console takes apart. The two libraries that write and read the tables are parameters.
-/

namespace Yella

/-- What `heartbeat_thr` has in hand when it sends. -/
structure Beat where
  env : HostEnvironment
  id : UStr
  plugins : List YellaPlugin
  recipient : UStr
  time : UDate
  bootCount : UInt32
  minorSeq : UInt32

/-- The tables of `heartbeat.fbs` as bytes, written by the agent and read by the console -/
structure HeartbeatBytes where
  encode : FbHeartbeat → List UInt8
  decode : List UInt8 → FbHeartbeat

/-- What is written is not empty, and is read as it was written. -/
structure HeartbeatBytes.Carries (bytes : HeartbeatBytes) (hb : FbHeartbeat) : Prop where
  filled : bytes.encode hb ≠ []
  decode : bytes.decode (bytes.encode hb) = hb

section
variable (utf : Utf) (bytes : HeartbeatBytes)

/-- `heartbeat_thr`, from `yella_create_parcel` to `yella_pack_parcel` -/
def packHeartbeat (b : Beat) : Option FbParcel := do
  let hb ← createHeartbeat utf b.env b.id b.plugins
  packParcel utf {
    time := b.time
    sender := some b.id
    recipient := some b.recipient
    type := ParcelKind.heartbeat.type
    cmp := .none
    seq := { major := b.bootCount, minor := b.minorSeq }
    grp := none
    payload := bytes.encode hb }

/-- `"yella.agent.heartbeat"` -/
def heartbeatName : CppString := ParcelKind.heartbeat.type.map UInt16.toUInt8

/-- A message that the console has got: the agent for the model, if it is a heartbeat. -/
def receiveMessage (unset : UInt32) (msg : FbParcel) : Except String (Option ConsoleAgent) := do
  let pcl ← consoleParcel unset msg
  if pcl.type = heartbeatName then
    let ag ← consoleAgent pcl.compression (bytes.decode pcl.payload)
    .ok (some ag)
  else .ok none

/-! ## What a heartbeat is to tell -/

/-- The addresses of a host that can be reached. -/
def HostEnvironment.addresses (env : HostEnvironment) : List CppString :=
  (((env.ifAddrs.getD []).filterMap id).filter (acceptableAddr env.order)).map env.inetNtop

def reportedAgent (b : Beat) : ConsoleAgent where
  when := b.env.now.toInt64
  id := utf.bytes b.id
  host := b.env.canonName.getD []
  ipAddresses := .ofList id b.env.addresses
  operatingSystem := {
    machine := b.env.machine
    version := b.env.version
    system := b.env.sysname
    release := b.env.release }
  inCaps := .ofList Capability.name (inTriples utf b.plugins)
  outCaps := .ofList Capability.name (outTriples utf b.plugins)

/-- A host that has a name and an address, at a time that a parcel and a clock of nanoseconds can
have, whose texts are converted and can be stored. -/
structure Beat.Reports (b : Beat) : Prop where
  named : b.env.canonName.isSome
  reachable : b.env.HasAddress
  addressed : ∀ addrs ∈ b.env.ifAddrs, none ∉ addrs
  timed : b.time.toUInt64.isSome
  inRange : b.time < 9223372037000
  now : b.env.now.toNat ≤ 9223372036
  converts : ∀ s ∈ b.id :: b.plugins.flatMap YellaPlugin.texts, utf.Converts s
  recipient : utf.Converts b.recipient
  valid : (reportedAgent utf b).Valid
  carried : ∀ hb ∈ createHeartbeat utf b.env b.id b.plugins, bytes.Carries hb

end

/-! ## One heartbeat -/

section
variable {utf : Utf} {bytes : HeartbeatBytes} {b : Beat} {hb : FbHeartbeat}

theorem acceptableTexts_eq {env : HostEnvironment} {addrs : List (Option SockAddr)}
    {texts : List (List UInt8)} (h : acceptableTexts env addrs = some texts) :
    texts = ((addrs.filterMap id).filter (acceptableAddr env.order)).map env.inetNtop := by
  induction addrs generalizing texts with
  | nil =>
    cases h
    rfl
  | cons a addrs ih =>
    cases a with
    | none => cases h
    | some addr =>
      simp only [acceptableTexts, Option.bind_eq_bind, Option.bind_eq_some_iff,
        Option.some_inj] at h
      obtain ⟨rest, later, rfl⟩ := h
      have present : (some addr :: addrs).filterMap id = addr :: addrs.filterMap id := rfl
      rw [present, List.filter_cons, ih later]
      split <;> rfl

theorem setIpAddresses_eq {env : HostEnvironment} {ips : List (List UInt8)}
    (h : setIpAddresses env = some (some ips)) : ips = env.addresses := by
  unfold setIpAddresses at h
  cases found : env.ifAddrs with
  | none =>
    rw [found] at h
    cases h
  | some addrs =>
    rw [found] at h
    obtain ⟨got, -, h⟩ := Option.bind_eq_some_iff.mp h
    split at h
    · obtain ⟨texts, eq, same⟩ := Option.map_eq_some_iff.mp h
      cases same
      rw [HostEnvironment.addresses, found, Option.getD_some]
      exact acceptableTexts_eq eq
    · cases h

/-- The fields of a heartbeat that come from the host. -/
theorem createHeartbeat_host {env : HostEnvironment} {name : UStr} {plugins : List YellaPlugin}
    (h : createHeartbeat utf env name plugins = some hb) :
    hb.secondsSinceEpoch = env.now ∧ setIpAddresses env = some hb.ipAddresses := by
  simp only [createHeartbeat, setHost, Option.bind_eq_bind, Option.bind_eq_some_iff,
    Option.some.injEq] at h
  obtain ⟨_, -, _, ⟨ips, found, rfl⟩, _, -, _, -, rfl⟩ := h
  exact ⟨rfl, found⟩

/-- The seconds of a time point that does not overflow. -/
theorem toTimeT_fromTimeT {time : UInt64} (small : time.toNat ≤ 9223372036) :
    toTimeT (fromTimeT time) = time.toInt64 := by
  have seconds : time.toInt64.toInt = time.toNat := by
    have bits : time.toInt64.toInt = (time.toNat : Int).bmod (2 ^ 64) :=
      BitVec.toInt_eq_toNat_bmod _
    rw [bits, Int.bmod_eq_of_le (by omega) (by omega)]
  have nanos : (fromTimeT time).toInt = time.toNat * 1000000000 := by
    rw [fromTimeT, Int64.toInt_mul, seconds]
    exact Int.bmod_eq_of_le (by simp; omega) (by simp; omega)
  rw [← Int64.toInt_inj, toTimeT, Int64.toInt_div, nanos, seconds]
  have exact : ((time.toNat : Int) * 1000000000).tdiv (1000000000 : Int64).toInt = time.toNat :=
    Int.mul_tdiv_cancel _ (by decide)
  rw [exact, Int.bmod_eq_of_le (by omega) (by omega)]

theorem consoleAgent_reported (reports : b.Reports utf bytes)
    (created : createHeartbeat utf b.env b.id b.plugins = some hb) :
    consoleAgent .none hb = .ok (reportedAgent utf b) := by
  have h := createHeartbeat_created created
  obtain ⟨now, addresses⟩ := createHeartbeat_host created
  obtain ⟨host, named⟩ := Option.isSome_iff_exists.mp reports.named
  obtain ⟨ips, found⟩ := Option.isSome_iff_exists.mp (h.ipAddresses.mpr reports.reachable)
  refine (consoleAgent_eq h).mpr ⟨host, named, ips, found, ?_⟩
  rw [found] at addresses
  rw [reportedAgent, now, toTimeT_fromTimeT reports.now, named, Option.getD_some,
    setIpAddresses_eq addresses]
  rfl

theorem receiveMessage_eq {unset : UInt32} {msg : FbParcel} {pcl : ConsoleParcel}
    {ag : ConsoleAgent} (parcel : consoleParcel unset msg = .ok pcl)
    (typed : pcl.type = heartbeatName)
    (agent : consoleAgent pcl.compression (bytes.decode pcl.payload) = .ok ag) :
    receiveMessage bytes unset msg = .ok (some ag) := by
  rw [receiveMessage, parcel]
  show (if pcl.type = heartbeatName then _ else _) = _
  rw [if_pos typed, agent]
  rfl

/-- The console makes of a heartbeat what it is to tell. -/
theorem receiveMessage_packed (reports : b.Reports utf bytes) (unset : UInt32)
    (typed : utf.toUtf8 ParcelKind.heartbeat.type = some heartbeatName) :
    ∃ msg, packHeartbeat utf bytes b = some msg ∧
      receiveMessage bytes unset msg = .ok (some (reportedAgent utf b)) := by
  obtain ⟨hb, created⟩ := createHeartbeat_defined reports.addressed reports.converts
  obtain ⟨time, timed⟩ := Option.isSome_iff_exists.mp reports.timed
  have carries := reports.carried hb created
  have filled : (bytes.encode hb).length > 0 := List.length_pos_iff.mpr carries.filled
  have agent := consoleAgent_reported reports created
  rw [← carries.decode] at agent
  have sender := (reports.converts b.id List.mem_cons_self).toUtf8_eq
  let msg : FbParcel := {
    secondsSinceEpoch := time / 1000
    sender := some (utf.bytes b.id)
    recipient := some (utf.bytes b.recipient)
    type := some heartbeatName
    cmp := .none
    seq := some { major := b.bootCount, minor := b.minorSeq }
    grp := none
    payload := some (bytes.encode hb) }
  have packed : packHeartbeat utf bytes b = some msg := by
    simp only [packHeartbeat, created, packParcel, packRecipient, packGroupIfPresent, timed, sender,
      reports.recipient.toUtf8_eq, typed, Option.bind_eq_bind, Option.bind_some, Option.map_some]
    rw [if_pos filled]
    rfl
  have parcel : consoleParcel unset msg = .ok {
      when := fromTimeT (time / 1000)
      sender := utf.bytes b.id
      recipient := utf.bytes b.recipient
      type := heartbeatName
      compression := .none
      sequence := { major := b.bootCount, minor := unset }
      group := none
      payload := bytes.encode hb } := rfl
  exact ⟨msg, packed, receiveMessage_eq parcel rfl agent⟩

/-! ## Many heartbeats -/

/-- What the console knows after heartbeats alone. -/
theorem memory_heartbeats (clocks : Clocks) (ags : List ConsoleAgent) (k : ConsoleEvent.Known) :
    ((ags.map ConsoleEvent.heartbeat).foldl (ConsoleEvent.result clocks) k).memory =
      ags.foldl setAgent k.memory := by
  induction ags generalizing k with
  | nil => rfl
  | cons ag ags ih =>
    rw [List.map_cons, List.foldl_cons, List.foldl_cons, ih]
    congr 1
    rw [ConsoleEvent.result]
    split
    · rename_i known
      rw [setAgent, ← known]
      exact (Function.update_eq_self ..).symm
    · rfl

theorem foldl_setAgent_of_not_mem {ags : List ConsoleAgent} {name : CppString}
    {agents : CppString → Option ConsoleAgent} (others : ∀ ag ∈ ags, ag.id ≠ name) :
    ags.foldl setAgent agents name = agents name := by
  induction ags generalizing agents with
  | nil => rfl
  | cons ag ags ih =>
    obtain ⟨first, rest⟩ := List.forall_mem_cons.mp others
    rw [List.foldl_cons, ih rest, setAgent_of_ne _ (Ne.symm first)]

/-- The messages of the heartbeats, and what the console makes of them -/
theorem receive_all {beats : List Beat} (unset : UInt32)
    (reports : ∀ b ∈ beats, b.Reports utf bytes)
    (typed : utf.toUtf8 ParcelKind.heartbeat.type = some heartbeatName) :
    ∃ msgs, beats.mapM (packHeartbeat utf bytes) = some msgs ∧
      msgs.mapM (receiveMessage bytes unset) =
        .ok (beats.map fun b => some (reportedAgent utf b)) := by
  induction beats with
  | nil => exact ⟨[], rfl, rfl⟩
  | cons b beats ih =>
    obtain ⟨first, others⟩ := List.forall_mem_cons.mp reports
    obtain ⟨msgs, packed, received⟩ := ih others
    obtain ⟨msg, packed', received'⟩ := receiveMessage_packed first unset typed
    refine ⟨msg :: msgs, ?_, ?_⟩
    · rw [List.mapM_cons, packed', packed]
      rfl
    · rw [List.mapM_cons, received', received]
      rfl

end

section
variable (utf : Utf) (bytes : HeartbeatBytes)

/-- **The console shows the last heartbeat of each agent.** Whatever agents send heartbeats that
report their hosts, in whatever order, and whatever the database holds when the console starts, as
long as it has ids: each heartbeat arrives, the database takes every change, and what is in memory
for an id is what its last heartbeat tells, or what the database has returned for an id without
one. -/
theorem console_shows_last_heartbeats (clocks : Clocks) (db : Tables) (consistent : db.Consistent)
    (unset : UInt32) (beats : List Beat) (reports : ∀ b ∈ beats, b.Reports utf bytes)
    (room : (beats.foldl (fun next b => next.after (reportedAgent utf b)) db.next).Within)
    (typed : utf.toUtf8 ParcelKind.heartbeat.type = some heartbeatName) :
    ∃ msgs, ∃ ags : List ConsoleAgent, ∃ c,
      beats.mapM (packHeartbeat utf bytes) = some msgs ∧
      msgs.mapM (receiveMessage bytes unset) = .ok (ags.map some) ∧
      (consoleMachine clocks).after (.connect clocks db) (ags.map .heartbeat) = some c ∧
      (∀ before b later, beats = before ++ b :: later →
        (∀ b' ∈ later, utf.bytes b'.id ≠ utf.bytes b.id) →
        c.agents (utf.bytes b.id) = some (reportedAgent utf b)) ∧
      ∀ name, (∀ b ∈ beats, utf.bytes b.id ≠ name) → c.agents name = storedIn clocks db name := by
  obtain ⟨msgs, packed, received⟩ := receive_all unset reports typed
  have start := Console.connect_is consistent (agentsWithId_toList clocks consistent)
  have accepted :
      ConsoleEvent.Accepted ((beats.map (reportedAgent utf)).map .heartbeat) db.next := by
    constructor
    · intro ag there
      obtain ⟨_, hag, ⟨⟩⟩ := List.mem_map.mp there
      obtain ⟨b, hb, rfl⟩ := List.mem_map.mp hag
      exact (reports b hb).valid
    · rw [List.map_map, List.foldl_map]
      exact room
  obtain ⟨c, after, is⟩ := start.after _ accepted
  have memory := is.memory
  rw [memory_heartbeats] at memory
  refine ⟨msgs, beats.map (reportedAgent utf), c, packed, ?_, after, ?_, ?_⟩
  · rw [received, List.map_map]
    rfl
  · rintro before b later rfl last
    rw [memory, List.map_append, List.map_cons, List.foldl_append, List.foldl_cons]
    have others : ∀ ag ∈ later.map (reportedAgent utf), ag.id ≠ utf.bytes b.id := by
      intro ag there
      obtain ⟨b', hb', rfl⟩ := List.mem_map.mp there
      exact last b' hb'
    rw [foldl_setAgent_of_not_mem others]
    exact setAgent_self ..
  · intro name others
    rw [memory]
    apply foldl_setAgent_of_not_mem
    intro ag there
    obtain ⟨b, hb, rfl⟩ := List.mem_map.mp there
    exact others b hb

end

/-- The host `h` with one address, at a time given in seconds -/
def beatAt (now : UInt64) : Beat where
  env := { plainHost (some [104]) (.inet 10 0 0 1) with now }
  id := [105]
  plugins := [versionsOfA [1]]
  recipient := [115]
  time := 0
  bootCount := 1
  minorSeq := 1

def heartbeatAt (now : UInt64) : FbHeartbeat :=
  (createHeartbeat asciiUtf (beatAt now).env (beatAt now).id (beatAt now).plugins).getD {}

/-- Bytes that tell the heartbeats at 1 and at 2 apart -/
def timeBytes : HeartbeatBytes where
  encode hb := if hb.secondsSinceEpoch = 1 then [1] else [2]
  decode text := if text = [1] then heartbeatAt 1 else heartbeatAt 2

theorem timeBytes_carries (first : Bool) :
    timeBytes.Carries (heartbeatAt (if first then 1 else 2)) := by
  cases first with
  | true => exact ⟨by decide, by rfl⟩
  | false => exact ⟨by decide, by rfl⟩

theorem beatAt_reports (first : Bool) :
    (beatAt (if first then 1 else 2)).Reports asciiUtf timeBytes where
  named := rfl
  reachable := by
    have acceptable : acceptableAddr .little (.inet 10 0 0 1) = true := by decide
    exact ⟨[some (.inet 10 0 0 1)], rfl, .inet 10 0 0 1, List.mem_cons_self, acceptable⟩
  addressed := by
    rintro addrs ⟨⟩
    decide
  timed := by
    show (UDate.toUInt64 0).isSome = true
    decide
  inRange := by
    show (0 : Rat) < 9223372037000
    decide
  now := by
    cases first <;> decide
  converts := by
    show ∀ s ∈ [[105], [97], [99]], asciiUtf.Converts s
    decide
  recipient := by
    show asciiUtf.Converts [115]
    decide
  valid := by
    unfold ConsoleAgent.Valid
    cases first <;> decide
  carried := by
    intro hb created
    have same : heartbeatAt (if first then 1 else 2) = hb := by
      rw [heartbeatAt, created, Option.getD_some]
    exact same ▸ timeBytes_carries first

/-- The same agent two times -/
theorem console_shows_last_heartbeats_two :
    ∃ msgs, ∃ ags : List ConsoleAgent, ∃ c,
      [beatAt 1, beatAt 2].mapM (packHeartbeat asciiUtf timeBytes) = some msgs ∧
      msgs.mapM (receiveMessage timeBytes 0) = .ok (ags.map some) ∧
      (consoleMachine (clocksAt ⟨0, by decide⟩)).after
        (.connect (clocksAt ⟨0, by decide⟩) emptyTables) (ags.map .heartbeat) = some c ∧
      (∀ before b later, [beatAt 1, beatAt 2] = before ++ b :: later →
        (∀ b' ∈ later, asciiUtf.bytes b'.id ≠ asciiUtf.bytes b.id) →
        c.agents (asciiUtf.bytes b.id) = some (reportedAgent asciiUtf b)) ∧
      ∀ name, (∀ b ∈ [beatAt 1, beatAt 2], asciiUtf.bytes b.id ≠ name) →
        c.agents name = storedIn (clocksAt ⟨0, by decide⟩) emptyTables name := by
  have reports : ∀ b ∈ [beatAt 1, beatAt 2], b.Reports asciiUtf timeBytes := by
    intro b hb
    rcases List.mem_pair.mp hb with rfl | rfl
    · exact beatAt_reports true
    · exact beatAt_reports false
  exact console_shows_last_heartbeats asciiUtf timeBytes (clocksAt ⟨0, by decide⟩) emptyTables
    emptyTables_consistent 0 [beatAt 1, beatAt 2] reports
    ⟨by decide, by decide, by decide, by decide⟩ (by decide)

end Yella
