import Mathlib.Data.List.Lex
import Yella.Lib.OrderedSet
import Yella.Parcel.Console
import Yella.Agent.Heartbeat

/-!
# Agents in the console

`console/agent.cpp`: what the console makes of a heartbeat, and when this is what the agent
has reported.
-/

namespace Yella

instance linearOrderByte : LinearOrder UInt8 where
  le_refl := UInt8.le_refl
  le_trans _ _ _ := UInt8.le_trans
  le_antisymm _ _ := UInt8.le_antisymm
  le_total := UInt8.le_total
  lt_iff_le_not_ge a b := by
    rw [UInt8.not_le]
    exact ⟨fun h => ⟨UInt8.le_of_lt h, h⟩, fun h => h.2⟩
  toDecidableLE := inferInstance

/-- `std::string` -/
abbrev CppString := List UInt8

/-- `std::set<std::string>` -/
abbrev StringSet := OrderedSet (id : CppString → CppString)

structure OperatingSystem where
  machine : CppString
  version : CppString
  system : CppString
  release : CppString
  deriving DecidableEq

structure Capability where
  name : CppString
  version : Int32
  configurations : StringSet
  deriving DecidableEq

/-- `std::set<capability>`, whose order is that of the names. -/
abbrev CapabilitySet := OrderedSet Capability.name

/-- `when` is the `time_t` of the time point. The equality is the one of `agent::operator==`. -/
@[ext] structure ConsoleAgent where
  when : Int64
  id : CppString
  host : CppString
  ipAddresses : StringSet
  operatingSystem : OperatingSystem
  inCaps : CapabilitySet
  outCaps : CapabilitySet
  deriving DecidableEq

/-! ## Reading a heartbeat -/

def stringSet (strs : Option (List CppString)) : StringSet := .ofList id (strs.getD [])

def consoleCapability (cap : FbCapability) : Except String Capability := do
  let name ← required "The capability does not have a name" cap.name
  .ok { name, version := cap.version, configurations := stringSet cap.configurations }

def consoleOperatingSystem (os : FbOperatingSystem) : Except String OperatingSystem := do
  let machine ← required "The operation system does not have a name" os.machine
  let version ← required "The operation system does not have a version" os.version
  let system ← required "The operation system does not have a system" os.system
  let release ← required "The operation release does not have a release" os.release
  .ok { machine, version, system, release }

def consoleCapabilities (caps : Option (List FbCapability)) : Except String CapabilitySet := do
  let caps ← (caps.getD []).mapM consoleCapability
  .ok (.ofList Capability.name caps)

/-- `system_clock::to_time_t` -/
def toTimeT (when : Int64) : Int64 := when / 1000000000

def consoleAgent (comp : Compression) (hb : FbHeartbeat) : Except String ConsoleAgent := do
  if comp ≠ .none then .error "The heartbeat should not be compressed"
  let id ← required "The heartbest does not have id" hb.id
  let host ← required "The heartbest does not have host" hb.host
  let ips ← required "The heartbest does not have IP addresses" hb.ipAddresses
  let os ← required "The heartbest does not have operation system" hb.os
  let operatingSystem ← consoleOperatingSystem os
  let inCaps ← consoleCapabilities hb.inCapabilities
  let outCaps ← consoleCapabilities hb.outCapabilities
  .ok {
    when := toTimeT (fromTimeT hb.secondsSinceEpoch)
    id
    host
    ipAddresses := stringSet (some ips)
    operatingSystem
    inCaps
    outCaps }

/-! ## What the agent has reported -/

section
variable (utf : Utf)

/-- The name, the version and the configurations of a capability. -/
def inTriple (cap : PluginInCap) : Capability where
  name := utf.bytes cap.name
  version := cap.version
  configurations := .ofList id (cap.configs.map utf.bytes)

def outTriple (cap : PluginOutCap) : Capability where
  name := utf.bytes cap.name
  version := cap.version
  configurations := .empty

def inTriples (plugins : List YellaPlugin) : List Capability :=
  (plugins.flatMap YellaPlugin.inCaps).map (inTriple utf)

def outTriples (plugins : List YellaPlugin) : List Capability :=
  (plugins.flatMap YellaPlugin.outCaps).map (outTriple utf)

end

/-- No two different capabilities have one name. -/
def OneOfEachName (caps : List Capability) : Prop :=
  ∀ c ∈ caps, ∀ d ∈ caps, c.name = d.name → c = d

/-- The set has the capabilities of the list. -/
def CapabilitySet.Holds (set : CapabilitySet) (caps : List Capability) : Prop :=
  ∀ c, c ∈ set ↔ c ∈ caps

/-- The console accepts the heartbeat, and has the capabilities of the plugins. -/
def HeartbeatUnderstood (utf : Utf) (env : HostEnvironment) (id : UStr)
    (plugins : List YellaPlugin) : Prop :=
  ∃ hb ag, createHeartbeat utf env id plugins = some hb ∧ consoleAgent .none hb = .ok ag ∧
    ag.inCaps.Holds (inTriples utf plugins) ∧ ag.outCaps.Holds (outTriples utf plugins)

section
variable {utf : Utf} {env : HostEnvironment} {id : UStr} {plugins : List YellaPlugin}
  {hb : FbHeartbeat}

theorem getD_vectorIfAny {α : Type} (xs : List α) : (vectorIfAny xs).getD [] = xs := by
  cases xs <;> rfl

theorem consoleCapability_in {cap : PluginInCap} {fb : FbCapability}
    (packed : inCapability utf cap = some fb) : consoleCapability fb = .ok (inTriple utf cap) := by
  simp only [inCapability, Option.bind_eq_bind, Option.bind_eq_some_iff, Option.some_inj] at packed
  obtain ⟨name, named, configs, configured, rfl⟩ := packed
  have bytes : cap.configs.map utf.bytes = configs := by
    have mapped := Fallible.mapM_eq_map (f := utf.toUtf8) (g := utf.bytes) (l := cap.configs)
      fun s hs => Utf.Converts.toUtf8_eq
        (Fallible.mapM_isSome.mp (Option.isSome_iff_exists.mpr ⟨_, configured⟩) s hs)
    exact Option.some_inj.mp (mapped.symm.trans configured)
  rw [inTriple, Utf.bytes_eq named, bytes]
  simp only [consoleCapability, stringSet, getD_vectorIfAny]
  rfl

theorem consoleCapability_out {cap : PluginOutCap} {fb : FbCapability}
    (packed : outCapability utf cap = some fb) :
    consoleCapability fb = .ok (outTriple utf cap) := by
  simp only [outCapability, Option.bind_eq_bind, Option.bind_eq_some_iff, Option.some_inj] at packed
  obtain ⟨name, named, rfl⟩ := packed
  rw [outTriple, Utf.bytes_eq named]
  rfl

theorem mapM_ok {α β γ : Type} {f : β → Except String γ} {g : α → Option β} {h : α → γ}
    (ok : ∀ a b, g a = some b → f b = .ok (h a)) {xs : List α} {ys : List β}
    (packed : xs.mapM g = some ys) : ys.mapM f = .ok (xs.map h) := by
  induction xs generalizing ys with
  | nil =>
    cases packed
    rfl
  | cons a xs ih =>
    simp only [List.mapM_cons, Option.bind_eq_bind, Option.bind_eq_some_iff, Option.pure_def,
      Option.some_inj] at packed
    obtain ⟨b, first, rest, later, rfl⟩ := packed
    rw [List.mapM_cons, ok a b first, ih later]
    rfl

/-- The capabilities of one direction, whatever they are made from. -/
theorem consoleCapabilities_eq {α : Type} {caps : List α} {packed : List FbCapability}
    {pack : α → Option FbCapability} {triple : α → Capability}
    (ok : ∀ a fb, pack a = some fb → consoleCapability fb = .ok (triple a))
    (h : caps.mapM pack = some packed) :
    consoleCapabilities (vectorIfAny packed) =
      .ok (.ofList Capability.name (caps.map triple)) := by
  rw [consoleCapabilities, getD_vectorIfAny, mapM_ok ok h]
  rfl

/-- The agent that the console reads, once there are a host name and an address. -/
theorem consoleAgent_eq (h : hb.Created utf env id plugins) {ag : ConsoleAgent} :
    consoleAgent .none hb = .ok ag ↔ ∃ host ∈ env.canonName, ∃ ips ∈ hb.ipAddresses,
      ag = {
        when := toTimeT (fromTimeT hb.secondsSinceEpoch)
        id := utf.bytes id
        host
        ipAddresses := stringSet (some ips)
        operatingSystem := {
          machine := env.machine
          version := env.version
          system := env.sysname
          release := env.release }
        inCaps := .ofList Capability.name (inTriples utf plugins)
        outCaps := .ofList Capability.name (outTriples utf plugins) } := by
  have ins : consoleCapabilities hb.inCapabilities =
      .ok (.ofList Capability.name (inTriples utf plugins)) := by
    obtain ⟨caps, packed, eq⟩ := h.inCaps
    rw [eq]
    exact consoleCapabilities_eq (fun _ _ => consoleCapability_in) packed
  have outs : consoleCapabilities hb.outCapabilities =
      .ok (.ofList Capability.name (outTriples utf plugins)) := by
    obtain ⟨caps, packed, eq⟩ := h.outCaps
    rw [eq]
    exact consoleCapabilities_eq (fun _ _ => consoleCapability_out) packed
  rw [consoleAgent, if_neg (by simp)]
  simp only [h.id, h.host, h.os, ins, outs, required, except_bind_eq_ok, consoleOperatingSystem]
  cases env.canonName <;> cases hb.ipAddresses <;> simp [eq_comm]

theorem consoleAgent_accepts (h : hb.Created utf env id plugins) :
    (∃ ag, consoleAgent .none hb = .ok ag) ↔ env.canonName.isSome ∧ env.HasAddress := by
  rw [← h.ipAddresses, Option.isSome_iff_exists, Option.isSome_iff_exists]
  constructor
  · rintro ⟨ag, hag⟩
    obtain ⟨host, hhost, ips, hips, -⟩ := (consoleAgent_eq h).mp hag
    exact ⟨⟨host, hhost⟩, ⟨ips, hips⟩⟩
  · rintro ⟨⟨host, hhost⟩, ⟨ips, hips⟩⟩
    exact ⟨_, (consoleAgent_eq h).mpr ⟨host, hhost, ips, hips, rfl⟩⟩

/-- The set has one capability of each name. -/
theorem holds_ofList_iff {caps : List Capability} :
    CapabilitySet.Holds (.ofList Capability.name caps) caps ↔ OneOfEachName caps := by
  constructor
  · intro holds c hc d hd same
    exact OrderedSet.unique _ ((holds c).mpr hc) ((holds d).mpr hd) same
  · exact fun h _ => OrderedSet.mem_ofList_of_agree h

end

/-- There is a heartbeat where every interface has an address and the texts are converted. The
console accepts those of a host that has a name and an address that can be reported. It has all
capabilities then, where no two different ones have one name. -/
theorem heartbeat_understood_iff (utf : Utf) (env : HostEnvironment) (id : UStr)
    (plugins : List YellaPlugin) (addressed : ∀ addrs ∈ env.ifAddrs, none ∉ addrs)
    (converts : ∀ s ∈ id :: plugins.flatMap YellaPlugin.texts, utf.Converts s) :
    ∃ hb, createHeartbeat utf env id plugins = some hb ∧
      ((∃ ag, consoleAgent .none hb = .ok ag) ↔ env.canonName.isSome ∧ env.HasAddress) ∧
      ∀ ag, consoleAgent .none hb = .ok ag →
        (OneOfEachName (inTriples utf plugins) → ag.inCaps.Holds (inTriples utf plugins)) ∧
        (OneOfEachName (outTriples utf plugins) → ag.outCaps.Holds (outTriples utf plugins)) := by
  obtain ⟨hb, created⟩ := createHeartbeat_defined addressed converts
  have h := createHeartbeat_created created
  refine ⟨hb, created, consoleAgent_accepts h, fun ag hag => ?_⟩
  obtain ⟨_, _, _, _, rfl⟩ := (consoleAgent_eq h).mp hag
  exact ⟨holds_ofList_iff.mpr, holds_ofList_iff.mpr⟩

def plainHost (canonName : Option (List UInt8)) (addr : SockAddr) : HostEnvironment where
  order := .little
  canonName := canonName
  ifAddrs := some [some addr]
  inetNtop _ := [49]
  machine := [109]
  sysname := [115]
  version := [118]
  release := [114]
  now := 1

/-- A plugin with the input capability `a` in some versions. -/
def versionsOfA (versions : List Int32) : YellaPlugin where
  inCaps := versions.map fun version => { name := [97], version, configs := [[99]] }
  outCaps := []

theorem heartbeat_understood_plain :
    ∃ hb, createHeartbeat asciiUtf (plainHost (some [104]) (.inet 10 0 0 1)) [105]
        [versionsOfA [1]] = some hb ∧
      ((∃ ag, consoleAgent .none hb = .ok ag) ↔
        (plainHost (some [104]) (.inet 10 0 0 1)).canonName.isSome ∧
          (plainHost (some [104]) (.inet 10 0 0 1)).HasAddress) ∧
      ∀ ag, consoleAgent .none hb = .ok ag →
        (OneOfEachName (inTriples asciiUtf [versionsOfA [1]]) →
          ag.inCaps.Holds (inTriples asciiUtf [versionsOfA [1]])) ∧
        (OneOfEachName (outTriples asciiUtf [versionsOfA [1]]) →
          ag.outCaps.Holds (outTriples asciiUtf [versionsOfA [1]])) := by
  have addressed : ∀ addrs ∈ (plainHost (some [104]) (.inet 10 0 0 1)).ifAddrs,
      none ∉ addrs := by
    rintro addrs ⟨⟩
    decide
  exact heartbeat_understood_iff asciiUtf (plainHost (some [104]) (.inet 10 0 0 1)) [105]
    [versionsOfA [1]] addressed (by decide)

/-- The console refuses a heartbeat without a host name or without an address, and keeps one of
two versions of a capability. There is no heartbeat with the configuration `é`. -/
theorem heartbeat_not_understood :
    ¬ HeartbeatUnderstood asciiUtf (plainHost none (.inet 10 0 0 1)) [105] [versionsOfA [1]] ∧
    ¬ HeartbeatUnderstood asciiUtf (plainHost (some [104]) (.inet 127 0 0 1)) [105]
      [versionsOfA [1]] ∧
    ¬ HeartbeatUnderstood asciiUtf (plainHost (some [104]) (.inet 10 0 0 1)) [105]
      [versionsOfA [1, 2]] ∧
    ¬ HeartbeatUnderstood asciiUtf (plainHost (some [104]) (.inet 10 0 0 1)) [105]
      [{ inCaps := [{ name := [97], version := 1, configs := [[233]] }], outCaps := [] }] := by
  refine ⟨?_, ?_, ?_, ?_⟩
  · rintro ⟨hb, ag, hhb, hag, -⟩
    cases hhb
    cases hag
  · rintro ⟨hb, ag, hhb, hag, -⟩
    cases hhb
    cases hag
  · rintro ⟨hb, ag, -, -, holds, -⟩
    have first : inTriple asciiUtf { name := [97], version := 1, configs := [[99]] } ∈ ag.inCaps :=
      (holds _).mpr (by decide)
    have second : inTriple asciiUtf { name := [97], version := 2, configs := [[99]] } ∈ ag.inCaps :=
      (holds _).mpr (by decide)
    have same := ag.inCaps.unique first second rfl
    revert same
    decide
  · rintro ⟨hb, ag, hhb, -⟩
    cases hhb

end Yella
