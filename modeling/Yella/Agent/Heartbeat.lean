import Yella.Element.Pack
import Yella.Lib.Fallible

/-!
# Heartbeats

`heartbeat.c` and `heartbeat_posix.c` over the tables of `heartbeat.fbs`.
-/

namespace Yella

/-! ## Tables -/

structure FbCapability where
  name : Option (List UInt8) := none
  version : Int32 := 0
  configurations : Option (List (List UInt8)) := none
  deriving DecidableEq

structure FbOperatingSystem where
  machine : Option (List UInt8) := none
  system : Option (List UInt8) := none
  version : Option (List UInt8) := none
  release : Option (List UInt8) := none
  deriving DecidableEq

structure FbHeartbeat where
  secondsSinceEpoch : UInt64 := 0
  id : Option (List UInt8) := none
  host : Option (List UInt8) := none
  ipAddresses : Option (List (List UInt8)) := none
  os : Option FbOperatingSystem := none
  inCapabilities : Option (List FbCapability) := none
  outCapabilities : Option (List FbCapability) := none
  deriving DecidableEq

/-! ## Addresses -/

inductive ByteOrder where
  | little
  | big
  deriving DecidableEq

/-- `ntohs` -/
def ByteOrder.ntohs (order : ByteOrder) (x : UInt16) : UInt16 :=
  match order with
  | little => x <<< 8 ||| x >>> 8
  | big => x

/-- `ntohl` -/
def ByteOrder.ntohl (order : ByteOrder) (x : UInt32) : UInt32 :=
  match order with
  | little =>
    (order.ntohs x.toUInt16).toUInt32 <<< 16 ||| (order.ntohs (x >>> 16).toUInt16).toUInt32
  | big => x

/-- Two bytes of memory read as `uint16_t`. -/
def ByteOrder.load16 (order : ByteOrder) (b₀ b₁ : UInt8) : UInt16 :=
  match order with
  | little => b₁.toUInt16 <<< 8 ||| b₀.toUInt16
  | big => b₀.toUInt16 <<< 8 ||| b₁.toUInt16

def ByteOrder.load32 (order : ByteOrder) (b₀ b₁ b₂ b₃ : UInt8) : UInt32 :=
  match order with
  | little => (order.load16 b₂ b₃).toUInt32 <<< 16 ||| (order.load16 b₀ b₁).toUInt32
  | big => (order.load16 b₀ b₁).toUInt32 <<< 16 ||| (order.load16 b₂ b₃).toUInt32

/-- A `sockaddr` with the bytes of its address. -/
inductive SockAddr where
  | inet (b₀ b₁ b₂ b₃ : UInt8)
  | inet6 (addr : Vector UInt8 16)
  | other
  deriving DecidableEq

def loopback6 : Vector UInt8 16 := #v[0, 0, 0, 0, 0, 0, 0, 0, 0, 0, 0, 0, 0, 0, 0, 1]

/-- The bounds of the link-local addresses go through `ntohs` and `ntohl` like the addresses,
although they are in the order of the host already. -/
def acceptableAddr (order : ByteOrder) : SockAddr → Bool
  | .inet b₀ b₁ b₂ b₃ =>
    if [b₀, b₁, b₂, b₃] = [127, 0, 0, 1] then false
    else
      let hv4Addr := order.ntohl (order.load32 b₀ b₁ b₂ b₃)
      let llv4Start := (order.ntohs 0xa9fe).toUInt32 <<< 16
      let llv4End := order.ntohl 0xa9feffff
      hv4Addr < llv4Start || hv4Addr > llv4End
  | .inet6 addr =>
    if addr = loopback6 then false
    else
      let hv6Top := order.load16 addr[0] addr[1]
      let llv6Start := order.ntohs 0xfe80
      let llv6End := order.ntohs 0xfec0
      hv6Top < llv6Start || hv6Top ≥ llv6End
  | .other => false

/-! ## The host -/

/-- What the calls of the operating system return. `canonName` is the result of `getaddrinfo`
for the node name and `ifAddrs` that of `getifaddrs`, where an interface may have no address. -/
structure HostEnvironment where
  order : ByteOrder
  canonName : Option (List UInt8)
  ifAddrs : Option (List (Option SockAddr))
  inetNtop : SockAddr → List UInt8
  machine : List UInt8
  sysname : List UInt8
  version : List UInt8
  release : List UInt8
  now : UInt64

/-- The loop up to the first acceptable address. An absent address is read. -/
def gotOne (order : ByteOrder) : List (Option SockAddr) → Option Bool
  | [] => some false
  | none :: _ => none
  | some addr :: addrs => if acceptableAddr order addr then some true else gotOne order addrs

/-- The loop over all addresses. -/
def acceptableTexts (env : HostEnvironment) : List (Option SockAddr) → Option (List (List UInt8))
  | [] => some []
  | none :: _ => none
  | some addr :: addrs => do
    let texts ← acceptableTexts env addrs
    some (if acceptableAddr env.order addr then env.inetNtop addr :: texts else texts)

/-- The field `ip_addresses`. A result `none` is undefined behaviour. -/
def setIpAddresses (env : HostEnvironment) : Option (Option (List (List UInt8))) :=
  match env.ifAddrs with
  | none => some none
  | some addrs => do
    let got ← gotOne env.order addrs
    if got then (acceptableTexts env addrs).map some else some none

def setHost (env : HostEnvironment) (hb : FbHeartbeat) : Option FbHeartbeat := do
  let ipAddresses ← setIpAddresses env
  some { hb with
    host := env.canonName
    ipAddresses
    os := some {
      machine := some env.machine
      system := some env.sysname
      version := some env.version
      release := some env.release } }

/-! ## Plugins -/

structure PluginInCap where
  name : UStr
  version : Int32
  configs : List UStr
  deriving DecidableEq

structure PluginOutCap where
  name : UStr
  version : Int32
  deriving DecidableEq

/-- What a heartbeat reads of a `yella_plugin`. -/
structure YellaPlugin where
  inCaps : List PluginInCap
  outCaps : List PluginOutCap
  deriving DecidableEq

/-- A vector is started with its first element. -/
def vectorIfAny {α : Type} (xs : List α) : Option (List α) := if xs = [] then none else some xs

section
variable (utf : Utf)

def inCapability (cap : PluginInCap) : Option FbCapability := do
  let name ← utf.toUtf8 cap.name
  let configs ← cap.configs.mapM utf.toUtf8
  some { name := some name, version := cap.version, configurations := vectorIfAny configs }

def outCapability (cap : PluginOutCap) : Option FbCapability := do
  let name ← utf.toUtf8 cap.name
  some { name := some name, version := cap.version }

/-- A result `none` is undefined behaviour, also where a text is not converted. -/
def createHeartbeat (env : HostEnvironment) (id : UStr) (plugins : List YellaPlugin) :
    Option FbHeartbeat := do
  let utf8 ← utf.toUtf8 id
  let hb ← setHost env { id := some utf8 }
  let inCaps ← (plugins.flatMap YellaPlugin.inCaps).mapM (inCapability utf)
  let outCaps ← (plugins.flatMap YellaPlugin.outCaps).mapM (outCapability utf)
  some { hb with
    secondsSinceEpoch := env.now
    inCapabilities := vectorIfAny inCaps
    outCapabilities := vectorIfAny outCaps }

end

def PluginInCap.texts (cap : PluginInCap) : List UStr := cap.name :: cap.configs

/-- What a heartbeat has of the plugins as text. -/
def YellaPlugin.texts (plg : YellaPlugin) : List UStr :=
  plg.inCaps.flatMap PluginInCap.texts ++ plg.outCaps.map PluginOutCap.name

/-! ## What a heartbeat has -/

/-- There is an address that a heartbeat can report. -/
def HostEnvironment.HasAddress (env : HostEnvironment) : Prop :=
  ∃ addrs ∈ env.ifAddrs, ∃ addr, some addr ∈ addrs ∧ acceptableAddr env.order addr

section
variable {env : HostEnvironment}

theorem gotOne_eq_some {order : ByteOrder} {addrs : List (Option SockAddr)} {got : Bool}
    (h : gotOne order addrs = some got) :
    got = true ↔ ∃ addr, some addr ∈ addrs ∧ acceptableAddr order addr := by
  induction addrs with
  | nil =>
    cases h
    simp
  | cons a addrs ih =>
    cases a with
    | none => cases h
    | some addr =>
      simp only [gotOne] at h
      by_cases ok : acceptableAddr order addr
      · simp only [ok, ↓reduceIte, Option.some.injEq] at h
        subst h
        exact iff_of_true rfl ⟨addr, List.mem_cons_self, ok⟩
      · simp only [ok, Bool.false_eq_true, ↓reduceIte] at h
        rw [ih h]
        constructor
        · rintro ⟨b, hb, hok⟩
          exact ⟨b, List.mem_cons_of_mem _ hb, hok⟩
        · rintro ⟨b, hb, hok⟩
          obtain hb | hb := List.mem_cons.mp hb
          · exact absurd (Option.some.inj hb ▸ hok) ok
          · exact ⟨b, hb, hok⟩

theorem setIpAddresses_isSome {ips : Option (List (List UInt8))}
    (h : setIpAddresses env = some ips) : ips.isSome ↔ env.HasAddress := by
  unfold setIpAddresses at h
  cases hif : env.ifAddrs with
  | none =>
    simp only [hif, Option.some.injEq] at h
    subst h
    simp [HostEnvironment.HasAddress, hif]
  | some addrs =>
    simp only [hif, Option.bind_eq_bind, Option.bind_eq_some_iff] at h
    obtain ⟨got, hgot, h⟩ := h
    have any := gotOne_eq_some hgot
    cases got with
    | false =>
      simp only [Bool.false_eq_true, ↓reduceIte, Option.some.injEq] at h
      subst h
      simpa [HostEnvironment.HasAddress, hif] using any
    | true =>
      simp only [↓reduceIte, Option.map_eq_some_iff] at h
      obtain ⟨texts, -, rfl⟩ := h
      simpa [HostEnvironment.HasAddress, hif] using any

/-- What is in every heartbeat. -/
structure FbHeartbeat.Created (utf : Utf) (env : HostEnvironment) (id : UStr)
    (plugins : List YellaPlugin) (hb : FbHeartbeat) : Prop where
  id : hb.id = some (utf.bytes id)
  host : hb.host = env.canonName
  ipAddresses : hb.ipAddresses.isSome ↔ env.HasAddress
  os : hb.os = some {
    machine := some env.machine
    system := some env.sysname
    version := some env.version
    release := some env.release }
  inCaps : ∃ caps, (plugins.flatMap YellaPlugin.inCaps).mapM (inCapability utf) = some caps ∧
    hb.inCapabilities = vectorIfAny caps
  outCaps : ∃ caps, (plugins.flatMap YellaPlugin.outCaps).mapM (outCapability utf) = some caps ∧
    hb.outCapabilities = vectorIfAny caps

theorem createHeartbeat_created {utf : Utf} {id : UStr} {plugins : List YellaPlugin}
    {hb : FbHeartbeat} (h : createHeartbeat utf env id plugins = some hb) :
    hb.Created utf env id plugins := by
  simp only [createHeartbeat, setHost, Option.bind_eq_bind, Option.bind_eq_some_iff,
    Option.some.injEq] at h
  obtain ⟨u, hu, _, ⟨ips, hips, rfl⟩, inCaps, hin, outCaps, hout, rfl⟩ := h
  exact ⟨congrArg some (Utf.bytes_eq hu).symm, rfl, setIpAddresses_isSome hips, rfl,
    ⟨inCaps, hin, rfl⟩, ⟨outCaps, hout, rfl⟩⟩

/-! ### Where there is a heartbeat -/

theorem gotOne_defined (order : ByteOrder) {addrs : List (Option SockAddr)} (h : none ∉ addrs) :
    ∃ got, gotOne order addrs = some got := by
  induction addrs with
  | nil => exact ⟨false, rfl⟩
  | cons a addrs ih =>
    cases a with
    | none => simp at h
    | some addr =>
      obtain ⟨got, hgot⟩ := ih (by simpa using h)
      by_cases ok : acceptableAddr order addr <;> simp [gotOne, ok, hgot]

theorem acceptableTexts_defined (env : HostEnvironment) {addrs : List (Option SockAddr)}
    (h : none ∉ addrs) :
    ∃ texts, acceptableTexts env addrs = some texts := by
  induction addrs with
  | nil => exact ⟨[], rfl⟩
  | cons a addrs ih =>
    cases a with
    | none => simp at h
    | some addr =>
      obtain ⟨texts, htexts⟩ := ih (by simpa using h)
      exact ⟨_, by simp only [acceptableTexts, htexts]; rfl⟩

theorem setIpAddresses_defined (addressed : ∀ addrs ∈ env.ifAddrs, none ∉ addrs) :
    ∃ ips, setIpAddresses env = some ips := by
  unfold setIpAddresses
  cases hif : env.ifAddrs with
  | none => exact ⟨none, rfl⟩
  | some addrs =>
    obtain ⟨got, hgot⟩ := gotOne_defined env.order (addressed addrs hif)
    obtain ⟨texts, htexts⟩ := acceptableTexts_defined env (addressed addrs hif)
    cases got <;> simp [hgot, htexts]

theorem inCapability_defined {utf : Utf} {cap : PluginInCap}
    (converts : ∀ s ∈ cap.texts, utf.Converts s) : (inCapability utf cap).isSome := by
  obtain ⟨name, configs⟩ := List.forall_mem_cons.mp converts
  obtain ⟨configs, hconfigs⟩ := Option.isSome_iff_exists.mp (Fallible.mapM_isSome.mpr configs)
  simp [inCapability, name.toUtf8_eq, hconfigs]

theorem outCapability_defined {utf : Utf} {cap : PluginOutCap} (name : utf.Converts cap.name) :
    (outCapability utf cap).isSome := by
  simp [outCapability, name.toUtf8_eq]

/-- The address of every interface is read, and every text is converted. -/
theorem createHeartbeat_defined {utf : Utf} {id : UStr} {plugins : List YellaPlugin}
    (addressed : ∀ addrs ∈ env.ifAddrs, none ∉ addrs)
    (converts : ∀ s ∈ id :: plugins.flatMap YellaPlugin.texts, utf.Converts s) :
    ∃ hb, createHeartbeat utf env id plugins = some hb := by
  obtain ⟨ips, hips⟩ := setIpAddresses_defined addressed
  obtain ⟨named, plugged⟩ := List.forall_mem_cons.mp converts
  have ins : ((plugins.flatMap YellaPlugin.inCaps).mapM (inCapability utf)).isSome := by
    refine Fallible.mapM_isSome.mpr fun cap hcap => inCapability_defined fun s hs => ?_
    obtain ⟨plg, hplg, hcap⟩ := List.mem_flatMap.mp hcap
    exact plugged s (List.mem_flatMap.mpr
      ⟨plg, hplg, List.mem_append_left _ (List.mem_flatMap.mpr ⟨cap, hcap, hs⟩)⟩)
  have outs : ((plugins.flatMap YellaPlugin.outCaps).mapM (outCapability utf)).isSome := by
    refine Fallible.mapM_isSome.mpr fun cap hcap => outCapability_defined ?_
    obtain ⟨plg, hplg, hcap⟩ := List.mem_flatMap.mp hcap
    exact plugged _
      (List.mem_flatMap.mpr ⟨plg, hplg, List.mem_append_right _ (List.mem_map_of_mem hcap)⟩)
  obtain ⟨inCaps, hin⟩ := Option.isSome_iff_exists.mp ins
  obtain ⟨outCaps, hout⟩ := Option.isSome_iff_exists.mp outs
  simp [createHeartbeat, setHost, hips, named.toUtf8_eq, hin, hout]

end

end Yella
