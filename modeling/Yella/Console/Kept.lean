import Yella.Console.Store

/-!
# What the database keeps of an agent

An agent comes back as it was stored exactly when its texts are valid, its input capabilities have
no configurations, the two time zones give the same offset and there are ids for its rows.
-/

namespace Yella

/-! ## Agents and their rows -/

def Capability.texts (c : Capability) : List CppString := c.name :: c.configurations.elems

/-- The texts that go to the database -/
def ConsoleAgent.texts (ag : ConsoleAgent) : List CppString :=
  [ag.id, ag.host, ag.operatingSystem.machine, ag.operatingSystem.system,
    ag.operatingSystem.version, ag.operatingSystem.release] ++
  ag.ipAddresses.elems ++ ag.inCaps.elems.map Capability.name ++
  ag.outCaps.elems.flatMap Capability.texts

def ConsoleAgent.Valid (ag : ConsoleAgent) : Prop := ∀ str ∈ ag.texts, ValidText str

def nullIfEmpty (str : CppString) : Option CppString := if str = [] then none else some str

def ownRow (ag : ConsoleAgent) : AgentRow where
  id := ag.id
  last := Calendar.secondsOf (timestampParam ag)
  host := nullIfEmpty ag.host
  machine := nullIfEmpty ag.operatingSystem.machine
  operatingSystem := nullIfEmpty ag.operatingSystem.system
  osVersion := nullIfEmpty ag.operatingSystem.version
  osRelease := nullIfEmpty ag.operatingSystem.release

def configCount (caps : List Capability) : Nat :=
  (caps.map fun c => c.configurations.elems.length).sum

/-- The sequences after the rows of an agent -/
def Serials.after (next : Serials) (ag : ConsoleAgent) : Serials where
  ipAddress := next.ipAddress + ag.ipAddresses.elems.length
  inCap := next.inCap + ag.inCaps.elems.length
  outCap := next.outCap + ag.outCaps.elems.length
  config := next.config + configCount ag.outCaps.elems

/-- There are ids for the rows of an agent. -/
def Serials.Room (next : Serials) (ag : ConsoleAgent) : Prop := (next.after ag).Within

theorem nullableParam_eq {str : CppString} (valid : ValidText str) :
    nullableParam str = some (nullIfEmpty str) := by
  rw [nullableParam, nullIfEmpty, valid.textParam]
  split <;> rfl

namespace ConsoleAgent.Valid

variable {ag : ConsoleAgent} (h : ag.Valid)
include h

theorem id : ValidText ag.id := h _ (by simp [texts])

theorem agentRow : agentRow ag = some (ownRow ag) := by
  simp only [Yella.agentRow, h.id.textParam, nullableParam_eq (h ag.host (by simp [texts])),
    nullableParam_eq (h ag.operatingSystem.machine (by simp [texts])),
    nullableParam_eq (h ag.operatingSystem.system (by simp [texts])),
    nullableParam_eq (h ag.operatingSystem.version (by simp [texts])),
    nullableParam_eq (h ag.operatingSystem.release (by simp [texts])), Option.bind_eq_bind,
    Option.bind_some]
  rfl

theorem address {addr : CppString} (there : addr ∈ ag.ipAddresses.elems) : ValidText addr :=
  h addr (by simp [texts, there])

theorem inCap {c : Capability} (there : c ∈ ag.inCaps.elems) : ValidText c.name :=
  h c.name (by
    have : c.name ∈ ag.inCaps.elems.map Capability.name := List.mem_map_of_mem there
    simp only [texts, List.mem_append]
    exact .inl (.inr this))

theorem outCap {c : Capability} (there : c ∈ ag.outCaps.elems) :
    ∀ str ∈ c.texts, ValidText str := by
  intro str hstr
  apply h
  have : str ∈ ag.outCaps.elems.flatMap Capability.texts := List.mem_flatMap.mpr ⟨c, there, hstr⟩
  simp only [texts, List.mem_append]
  exact .inr this

end ConsoleAgent.Valid

namespace Tables

variable {t t' : Tables} {id : CppString}

/-- The agent is there, and nothing that belongs to it. -/
structure Bare (t : Tables) (id : CppString) : Prop where
  there : id ∈ t.ids
  addresses : ∀ r ∈ t.ipAddresses, r.agentId ≠ id
  inCaps : ∀ r ∈ t.inCaps, r.agentId ≠ id
  outCaps : ∀ r ∈ t.outCaps, r.agentId ≠ id
  outCapNext : ∀ r ∈ t.outCaps, r.id < t.next.outCap
  configNext : ∀ r ∈ t.configs, r.outCapId < t.next.outCap

/-! ## Rows of one agent -/

/-- The rows of output capabilities with new ids. -/
def outRows (id : CppString) : Nat → List Capability → List OutCapRow
  | _, [] => []
  | next, c :: caps =>
    { id := next, agentId := id, name := c.name, version := c.version } ::
      outRows id (next + 1) caps

def configRows : Nat → List Capability → List ConfigRow
  | _, [] => []
  | next, c :: caps =>
    c.configurations.elems.map (fun name => { outCapId := next, name }) ++
      configRows (next + 1) caps

def addressRows (id : CppString) (addrs : List CppString) : List AddressRow :=
  addrs.map fun address => { agentId := id, address }

def inRows (id : CppString) (caps : List Capability) : List InCapRow :=
  caps.map fun c => { agentId := id, name := c.name, version := c.version }

theorem mem_outRows {next : Nat} {caps : List Capability} {r : OutCapRow}
    (h : r ∈ outRows id next caps) : r.agentId = id ∧ next ≤ r.id := by
  induction caps generalizing next with
  | nil => cases h
  | cons c caps ih =>
    obtain rfl | h := List.mem_cons.mp h
    · exact ⟨rfl, le_refl next⟩
    · have := ih h
      exact ⟨this.1, by omega⟩

theorem mem_configRows {next : Nat} {caps : List Capability} {r : ConfigRow}
    (h : r ∈ configRows next caps) : next ≤ r.outCapId := by
  induction caps generalizing next with
  | nil => cases h
  | cons c caps ih =>
    obtain h | h := List.mem_append.mp h
    · obtain ⟨name, -, rfl⟩ := List.mem_map.mp h
      exact le_refl next
    · have := ih h
      omega

/-- A statement that adds a row to one table, with the next id of its sequence, for each element
of a set. -/
theorem foldlM_rows {α ρ : Type} {stmt : Tables → α → Option Tables}
    (put : List ρ → Nat → Tables) (row : α → ρ) (as : List α)
    (one : ∀ rows n, ∀ a ∈ as, stmt (put rows n) a =
      if n < serialEnd then some (put (rows ++ [row a]) (n + 1)) else none)
    (rows : List ρ) {n : Nat} (start : n ≤ serialEnd) {t' : Tables} :
    as.foldlM stmt (put rows n) = some t' ↔
      n + as.length ≤ serialEnd ∧ t' = put (rows ++ as.map row) (n + as.length) := by
  induction as generalizing rows n with
  | nil => simp [start, eq_comm]
  | cons a as ih =>
    rw [List.foldlM_cons, one rows n a List.mem_cons_self, List.length_cons]
    by_cases left : n < serialEnd
    · rw [if_pos left, Option.bind_eq_bind, Option.bind_some,
        ih (fun rows n b hb => one rows n b (List.mem_cons_of_mem a hb)) _ left]
      simp [Nat.add_assoc, Nat.add_comm 1]
    · rw [if_neg left, Option.bind_eq_bind, Option.bind_none]
      simp only [reduceCtorEq, false_iff, not_and]
      omega

/-- The tables with the addresses of an agent -/
def withAddresses (t : Tables) (id : CppString) (addrs : List CppString) : Tables :=
  { t with
    ipAddresses := t.ipAddresses ++ addressRows id addrs
    next.ipAddress := t.next.ipAddress + addrs.length }

theorem foldlM_storeIpAddress (valid : ValidText id) (there : id ∈ t.ids)
    (within : t.next.Within) {addrs : List CppString}
    (texts : ∀ addr ∈ addrs, ValidText addr) :
    addrs.foldlM (fun t addr => t.storeIpAddress id addr) t = some t' ↔
      t.next.ipAddress + addrs.length ≤ serialEnd ∧ t' = t.withAddresses id addrs := by
  apply foldlM_rows (fun rows n => { t with ipAddresses := rows, next.ipAddress := n }) _ addrs _ _
    within.ipAddress
  intro rows n addr haddr
  have ids : id ∈ ({ t with ipAddresses := rows, next.ipAddress := n } : Tables).ids := there
  simp only [storeIpAddress, valid.textParam, (texts addr haddr).textParam, Option.bind_eq_bind,
    Option.bind_some, ids, true_and]

/-- The tables with the input capabilities of an agent -/
def withIn (t : Tables) (id : CppString) (caps : List Capability) : Tables :=
  { t with
    inCaps := t.inCaps ++ inRows id caps
    next.inCap := t.next.inCap + caps.length }

theorem foldlM_storeInCap (valid : ValidText id) (there : id ∈ t.ids)
    (within : t.next.Within) {caps : List Capability}
    (texts : ∀ c ∈ caps, ValidText c.name) :
    caps.foldlM (fun t c => t.storeInCap id c.name c.version) t = some t' ↔
      t.next.inCap + caps.length ≤ serialEnd ∧ t' = t.withIn id caps := by
  apply foldlM_rows (fun rows n => { t with inCaps := rows, next.inCap := n }) _ caps _ _
    within.inCap
  intro rows n c hc
  have ids : id ∈ ({ t with inCaps := rows, next.inCap := n } : Tables).ids := there
  simp only [storeInCap, valid.textParam, (texts c hc).textParam, Option.bind_eq_bind,
    Option.bind_some, ids, true_and]

theorem foldlM_storeConfig {outCapId : Nat} (there : outCapId ∈ t.outCaps.map OutCapRow.id)
    (within : t.next.config ≤ serialEnd) {names : List CppString}
    (texts : ∀ name ∈ names, ValidText name) :
    names.foldlM (fun t name => t.storeConfig outCapId name) t = some t' ↔
      t.next.config + names.length ≤ serialEnd ∧ t' = { t with
        configs := t.configs ++ names.map fun name => { outCapId, name }
        next.config := t.next.config + names.length } := by
  apply foldlM_rows
    (fun rows n => { t with configs := rows, next.config := n }) _ names _ _ within
  intro rows n name hname
  simp only [storeConfig, (texts name hname).textParam, Option.bind_eq_bind, Option.bind_some,
    there, true_and]

/-- The tables with output capabilities and their configurations -/
def withOut (t : Tables) (id : CppString) (caps : List Capability) : Tables :=
  { t with
    outCaps := t.outCaps ++ outRows id t.next.outCap caps
    configs := t.configs ++ configRows t.next.outCap caps
    next.outCap := t.next.outCap + caps.length
    next.config := t.next.config + configCount caps }

theorem storeOut_iff (valid : ValidText id) (there : id ∈ t.ids) (within : t.next.Within)
    {c : Capability} (texts : ∀ str ∈ c.texts, ValidText str) :
    storeOut id t c = some t' ↔ t.next.outCap + 1 ≤ serialEnd ∧
      t.next.config + c.configurations.elems.length ≤ serialEnd ∧ t' = t.withOut id [c] := by
  have name : ValidText c.name := texts _ List.mem_cons_self
  simp only [storeOut, storeOutCap, valid.textParam, name.textParam, Option.bind_eq_bind,
    Option.bind_some, there, true_and]
  by_cases left : t.next.outCap < serialEnd
  · let row : OutCapRow :=
      { id := t.next.outCap, agentId := id, name := c.name, version := c.version }
    let u : Tables :=
      { t with outCaps := t.outCaps ++ [row], next.outCap := t.next.outCap + 1 }
    have new : t.next.outCap ∈ u.outCaps.map OutCapRow.id := by simp [u, row]
    rw [if_pos left, Option.bind_some]
    refine (foldlM_storeConfig new within.config
      fun name there => texts name (List.mem_cons_of_mem _ there)).trans ?_
    simp only [withOut, outRows, configRows, configCount, List.append_nil, List.map_cons,
      List.map_nil, List.sum_cons, List.sum_nil, Nat.add_zero, List.length_singleton]
    exact (and_iff_right left).symm
  · rw [if_neg left, Option.bind_none]
    simp only [reduceCtorEq, false_iff, not_and]
    omega

theorem withOut_cons (t : Tables) (id : CppString) (c : Capability) (caps : List Capability) :
    (t.withOut id [c]).withOut id caps = t.withOut id (c :: caps) := by
  simp [withOut, outRows, configRows, configCount, Nat.add_right_comm, Nat.add_assoc]

theorem foldlM_storeOut (valid : ValidText id) (there : id ∈ t.ids) (within : t.next.Within)
    {caps : List Capability} (texts : ∀ c ∈ caps, ∀ str ∈ c.texts, ValidText str) :
    caps.foldlM (storeOut id) t = some t' ↔ t.next.outCap + caps.length ≤ serialEnd ∧
      t.next.config + configCount caps ≤ serialEnd ∧ t' = t.withOut id caps := by
  induction caps generalizing t with
  | nil => simp [withOut, outRows, configRows, configCount, within.outCap, within.config, eq_comm]
  | cons c caps ih =>
    obtain ⟨first, rest⟩ := List.forall_mem_cons.mp texts
    have one {u : Tables} := @storeOut_iff t u id valid there within c first
    have count : configCount (c :: caps) = c.configurations.elems.length + configCount caps := rfl
    rw [List.foldlM_cons, Option.bind_eq_bind, Option.bind_eq_some_iff, List.length_cons, count]
    constructor
    · rintro ⟨u, added, later⟩
      obtain ⟨outLeft, configLeft, rfl⟩ := one.mp added
      have within' : (t.withOut id [c]).next.Within :=
        ⟨within.ipAddress, within.inCap, outLeft, configLeft⟩
      obtain ⟨outs, configs, rfl⟩ := (ih (by exact there) within' rest).mp later
      rw [withOut_cons]
      have outs' : t.next.outCap + 1 + caps.length ≤ serialEnd := outs
      have configs' : t.next.config + (c.configurations.elems.length + 0) +
        configCount caps ≤ serialEnd := configs
      exact ⟨by omega, by omega, rfl⟩
    · rintro ⟨outs, configs, rfl⟩
      have outLeft : t.next.outCap + 1 ≤ serialEnd := by omega
      have configLeft : t.next.config + (c.configurations.elems.length + 0) ≤ serialEnd := by omega
      have within' : (t.withOut id [c]).next.Within :=
        ⟨within.ipAddress, within.inCap, outLeft, configLeft⟩
      refine ⟨_, one.mpr ⟨outLeft, configLeft, rfl⟩,
        (ih (by exact there) within' rest).mpr ⟨?_, ?_, ?_⟩⟩
      · show t.next.outCap + 1 + caps.length ≤ serialEnd
        omega
      · show t.next.config + (c.configurations.elems.length + 0) + configCount caps ≤ serialEnd
        omega
      · rw [withOut_cons]

/-- The tables with an agent's addresses and capabilities. -/
def withAgent (t : Tables) (ag : ConsoleAgent) : Tables :=
  { t with
    ipAddresses := t.ipAddresses ++ addressRows ag.id ag.ipAddresses.elems
    inCaps := t.inCaps ++ inRows ag.id ag.inCaps.elems
    outCaps := t.outCaps ++ outRows ag.id t.next.outCap ag.outCaps.elems
    configs := t.configs ++ configRows t.next.outCap ag.outCaps.elems
    next := t.next.after ag }

theorem storeIpsAndCaps_iff {ag : ConsoleAgent} (valid : ag.Valid) (there : ag.id ∈ t.ids)
    (within : t.next.Within) :
    storeIpsAndCaps t ag = some t' ↔ t.next.Room ag ∧ t' = t.withAgent ag := by
  have room : t.next.Room ag ↔ t.next.ipAddress + ag.ipAddresses.elems.length ≤ serialEnd ∧
      t.next.inCap + ag.inCaps.elems.length ≤ serialEnd ∧
      t.next.outCap + ag.outCaps.elems.length ≤ serialEnd ∧
      t.next.config + configCount ag.outCaps.elems ≤ serialEnd :=
    ⟨fun h => ⟨h.ipAddress, h.inCap, h.outCap, h.config⟩, fun ⟨a, b, c, d⟩ => ⟨a, b, c, d⟩⟩
  have addresses {u : Tables} :=
    @foldlM_storeIpAddress t u ag.id valid.id there within _ fun _ => valid.address
  rw [room]
  simp only [storeIpsAndCaps, Option.bind_eq_bind, Option.bind_eq_some_iff, addresses]
  constructor
  · rintro ⟨_, ⟨room₁, rfl⟩, _, ins, outs⟩
    have within₁ : (t.withAddresses ag.id ag.ipAddresses.elems).next.Within :=
      ⟨room₁, within.inCap, within.outCap, within.config⟩
    obtain ⟨room₂, rfl⟩ := (foldlM_storeInCap valid.id (by exact there) within₁
      fun _ => valid.inCap).mp ins
    have within₂ : ((t.withAddresses ag.id ag.ipAddresses.elems).withIn ag.id
        ag.inCaps.elems).next.Within := ⟨room₁, room₂, within.outCap, within.config⟩
    obtain ⟨room₃, room₄, rfl⟩ := (foldlM_storeOut valid.id (by exact there) within₂
      fun _ => valid.outCap).mp outs
    exact ⟨⟨room₁, room₂, room₃, room₄⟩, rfl⟩
  · rintro ⟨⟨room₁, room₂, room₃, room₄⟩, rfl⟩
    have within₁ : (t.withAddresses ag.id ag.ipAddresses.elems).next.Within :=
      ⟨room₁, within.inCap, within.outCap, within.config⟩
    have within₂ : ((t.withAddresses ag.id ag.ipAddresses.elems).withIn ag.id
        ag.inCaps.elems).next.Within := ⟨room₁, room₂, within.outCap, within.config⟩
    refine ⟨_, ⟨room₁, rfl⟩, _, (foldlM_storeInCap valid.id (by exact there) within₁
      fun _ => valid.inCap).mpr ⟨room₂, rfl⟩, ?_⟩
    exact (foldlM_storeOut valid.id (by exact there) within₂
      fun _ => valid.outCap).mpr ⟨room₃, room₄, rfl⟩

/-! ## Queries -/

section
variable {ag : ConsoleAgent} {other : CppString}

theorem filter_none {ρ κ : Type} [DecidableEq κ] {key : ρ → κ} {rows : List ρ} {k : κ}
    (h : ∀ r ∈ rows, key r ≠ k) : rows.filter (key · = k) = [] := by
  rw [List.filter_eq_nil_iff]
  intro r hr
  simpa using h r hr

theorem filter_all {ρ κ : Type} [DecidableEq κ] {key : ρ → κ} {rows : List ρ} {k : κ}
    (h : ∀ r ∈ rows, key r = k) : rows.filter (key · = k) = rows := by
  rw [List.filter_eq_self]
  intro r hr
  simpa using h r hr

theorem retrieveIps_own (bare : t.Bare ag.id) :
    retrieveIps (t.withAgent ag) ag.id = ag.ipAddresses := by
  have new : ∀ r ∈ addressRows ag.id ag.ipAddresses.elems, r.agentId = ag.id := by
    intro r hr
    obtain ⟨_, -, rfl⟩ := List.mem_map.mp hr
    rfl
  apply OrderedSet.ofList_of_perm
  rw [withAgent, List.filter_append, filter_none bare.addresses, filter_all new]
  simp [addressRows, Function.comp_def]

/-- An input capability without its configurations. -/
def bareCap (c : Capability) : Capability := { c with configurations := .empty }

theorem retrieveInCaps_own (bare : t.Bare ag.id) : retrieveInCaps (t.withAgent ag) ag.id =
    .ofList Capability.name (ag.inCaps.elems.map bareCap) := by
  have new : ∀ r ∈ inRows ag.id ag.inCaps.elems, r.agentId = ag.id := by
    intro r hr
    obtain ⟨_, -, rfl⟩ := List.mem_map.mp hr
    rfl
  rw [retrieveInCaps, withAgent, List.filter_append, filter_none bare.inCaps, filter_all new]
  rw [List.nil_append, inRows, List.map_map]
  rfl

/-- Each output capability finds its configurations under its new id. -/
theorem map_outRows (next : Nat) (caps : List Capability) {configs : List ConfigRow}
    (older : ∀ r ∈ configs, r.outCapId < next) {t : Tables}
    (all : t.configs = configs ++ configRows next caps) :
    (outRows id next caps).map (fun r =>
      ({ name := r.name, version := r.version,
         configurations := retrieveConfigs t r.id } : Capability)) = caps := by
  induction caps generalizing next configs with
  | nil => rfl
  | cons c caps ih =>
    have own : retrieveConfigs t next = c.configurations := by
      have above : ∀ r ∈ configRows (next + 1) caps, r.outCapId ≠ next := by
        intro r hr
        have := mem_configRows hr
        omega
      have below : ∀ r ∈ configs, r.outCapId ≠ next := fun r hr => Nat.ne_of_lt (older r hr)
      apply OrderedSet.ofList_of_perm
      rw [all, configRows, List.filter_append, List.filter_append, filter_none below,
        filter_none above, filter_all (by simp)]
      simp [Function.comp_def]
    have older' : ∀ r ∈ configs ++ c.configurations.elems.map (ConfigRow.mk next),
        r.outCapId < next + 1 := by
      intro r hr
      obtain hr | hr := List.mem_append.mp hr
      · have := older r hr
        omega
      · obtain ⟨_, -, rfl⟩ := List.mem_map.mp hr
        exact Nat.lt_succ_self next
    have rest := ih (next + 1) older' (by rw [all, configRows, List.append_assoc])
    rw [outRows, List.map_cons, rest, own]

theorem retrieveOutCaps_own (bare : t.Bare ag.id) :
    retrieveOutCaps (t.withAgent ag) ag.id = ag.outCaps := by
  have new : ∀ r ∈ outRows ag.id t.next.outCap ag.outCaps.elems, r.agentId = ag.id :=
    fun r hr => (mem_outRows hr).1
  have rows : (t.withAgent ag).outCaps.filter (·.agentId = ag.id) =
      outRows ag.id t.next.outCap ag.outCaps.elems := by
    rw [withAgent, List.filter_append, filter_none bare.outCaps, filter_all new, List.nil_append]
  apply OrderedSet.ofList_of_perm
  rw [rows, map_outRows t.next.outCap ag.outCaps.elems bare.configNext rfl]

/-! ### Other agents -/

theorem retrieveIps_other (h : other ≠ ag.id) :
    retrieveIps (t.withAgent ag) other = retrieveIps t other := by
  have new : ∀ r ∈ addressRows ag.id ag.ipAddresses.elems, r.agentId ≠ other := by
    intro r hr
    obtain ⟨_, -, rfl⟩ := List.mem_map.mp hr
    exact h.symm
  rw [retrieveIps, withAgent, List.filter_append, filter_none new, List.append_nil, retrieveIps]

theorem retrieveInCaps_other (h : other ≠ ag.id) :
    retrieveInCaps (t.withAgent ag) other = retrieveInCaps t other := by
  have new : ∀ r ∈ inRows ag.id ag.inCaps.elems, r.agentId ≠ other := by
    intro r hr
    obtain ⟨_, -, rfl⟩ := List.mem_map.mp hr
    exact h.symm
  rw [retrieveInCaps, withAgent, List.filter_append, filter_none new, List.append_nil,
    retrieveInCaps]

theorem retrieveConfigs_older {n : Nat} (h : n < t.next.outCap) :
    retrieveConfigs (t.withAgent ag) n = retrieveConfigs t n := by
  have new : ∀ r ∈ configRows t.next.outCap ag.outCaps.elems, r.outCapId ≠ n := by
    intro r hr
    have := mem_configRows hr
    omega
  rw [retrieveConfigs, withAgent, List.filter_append, filter_none new, List.append_nil,
    retrieveConfigs]

theorem retrieveOutCaps_other (bare : t.Bare ag.id) (h : other ≠ ag.id) :
    retrieveOutCaps (t.withAgent ag) other = retrieveOutCaps t other := by
  have new : ∀ r ∈ outRows ag.id t.next.outCap ag.outCaps.elems, r.agentId ≠ other := by
    intro r hr
    rw [(mem_outRows hr).1]
    exact h.symm
  have rows : (t.withAgent ag).outCaps.filter (·.agentId = other) =
      t.outCaps.filter (·.agentId = other) := by
    rw [withAgent, List.filter_append, filter_none new, List.append_nil]
  rw [retrieveOutCaps, rows, retrieveOutCaps]
  congr 1
  apply List.map_congr_left
  intro r hr
  have older := bare.outCapNext r (List.mem_of_mem_filter hr)
  rw [retrieveConfigs_older older]

theorem retrieveAgent_other (clocks : Clocks) (bare : t.Bare ag.id) {r : AgentRow}
    (h : r.id ≠ ag.id) : retrieveAgent (t.withAgent ag) clocks r = retrieveAgent t clocks r := by
  simp only [retrieveAgent, retrieveIps_other h, retrieveInCaps_other h,
    retrieveOutCaps_other bare h]

end

/-! ## The tables before the rows are stored -/

section
variable {ag : ConsoleAgent}

theorem Consistent.configNext (h : t.Consistent) : ∀ r ∈ t.configs, r.outCapId < t.next.outCap := by
  intro r hr
  obtain ⟨o, ho, same⟩ := h.configRefs r hr
  exact same ▸ h.outCapNext o ho

/-- Rows of a new agent would refer to it. -/
theorem bare_storeAgent (h : t.Consistent) (new : ag.id ∉ t.ids) :
    Bare { t with agents := t.agents ++ [ownRow ag] } ag.id where
  there := by simp [ids, ownRow]
  addresses r hr same := new (same ▸ h.addressRefs r hr)
  inCaps r hr same := new (same ▸ h.inCapRefs r hr)
  outCaps r hr same := new (same ▸ h.outCapRefs r hr)
  outCapNext := h.outCapNext
  configNext := h.configNext

/-- What is left of the tables when an agent is updated. -/
def cleared (t : Tables) (ag : ConsoleAgent) : Tables :=
  { t with
    agents := t.agents.map fun r => if r.id = ag.id then ownRow ag else r
    ipAddresses := t.ipAddresses.filter (·.agentId ≠ ag.id)
    inCaps := t.inCaps.filter (·.agentId ≠ ag.id)
    outCaps := t.outCaps.filter (·.agentId ≠ ag.id)
    configs := t.configs.filter fun c =>
      ¬ ∃ o ∈ t.outCaps, o.agentId = ag.id ∧ o.id = c.outCapId }

theorem ids_map_update (t : Tables) (ag : ConsoleAgent) :
    (t.agents.map fun r => if r.id = ag.id then ownRow ag else r).map AgentRow.id = t.ids := by
  rw [List.map_map, ids]
  apply List.map_congr_left
  intro r _
  by_cases same : r.id = ag.id
  · simp [same, ownRow]
  · simp [same]

theorem bare_cleared (h : t.Consistent) (old : ag.id ∈ t.ids) : (t.cleared ag).Bare ag.id where
  there := by
    show ag.id ∈ (t.agents.map fun r => if r.id = ag.id then ownRow ag else r).map AgentRow.id
    rwa [ids_map_update]
  addresses r hr := by simpa using List.of_mem_filter hr
  inCaps r hr := by simpa using List.of_mem_filter hr
  outCaps r hr := by simpa using List.of_mem_filter hr
  outCapNext r hr := h.outCapNext r (List.mem_of_mem_filter hr)
  configNext r hr := h.configNext r (List.mem_of_mem_filter hr)

theorem store_iff (h : t.Consistent) (valid : ag.Valid) (new : ag.id ∉ t.ids) :
    store t ag = some t' ↔ t.next.Room ag ∧
      t' = withAgent { t with agents := t.agents ++ [ownRow ag] } ag := by
  have added : t.storeAgent (ownRow ag) = some { t with agents := t.agents ++ [ownRow ag] } :=
    if_neg new
  rw [store, valid.agentRow, Option.bind_eq_bind, Option.bind_some, added, Option.bind_eq_bind,
    Option.bind_some, storeIpsAndCaps_iff valid (bare_storeAgent h new).there h.next]

theorem update_iff (h : t.Consistent) (valid : ag.Valid) (old : ag.id ∈ t.ids) :
    update t ag = some t' ↔ t.next.Room ag ∧ t' = (t.cleared ag).withAgent ag := by
  have deleted : ({ t with
      agents := t.agents.map fun r => if r.id = ag.id then ownRow ag else r
      ipAddresses := t.ipAddresses.filter (·.agentId ≠ ag.id)
      inCaps := t.inCaps.filter (·.agentId ≠ ag.id)
      configs := t.configs.filter fun c =>
        ¬ ∃ o ∈ t.outCaps, o.agentId = ag.id ∧ o.id = c.outCapId } : Tables).deleteOutCap ag.id =
        some (t.cleared ag) := by
    rw [deleteOutCap, valid.id.textParam, Option.bind_eq_bind, Option.bind_some]
    apply if_neg
    rintro ⟨c, hc, o, ho, mine, same⟩
    have free := List.of_mem_filter hc
    simp only [decide_eq_true_eq] at free
    exact free ⟨o, ho, mine, same⟩
  simp only [update, valid.agentRow, updateAgent, deleteIpAddress, deleteInCap,
    deleteConfiguration, valid.id.textParam, Option.bind_eq_bind, Option.bind_some]
  rw [show (ownRow ag).id = ag.id from rfl, deleted, Option.bind_some,
    storeIpsAndCaps_iff valid (bare_cleared h old).there h.next]
  rfl

/-- The configurations of other agents are not deleted. -/
theorem retrieveConfigs_cleared (h : t.Consistent) {r : OutCapRow} (hr : r ∈ t.outCaps)
    (other : r.agentId ≠ ag.id) : retrieveConfigs (t.cleared ag) r.id = retrieveConfigs t r.id := by
  rw [retrieveConfigs, retrieveConfigs, cleared, List.filter_filter]
  congr 2
  apply List.filter_congr
  intro c _
  simp only [Bool.and_eq_left_iff_imp, decide_eq_true_eq]
  rintro same ⟨o, ho, mine, id⟩
  have : o = r := List.inj_on_of_nodup_map h.outCapIds ho hr (id.trans same)
  exact other (this ▸ mine)

theorem filter_cleared {ρ : Type} {key : ρ → CppString} {rows : List ρ} {other : CppString}
    (h : other ≠ ag.id) :
    (rows.filter (key · ≠ ag.id)).filter (key · = other) = rows.filter (key · = other) := by
  rw [List.filter_filter]
  apply List.filter_congr
  intro r _
  by_cases same : key r = other
  · simp [same, h]
  · simp [same]

theorem retrieveAgent_cleared (clocks : Clocks) (h : t.Consistent) {r : AgentRow}
    (other : r.id ≠ ag.id) : retrieveAgent (t.cleared ag) clocks r = retrieveAgent t clocks r := by
  have ips : retrieveIps (t.cleared ag) r.id = retrieveIps t r.id := by
    rw [retrieveIps, cleared, filter_cleared other, retrieveIps]
  have ins : retrieveInCaps (t.cleared ag) r.id = retrieveInCaps t r.id := by
    rw [retrieveInCaps, cleared, filter_cleared other, retrieveInCaps]
  have outs : retrieveOutCaps (t.cleared ag) r.id = retrieveOutCaps t r.id := by
    have rows : (t.cleared ag).outCaps.filter (·.agentId = r.id) =
        t.outCaps.filter (·.agentId = r.id) := filter_cleared other
    rw [retrieveOutCaps, rows, retrieveOutCaps]
    congr 1
    apply List.map_congr_left
    intro o ho
    have mine : o.agentId = r.id := by simpa using List.of_mem_filter ho
    rw [retrieveConfigs_cleared h (List.mem_of_mem_filter ho) (mine ▸ other)]
  simp only [retrieveAgent, ips, ins, outs]

end

end Tables

/-! ## Texts that come back -/

theorem validText_nil : ValidText [] := by decide

theorem agentRow_valid {ag : ConsoleAgent} {row : AgentRow} (h : agentRow ag = some row) :
    ∀ str ∈ row.texts, ValidText str := by
  have nullable {str : CppString} {field : Option CppString} (h : nullableParam str = some field) :
      ∀ text ∈ field.toList, ValidText text := by
    rw [nullableParam] at h
    split at h
    · cases h
      exact fun _ there => by cases there
    · obtain ⟨text, param, rfl⟩ := Option.map_eq_some_iff.mp h
      intro other there
      cases List.mem_singleton.mp there
      exact validText_of_textParam param
  simp only [agentRow, Option.bind_eq_bind, Option.bind_eq_some_iff, Option.some_inj] at h
  obtain ⟨id, hid, host, hhost, machine, hmachine, system, hsystem, version, hversion, release,
    hrelease, rfl⟩ := h
  intro str hstr
  rcases List.mem_cons.mp hstr with rfl | hstr
  · exact validText_of_textParam hid
  · obtain ⟨field, there, own⟩ := List.mem_flatMap.mp hstr
    simp only [List.mem_cons, List.not_mem_nil, or_false] at there
    obtain rfl | rfl | rfl | rfl | rfl := there
    · exact nullable hhost str own
    · exact nullable hmachine str own
    · exact nullable hsystem str own
    · exact nullable hversion str own
    · exact nullable hrelease str own

namespace Tables.Texts

variable {t t' : Tables} (h : t.Texts)
include h

theorem storeIpAddress {agentId address : CppString}
    (stored : t.storeIpAddress agentId address = some t') : t'.Texts := by
  simp only [Tables.storeIpAddress, Option.bind_eq_bind, Option.bind_eq_some_iff] at stored
  obtain ⟨_, -, text, param, stored⟩ := stored
  split at stored
  · cases stored
    exact { h with
      addresses := List.forall_mem_append.mpr
        ⟨h.addresses, by simpa using validText_of_textParam param⟩ }
  · cases stored

theorem storeInCap {agentId name : CppString} {version : Int32}
    (stored : t.storeInCap agentId name version = some t') : t'.Texts := by
  simp only [Tables.storeInCap, Option.bind_eq_bind, Option.bind_eq_some_iff] at stored
  obtain ⟨_, -, text, param, stored⟩ := stored
  split at stored
  · cases stored
    exact { h with
      inCaps := List.forall_mem_append.mpr
        ⟨h.inCaps, by simpa using validText_of_textParam param⟩ }
  · cases stored

theorem storeConfig {outCapId : Nat} {name : CppString}
    (stored : t.storeConfig outCapId name = some t') : t'.Texts := by
  simp only [Tables.storeConfig, Option.bind_eq_bind, Option.bind_eq_some_iff] at stored
  obtain ⟨text, param, stored⟩ := stored
  split at stored
  · cases stored
    exact { h with
      configs := List.forall_mem_append.mpr
        ⟨h.configs, by simpa using validText_of_textParam param⟩ }
  · cases stored

theorem storeOut {agentId : CppString} {out : Capability}
    (stored : storeOut agentId t out = some t') : t'.Texts := by
  simp only [Yella.storeOut, storeOutCap, Option.bind_eq_bind, Option.bind_eq_some_iff] at stored
  obtain ⟨⟨u, id⟩, ⟨_, -, text, param, stored⟩, configs⟩ := stored
  split at stored
  · cases stored
    apply Fallible.foldlM_keeps (fun _ _ _ texts => texts.storeConfig) _ configs
    exact { h with
      outCaps := List.forall_mem_append.mpr
        ⟨h.outCaps, by simpa using validText_of_textParam param⟩ }
  · cases stored

theorem storeIpsAndCaps {ag : ConsoleAgent} (stored : storeIpsAndCaps t ag = some t') :
    t'.Texts := by
  simp only [Yella.storeIpsAndCaps, Option.bind_eq_bind, Option.bind_eq_some_iff] at stored
  obtain ⟨t₁, addrs, t₂, ins, outs⟩ := stored
  have h₁ := Fallible.foldlM_keeps (fun _ _ _ texts => storeIpAddress texts) h addrs
  have h₂ := Fallible.foldlM_keeps (fun _ _ _ texts => storeInCap texts) h₁ ins
  exact Fallible.foldlM_keeps (fun _ _ _ texts => storeOut texts) h₂ outs

theorem store {ag : ConsoleAgent} (stored : store t ag = some t') : t'.Texts := by
  simp only [Yella.store, storeAgent, Option.bind_eq_bind, Option.bind_eq_some_iff] at stored
  obtain ⟨row, packed, t₁, added, stored⟩ := stored
  split at added
  · cases added
  · cases added
    refine storeIpsAndCaps ?_ stored
    exact { h with
      agents := List.forall_mem_append.mpr
        ⟨h.agents, by simpa using agentRow_valid packed⟩ }

theorem update {ag : ConsoleAgent} (stored : update t ag = some t') : t'.Texts := by
  simp only [Yella.update, updateAgent, deleteIpAddress, deleteInCap, deleteConfiguration,
    deleteOutCap, Option.bind_eq_bind, Option.bind_eq_some_iff, Option.some_inj] at stored
  obtain ⟨row, packed, _, ⟨_, -, rfl⟩, _, ⟨_, -, rfl⟩, _, ⟨_, -, rfl⟩, t₁, ⟨_, -, deleted⟩,
    stored⟩ := stored
  split at deleted
  · cases deleted
  · cases deleted
    refine storeIpsAndCaps ⟨?_, ?_, ?_, ?_, ?_⟩ stored
    · intro r hr
      obtain ⟨old, hold, rfl⟩ := List.mem_map.mp hr
      split
      · exact agentRow_valid packed
      · exact h.agents old hold
    · exact fun r hr => h.addresses r (List.mem_of_mem_filter hr)
    · exact fun r hr => h.inCaps r (List.mem_of_mem_filter hr)
    · exact fun r hr => h.outCaps r (List.mem_of_mem_filter hr)
    · exact fun r hr => h.configs r (List.mem_of_mem_filter hr)

/-- Nothing comes back that a column cannot hold. -/
theorem retrieved {clocks : Clocks} {ag : ConsoleAgent} (there : ag ∈ retrieveAgents t clocks) :
    ag.Valid := by
  obtain ⟨r, hr, rfl⟩ := List.mem_map.mp there
  have field {f : Option CppString}
      (hf : f ∈ [r.host, r.machine, r.operatingSystem, r.osVersion, r.osRelease]) :
      ValidText (f.getD []) := by
    cases f with
    | none => exact validText_nil
    | some text =>
      exact h.agents r hr text (List.mem_cons_of_mem _ (List.mem_flatMap.mpr ⟨_, hf, by simp⟩))
  intro str hstr
  simp only [ConsoleAgent.texts, retrieveAgent, List.mem_append, List.mem_cons, List.not_mem_nil,
    or_false] at hstr
  rcases hstr with ((hstr | hstr) | hstr) | hstr
  · obtain rfl | rfl | rfl | rfl | rfl | rfl := hstr
    · exact h.agents r hr _ List.mem_cons_self
    · exact field (by simp)
    · exact field (by simp)
    · exact field (by simp)
    · exact field (by simp)
    · exact field (by simp)
  · have := List.mem_of_find?_eq_some (OrderedSet.mem_ofList.mp hstr)
    obtain ⟨row, hrow, rfl⟩ := List.mem_map.mp this
    exact h.addresses row (List.mem_of_mem_filter hrow)
  · obtain ⟨c, hc, rfl⟩ := List.mem_map.mp hstr
    have := List.mem_of_find?_eq_some (OrderedSet.mem_ofList.mp hc)
    obtain ⟨row, hrow, rfl⟩ := List.mem_map.mp this
    exact h.inCaps row (List.mem_of_mem_filter hrow)
  · obtain ⟨c, hc, hstr⟩ := List.mem_flatMap.mp hstr
    have := List.mem_of_find?_eq_some (OrderedSet.mem_ofList.mp hc)
    obtain ⟨row, hrow, rfl⟩ := List.mem_map.mp this
    rcases List.mem_cons.mp hstr with rfl | hstr
    · exact h.outCaps row (List.mem_of_mem_filter hrow)
    · have := List.mem_of_find?_eq_some (OrderedSet.mem_ofList.mp hstr)
      obtain ⟨config, hconfig, rfl⟩ := List.mem_map.mp this
      exact h.configs config (List.mem_of_mem_filter hconfig)

end Tables.Texts

/-! ## The agent that comes back -/

/-- The agent with that id is this one, and the others are those of before. -/
structure AgentKept (clocks : Clocks) (before after : Tables) (ag : ConsoleAgent) : Prop where
  own : (retrieveAgents after clocks).filter (·.id = ag.id) = [ag]
  others : (retrieveAgents after clocks).filter (·.id ≠ ag.id) =
    (retrieveAgents before clocks).filter (·.id ≠ ag.id)

/-- `mktime` takes back the offset that the database has added. -/
def SameOffset (clocks : Clocks) (seconds : Int) : Prop :=
  clocks.process (Calendar.civilOf (seconds + clocks.session seconds)) = clocks.session seconds

/-- The agent has nothing that is lost on the way. -/
structure Storable (clocks : Clocks) (ag : ConsoleAgent) : Prop where
  texts : ag.Valid
  inCaps : ∀ c ∈ ag.inCaps, c.configurations = .empty
  offset : SameOffset clocks ag.when.toInt

/-- What comes back for an agent. -/
def returned (clocks : Clocks) (ag : ConsoleAgent) : ConsoleAgent :=
  { ag with
    when := timestampField clocks (timestampText clocks (Calendar.secondsOf (timestampParam ag)))
    inCaps := .ofList Capability.name (ag.inCaps.elems.map Tables.bareCap) }

section
variable {clocks : Clocks} {ag : ConsoleAgent} {t t' : Tables}

theorem getD_nullIfEmpty (str : CppString) : (nullIfEmpty str).getD [] = str := by
  cases str <;> rfl

theorem retrieveAgent_own (bare : t.Bare ag.id) :
    retrieveAgent (t.withAgent ag) clocks (ownRow ag) = returned clocks ag := by
  simp only [retrieveAgent, ownRow, getD_nullIfEmpty, Tables.retrieveIps_own bare,
    Tables.retrieveInCaps_own bare, Tables.retrieveOutCaps_own bare, returned]

theorem timestampField_eq_iff (when : Int64) : timestampField clocks (timestampText clocks
    (Calendar.secondsOf (Calendar.civilOf when.toInt))) = when ↔ SameOffset clocks when.toInt := by
  rw [Calendar.secondsOf_civilOf, timestampText, timestampField, Calendar.secondsOf_civilOf,
    SameOffset, Subtype.ext_iff]
  have session := (clocks.session when.toInt).2
  have process := (clocks.process (Calendar.civilOf (when.toInt + clocks.session when.toInt))).2
  have lo := Int64.le_toInt when
  have hi := Int64.toInt_lt when
  rw [Int64.ofInt_eq_iff_bmod_eq_toInt, Int.bmod_def]
  omega

theorem inCaps_kept_iff : OrderedSet.ofList Capability.name (ag.inCaps.elems.map Tables.bareCap) =
    ag.inCaps ↔ ∀ c ∈ ag.inCaps, c.configurations = .empty := by
  constructor
  · intro same c hc
    rw [← same] at hc
    have := List.mem_of_find?_eq_some (OrderedSet.mem_ofList.mp hc)
    obtain ⟨d, -, rfl⟩ := List.mem_map.mp this
    rfl
  · intro bare
    apply OrderedSet.ofList_of_perm
    have : ag.inCaps.elems.map Tables.bareCap = ag.inCaps.elems := by
      nth_rewrite 2 [← List.map_id ag.inCaps.elems]
      apply List.map_congr_left
      intro c hc
      rw [Tables.bareCap, ← bare c hc]
      rfl
    rw [this]

theorem returned_eq_iff (valid : ag.Valid) : returned clocks ag = ag ↔ Storable clocks ag := by
  have parts : returned clocks ag = ag ↔
      timestampField clocks (timestampText clocks (Calendar.secondsOf (timestampParam ag))) =
        ag.when ∧
      OrderedSet.ofList Capability.name (ag.inCaps.elems.map Tables.bareCap) = ag.inCaps := by
    rw [ConsoleAgent.ext_iff]
    simp [returned]
  rw [parts, timestampParam, timestampField_eq_iff, inCaps_kept_iff]
  exact ⟨fun h => ⟨valid, h.2, h.1⟩, fun h => ⟨h.offset, h.inCaps⟩⟩

/-- One row is the agent's, and the rows of the others have not changed. -/
theorem agentKept_iff (valid : ag.Valid) (mine : t'.agents.filter (·.id = ag.id) = [ownRow ag])
    (own : retrieveAgent t' clocks (ownRow ag) = returned clocks ag)
    (rest : t'.agents.filter (·.id ≠ ag.id) = t.agents.filter (·.id ≠ ag.id))
    (others : ∀ r, r.id ≠ ag.id → retrieveAgent t' clocks r = retrieveAgent t clocks r) :
    AgentKept clocks t t' ag ↔ Storable clocks ag := by
  have one : (retrieveAgents t' clocks).filter (·.id = ag.id) = [returned clocks ag] := by
    have := congrArg (List.map (retrieveAgent t' clocks)) mine
    rw [List.map_singleton, own] at this
    rw [retrieveAgents, List.filter_map]
    exact this
  have same : (retrieveAgents t' clocks).filter (·.id ≠ ag.id) =
      (retrieveAgents t clocks).filter (·.id ≠ ag.id) := by
    have kept : (t'.agents.filter (·.id ≠ ag.id)).map (retrieveAgent t' clocks) =
        (t.agents.filter (·.id ≠ ag.id)).map (retrieveAgent t clocks) := by
      rw [rest]
      apply List.map_congr_left
      intro r hr
      exact others r (by simpa using List.of_mem_filter hr)
    rw [retrieveAgents, retrieveAgents, List.filter_map, List.filter_map]
    exact kept
  rw [← returned_eq_iff valid]
  constructor
  · intro h
    have := h.own
    rw [one, List.singleton_inj] at this
    exact this
  · intro h
    exact ⟨by rw [one, h], same⟩

theorem agentKept_store (clocks : Clocks) (h : t.Consistent) (valid : ag.Valid)
    (new : ag.id ∉ t.ids) : AgentKept clocks t
      (Tables.withAgent { t with agents := t.agents ++ [ownRow ag] } ag) ag ↔
      Storable clocks ag := by
  have bare := Tables.bare_storeAgent h new
  have fresh : ∀ r ∈ t.agents, r.id ≠ ag.id := by
    intro r hr same
    exact new (List.mem_map.mpr ⟨r, hr, same⟩)
  apply agentKept_iff valid
  · show (t.agents ++ [ownRow ag]).filter (·.id = ag.id) = [ownRow ag]
    rw [List.filter_append, Tables.filter_none fresh]
    simp [ownRow]
  · exact retrieveAgent_own bare
  · show (t.agents ++ [ownRow ag]).filter (·.id ≠ ag.id) = t.agents.filter (·.id ≠ ag.id)
    simp [ownRow]
  · intro r other
    exact Tables.retrieveAgent_other clocks bare other

theorem filter_update {rows : List AgentRow} (nodup : (rows.map AgentRow.id).Nodup)
    (old : ag.id ∈ rows.map AgentRow.id) :
    (rows.map fun r => if r.id = ag.id then ownRow ag else r).filter (·.id = ag.id) =
      [ownRow ag] := by
  induction rows with
  | nil => cases old
  | cons r rows ih =>
    obtain ⟨fresh, nodup⟩ := List.nodup_cons.mp nodup
    by_cases same : r.id = ag.id
    · have rest : (rows.map fun r => if r.id = ag.id then ownRow ag else r).filter
          (·.id = ag.id) = [] := by
        apply Tables.filter_none
        intro r' hr'
        obtain ⟨q, hq, rfl⟩ := List.mem_map.mp hr'
        have : q.id ≠ ag.id := fun h => fresh (List.mem_map.mpr ⟨q, hq, h.trans same.symm⟩)
        rwa [if_neg this]
      rw [List.map_cons, if_pos same, List.filter_cons_of_pos (by simp [ownRow]), rest]
    · have old : ag.id ∈ rows.map AgentRow.id := (List.mem_cons.mp old).resolve_left (Ne.symm same)
      rw [List.map_cons, if_neg same, List.filter_cons_of_neg (by simpa using same), ih nodup old]

theorem agentKept_update (clocks : Clocks) (h : t.Consistent) (valid : ag.Valid)
    (old : ag.id ∈ t.ids) :
    AgentKept clocks t ((t.cleared ag).withAgent ag) ag ↔ Storable clocks ag := by
  have bare := Tables.bare_cleared h old
  apply agentKept_iff valid
  · exact filter_update h.ids old
  · exact retrieveAgent_own bare
  · show (t.agents.map fun r => if r.id = ag.id then ownRow ag else r).filter (·.id ≠ ag.id) = _
    rw [List.filter_map]
    have kept : (t.agents.filter (·.id ≠ ag.id)).map
        (fun r => if r.id = ag.id then ownRow ag else r) = t.agents.filter (·.id ≠ ag.id) := by
      nth_rewrite 2 [← List.map_id (t.agents.filter (·.id ≠ ag.id))]
      apply List.map_congr_left
      intro r hr
      have : r.id ≠ ag.id := by simpa using List.of_mem_filter hr
      rw [if_neg this, id]
    rw [← kept]
    congr 1
    apply List.filter_congr
    intro r _
    by_cases same : r.id = ag.id
    · simp [same, ownRow]
    · simp [same]
  · intro r other
    rw [Tables.retrieveAgent_other clocks bare other, Tables.retrieveAgent_cleared clocks h other]

theorem AgentKept.mem (kept : AgentKept clocks t t' ag) : ag ∈ retrieveAgents t' clocks :=
  List.mem_of_mem_filter (kept.own ▸ List.mem_singleton.mpr rfl)

/-- A new agent that is stored, or an old one that is updated, comes back as it is and leaves
the others as they are, exactly when it is storable and there are ids for its rows. -/
theorem store_keeps_agents_iff (clocks : Clocks) (t : Tables) (ag : ConsoleAgent)
    (consistent : t.Consistent) :
    (∃ t', (if ag.id ∈ t.ids then update t ag else store t ag) = some t' ∧
      AgentKept clocks t t' ag) ↔ Storable clocks ag ∧ t.next.Room ag := by
  by_cases old : ag.id ∈ t.ids
  · rw [if_pos old]
    constructor
    · rintro ⟨t', updated, kept⟩
      have valid := (consistent.texts.update updated).retrieved kept.mem
      obtain ⟨room, rfl⟩ := (Tables.update_iff consistent valid old).mp updated
      exact ⟨(agentKept_update clocks consistent valid old).mp kept, room⟩
    · rintro ⟨storable, room⟩
      exact ⟨_, (Tables.update_iff consistent storable.texts old).mpr ⟨room, rfl⟩,
        (agentKept_update clocks consistent storable.texts old).mpr storable⟩
  · rw [if_neg old]
    constructor
    · rintro ⟨t', stored, kept⟩
      have valid := (consistent.texts.store stored).retrieved kept.mem
      obtain ⟨room, rfl⟩ := (Tables.store_iff consistent valid old).mp stored
      exact ⟨(agentKept_store clocks consistent valid old).mp kept, room⟩
    · rintro ⟨storable, room⟩
      exact ⟨_, (Tables.store_iff consistent storable.texts old).mpr ⟨room, rfl⟩,
        (agentKept_store clocks consistent storable.texts old).mpr storable⟩

end

def emptyTables : Tables where
  agents := []
  ipAddresses := []
  inCaps := []
  outCaps := []
  configs := []
  next := { ipAddress := 1, inCap := 1, outCap := 1, config := 1 }

theorem emptyTables_consistent : emptyTables.Consistent where
  texts := ⟨by simp [emptyTables], by simp [emptyTables], by simp [emptyTables],
    by simp [emptyTables], by simp [emptyTables]⟩
  next := ⟨by decide, by decide, by decide, by decide⟩
  ids := List.nodup_nil
  addressRefs _ h := by cases h
  inCapRefs _ h := by cases h
  outCapRefs _ h := by cases h
  outCapIds := List.nodup_nil
  outCapNext _ h := by cases h
  configRefs _ h := by cases h

/-- The connection is in UTC, and the process is at a constant offset. -/
def clocksAt (process : UtcOffset) : Clocks where
  session _ := ⟨0, by decide⟩
  process _ := process

/-- An agent with one input capability. -/
def agentWith (host : CppString) (configs : List CppString) : ConsoleAgent where
  when := 1
  id := [105]
  host := host
  ipAddresses := .ofList id [[49]]
  operatingSystem := { machine := [109], version := [118], system := [115], release := [114] }
  inCaps := .ofList Capability.name
    [{ name := [97], version := 1, configurations := .ofList id configs }]
  outCaps := .empty

theorem store_keeps_agents_empty :
    (∃ t', (if (agentWith [104] []).id ∈ emptyTables.ids then
        update emptyTables (agentWith [104] []) else store emptyTables (agentWith [104] [])) =
          some t' ∧
      AgentKept (clocksAt ⟨0, by decide⟩) emptyTables t' (agentWith [104] [])) ↔
      Storable (clocksAt ⟨0, by decide⟩) (agentWith [104] []) ∧
        emptyTables.next.Room (agentWith [104] []) :=
  store_keeps_agents_iff (clocksAt ⟨0, by decide⟩) emptyTables (agentWith [104] [])
    emptyTables_consistent

/-- A configuration of an input capability is lost, and so are an hour where local time is an
hour ahead of UTC and what stands after a NUL. -/
theorem stored_agent_changes :
    (∃ t', store emptyTables (agentWith [104] [[99]]) = some t' ∧
      ¬ AgentKept (clocksAt ⟨0, by decide⟩) emptyTables t' (agentWith [104] [[99]])) ∧
    (∃ t', store emptyTables (agentWith [104] []) = some t' ∧
      ¬ AgentKept (clocksAt ⟨3600, by decide⟩) emptyTables t' (agentWith [104] [])) ∧
    (∃ t', store emptyTables (agentWith [97, 0, 98] []) = some t' ∧
      ¬ AgentKept (clocksAt ⟨0, by decide⟩) emptyTables t' (agentWith [97, 0, 98] [])) := by
  have new (host : CppString) (configs : List CppString) :
      (agentWith host configs).id ∉ emptyTables.ids := List.not_mem_nil
  have valid (configs : List CppString) : (agentWith [104] configs).Valid := by
    have same : (agentWith [104] configs).texts = (agentWith [104] []).texts := rfl
    rw [ConsoleAgent.Valid, same]
    decide
  refine ⟨⟨_, (Tables.store_iff emptyTables_consistent (valid _) (new _ _)).mpr
    ⟨⟨by decide, by decide, by decide, by decide⟩, rfl⟩, fun kept => ?_⟩,
    ⟨_, (Tables.store_iff emptyTables_consistent (valid _) (new _ _)).mpr
    ⟨⟨by decide, by decide, by decide, by decide⟩, rfl⟩, fun kept => ?_⟩, ⟨_, rfl, fun kept => ?_⟩⟩
  · have storable := (agentKept_store _ emptyTables_consistent (valid _) (new _ _)).mp kept
    have := storable.inCaps _ (List.mem_singleton.mpr rfl)
    revert this
    decide
  · have storable := (agentKept_store _ emptyTables_consistent (valid _) (new _ _)).mp kept
    have := congrArg Subtype.val storable.offset
    revert this
    decide
  · have stored : store emptyTables (agentWith [97, 0, 98] []) = some _ := rfl
    have := (emptyTables_consistent.texts.store stored).retrieved kept.mem [97, 0, 98] (by decide)
    revert this
    decide

end Yella
