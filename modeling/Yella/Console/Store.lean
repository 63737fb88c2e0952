import Mathlib.Data.List.TakeWhile
import Yella.Lib.Calendar
import Yella.Lib.Unicode
import Yella.Console.Agent

/-!
# The console's database

`postgres_db.cpp` over the tables of `postgres.sql`, in a database whose encoding is UTF-8. A
statement that violates a constraint fails, and its transaction with it.
-/

namespace Yella

/-! ## Texts -/

/-- A parameter goes to the database up to its first NUL. A statement with a text that is no
UTF-8 fails. -/
def textParam (str : CppString) : Option CppString :=
  let text := str.takeWhile (· ≠ 0)
  if (Unicode.decodeUtf8 text).isSome then some text else none

/-- A text that the database takes as it is -/
def ValidText (str : CppString) : Prop := 0 ∉ str ∧ (Unicode.decodeUtf8 str).isSome

instance (str : CppString) : Decidable (ValidText str) := inferInstanceAs (Decidable (_ ∧ _))

theorem ValidText.textParam {str : CppString} (h : ValidText str) : textParam str = some str := by
  have whole : str.takeWhile (· ≠ 0) = str := by
    rw [List.takeWhile_eq_self_iff]
    intro b hb
    simpa using fun zero : b = 0 => h.1 (zero ▸ hb)
  rw [Yella.textParam, whole, if_pos h.2]

theorem validText_of_textParam {str text : CppString} (h : textParam str = some text) :
    ValidText text := by
  rw [textParam] at h
  split at h
  · rename_i valid
    cases h
    refine ⟨fun zero => ?_, valid⟩
    simpa using List.mem_takeWhile_imp zero
  · cases h

/-! ## Tables -/

/-- One after the last id of a `SERIAL` column -/
def serialEnd : Nat := 0x80000000

/-- The next id of each sequence -/
@[ext] structure Serials where
  ipAddress : Nat
  inCap : Nat
  outCap : Nat
  config : Nat

/-- No sequence has gone past its end. -/
structure Serials.Within (next : Serials) : Prop where
  ipAddress : next.ipAddress ≤ serialEnd
  inCap : next.inCap ≤ serialEnd
  outCap : next.outCap ≤ serialEnd
  config : next.config ≤ serialEnd

/-- `last` is an instant, in seconds since 1970. -/
structure AgentRow where
  id : CppString
  last : Int
  host : Option CppString
  machine : Option CppString
  operatingSystem : Option CppString
  osVersion : Option CppString
  osRelease : Option CppString
  deriving DecidableEq

structure AddressRow where
  agentId : CppString
  address : CppString
  deriving DecidableEq

structure InCapRow where
  agentId : CppString
  name : CppString
  version : Int32
  deriving DecidableEq

structure OutCapRow where
  id : Nat
  agentId : CppString
  name : CppString
  version : Int32
  deriving DecidableEq

structure ConfigRow where
  outCapId : Nat
  name : CppString
  deriving DecidableEq

def AgentRow.texts (r : AgentRow) : List CppString :=
  r.id :: [r.host, r.machine, r.operatingSystem, r.osVersion, r.osRelease].flatMap Option.toList

/-- The rows in the order in which a query returns them, and the sequences. Only the ids of
`out_capability` are asked for again. -/
structure Tables where
  agents : List AgentRow
  ipAddresses : List AddressRow
  inCaps : List InCapRow
  outCaps : List OutCapRow
  configs : List ConfigRow
  next : Serials

namespace Tables

def ids (t : Tables) : List CppString := t.agents.map AgentRow.id

/-- What a column of texts can hold -/
structure Texts (t : Tables) : Prop where
  agents : ∀ r ∈ t.agents, ∀ str ∈ r.texts, ValidText str
  addresses : ∀ r ∈ t.ipAddresses, ValidText r.address
  inCaps : ∀ r ∈ t.inCaps, ValidText r.name
  outCaps : ∀ r ∈ t.outCaps, ValidText r.name
  configs : ∀ r ∈ t.configs, ValidText r.name

/-- The keys and the references of `postgres.sql`. -/
structure Keyed (t : Tables) : Prop where
  ids : t.ids.Nodup
  addressRefs : ∀ r ∈ t.ipAddresses, r.agentId ∈ t.ids
  inCapRefs : ∀ r ∈ t.inCaps, r.agentId ∈ t.ids
  outCapRefs : ∀ r ∈ t.outCaps, r.agentId ∈ t.ids
  outCapIds : (t.outCaps.map OutCapRow.id).Nodup
  outCapNext : ∀ r ∈ t.outCaps, r.id < t.next.outCap
  configRefs : ∀ r ∈ t.configs, ∃ o ∈ t.outCaps, o.id = r.outCapId

/-- What the database guarantees of its tables -/
structure Consistent (t : Tables) : Prop extends Keyed t where
  texts : t.Texts
  next : t.next.Within

/-! ### Prepared statements -/

section
variable (t : Tables)

def storeAgent (row : AgentRow) : Option Tables :=
  if row.id ∈ t.ids then none else some { t with agents := t.agents ++ [row] }

def storeIpAddress (agentId address : CppString) : Option Tables := do
  let agentId ← textParam agentId
  let address ← textParam address
  if agentId ∈ t.ids ∧ t.next.ipAddress < serialEnd then
    some { t with
      ipAddresses := t.ipAddresses ++ [{ agentId, address }]
      next.ipAddress := t.next.ipAddress + 1 }
  else none

def storeInCap (agentId name : CppString) (version : Int32) : Option Tables := do
  let agentId ← textParam agentId
  let name ← textParam name
  if agentId ∈ t.ids ∧ t.next.inCap < serialEnd then
    some { t with
      inCaps := t.inCaps ++ [{ agentId, name, version }]
      next.inCap := t.next.inCap + 1 }
  else none

/-- With the new id. -/
def storeOutCap (agentId name : CppString) (version : Int32) : Option (Tables × Nat) := do
  let agentId ← textParam agentId
  let name ← textParam name
  if agentId ∈ t.ids ∧ t.next.outCap < serialEnd then
    some ({ t with
      outCaps := t.outCaps ++ [{ id := t.next.outCap, agentId, name, version }]
      next.outCap := t.next.outCap + 1 }, t.next.outCap)
  else none

def storeConfig (outCapId : Nat) (name : CppString) : Option Tables := do
  let name ← textParam name
  if outCapId ∈ t.outCaps.map OutCapRow.id ∧ t.next.config < serialEnd then
    some { t with
      configs := t.configs ++ [{ outCapId, name }]
      next.config := t.next.config + 1 }
  else none

def updateAgent (row : AgentRow) : Tables :=
  { t with agents := t.agents.map fun r => if r.id = row.id then row else r }

def deleteIpAddress (agentId : CppString) : Option Tables := do
  let agentId ← textParam agentId
  some { t with ipAddresses := t.ipAddresses.filter (·.agentId ≠ agentId) }

def deleteInCap (agentId : CppString) : Option Tables := do
  let agentId ← textParam agentId
  some { t with inCaps := t.inCaps.filter (·.agentId ≠ agentId) }

def deleteConfiguration (agentId : CppString) : Option Tables := do
  let agentId ← textParam agentId
  some { t with configs := t.configs.filter fun c =>
      ¬ ∃ o ∈ t.outCaps, o.agentId = agentId ∧ o.id = c.outCapId }

/-- A referenced row is not deleted. -/
def deleteOutCap (agentId : CppString) : Option Tables := do
  let agentId ← textParam agentId
  if ∃ c ∈ t.configs, ∃ o ∈ t.outCaps, o.agentId = agentId ∧ o.id = c.outCapId then none
  else some { t with outCaps := t.outCaps.filter (·.agentId ≠ agentId) }

end

end Tables

/-! ## Time stamps -/

/-- Seconds east of UTC, less than a day. -/
abbrev UtcOffset := { seconds : Int // -86400 < seconds ∧ seconds < 86400 }

/-- The time zone of the connection gives an offset to each instant, and `mktime` takes one
from each local time, whatever it finds in `tm_isdst`. -/
structure Clocks where
  session : Int → UtcOffset
  process : Calendar.Civil → UtcOffset

/-- The fields of the text, which ends in `UTC`. -/
def timestampParam (ag : ConsoleAgent) : Calendar.Civil := Calendar.civilOf ag.when.toInt

/-- The fields of the text that the database returns, in the time zone of the connection. -/
def timestampText (clocks : Clocks) (last : Int) : Calendar.Civil :=
  Calendar.civilOf (last + clocks.session last)

/-- `mktime` of the fields. What the text has after them is not looked at, since nobody asks the
stream whether it still is good. -/
def timestampField (clocks : Clocks) (pieces : Calendar.Civil) : Int64 :=
  .ofInt (Calendar.secondsOf pieces - clocks.process pieces)

/-! ## Storing -/

/-- A parameter that is NULL where the text is empty -/
def nullableParam (str : CppString) : Option (Option CppString) :=
  if str = [] then some none else (textParam str).map some

def agentRow (ag : ConsoleAgent) : Option AgentRow := do
  let id ← textParam ag.id
  let host ← nullableParam ag.host
  let machine ← nullableParam ag.operatingSystem.machine
  let operatingSystem ← nullableParam ag.operatingSystem.system
  let osVersion ← nullableParam ag.operatingSystem.version
  let osRelease ← nullableParam ag.operatingSystem.release
  some {
    id
    last := Calendar.secondsOf (timestampParam ag)
    host
    machine
    operatingSystem
    osVersion
    osRelease }

def storeOut (agentId : CppString) (t : Tables) (out : Capability) : Option Tables := do
  let (t, id) ← t.storeOutCap agentId out.name out.version
  out.configurations.elems.foldlM (fun t config => t.storeConfig id config) t

/-- The configurations of an input capability are not stored. -/
def storeIpsAndCaps (t : Tables) (ag : ConsoleAgent) : Option Tables := do
  let t ← ag.ipAddresses.elems.foldlM (fun t addr => t.storeIpAddress ag.id addr) t
  let t ← ag.inCaps.elems.foldlM
    (fun t inCap => t.storeInCap ag.id inCap.name inCap.version) t
  ag.outCaps.elems.foldlM (storeOut ag.id) t

def store (t : Tables) (ag : ConsoleAgent) : Option Tables := do
  let row ← agentRow ag
  let t ← t.storeAgent row
  storeIpsAndCaps t ag

def update (t : Tables) (ag : ConsoleAgent) : Option Tables := do
  let row ← agentRow ag
  let t := t.updateAgent row
  let t ← t.deleteIpAddress ag.id
  let t ← t.deleteInCap ag.id
  let t ← t.deleteConfiguration ag.id
  let t ← t.deleteOutCap ag.id
  storeIpsAndCaps t ag

/-! ## Retrieving -/

section
variable (t : Tables)

def retrieveIps (agentId : CppString) : StringSet :=
  .ofList id ((t.ipAddresses.filter (·.agentId = agentId)).map AddressRow.address)

def retrieveInCaps (agentId : CppString) : CapabilitySet :=
  .ofList Capability.name ((t.inCaps.filter (·.agentId = agentId)).map fun r =>
    { name := r.name, version := r.version, configurations := .empty })

def retrieveConfigs (outCapId : Nat) : StringSet :=
  .ofList id ((t.configs.filter (·.outCapId = outCapId)).map ConfigRow.name)

def retrieveOutCaps (agentId : CppString) : CapabilitySet :=
  .ofList Capability.name ((t.outCaps.filter (·.agentId = agentId)).map fun r =>
    { name := r.name, version := r.version, configurations := retrieveConfigs t r.id })

/-- `c_str` of a field that is NULL is the empty string. -/
def retrieveAgent (clocks : Clocks) (r : AgentRow) : ConsoleAgent where
  when := timestampField clocks (timestampText clocks r.last)
  id := r.id
  host := r.host.getD []
  ipAddresses := retrieveIps t r.id
  operatingSystem := {
    machine := r.machine.getD []
    system := r.operatingSystem.getD []
    version := r.osVersion.getD []
    release := r.osRelease.getD [] }
  inCaps := retrieveInCaps t r.id
  outCaps := retrieveOutCaps t r.id

def retrieveAgents (clocks : Clocks) : List ConsoleAgent :=
  t.agents.map (retrieveAgent t clocks)

end

end Yella
