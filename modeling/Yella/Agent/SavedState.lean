import Yella.Lib.Loop
import Yella.ReturnCode
import Yella.TextUtil

/-!
# The saved state

`saved_state.c`, `yella_uuid_posix.c` and the text of `mac_addresses_linux.c`, over the tables
of `saved_state.fbs`: what an agent knows of itself from one boot to the next.
-/

namespace Yella

/-! ## Ids and addresses -/

/-- `-` -/
def dash : UChar := 45

/-- `uuid_unparse_lower` -/
def uuidUnparseLower (id : Vector UInt8 16) : UStr :=
  id.toList.zipIdx.flatMap fun b =>
    if b.2 ∈ [4, 6, 8, 10] then dash :: hexByte b.1 else hexByte b.1

structure YellaUuid where
  id : Vector UInt8 16
  text : UStr
  unparsed : text = uuidUnparseLower id
  deriving DecidableEq

/-- `yella_create_uuid` with what `uuid_generate` has stored. -/
def yellaCreateUuid (generated : Vector UInt8 16) : YellaUuid :=
  ⟨generated, uuidUnparseLower generated, rfl⟩

/-- Sixteen bytes are read whatever the vector has. -/
def yellaCreateUuidFromBytes (bytes : List UInt8) : Option YellaUuid :=
  if h : 16 ≤ bytes.length then
    some (yellaCreateUuid ⟨(bytes.take 16).toArray, by simp [h]⟩)
  else none

/-- `%02x:%02x:%02x:%02x:%02x:%02x` -/
def macText (addr : Vector UInt8 6) : UStr := [58].intercalate (addr.toList.map hexByte)

structure YellaMacAddress where
  addr : Vector UInt8 6
  text : UStr
  formatted : text = macText addr
  deriving DecidableEq

structure YellaSavedState where
  id : YellaUuid
  macAddresses : List YellaMacAddress
  bootCount : UInt32
  deriving DecidableEq

/-! ## Tables -/

structure FbMacAddr where
  bytes : Option (List UInt8) := none
  deriving DecidableEq

structure FbSavedState where
  bootCount : UInt32 := 0
  uuid : Option (List UInt8) := none
  macAddrs : Option (List FbMacAddr) := none
  deriving DecidableEq

/-- `saved_state.flatb`. A `foreign` file does not have the identifier of `saved_state.fbs`. -/
inductive SavedStateFile where
  | missing
  | unreadable
  | foreign
  | savedState (tbl : FbSavedState)
  deriving DecidableEq

/-! ## Loading -/

/-- The assertion about the length. -/
def FbMacAddr.addr (mac : FbMacAddr) : Option (Vector UInt8 6) :=
  if h : (mac.bytes.getD []).length = 6 then some ⟨(mac.bytes.getD []).toArray, by simp [h]⟩
  else none

section
variable (oldAddrs : List FbMacAddr)

/-- A round of the inner loop of `mac_addresses_changed`, whose condition is about `i`. It ends
with `result`. -/
def changedRound (i : Nat) (new : YellaMacAddress) (j : Nat) : Option (Nat ⊕ Bool) :=
  match oldAddrs[i]? with
  | none => some (.inr true)
  | some old => do
    let addr ← old.addr
    some (if addr = new.addr then .inr false else .inl (j + 1))

/-- What the inner loop ends with, if it does. -/
def changedAt (i : Nat) (new : YellaMacAddress) : Option Bool :=
  match oldAddrs[i]? with
  | none => some true
  | some old => do
    let addr ← old.addr
    if addr = new.addr then some false else none

/-- The outer loop from `i` on. A result of `none` is a loop that does not end or a failed
assertion. -/
def macAddressesChanged : Nat → List YellaMacAddress → Option Bool
  | _, [] => some true
  | i, new :: newAddrs => do
    let result ← changedAt oldAddrs i new
    if result then macAddressesChanged (i + 1) newAddrs else some false

end

/-- `generated` is the new id and `macs` what `yella_get_mac_addresses` returns. -/
def resetSs (generated : Vector UInt8 16) (macs : List YellaMacAddress) : YellaSavedState where
  id := yellaCreateUuid generated
  macAddresses := macs
  bootCount := 0

def readMacAddress (mac : FbMacAddr) : Option YellaMacAddress := do
  let addr ← mac.addr
  some ⟨addr, macText addr, rfl⟩

/-- The branch for a file that was read. A result of `none` in it is a corrupt file. -/
def readSavedState (generated : Vector UInt8 16) (macs : List YellaMacAddress)
    (tbl : FbSavedState) : Option (Option YellaSavedState) :=
  match tbl.uuid, tbl.macAddrs with
  | some uuid, some macAddrs => do
    if ← macAddressesChanged macAddrs 0 macs then some (some (resetSs generated macs))
    else
      let id ← yellaCreateUuidFromBytes uuid
      let macAddresses ← macAddrs.mapM readMacAddress
      some (some { id, macAddresses, bootCount := tbl.bootCount })
  | _, _ => some none

/-- The state and the file before the count is increased. -/
def findSavedState (generated : Vector UInt8 16) (macs : List YellaMacAddress) :
    SavedStateFile → Option (YellaSavedState × SavedStateFile)
  | .savedState tbl => do
    match ← readSavedState generated macs tbl with
    | some ss => some (ss, .savedState tbl)
    | none => some (resetSs generated macs, .missing)
  | _ => some (resetSs generated macs, .missing)

/-- A corrupt file is removed. -/
def yellaLoadSavedState (generated : Vector UInt8 16) (macs : List YellaMacAddress)
    (file : SavedStateFile) : Option (YellaSavedState × SavedStateFile) := do
  let (ss, file) ← findSavedState generated macs file
  some ({ ss with bootCount := ss.bootCount + 1 }, file)

/-! ## Saving -/

/-- How `fopen` and `fwrite` go. -/
inductive SaveOutcome where
  | written
  | notOpened
  | notWritten
  deriving DecidableEq, Repr

def packMacAddress (mac : YellaMacAddress) : FbMacAddr := { bytes := some mac.addr.toList }

/-- An empty list of addresses is left out. -/
def packSavedState (ss : YellaSavedState) : FbSavedState where
  bootCount := ss.bootCount
  uuid := some ss.id.id.toList
  macAddrs :=
    if ss.macAddresses.length > 0 then some (ss.macAddresses.map packMacAddress) else none

def yellaSaveSavedState (ss : YellaSavedState) (outcome : SaveOutcome) (file : SavedStateFile) :
    Rc × SavedStateFile :=
  match outcome with
  | .written => (.noError, .savedState (packSavedState ss))
  | .notOpened => (.writeError, file)
  | .notWritten => (.writeError, .missing)

/-! ## Texts -/

theorem dash_notMem_hexByte (b : UInt8) : dash ∉ hexByte b := by
  have digit (n : Nat) (hn : n < 16) : hexDigit n ≠ dash := by
    intro h
    have h := congrArg UInt16.toNat h
    simp only [hexDigit, dash, UInt16.toNat_ofNat'] at h
    split at h <;> simp at h <;> omega
  have hb := b.toNat_lt
  simp only [hexByte, List.mem_cons, List.not_mem_nil, or_false, not_or]
  exact ⟨(digit _ (by omega)).symm, (digit _ (by omega)).symm⟩

/-- Without its dashes the text is the digits of the bytes. -/
theorem filter_uuidUnparseLower (id : Vector UInt8 16) :
    (uuidUnparseLower id).filter (· ≠ dash) = id.toList.flatMap hexByte := by
  have digits (b : UInt8) : (hexByte b).filter (· ≠ dash) = hexByte b := by
    rw [List.filter_eq_self]
    intro c hc
    have : c ≠ dash := fun h => dash_notMem_hexByte b (h ▸ hc)
    simpa using this
  have piece (b : UInt8 × Nat) :
      (if b.2 ∈ [4, 6, 8, 10] then dash :: hexByte b.1 else hexByte b.1).filter (· ≠ dash) =
        hexByte b.1 := by
    split
    · rw [List.filter_cons_of_neg (by simp), digits]
    · exact digits b.1
  calc (uuidUnparseLower id).filter (· ≠ dash)
      = id.toList.zipIdx.flatMap fun b => hexByte b.1 := by
        rw [uuidUnparseLower, List.filter_flatMap]
        simp only [piece]
    _ = (id.toList.zipIdx.map Prod.fst).flatMap hexByte := (List.flatMap_map ..).symm
    _ = id.toList.flatMap hexByte := by rw [List.zipIdx_map_fst]

theorem uuidUnparseLower_inj {id id' : Vector UInt8 16}
    (h : uuidUnparseLower id = uuidUnparseLower id') : id = id' := by
  have h := congrArg (List.filter (· ≠ dash)) h
  rw [filter_uuidUnparseLower, filter_uuidUnparseLower] at h
  exact Vector.toList_inj.mp (flatMap_hexByte_inj h)

theorem uuidUnparseLower_length (id : Vector UInt8 16) : (uuidUnparseLower id).length ≤ 48 := by
  have few (bytes : List (UInt8 × Nat)) : (bytes.flatMap fun b =>
      if b.2 ∈ [4, 6, 8, 10] then dash :: hexByte b.1 else hexByte b.1).length ≤
        3 * bytes.length := by
    induction bytes with
    | nil => simp
    | cons b bytes ih =>
      have piece : (if b.2 ∈ [4, 6, 8, 10] then dash :: hexByte b.1
          else hexByte b.1).length ≤ 3 := by
        split <;> simp [hexByte]
      rw [List.flatMap_cons, List.length_append, List.length_cons]
      omega
  have sixteen : id.toList.zipIdx.length = 16 := by simp
  exact Nat.le_trans (few id.toList.zipIdx) (by rw [sixteen])

/-- The text of an id can be converted. -/
theorem YellaUuid.text_isAscii (id : YellaUuid) : id.text.IsAscii := by
  rw [id.unparsed]
  constructor
  · intro c hc
    obtain ⟨b, -, hc⟩ := List.mem_flatMap.mp hc
    split at hc
    · obtain rfl | hc := List.mem_cons.mp hc
      · decide
      · exact hexByte_ascii b.1 c hc
    · exact hexByte_ascii b.1 c hc
  · exact Nat.lt_of_le_of_lt (uuidUnparseLower_length id.id) (by decide)

theorem yellaCreateUuid_id (id : YellaUuid) : yellaCreateUuid id.id = id := by
  obtain ⟨id, text, rfl⟩ := id
  rfl

/-! ## The loops over the addresses -/

/-- The inner loop ends in one round or never. -/
theorem changedRound_ends {oldAddrs : List FbMacAddr} {i : Nat} {new : YellaMacAddress} {j : Nat}
    {result : Bool} : Loop.Ends (changedRound oldAddrs i new) j result ↔
      changedAt oldAddrs i new = some result := by
  constructor
  · rintro ⟨fuel, h⟩
    induction fuel generalizing j with
    | zero => cases h
    | succ fuel ih =>
      simp only [Loop.run] at h
      cases hold : oldAddrs[i]? with
      | none => simpa [changedRound, changedAt, hold] using h
      | some old =>
        cases haddr : old.addr with
        | none => simp [changedRound, hold, haddr] at h
        | some addr =>
          by_cases same : addr = new.addr
          · simpa [changedRound, changedAt, hold, haddr, same] using h
          · have next : changedRound oldAddrs i new j = some (.inl (j + 1)) := by
              simp [changedRound, hold, haddr, same]
            rw [next] at h
            exact ih h
  · intro h
    apply Loop.ends_of_end
    cases hold : oldAddrs[i]? with
    | none => simpa [changedRound, changedAt, hold] using h
    | some old =>
      cases haddr : old.addr with
      | none => simp [changedAt, hold, haddr] at h
      | some addr =>
        by_cases same : addr = new.addr
        · simpa [changedRound, changedAt, hold, haddr, same] using h
        · simp [changedAt, hold, haddr, same] at h

@[simp] theorem addr_packMacAddress (mac : YellaMacAddress) :
    (packMacAddress mac).addr = some mac.addr := by
  simp [FbMacAddr.addr, packMacAddress, Vector.toList]

@[simp] theorem readMacAddress_packMacAddress (mac : YellaMacAddress) :
    readMacAddress (packMacAddress mac) = some mac := by
  obtain ⟨addr, text, rfl⟩ := mac
  simp [readMacAddress]

/-- The first address is where it was. -/
theorem macAddressesChanged_same {macs : List YellaMacAddress} (h : macs ≠ []) :
    macAddressesChanged (macs.map packMacAddress) 0 macs = some false := by
  cases macs with
  | nil => contradiction
  | cons mac macs => simp [macAddressesChanged, changedAt]

/-! ## Loading what was saved -/

section
variable {ss : YellaSavedState}

@[simp] theorem yellaCreateUuidFromBytes_toList (id : YellaUuid) :
    yellaCreateUuidFromBytes id.id.toList = some id := by
  have bytes : id.id.toList.take 16 = id.id.toList := List.take_of_length_le (by simp)
  simp only [yellaCreateUuidFromBytes, Vector.length_toList, Nat.le_refl, ↓reduceDIte, bytes]
  exact congrArg some (yellaCreateUuid_id id)

theorem mapM_readMacAddress (macs : List YellaMacAddress) :
    macs.mapM (readMacAddress ∘ packMacAddress) = some macs := by
  induction macs with
  | nil => rfl
  | cons mac macs ih => simp [ih]

/-- The file that a state was saved to, on a machine that still has the addresses. -/
theorem yellaLoadSavedState_saved (generated : Vector UInt8 16) (h : ss.macAddresses ≠ []) :
    yellaLoadSavedState generated ss.macAddresses (.savedState (packSavedState ss)) =
      some ({ ss with bootCount := ss.bootCount + 1 }, .savedState (packSavedState ss)) := by
  have some_macs : ss.macAddresses.length > 0 := List.length_pos_iff.mpr h
  simp [yellaLoadSavedState, findSavedState, readSavedState, packSavedState, some_macs,
    macAddressesChanged_same h, mapM_readMacAddress]

/-- There is nothing in the file that the reader goes on from. -/
def SavedStateFile.Unusable : SavedStateFile → Prop
  | .savedState tbl => tbl.uuid = none ∨ tbl.macAddrs = none
  | _ => True

theorem packSavedState_unusable (h : ss.macAddresses = []) :
    (SavedStateFile.savedState (packSavedState ss)).Unusable := by
  right
  simp [packSavedState, h]

theorem yellaLoadSavedState_unusable (generated : Vector UInt8 16) (macs : List YellaMacAddress)
    {file : SavedStateFile} (h : file.Unusable) :
    yellaLoadSavedState generated macs file =
      some (⟨yellaCreateUuid generated, macs, 1⟩, .missing) := by
  cases file with
  | missing => rfl
  | unreadable => rfl
  | foreign => rfl
  | savedState tbl =>
    have : readSavedState generated macs tbl = some none := by
      obtain h | h := h
      · simp [readSavedState, h]
      · cases huuid : tbl.uuid <;> simp [readSavedState, h, huuid]
    simp only [yellaLoadSavedState, findSavedState, this]
    rfl

end

/-- A load after a successful save gives the next boot of the same agent, whatever id would be
generated and whatever the file was. -/
def SurvivesRestart (ss : YellaSavedState) : Prop :=
  ∀ generated file, ∃ back file',
    yellaLoadSavedState generated ss.macAddresses (yellaSaveSavedState ss .written file).2 =
      some (back, file') ∧
    back.id = ss.id ∧ back.macAddresses = ss.macAddresses ∧
    back.bootCount.toNat = ss.bootCount.toNat + 1

theorem survives_restart_iff (ss : YellaSavedState) (room : ss.bootCount.toNat < 0xffffffff) :
    SurvivesRestart ss ↔ ss.macAddresses ≠ [] := by
  constructor
  · intro survives no_macs
    -- some id is not the one that was saved
    obtain ⟨other, differs⟩ : ∃ other : Vector UInt8 16, other ≠ ss.id.id := by
      by_cases zeros : ss.id.id = Vector.replicate 16 0
      · exact ⟨Vector.replicate 16 1, by rw [zeros]; decide⟩
      · exact ⟨Vector.replicate 16 0, Ne.symm zeros⟩
    obtain ⟨back, file', load, same, -⟩ := survives other .missing
    have reset := yellaLoadSavedState_unusable other ss.macAddresses
      (packSavedState_unusable no_macs)
    simp only [yellaSaveSavedState, reset, Option.some.injEq, Prod.mk.injEq] at load
    rw [← load.1] at same
    exact differs (congrArg YellaUuid.id same)
  · intro some_macs generated file
    refine ⟨_, _, yellaLoadSavedState_saved generated some_macs, rfl, rfl, ?_⟩
    rw [UInt32.toNat_add]
    exact Nat.mod_eq_of_lt (by simp; omega)

/-- `02:42:ac:11:00:02` -/
def ethernet : YellaMacAddress := ⟨#v[2, 66, 172, 17, 0, 2], _, rfl⟩

theorem survives_restart_ethernet :
    SurvivesRestart ⟨yellaCreateUuid (Vector.replicate 16 7), [ethernet], 1⟩ ↔ [ethernet] ≠ [] :=
  survives_restart_iff ⟨yellaCreateUuid (Vector.replicate 16 7), [ethernet], 1⟩ (by decide)

/-- Without a network interface the agent gets a new id. -/
theorem no_macs_not_survives :
    ¬ SurvivesRestart ⟨yellaCreateUuid (Vector.replicate 16 7), [], 1⟩ := by
  intro survives
  obtain ⟨back, _, load, same, -⟩ := survives (Vector.replicate 16 8) .missing
  have fresh := congrArg (Option.map fun r => r.1.id.id) load
  simp only [Option.map_some, same] at fresh
  exact absurd fresh (by decide)

/-! ## Comparing the addresses -/

/-- The outer loop from `i` on ends with `result`, round by round. -/
inductive ChangedEnds (oldAddrs : List FbMacAddr) : Nat → List YellaMacAddress → Bool → Prop
  | done (i : Nat) : ChangedEnds oldAddrs i [] true
  | found {i : Nat} {new : YellaMacAddress} {newAddrs : List YellaMacAddress} :
      Loop.Ends (changedRound oldAddrs i new) 0 false →
      ChangedEnds oldAddrs i (new :: newAddrs) false
  | next {i : Nat} {new : YellaMacAddress} {newAddrs : List YellaMacAddress} {result : Bool} :
      Loop.Ends (changedRound oldAddrs i new) 0 true →
      ChangedEnds oldAddrs (i + 1) newAddrs result → ChangedEnds oldAddrs i (new :: newAddrs) result

theorem changedEnds_iff {oldAddrs : List FbMacAddr} {i : Nat} {newAddrs : List YellaMacAddress}
    {result : Bool} : ChangedEnds oldAddrs i newAddrs result ↔
      macAddressesChanged oldAddrs i newAddrs = some result := by
  constructor
  · intro h
    induction h with
    | done => rfl
    | found round => simp [macAddressesChanged, changedRound_ends.mp round]
    | next round _ ih => simp [macAddressesChanged, changedRound_ends.mp round, ih]
  · intro h
    induction newAddrs generalizing i with
    | nil =>
      obtain rfl := Option.some_inj.mp h
      exact .done i
    | cons new newAddrs ih =>
      simp only [macAddressesChanged, Option.bind_eq_bind, Option.bind_eq_some_iff] at h
      obtain ⟨goesOn, round, h⟩ := h
      cases goesOn with
      | false =>
        obtain rfl : false = result := by simpa using h
        exact .found (changedRound_ends.mpr round)
      | true => exact .next (changedRound_ends.mpr round) (ih (by simpa using h))

/-- The entry of a saved address. -/
def savedMacAddr (addr : Vector UInt8 6) : FbMacAddr := { bytes := some addr.toList }

@[simp] theorem addr_savedMacAddr (addr : Vector UInt8 6) :
    (savedMacAddr addr).addr = some addr := by
  simp [FbMacAddr.addr, savedMacAddr, Vector.toList]

/-- The comparison ends, and its result is `false` exactly if a current address was saved. -/
def ComparesRight (saved : List (Vector UInt8 6)) (current : List YellaMacAddress) : Prop :=
  ∃ changed, ChangedEnds (saved.map savedMacAddr) 0 current changed ∧
    (changed = false ↔ ∃ mac ∈ current, mac.addr ∈ saved)

theorem macAddressesChanged_nothingSaved (i : Nat) (current : List YellaMacAddress) :
    macAddressesChanged [] i current = some true := by
  induction current generalizing i with
  | nil => rfl
  | cons mac current ih => simp [macAddressesChanged, changedAt, ih]

/-- The inner loop only ever looks at the entry at the index of the outer one. -/
theorem comparesRight_iff (saved : List (Vector UInt8 6)) (current : List YellaMacAddress) :
    ComparesRight saved current ↔ saved = [] ∨ current = [] ∨
      saved.head? = current.head?.map YellaMacAddress.addr := by
  simp only [ComparesRight, changedEnds_iff]
  cases saved with
  | nil => simp [macAddressesChanged_nothingSaved]
  | cons addr saved =>
    cases current with
    | nil => simp [macAddressesChanged]
    | cons mac current =>
      by_cases same : addr = mac.addr
      · simp [macAddressesChanged, changedAt, same]
      · simp [macAddressesChanged, changedAt, same]

/-- The same two addresses, in another order. -/
theorem reordered_never_ends :
    ¬ ComparesRight [#v[2, 66, 172, 17, 0, 3], #v[2, 66, 172, 17, 0, 2]]
      [ethernet, ⟨#v[2, 66, 172, 17, 0, 3], _, rfl⟩] := by
  rintro ⟨changed, ends, -⟩
  rw [changedEnds_iff] at ends
  cases ends

end Yella
