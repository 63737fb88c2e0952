import Mathlib.Data.List.Nodup
import Yella.Lib.Machine
import Yella.Parcel.Pack
import Yella.Agent.SavedState

/-!
# The identities of parcels

What `yella_create_agent`, `heartbeat_thr`, `send_plugin_message` and the worker of the
accumulator put into a parcel that tells it from the others: the id of the agent, the type, and
a sequence of the count of boots and a number of the thread.
-/

namespace Yella

/-! ## Sending -/

inductive ParcelKind where
  | heartbeat
  | fileStates
  deriving DecidableEq, Repr

/-- `yella.agent.heartbeat` and `yella.fb.file.file_states` -/
def ParcelKind.type : ParcelKind → UStr
  | heartbeat => [121, 101, 108, 108, 97, 46, 97, 103, 101, 110, 116, 46, 104, 101, 97, 114, 116,
      98, 101, 97, 116]
  | fileStates => [121, 101, 108, 108, 97, 46, 102, 98, 46, 102, 105, 108, 101, 46, 102, 105, 108,
      101, 95, 115, 116, 97, 116, 101, 115]

structure ParcelIdentity where
  sender : UStr
  type : UStr
  seq : YellaSequence
  deriving DecidableEq

/-- The variables `minor_seq` of the two threads. -/
structure MinorSeqs where
  heartbeat : UInt32 := 0
  fileStates : UInt32 := 0

/-- The heartbeat counts up before it takes the number, the accumulator afterwards. -/
def MinorSeqs.minor (seqs : MinorSeqs) : ParcelKind → UInt32
  | .heartbeat => seqs.heartbeat + 1
  | .fileStates => seqs.fileStates

def MinorSeqs.next (seqs : MinorSeqs) : ParcelKind → MinorSeqs
  | .heartbeat => { seqs with heartbeat := seqs.heartbeat + 1 }
  | .fileStates => { seqs with fileStates := seqs.fileStates + 1 }

def parcelIdentity (ss : YellaSavedState) (kind : ParcelKind) (minor : UInt32) :
    ParcelIdentity where
  sender := ss.id.text
  type := kind.type
  seq := { major := ss.bootCount, minor }

def sendParcels (ss : YellaSavedState) : MinorSeqs → List ParcelKind → List ParcelIdentity
  | _, [] => []
  | seqs, kind :: kinds =>
    parcelIdentity ss kind (seqs.minor kind) :: sendParcels ss (seqs.next kind) kinds

/-! ## Booting -/

/-- `generated` is the id that `yella_create_uuid` returns if it is called, and `sent` has the
parcels of this boot in their order. -/
structure Boot where
  generated : Vector UInt8 16
  save : SaveOutcome
  sent : List ParcelKind

/-- `identities` are those of all parcels so far. -/
structure AgentHistory where
  file : SavedStateFile
  identities : List ParcelIdentity
  deriving DecidableEq

/-- What `yella_save_saved_state` returns is ignored. -/
def AgentHistory.boot (macs : List YellaMacAddress) (s : AgentHistory) (b : Boot) :
    Option AgentHistory := do
  let (ss, file) ← yellaLoadSavedState b.generated macs s.file
  let (_, file) := yellaSaveSavedState ss b.save file
  some { file, identities := s.identities ++ sendParcels ss {} b.sent }

def firstBoot : AgentHistory := { file := .missing, identities := [] }

def bootMachine (macs : List YellaMacAddress) : Machine AgentHistory Boot where
  start s := s = firstBoot
  next := AgentHistory.boot macs

/-- Counting this boot does not overflow. -/
def CountsOn (macs : List YellaMacAddress) (s : AgentHistory) (b : Boot) : Prop :=
  ∀ r ∈ yellaLoadSavedState b.generated macs s.file, r.1.bootCount ≠ 0

instance (macs : List YellaMacAddress) (s : AgentHistory) (b : Boot) :
    Decidable (CountsOn macs s b) := by
  unfold CountsOn
  infer_instance

/-- No id is generated twice, and each thread sends fewer than 2^32 parcels. -/
structure Ordinary (history : List Boot) : Prop where
  fresh : (history.map Boot.generated).Nodup
  few : ∀ b ∈ history, ∀ kind, b.sent.count kind < 0x100000000

/-! ## The parcels of one boot -/

section
variable {ss : YellaSavedState} {seqs : MinorSeqs} {kinds : List ParcelKind} {kind : ParcelKind}
  {x : ParcelIdentity}

theorem ParcelKind.type_inj {k k' : ParcelKind} (h : k.type = k'.type) : k = k' := by
  revert h
  cases k <;> cases k' <;> decide

theorem MinorSeqs.minor_next (seqs : MinorSeqs) (kind kind' : ParcelKind) :
    (seqs.next kind).minor kind' =
      if kind' = kind then seqs.minor kind + 1 else seqs.minor kind' := by
  cases kind <;> cases kind' <;> rfl

theorem first_mem_sendParcels (seqs : MinorSeqs) (h : kind ∈ kinds) :
    parcelIdentity ss kind (seqs.minor kind) ∈ sendParcels ss seqs kinds := by
  induction kinds generalizing seqs with
  | nil => simp at h
  | cons k kinds ih =>
    by_cases hk : kind = k
    · subst hk
      exact List.mem_cons_self
    · have rest := ih (seqs.next k) ((List.mem_cons.mp h).resolve_left hk)
      rw [MinorSeqs.minor_next, if_neg hk] at rest
      exact List.mem_cons_of_mem _ rest

/-- The numbers of a kind go on one by one. -/
theorem mem_sendParcels (h : x ∈ sendParcels ss seqs kinds) :
    ∃ kind, ∃ i < kinds.count kind, x = parcelIdentity ss kind (seqs.minor kind + .ofNat i) := by
  induction kinds generalizing seqs with
  | nil => simp [sendParcels] at h
  | cons k kinds ih =>
    obtain rfl | h := List.mem_cons.mp h
    · exact ⟨k, 0, by simp, by simp⟩
    · obtain ⟨kind, i, hi, rfl⟩ := ih h
      rw [MinorSeqs.minor_next]
      split
      · rename_i hk
        subst hk
        refine ⟨kind, i + 1, by simpa using hi, ?_⟩
        rw [UInt32.ofNat_add, UInt32.add_assoc, UInt32.add_comm 1]
        rfl
      · rename_i hk
        exact ⟨kind, i, by rwa [List.count_cons_of_ne (Ne.symm hk)], rfl⟩

theorem sendParcels_nodup (few : ∀ kind, kinds.count kind < 0x100000000) :
    (sendParcels ss seqs kinds).Nodup := by
  induction kinds generalizing seqs with
  | nil => exact List.nodup_nil
  | cons k kinds ih =>
    refine List.nodup_cons.mpr ⟨?_, ih fun kind => ?_⟩
    · intro again
      obtain ⟨kind, i, hi, same⟩ := mem_sendParcels again
      obtain rfl : k = kind := ParcelKind.type_inj (congrArg ParcelIdentity.type same)
      have same := congrArg (fun x => x.seq.minor.toNat) same
      have := few k
      rw [List.count_cons_self] at this
      simp only [parcelIdentity, MinorSeqs.minor_next, ↓reduceIte, UInt32.toNat_add,
        UInt32.toNat_ofNat'] at same
      have := (seqs.minor k).toNat_lt
      simp at same
      omega
    · have := few kind
      have := List.count_le_count_cons (a := kind) (b := k) (l := kinds)
      omega

end

/-! ## Identities that come again -/

/-- What becomes of `failed` below in a boot. -/
def saveTried (macs : List YellaMacAddress) (failed : Option (List Boot)) (b : Boot) :
    Option (List Boot) :=
  match b.save with
  | .written => if macs = [] then none else some []
  | .notOpened => failed.map (· ++ [b])
  | .notWritten => none

/-- The boots that could not open the saved state since it was written with addresses in it. -/
def sinceSaved (macs : List YellaMacAddress) (history : List Boot) : Option (List Boot) :=
  history.foldl (saveTried macs) none

/-- It sends a kind of parcel that such a boot has sent. -/
def SendsAgain (macs : List YellaMacAddress) (history : List Boot) (b : Boot) : Prop :=
  ∃ f ∈ (sinceSaved macs history).getD [], ∃ kind ∈ f.sent, kind ∈ b.sent

section
variable {macs : List YellaMacAddress} {history : List Boot} {b : Boot} {s : AgentHistory}
  {ss : YellaSavedState} {failed : List Boot} {x : ParcelIdentity}

theorem sinceSaved_snoc :
    sinceSaved macs (history ++ [b]) = saveTried macs (sinceSaved macs history) b := by
  simp [sinceSaved]

/-- The next boot has the count `ss.bootCount` of the agent `ss.id`, like the boots `failed`. -/
structure Continues (history : List Boot) (s : AgentHistory) (failed : List Boot)
    (ss : YellaSavedState) : Prop where
  known : ss.id.id ∈ history.map Boot.generated
  counted : ∀ x ∈ s.identities, x.sender = ss.id.text →
    x.seq.major < ss.bootCount ∨
      x.seq.major = ss.bootCount ∧ ∃ f ∈ failed, ∃ kind ∈ f.sent, x.type = kind.type
  sent : ∀ f ∈ failed, ∀ kind ∈ f.sent, parcelIdentity ss kind (({} : MinorSeqs).minor kind) ∈
    s.identities

/-- The state `ss` that the boot `b` has loaded, and the file after that. -/
structure Loaded (macs : List YellaMacAddress) (history : List Boot) (s : AgentHistory) (b : Boot)
    (ss : YellaSavedState) (file : SavedStateFile) : Prop where
  load : yellaLoadSavedState b.generated macs s.file = some (ss, file)
  addresses : ss.macAddresses = macs
  continues : Continues (history ++ [b]) s ((sinceSaved macs history).getD []) ss
  unsaved : sinceSaved macs history = none → file.Unusable
  saved : sinceSaved macs history ≠ none → macs ≠ [] ∧ ∃ old : YellaSavedState,
    old.macAddresses = macs ∧ file = .savedState (packSavedState old) ∧
    ss = { old with bootCount := old.bootCount + 1 }

/-- What the saved state and the parcels so far have to do with the boots. -/
structure Booted (macs : List YellaMacAddress) (history : List Boot) (s : AgentHistory) : Prop where
  senders : ∀ x ∈ s.identities, ∃ b ∈ history, x.sender = uuidUnparseLower b.generated
  unsaved : sinceSaved macs history = none → s.file.Unusable
  saved : ∀ failed ∈ sinceSaved macs history, macs ≠ [] ∧ ∃ old : YellaSavedState,
    old.macAddresses = macs ∧ s.file = .savedState (packSavedState old) ∧
    (old.bootCount + 1 ≠ 0 →
      Continues history s failed { old with bootCount := old.bootCount + 1 })

theorem booted_firstBoot : Booted macs [] firstBoot where
  senders := by simp [firstBoot]
  unsaved _ := trivial
  saved := by simp [sinceSaved]

theorem Continues.later {more : List Boot} (C : Continues history s failed ss) :
    Continues (history ++ more) s failed ss where
  known := by
    rw [List.map_append]
    exact List.mem_append_left _ C.known
  counted := C.counted
  sent := C.sent

/-- A new id has sent nothing. -/
theorem continues_generated (B : Booted macs history s)
    (fresh : b.generated ∉ history.map Boot.generated) :
    Continues (history ++ [b]) s [] ⟨yellaCreateUuid b.generated, macs, 1⟩ where
  known := by simp [yellaCreateUuid]
  counted := by
    intro x hx same
    obtain ⟨a, ha, sender⟩ := B.senders x hx
    have : a.generated = b.generated := uuidUnparseLower_inj (sender.symm.trans same)
    exact absurd (List.mem_map.mpr ⟨a, ha, this⟩) fresh
  sent := by simp

theorem Booted.load (B : Booted macs history s)
    (fresh : b.generated ∉ history.map Boot.generated) (counts : CountsOn macs s b) :
    ∃ ss file, Loaded macs history s b ss file := by
  cases h : sinceSaved macs history with
  | none =>
    refine ⟨_, _, yellaLoadSavedState_unusable _ _ (B.unsaved h), rfl, ?_, fun _ => trivial, ?_⟩
    · rw [h]
      exact continues_generated B fresh
    · exact fun known => absurd h known
  | some failed =>
    obtain ⟨some_macs, old, rfl, file, continues⟩ := B.saved failed h
    have load := yellaLoadSavedState_saved b.generated some_macs
    rw [← file] at load
    have counted := continues (counts _ load)
    refine ⟨_, _, load, rfl, ?_, ?_, ?_⟩
    · rw [h]
      exact counted.later
    · exact fun unknown => by simp [h] at unknown
    · exact fun _ => ⟨some_macs, old, rfl, file, rfl⟩

/-! ## The parcels of the next boot -/

theorem mem_sendParcels_kind (h : x ∈ sendParcels ss {} b.sent) :
    x.sender = ss.id.text ∧ x.seq.major = ss.bootCount ∧ ∃ kind ∈ b.sent, x.type = kind.type := by
  obtain ⟨kind, i, hi, rfl⟩ := mem_sendParcels h
  exact ⟨rfl, rfl, kind, List.count_pos_iff.mp (by omega), rfl⟩

theorem Continues.sentNext (C : Continues history s failed ss) (b : Boot)
    (file : SavedStateFile) :
    Continues history ⟨file, s.identities ++ sendParcels ss {} b.sent⟩ (failed ++ [b]) ss where
  known := C.known
  counted := by
    intro x hx same
    obtain hx | hx := List.mem_append.mp hx
    · refine (C.counted x hx same).imp_right fun ⟨major, f, hf, again⟩ => ?_
      exact ⟨major, f, List.mem_append_left _ hf, again⟩
    · obtain ⟨-, major, again⟩ := mem_sendParcels_kind hx
      exact .inr ⟨major, b, by simp, again⟩
  sent := by
    intro f hf kind hkind
    obtain hf | hf := List.mem_append.mp hf
    · exact List.mem_append_left _ (C.sent f hf kind hkind)
    · obtain rfl := List.mem_singleton.mp hf
      exact List.mem_append_right _ (first_mem_sendParcels _ hkind)

/-- With the count written, the parcels so far are before the next boot. -/
theorem Continues.countOn (C : Continues history s failed ss) (room : ss.bootCount + 1 ≠ 0) :
    Continues history s [] { ss with bootCount := ss.bootCount + 1 } where
  known := C.known
  counted := by
    intro x hx same
    left
    have upto : x.seq.major.toNat ≤ ss.bootCount.toNat := by
      obtain below | ⟨major, -⟩ := C.counted x hx same
      · exact Nat.le_of_lt (UInt32.lt_iff_toNat_lt.mp below)
      · rw [major]
    have bound := ss.bootCount.toNat_lt
    have next : (ss.bootCount + 1).toNat = ss.bootCount.toNat + 1 := by
      rw [UInt32.toNat_add]
      apply Nat.mod_eq_of_lt
      by_contra full
      apply room
      apply UInt32.toNat.inj
      simp at full ⊢
      omega
    rw [UInt32.lt_iff_toNat_lt, next]
    omega
  sent := by simp

/-- The parcels of a boot are new unless their kinds are sent again. -/
theorem Continues.nodup (C : Continues history s failed ss)
    (few : ∀ kind, b.sent.count kind < 0x100000000) :
    (s.identities ++ sendParcels ss {} b.sent).Nodup ↔
      s.identities.Nodup ∧ ¬ ∃ f ∈ failed, ∃ kind ∈ f.sent, kind ∈ b.sent := by
  rw [List.nodup_append]
  apply and_congr_right
  intro _
  constructor
  · rintro ⟨-, apart⟩ ⟨f, hf, kind, hkind, again⟩
    exact apart _ (C.sent f hf kind hkind) _ (first_mem_sendParcels _ again) rfl
  · intro new
    refine ⟨sendParcels_nodup few, ?_⟩
    rintro x hx _ hy rfl
    obtain ⟨same, major, kind, hkind, type⟩ := mem_sendParcels_kind hy
    obtain below | ⟨-, f, hf, kind', hkind', type'⟩ := C.counted x hx same
    · rw [major] at below
      exact absurd below (UInt32.lt_irrefl _)
    · obtain rfl : kind = kind' := ParcelKind.type_inj (type.symm.trans type')
      exact new ⟨f, hf, kind, hkind', hkind⟩

theorem Booted.boot (B : Booted macs history s)
    (fresh : b.generated ∉ history.map Boot.generated) (counts : CountsOn macs s b)
    (few : ∀ kind, b.sent.count kind < 0x100000000) :
    ∃ t, s.boot macs b = some t ∧ Booted macs (history ++ [b]) t ∧
      (t.identities.Nodup ↔ s.identities.Nodup ∧ ¬ SendsAgain macs history b) := by
  obtain ⟨ss, file, L⟩ := B.load fresh counts
  have C := L.continues
  have sent := C.sentNext b (yellaSaveSavedState ss b.save file).2
  refine ⟨⟨(yellaSaveSavedState ss b.save file).2, _⟩, ?_, ⟨?_, ?_, ?_⟩, C.nodup few⟩
  · simp [AgentHistory.boot, L.load]
  · intro x hx
    obtain hx | hx := List.mem_append.mp hx
    · obtain ⟨a, ha, sender⟩ := B.senders x hx
      exact ⟨a, List.mem_append_left _ ha, sender⟩
    · obtain ⟨a, ha, id⟩ := List.mem_map.mp C.known
      exact ⟨a, ha, by rw [(mem_sendParcels_kind hx).1, ss.id.unparsed, id]⟩
  · intro unsaved
    rw [sinceSaved_snoc] at unsaved
    cases save : b.save with
    | written =>
      simp only [saveTried, save] at unsaved
      by_cases no_macs : macs = []
      · exact packSavedState_unusable (L.addresses.trans no_macs)
      · simp [no_macs] at unsaved
    | notOpened =>
      simp only [saveTried, save, Option.map_eq_none_iff] at unsaved
      exact L.unsaved unsaved
    | notWritten => trivial
  · intro failed hfailed
    rw [sinceSaved_snoc] at hfailed
    cases save : b.save with
    | written =>
      by_cases no_macs : macs = []
      · simp [saveTried, save, no_macs] at hfailed
      · simp only [saveTried, save, no_macs, ↓reduceIte, Option.mem_def,
          Option.some.injEq] at hfailed
        subst hfailed
        rw [save] at sent
        exact ⟨no_macs, ss, L.addresses, rfl, sent.countOn⟩
    | notOpened =>
      simp only [saveTried, save, Option.mem_def, Option.map_eq_some_iff] at hfailed
      obtain ⟨earlier, hearlier, rfl⟩ := hfailed
      obtain ⟨some_macs, old, old_macs, hfile, rfl⟩ := L.saved (by simp [hearlier])
      rw [save, hearlier] at sent
      exact ⟨some_macs, old, old_macs, hfile, fun _ => sent⟩
    | notWritten => simp [saveTried, save] at hfailed

end

/-! ## Histories -/

/-- No two parcels have the same identity exactly when no boot sends a kind of parcel that has
been sent since the saved state could not be opened. -/
theorem identities_unique_iff (macs : List YellaMacAddress) (history : List Boot)
    (ordinary : Ordinary history)
    (counts : (bootMachine macs).AllowedAlong (CountsOn macs) firstBoot history) :
    ∃ s, (bootMachine macs).after firstBoot history = some s ∧
      (s.identities.Nodup ↔ Prefixes.AtEach (fun pre b => ¬ SendsAgain macs pre b) history) := by
  have run : ∃ s, (bootMachine macs).after firstBoot history = some s ∧ Booted macs history s ∧
      (s.identities.Nodup ↔
        Prefixes.AtEach (fun pre b => ¬ SendsAgain macs pre b) history) := by
    induction history using List.reverseRecOn with
    | nil => exact ⟨_, rfl, booted_firstBoot, iff_of_true List.nodup_nil Prefixes.atEach_nil⟩
    | append_singleton history b ih =>
      obtain ⟨before, now⟩ := Machine.allowedAlong_snoc.mp counts
      obtain ⟨fresh, few⟩ := ordinary
      rw [List.map_append, List.map_singleton, List.nodup_append] at fresh
      obtain ⟨s, after, B, each⟩ :=
        ih ⟨fresh.1, fun a ha => few a (List.mem_append_left _ ha)⟩ before
      have unused : b.generated ∉ history.map Boot.generated :=
        fun h => fresh.2.2 _ h _ (List.mem_singleton_self _) rfl
      obtain ⟨t, boot, B', nodup⟩ := B.boot unused (now s after) (few b (by simp))
      refine ⟨t, ?_, B', ?_⟩
      · rw [Machine.after_snoc, after]
        exact boot
      · rw [nodup, each, Prefixes.atEach_snoc]
  obtain ⟨s, after, -, each⟩ := run
  exact ⟨s, after, each⟩

/-- Both states are written. -/
def twoBoots : List Boot :=
  [⟨.replicate 16 1, .written, [.heartbeat, .fileStates, .heartbeat]⟩,
    ⟨.replicate 16 2, .written, [.heartbeat]⟩]

/-- A boot sends a heartbeat with a number that it could not write. -/
def bootNotSaved : List Boot :=
  [⟨.replicate 16 1, .written, []⟩, ⟨.replicate 16 2, .notOpened, [.heartbeat]⟩,
    ⟨.replicate 16 3, .written, [.heartbeat]⟩]

/-- Nobody sends as many parcels as there are numbers. -/
theorem ordinary_of_length {history : List Boot} (fresh : (history.map Boot.generated).Nodup)
    (few : ∀ b ∈ history, b.sent.length < 0x100000000) : Ordinary history where
  fresh
  few b hb _ := Nat.lt_of_le_of_lt List.count_le_length (few b hb)

theorem identities_unique_twoBoots :
    ∃ s, (bootMachine [ethernet]).after firstBoot twoBoots = some s ∧
      (s.identities.Nodup ↔
        Prefixes.AtEach (fun pre b => ¬ SendsAgain [ethernet] pre b) twoBoots) :=
  identities_unique_iff [ethernet] twoBoots
    (ordinary_of_length (by decide) (by decide)) (by decide +kernel)

theorem identities_repeat :
    Ordinary bootNotSaved ∧
    (bootMachine [ethernet]).AllowedAlong (CountsOn [ethernet]) firstBoot bootNotSaved ∧
    ∃ s, (bootMachine [ethernet]).after firstBoot bootNotSaved = some s ∧
      ¬ s.identities.Nodup := by
  refine ⟨ordinary_of_length (by decide) (by decide), by decide +kernel, ?_⟩
  have repeated : ((bootMachine [ethernet]).after firstBoot bootNotSaved).map
      (fun s => decide s.identities.Nodup) = some false := by
    decide +kernel
  obtain ⟨s, after, nodup⟩ := Option.map_eq_some_iff.mp repeated
  exact ⟨s, after, of_decide_eq_false nodup⟩

end Yella
