import Yella.Parcel.Pack
import Yella.Plugin.ConfigMap

/-!
# Parcels that come in

`message_received` of `agent.c` up to the monitor handler of the file plugin. A result of `none`
is a read through a NULL pointer or behind the end of something, or a failed assertion. A text that
is not converted is such a NULL pointer.
-/

namespace Yella

/-- What is linked to the agent: whether its logger permits INFO, the text that `udat_format` makes
of a time, the one that `yella_emit_yaml` makes of a parcel, and what flatcc reads in a payload. -/
structure AgentLinks where
  utf : Utf
  permitsInfo : Bool
  formatTime : UDate → UStr
  emitYaml : YellaParcel → List UInt8
  monitorRequestAsRoot : List UInt8 → FbMonitorRequest

/-- A format without arguments is defined if it converts nothing: each `%` is doubled. -/
def convertsNothing : List UInt8 → Bool
  | [] => true
  | c :: rest =>
    if c = 37 then
      match rest with
      | [] => false
      | d :: rest => d = 37 && convertsNothing rest
    else convertsNothing rest

section
variable (links : AgentLinks)

/-- The texts of a parcel that `yella_add_yaml_string_mapping` converts. -/
def YellaParcel.loggedTexts (pcl : YellaParcel) : List UStr :=
  pcl.sender.toList ++ pcl.recipient.toList ++ [pcl.type] ++
    (pcl.grp.map YellaGroup.identifier).toList

/-- The text of the parcel is the format. -/
def yellaLogParcel (pcl : YellaParcel) : Option Unit :=
  if links.permitsInfo then do
    let time := links.formatTime pcl.time
    if time.length ≠ 16 then none
    let _ ← (time :: pcl.loggedTexts).mapM links.utf.toUtf8
    if convertsNothing (links.emitYaml pcl) then some () else none
  else some ()

/-- Where a parcel is logged, its time has the usual length, its texts are converted, and what is
made of them has nothing to convert. -/
structure Loggable (pcl : YellaParcel) : Prop where
  time : (links.formatTime pcl.time).length = 16
  texts : ∀ s ∈ links.formatTime pcl.time :: pcl.loggedTexts, links.utf.Converts s
  format : convertsNothing (links.emitYaml pcl) = true

/-- An `in_handler`. -/
inductive InHandler where
  | monitorHandler
  | other (func : YellaParcel → Rc)

/-- `in_handlers`, where the file plugin has registered its one capability. The handlers of other
plugins do not touch this one. -/
def findInHandler (others : UStr → Option (YellaParcel → Rc)) (type : UStr) : Option InHandler :=
  if type = monitorRequestType then some .monitorHandler else (others type).map .other

/-- What `message_received` leaves in the log. -/
inductive Reception where
  | handled
  | notRegistered
  | failed (rc : Rc)
  deriving DecidableEq

def Reception.ofRc (rc : Rc) : Reception := if rc = .noError then .handled else .failed rc

/-- `monitor_handler` for a parcel. Without a payload there is nothing to read. -/
def handleMonitorParcel (fplg : FilePlugin) (chance : Chance) (pcl : YellaParcel) :
    Option (FilePlugin × Rc) :=
  pcl.sender.bind fun sender =>
    if pcl.payload = [] then none
    else monitorHandler links.utf fplg chance
      ⟨sender, pcl.type, pcl.cmp, links.monitorRequestAsRoot pcl.payload⟩

/-- The second half of `message_received`. -/
def callHandler (others : UStr → Option (YellaParcel → Rc)) (fplg : FilePlugin) (chance : Chance)
    (pcl : YellaParcel) : Option (FilePlugin × Reception) :=
  match findInHandler others pcl.type with
  | none => some (fplg, .notRegistered)
  | some (.other func) => some (fplg, .ofRc (func pcl))
  | some .monitorHandler =>
    (handleMonitorParcel links fplg chance pcl).map fun r => (r.1, .ofRc r.2)

def messageReceived (others : UStr → Option (YellaParcel → Rc)) (fplg : FilePlugin)
    (chance : Chance) (tbl : FbParcel) : Option (FilePlugin × Reception) := do
  -- the parcel may be NULL
  let pcl ← (← unpackParcel links.utf tbl)
  yellaLogParcel links pcl
  callHandler links others fplg chance pcl

end

/-! ## What a parcel should do -/

/-- The request of the parcel has been installed. -/
def Installs (links : AgentLinks) (before after : FilePlugin) (pcl : YellaParcel) : Prop :=
  ∃ sender req, pcl.sender = some sender ∧
    readRequest links.utf
      ⟨sender, pcl.type, pcl.cmp, links.monitorRequestAsRoot pcl.payload⟩ = some req ∧
    after.configs = installedConfigs before.configs req

/-- A monitor request that is handled has been installed, and otherwise the plugin is left as it
was. -/
def LeavesRight (links : AgentLinks) (before after : FilePlugin) (pcl : YellaParcel)
    (reception : Reception) : Prop :=
  if pcl.type = monitorRequestType ∧ reception = .handled then Installs links before after pcl
  else after = before

/-- The parcel is handled or an error is reported. -/
def ReceivesRight (links : AgentLinks) (others : UStr → Option (YellaParcel → Rc))
    (fplg : FilePlugin) (chance : Chance) (tbl : FbParcel) : Prop :=
  ∃ pcl fplg' reception, unpackParcel links.utf tbl = some (some pcl) ∧
    messageReceived links others fplg chance tbl = some (fplg', reception) ∧
    LeavesRight links fplg fplg' pcl reception

/-- A monitor request has a payload that is not compressed, and is refused or can be
installed. -/
def MonitorParcelFits (links : AgentLinks) (fplg : FilePlugin) (pcl : YellaParcel) : Prop :=
  pcl.cmp = .none ∧ pcl.payload ≠ [] ∧ ∀ sender req, pcl.sender = some sender →
    readRequest links.utf
      ⟨sender, pcl.type, pcl.cmp, links.monitorRequestAsRoot pcl.payload⟩ = some req →
    GetsThrough links.utf fplg req

/-- The fields that are needed are there, a group has its identifier, and the parcel can be
logged where it is. -/
structure FitsHandler (links : AgentLinks) (fplg : FilePlugin) (tbl : FbParcel) : Prop where
  sender : tbl.sender.isSome
  recipient : tbl.recipient.isSome
  type : tbl.type.isSome
  seq : tbl.seq.isSome
  group : ∀ grp ∈ tbl.grp, grp.id.isSome
  logged : links.permitsInfo = true → ∀ pcl, unpackParcel links.utf tbl = some (some pcl) →
    Loggable links pcl
  monitor : ∀ pcl, unpackParcel links.utf tbl = some (some pcl) → pcl.type = monitorRequestType →
    MonitorParcelFits links fplg pcl

section
variable {links : AgentLinks} {others : UStr → Option (YellaParcel → Rc)} {fplg : FilePlugin}
  {chance : Chance} {tbl : FbParcel}

theorem unpackGroupIfPresent_isSome_iff {utf : Utf} {grp : Option FbGroup} :
    (unpackGroupIfPresent utf grp).isSome ↔ ∀ g ∈ grp, g.id.isSome := by
  cases grp with
  | none => simp [unpackGroupIfPresent]
  | some g => cases hid : g.id <;> simp [unpackGroupIfPresent, unpackGroup, hid]

/-- There is a parcel exactly if the required fields are there. -/
theorem unpackParcel_isParcel_iff {utf : Utf} :
    (∃ pcl, unpackParcel utf tbl = some (some pcl)) ↔
      tbl.sender.isSome ∧ tbl.recipient.isSome ∧ tbl.type.isSome ∧ tbl.seq.isSome ∧
        ∀ grp ∈ tbl.grp, grp.id.isSome := by
  rw [← @unpackGroupIfPresent_isSome_iff utf]
  unfold unpackParcel
  cases tbl.sender <;> cases tbl.recipient <;> cases tbl.type <;> cases tbl.seq <;>
    cases unpackGroupIfPresent utf tbl.grp <;> simp

theorem unpackParcel_sender {utf : Utf} {pcl : YellaParcel}
    (h : unpackParcel utf tbl = some (some pcl)) : ∃ sender, pcl.sender = some sender := by
  unfold unpackParcel at h
  split at h
  · simp only [Option.bind_eq_bind, Option.bind_eq_some_iff, Option.some.injEq] at h
    obtain ⟨grp, -, rfl⟩ := h
    exact ⟨_, rfl⟩
  · cases h

section
variable {pcl : YellaParcel} {sender : UStr}

theorem handleMonitorParcel_isSome_iff (hs : pcl.sender = some sender)
    (ht : pcl.type = monitorRequestType) :
    (handleMonitorParcel links fplg chance pcl).isSome ↔ MonitorParcelFits links fplg pcl := by
  have senders (P : UStr → MonitorRequest → Prop) : (∀ other req, pcl.sender = some other →
      readRequest links.utf
        ⟨other, pcl.type, pcl.cmp, links.monitorRequestAsRoot pcl.payload⟩ = some req →
      P other req) ↔ ∀ req, readRequest links.utf
        ⟨sender, pcl.type, pcl.cmp, links.monitorRequestAsRoot pcl.payload⟩ = some req →
      P sender req := by
    rw [hs]
    constructor
    · intro h req read
      exact h sender req rfl read
    · rintro h other req ⟨⟩ read
      exact h req read
  rw [MonitorParcelFits, senders (fun _ req => GetsThrough links.utf fplg req),
    handleMonitorParcel, hs, Option.bind_some]
  by_cases empty : pcl.payload = []
  · simp [empty]
  · by_cases plain : pcl.cmp = .none
    · simp only [empty, ↓reduceIte, monitorHandler, ht, plain, and_self, true_and, ne_eq,
        not_false_eq_true]
      cases hreq : readRequest links.utf
          ⟨sender, monitorRequestType, .none, links.monitorRequestAsRoot pcl.payload⟩ with
      | none => simp
      | some req =>
        simp [← @installConfigNode_exists_iff links.utf fplg req chance, Option.isSome_iff_exists]
    · simp [empty, monitorHandler, plain]

/-- The request is installed, or refused with the plugin as it was. -/
theorem handleMonitorParcel_result (hs : pcl.sender = some sender) {fplg' : FilePlugin} {rc : Rc}
    (h : handleMonitorParcel links fplg chance pcl = some (fplg', rc)) :
    (rc = .noError ∧ Installs links fplg fplg' pcl) ∨ (rc ≠ .noError ∧ fplg' = fplg) := by
  rw [handleMonitorParcel, hs, Option.bind_some] at h
  split at h
  · cases h
  · simp only [monitorHandler] at h
    split at h
    · cases hreq : readRequest links.utf
          ⟨sender, pcl.type, pcl.cmp, links.monitorRequestAsRoot pcl.payload⟩ with
      | none =>
        rw [hreq] at h
        cases h
        exact .inr ⟨by simp, rfl⟩
      | some req =>
        rw [hreq] at h
        obtain ⟨installed, hinstall, h⟩ := Option.map_eq_some_iff.mp h
        cases h
        obtain ⟨-, saved, rfl⟩ := installConfigNode_cases hinstall
        exact .inl ⟨rfl, sender, req, hs, hreq, rfl⟩
    · cases h

end

theorem yellaLogParcel_isSome_iff {pcl : YellaParcel} : (yellaLogParcel links pcl).isSome ↔
    (links.permitsInfo = true → Loggable links pcl) := by
  have texts : ((links.formatTime pcl.time :: pcl.loggedTexts).mapM links.utf.toUtf8).isSome ↔
      ∀ s ∈ links.formatTime pcl.time :: pcl.loggedTexts, links.utf.Converts s :=
    Fallible.mapM_isSome
  unfold yellaLogParcel
  split
  · rename_i permits
    have parts : Loggable links pcl ↔ (links.formatTime pcl.time).length = 16 ∧
        ((links.formatTime pcl.time :: pcl.loggedTexts).mapM links.utf.toUtf8).isSome ∧
        convertsNothing (links.emitYaml pcl) = true := by
      rw [texts]
      exact ⟨fun h => ⟨h.time, h.texts, h.format⟩, fun ⟨a, b, c⟩ => ⟨a, b, c⟩⟩
    rw [parts]
    dsimp only
    generalize (links.formatTime pcl.time :: pcl.loggedTexts).mapM links.utf.toUtf8 = converted
    by_cases length : (links.formatTime pcl.time).length = 16
    · cases converted <;> simp [permits, length]
    · simp [permits, length]
  · rename_i silent
    simp [silent]

theorem findInHandler_ne {type : UStr} (ht : type ≠ monitorRequestType) :
    findInHandler others type = (others type).map .other := if_neg ht

theorem messageReceived_of_unpacked {pcl : YellaParcel}
    (h : unpackParcel links.utf tbl = some (some pcl)) :
    messageReceived links others fplg chance tbl =
      (yellaLogParcel links pcl).bind fun _ => callHandler links others fplg chance pcl := by
  simp only [messageReceived, h, Option.bind_eq_bind, Option.bind_some]

theorem ofRc_eq_handled {rc : Rc} : Reception.ofRc rc = .handled ↔ rc = .noError := by
  unfold Reception.ofRc
  split <;> simp_all

/-- A parcel of another type leaves the plugin as it was. -/
theorem callHandler_other {pcl : YellaParcel} (ht : pcl.type ≠ monitorRequestType) :
    ∃ reception, callHandler links others fplg chance pcl = some (fplg, reception) := by
  rw [callHandler, findInHandler_ne ht]
  cases others pcl.type with
  | none => exact ⟨_, rfl⟩
  | some func => exact ⟨_, rfl⟩

theorem callHandler_monitor {pcl : YellaParcel} (ht : pcl.type = monitorRequestType) :
    callHandler links others fplg chance pcl =
      (handleMonitorParcel links fplg chance pcl).map fun r => (r.1, .ofRc r.2) := by
  rw [callHandler, findInHandler, if_pos ht]

/-- A monitor request that fits is installed or refused, and other parcels do not touch the
plugin. -/
theorem callHandler_leavesRight {pcl : YellaParcel} {sender : UStr} (hs : pcl.sender = some sender)
    (fits : pcl.type = monitorRequestType → MonitorParcelFits links fplg pcl) :
    ∃ fplg' reception, callHandler links others fplg chance pcl = some (fplg', reception) ∧
      LeavesRight links fplg fplg' pcl reception := by
  unfold LeavesRight
  by_cases ht : pcl.type = monitorRequestType
  · have handled : (handleMonitorParcel links fplg chance pcl).isSome :=
      (handleMonitorParcel_isSome_iff hs ht).mpr (fits ht)
    obtain ⟨⟨fplg', rc⟩, handled⟩ := Option.isSome_iff_exists.mp handled
    refine ⟨fplg', .ofRc rc, ?_, ?_⟩
    · rw [callHandler_monitor ht, handled, Option.map_some]
    · simp only [ofRc_eq_handled]
      rcases handleMonitorParcel_result hs handled with ⟨ok, installs⟩ | ⟨refused, kept⟩
      · rw [if_pos ⟨ht, ok⟩]
        exact installs
      · rw [if_neg (fun h => refused h.2)]
        exact kept
  · obtain ⟨reception, called⟩ := @callHandler_other links others fplg chance pcl ht
    refine ⟨fplg, reception, called, ?_⟩
    rw [if_neg (fun h => ht h.1)]

/-- The steps of `message_received` that went through. -/
theorem messageReceived_eq_some {pcl : YellaParcel} {result : FilePlugin × Reception}
    (h : unpackParcel links.utf tbl = some (some pcl)) :
    messageReceived links others fplg chance tbl = some result ↔
      (links.permitsInfo = true → Loggable links pcl) ∧
      callHandler links others fplg chance pcl = some result := by
  rw [messageReceived_of_unpacked h, ← yellaLogParcel_isSome_iff, Option.bind_eq_some_iff,
    Option.isSome_iff_exists]
  constructor
  · rintro ⟨u, logged, called⟩
    exact ⟨⟨u, logged⟩, called⟩
  · rintro ⟨⟨u, logged⟩, called⟩
    exact ⟨u, logged, called⟩

/-- A parcel is handled, or an error reported, exactly if it fits what its handlers take for
granted. -/
theorem receivesRight_iff_fitsHandler :
    ReceivesRight links others fplg chance tbl ↔ FitsHandler links fplg tbl := by
  constructor
  · rintro ⟨pcl, fplg', reception, unpacked, received, -⟩
    obtain ⟨sender, hs⟩ := unpackParcel_sender unpacked
    obtain ⟨hsender, hrecipient, htype, hseq, hgroup⟩ :=
      unpackParcel_isParcel_iff.mp ⟨pcl, unpacked⟩
    obtain ⟨logged, called⟩ := (messageReceived_eq_some unpacked).mp received
    have only {other : YellaParcel} (h : unpackParcel links.utf tbl = some (some other)) :
        pcl = other := by
      simpa [unpacked] using h
    refine ⟨hsender, hrecipient, htype, hseq, hgroup, ?_, ?_⟩
    · intro permits other hother
      obtain rfl := only hother
      exact logged permits
    · intro other hother ht
      obtain rfl := only hother
      apply (@handleMonitorParcel_isSome_iff links fplg chance pcl sender hs ht).mp
      rw [callHandler_monitor ht] at called
      obtain ⟨result, handled, -⟩ := Option.map_eq_some_iff.mp called
      rw [handled]
      rfl
  · intro fits
    obtain ⟨pcl, unpacked⟩ := (@unpackParcel_isParcel_iff tbl links.utf).mpr
      ⟨fits.sender, fits.recipient, fits.type, fits.seq, fits.group⟩
    obtain ⟨sender, hs⟩ := unpackParcel_sender unpacked
    obtain ⟨fplg', reception, called, right⟩ :=
      @callHandler_leavesRight links others fplg chance pcl sender hs (fits.monitor pcl unpacked)
    refine ⟨pcl, fplg', reception, unpacked, ?_, right⟩
    apply (messageReceived_eq_some unpacked).mpr
    exact ⟨fun permits => fits.logged permits pcl unpacked, called⟩

/-- A parcel without a sender comes out as NULL, and its type is read. -/
theorem no_sender_not_received : ¬ ReceivesRight
    { utf := asciiUtf
      permitsInfo := false
      formatTime := fun _ => List.replicate 16 48
      emitYaml := fun _ => []
      monitorRequestAsRoot := fun _ => {} }
    (fun _ => none) .start ⟨0, .written⟩
    { sender := none, recipient := some [97], type := some [98], seq := some ⟨1, 0⟩ } := by
  rintro ⟨pcl, fplg', reception, unpacked, -⟩
  cases unpacked

end

end Yella
