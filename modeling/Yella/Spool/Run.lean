import Yella.Spool.Find
import Yella.Spool.Format

/-!
# Runs

The operations on a spool one after the other, from an empty directory on.
-/

namespace Yella

inductive SpoolOp where
  | push (msgs : List Bytes) (allow : Allowance)
  | pop (signaled : Bool)
  /-- `destroy_spool` and `create_spool` -/
  | restart (settings : SpoolSettings)

/-- What a call returns; for a push also the partition that it wrote to, and the one that was
culled. -/
inductive SpoolOutcome where
  | pushed (rc : Rc) (name culled : Option UStr)
  | popped (rc : Rc) (parts : List Bytes)
  | restarted

abbrev SpoolTrace := List (SpoolOp × SpoolOutcome)

/-- A call that returns. -/
inductive SpoolStep (lo : ListingOrder) : Spool → SpoolOp → SpoolOutcome → Spool → Prop where
  | push {sp sp' : Spool} {msgs : List Bytes} {allow : Allowance} {rc : Rc}
      {culled : Option UStr} (h : spoolPush lo sp allow msgs = some (sp', rc, culled)) :
      SpoolStep lo sp (.push msgs allow) (.pushed rc sp'.writeFileName culled) sp'
  | pop {sp sp' : Spool} {signaled : Bool} {rounds : Nat} {rc : Rc} {parts : List Bytes}
      (h : spoolPop lo rounds signaled sp = some (sp', rc, parts)) :
      SpoolStep lo sp (.pop signaled) (.popped rc parts) sp'
  | restart {sp sp' : Spool} {settings : SpoolSettings} {disk : Disk}
      (closed : destroySpool sp = some disk)
      (opened : createSpool lo settings disk sp.listings = some (some sp')) :
      SpoolStep lo sp (.restart settings) .restarted sp'

/-- A run of allowed calls. -/
inductive SpoolRun (lo : ListingOrder) (Allowed : Spool → SpoolOp → Prop) :
    SpoolTrace → Spool → Prop where
  | create {settings : SpoolSettings} {disk : Disk} {listings : Nat} {sp : Spool}
      (empty : disk.dir = []) (opened : createSpool lo settings disk listings = some (some sp)) :
      SpoolRun lo Allowed [] sp
  | next {trace : SpoolTrace} {sp sp' : Spool} {op : SpoolOp} {out : SpoolOutcome}
      (run : SpoolRun lo Allowed trace sp) (allowed : Allowed sp op)
      (step : SpoolStep lo sp op out sp') : SpoolRun lo Allowed (trace ++ [(op, out)]) sp'

theorem SpoolRun.mono {lo : ListingOrder} {Allowed Allowed' : Spool → SpoolOp → Prop}
    {trace : SpoolTrace} {sp : Spool} (run : SpoolRun lo Allowed trace sp)
    (weaker : ∀ sp op, Allowed sp op → Allowed' sp op) : SpoolRun lo Allowed' trace sp := by
  induction run with
  | create empty opened => exact .create empty opened
  | next _ allowed step ih => exact .next ih (weaker _ _ allowed) step

/-! ## What a run has done -/

/-- The events of all pushes. -/
def pushes (trace : SpoolTrace) : List (List Bytes) :=
  trace.filterMap fun
    | (.push msgs _, _) => some msgs
    | _ => none

/-- What the pushes wrote that returned without an error. -/
def storedEvents (trace : SpoolTrace) : List (List Bytes) :=
  trace.filterMap fun
    | (.push msgs _, .pushed rc _ _) => if rc = .noError then some (storedParts msgs) else none
    | _ => none

/-- The partitions they were written to. -/
def pushedFiles (trace : SpoolTrace) : List (Option UStr) :=
  trace.filterMap fun
    | (.push _ _, .pushed rc name _) => if rc = .noError then some name else none
    | _ => none

/-- The events that were returned. -/
def poppedEvents (trace : SpoolTrace) : List (List Bytes) :=
  trace.filterMap fun
    | (_, .popped rc parts) => if rc = .noError then some parts else none
    | _ => none

/-- The partitions that were culled. -/
def culledFiles (trace : SpoolTrace) : List UStr :=
  trace.filterMap fun
    | (_, .pushed _ _ culled) => culled
    | _ => none

section
variable (trace : SpoolTrace) (call : SpoolOp × SpoolOutcome)

theorem pushes_snoc : pushes (trace ++ [call]) = pushes trace ++ pushes [call] :=
  List.filterMap_append

theorem storedEvents_snoc :
    storedEvents (trace ++ [call]) = storedEvents trace ++ storedEvents [call] :=
  List.filterMap_append

theorem pushedFiles_snoc :
    pushedFiles (trace ++ [call]) = pushedFiles trace ++ pushedFiles [call] :=
  List.filterMap_append

theorem poppedEvents_snoc :
    poppedEvents (trace ++ [call]) = poppedEvents trace ++ poppedEvents [call] :=
  List.filterMap_append

theorem culledFiles_snoc :
    culledFiles (trace ++ [call]) = culledFiles trace ++ culledFiles [call] :=
  List.filterMap_append

end

/-! ## Conditions on the state before a call -/

namespace Spool

/-- The next push starts a new partition. -/
def rolls (sp : Spool) : Bool := sp.writef.any (rollDue sp)

def nextPos (sp : Spool) : SpoolPos :=
  { sp.writePos with minorSeq := sp.writePos.minorSeq + 1 }

/-- The minor sequence number does not overflow, and the new partition is before the last
position, where the scan for the oldest one starts. -/
def RollFits (sp : Spool) : Prop :=
  sp.rolls = true →
    sp.nextPos.minorSeq < 0x100000000 ∧ sp.nextPos < ⟨0xffffffff, 0xffffffff⟩

/-- The major sequence number does not overflow at a restart. -/
def RestartFits (sp : Spool) : Prop :=
  ∀ e ∈ sp.disk.dir, ∀ pos ∈ scanName e.1,
    headerSize < (sp.disk.files e.2).length → pos.majorSeq + 1 < 0x100000000

/-- The end-of-file indicator of the reader is not set while there are bytes ahead of it. -/
def NotStale (sp : Spool) : Prop :=
  ∀ f ∈ sp.readf, f.eof = true → (sp.disk.files f.file).length ≤ f.off

/-- The partitions of this session are less than 2^31 behind the writer's, and in the
writer's partition the reader is less than 2^31 bytes behind. -/
def Near (sp : Spool) : Prop :=
  (∀ e ∈ sp.disk.dir, ∀ pos ∈ scanName e.1, pos.majorSeq = sp.writePos.majorSeq →
      sp.writePos.minorSeq - pos.minorSeq < 0x80000000) ∧
    ∀ f ∈ sp.writef, ∀ g ∈ sp.readf, sp.readPos = sp.writePos → f.off - g.off < 0x80000000

/-- `current_size` after a push. -/
def sizeAfter (sp : Spool) (msgs : List Bytes) : UInt64 :=
  sp.stats.currentSize + (if sp.rolls then UInt64.ofNat headerSize else 0) +
    UInt64.ofNat (eventSize msgs)

/-- A push of this event is followed by a cull. -/
def culls (sp : Spool) (msgs : List Bytes) : Bool :=
  sp.stats.maxPartitions * sp.stats.maxPartitionSize ≤ sp.sizeAfter msgs

instance (sp : Spool) : Decidable sp.RollFits := inferInstanceAs (Decidable (_ → _))

instance (sp : Spool) : Decidable sp.RestartFits :=
  inferInstanceAs (Decidable (∀ e ∈ sp.disk.dir, ∀ pos ∈ scanName e.1,
    headerSize < (sp.disk.files e.2).length → pos.majorSeq + 1 < 0x100000000))

instance (sp : Spool) : Decidable sp.NotStale :=
  inferInstanceAs (Decidable (∀ f ∈ sp.readf, f.eof = true →
    (sp.disk.files f.file).length ≤ f.off))

instance (sp : Spool) : Decidable sp.Near := inferInstanceAs (Decidable (_ ∧ _))

end Spool

/-! ## Replaying calls -/

/-- The entries in the order in which they were created. -/
def inCreationOrder : ListingOrder := ⟨fun _ dir => dir, fun _ _ => .refl _⟩

/-- A call, if it returns within the given rounds. -/
def callSpool (lo : ListingOrder) (rounds : Nat) (sp : Spool) :
    SpoolOp → Option (Spool × SpoolOutcome)
  | .push msgs allow =>
    (spoolPush lo sp allow msgs).map fun (sp, rc, culled) =>
      (sp, .pushed rc sp.writeFileName culled)
  | .pop signaled =>
    (spoolPop lo rounds signaled sp).map fun (sp, rc, parts) => (sp, .popped rc parts)
  | .restart settings =>
    (destroySpool sp).bind fun disk =>
      (createSpool lo settings disk sp.listings).join.map fun sp => (sp, .restarted)

def replay (lo : ListingOrder) (rounds : Nat) (allowed : Spool → SpoolOp → Bool) :
    List SpoolOp → Spool → SpoolTrace → Option (Spool × SpoolTrace)
  | [], sp, trace => some (sp, trace)
  | op :: ops, sp, trace =>
    if allowed sp op then
      (callSpool lo rounds sp op).bind fun (sp, out) =>
        replay lo rounds allowed ops sp (trace ++ [(op, out)])
    else none

/-- The calls from an empty directory on. -/
def replayNew (lo : ListingOrder) (rounds : Nat) (allowed : Spool → SpoolOp → Bool)
    (settings : SpoolSettings) (ops : List SpoolOp) : Option (Spool × SpoolTrace) :=
  (createSpool lo settings Disk.empty 0).join.bind fun sp => replay lo rounds allowed ops sp []

section
variable {lo : ListingOrder} {rounds : Nat} {sp sp' : Spool} {op : SpoolOp} {out : SpoolOutcome}

theorem callSpool_step (h : callSpool lo rounds sp op = some (sp', out)) :
    SpoolStep lo sp op out sp' := by
  cases op with
  | push msgs allow =>
    obtain ⟨⟨sq, rc, culled⟩, hpush, hsq⟩ := Option.map_eq_some_iff.mp h
    cases hsq
    exact .push hpush
  | pop signaled =>
    obtain ⟨⟨sq, rc, parts⟩, hpop, hsq⟩ := Option.map_eq_some_iff.mp h
    cases hsq
    exact .pop hpop
  | restart settings =>
    obtain ⟨disk, hdisk, h⟩ := Option.bind_eq_some_iff.mp h
    obtain ⟨sq, hcreate, hsq⟩ := Option.map_eq_some_iff.mp h
    cases hsq
    exact .restart hdisk (Option.join_eq_some_iff.mp hcreate)

variable {Allowed : Spool → SpoolOp → Prop} [∀ sp op, Decidable (Allowed sp op)]

theorem replay_run {ops : List SpoolOp} {trace trace' : SpoolTrace}
    (run : SpoolRun lo Allowed trace sp)
    (h : replay lo rounds (fun sp op => Allowed sp op) ops sp trace = some (sp', trace')) :
    SpoolRun lo Allowed trace' sp' := by
  induction ops generalizing sp trace with
  | nil =>
    cases h
    exact run
  | cons op ops ih =>
    unfold replay at h
    split at h
    · rename_i allowed
      obtain ⟨⟨sq, out⟩, hcall, h⟩ := Option.bind_eq_some_iff.mp h
      exact ih (.next run (of_decide_eq_true allowed) (callSpool_step hcall)) h
    · cases h

/-- A replay with a property is a run with it. -/
theorem exists_run {settings : SpoolSettings} {ops : List SpoolOp}
    {p : Spool → SpoolTrace → Bool}
    (h : (replayNew lo rounds (fun sp op => Allowed sp op) settings ops).any
      (fun s => p s.1 s.2) = true) :
    ∃ trace sp, SpoolRun lo Allowed trace sp ∧ p sp trace = true := by
  obtain ⟨⟨sp, trace⟩, hreplay, hp⟩ := (Option.any_eq_true _ _).mp h
  obtain ⟨sq, hcreate, hreplay⟩ := Option.bind_eq_some_iff.mp hreplay
  exact ⟨trace, sp, replay_run (.create rfl (Option.join_eq_some_iff.mp hcreate)) hreplay, hp⟩

end

end Yella
