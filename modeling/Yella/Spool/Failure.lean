import Yella.Spool.Live

/-!
# Failed pushes

A push that fails may leave the beginning of its event. The reader gets over it, as long as
nothing is written after it.
-/

namespace Yella

namespace Spool

/-- What is left for the event after a new partition. -/
def allowance (sp : Spool) (allow : Allowance) : Allowance :=
  if sp.rolls then allow.spend headerSize else allow

/-- The bytes of the event that `fwrite` takes. -/
def granted (sp : Spool) (allow : Allowance) (msgs : List Bytes) : Nat :=
  (sp.allowance allow).grant (eventSize msgs)

/-- The bytes of the event that reach the file. -/
def landed (sp : Spool) (allow : Allowance) (msgs : List Bytes) : Nat :=
  (sp.allowance allow).landed (eventSize msgs)

/-- The writer's partition ends with a whole event. -/
def EndsWhole (sp : Spool) : Prop :=
  ∀ f ∈ sp.writef, (partitionEvents (sp.disk.files f.file)).2 = []

instance (sp : Spool) : Decidable sp.EndsWhole :=
  inferInstanceAs (Decidable (∀ f ∈ sp.writef, (partitionEvents (sp.disk.files f.file)).2 = []))

end Spool

/-- A push of an event of 1 to `maxMsgCount` parts, each shorter than 2³² bytes, which may fail
and is not followed by a cull; a pop or a restart. -/
def FailingCall (sp : Spool) : SpoolOp → Prop
  | .push msgs allow => WellFormed msgs ∧
      (sp.granted allow msgs = eventSize msgs → sp.culls msgs = false)
  | .pop _ => True
  | .restart _ => True

/-- A new partition can be created where one is due, otherwise the last event is whole; and
either all of the event reaches the file, so that `fflush` does not fail, or an `fwrite` fails and
leaves nothing of the event or at least its count. -/
def Recovers (sp : Spool) : SpoolOp → Prop
  | .push msgs allow => sp.RollFits ∧
      (sp.rolls = true → allow.opens = true ∧ allow.grant headerSize = headerSize) ∧
      (sp.rolls = false → sp.EndsWhole) ∧
      (sp.landed allow msgs = eventSize msgs ∨
        sp.granted allow msgs ≠ eventSize msgs ∧
          (sp.landed allow msgs = 0 ∨ 2 ≤ sp.landed allow msgs))
  | .pop _ => sp.NotStale ∧ sp.Near
  | .restart _ => sp.RestartFits

def FailureAllowed (sp : Spool) (op : SpoolOp) : Prop := FailingCall sp op ∧ Recovers sp op

instance (sp : Spool) (op : SpoolOp) : Decidable (FailingCall sp op) :=
  match op with
  | .push _ _ => inferInstanceAs (Decidable (_ ∧ (_ → _)))
  | .pop _ => .isTrue trivial
  | .restart _ => .isTrue trivial

instance (sp : Spool) (op : SpoolOp) : Decidable (Recovers sp op) :=
  match op with
  | .push _ _ => inferInstanceAs (Decidable (_ ∧ (_ → _ ∧ _) ∧ (_ → _) ∧ (_ ∨ _ ∧ (_ ∨ _))))
  | .pop _ => inferInstanceAs (Decidable (_ ∧ _))
  | .restart _ => inferInstanceAs (Decidable sp.RestartFits)

instance (sp : Spool) (op : SpoolOp) : Decidable (FailureAllowed sp op) :=
  inferInstanceAs (Decidable (_ ∧ _))

/-- The events of the pushes that returned without an error. -/
def acceptedEvents (trace : SpoolTrace) : List (List Bytes) :=
  trace.filterMap fun
    | (.push msgs _, .pushed rc _ _) => if rc = .noError then some msgs else none
    | _ => none

def failedPushes (trace : SpoolTrace) : Nat :=
  trace.countP fun
    | (_, .pushed rc _ _) => rc ≠ .noError
    | _ => false

/-- The pops since the last restart that failed to read an event. -/
def readErrors (trace : SpoolTrace) : Nat :=
  trace.foldl (fun n step => match step.2 with
    | .popped rc _ => if rc = .readError then n + 1 else n
    | .pushed _ _ _ => n
    | .restarted => 0) 0

/-! ## Torn events -/

namespace Layout
variable {L L' : Layout}

theorem tornAhead_le : L.tornAhead ≤ L.tornAll := by
  rw [tornAhead, tornAll, segs, List.countP_cons, Nat.add_comm]
  refine Nat.add_le_add_left ?_ _
  by_cases htorn : L.cur.torn = []
  · simp [htorn]
  · simp only [htorn, not_false_eq_true, ne_eq, true_and, decide_true, ↓reduceIte]
    split <;> omega

/-- How a change of the writer's partition, which ended with a whole event, counts. -/
theorem mapWriter_torn (hlost : L.lost = none) (f : Segment → Segment) {n : Nat}
    (one : (f L.writer).torn ≠ [] → n = 1) :
    (L.mapWriter f).tornAhead ≤ L.tornAhead + n ∧ (L.mapWriter f).tornAll ≤ L.tornAll + n := by
  obtain ⟨cur, tornRead, eof, rest, lost, next, size, parts, current⟩ := L
  simp only at hlost
  subst hlost
  obtain rfl | ⟨before, w, rfl⟩ := List.eq_nil_or_concat rest
  · have one : (f cur).torn ≠ [] → n = 1 := one
    by_cases htorn : (f cur).torn = []
    · simp [mapWriter, tornAhead, tornAll, segs, htorn]
    · have all : (if cur.torn ≠ [] then 1 else 0) ≤ 1 := by split <;> omega
      simp only [mapWriter, tornAhead, tornAll, segs, List.getLast?_nil, List.countP_cons,
        List.countP_nil, htorn, one htorn, ne_eq, not_false_eq_true, true_and, decide_true,
        ↓reduceIte]
      constructor
      · cases tornRead <;> simp
      · omega
  · rw [List.concat_eq_append] at one ⊢
    have one : (f w).torn ≠ [] → n = 1 := by simpa [writer] using one
    simp only [mapWriter, tornAhead, tornAll, segs, List.getLast?_append, List.getLast?_singleton,
      Option.some_or, List.dropLast_concat, List.countP_cons, List.countP_append, List.countP_nil,
      decide_eq_true_eq]
    have last : (if (f w).torn ≠ [] then 1 else 0) ≤ n := by
      by_cases htorn : (f w).torn = []
      · simp [htorn]
      · simp [htorn, one htorn]
    constructor <;> omega

theorem add_torn (hlost : L.lost = none) (whole : L.writer.torn = []) (r : Record) :
    (L.add r).tornAhead ≤ L.tornAhead ∧ (L.add r).tornAll ≤ L.tornAll :=
  @mapWriter_torn L hlost (Segment.add r) 0 fun torn => absurd whole torn

theorem ready_torn : L.ready.tornAhead = L.tornAhead ∧ L.ready.tornAll = L.tornAll := by
  unfold ready
  split
  · have new : List.countP (fun s => s.torn ≠ []) [Segment.create L.nextPos L.next] = 0 := rfl
    simp only [roll, tornAhead, tornAll, segs, List.countP_cons, List.countP_append, new,
      Nat.add_zero]
    exact ⟨rfl, trivial⟩
  · exact ⟨rfl, rfl⟩

theorem restart_torn (settings : SpoolSettings) : (L.restart settings).tornAll ≤ L.tornAll := by
  rw [tornAll, restart, opened_segs, List.countP_append, kept, List.countP_map]
  have : (L.segs.filter (fun s => s.content.length ≠ headerSize)).countP
      ((fun s : Segment => decide (s.torn ≠ [])) ∘ Segment.rewind) ≤ L.tornAll :=
    List.filter_sublist.countP_le
  simpa [Segment.create] using this

end Layout

/-! ## Runs -/

/-- The events are accounted for, and so are the torn ones. -/
structure Recovering (trace : SpoolTrace) (L : Layout) : Prop where
  account : ∃ taken, Accounted trace L taken
  lost : L.lost = none
  culled : culledFiles trace = []
  accepted : acceptedEvents trace = storedEvents trace
  all : L.tornAll ≤ failedPushes trace
  ahead : readErrors trace + L.tornAhead ≤ failedPushes trace

section
variable {lo : ListingOrder} {trace : SpoolTrace} {L L' : Layout} {sp : Spool}

theorem Represents.granted (R : Represents L sp) (allow : Allowance) (msgs : List Bytes) :
    (L.allowance allow).grant (eventSize msgs) = sp.granted allow msgs := by
  simp only [Spool.granted, Spool.allowance, Layout.allowance, R.rolls]

theorem Represents.landed (R : Represents L sp) (allow : Allowance) (msgs : List Bytes) :
    (L.allowance allow).landed (eventSize msgs) = sp.landed allow msgs := by
  simp only [Spool.landed, Spool.allowance, Layout.allowance, R.rolls]

theorem Represents.endsWhole (R : Represents L sp) (h : sp.EndsWhole) : L.writer.torn = [] := by
  have := h _ R.writef
  simp only [R.writerContent, L.writer.partitionEvents] at this
  exact this

theorem failure_fits (R : Represents L sp) (V : L.Valid) {op : SpoolOp}
    (allowed : FailureAllowed sp op) : L.Fits op := by
  cases op with
  | push msgs allow =>
    obtain ⟨⟨wf, _⟩, fits, rolls, whole, room⟩ := allowed
    refine ⟨wellFormed_stored wf.1 wf.2.1, ⟨fun due => R.rollFits fits due,
      fun due => (rolls (R.rolls.trans due)).1, fun due => (rolls (R.rolls.trans due)).2⟩,
      fun due => R.endsWhole (whole (R.rolls.trans due)), ?_⟩
    rw [R.granted, R.landed]
    exact room
  | pop signaled => trivial
  | restart settings => exact R.restartFits V allowed.2

theorem acceptedEvents_step {id : Nat} {op : SpoolOp} {out : SpoolOutcome}
    (h : LayoutStep id L op out L') (allowed : FailingCall sp op)
    (before : acceptedEvents trace = storedEvents trace) :
    acceptedEvents (trace ++ [(op, out)]) = storedEvents (trace ++ [(op, out)]) := by
  have step : acceptedEvents [(op, out)] = storedEvents [(op, out)] := by
    cases h with
    | push => simp [acceptedEvents, storedEvents, storedParts_of_wellFormed allowed.1]
    | tear => rfl
    | pop => rfl
    | restart => rfl
  rw [storedEvents_snoc, ← step, ← before]
  exact List.filterMap_append

theorem failedPushes_pushed {op : SpoolOp} {rc : Rc} {name culled : Option UStr} :
    failedPushes (trace ++ [(op, .pushed rc name culled)]) =
      failedPushes trace + if rc ≠ .noError then 1 else 0 := by
  simp [failedPushes, List.countP_append, List.countP_singleton]

theorem failedPushes_popped {op : SpoolOp} {rc : Rc} {parts : List Bytes} :
    failedPushes (trace ++ [(op, .popped rc parts)]) = failedPushes trace := List.countP_append

theorem failedPushes_restarted {op : SpoolOp} :
    failedPushes (trace ++ [(op, .restarted)]) = failedPushes trace := List.countP_append

theorem readErrors_pushed {op : SpoolOp} {rc : Rc} {name culled : Option UStr} :
    readErrors (trace ++ [(op, .pushed rc name culled)]) = readErrors trace := List.foldl_append

theorem readErrors_popped {op : SpoolOp} {rc : Rc} {parts : List Bytes} :
    readErrors (trace ++ [(op, .popped rc parts)]) =
      if rc = .readError then readErrors trace + 1 else readErrors trace := List.foldl_append

theorem readErrors_restarted {op : SpoolOp} : readErrors (trace ++ [(op, .restarted)]) = 0 := by
  simp [readErrors]

theorem Recovering.step (R : Represents L sp) (V : L.Valid) (inv : Recovering trace L)
    {op : SpoolOp} {out : SpoolOutcome} (allowed : FailureAllowed sp op)
    (step : LayoutStep (storedEvents trace).length L op out L') :
    Recovering (trace ++ [(op, out)]) L' := by
  obtain ⟨⟨taken, account⟩, hlost, culled, accepted, all, ahead⟩ := inv
  have fresh : ∀ signaled, op = .pop signaled → L.NotStale := by
    rintro signaled rfl
    exact R.notStale V allowed.2.1
  have account' := account.step fresh step
  have accepted' := acceptedEvents_step step allowed.1 accepted
  have hready := Layout.ready_lost_none hlost
  obtain ⟨readyAhead, readyAll⟩ := @Layout.ready_torn L
  have noCulls : ∀ {call}, culledFiles [call] = [] → culledFiles (trace ++ [call]) = [] := by
    intro call none
    rw [culledFiles_snoc, culled, none]
    rfl
  cases step with
  | @push _ msgs allow _ wf whole room h =>
    have noCull := allowed.1.2
      ((R.granted allow msgs).symm.trans (Allowance.grant_of_landed room))
    obtain ⟨rfl, rfl⟩ := push_unculled h ((R.culls _ wf).symm.trans noCull)
    obtain ⟨leAhead, leAll⟩ := Layout.add_torn hready whole
      ⟨(storedEvents trace).length, false, storedParts msgs, wf⟩
    refine ⟨account', Layout.add_lost_none _ hready, noCulls rfl, accepted', ?_, ?_⟩
    · rw [failedPushes_pushed]
      omega
    · rw [failedPushes_pushed, readErrors_pushed]
      omega
  | @tear msgs allow bytes size name torn whole short =>
    obtain ⟨leAhead, leAll⟩ := @Layout.mapWriter_torn L.ready hready (Segment.tear bytes torn) 1
      (fun _ => rfl)
    refine ⟨account', Layout.mapWriter_lost_none ⟨rfl, rfl, rfl⟩ hready, noCulls rfl, accepted',
      ?_, ?_⟩
    · rw [failedPushes_pushed, if_pos (by decide)]
      exact Nat.le_trans leAll (by omega)
    · rw [failedPushes_pushed, readErrors_pushed, if_pos (by decide)]
      exact Nat.le_trans (Nat.add_le_add_left leAhead _) (by omega)
  | @pop _ signaled rounds rc parts h =>
    have reads := Layout.pop_reads h
    refine ⟨account', reads.lost.trans hlost, noCulls rfl, accepted', ?_, ?_⟩
    · rw [failedPushes_popped]
      exact Nat.le_trans reads.tornAll all
    · have le : L'.tornAhead ≤ L.tornAhead := reads.torn
      rw [failedPushes_popped, readErrors_popped]
      split
      · rename_i hrc
        subst hrc
        have lt := Layout.pop_torn (fresh _ rfl) h
        omega
      · omega
  | @restart settings =>
    have le := @Layout.restart_torn L settings
    refine ⟨account', rfl, noCulls rfl, accepted', ?_, ?_⟩
    · rw [failedPushes_restarted]
      exact Nat.le_trans le all
    · rw [failedPushes_restarted, readErrors_restarted]
      have := @Layout.tornAhead_le (L.restart settings)
      omega

theorem failure_run (run : SpoolRun lo FailureAllowed trace sp) :
    ∃ L, Represents L sp ∧ L.Valid ∧ Recovering trace L :=
  run_invariant Recovering
    (fun settings next => ⟨⟨[], .start settings next⟩, rfl, rfl, rfl, Nat.le_refl _, Nat.le_refl _⟩)
    (fun _ _ _ _ R V _ allowed => failure_fits R V allowed)
    (fun _ _ _ _ _ _ R V inv allowed step _ => inv.step R V allowed step) run

/-- An allowed push returns, without an error when `fwrite` took the event. -/
theorem failure_push (R : Represents L sp) (V : L.Valid) {msgs : List Bytes} {allow : Allowance}
    (allowed : FailureAllowed sp (.push msgs allow)) : ∃ rc sp',
      SpoolStep lo sp (.push msgs allow) (.pushed rc sp'.writeFileName none) sp' ∧
        (rc = .noError ↔ sp.granted allow msgs = eventSize msgs) := by
  have fits := failure_fits R V allowed
  obtain ⟨wf, can, whole, room⟩ := fits
  let r : Record := ⟨0, false, storedParts msgs, wf⟩
  have size : eventSize msgs = r.bytes.length := eventSize_eq wf
  have granted := R.granted allow msgs
  rw [size] at granted room ⊢
  by_cases full : (L.allowance allow).landed r.bytes.length = r.bytes.length
  · have taken := granted.symm.trans (Allowance.grant_of_landed full)
    have noCull := allowed.1.2 (taken.trans size.symm)
    have due := (R.culls 0 wf).symm.trans noCull
    have hpush : L.push r = some (L.ready.add r, none) := by simp [Layout.push, r, due]
    have hrel := @push_refines L sp lo R V r rfl allow can whole full
    rw [hpush, spoolPush_stored] at hrel
    obtain ⟨⟨sp', rc, name⟩, h, _, _, hrc, hname⟩ := Loop.rel_some_left hrel
    simp only at hrc hname
    subst hrc hname
    exact ⟨_, sp', .push h, fun _ => taken, fun _ => rfl⟩
  · obtain ⟨short, room⟩ := room.resolve_left full
    have torn : r.bytes.take ((L.allowance allow).landed r.bytes.length) = [] ∨
        IsTorn (r.bytes.take ((L.allowance allow).landed r.bytes.length)) := by
      obtain room | room := room
      · exact .inl (by rw [room]; rfl)
      · exact .inr (isTorn_of_take wf room
          (Nat.lt_of_le_of_ne (Allowance.landed_le _ _) full))
    obtain ⟨sp', _, h, _⟩ := @push_fails L sp lo R V r rfl allow can whole short torn
    rw [spoolPush_stored] at h
    exact ⟨_, sp', .push h, fun hrc => (by cases hrc), fun h => absurd (granted.trans h) short⟩

/-- An allowed pop returns the next event, or fails to read a torn one. -/
theorem failure_pop (R : Represents L sp) (V : L.Valid) (inv : Recovering trace L)
    {signaled : Bool} (allowed : FailureAllowed sp (.pop signaled)) : ∃ rc parts sp',
      SpoolStep lo sp (.pop signaled) (.popped rc parts) sp' ∧
        ∀ next, (acceptedEvents trace)[(poppedEvents trace).length]? = some next →
          (rc = .noError ∧ parts = next) ∨ rc = .readError := by
  obtain ⟨_, stale, hnear⟩ := allowed
  have fresh := R.notStale V stale
  obtain ⟨minor, off⟩ := R.near V hnear
  obtain ⟨taken, account⟩ := inv.account
  obtain ⟨rounds, ⟨L', rc, parts⟩, hpop⟩ := Layout.pop_returns ⟨inv.lost, fun _ => fresh⟩
  obtain ⟨sp', step⟩ := @pop_exists lo L sp R V _ _ _ _ hpop signaled
  refine ⟨rc, parts, sp', step, fun next hnext => ?_⟩
  rw [inv.accepted] at hnext
  have hunread := account.unread_of_next inv.culled (List.getElem?_eq_some_iff.mp hnext).1
  obtain hrc | hrc := Layout.pop_finds V inv.lost fresh minor off hunread hpop
  · obtain ⟨_, r, hr, rfl⟩ | ⟨other, _⟩ := (Layout.pop_pops hpop fresh).unread
    · exact .inl ⟨hrc, Option.some.inj ((account.next_eq inv.culled hr).symm.trans hnext)⟩
    · exact absurd hrc other
  · exact .inr hrc

/-- The events of the successful pushes come back in order, and the others are on disk. The
open partitions are there. The allowed calls return: a push without an error when its event
was written, a pop with the next event or a read error, of which there is at most one for
each failed push. -/
theorem failed_push_leaves_spool (run : SpoolRun lo FailureAllowed trace sp) :
    poppedEvents trace ++ unvisitedEvents sp.disk = acceptedEvents trace ∧ sp.Live ∧
      readErrors trace ≤ failedPushes trace ∧
      (∀ msgs allow, FailureAllowed sp (.push msgs allow) → ∃ rc sp',
        SpoolStep lo sp (.push msgs allow) (.pushed rc sp'.writeFileName none) sp' ∧
          (rc = .noError ↔ sp.granted allow msgs = eventSize msgs)) ∧
      (∀ signaled, FailureAllowed sp (.pop signaled) → ∃ rc parts sp',
        SpoolStep lo sp (.pop signaled) (.popped rc parts) sp' ∧
          ∀ next, (acceptedEvents trace)[(poppedEvents trace).length]? = some next →
            (rc = .noError ∧ parts = next) ∨ rc = .readError) ∧
      ∀ settings, FailureAllowed sp (.restart settings) → ∃ sp',
        SpoolStep lo sp (.restart settings) .restarted sp' := by
  obtain ⟨L, R, V, inv⟩ := failure_run run
  obtain ⟨taken, account⟩ := inv.account
  have ahead := inv.ahead
  refine ⟨?_, R.live V inv.lost, by omega, fun _ _ allowed => failure_push R V allowed,
    fun _ allowed => failure_pop R V inv allowed,
    fun settings allowed => @restart_returns lo L sp R V settings (R.restartFits V allowed.2)⟩
  rw [R.unvisitedEvents, inv.accepted, account.unread_parts inv.culled]

end

/-! ## Written after the beginning of an event -/

theorem pushes_after_failure : ∃ trace sp, SpoolRun inCreationOrder FailureAllowed trace sp ∧
    failedPushes trace = 1 ∧ acceptedEvents trace = [[[1]], [[2]]] ∧
    poppedEvents trace = [[[1]], [[2]]] ∧ readErrors trace ≤ failedPushes trace := by
  obtain ⟨trace, sp, run, h⟩ := @exists_run inCreationOrder 9 FailureAllowed _ ⟨16, 10⟩
    [.push [[1]] .full, .push sevenBytes ⟨true, some 8, 0⟩, .push [[2]] .full, .pop false,
      .pop false, .pop false]
    (fun _ trace => failedPushes trace = 1 ∧ acceptedEvents trace = [[[1]], [[2]]] ∧
      poppedEvents trace = [[[1]], [[2]]]) (by decide +kernel)
  obtain ⟨hfailed, haccepted, hpopped⟩ := of_decide_eq_true h
  exact ⟨trace, sp, run, hfailed, haccepted, hpopped, (failed_push_leaves_spool run).2.2.1⟩

/-- The data of the first event could not be written; the second event is returned as its
data. Where `fwrite` fails the first push returns an error, and where `fflush` fails none. -/
theorem failed_push_returned :
    (∃ trace sp, SpoolRun inCreationOrder FailingCall trace sp ∧
      acceptedEvents trace = [[[2]]] ∧ poppedEvents trace = [[[1, 0, 1, 0, 0, 0, 2]]]) ∧
    ∃ trace sp, SpoolRun inCreationOrder FailingCall trace sp ∧
      acceptedEvents trace = [sevenBytes, [[2]]] ∧
      poppedEvents trace = [[[1, 0, 1, 0, 0, 0, 2]]] := by
  constructor
  · obtain ⟨trace, sp, run, h⟩ := @exists_run inCreationOrder 9 FailingCall _ ⟨1000, 10⟩
      [.push sevenBytes ⟨true, some 6, 0⟩, .push [[2]] .full, .pop false]
      (fun _ trace => acceptedEvents trace = [[[2]]] ∧
        poppedEvents trace = [[[1, 0, 1, 0, 0, 0, 2]]]) (by decide +kernel)
    exact ⟨trace, sp, run, of_decide_eq_true h⟩
  · obtain ⟨trace, sp, run, h⟩ := @exists_run inCreationOrder 9 FailingCall _ ⟨1000, 10⟩
      [.push sevenBytes ⟨true, none, 7⟩, .push [[2]] .full, .pop false]
      (fun _ trace => acceptedEvents trace = [sevenBytes, [[2]]] ∧
        poppedEvents trace = [[[1, 0, 1, 0, 0, 0, 2]]]) (by decide +kernel)
    exact ⟨trace, sp, run, of_decide_eq_true h⟩

end Yella
