import Yella.Spool.Account

/-!
# First in, first out

Without culls and failures the events come back once each and in order, over any number of
restarts, as long as no pop runs into a stale end-of-file indicator.
-/

namespace Yella

instance (parts : List Bytes) : Decidable (WellFormed parts) :=
  inferInstanceAs (Decidable (_ ∧ _ ∧ ∀ part ∈ parts, part.length < 0x100000000))

/-- An event that fits, no failure and no cull. -/
def UnculledCall (sp : Spool) : SpoolOp → Prop
  | .push msgs allow => WellFormed msgs ∧ allow = .full ∧ sp.culls msgs = false
  | .pop _ => True
  | .restart _ => True

/-- The state before the call is not one in which the order of the events gets lost. -/
def InOrder (sp : Spool) : SpoolOp → Prop
  | .push _ _ => sp.RollFits
  | .pop _ => sp.NotStale ∧ sp.Near
  | .restart _ => sp.RestartFits

def FifoAllowed (sp : Spool) (op : SpoolOp) : Prop := UnculledCall sp op ∧ InOrder sp op

/-- The state before the call is not one in which an event gets lost. -/
def KeepsEvents (sp : Spool) : SpoolOp → Prop
  | .push _ _ => sp.RollFits
  | .pop _ => sp.NotStale
  | .restart _ => sp.RestartFits

def KeptAllowed (sp : Spool) (op : SpoolOp) : Prop := UnculledCall sp op ∧ KeepsEvents sp op

instance (sp : Spool) (op : SpoolOp) : Decidable (UnculledCall sp op) :=
  match op with
  | .push _ _ => inferInstanceAs (Decidable (_ ∧ _ ∧ _))
  | .pop _ => .isTrue trivial
  | .restart _ => .isTrue trivial

instance (sp : Spool) (op : SpoolOp) : Decidable (InOrder sp op) :=
  match op with
  | .push _ _ => inferInstanceAs (Decidable sp.RollFits)
  | .pop _ => inferInstanceAs (Decidable (sp.NotStale ∧ sp.Near))
  | .restart _ => inferInstanceAs (Decidable sp.RestartFits)

instance (sp : Spool) (op : SpoolOp) : Decidable (FifoAllowed sp op) :=
  inferInstanceAs (Decidable (_ ∧ _))

instance (sp : Spool) (op : SpoolOp) : Decidable (KeepsEvents sp op) :=
  match op with
  | .push _ _ => inferInstanceAs (Decidable sp.RollFits)
  | .pop _ => inferInstanceAs (Decidable sp.NotStale)
  | .restart _ => inferInstanceAs (Decidable sp.RestartFits)

instance (sp : Spool) (op : SpoolOp) : Decidable (KeptAllowed sp op) :=
  inferInstanceAs (Decidable (_ ∧ _))

/-- All partitions are in the directory, and every event is accounted for without a cull. -/
structure Unculled (trace : SpoolTrace) (L : Layout) : Prop where
  account : ∃ taken, Accounted trace L taken
  whole : L.Whole
  lost : L.lost = none
  culled : culledFiles trace = []
  pushes : pushes trace = storedEvents trace

theorem stored_wellFormed {msgs : List Bytes} (wf : WellFormed msgs) :
    WellFormed (storedParts msgs) :=
  wellFormed_stored wf.1 wf.2.1

theorem push_unculled {L L' : Layout} {r : Record} {culled : Option SpoolPos}
    (h : L.push r = some (L', culled)) (due : (L.ready.add r).cullDue = false) :
    L' = L.ready.add r ∧ culled = none := by
  unfold Layout.push at h
  simp only [due, Bool.false_eq_true, ↓reduceIte] at h
  cases h
  exact ⟨rfl, rfl⟩

section
variable {lo : ListingOrder} {trace : SpoolTrace} {sp : Spool}

theorem Unculled.start (settings : SpoolSettings) (next : Nat) :
    Unculled [] (Layout.opened settings next []) :=
  ⟨⟨[], .start settings next⟩, Layout.opened_whole settings next, rfl, rfl, rfl⟩

theorem Unculled.fits {L : Layout} (R : Represents L sp) (V : L.Valid) (inv : Unculled trace L)
    {op : SpoolOp} (allowed : KeptAllowed sp op) : L.Fits op := by
  cases op with
  | push msgs allow =>
    obtain ⟨⟨wf, rfl, _⟩, fits⟩ := allowed
    exact push_fits R inv.whole (stored_wellFormed wf) fits
  | pop signaled => trivial
  | restart settings => exact R.restartFits V allowed.2

theorem Unculled.step {L L' : Layout} (R : Represents L sp) (V : L.Valid)
    (inv : Unculled trace L) {op : SpoolOp} {out : SpoolOutcome} (allowed : KeptAllowed sp op)
    (step : LayoutStep (storedEvents trace).length L op out L') :
    Unculled (trace ++ [(op, out)]) L' := by
  obtain ⟨⟨taken, account⟩, whole, hlost, culled, hpushes⟩ := inv
  have full : ∀ msgs allow, op = .push msgs allow → allow = .full ∧ storedParts msgs = msgs := by
    rintro msgs allow rfl
    exact ⟨allowed.1.2.1, storedParts_of_wellFormed allowed.1.1⟩
  have fresh : ∀ signaled, op = .pop signaled → L.NotStale := by
    rintro signaled rfl
    exact R.notStale V allowed.2
  refine ⟨account.step fresh step, whole_step whole step fun _ _ h => (full _ _ h).1, ?_, ?_,
    pushes_step step full hpushes⟩
  · cases step with
    | push wf _ _ h =>
      obtain ⟨rfl, _⟩ := push_unculled h ((R.culls _ wf).symm.trans allowed.1.2.2)
      exact Layout.add_lost_none _ (Layout.ready_lost_none hlost)
    | tear _ _ short => exact absurd (full _ _ rfl).1 short
    | pop h => exact (Layout.pop_reads h).lost.trans hlost
    | restart => rfl
  · have none : culledFiles [(op, out)] = [] := by
      cases step with
      | push wf _ _ h =>
        obtain ⟨_, rfl⟩ := push_unculled h ((R.culls _ wf).symm.trans allowed.1.2.2)
        rfl
      | tear => rfl
      | pop => rfl
      | restart => rfl
    rw [culledFiles_snoc, culled, none]
    rfl

theorem kept_run (run : SpoolRun lo KeptAllowed trace sp) :
    ∃ L, Represents L sp ∧ L.Valid ∧ Unculled trace L :=
  run_invariant Unculled Unculled.start (fun _ _ _ _ R V inv allowed => inv.fits R V allowed)
    (fun _ _ _ _ _ _ R V inv allowed step _ => inv.step R V allowed step) run

theorem fifo_kept {op : SpoolOp} (h : FifoAllowed sp op) : KeptAllowed sp op := by
  cases op with
  | push msgs allow => exact h
  | pop signaled => exact ⟨trivial, h.2.1⟩
  | restart settings => exact h

theorem fifo_run (run : SpoolRun lo FifoAllowed trace sp) :
    ∃ L, Represents L sp ∧ L.Valid ∧ Unculled trace L :=
  kept_run (run.mono fun _ _ => fifo_kept)

theorem tornAhead_of_whole {L : Layout} (whole : L.Whole) : L.tornAhead = 0 := by
  have rest : L.rest.countP (fun s => s.torn ≠ []) = 0 := by
    rw [List.countP_eq_zero]
    intro s hs
    simp [whole s (Layout.mem_all_of_rest hs)]
  rw [Layout.tornAhead, rest, if_neg (fun h => h.1 (whole L.cur Layout.cur_mem_all))]

/-- What an allowed pop returns while an event is unread. -/
theorem pop_next {L : Layout} (R : Represents L sp) (V : L.Valid) (inv : Unculled trace L)
    {signaled : Bool} (allowed : FifoAllowed sp (.pop signaled)) {next : List Bytes}
    (hnext : (storedEvents trace)[(poppedEvents trace).length]? = some next) {rounds : Nat}
    {L' : Layout} {rc : Rc} {parts : List Bytes} (h : L.pop rounds = some (L', rc, parts)) :
    rc = .noError ∧ parts = next := by
  obtain ⟨⟨taken, account⟩, whole, hlost, culled, _⟩ := inv
  obtain ⟨_, stale, hnear⟩ := allowed
  have fresh := R.notStale V stale
  obtain ⟨minor, off⟩ := R.near V hnear
  have hunread := account.unread_of_next culled (List.getElem?_eq_some_iff.mp hnext).1
  have noError : rc = .noError := by
    obtain hrc | rfl := Layout.pop_finds V hlost fresh minor off hunread h
    · exact hrc
    · have lt := Layout.pop_torn fresh h
      rw [tornAhead_of_whole whole] at lt
      exact absurd lt (Nat.not_lt_zero _)
  refine ⟨noError, ?_⟩
  obtain ⟨_, r, hr, rfl⟩ | ⟨hrc, _⟩ := (Layout.pop_pops h fresh).unread
  · exact Option.some.inj ((account.next_eq culled hr).symm.trans hnext)
  · exact absurd noError hrc

/-- An allowed call returns. -/
theorem fifo_returns {L : Layout} (R : Represents L sp) (V : L.Valid) (inv : Unculled trace L)
    {op : SpoolOp} (allowed : FifoAllowed sp op) : ∃ out sp', SpoolStep lo sp op out sp' := by
  cases op with
  | push msgs allow =>
    obtain ⟨⟨wf, rfl, hculls⟩, fits⟩ := allowed
    let r : Record := ⟨0, false, storedParts msgs, stored_wellFormed wf⟩
    have due : (L.ready.add r).cullDue = false :=
      (R.culls 0 (stored_wellFormed wf)).symm.trans hculls
    have hpush : L.push r = some (L.ready.add r, none) := by
      simp [Layout.push, due]
    obtain ⟨sp', h, _⟩ := @push_returns lo L sp R V 0 msgs (stored_wellFormed wf)
      (push_fits R inv.whole (stored_wellFormed wf) fits) _ _ hpush
    exact ⟨_, sp', h⟩
  | pop signaled =>
    have fresh := R.notStale V allowed.2.1
    obtain ⟨rounds, ⟨L', rc, parts⟩, hpop⟩ := Layout.pop_returns ⟨inv.lost, fun _ => fresh⟩
    obtain ⟨sp', h⟩ := @pop_exists lo L sp R V _ _ _ _ hpop signaled
    exact ⟨_, sp', h⟩
  | restart settings =>
    obtain ⟨sp', h⟩ := @restart_returns lo L sp R V settings (R.restartFits V allowed.2)
    exact ⟨_, sp', h⟩

/-- The events that were returned are the first of those that were pushed; an allowed pop
returns the next one, and every allowed call returns. -/
theorem fifo (run : SpoolRun lo FifoAllowed trace sp) :
    poppedEvents trace <+: pushes trace ∧
      (∀ next, (pushes trace)[(poppedEvents trace).length]? = some next →
        ∀ signaled, FifoAllowed sp (.pop signaled) →
          ∀ out sp', SpoolStep lo sp (.pop signaled) out sp' → out = .popped .noError next) ∧
      ∀ op, FifoAllowed sp op → ∃ out sp', SpoolStep lo sp op out sp' := by
  obtain ⟨L, R, V, inv⟩ := fifo_run run
  obtain ⟨taken, account⟩ := inv.account
  rw [inv.pushes]
  refine ⟨account.popped_eq inv.culled ▸ List.take_prefix _ _, ?_,
    fun op allowed => fifo_returns R V inv allowed⟩
  intro next hnext signaled allowed out sp' step
  cases step with
  | @pop _ _ rounds rc parts h =>
    have hrel := @pop_refines L sp lo R V rounds signaled
    rw [h] at hrel
    obtain ⟨⟨L', a⟩, hpop, _, _, result⟩ := Loop.rel_some_right hrel
    simp only at result
    subst result
    obtain ⟨rfl, rfl⟩ := pop_next R V inv allowed hnext hpop
    rfl

/-! ## The events between two calls -/

/-- The events that were returned and those on disk are the ones that were pushed. -/
theorem kept_events (run : SpoolRun lo KeptAllowed trace sp) :
    poppedEvents trace ++ unvisitedEvents sp.disk = pushes trace := by
  obtain ⟨L, R, V, inv⟩ := kept_run run
  obtain ⟨taken, account⟩ := inv.account
  rw [R.unvisitedEvents, inv.pushes]
  exact account.unread_parts inv.culled

variable {sp' : Spool}

/-- A push adds its event at the end, a pop takes the first one, and a restart changes none. -/
theorem unvisited_step (run : SpoolRun lo KeptAllowed trace sp) {op : SpoolOp}
    {out : SpoolOutcome} (allowed : KeptAllowed sp op) (step : SpoolStep lo sp op out sp') :
    poppedEvents [(op, out)] ++ unvisitedEvents sp'.disk =
      unvisitedEvents sp.disk ++ pushes [(op, out)] := by
  have before := kept_events run
  have after := kept_events (run.next allowed step)
  rw [poppedEvents_snoc, pushes_snoc, ← before, List.append_assoc, List.append_assoc] at after
  exact List.append_cancel_left after

theorem kept_push_ok (run : SpoolRun lo KeptAllowed trace sp) {msgs : List Bytes}
    {allow : Allowance} (allowed : KeptAllowed sp (.push msgs allow)) {rc : Rc}
    {culled : Option UStr} (h : spoolPush lo sp allow msgs = some (sp', rc, culled)) :
    rc = .noError := by
  obtain ⟨_, _, _, before⟩ := kept_run run
  obtain ⟨_, _, _, after⟩ := kept_run (run.next allowed (.push h))
  have grown := after.pushes
  rw [pushes_snoc, storedEvents_snoc, before.pushes] at grown
  by_contra fails
  simp [pushes, storedEvents, fails] at grown

end

/-! ## At the end of a new partition -/

def tenPartitions : SpoolSettings := ⟨1000, 10⟩

theorem fifo_over_restart : ∃ trace sp, SpoolRun inCreationOrder FifoAllowed trace sp ∧
    pushes trace = [[[1]], [[2], [3]]] ∧ poppedEvents trace = [[[1]]] ∧
    poppedEvents trace <+: pushes trace ∧
    ∀ out sp', SpoolStep inCreationOrder sp (.pop false) out sp' →
      out = .popped .noError [[2], [3]] := by
  obtain ⟨trace, sp, run, h⟩ := @exists_run inCreationOrder 9 FifoAllowed _ tenPartitions
    [.push [[1]] .full, .push [[2], [3]] .full, .pop false, .restart tenPartitions]
    (fun sp trace => pushes trace = [[[1]], [[2], [3]]] ∧ poppedEvents trace = [[[1]]] ∧
      FifoAllowed sp (.pop false)) (by decide +kernel)
  obtain ⟨hpushes, hpopped, allowed⟩ := of_decide_eq_true h
  obtain ⟨isPrefix, returned, _⟩ := fifo run
  exact ⟨trace, sp, run, hpushes, hpopped, isPrefix,
    returned _ (by rw [hpushes, hpopped]; rfl) false allowed⟩

/-- A pop at the end of the new, empty partition leaves the end-of-file indicator set, and the
event that is pushed after it is lost with its partition: the next pop does not return. -/
theorem staleEof_loses_event : ∃ trace sp, SpoolRun inCreationOrder UnculledCall trace sp ∧
    (pushes trace)[(poppedEvents trace).length]? = some [[2]] ∧
    ∀ out sp', ¬ SpoolStep inCreationOrder sp (.pop false) out sp' := by
  obtain ⟨trace, sp, run, h⟩ := @exists_run inCreationOrder 9 UnculledCall _ tenPartitions
    [.push [[1]] .full, .pop false, .restart tenPartitions, .pop false, .push [[2]] .full]
    (fun sp trace => (pushes trace)[(poppedEvents trace).length]? = some [[2]] ∧
      compareWriteToRead sp = some 7 ∧ (advanceRound inCreationOrder sp).isNone)
    (by decide +kernel)
  obtain ⟨hnext, hcompare, hround⟩ := of_decide_eq_true h
  refine ⟨trace, sp, run, hnext, fun out sp' step => ?_⟩
  cases step with
  | @pop _ _ rounds rc parts h =>
    have hadvance : advanceToNextUnvisited inCreationOrder rounds sp = none := by
      cases rounds with
      | zero => rfl
      | succ rounds =>
        simp [advanceToNextUnvisited, Loop.run, Option.isNone_iff_eq_none.mp hround]
    simp [spoolPop, hcompare, hadvance] at h

end Yella
