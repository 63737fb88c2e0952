import Yella.Spool.Culling

/-!
# The partitions in use

The partitions that the writer and the reader have open stay in the directory, as long as a
cull finds a partition between theirs and no pop takes the writer's partition for finished.
-/

namespace Yella

namespace Spool

/-- The open partitions are in the directory under the names that their positions give. -/
def Live (sp : Spool) : Prop :=
  (∃ f, sp.writef = some f ∧ sp.disk.lookup (spoolFileName sp.writePos) = some f.file) ∧
    ∃ f, sp.readf = some f ∧ sp.disk.lookup (spoolFileName sp.readPos) = some f.file

/-- There is a partition after the reader's that the next event does not go to. -/
def Cullable (sp : Spool) : Prop :=
  ∃ e ∈ sp.disk.dir, ∃ pos ∈ scanName e.1,
    sp.readPos < pos ∧ (sp.rolls = true ∨ pos ≠ sp.writePos)

instance (sp : Spool) : Decidable sp.Cullable :=
  inferInstanceAs (Decidable (∃ e ∈ sp.disk.dir, ∃ pos ∈ scanName e.1,
    sp.readPos < pos ∧ (sp.rolls = true ∨ pos ≠ sp.writePos)))

/-- In the writer's partition the end-of-file indicator of the reader is only set at the end,
or the writer is not ahead. -/
def FreshAtWriter (sp : Spool) : Prop :=
  sp.readPos = sp.writePos → sp.NotStale ∨ ∀ diff ∈ compareWriteToRead sp, diff ≤ 0

instance (sp : Spool) : Decidable sp.FreshAtWriter :=
  inferInstanceAs (Decidable (_ → _ ∨ ∀ diff ∈ compareWriteToRead sp, diff ≤ 0))

end Spool

/-- A push of an event of 1 to `maxMsgCount` parts of any size, a pop or a restart, without a
failure. -/
def UnfailingCall : SpoolOp → Prop
  | .push msgs allow => 0 < msgs.length ∧ msgs.length ≤ maxMsgCount ∧ allow = .full
  | .pop _ => True
  | .restart _ => True

/-- The call does not remove an open partition. -/
def KeepsLive (sp : Spool) : SpoolOp → Prop
  | .push msgs _ => sp.RollFits ∧ (sp.culls msgs = true → sp.Cullable)
  | .pop _ => sp.FreshAtWriter
  | .restart _ => sp.RestartFits

def LiveAllowed (sp : Spool) (op : SpoolOp) : Prop := UnfailingCall op ∧ KeepsLive sp op

instance (op : SpoolOp) : Decidable (UnfailingCall op) :=
  match op with
  | .push _ _ => inferInstanceAs (Decidable (_ ∧ _ ∧ _))
  | .pop _ => .isTrue trivial
  | .restart _ => .isTrue trivial

instance (sp : Spool) (op : SpoolOp) : Decidable (KeepsLive sp op) :=
  match op with
  | .push _ _ => inferInstanceAs (Decidable (_ ∧ _))
  | .pop _ => inferInstanceAs (Decidable sp.FreshAtWriter)
  | .restart _ => inferInstanceAs (Decidable sp.RestartFits)

instance (sp : Spool) (op : SpoolOp) : Decidable (LiveAllowed sp op) :=
  inferInstanceAs (Decidable (_ ∧ _))

/-! ## The partitions after the reader's -/

namespace Layout
variable {L L' : Layout}

theorem mapWriter_rest_length (f : Segment → Segment) :
    (L.mapWriter f).rest.length = L.rest.length := by
  unfold mapWriter
  split
  · rfl
  · split
    · rename_i w hw
      have : L.rest ≠ [] := by rintro h; simp [h] at hw
      have : 0 < L.rest.length := List.length_pos_iff.mpr this
      simp only [List.length_append, List.length_dropLast, List.length_singleton]
      omega
    · rfl

theorem ready_rest_length :
    L.ready.rest.length = L.rest.length + if L.rollDue then 1 else 0 := by
  unfold ready
  split <;> simp [roll]

theorem writer_mem_segs (hlost : L.lost = none) : L.writer ∈ L.segs := by
  have := L.writer_mem_all
  simpa [all, hlost] using this

/-- A cull that leaves a partition after the reader's leaves the writer's. -/
theorem cull_keeps (V : L.Valid) (hlost : L.lost = none) (two : 2 ≤ L.rest.length) :
    ∃ L' pos, L.cull = some (L', pos) ∧ L'.lost = none ∧ pos.Fits ∧ pos < L'.writer.pos := by
  match hrest : L.rest, two with
  | s :: t :: rest, _ =>
    have hcull : ∃ L', L.cull = some (L', s.pos) ∧ L'.rest = t :: rest ∧ L'.lost = none := by
      simp [cull, hrest, hlost]
    obtain ⟨L', hcull, hrest', hlost'⟩ := hcull
    refine ⟨L', s.pos, hcull, hlost', (V.fits s (mem_all_of_rest (by simp [hrest]))).1, ?_⟩
    have hwriter : L'.writer ∈ t :: rest :=
      hrest' ▸ writer_mem_rest hlost' (by simp [hrest'])
    have order := V.segs_order
    rw [segs, hrest, List.pairwise_cons, List.pairwise_cons] at order
    exact order.2.1 _ hwriter

end Layout

namespace Represents
variable {L : Layout} {sp : Spool}

theorem live (R : Represents L sp) (V : L.Valid) (hlost : L.lost = none) : sp.Live := by
  refine ⟨⟨_, R.writef, ?_⟩, ⟨_, R.readf, ?_⟩⟩
  · rw [R.writePos]
    exact R.lookup V (Layout.writer_mem_segs hlost)
  · rw [R.readPos]
    exact R.lookup V Layout.cur_mem_segs

/-- An entry of the directory is a partition. -/
theorem of_mem_dir (R : Represents L sp) (V : L.Valid) {e : UStr × Nat} (he : e ∈ sp.disk.dir)
    {pos : SpoolPos} (hpos : pos ∈ scanName e.1) : ∃ s ∈ L.segs, s.pos = pos := by
  rw [R.dir, List.map_map] at he
  obtain ⟨s, hs, rfl⟩ := List.mem_map.mp he
  have : scanName (spoolFileName s.pos) = some pos := hpos
  rw [scan V hs] at this
  exact ⟨s, hs, Option.some.inj this⟩

/-- With a partition to cull there are two after the reader's once the event is written. -/
theorem cullable (R : Represents L sp) (V : L.Valid) (hlost : L.lost = none)
    (h : sp.Cullable) : 2 ≤ L.ready.rest.length := by
  obtain ⟨e, he, pos, hpos, after, other⟩ := h
  obtain ⟨s, hs, rfl⟩ := R.of_mem_dir V he hpos
  rw [R.readPos] at after
  have hrest : s ∈ L.rest := by
    obtain rfl | hs := List.mem_cons.mp hs
    · exact absurd after (SpoolPos.lt_irrefl _)
    · exact hs
  rw [Layout.ready_rest_length]
  obtain rolls | other := other
  · rw [R.rolls] at rolls
    have := List.length_pos_of_mem hrest
    simp only [rolls, ↓reduceIte]
    omega
  · have hwriter := Layout.writer_mem_rest hlost (List.ne_nil_of_mem hrest)
    match hL : L.rest, hrest, hwriter with
    | [t], hs, hw =>
      rw [List.mem_singleton.mp hs, R.writePos, List.mem_singleton.mp hw] at other
      exact absurd rfl other
    | _ :: _ :: _, _, _ =>
      simp only [List.length_cons]
      omega

theorem pop_returns (R : Represents L sp) (V : L.Valid) (hlost : L.lost = none)
    (h : sp.FreshAtWriter) : ∃ rounds a, L.pop rounds = some a := by
  by_cases ahead : L.compare > 0
  · refine Layout.pop_returns ⟨hlost, fun hrest => ?_⟩
    have hwriter : L.writer = L.cur := by simp [Layout.writer, hlost, hrest]
    have samePos : sp.readPos = sp.writePos := by rw [R.readPos, R.writePos, hwriter]
    obtain fresh | behind := h samePos
    · exact R.notStale V fresh
    · exact absurd (behind _ R.compare) (by omega)
  · exact ⟨0, _, by rw [Layout.pop, if_neg ahead]⟩

end Represents

/-! ## Runs -/

/-- The partitions in use are in the directory. -/
structure InUse (L : Layout) : Prop where
  lost : L.lost = none
  whole : L.Whole

section
variable {lo : ListingOrder} {trace : SpoolTrace} {L L' : Layout} {sp : Spool}

/-- What the allowed pushes do to the layout. -/
theorem push_live (R : Represents L sp) (V : L.Valid) (inv : InUse L) {msgs : List Bytes}
    (wf : WellFormed (storedParts msgs)) (fits : sp.RollFits)
    (cullable : sp.culls msgs = true → sp.Cullable) (id : Nat) :
    ∃ L' culled, L.push ⟨id, false, storedParts msgs, wf⟩ = some (L', culled) ∧
      L'.lost = none ∧ (sp.culls msgs = true → culled.isSome) ∧
      ∀ pos ∈ culled, pos.Fits ∧ pos < L'.writer.pos := by
  let r : Record := ⟨id, false, storedParts msgs, wf⟩
  have can : L.CanRoll .full := canRoll_full fun due => R.rollFits fits due
  have hlost := Layout.add_lost_none r (Layout.ready_lost_none inv.lost)
  have hculls := R.culls id wf
  unfold Layout.push
  simp only
  split
  · rename_i due
    have V' : (L.ready.add r).Valid := by
      have whole := Layout.ready_whole fun _ => inv.whole _ L.writer_mem_all
      have := (V.ready can).mapWriter (f := Segment.add r) ⟨rfl, rfl, rfl⟩ whole
      exact ⟨this.apart, this.order, this.fits, this.fresh, this.begins, this.tornRead⟩
    have two : 2 ≤ (L.ready.add r).rest.length := by
      have := R.cullable V inv.lost (cullable (hculls.trans due))
      rwa [← @Layout.mapWriter_rest_length L.ready (Segment.add r)] at this
    obtain ⟨L', pos, hcull, hlost', before⟩ := Layout.cull_keeps V' hlost two
    rw [hcull]
    refine ⟨L', some pos, rfl, hlost', fun _ => rfl, fun q hq => ?_⟩
    cases hq
    exact before
  · rename_i due
    refine ⟨_, none, rfl, hlost, fun h => ?_, fun pos hpos => ?_⟩
    · exact absurd (hculls.symm.trans h) due
    · cases hpos

theorem InUse.fits (R : Represents L sp) (V : L.Valid) (inv : InUse L) {op : SpoolOp}
    (allowed : LiveAllowed sp op) : L.Fits op := by
  cases op with
  | push msgs allow =>
    obtain ⟨⟨some, few, rfl⟩, fits, _⟩ := allowed
    exact push_fits R inv.whole (wellFormed_stored some few) fits
  | pop signaled => trivial
  | restart settings => exact R.restartFits V allowed.2

theorem InUse.step (R : Represents L sp) (V : L.Valid) (inv : InUse L) {id : Nat} {op : SpoolOp}
    {out : SpoolOutcome} (allowed : LiveAllowed sp op) (step : LayoutStep id L op out L') :
    InUse L' := by
  have full : ∀ msgs allow, op = .push msgs allow → allow = .full := by
    rintro msgs allow rfl
    exact allowed.1.2.2
  refine ⟨?_, whole_step inv.whole step full⟩
  cases step with
  | push wf _ _ h =>
    obtain ⟨L'', culled, hpush, hlost, _⟩ := push_live R V inv wf allowed.2.1 allowed.2.2 id
    rw [h] at hpush
    cases hpush
    exact hlost
  | tear _ _ short => exact absurd (full _ _ rfl) short
  | pop h => exact (Layout.pop_reads h).lost.trans inv.lost
  | restart => rfl

theorem live_run (run : SpoolRun lo LiveAllowed trace sp) :
    ∃ L, Represents L sp ∧ L.Valid ∧ InUse L :=
  run_invariant (fun _ => InUse) (fun settings next => ⟨rfl, Layout.opened_whole settings next⟩)
    (fun _ _ _ _ R V inv allowed => inv.fits R V allowed)
    (fun _ _ _ _ _ _ R V inv allowed step _ => inv.step R V allowed step) run

/-- An allowed push returns, and where it is followed by a cull, an earlier partition than
the writer's is removed. -/
theorem live_push (R : Represents L sp) (V : L.Valid) (inv : InUse L) {msgs : List Bytes}
    (allowed : LiveAllowed sp (.push msgs .full)) : ∃ sp' culled,
      SpoolStep lo sp (.push msgs .full) (.pushed .noError sp'.writeFileName culled) sp' ∧
      (sp.culls msgs = true → culled.isSome) ∧
      ∀ name ∈ culled, name ≠ spoolFileName sp'.writePos := by
  obtain ⟨⟨some, few, _⟩, fits, cullable⟩ := allowed
  have wf := wellFormed_stored some few
  obtain ⟨L', culled, hpush, _, hculls, before⟩ := push_live R V inv wf fits cullable 0
  have hfits := push_fits R inv.whole wf fits
  obtain ⟨sp', step, R', V'⟩ := @push_returns lo L sp R V 0 msgs wf hfits L' culled hpush
  refine ⟨sp', _, step, fun h => by simpa using hculls h, fun name hname => ?_⟩
  obtain ⟨pos, hpos, rfl⟩ := Option.map_eq_some_iff.mp hname
  obtain ⟨hfits, hlt⟩ := before pos hpos
  rw [R'.writePos, ne_eq, spoolFileName_inj hfits (V'.fits _ L'.writer_mem_all).1]
  rintro rfl
  exact SpoolPos.lt_irrefl _ hlt

/-- The open partitions are there, where every event has 1 to `maxMsgCount` parts. A push that
is followed by a cull removes another one than the writer's, and every allowed call returns;
so a pop finds the next partition. -/
theorem live_partitions (run : SpoolRun lo LiveAllowed trace sp) :
    sp.Live ∧
      (∀ msgs, LiveAllowed sp (.push msgs .full) → ∃ sp' culled,
        SpoolStep lo sp (.push msgs .full) (.pushed .noError sp'.writeFileName culled) sp' ∧
          (sp.culls msgs = true → culled.isSome) ∧
          ∀ name ∈ culled, name ≠ spoolFileName sp'.writePos) ∧
      ∀ op, LiveAllowed sp op → ∃ out sp', SpoolStep lo sp op out sp' := by
  obtain ⟨L, R, V, inv⟩ := live_run run
  refine ⟨R.live V inv.lost, fun msgs allowed => live_push R V inv allowed, ?_⟩
  intro op allowed
  cases op with
  | push msgs allow =>
    obtain ⟨_, _, rfl⟩ := allowed.1
    obtain ⟨sp', culled, step, _⟩ := @live_push lo L sp R V inv msgs allowed
    exact ⟨_, sp', step⟩
  | pop signaled =>
    obtain ⟨rounds, ⟨L', rc, parts⟩, hpop⟩ := R.pop_returns V inv.lost allowed.2
    obtain ⟨sp', step⟩ := @pop_exists lo L sp R V _ _ _ _ hpop signaled
    exact ⟨_, sp', step⟩
  | restart settings =>
    obtain ⟨sp', step⟩ := @restart_returns lo L sp R V settings (R.restartFits V allowed.2)
    exact ⟨_, sp', step⟩

end

/-! ## Two partitions are not enough -/

def sevenBytes : List Bytes := [[1, 2, 3, 4, 5, 6, 7]]

/-- Of three partitions the one between the reader's and the writer's is culled. -/
theorem middle_culled : ∃ trace sp, SpoolRun inCreationOrder LiveAllowed trace sp ∧
    (culledFiles trace).length = 1 ∧ sp.Live := by
  obtain ⟨trace, sp, run, h⟩ := @exists_run inCreationOrder 9 LiveAllowed _ ⟨20, 3⟩
    [.push sevenBytes .full, .push sevenBytes .full, .push sevenBytes .full, .pop false]
    (fun _ trace => (culledFiles trace).length = 1) (by decide +kernel)
  exact ⟨trace, sp, run, of_decide_eq_true h, (live_partitions run).1⟩

/-- Of two partitions the writer's own one is culled. -/
theorem writer_culled : ∃ trace sp,
    SpoolRun inCreationOrder (fun _ => UnfailingCall) trace sp ∧ ¬ sp.Live := by
  obtain ⟨trace, sp, run, h⟩ := @exists_run inCreationOrder 9 (fun _ => UnfailingCall) _ ⟨20, 2⟩
    [.push sevenBytes .full, .push sevenBytes .full]
    (fun sp _ => sp.disk.lookup (spoolFileName sp.writePos) = none) (by decide +kernel)
  refine ⟨trace, sp, run, fun live => ?_⟩
  obtain ⟨⟨f, _, found⟩, _⟩ := live
  rw [of_decide_eq_true h] at found
  cases found

end Yella
