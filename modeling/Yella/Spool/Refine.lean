import Yella.Spool.Restart

/-!
# The steps of the layout

Every call on a spool is an operation on its layout, as long as the sequence numbers fit.
-/

namespace Yella

/-- The operations on a layout; `id` is the number of the next push. -/
inductive LayoutStep (id : Nat) : Layout → SpoolOp → SpoolOutcome → Layout → Prop where
  | push {L L' : Layout} {msgs : List Bytes} {allow : Allowance} {culled : Option SpoolPos}
      (wf : WellFormed (storedParts msgs)) (whole : L.ready.writer.torn = [])
      (room : (L.allowance allow).landed (eventSize msgs) = eventSize msgs)
      (h : L.push ⟨id, false, storedParts msgs, wf⟩ = some (L', culled)) :
      LayoutStep id L (.push msgs allow)
        (.pushed .noError (some (spoolFileName L'.writer.pos)) (culled.map spoolFileName)) L'
  | tear {L : Layout} {msgs : List Bytes} {allow : Allowance} {bytes : Bytes} {size : UInt64}
      {name : Option UStr} (torn : bytes = [] ∨ IsTorn bytes)
      (whole : L.ready.writer.torn = []) (short : allow ≠ .full) :
      LayoutStep id L (.push msgs allow) (.pushed .writeError name none)
        { L.ready.mapWriter (Segment.tear bytes torn) with currentSize := size }
  | pop {L L' : Layout} {signaled : Bool} {rounds : Nat} {rc : Rc} {parts : List Bytes}
      (h : L.pop rounds = some (L', rc, parts)) :
      LayoutStep id L (.pop signaled) (.popped rc parts) L'
  | restart {L : Layout} {settings : SpoolSettings} :
      LayoutStep id L (.restart settings) .restarted (L.restart settings)

/-- The calls that keep the partitions in order: counts and sequence numbers that fit, and
either all of the event reaches the file, or a failing `fwrite` leaves none of it or at least its
count, at the end of an event. -/
def Layout.Fits (L : Layout) : SpoolOp → Prop
  | .push msgs allow =>
    WellFormed (storedParts msgs) ∧ L.CanRoll allow ∧
      (L.rollDue = false → L.writer.torn = []) ∧
      ((L.allowance allow).landed (eventSize msgs) = eventSize msgs ∨
        (L.allowance allow).grant (eventSize msgs) ≠ eventSize msgs ∧
          ((L.allowance allow).landed (eventSize msgs) = 0 ∨
            2 ≤ (L.allowance allow).landed (eventSize msgs)))
  | .pop _ => True
  | .restart _ => (openPos (kept L.segs)).majorSeq < 0x100000000

/-! ## What the conditions say of the layout -/

namespace Represents
variable {L : Layout} {sp : Spool}

theorem rolls (R : Represents L sp) : sp.rolls = L.rollDue := by
  simp only [Spool.rolls, R.writef, Option.any_some]
  exact R.rollDue

theorem rollFits (R : Represents L sp) (h : sp.RollFits) (due : L.rollDue = true) :
    L.RollFits := by
  have hpos : sp.nextPos = L.nextPos := by rw [Spool.nextPos, R.writePos]; rfl
  have := h (R.rolls.trans due)
  rw [hpos] at this
  exact this

theorem mem_dir (R : Represents L sp) {s : Segment} (hs : s ∈ L.segs) :
    (spoolFileName s.pos, s.file) ∈ sp.disk.dir := by
  rw [R.dir, List.map_map]
  exact List.mem_map.mpr ⟨s, hs, rfl⟩

theorem scan (V : L.Valid) {s : Segment} (hs : s ∈ L.segs) :
    scanName (spoolFileName s.pos) = some s.pos :=
  scanName_spoolFileName (V.fits s (Layout.mem_all_of_segs hs)).1

theorem restartFits (R : Represents L sp) (V : L.Valid) (h : sp.RestartFits) :
    (openPos (kept L.segs)).majorSeq < 0x100000000 := by
  unfold openPos
  cases hlast : (kept L.segs).getLast? with
  | none => decide
  | some t =>
    obtain ⟨s, hs, rfl⟩ := List.mem_map.mp (List.mem_of_getLast? hlast)
    obtain ⟨hs, hlen⟩ := List.mem_filter.mp hs
    have longer : headerSize < (sp.disk.files s.file).length := by
      rw [R.files s (Layout.mem_all_of_segs hs)]
      have := s.content_length
      have : s.content.length ≠ headerSize := by simpa using hlen
      omega
    exact h _ (R.mem_dir hs) s.pos (scan V hs) longer

theorem notStale (R : Represents L sp) (V : L.Valid) (h : sp.NotStale) : L.NotStale := by
  intro hEof
  have hoff := h _ R.readf hEof
  simp only [R.curContent] at hoff
  cases htorn : L.tornRead with
  | true => exact ⟨(V.tornRead htorn).1, .inl rfl⟩
  | false =>
    have hlen := L.cur.content_length
    simp only [Layout.readOff, htorn, Bool.false_eq_true, ↓reduceIte, List.length_append,
      header_length] at hoff
    have todo : L.cur.todo = [] := encodeAll_eq_nil (by omega)
    exact ⟨todo, .inr (List.length_eq_zero_iff.mp (by omega))⟩

theorem near (R : Represents L sp) (V : L.Valid) (h : sp.Near) : L.MinorNear ∧ L.OffNear := by
  constructor
  · intro s hs hmajor
    have := h.1 _ (R.mem_dir hs) s.pos (scan V hs) (by rw [R.writePos]; exact hmajor)
    rwa [R.writePos] at this
  · intro hpos
    exact h.2 _ R.writef _ R.readf (by rw [R.writePos, R.readPos]; exact hpos)

theorem culls (R : Represents L sp) {msgs : List Bytes} (id : Nat)
    (wf : WellFormed (storedParts msgs)) :
    sp.culls msgs = (L.ready.add ⟨id, false, storedParts msgs, wf⟩).cullDue := by
  let r : Record := ⟨id, false, storedParts msgs, wf⟩
  have bytes : eventSize msgs = r.bytes.length := eventSize_eq wf
  have size : (L.ready.add r).currentSize = sp.sizeAfter msgs := by
    simp only [Layout.add, Spool.sizeAfter, R.currentSize, R.rolls, bytes, Layout.ready]
    split
    · rfl
    · simp
  obtain ⟨_, _, _, hmax, hparts, _⟩ := @Layout.mapWriter_other L.ready (Segment.add r)
  have ready : L.ready.maxPartitionSize = L.maxPartitionSize ∧
      L.ready.maxPartitions = L.maxPartitions := by
    unfold Layout.ready
    split <;> exact ⟨rfl, rfl⟩
  rw [Spool.culls, Layout.cullDue, size, R.maxPartitionSize, R.maxPartitions,
    show (L.ready.add r).maxPartitionSize = _ from hmax.trans ready.1,
    show (L.ready.add r).maxPartitions = _ from hparts.trans ready.2]

end Represents

section
variable {lo : ListingOrder} {L : Layout} {sp sp' : Spool}

theorem landed_full (L : Layout) (n : Nat) : (L.allowance .full).landed n = n := by
  unfold Layout.allowance
  split <;> rfl

theorem push_step (R : Represents L sp) (V : L.Valid) {msgs : List Bytes} {allow : Allowance}
    (fits : L.Fits (.push msgs allow)) {rc : Rc} {culled : Option UStr}
    (h : spoolPush lo sp allow msgs = some (sp', rc, culled)) (id : Nat) :
    ∃ L', LayoutStep id L (.push msgs allow) (.pushed rc sp'.writeFileName culled) L' ∧
      Represents L' sp' ∧ L'.Valid := by
  obtain ⟨wf, can, whole, room⟩ := fits
  let r : Record := ⟨id, false, storedParts msgs, wf⟩
  have hwhole := Layout.ready_whole whole
  have h : spoolPush lo sp allow r.parts = some (sp', rc, culled) :=
    (spoolPush_stored sp allow msgs).trans h
  have size : eventSize msgs = r.bytes.length := eventSize_eq wf
  rw [size] at room
  by_cases full : (L.allowance allow).landed r.bytes.length = r.bytes.length
  · have hrel := @push_refines L sp lo R V r rfl allow can whole full
    rw [h] at hrel
    obtain ⟨⟨L', pos⟩, hL', RL', VL', hrc, hculled⟩ := Loop.rel_some_right hrel
    simp only at RL' VL' hrc hculled
    subst hrc hculled
    rw [RL'.writeFileName]
    exact ⟨L', .push wf hwhole (size.symm ▸ full) hL', RL', VL'⟩
  · obtain ⟨short, room⟩ := room.resolve_left full
    have torn : r.bytes.take ((L.allowance allow).landed r.bytes.length) = [] ∨
        IsTorn (r.bytes.take ((L.allowance allow).landed r.bytes.length)) := by
      obtain room | room := room
      · exact .inl (by rw [show (L.allowance allow).landed r.bytes.length = 0 from room]; rfl)
      · exact .inr (isTorn_of_take wf room
          (Nat.lt_of_le_of_ne (Allowance.landed_le _ _) full))
    obtain ⟨sq, size, hpush, RL', VL'⟩ := @push_fails L sp lo R V r rfl allow can whole short torn
    cases hpush.symm.trans h
    refine ⟨_, .tear torn hwhole ?_, RL', VL'⟩
    rintro rfl
    exact full (landed_full L _)

theorem restart_step (R : Represents L sp) (V : L.Valid) {settings : SpoolSettings}
    (fits : L.Fits (.restart settings)) : ∃ disk sp', destroySpool sp = some disk ∧
      createSpool lo settings disk sp.listings = some (some sp') ∧
      Represents (L.restart settings) sp' ∧ (L.restart settings).Valid := by
  obtain ⟨disk, ss, closed, S, hkept, hnext⟩ := R.destroy V
  have fits : (openPos (kept ss)).majorSeq < 0x100000000 := hkept ▸ fits
  obtain ⟨sp', opened, R', V'⟩ := @create_refines lo ss disk S fits settings sp.listings
  rw [hkept, hnext] at R' V'
  exact ⟨disk, sp', closed, opened, R', V'⟩

/-- A step of the spool is a step of its layout. -/
theorem step_refines (R : Represents L sp) (V : L.Valid) {op : SpoolOp} {out : SpoolOutcome}
    (fits : L.Fits op) (step : SpoolStep lo sp op out sp') (id : Nat) :
    ∃ L', LayoutStep id L op out L' ∧ Represents L' sp' ∧ L'.Valid := by
  cases step with
  | push h => exact push_step R V fits h id
  | @pop _ signaled rounds _ _ h =>
    have hrel := @pop_refines L sp lo R V rounds signaled
    rw [h] at hrel
    obtain ⟨⟨L', a⟩, hL', RL', VL', result⟩ := Loop.rel_some_right hrel
    simp only at RL' VL' result
    subst result
    exact ⟨L', .pop hL', RL', VL'⟩
  | @restart _ settings disk closed opened =>
    obtain ⟨disk', sq, hclosed, hopened, R', V'⟩ := @restart_step lo L sp R V settings fits
    cases closed.symm.trans hclosed
    cases opened.symm.trans hopened
    exact ⟨_, .restart, R', V'⟩

/-! What the layout can do the spool can do. -/

theorem push_returns (R : Represents L sp) (V : L.Valid) {id : Nat} {msgs : List Bytes}
    {wf : WellFormed (storedParts msgs)} (fits : L.Fits (.push msgs .full)) {L' : Layout}
    {culled : Option SpoolPos} (h : L.push ⟨id, false, storedParts msgs, wf⟩ = some (L', culled)) :
    ∃ sp', SpoolStep lo sp (.push msgs .full)
        (.pushed .noError sp'.writeFileName (culled.map spoolFileName)) sp' ∧
      Represents L' sp' ∧ L'.Valid := by
  obtain ⟨_, can, whole, _⟩ := fits
  have hrel := @push_refines L sp lo R V ⟨id, false, storedParts msgs, wf⟩ rfl .full can whole
    (landed_full L _)
  rw [h, spoolPush_stored] at hrel
  obtain ⟨⟨sp', rc, name⟩, hpush, R', V', hrc, hname⟩ := Loop.rel_some_left hrel
  simp only at hrc hname
  subst hrc hname
  exact ⟨sp', .push hpush, R', V'⟩

theorem pop_exists (R : Represents L sp) (V : L.Valid) {rounds : Nat} {L' : Layout} {rc : Rc}
    {parts : List Bytes} (h : L.pop rounds = some (L', rc, parts)) (signaled : Bool) :
    ∃ sp', SpoolStep lo sp (.pop signaled) (.popped rc parts) sp' := by
  have hrel := @pop_refines L sp lo R V rounds signaled
  rw [h] at hrel
  obtain ⟨⟨sp', a⟩, hpop, _, _, result⟩ := Loop.rel_some_left hrel
  simp only at result
  subst result
  exact ⟨sp', .pop hpop⟩

theorem restart_returns (R : Represents L sp) (V : L.Valid) {settings : SpoolSettings}
    (fits : L.Fits (.restart settings)) :
    ∃ sp', SpoolStep lo sp (.restart settings) .restarted sp' := by
  obtain ⟨disk, sp', closed, opened, _⟩ := @restart_step lo L sp R V settings fits
  exact ⟨sp', .restart closed opened⟩

/-- What holds of the layout at first and after every step holds in a run. -/
theorem run_invariant {Allowed : Spool → SpoolOp → Prop} (Inv : SpoolTrace → Layout → Prop)
    (start : ∀ settings next, Inv [] (Layout.opened settings next []))
    (fits : ∀ trace sp L op, Represents L sp → L.Valid → Inv trace L → Allowed sp op → L.Fits op)
    (step : ∀ trace sp L op out L', Represents L sp → L.Valid → Inv trace L → Allowed sp op →
      LayoutStep (storedEvents trace).length L op out L' → L'.Valid →
      Inv (trace ++ [(op, out)]) L')
    {trace : SpoolTrace} (run : SpoolRun lo Allowed trace sp) :
    ∃ L, Represents L sp ∧ L.Valid ∧ Inv trace L := by
  induction run with
  | @create settings disk listings sp empty opened =>
    have S : Stored [] disk := ⟨empty, by simp, .nil, .nil, by simp, by simp⟩
    obtain ⟨sq, hsq, R, V⟩ := @create_refines lo [] disk S (by decide) settings listings
    cases opened.symm.trans hsq
    exact ⟨_, R, V, start settings disk.next⟩
  | next _ allowed hstep ih =>
    obtain ⟨L, R, V, inv⟩ := ih
    obtain ⟨L', hL', R', V'⟩ := step_refines R V (fits _ _ L _ R V inv allowed) hstep _
    exact ⟨L', R', V', step _ _ L _ _ L' R V inv allowed hL' V'⟩

end

end Yella
