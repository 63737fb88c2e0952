import Yella.Spool.Live

/-!
# The test for emptiness

The spool is taken to be empty when its size is that of one new partition. A pop leaves the
size as it is, so the answer is right until the last unvisited event is popped.
-/

namespace Yella

namespace Spool

/-- The bytes of the files in the directory. -/
def bytes (sp : Spool) : Nat := (sp.disk.dir.map (fun e => (sp.disk.files e.2).length)).sum

end Spool

/-- The size does not overflow. -/
def SizeFits (sp : Spool) : SpoolOp → Prop
  | .push msgs _ => sp.bytes + headerSize + eventSize msgs < 0x10000000000000000
  | .pop _ => True
  | .restart _ => sp.bytes + headerSize < 0x10000000000000000

/-- The size does not overflow, and a pop with events ahead is not for the last one. -/
def CountsEvents (sp : Spool) : SpoolOp → Prop
  | .push msgs _ => sp.bytes + headerSize + eventSize msgs < 0x10000000000000000
  | .pop _ => sp.NotStale ∧
      ((∃ diff ∈ compareWriteToRead sp, diff > 0) → (unvisitedEvents sp.disk).length ≠ 1)
  | .restart _ => sp.bytes + headerSize < 0x10000000000000000

instance (sp : Spool) (op : SpoolOp) : Decidable (CountsEvents sp op) :=
  match op with
  | .push _ _ => inferInstanceAs (Decidable (_ < _))
  | .pop _ => inferInstanceAs (Decidable (_ ∧
      ((∃ diff ∈ compareWriteToRead sp, diff > 0) → (unvisitedEvents sp.disk).length ≠ 1)))
  | .restart _ => inferInstanceAs (Decidable (_ < _))

def EmptyAllowed (sp : Spool) (op : SpoolOp) : Prop := LiveAllowed sp op ∧ CountsEvents sp op

instance (sp : Spool) (op : SpoolOp) : Decidable (EmptyAllowed sp op) :=
  inferInstanceAs (Decidable (_ ∧ _))

/-! ## The size of a layout -/

namespace Layout
variable {L L' : Layout}

theorem roll_size : L.roll.size = L.size + headerSize := by
  simp [size, roll, segs, Nat.add_assoc]

theorem ready_size : L.ready.size ≤ L.size + headerSize := by
  unfold ready
  split
  · exact Nat.le_of_eq roll_size
  · exact Nat.le_add_right _ _

theorem mapWriter_size (hlost : L.lost = none) (f : Segment → Segment) :
    (L.mapWriter f).size + L.writer.content.length =
      L.size + (f L.writer).content.length := by
  obtain ⟨cur, tornRead, eof, rest, lost, next, maxSize, parts, current⟩ := L
  simp only at hlost
  subst hlost
  obtain rfl | ⟨before, w, rfl⟩ := List.eq_nil_or_concat rest
  · simp [mapWriter, writer, size, segs, Nat.add_comm]
  · simp only [mapWriter, writer, size, segs]
    simp
    omega

theorem add_size (hlost : L.lost = none) (r : Record) :
    (L.add r).size = L.size + r.bytes.length := by
  have same : (L.add r).size = (L.mapWriter (Segment.add r)).size := rfl
  have step := mapWriter_size hlost (Segment.add r)
  have grown : (Segment.add r L.writer).content.length =
      L.writer.content.length + r.bytes.length := by
    rw [Segment.content_length, Segment.content_length]
    simp only [Segment.add, encodeAll_append, encodeAll_cons, encodeAll_nil, List.append_nil,
      List.length_append]
    omega
  omega

theorem cull_size {pos : SpoolPos} (h : L.cull = some (L', pos)) :
    ∃ n, L'.size + n = L.size ∧ L'.currentSize = L.currentSize - UInt64.ofNat n := by
  obtain ⟨s, hrest, _, hL'⟩ := cull_some h
  have hcur : L'.cur = L.cur := by rw [hL']
  refine ⟨s.content.length, ?_, by rw [hL']⟩
  simp only [size, segs, hrest, hcur, List.map_cons, List.sum_cons]
  omega

theorem Counted.ready (h : L.Counted) : L.ready.Counted := by
  unfold Layout.ready
  split
  · rw [Counted, roll_size, UInt64.ofNat_add, ← h]
    rfl
  · exact h

theorem Counted.add (h : L.Counted) (hlost : L.lost = none) (r : Record) :
    (L.add r).Counted := by
  rw [Counted, add_size hlost, UInt64.ofNat_add, ← h]
  rfl

theorem Counted.cull (h : L.Counted) {pos : SpoolPos} (hcull : L.cull = some (L', pos)) :
    L'.Counted := by
  obtain ⟨n, hsize, hcurrent⟩ := cull_size hcull
  rw [Counted, hcurrent, h, ← hsize, UInt64.ofNat_add, UInt64.add_sub_cancel]

theorem push_counted {r : Record} {culled : Option SpoolPos} (h : L.push r = some (L', culled))
    (hlost : L.lost = none) (counted : L.Counted) :
    L'.Counted ∧ L'.size ≤ L.size + headerSize + r.bytes.length := by
  have added := counted.ready.add (ready_lost_none hlost) r
  have grown := add_size (ready_lost_none hlost) r
  have rolled := @ready_size L
  unfold push at h
  simp only at h
  split at h
  · obtain ⟨⟨M, pos⟩, hcull, hM⟩ := Option.map_eq_some_iff.mp h
    cases hM
    obtain ⟨n, hsize, _⟩ := cull_size hcull
    have le : M.size ≤ L.size + headerSize + r.bytes.length := by omega
    exact ⟨added.cull hcull, le⟩
  · cases h
    exact ⟨added, by omega⟩

theorem content_le_size {s : Segment} (h : s ∈ L.segs) : s.content.length ≤ L.size := by
  obtain ⟨before, after, hsegs⟩ := List.append_of_mem h
  simp only [size, hsegs, List.map_append, List.map_cons, List.sum_append_nat, List.sum_cons]
  omega

theorem kept_size (ss : List Segment) : ((kept ss).map (fun s => s.content.length)).sum ≤
    (ss.map (fun s => s.content.length)).sum := by
  induction ss with
  | nil => exact Nat.le_refl _
  | cons s ss ih =>
    rw [kept] at ih ⊢
    rw [List.filter_cons, List.map_cons, List.sum_cons]
    split
    · rw [List.map_cons, List.map_cons, List.sum_cons, Segment.rewind_content]
      omega
    · omega

/-- An event on disk takes more than a new partition. -/
theorem size_of_unread (h : L.unread ≠ []) : headerSize < L.size := by
  obtain ⟨r, hr⟩ := List.exists_mem_of_ne_nil _ h
  obtain ⟨s, hs, hr⟩ := List.mem_flatMap.mp (List.mem_filter.mp hr).1
  have le := content_le_size hs
  have todo : s.todo.length ≤ (encodeAll s.todo).length := encodeAll_length _
  have some := List.length_pos_of_mem hr
  rw [s.content_length] at le
  omega

/-- The partitions that a restart keeps. -/
theorem restart_size (settings : SpoolSettings) :
    (L.restart settings).size = ((kept L.segs).map (fun s => s.content.length)).sum + headerSize ∧
      ((kept L.segs).map (fun s => s.content.length)).sum ≤ L.size := by
  refine ⟨?_, kept_size L.segs⟩
  simp [size, restart, opened_segs]

theorem restart_counted (settings : SpoolSettings) : (L.restart settings).Counted := by
  rw [Counted, (restart_size settings).1, UInt64.ofNat_add]
  rfl

/-- A directory with a new partition only. -/
theorem restart_new (settings : SpoolSettings) (h : L.size = headerSize) :
    (L.restart settings).size = headerSize := by
  have kept : kept L.segs = [] := by
    rw [kept, List.map_eq_nil_iff, List.filter_eq_nil_iff]
    intro s hs
    have le := content_le_size hs
    have := s.content_length
    have : s.content.length = headerSize := by omega
    simp [this]
  rw [(restart_size settings).1, kept]
  rfl

end Layout

theorem Represents.bytes {L : Layout} {sp : Spool} (R : Represents L sp) :
    sp.bytes = L.size := by
  rw [Spool.bytes, R.dir, List.map_map, List.map_map]
  refine congrArg List.sum (List.map_congr_left fun s hs => ?_)
  exact congrArg List.length (R.files s (Layout.mem_all_of_segs hs))

theorem CountsEvents.sizeFits {sp : Spool} {op : SpoolOp} (h : CountsEvents sp op) :
    SizeFits sp op := by
  cases op with
  | push => exact h
  | pop => trivial
  | restart => exact h

/-- The size is counted, and does not overflow. -/
structure Layout.Sized (L : Layout) : Prop where
  counted : L.Counted
  small : L.size < 0x10000000000000000

namespace Layout.Sized
variable {L L' : Layout} {sp : Spool}

theorem opened (settings : SpoolSettings) (next : Nat) : (Layout.opened settings next []).Sized ∧
    (Layout.opened settings next []).size = headerSize := by
  have size : (Layout.opened settings next []).size = headerSize := by
    simp [Layout.size, Layout.opened_segs]
  refine ⟨⟨?_, ?_⟩, size⟩
  · rw [Layout.Counted, size]
    rfl
  · rw [size]
    decide

theorem step (sized : L.Sized) (R : Represents L sp) (lost : L.lost = none) {op : SpoolOp}
    (fits : SizeFits sp op) (full : ∀ msgs allow, op = .push msgs allow → allow = .full) {id : Nat}
    {out : SpoolOutcome} (step : LayoutStep id L op out L') : L'.Sized := by
  cases step with
  | push wf _ _ h =>
    obtain ⟨counted, grown⟩ := Layout.push_counted h lost sized.counted
    simp only [SizeFits, R.bytes, eventSize_eq wf] at fits
    exact ⟨counted, Nat.lt_of_le_of_lt grown fits⟩
  | tear _ _ short => exact absurd (full _ _ rfl) short
  | pop h =>
    have reads := Layout.pop_reads h
    exact ⟨reads.counted sized.counted, Nat.lt_of_le_of_lt reads.size sized.small⟩
  | @restart settings =>
    obtain ⟨size, le⟩ := @Layout.restart_size L settings
    simp only [SizeFits, R.bytes] at fits
    exact ⟨Layout.restart_counted _, by omega⟩

theorem empty_iff (sized : L.Sized) (R : Represents L sp) :
    spoolEmptyOfMessages sp = true ↔ L.size = headerSize := by
  rw [spoolEmptyOfMessages, decide_eq_true_eq, R.currentSize, sized.counted, ← UInt64.toNat_inj,
    UInt64.toNat_ofNat', UInt64.toNat_ofNat', Nat.mod_eq_of_lt sized.small,
    Nat.mod_eq_of_lt (by decide)]

end Layout.Sized

/-! ## The last event -/

/-- Either nothing has been pushed, or the last event is unread and in a partition after all
those that were culled. -/
def LastUnread (trace : SpoolTrace) (L : Layout) : Prop :=
  (storedEvents trace = [] ∧ culledFiles trace = [] ∧ L.size = headerSize) ∨
    ∃ r ∈ L.unread, r.id + 1 = (storedEvents trace).length ∧
      ∃ s ∈ L.segs, r ∈ s.todo ∧
        ∀ name ∈ culledFiles trace, ∃ pos : SpoolPos, pos.Fits ∧ pos < s.pos ∧
          name = spoolFileName pos

/-- The size is that of the partitions in the directory, and the last event is unread. -/
structure LastKept (trace : SpoolTrace) (L : Layout) : Prop where
  account : ∃ taken, Accounted trace L taken
  inUse : InUse L
  counted : L.Counted
  small : L.size < 0x10000000000000000
  last : LastUnread trace L
  stored : storedEvents trace = (pushes trace).map storedParts

section
variable {lo : ListingOrder} {trace : SpoolTrace} {L L' : Layout} {sp : Spool}

theorem stored_step {id : Nat} {op : SpoolOp} {out : SpoolOutcome}
    (h : LayoutStep id L op out L') (unfailing : UnfailingCall op)
    (before : storedEvents trace = (pushes trace).map storedParts) :
    storedEvents (trace ++ [(op, out)]) = (pushes (trace ++ [(op, out)])).map storedParts := by
  have step : storedEvents [(op, out)] = (pushes [(op, out)]).map storedParts := by
    cases h with
    | push => simp [pushes, storedEvents]
    | tear _ _ short => exact absurd unfailing.2.2 short
    | pop => rfl
    | restart => rfl
  rw [storedEvents_snoc, pushes_snoc, List.map_append, before, step]

/-- The pushed event is in the writer's partition, which no cull removes. -/
theorem LastUnread.push (R : Represents L sp) (V : L.Valid) (inUse : InUse L)
    (last : LastUnread trace L) {msgs : List Bytes} {allow : Allowance}
    (wf : WellFormed (storedParts msgs)) (allowed : LiveAllowed sp (.push msgs allow))
    {culled : Option SpoolPos}
    (h : L.push ⟨(storedEvents trace).length, false, storedParts msgs, wf⟩ = some (L', culled))
    {name : Option UStr} :
    LastUnread (trace ++ [(.push msgs allow, .pushed .noError name (culled.map spoolFileName))])
      L' := by
  let r : Record := ⟨(storedEvents trace).length, false, storedParts msgs, wf⟩
  have hready := Layout.ready_lost_none inUse.lost
  obtain ⟨M, hc, hpush, hlost, _, before⟩ :=
    push_live R V inUse wf allowed.2.1 allowed.2.2 (storedEvents trace).length
  rw [h] at hpush
  cases hpush
  have hwriter : L'.writer = Segment.add r L.ready.writer := by
    have : (L.ready.add r).writer = Segment.add r L.ready.writer :=
      (@Layout.mapWriter_eq L.ready (Segment.add r)).2
    unfold Layout.push at h
    simp only at h
    split at h
    · obtain ⟨⟨N, pos⟩, hcull, hN⟩ := Option.map_eq_some_iff.mp h
      cases hN
      exact (Layout.cull_all hcull).2.trans this
    · cases h
      exact this
  have hr : r ∈ L'.writer.todo := by
    rw [hwriter]
    exact List.mem_append_right _ List.mem_cons_self
  have hmem : L'.writer ∈ L'.segs := Layout.writer_mem_segs hlost
  have later : ∀ s ∈ L.segs, s.pos < L'.writer.pos ∨ s.pos = L'.writer.pos := by
    intro s hs
    rw [hwriter]
    show s.pos < L.ready.writer.pos ∨ s.pos = L.ready.writer.pos
    unfold Layout.ready
    split
    · rw [Layout.roll_writer]
      exact .inl (V.lt_nextPos (Layout.mem_all_of_segs hs))
    · obtain rfl | hlt := V.before_writer (Layout.mem_all_of_segs hs)
      · exact .inr rfl
      · exact .inl hlt
  have stored : storedEvents (trace ++ [(.push msgs allow,
      .pushed .noError name (culled.map spoolFileName))]) =
      storedEvents trace ++ [storedParts msgs] := storedEvents_snoc _ _
  have hculled : culledFiles (trace ++ [(.push msgs allow,
      .pushed .noError name (culled.map spoolFileName))]) =
      culledFiles trace ++ (culled.map spoolFileName).toList := by
    rw [culledFiles_snoc]
    cases culled <;> rfl
  refine .inr ⟨r, ?_, by simp [stored, r], L'.writer, hmem, hr, ?_⟩
  · exact List.mem_filter.mpr ⟨List.mem_flatMap.mpr ⟨_, hmem, hr⟩, rfl⟩
  · intro file hfile
    rw [hculled] at hfile
    obtain hfile | hfile := List.mem_append.mp hfile
    · obtain ⟨_, none, _⟩ | ⟨_, _, _, s, hs, _, below⟩ := last
      · rw [none] at hfile
        cases hfile
      · obtain ⟨pos, hfits, hlt, rfl⟩ := below file hfile
        refine ⟨pos, hfits, ?_, rfl⟩
        obtain after | same := later s hs
        · exact SpoolPos.lt_trans hlt after
        · exact same ▸ hlt
    · obtain ⟨pos, hpos, rfl⟩ := Option.map_eq_some_iff.mp (Option.mem_toList.mp hfile)
      exact ⟨pos, (before pos hpos).1, (before pos hpos).2, rfl⟩

/-- An unread event stays in its partition. -/
theorem unread_stays {taken : List Nat} (A : Accounted trace L taken) (V : L.Valid) (V' : L'.Valid)
    (has : ∀ pos id parts, L'.Has pos id parts → L.Has pos id parts) {r : Record}
    (hr : r ∈ L'.unread) {s : Segment} (hs : s ∈ L.segs) (hmem : r ∈ s.todo) :
    ∃ t ∈ L'.segs, r ∈ t.todo ∧ t.pos = s.pos := by
  obtain ⟨t, ht, hrt⟩ := List.mem_flatMap.mp (List.mem_filter.mp hr).1
  refine ⟨t, ht, hrt, ?_⟩
  have before := A.has s.pos r.id r.parts
    ⟨s, Layout.mem_all_of_segs hs, rfl, r, List.mem_append_right _ hmem, rfl, rfl⟩
  have after := A.has t.pos r.id r.parts (has _ _ _
    ⟨t, Layout.mem_all_of_segs ht, rfl, r, List.mem_append_right _ hrt, rfl, rfl⟩)
  have hname := Option.some.inj (Option.some.inj (after.2.symm.trans before.2))
  exact (spoolFileName_inj (V'.fits t (Layout.mem_all_of_segs ht)).1
    (V.fits s (Layout.mem_all_of_segs hs)).1).mp hname

theorem LastUnread.pop {taken : List Nat} (A : Accounted trace L taken) (V : L.Valid)
    (V' : L'.Valid) (fresh : L.NotStale) (more : L.compare > 0 → L.unread.length ≠ 1)
    (last : LastUnread trace L) {rounds : Nat} {rc : Rc} {parts : List Bytes}
    (h : L.pop rounds = some (L', rc, parts)) {signaled : Bool} :
    LastUnread (trace ++ [(.pop signaled, .popped rc parts)]) L' := by
  have stored : storedEvents (trace ++ [(.pop signaled, .popped rc parts)]) =
      storedEvents trace := (storedEvents_snoc _ _).trans (List.append_nil _)
  have culled : culledFiles (trace ++ [(.pop signaled, .popped rc parts)]) =
      culledFiles trace := (culledFiles_snoc _ _).trans (List.append_nil _)
  have pops := Layout.pop_pops h fresh
  rw [LastUnread, stored, culled]
  obtain ⟨none, noCull, hsize⟩ | ⟨r, hr, hlast, s, hs, hmem, below⟩ := last
  · have le := pops.reads.size
    have ge := Layout.content_le_size (@Layout.cur_mem_segs L')
    have := L'.cur.content_length
    exact .inl ⟨none, noCull, by omega⟩
  · have hr' : r ∈ L'.unread := by
      obtain ⟨hrc, q, hunread, _⟩ | ⟨_, hunread⟩ := pops.unread
      · rw [hunread] at hr
        obtain rfl | hr := List.mem_cons.mp hr
        · have ahead : L.compare > 0 := by
            by_contra behind
            rw [Layout.pop, if_neg behind, hrc] at h
            cases h
          -- the last event would be the only one
          have order := (List.pairwise_append.mp A.order).2.1
          rw [hunread, List.map_cons, List.pairwise_cons] at order
          cases hrest : L'.unread with
          | nil => exact absurd (by simp [hunread, hrest]) (more ahead)
          | cons t rest =>
            have lt := order.1 t.id (by simp [hrest])
            have bound := A.unread_lt (i := t.id) (by simp [hunread, hrest])
            omega
        · exact hr
      · rw [hunread]
        exact hr
    obtain ⟨t, ht, hrt, hpos⟩ := unread_stays A V V' pops.reads.has hr' hs hmem
    exact .inr ⟨r, hr', hlast, t, ht, hrt, by rw [hpos]; exact below⟩

theorem LastUnread.restart {taken : List Nat} (A : Accounted trace L taken) (V : L.Valid)
    {settings : SpoolSettings} (V' : (L.restart settings).Valid) (last : LastUnread trace L) :
    LastUnread (trace ++ [(.restart settings, .restarted)]) (L.restart settings) := by
  have stored : storedEvents (trace ++ [(.restart settings, .restarted)]) =
      storedEvents trace := (storedEvents_snoc _ _).trans (List.append_nil _)
  have culled : culledFiles (trace ++ [(.restart settings, .restarted)]) =
      culledFiles trace := (culledFiles_snoc _ _).trans (List.append_nil _)
  rw [LastUnread, stored, culled]
  obtain ⟨none, noCull, hsize⟩ | ⟨r, hr, hlast, s, hs, hmem, below⟩ := last
  · exact .inl ⟨none, noCull, Layout.restart_new settings hsize⟩
  · have hr' : r ∈ (L.restart settings).unread := by rwa [Layout.restart_unread]
    obtain ⟨t, ht, hrt, hpos⟩ :=
      unread_stays A V V' (fun _ _ _ => Layout.restart_has) hr' hs hmem
    exact .inr ⟨r, hr', hlast, t, ht, hrt, by rw [hpos]; exact below⟩

theorem LastKept.step (R : Represents L sp) (V : L.Valid) (inv : LastKept trace L) {op : SpoolOp}
    {out : SpoolOutcome} (allowed : EmptyAllowed sp op)
    (step : LayoutStep (storedEvents trace).length L op out L') (V' : L'.Valid) :
    LastKept (trace ++ [(op, out)]) L' := by
  obtain ⟨live, counts⟩ := allowed
  obtain ⟨⟨taken, account⟩, inUse, counted, small, last, stored⟩ := inv
  have fresh : ∀ signaled, op = .pop signaled → L.NotStale := by
    rintro signaled rfl
    exact R.notStale V counts.1
  have full : ∀ msgs allow, op = .push msgs allow → allow = .full := by
    rintro msgs allow rfl
    exact live.1.2.2
  have sized := Layout.Sized.step ⟨counted, small⟩ R inUse.lost counts.sizeFits full step
  refine ⟨account.step fresh step, inUse.step R V live step, sized.counted, sized.small, ?_,
    stored_step step live.1 stored⟩
  cases step with
  | push wf _ _ h => exact last.push R V inUse wf live h
  | tear _ _ short => exact absurd live.1.2.2 short
  | pop h =>
    refine last.pop account V V' (fresh _ rfl) (fun ahead => ?_) h
    have := counts.2 ⟨_, R.compare, ahead⟩
    rwa [R.unvisitedEvents, List.length_map] at this
  | restart => exact last.restart account V V'

theorem empty_run (run : SpoolRun lo EmptyAllowed trace sp) :
    ∃ L, Represents L sp ∧ L.Valid ∧ LastKept trace L := by
  refine run_invariant LastKept ?_ ?_ ?_ run
  · intro settings next
    obtain ⟨sized, size⟩ := Layout.Sized.opened settings next
    exact ⟨⟨[], .start settings next⟩, ⟨rfl, Layout.opened_whole settings next⟩, sized.counted,
      sized.small, .inl ⟨rfl, rfl, size⟩, rfl⟩
  · exact fun _ _ _ _ R V inv allowed => inv.inUse.fits R V allowed.1
  · exact fun _ _ _ _ _ _ R V inv allowed step V' => inv.step R V allowed step V'

/-- The answer is right in every state: about the events on disk, and about the events that
were pushed. -/
theorem empty_exact (run : SpoolRun lo EmptyAllowed trace sp) :
    (spoolEmptyOfMessages sp = true ↔ unvisitedEvents sp.disk = []) ∧
      ∃ taken : List Nat, taken.Pairwise (· < ·) ∧
        (poppedEvents trace).map some = taken.map (fun i => (storedEvents trace)[i]?) ∧
        (spoolEmptyOfMessages sp = true ↔ ∀ i < (pushes trace).length,
          i ∈ taken ∨ ∃ name ∈ culledFiles trace, (pushedFiles trace)[i]? = some (some name)) := by
  obtain ⟨L, R, V, inv⟩ := empty_run run
  obtain ⟨taken, account⟩ := inv.account
  have empty := Layout.Sized.empty_iff ⟨inv.counted, inv.small⟩ R
  have count : (pushes trace).length = (storedEvents trace).length := by
    rw [inv.stored, List.length_map]
  rw [empty, R.unvisitedEvents, List.map_eq_nil_iff, count]
  refine ⟨?_, taken, (List.pairwise_append.mp account.order).1, account.popped, ?_⟩
  all_goals
    obtain ⟨none, _, hsize⟩ | ⟨r, hr, hlast, s, hs, hmem, below⟩ := inv.last
  · refine ⟨fun _ => ?_, fun _ => hsize⟩
    by_contra hunread
    exact absurd hsize (Nat.ne_of_gt (Layout.size_of_unread hunread))
  · have hunread : L.unread ≠ [] := List.ne_nil_of_mem hr
    have larger := Layout.size_of_unread hunread
    exact ⟨fun h => absurd h (Nat.ne_of_gt larger), fun h => absurd h hunread⟩
  · refine ⟨fun _ i hi => ?_, fun _ => hsize⟩
    rw [none] at hi
    exact absurd hi (Nat.not_lt_zero i)
  · have larger := Layout.size_of_unread (List.ne_nil_of_mem hr)
    refine ⟨fun h => absurd h (Nat.ne_of_gt larger), fun all => ?_⟩
    exfalso
    obtain htaken | ⟨name, hname, hfile⟩ := all r.id (by omega)
    · have := (List.pairwise_append.mp account.order).2.2 r.id htaken r.id
        (List.mem_map_of_mem hr)
      exact Nat.lt_irrefl _ this
    · obtain ⟨pos, hfits, hlt, rfl⟩ := below name hname
      have has := account.has s.pos r.id r.parts
        ⟨s, Layout.mem_all_of_segs hs, rfl, r, List.mem_append_right _ hmem, rfl, rfl⟩
      have same := Option.some.inj (Option.some.inj (hfile.symm.trans has.2))
      have fits := (V.fits s (Layout.mem_all_of_segs hs)).1
      rw [(spoolFileName_inj hfits fits).mp same] at hlt
      exact SpoolPos.lt_irrefl _ hlt

end

/-! ## After the last event -/

theorem empty_over_cull : ∃ trace sp, SpoolRun inCreationOrder EmptyAllowed trace sp ∧
    (poppedEvents trace).length = 1 ∧ (culledFiles trace).length = 1 ∧
    (spoolEmptyOfMessages sp = true ↔ unvisitedEvents sp.disk = []) := by
  obtain ⟨trace, sp, run, h⟩ := @exists_run inCreationOrder 9 EmptyAllowed _ ⟨20, 3⟩
    [.push sevenBytes .full, .push sevenBytes .full, .push sevenBytes .full, .pop false]
    (fun _ trace => (poppedEvents trace).length = 1 ∧ (culledFiles trace).length = 1)
    (by decide +kernel)
  obtain ⟨hpopped, hculled⟩ := of_decide_eq_true h
  exact ⟨trace, sp, run, hpopped, hculled, (empty_exact run).1⟩

/-- The only event has been popped, but the spool is not taken to be empty. -/
theorem popped_not_empty : ∃ trace sp,
    SpoolRun inCreationOrder (fun _ => UnfailingCall) trace sp ∧
      pushes trace = poppedEvents trace ∧ unvisitedEvents sp.disk = [] ∧
      spoolEmptyOfMessages sp = false := by
  obtain ⟨trace, sp, run, h⟩ := @exists_run inCreationOrder 9 (fun _ => UnfailingCall) _ ⟨1000, 10⟩
    [.push [[1]] .full, .pop false]
    (fun sp trace => pushes trace = poppedEvents trace ∧ unvisitedEvents sp.disk = [] ∧
      spoolEmptyOfMessages sp = false) (by decide +kernel)
  exact ⟨trace, sp, run, of_decide_eq_true h⟩

end Yella
