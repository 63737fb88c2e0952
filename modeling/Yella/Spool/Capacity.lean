import Yella.Spool.Bytes

/-!
# The capacity of the spool

A push that finds the spool full culls one partition. That brings the spool below its capacity
where the partition is as large as what the push is over it; one that a restart has left behind
may be smaller.
-/

namespace Yella

namespace Spool

def capacity (sp : Spool) : Nat :=
  sp.stats.maxPartitions.toNat * sp.stats.maxPartitionSize.toNat

/-- The entry of the oldest partition after the reader's. -/
def OldestAhead (sp : Spool) (e : UStr × Nat) : Prop :=
  e ∈ sp.disk.dir ∧ ∃ pos ∈ scanName e.1, sp.readPos < pos ∧
    ∀ d ∈ sp.disk.dir, ∀ q ∈ scanName d.1, sp.readPos < q → ¬ q < pos

/-- There is room for what a push of this event writes, if need be after the oldest partition has
been culled. -/
def Room (sp : Spool) (msgs : List Bytes) : Prop :=
  sp.bytes + sp.pushBytes msgs < sp.capacity ∨
    ∃ e, sp.OldestAhead e ∧
      sp.bytes + sp.pushBytes msgs < sp.capacity + (sp.disk.files e.2).length

end Spool

section
variable {lo : ListingOrder} {sp sq : Spool} {ps : List (SpoolPos × Nat)} {m : SpoolPos × Nat}

theorem Shelf.oldestAhead_iff (S : Shelf sp.disk ps) (hm : m ∈ ps) (ahead : sp.readPos < m.1)
    (least : ∀ q ∈ ps, sp.readPos < q.1 → ¬ q.1 < m.1) {e : UStr × Nat} :
    sp.OldestAhead e ↔ e = entryOf m := by
  have mem : ∀ {d : UStr × Nat}, d ∈ sp.disk.dir ↔ ∃ q ∈ ps, entryOf q = d := by
    simp [S.dir]
  constructor
  · rintro ⟨he, pos, scanned, after, oldest⟩
    obtain ⟨p, hp, rfl⟩ := mem.mp he
    rw [S.listed.scan hp] at scanned
    obtain rfl := Option.some.inj scanned
    have not_before := oldest (entryOf m) (mem.mpr ⟨m, hm, rfl⟩) m.1 (S.listed.scan hm) ahead
    have same : p.1 = m.1 := by
      by_contra ne
      exact least p hp after (SpoolPos.lt_of_ne ne not_before)
    rw [S.listed.distinct p hp m hm same]
  · rintro rfl
    refine ⟨mem.mpr ⟨m, hm, rfl⟩, m.1, S.listed.scan hm, ahead, ?_⟩
    intro d hd q scanned after
    obtain ⟨r, hr, rfl⟩ := mem.mp hd
    rw [S.listed.scan hr] at scanned
    obtain rfl := Option.some.inj scanned
    exact least r hr after

/-- A push that returns without an error has written what it writes and culled the oldest partition,
or stayed below the capacity. -/
theorem Counts.push_bytes (C : Counts sp ps) {msgs : List Bytes} {allow : Allowance}
    (sized : SizedCall sp (.push msgs allow)) (fits : CountFits sp (.push msgs allow))
    {name : Option UStr} (h : spoolPush lo sp allow msgs = some (sq, .noError, name)) :
    (sq.bytes = sp.bytes + sp.pushBytes msgs ∧ sq.bytes < sp.capacity) ∨
      ∃ e, (∀ d, sp.OldestAhead d ↔ d = e) ∧
        sq.bytes + (sp.disk.files e.2).length = sp.bytes + sp.pushBytes msgs := by
  obtain ⟨f, hf, -, -⟩ := C.writer
  obtain ⟨sr, ready, stored⟩ := C.stored hf sized fits
  rw [spoolPush_eq hf, ready, Option.bind_some] at h
  obtain ⟨⟨st, written⟩, write, h⟩ := Option.bind_eq_some_iff.mp h
  obtain ⟨rfl, qs, D, same, grown, three⟩ := stored st written write
  simp only [Bool.not_true, Bool.false_eq_true, ↓reduceIte] at h
  split at h
  · rename_i due
    right
    obtain ⟨p, m, n, after, rfl⟩ := three due
    obtain ⟨⟨su, culled⟩, cull, h⟩ := Option.bind_eq_some_iff.mp h
    cases h
    obtain ⟨-, bytes⟩ := D.culled rfl cull
    obtain ⟨g, -, -, first⟩ := D.reader
    obtain rfl : p = (st.readPos, g.file) := by simpa using first
    have order := List.pairwise_cons.mp D.shelf.order
    obtain ⟨hm, size⟩ := grown.others m (by simp)
    have ahead : sp.readPos < m.1 := grown.readPos ▸ order.1 m List.mem_cons_self
    have least : ∀ q ∈ ps, sp.readPos < q.1 → ¬ q.1 < m.1 := by
      intro q hq after
      obtain rfl | hq := List.mem_cons.mp (grown.subset hq)
      · exact absurd (grown.readPos ▸ after) (SpoolPos.lt_irrefl _)
      · obtain rfl | hq := List.mem_cons.mp hq
        · exact SpoolPos.lt_irrefl _
        · exact SpoolPos.lt_asymm ((List.pairwise_cons.mp order.2).1 q hq)
    refine ⟨entryOf m, fun d => C.shelf.oldestAhead_iff hm ahead least, ?_⟩
    rw [← grown.bytes, ← bytes, size]
    rfl
  · rename_i free
    left
    cases h
    refine ⟨grown.bytes, ?_⟩
    obtain ⟨size, parts⟩ := SpoolSettings.mk.inj same
    rw [cullDue, decide_eq_true_eq, UInt64.le_iff_toNat_le, Nat.not_le, D.bytes, size, parts,
      UInt64.toNat_mul] at free
    exact Nat.lt_of_lt_of_le free (Nat.mod_le _ _)

/-- In every run, a push leaves the spool below its capacity if and only if there is room. -/
theorem below_capacity_iff {trace : SpoolTrace}
    (run : SpoolRun lo (fun sp op => SizedCall sp op ∧ CountFits sp op) trace sp)
    {msgs : List Bytes} {allow : Allowance} (sized : SizedCall sp (.push msgs allow))
    (fits : CountFits sp (.push msgs allow)) {name : Option UStr}
    (h : spoolPush lo sp allow msgs = some (sq, .noError, name)) :
    sq.bytes < sp.capacity ↔ sp.Room msgs := by
  obtain ⟨ps, C⟩ := counts_run run
  obtain ⟨bytes, below⟩ | ⟨e, oldest, bytes⟩ := C.push_bytes sized fits h
  · exact iff_of_true below (.inl (bytes ▸ below))
  · simp only [Spool.Room, oldest, exists_eq_left]
    omega

end

/-- The push is one that the runs allow, and ends below the capacity or not. -/
def pushesTo (below : Bool) (sp : Spool) (msgs : List Bytes) : Bool :=
  decide (SizedCall sp (.push msgs .full) ∧ CountFits sp (.push msgs .full)) &&
    (spoolPush inCreationOrder sp .full msgs).any fun (sq, rc, _) =>
      rc = .noError && decide (sq.bytes < sp.capacity) = below

theorem pushesTo_eq {below : Bool} {sp : Spool} {msgs : List Bytes}
    (h : pushesTo below sp msgs = true) :
    (SizedCall sp (.push msgs .full) ∧ CountFits sp (.push msgs .full)) ∧ ∃ sq name,
      spoolPush inCreationOrder sp .full msgs = some (sq, .noError, name) ∧
        decide (sq.bytes < sp.capacity) = below := by
  rw [pushesTo, Bool.and_eq_true, decide_eq_true_eq, Option.any_eq_true] at h
  obtain ⟨allowed, ⟨sq, rc, name⟩, pushed, h⟩ := h
  rw [Bool.and_eq_true, decide_eq_true_eq, decide_eq_true_eq] at h
  obtain ⟨rfl, h⟩ := h
  exact ⟨allowed, sq, name, pushed, h⟩

/-- A fourth partition is filled, and one of the others culled. -/
theorem below_capacity_fourth : ∃ trace sp,
    SpoolRun inCreationOrder (fun sp op => SizedCall sp op ∧ CountFits sp op) trace sp ∧
      sp.Room [List.replicate 58 0] := by
  let event : List Bytes := [List.replicate 58 0]
  obtain ⟨trace, sp, run, h⟩ := @exists_run inCreationOrder 9
    (fun sp op => SizedCall sp op ∧ CountFits sp op) _ ⟨64, 4⟩
    [.push event .full, .push event .full, .push event .full]
    (fun sp _ => pushesTo true sp event) (by decide +kernel)
  obtain ⟨⟨sized, fits⟩, sq, name, pushed, below⟩ := pushesTo_eq h
  exact ⟨trace, sp, run, (below_capacity_iff run sized fits pushed).mp (of_decide_eq_true below)⟩

/-- Two sessions have left partitions of 18 bytes after the reader's. A push of 64 bytes culls one
of them, which is not enough. -/
theorem above_capacity : ∃ trace sp sq name,
    SpoolRun inCreationOrder (fun sp op => SizedCall sp op ∧ CountFits sp op) trace sp ∧
      SizedCall sp (.push [List.replicate 58 0] .full) ∧
      spoolPush inCreationOrder sp .full [List.replicate 58 0] = some (sq, .noError, name) ∧
      ¬ sq.bytes < sp.capacity := by
  let event (n : Nat) : List Bytes := [List.replicate n 0]
  obtain ⟨trace, sp, run, h⟩ := @exists_run inCreationOrder 9
    (fun sp op => SizedCall sp op ∧ CountFits sp op) _ ⟨64, 4⟩
    [.push (event 49) .full, .push (event 58) .full, .restart ⟨64, 4⟩, .push (event 4) .full,
      .restart ⟨64, 4⟩, .push (event 4) .full, .restart ⟨64, 4⟩, .push (event 49) .full]
    (fun sp _ => pushesTo false sp (event 58)) (by decide +kernel)
  obtain ⟨⟨sized, -⟩, sq, name, pushed, above⟩ := pushesTo_eq h
  exact ⟨trace, sp, sq, name, run, sized, pushed, of_decide_eq_false above⟩

end Yella
