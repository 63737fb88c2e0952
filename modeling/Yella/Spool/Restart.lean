import Mathlib.Data.List.Perm.Basic
import Yella.Spool.Pop
import Yella.Spool.Run
import Yella.Spool.Writing

/-!
# Closing and opening the spool

What a restart does to a layout, and that it does so to the spool.
-/

namespace Yella

/-- The partitions in the directory while no spool is open. -/
structure Stored (ss : List Segment) (disk : Disk) : Prop where
  dir : disk.dir = (ss.map Segment.entry).map entryOf
  files : ∀ s ∈ ss, disk.files s.file = s.content
  apart : ss.Pairwise (fun s t => s.file ≠ t.file)
  order : ss.Pairwise (fun s t => s.pos < t.pos)
  fits : ∀ s ∈ ss, s.pos.Fits ∧ 0 < s.pos.majorSeq ∧ s.pos < ⟨0xffffffff, 0xffffffff⟩
  fresh : ∀ s ∈ ss, s.file < disk.next

/-- The partitions that hold more than the id, as the reader finds them. -/
def kept (ss : List Segment) : List Segment :=
  (ss.filter (fun s => s.content.length ≠ headerSize)).map Segment.rewind

/-- The position of the writer that starts after these partitions. -/
def openPos (ss : List Segment) : SpoolPos :=
  match ss.getLast? with
  | none => ⟨1, 1⟩
  | some s => ⟨s.pos.majorSeq + 1, 1⟩

namespace Layout

/-- The spool that is opened on these partitions. -/
def opened (settings : SpoolSettings) (next : Nat) (ss : List Segment) : Layout where
  cur := (ss ++ [Segment.create (openPos ss) next]).headD (Segment.create (openPos ss) next)
  tornRead := false
  eof := false
  rest := (ss ++ [Segment.create (openPos ss) next]).tail
  lost := none
  next := next + 1
  maxPartitionSize := settings.maxSpoolPartitionSize
  maxPartitions := settings.maxSpoolPartitions
  currentSize := UInt64.ofNat (ss.map (fun s => s.content.length)).sum + UInt64.ofNat headerSize

/-- `destroy_spool` and `create_spool` -/
def restart (settings : SpoolSettings) (L : Layout) : Layout :=
  opened settings L.next (kept L.segs)

variable {settings : SpoolSettings} {next : Nat} {ss : List Segment}

theorem opened_segs : (opened settings next ss).segs =
    ss ++ [Segment.create (openPos ss) next] := by
  cases ss <;> rfl

theorem opened_all : (opened settings next ss).all =
    ss ++ [Segment.create (openPos ss) next] := by
  simp [all, opened_segs, show (opened settings next ss).lost = none from rfl]

theorem opened_writer : (opened settings next ss).writer = Segment.create (openPos ss) next := by
  cases ss <;> simp [opened, writer]

end Layout

/-! ## Closing -/

theorem Stored.sublist {ss ts : List Segment} {disk : Disk} (S : Stored ss disk)
    (sub : ts.Sublist ss) :
    Stored ts { disk with dir := (ts.map Segment.entry).map entryOf } where
  dir := rfl
  files := fun s hs => S.files s (sub.subset hs)
  apart := S.apart.sublist sub
  order := S.order.sublist sub
  fits := fun s hs => S.fits s (sub.subset hs)
  fresh := fun s hs => S.fresh s (sub.subset hs)

theorem Stored.shelf {ss : List Segment} {disk : Disk} (S : Stored ss disk) :
    Shelf disk (ss.map Segment.entry) :=
  shelf_of_segments S.dir S.files (fun s hs => ⟨(S.fits s hs).1, (S.fits s hs).2.1⟩) S.order S.apart
    S.fresh

/-- Removing names leaves the partitions with other names. -/
theorem Stored.without {ss : List Segment} {disk : Disk} (S : Stored ss disk)
    {gone : Segment → Bool} {names : UStr → Bool}
    (hnames : ∀ s ∈ ss, names (spoolFileName s.pos) = gone s) :
    Stored (ss.filter (fun s => !gone s))
      { disk with dir := disk.dir.filter (fun e => !names e.1) } := by
  have dir : disk.dir.filter (fun e => !names e.1) =
      ((ss.filter (fun s => !gone s)).map Segment.entry).map entryOf := by
    rw [S.dir, List.filter_map, List.filter_map]
    refine congrArg _ (congrArg _ (List.filter_congr fun s hs => ?_))
    simp [Segment.entry, entryOf, hnames s hs]
  rw [dir]
  exact S.sublist List.filter_sublist

theorem Represents.stored {L : Layout} {sp : Spool} (R : Represents L sp) (V : L.Valid) :
    Stored L.segs sp.disk where
  dir := R.dir
  files := fun s hs => R.files s (Layout.mem_all_of_segs hs)
  apart := (List.pairwise_append.mp V.apart).1
  order := V.segs_order
  fits := fun s hs => V.fits s (Layout.mem_all_of_segs hs)
  fresh := fun s hs => R.next ▸ V.fresh s (Layout.mem_all_of_segs hs)

theorem kept_filter {ss : List Segment} {p : Segment → Bool}
    (h : ∀ s ∈ ss, s.content.length ≠ headerSize → p s = true) : kept (ss.filter p) = kept ss := by
  rw [kept, kept, List.filter_filter]
  refine congrArg _ (List.filter_congr fun s hs => ?_)
  by_cases hlen : s.content.length = headerSize
  · simp [hlen]
  · simp [hlen, h s hs hlen]

/-- Only the writer's partition may go, and only without an event. -/
theorem Represents.destroy {L : Layout} {sp : Spool} (R : Represents L sp) (V : L.Valid) :
    ∃ disk ss, destroySpool sp = some disk ∧ Stored ss disk ∧ kept ss = kept L.segs ∧
      disk.next = L.next := by
  have S := R.stored V
  simp only [destroySpool, R.readf, R.writef, R.writeFileName, Option.bind_eq_bind,
    Option.bind_some]
  by_cases hempty : L.writer.content.length = headerSize
  · rw [if_pos hempty, remove_getD]
    refine ⟨_, L.segs.filter (fun s => !(s.pos = L.writer.pos : Bool)), rfl, ?_, ?_, R.next⟩
    · have := @Stored.without L.segs sp.disk S (fun s => s.pos = L.writer.pos)
        (fun name => name = spoolFileName L.writer.pos) fun s hs => by
          rw [decide_eq_decide]
          exact spoolFileName_inj (S.fits s hs).1 (V.fits _ L.writer_mem_all).1
      simpa using this
    · apply kept_filter
      intro s hs hlen
      by_contra hpos
      have heq : s.pos = L.writer.pos := by simpa using hpos
      rw [eq_of_pos_eq V.order (Layout.mem_all_of_segs hs) L.writer_mem_all heq] at hlen
      exact hlen hempty
  · rw [if_neg hempty]
    exact ⟨sp.disk, L.segs, rfl, S, rfl, R.next⟩

/-! ## Opening -/

theorem Stored.rewind {ss : List Segment} {disk : Disk} (S : Stored ss disk) :
    Stored (ss.map Segment.rewind) disk := by
  have same : ∀ s ∈ ss.map Segment.rewind, ∃ t ∈ ss, s.pos = t.pos ∧ s.file = t.file ∧
      s.content = t.content := by
    intro s hs
    obtain ⟨t, ht, rfl⟩ := List.mem_map.mp hs
    exact ⟨t, ht, rfl, rfl, t.rewind_content⟩
  constructor
  · have : (ss.map Segment.rewind).map Segment.entry = ss.map Segment.entry := by
      rw [List.map_map]; rfl
    rw [S.dir, this]
  · intro s hs
    obtain ⟨t, ht, _, hfile, hcontent⟩ := same s hs
    rw [hfile, hcontent, S.files t ht]
  · exact List.pairwise_map.mpr S.apart
  · exact List.pairwise_map.mpr S.order
  · intro s hs
    obtain ⟨t, ht, hpos, _⟩ := same s hs
    rw [hpos]
    exact S.fits t ht
  · intro s hs
    obtain ⟨t, ht, _, hfile, _⟩ := same s hs
    rw [hfile]
    exact S.fresh t ht

section
variable {lo : ListingOrder} {ss : List Segment} {disk : Disk}

theorem Stored.filled_eq (S : Stored ss disk) :
    filled disk (ss.map Segment.entry) = (kept ss).map Segment.entry := by
  have rewound : (kept ss).map Segment.entry =
      (ss.filter (fun s => s.content.length ≠ headerSize)).map Segment.entry := by
    rw [kept, List.map_map]
    rfl
  rw [rewound, filled, List.filter_map]
  refine congrArg _ (List.filter_congr fun s hs => ?_)
  rw [Function.comp_apply, show disk.files s.entry.2 = s.content from S.files s hs]

/-- What is left after the partitions without an event have been removed. -/
theorem Stored.kept (S : Stored ss disk) :
    Stored (kept ss) { disk with dir := ((Yella.kept ss).map Segment.entry).map entryOf } := by
  have S' := (S.sublist (@List.filter_sublist _ (fun s => s.content.length ≠ headerSize) ss)).rewind
  have same : ((ss.filter fun s => s.content.length ≠ headerSize).map Segment.entry) =
      (Yella.kept ss).map Segment.entry := by
    rw [Yella.kept, List.map_map]
    rfl
  rwa [same] at S'

theorem Stored.shelfSize_eq (S : Stored ss disk) :
    shelfSize disk (ss.map Segment.entry) = (ss.map (fun s => s.content.length)).sum := by
  rw [shelfSize, List.map_map]
  exact congrArg List.sum (List.map_congr_left fun s hs => congrArg List.length (S.files s hs))

/-! ## The new writer and the reader -/

theorem openPos_eq (ss : List Segment) : openPos ss = newPos (ss.map Segment.entry) := by
  rw [openPos, newPos, List.getLast?_map]
  cases ss.getLast? <;> rfl

theorem openPos_fits (ss : List Segment) (fits : (openPos ss).majorSeq < 0x100000000) :
    (openPos ss).Fits ∧ 0 < (openPos ss).majorSeq ∧ openPos ss < ⟨0xffffffff, 0xffffffff⟩ := by
  rw [openPos_eq] at fits ⊢
  have minor := newPos_minor (ss.map Segment.entry)
  refine ⟨⟨fits, by omega⟩, newPos_major _, ?_⟩
  rw [SpoolPos.lt_def]
  simp only
  omega

theorem openPos_after (S : Stored ss disk) {s : Segment} (hs : s ∈ ss) : s.pos < openPos ss := by
  rw [openPos_eq]
  exact lt_newPos S.shelf.order (List.mem_map_of_mem hs)

theorem Layout.Valid.opened (S : Stored ss disk) (fits : (openPos ss).majorSeq < 0x100000000)
    (begins : ∀ s ∈ ss, s.done = []) (settings : SpoolSettings) :
    (Layout.opened settings disk.next ss).Valid := by
  have mem : ∀ s ∈ (Layout.opened settings disk.next ss).all,
      s ∈ ss ∨ s = Segment.create (openPos ss) disk.next := by
    intro s hs
    rw [Layout.opened_all] at hs
    simpa using hs
  constructor
  · rw [Layout.opened_all, List.pairwise_append]
    refine ⟨S.apart, by simp, fun s hs t ht => ?_⟩
    rw [List.mem_singleton.mp ht]
    exact Nat.ne_of_lt (S.fresh s hs)
  · rw [Layout.opened_all, List.pairwise_append]
    refine ⟨S.order, by simp, fun s hs t ht => ?_⟩
    rw [List.mem_singleton.mp ht]
    exact openPos_after S hs
  · intro s hs
    obtain hs | rfl := mem s hs
    · exact S.fits s hs
    · exact openPos_fits ss fits
  · intro s hs
    obtain hs | rfl := mem s hs
    · exact Nat.lt_succ_of_lt (S.fresh s hs)
    · exact Nat.lt_succ_self _
  · intro s hs
    obtain hs | rfl := mem s (Layout.mem_all_of_rest hs)
    · exact begins s hs
    · rfl
  · simp [Layout.opened]

/-- A spool is opened on what is in the directory. -/
theorem create_refines (S : Stored ss disk) (fits : (openPos (kept ss)).majorSeq < 0x100000000)
    (settings : SpoolSettings) (listings : Nat) :
    ∃ sp, createSpool lo settings disk listings = some (some sp) ∧
      Represents (Layout.opened settings disk.next (kept ss)) sp ∧
      (Layout.opened settings disk.next (kept ss)).Valid := by
  have S' := S.kept
  have begins : ∀ s ∈ kept ss, s.done = [] := by
    intro s hs
    obtain ⟨t, _, rfl⟩ := List.mem_map.mp hs
    rfl
  have V := Layout.Valid.opened S' fits begins settings
  let L := Layout.opened settings disk.next (kept ss)
  have hsegs : L.segs = kept ss ++ [Segment.create (openPos (kept ss)) disk.next] :=
    Layout.opened_segs
  have hall : L.all = L.segs := by simp [hsegs, L, Layout.opened_all]
  have entries : L.segs.map Segment.entry =
      (kept ss).map Segment.entry ++ [(openPos (kept ss), disk.next)] := by
    rw [hsegs, List.map_append]
    rfl
  have pos := openPos_eq (kept ss)
  obtain ⟨sp, created, N⟩ := @Shelf.createSpool_eq lo disk _ S.shelf (by rwa [S.filled_eq, ← pos])
    settings listings
  rw [S.filled_eq] at N
  obtain ⟨stored, -, writePos, writef, writeFileName, reader, maxSize, maxParts, size⟩ := N
  rw [← pos] at stored writePos writeFileName reader
  obtain ⟨m, after, hm, readPos, readf, readFileName⟩ := reader
  obtain rfl : L.cur.entry = m := by
    rw [← entries, Layout.segs, List.map_cons] at hm
    exact (List.cons.inj hm).1
  have cur : L.cur.done = [] := by
    have : L.cur ∈ L.segs := List.mem_cons_self
    rw [hsegs] at this
    obtain h | h := List.mem_append.mp this
    · exact begins _ h
    · rw [List.mem_singleton.mp h]
      rfl
  have writer : L.writer = Segment.create (openPos (kept ss)) disk.next := Layout.opened_writer
  refine ⟨sp, created, ?_, V⟩
  constructor
  · rw [stored, show (Layout.opened settings disk.next (kept ss)).segs = L.segs from rfl, entries]
  · rw [show (Layout.opened settings disk.next (kept ss)).all = L.segs from hall, hsegs, stored]
    intro s hs
    obtain hs | hs := List.mem_append.mp hs
    · simp only [Function.update_of_ne (Nat.ne_of_lt (S'.fresh s hs))]
      exact S'.files s hs
    · rw [List.mem_singleton.mp hs]
      simp [Segment.create, Segment.content]
  · rw [stored]
    rfl
  · exact writePos.trans (congrArg Segment.pos writer.symm)
  · rw [writef, show (Layout.opened settings disk.next (kept ss)).writer = _ from writer]
    simp [Segment.create, Segment.content]
  · rw [writeFileName, show (Layout.opened settings disk.next (kept ss)).writer = _ from writer]
    rfl
  · exact readPos
  · have : L.readOff = headerSize := by
      simp [Layout.readOff, cur, show L.tornRead = false from rfl]
    rw [readf, show (Layout.opened settings disk.next (kept ss)).readOff = _ from this]
    rfl
  · exact readFileName
  · exact maxSize
  · exact maxParts
  · rw [size]
    exact congrArg (fun n => UInt64.ofNat n + UInt64.ofNat headerSize) S'.shelfSize_eq

end

end Yella
