import Yella.Spool.Layout

/-!
# The writer

What a push does to a layout, and that it does so to the spool.
-/

namespace Yella

namespace Layout

/-- Changes the writer's partition. -/
def mapWriter (f : Segment → Segment) (L : Layout) : Layout :=
  match L.lost with
  | some w => { L with lost := some (f w) }
  | none =>
    match L.rest.getLast? with
    | some w => { L with rest := L.rest.dropLast ++ [f w] }
    | none => { L with cur := f L.cur }

/-- The stream of the writer. -/
def writeStream (L : Layout) : Stream :=
  { file := L.writer.file, off := L.writer.content.length, eof := false }

def rollDue (L : Layout) : Bool := L.maxPartitionSize ≤ UInt64.ofNat L.writer.content.length

def nextPos (L : Layout) : SpoolPos :=
  { L.writer.pos with minorSeq := L.writer.pos.minorSeq + 1 }

/-- `increment_write_spool_partition` -/
def roll (L : Layout) : Layout :=
  { L with
    rest := L.rest ++ [Segment.create L.nextPos L.next]
    lost := none
    next := L.next + 1
    currentSize := L.currentSize + UInt64.ofNat headerSize }

/-- The partition for the next event. -/
def ready (L : Layout) : Layout := if L.rollDue then L.roll else L

def add (r : Record) (L : Layout) : Layout :=
  { L.mapWriter (Segment.add r) with
    currentSize := L.currentSize + UInt64.ofNat r.bytes.length }

def cullDue (L : Layout) : Bool := L.maxPartitions * L.maxPartitionSize ≤ L.currentSize

/-- The oldest partition after the reader's is removed, perhaps the writer's. -/
def cull (L : Layout) : Option (Layout × SpoolPos) :=
  match L.rest with
  | [] => none
  | s :: rest => some ({ L with
      rest := rest
      lost := if L.lost.isNone && rest.isEmpty then some s else L.lost
      currentSize := L.currentSize - UInt64.ofNat s.content.length }, s.pos)

/-- `spool_push`, with the position of the partition that is culled. -/
def push (r : Record) (L : Layout) : Option (Layout × Option SpoolPos) :=
  let L := L.ready.add r
  if L.cullDue then L.cull.map (fun (L, pos) => (L, some pos)) else some (L, none)

end Layout

/-! ## The writer's partition -/

namespace Layout
variable {L : Layout}

theorem mapWriter_eq (f : Segment → Segment) :
    (∃ before, L.all = before ++ [L.writer] ∧ (L.mapWriter f).all = before ++ [f L.writer]) ∧
      (L.mapWriter f).writer = f L.writer := by
  obtain ⟨cur, tornRead, eof, rest, lost, next, size, parts, current⟩ := L
  cases lost with
  | some w => exact ⟨⟨cur :: rest, rfl, rfl⟩, rfl⟩
  | none =>
    obtain rfl | ⟨before, w, rfl⟩ := List.eq_nil_or_concat rest
    · exact ⟨⟨[], rfl, rfl⟩, rfl⟩
    · exact ⟨⟨cur :: before, by simp [all, segs, writer],
        by simp [all, segs, writer, mapWriter]⟩, by simp [writer, mapWriter]⟩

/-- A change of the writer's partition that leaves its name and what the reader is past. -/
structure Keeps (f : Segment → Segment) (w : Segment) : Prop where
  pos : (f w).pos = w.pos
  file : (f w).file = w.file
  done : (f w).done = w.done

theorem mapWriter_segs {f : Segment → Segment} (keeps : Keeps f L.writer) :
    (L.mapWriter f).segs.map Segment.entry = L.segs.map Segment.entry := by
  obtain ⟨cur, tornRead, eof, rest, lost, next, size, parts, current⟩ := L
  have entry := keeps.pos
  have file := keeps.file
  cases lost with
  | some w => rfl
  | none =>
    obtain rfl | ⟨before, w, rfl⟩ := List.eq_nil_or_concat rest
    · simp_all [mapWriter, segs, writer, Segment.entry]
    · simp_all [mapWriter, segs, writer, Segment.entry]

theorem mapWriter_cur (f : Segment → Segment) :
    (L.mapWriter f).cur = L.cur ∨ (L.writer = L.cur ∧ (L.mapWriter f).cur = f L.writer) := by
  obtain ⟨cur, tornRead, eof, rest, lost, next, size, parts, current⟩ := L
  cases lost with
  | some w => exact .inl rfl
  | none =>
    obtain rfl | ⟨before, w, rfl⟩ := List.eq_nil_or_concat rest
    · exact .inr ⟨rfl, rfl⟩
    · exact .inl (by simp [mapWriter])

theorem mapWriter_other (f : Segment → Segment) :
    (L.mapWriter f).tornRead = L.tornRead ∧ (L.mapWriter f).eof = L.eof ∧
      (L.mapWriter f).next = L.next ∧ (L.mapWriter f).maxPartitionSize = L.maxPartitionSize ∧
      (L.mapWriter f).maxPartitions = L.maxPartitions ∧
      (L.mapWriter f).currentSize = L.currentSize := by
  unfold mapWriter
  split
  · exact ⟨rfl, rfl, rfl, rfl, rfl, rfl⟩
  · split <;> exact ⟨rfl, rfl, rfl, rfl, rfl, rfl⟩

theorem mapWriter_rest {f : Segment → Segment} {s : Segment} (h : s ∈ (L.mapWriter f).rest) :
    s ∈ L.rest ∨ (s = f L.writer ∧ L.writer ∈ L.rest) := by
  obtain ⟨cur, tornRead, eof, rest, lost, next, size, parts, current⟩ := L
  cases lost with
  | some w => exact .inl h
  | none =>
    obtain rfl | ⟨before, w, rfl⟩ := List.eq_nil_or_concat rest
    · exact .inl h
    · simp only [mapWriter, writer] at h ⊢
      simp at h ⊢
      tauto

theorem Valid.mapWriter {f : Segment → Segment} (V : L.Valid) (keeps : Keeps f L.writer)
    (whole : L.writer.torn = []) : (L.mapWriter f).Valid := by
  obtain ⟨⟨before, hall, hall'⟩, _⟩ := @mapWriter_eq L f
  obtain ⟨htorn, _, hnext, _⟩ := @mapWriter_other L f
  have same : ∀ s ∈ (L.mapWriter f).all, ∃ t ∈ L.all, s.pos = t.pos ∧ s.file = t.file := by
    intro s hs
    rw [hall'] at hs
    obtain hs | hs := List.mem_append.mp hs
    · exact ⟨s, hall ▸ List.mem_append_left _ hs, rfl, rfl⟩
    · rw [List.mem_singleton.mp hs]
      exact ⟨L.writer, writer_mem_all, keeps.pos, keeps.file⟩
  constructor
  · have := V.apart
    rw [hall, List.pairwise_append] at this
    rw [hall', List.pairwise_append]
    simpa [keeps.file] using this
  · have := V.order
    rw [hall, List.pairwise_append] at this
    rw [hall', List.pairwise_append]
    simpa [keeps.pos] using this
  · intro s hs
    obtain ⟨t, ht, hpos, _⟩ := same s hs
    rw [hpos]
    exact V.fits t ht
  · intro s hs
    obtain ⟨t, ht, _, hfile⟩ := same s hs
    rw [hfile, hnext]
    exact V.fresh t ht
  · intro s hs
    obtain hs | ⟨rfl, hw⟩ := mapWriter_rest hs
    · exact V.begins s hs
    · rw [keeps.done]
      exact V.begins _ hw
  · intro h
    rw [htorn] at h
    obtain hcur | ⟨hcur, _⟩ := @mapWriter_cur L f
    · rw [hcur]
      exact V.tornRead h
    · exact absurd (hcur ▸ whole) (V.tornRead h).2

/-- The next sequence number does not overflow, and leaves room for the scan of the reader,
which looks below the last position. -/
def RollFits (L : Layout) : Prop :=
  L.writer.pos.minorSeq + 1 < 0x100000000 ∧ L.nextPos < ⟨0xffffffff, 0xffffffff⟩

theorem writer_lt_nextPos : L.writer.pos < L.nextPos := by
  rw [SpoolPos.lt_def]
  exact .inr ⟨rfl, Nat.lt_succ_self _⟩

theorem Valid.lt_nextPos (V : L.Valid) {s : Segment} (h : s ∈ L.all) : s.pos < L.nextPos := by
  obtain rfl | hlt := V.before_writer h
  · exact writer_lt_nextPos
  · exact SpoolPos.lt_trans hlt writer_lt_nextPos

theorem roll_all : L.roll.all = L.segs ++ [Segment.create L.nextPos L.next] := by
  simp [roll, all, segs]

@[simp] theorem roll_writer : L.roll.writer = Segment.create L.nextPos L.next := by
  simp [roll, writer]

theorem Valid.roll (V : L.Valid) (fits : L.RollFits) : L.roll.Valid := by
  have mem : ∀ s ∈ L.roll.all, s ∈ L.segs ∨ s = Segment.create L.nextPos L.next := by
    intro s hs
    rw [roll_all] at hs
    simpa using hs
  constructor
  · rw [roll_all, List.pairwise_append]
    refine ⟨(List.pairwise_append.mp V.apart).1, by simp, fun s hs t ht => ?_⟩
    rw [List.mem_singleton.mp ht]
    exact Nat.ne_of_lt (V.fresh s (mem_all_of_segs hs))
  · rw [roll_all, List.pairwise_append]
    refine ⟨V.segs_order, by simp, fun s hs t ht => ?_⟩
    rw [List.mem_singleton.mp ht]
    exact V.lt_nextPos (mem_all_of_segs hs)
  · intro s hs
    obtain hs | rfl := mem s hs
    · exact V.fits s (mem_all_of_segs hs)
    · obtain ⟨⟨hmajor, _⟩, hpos, _⟩ := V.fits _ L.writer_mem_all
      exact ⟨⟨hmajor, fits.1⟩, hpos, fits.2⟩
  · intro s hs
    obtain hs | rfl := mem s hs
    · exact Nat.lt_succ_of_lt (V.fresh s (mem_all_of_segs hs))
    · exact Nat.lt_succ_self _
  · intro s hs
    obtain hs | hs := List.mem_append.mp hs
    · exact V.begins s hs
    · rw [List.mem_singleton.mp hs]; rfl
  · exact V.tornRead

theorem mapWriter_readOff {f : Segment → Segment} (V : L.Valid) (keeps : Keeps f L.writer)
    (whole : L.writer.torn = []) : (L.mapWriter f).readOff = L.readOff := by
  obtain ⟨htorn, _⟩ := @mapWriter_other L f
  obtain hcur | ⟨hcur, hcur'⟩ := @mapWriter_cur L f
  · simp only [readOff, hcur, htorn]
  · have : L.tornRead = false := by
      by_contra hn
      exact absurd (hcur ▸ whole) (V.tornRead (by simpa using hn)).2
    have done := keeps.done
    rw [hcur] at hcur' done
    simp only [readOff, hcur', htorn, this, Bool.false_eq_true, ↓reduceIte, done]

end Layout

/-! ## Writing to the file -/

namespace Allowance

theorem grant_le (allow : Allowance) (n : Nat) : allow.grant n ≤ n := by
  unfold grant
  split
  · exact Nat.le_refl n
  · exact Nat.min_le_left _ _

theorem landed_le (allow : Allowance) (n : Nat) : allow.landed n ≤ n :=
  Nat.le_trans (Nat.sub_le _ _) (allow.grant_le n)

/-- What reaches the file has been taken. -/
theorem grant_of_landed {allow : Allowance} {n : Nat} (h : allow.landed n = n) :
    allow.grant n = n := by
  have := allow.grant_le n
  rw [landed] at h
  omega

theorem grant_add {allow : Allowance} {n : Nat} (h : allow.grant n = n) (m : Nat) :
    allow.grant (n + m) = n + (allow.spend n).grant m := by
  obtain ⟨opens, room, drops⟩ := allow
  cases room with
  | none => rfl
  | some room =>
    simp only [grant, spend, Option.map_some] at h ⊢
    omega

theorem grant_short {allow : Allowance} {n : Nat} (h : allow.grant n ≠ n) (m : Nat) :
    allow.grant (n + m) = allow.grant n := by
  obtain ⟨opens, room, drops⟩ := allow
  cases room with
  | none => exact absurd rfl h
  | some room =>
    simp only [grant] at h ⊢
    omega

end Allowance

/-- The spool after a write at the end of the writer's file. -/
def Spool.wrote (sp : Spool) (f : Stream) (bytes : Bytes) (size : UInt64) : Spool :=
  { sp with
    disk := { sp.disk with
      files := Function.update sp.disk.files f.file (sp.disk.files f.file ++ bytes) }
    writef := some { f with off := f.off + bytes.length }
    stats.currentSize := size }

theorem Spool.wrote_nil {sp : Spool} {f : Stream} (hf : sp.writef = some f) :
    sp.wrote f [] sp.stats.currentSize = sp := by
  cases sp
  simp_all [Spool.wrote]

theorem Spool.wrote_append (sp : Spool) (f : Stream) (a b : Bytes) (c d : UInt64) :
    (sp.wrote f a c).wrote { f with off := f.off + a.length } b d = sp.wrote f (a ++ b) d := by
  simp [Spool.wrote, Nat.add_assoc]

theorem writeOut_eq {sp : Spool} {f : Stream} (hf : sp.writef = some f)
    (hoff : f.off = (sp.disk.files f.file).length) (allow : Allowance) (bytes : Bytes) :
    writeOut sp allow bytes =
      some (sp.wrote f (bytes.take (allow.grant bytes.length)) sp.stats.currentSize,
        allow.spend (allow.grant bytes.length), allow.grant bytes.length) := by
  simp only [writeOut, hf, Option.bind_eq_bind, Option.bind_some, Disk.fwrite, hoff,
    overwrite_end, Spool.wrote]

/-- What fits is written, up to the first byte that does not. -/
theorem writeChunks_eq (chunks : List Bytes) {sp : Spool} {f : Stream} (hf : sp.writef = some f)
    (hoff : f.off = (sp.disk.files f.file).length) (allow : Allowance) (size : Nat) :
    ∃ current written, writeChunks sp allow size chunks = some
        (sp.wrote f (chunks.flatten.take (allow.grant chunks.flatten.length)) current, written,
          decide (allow.grant chunks.flatten.length = chunks.flatten.length)) ∧
      (allow.grant chunks.flatten.length = chunks.flatten.length →
        current = sp.stats.currentSize + UInt64.ofNat chunks.flatten.length) := by
  induction chunks generalizing sp f allow size with
  | nil =>
    refine ⟨sp.stats.currentSize, size, ?_, fun _ => by simp⟩
    have none : allow.grant 0 = 0 := Nat.le_zero.mp (allow.grant_le 0)
    simp [writeChunks, none, Spool.wrote_nil hf]
  | cons chunk chunks ih =>
    simp only [writeChunks, writeOut_eq hf hoff, Option.bind_eq_bind, Option.bind_some,
      List.flatten_cons, List.length_append]
    by_cases whole : allow.grant chunk.length = chunk.length
    · let g : Stream := { f with off := f.off + chunk.length }
      let sq := sp.wrote f chunk (sp.stats.currentSize + UInt64.ofNat chunk.length)
      obtain ⟨current, written, hrest, hcurrent⟩ := @ih sq g rfl
        (by simp [sq, Spool.wrote, g, hoff]) (allow.spend chunk.length) (size + chunk.length)
      have grant := Allowance.grant_add whole chunks.flatten.length
      refine ⟨current, written, ?_, fun h => ?_⟩
      · simp only [whole, List.take_length, ne_eq, not_true_eq_false, ↓reduceIte]
        change writeChunks sq _ _ chunks = _
        rw [hrest, grant, List.take_length_add_append, Spool.wrote_append]
        simp only [Nat.add_left_cancel_iff]
      · rw [hcurrent (by omega)]
        simp [sq, Spool.wrote, UInt64.ofNat_add, UInt64.add_assoc]
    · -- the rest is not written either
      have short := Allowance.grant_short whole chunks.flatten.length
      have lt : allow.grant chunk.length < chunk.length :=
        Nat.lt_of_le_of_ne (allow.grant_le _) whole
      refine ⟨sp.stats.currentSize, size, ?_, fun h => by omega⟩
      rw [short, List.take_append_of_le_length (Nat.le_of_lt lt)]
      have ne : ¬ allow.grant chunk.length = chunk.length + chunks.flatten.length := by omega
      rw [decide_eq_false ne]
      simp [whole]

theorem dropUnwritten_eq {sp : Spool} {f : Stream}
    (hoff : f.off = (sp.disk.files f.file).length) (allow : Allowance) (bytes : Bytes)
    (size : UInt64) : dropUnwritten (sp.wrote f bytes size) allow f.off =
      some (sp.wrote f (bytes.take (bytes.length - allow.drops)) size) := by
  have off : max f.off (f.off + bytes.length - allow.drops) =
      f.off + (bytes.length - allow.drops) := by omega
  have length : (bytes.take (bytes.length - allow.drops)).length =
      bytes.length - allow.drops := by simp
  simp only [dropUnwritten, Spool.wrote, Option.bind_eq_bind, Option.bind_some, off, Disk.cut,
    Function.update_self, Function.update_idem, length]
  rw [hoff, List.take_length_add_append]

namespace Represents
variable {L : Layout} {sp : Spool} {lo : ListingOrder}

/-- The figures that no operation reads may change. -/
theorem withStats (R : Represents L sp) {stats : SpoolStats}
    (hsize : stats.maxPartitionSize = sp.stats.maxPartitionSize)
    (hparts : stats.maxPartitions = sp.stats.maxPartitions)
    (hcurrent : stats.currentSize = sp.stats.currentSize) (total : UInt64) :
    Represents L { sp with stats, totalEventBytesWritten := total } :=
  { R with
    maxPartitionSize := hsize.trans R.maxPartitionSize
    maxPartitions := hparts.trans R.maxPartitions
    currentSize := hcurrent.trans R.currentSize }

/-- The writer's file has what the reader has. -/
theorem writerContent (R : Represents L sp) :
    sp.disk.files L.writer.file = L.writer.content := R.files _ L.writer_mem_all

/-- A write at the end of the writer's partition. -/
theorem wrote (R : Represents L sp) (V : L.Valid) {f : Segment → Segment}
    (keeps : Layout.Keeps f L.writer) (whole : L.writer.torn = []) {bytes : Bytes}
    (content : (f L.writer).content = L.writer.content ++ bytes) (size : UInt64) :
    Represents { L.mapWriter f with currentSize := size }
      (sp.wrote L.writeStream bytes size) := by
  obtain ⟨⟨before, hall, hall'⟩, hwriter⟩ := @Layout.mapWriter_eq L f
  obtain ⟨htorn, heof, hnext, hmax, hmaxParts, _⟩ := @Layout.mapWriter_other L f
  have hreadOff := Layout.mapWriter_readOff V keeps whole
  have hcur : (L.mapWriter f).cur.pos = L.cur.pos ∧ (L.mapWriter f).cur.file = L.cur.file := by
    obtain hcur | ⟨hcur, hcur'⟩ := @Layout.mapWriter_cur L f
    · rw [hcur]; exact ⟨rfl, rfl⟩
    · rw [hcur', ← hcur]; exact ⟨keeps.pos, keeps.file⟩
  have hwriter' : { L.mapWriter f with currentSize := size }.writer = f L.writer := hwriter
  constructor
  · exact (R.dir).trans (by rw [← Layout.mapWriter_segs keeps]; rfl)
  · intro s hs
    have hs : s ∈ before ++ [f L.writer] := hall' ▸ hs
    simp only [Spool.wrote, Layout.writeStream, R.writerContent]
    obtain hs | hs := List.mem_append.mp hs
    · have apart := V.apart
      rw [hall, List.pairwise_append] at apart
      rw [Function.update_of_ne (apart.2.2 s hs _ (by simp))]
      exact R.files s (hall ▸ List.mem_append_left _ hs)
    · rw [List.mem_singleton.mp hs, keeps.file, Function.update_self, content]
  · exact R.next.trans hnext.symm
  · rw [hwriter', keeps.pos]; exact R.writePos
  · rw [hwriter', keeps.file, content, List.length_append]; rfl
  · rw [hwriter', keeps.pos]; exact R.writeFileName
  · exact R.readPos.trans hcur.1.symm
  · apply R.readf.trans
    simp only [hcur.2, heof]
    exact congrArg (fun off => some ({ file := L.cur.file, off, eof := L.eof } : Stream))
      hreadOff.symm
  · exact R.readFileName.trans (by rw [← hcur.1])
  · exact R.maxPartitionSize.trans hmax.symm
  · exact R.maxPartitions.trans hmaxParts.symm
  · rfl

theorem incrementWrite (R : Represents L sp) (V : L.Valid) (fits : L.RollFits)
    {allow : Allowance} (opens : allow.opens = true) (room : allow.grant headerSize = headerSize) :
    ∃ sp', incrementWriteSpoolPartition sp allow = some (sp', allow.spend headerSize, true) ∧
      Represents L.roll sp' := by
  have hpos : L.nextPos = { sp.writePos with minorSeq := sp.writePos.minorSeq + 1 } := by
    rw [R.writePos]
    rfl
  have lookup : sp.disk.lookup (spoolFileName L.nextPos) = none := by
    refine (R.shelf V).lookup_none ⟨(V.fits _ L.writer_mem_all).1.1, fits.1⟩ ?_
    exact List.forall_mem_map.mpr fun s hs => V.lt_nextPos (Layout.mem_all_of_segs hs)
  refine ⟨_, incrementWriteSpoolPartition_eq hpos fits.1 lookup opens room, ?_⟩
  constructor
  · simp [R.dir, R.next, Layout.roll, Layout.segs, Segment.entry, entryOf, Segment.create]
  · intro s hs
    rw [Layout.roll_all] at hs
    obtain hs | hs := List.mem_append.mp hs
    · have : s.file ≠ sp.disk.next :=
        R.next ▸ Nat.ne_of_lt (V.fresh s (Layout.mem_all_of_segs hs))
      simp only [Function.update_of_ne this]
      exact R.files s (Layout.mem_all_of_segs hs)
    · rw [List.mem_singleton.mp hs]
      simp [Segment.create, R.next, Segment.content]
  · simp [R.next, Layout.roll]
  · simp [Segment.create]
  · simp [Segment.create, Segment.content, R.next]
  · simp [Segment.create]
  · exact R.readPos
  · exact R.readf
  · exact R.readFileName
  · exact R.maxPartitionSize
  · exact R.maxPartitions
  · simp [Layout.roll, R.currentSize]

theorem writeStream_off (R : Represents L sp) :
    L.writeStream.off = (sp.disk.files L.writeStream.file).length := by
  simp [Layout.writeStream, R.writerContent]

/-- The pieces of an event go to the end of the writer's partition. -/
theorem writeChunks_event (R : Represents L sp) {r : Record} (unread : r.visited = false)
    (allow : Allowance) : ∃ current written, writeChunks sp allow 0 (eventChunks r.parts) = some
        (sp.wrote L.writeStream (r.bytes.take (allow.grant r.bytes.length)) current,
          written, decide (allow.grant r.bytes.length = r.bytes.length)) ∧
      (allow.grant r.bytes.length = r.bytes.length →
        current = L.currentSize + UInt64.ofNat r.bytes.length) := by
  have bytes : (eventChunks r.parts).flatten = r.bytes := by
    rw [eventChunks_flatten r.wf, Record.bytes, unread]
  have := writeChunks_eq (eventChunks r.parts) R.writef R.writeStream_off allow 0
  rwa [bytes, R.currentSize] at this

/-- Of these the first ones stay in the file. -/
theorem dropUnwritten_event (R : Represents L sp) (r : Record) (allow : Allowance)
    (current : UInt64) : dropUnwritten
        (sp.wrote L.writeStream (r.bytes.take (allow.grant r.bytes.length)) current) allow
        L.writeStream.off =
      some (sp.wrote L.writeStream (r.bytes.take (allow.landed r.bytes.length)) current) := by
  have length : (r.bytes.take (allow.grant r.bytes.length)).length =
      allow.grant r.bytes.length := by
    rw [List.length_take, Nat.min_eq_left (allow.grant_le _)]
  rw [dropUnwritten_eq R.writeStream_off, length, List.take_take, Allowance.landed,
    Nat.min_eq_left (Nat.sub_le _ _)]

theorem writeEvent_full (R : Represents L sp) (V : L.Valid) (whole : L.writer.torn = [])
    {r : Record} (unread : r.visited = false) {allow : Allowance}
    (room : allow.landed r.bytes.length = r.bytes.length) :
    ∃ sp', writeEvent sp allow r.parts = some (sp', true) ∧ Represents (L.add r) sp' := by
  have count : ¬ r.parts.length % 0x10000 > maxMsgCount :=
    Nat.not_lt.mpr (Nat.le_trans (Nat.mod_le _ _) r.wf.2.1)
  have grant := Allowance.grant_of_landed room
  obtain ⟨current, written, hwrite, hcurrent⟩ := R.writeChunks_event unread allow
  have hdrop := R.dropUnwritten_event r allow current
  rw [room, List.take_length, hcurrent grant] at hdrop
  rw [decide_eq_true grant, hcurrent grant] at hwrite
  have hf : sp.writef = some L.writeStream := R.writef
  simp only [writeEvent, if_neg count, hf, hwrite, hdrop, Option.bind_eq_bind,
    Option.bind_some, ↓reduceIte]
  refine ⟨_, rfl, ?_⟩
  have keeps : Layout.Keeps (Segment.add r) L.writer := ⟨rfl, rfl, rfl⟩
  have wrote := R.wrote V keeps whole (Segment.add_content r whole)
    (L.currentSize + UInt64.ofNat r.bytes.length)
  refine Represents.withStats wrote ?_ ?_ ?_ _ <;> rfl

theorem writeEvent_short (R : Represents L sp) (V : L.Valid) (whole : L.writer.torn = [])
    {r : Record} (unread : r.visited = false) {allow : Allowance}
    (room : allow.grant r.bytes.length ≠ r.bytes.length)
    (torn : r.bytes.take (allow.landed r.bytes.length) = [] ∨
      IsTorn (r.bytes.take (allow.landed r.bytes.length))) :
    ∃ sp' current, writeEvent sp allow r.parts = some (sp', false) ∧
      Represents { L.mapWriter (Segment.tear _ torn) with currentSize := current } sp' := by
  have count : ¬ r.parts.length % 0x10000 > maxMsgCount :=
    Nat.not_lt.mpr (Nat.le_trans (Nat.mod_le _ _) r.wf.2.1)
  obtain ⟨current, written, hwrite, _⟩ := R.writeChunks_event unread allow
  rw [decide_eq_false room] at hwrite
  have hf : sp.writef = some L.writeStream := R.writef
  simp only [writeEvent, if_neg count, hf, hwrite, R.dropUnwritten_event r allow current,
    Option.bind_eq_bind, Option.bind_some, Bool.false_eq_true, ↓reduceIte]
  refine ⟨_, current, rfl, ?_⟩
  have keeps : Layout.Keeps (Segment.tear _ torn) L.writer := ⟨rfl, rfl, rfl⟩
  exact R.wrote V keeps whole (Segment.tear_content torn whole) current

end Represents

/-! ## Culling -/

namespace Layout
variable {L L' : Layout} {pos : SpoolPos}

theorem cull_some (h : L.cull = some (L', pos)) : ∃ s, L.rest = s :: L'.rest ∧ pos = s.pos ∧
    L' = { L with
      rest := L'.rest
      lost := if L.lost.isNone && L'.rest.isEmpty then some s else L.lost
      currentSize := L.currentSize - UInt64.ofNat s.content.length } := by
  unfold cull at h
  split at h
  · cases h
  · rename_i s rest hrest
    cases h
    exact ⟨s, hrest, rfl, rfl⟩

theorem cull_all (h : L.cull = some (L', pos)) :
    L'.all.Sublist L.all ∧ L'.writer = L.writer := by
  obtain ⟨s, hrest, _, hL'⟩ := cull_some h
  rw [hL']
  cases hlost : L.lost with
  | some w => simp [all, segs, writer, hrest, hlost]
  | none =>
    cases hrest' : L'.rest with
    | nil => simp [all, segs, writer, hrest, hlost, hrest']
    | cons t rest => simp [all, segs, writer, hrest, hlost, hrest', List.getLast?_cons]

theorem Valid.cull (V : L.Valid) (h : L.cull = some (L', pos)) : L'.Valid := by
  obtain ⟨s, hrest, _, hL'⟩ := cull_some h
  obtain ⟨sub, _⟩ := cull_all h
  have hnext : L'.next = L.next := by rw [hL']
  constructor
  · exact V.apart.sublist sub
  · exact V.order.sublist sub
  · exact fun s hs => V.fits s (sub.subset hs)
  · exact fun s hs => hnext ▸ V.fresh s (sub.subset hs)
  · exact fun s hs => V.begins s (hrest ▸ List.mem_cons_of_mem _ hs)
  · rw [hL']; exact V.tornRead

end Layout

/-- The same partition is culled. -/
structure SameCull (a : Layout × SpoolPos) (b : Spool × Option UStr) : Prop where
  represents : Represents a.1 b.1
  valid : a.1.Valid
  name : b.2 = some (spoolFileName a.2)

section
variable {L : Layout} {sp : Spool} {lo : ListingOrder}

theorem cull_refines (R : Represents L sp) (V : L.Valid) :
    Option.Rel SameCull L.cull (cull lo sp) := by
  cases hcull : L.cull with
  | none =>
    have rest : L.rest = [] := by
      unfold Layout.cull at hcull
      split at hcull
      · assumption
      · cases hcull
    have S := R.shelf V
    rw [Layout.segs, rest] at S
    have none : cull lo sp = none := S.cull_none R.readPos
    rw [none]
    exact .none
  | some a =>
    obtain ⟨L', pos⟩ := a
    obtain ⟨s, hrest, rfl, hL'⟩ := Layout.cull_some hcull
    obtain ⟨sub, hwriter⟩ := Layout.cull_all hcull
    have hs : s ∈ L.rest := hrest ▸ List.mem_cons_self
    have S := R.shelf V
    rw [Layout.segs, hrest] at S
    rw [S.cull_eq R.readPos (V.fits s (Layout.mem_all_of_rest hs)).2.2]
    have content : sp.disk.files s.entry.2 = s.content := R.files s (Layout.mem_all_of_rest hs)
    refine .some ⟨?_, V.cull hcull, rfl⟩
    have files : ∀ t ∈ L'.all, sp.disk.files t.file = t.content :=
      fun t ht => R.files t (sub.subset ht)
    rw [hL'] at hwriter files ⊢
    constructor
    · rfl
    · exact files
    · exact R.next
    · rw [hwriter]; exact R.writePos
    · rw [hwriter]; exact R.writef
    · rw [hwriter]; exact R.writeFileName
    · exact R.readPos
    · exact R.readf
    · exact R.readFileName
    · exact R.maxPartitionSize
    · exact R.maxPartitions
    · simp only [R.currentSize, content]

theorem Represents.rollDue (R : Represents L sp) : rollDue sp L.writeStream = L.rollDue := by
  simp only [Yella.rollDue, R.maxPartitionSize, Layout.rollDue, Layout.writeStream]

theorem Represents.cullDue (R : Represents L sp) : cullDue sp = L.cullDue := by
  simp only [Yella.cullDue, R.maxPartitionSize, R.maxPartitions, R.currentSize, Layout.cullDue]

/-- A new partition, where one is due, can be created. -/
structure Layout.CanRoll (L : Layout) (allow : Allowance) : Prop where
  fits : L.rollDue = true → L.RollFits
  opens : L.rollDue = true → allow.opens = true
  room : L.rollDue = true → allow.grant headerSize = headerSize

/-- What is left for the event. -/
def Layout.allowance (L : Layout) (allow : Allowance) : Allowance :=
  if L.rollDue then allow.spend headerSize else allow

theorem Layout.Valid.ready (V : L.Valid) {allow : Allowance} (can : L.CanRoll allow) :
    L.ready.Valid := by
  unfold Layout.ready
  split
  · rename_i h
    exact V.roll (can.fits h)
  · exact V

theorem Layout.ready_whole (h : L.rollDue = false → L.writer.torn = []) :
    L.ready.writer.torn = [] := by
  unfold Layout.ready
  split
  · rw [Layout.roll_writer]; rfl
  · rename_i hn
    exact h (by simpa using hn)

theorem ready_refines (R : Represents L sp) (V : L.Valid) {allow : Allowance}
    (can : L.CanRoll allow) : ∃ sp', (if rollDue sp L.writeStream then
        incrementWriteSpoolPartition sp allow else some (sp, allow, true)) =
      some (sp', L.allowance allow, true) ∧ Represents L.ready sp' := by
  rw [R.rollDue]
  unfold Layout.ready Layout.allowance
  split
  · rename_i h
    exact R.incrementWrite V (can.fits h) (can.opens h) (can.room h)
  · exact ⟨sp, rfl, R⟩

/-- The steps of a push one after the other. -/
theorem spoolPush_eq {f : Stream} (hf : sp.writef = some f) (allow : Allowance)
    (msgs : List Bytes) : spoolPush lo sp allow msgs =
      (if rollDue sp f then incrementWriteSpoolPartition sp allow
        else some (sp, allow, true)).bind fun (sp, allow, ok) =>
          if !ok then some (sp, .fileSystemError, none)
          else (writeEvent sp allow msgs).bind fun (sp, ok) =>
            if !ok then some (sp, .writeError, none)
            else if cullDue sp then
              (cull lo sp).bind fun (sp, culled) => some (sp, .noError, culled)
            else some (sp, .noError, none) := by
  simp only [spoolPush, hf, Option.bind_eq_bind, Option.bind_some]
  split <;> rfl

theorem spoolPush_stored (sp : Spool) (allow : Allowance) (msgs : List Bytes) :
    spoolPush lo sp allow (storedParts msgs) = spoolPush lo sp allow msgs := by
  have write : ∀ sp allow, writeEvent sp allow (storedParts msgs) = writeEvent sp allow msgs := by
    intro sp allow
    simp only [writeEvent, eventChunks_stored, storedParts_length]
  simp only [spoolPush, write]

/-- A push that succeeds, with the same partition culled. -/
structure SamePush (a : Layout × Option SpoolPos) (b : Spool × Rc × Option UStr) : Prop where
  represents : Represents a.1 b.1
  valid : a.1.Valid
  code : b.2.1 = .noError
  name : b.2.2 = a.2.map spoolFileName

/-- A push of the spool is a push of its layout. -/
theorem push_refines (R : Represents L sp) (V : L.Valid) {r : Record} (unread : r.visited = false)
    {allow : Allowance} (can : L.CanRoll allow) (whole : L.rollDue = false → L.writer.torn = [])
    (room : (L.allowance allow).landed r.bytes.length = r.bytes.length) :
    Option.Rel SamePush (L.push r) (spoolPush lo sp allow r.parts) := by
  obtain ⟨sq, hready, Rq⟩ := ready_refines R V can
  have Vq := V.ready can
  have hwhole := Layout.ready_whole whole
  obtain ⟨sr, hwrite, Rr⟩ := Rq.writeEvent_full Vq hwhole unread room
  have Vr : (L.ready.add r).Valid := by
    have := Vq.mapWriter (f := Segment.add r) ⟨rfl, rfl, rfl⟩ hwhole
    exact ⟨this.apart, this.order, this.fits, this.fresh, this.begins, this.tornRead⟩
  rw [@spoolPush_eq sp lo L.writeStream R.writef, hready]
  simp only [Option.bind_some, Bool.not_true, Bool.false_eq_true, ↓reduceIte, hwrite, Rr.cullDue,
    Layout.push]
  split
  · rw [Option.map_eq_bind]
    apply Loop.rel_bind (cull_refines Rr Vr)
    rintro ⟨M, pos⟩ ⟨st, name⟩ ⟨RM, VM, rfl : name = _⟩
    exact .some ⟨RM, VM, rfl, rfl⟩
  · exact .some ⟨Rr, Vr, rfl, rfl⟩

/-- What a failed push leaves: a new partition perhaps, and the beginning of the event. -/
theorem push_fails (R : Represents L sp) (V : L.Valid) {r : Record} (unread : r.visited = false)
    {allow : Allowance} (can : L.CanRoll allow) (whole : L.rollDue = false → L.writer.torn = [])
    (room : (L.allowance allow).grant r.bytes.length ≠ r.bytes.length)
    (torn : r.bytes.take ((L.allowance allow).landed r.bytes.length) = [] ∨
      IsTorn (r.bytes.take ((L.allowance allow).landed r.bytes.length))) :
    ∃ sp' current, spoolPush lo sp allow r.parts = some (sp', .writeError, none) ∧
      Represents { L.ready.mapWriter (Segment.tear _ torn) with currentSize := current } sp' ∧
      { L.ready.mapWriter (Segment.tear _ torn) with currentSize := current }.Valid := by
  obtain ⟨sq, hready, Rq⟩ := ready_refines R V can
  have Vq := V.ready can
  have hwhole := Layout.ready_whole whole
  obtain ⟨sr, current, hwrite, Rr⟩ := Rq.writeEvent_short Vq hwhole unread room torn
  refine ⟨sr, current, ?_, Rr, ?_⟩
  · rw [@spoolPush_eq sp lo L.writeStream R.writef, hready]
    simp only [Option.bind_some, Bool.not_true, Bool.false_eq_true, ↓reduceIte, hwrite,
      Bool.not_false]
  · have := Vq.mapWriter (f := Segment.tear _ torn) ⟨rfl, rfl, rfl⟩ hwhole
    exact ⟨this.apart, this.order, this.fits, this.fresh, this.begins, this.tornRead⟩

end

end Yella
