import Yella.Spool.Empty

/-!
# The bytes of the spool

`current_size` is changed where partitions are created, written to, culled and removed. It is
the size of the partitions, whatever they hold, as long as no cull comes to the writer's own.
-/

namespace Yella

open LittleEndian (encode)

/-! ## Calls -/

namespace Spool

def settings (sp : Spool) : SpoolSettings :=
  ⟨sp.stats.maxPartitionSize, sp.stats.maxPartitions⟩

/-- What a push of this event writes, with the id of a new partition. -/
def pushBytes (sp : Spool) (msgs : List Bytes) : Nat :=
  (if sp.rolls then headerSize else 0) + eventSize msgs

end Spool

/-- The settings stay as they are, with at least four partitions of at least 64 bytes. An event
is not larger than a partition, nothing fails, and the sequence numbers do not overflow. -/
def SizedCall (sp : Spool) (op : SpoolOp) : Prop :=
  64 ≤ sp.stats.maxPartitionSize ∧ 4 ≤ sp.stats.maxPartitions ∧
    match op with
    | .push msgs allow => allow = .full ∧ eventSize msgs ≤ sp.stats.maxPartitionSize.toNat ∧
        (sp.rolls = true → sp.nextPos.minorSeq < 0x100000000)
    | .pop _ => True
    | .restart settings => settings = sp.settings ∧ sp.RestartFits

/-- The product that a push compares with is larger than two partitions can get, and the bytes in
the directory can be counted. -/
def CountFits (sp : Spool) : SpoolOp → Prop
  | .push msgs _ =>
    4 * sp.stats.maxPartitionSize.toNat ≤
        (sp.stats.maxPartitions * sp.stats.maxPartitionSize).toNat + 1 ∧
      sp.bytes + sp.pushBytes msgs < 0x10000000000000000
  | .pop _ => True
  | .restart _ => sp.bytes + headerSize < 0x10000000000000000

/-- The spool at the cull of a push, where there is one. -/
def beforeCull (sp : Spool) (allow : Allowance) (msgs : List Bytes) : Option Spool :=
  sp.writef.bind fun f =>
    (if rollDue sp f then incrementWriteSpoolPartition sp allow
      else some (sp, allow, true)).bind fun (sp, allow, rolled) =>
        (writeEvent sp allow msgs).bind fun (sp, written) =>
          if rolled && written && cullDue sp then some sp else none

/-- The size of a file that the call removes is not larger than what it is subtracted from. -/
def SubtractsWithin (lo : ListingOrder) (sp : Spool) : SpoolOp → Prop
  | .push msgs allow => ∀ sq ∈ beforeCull sp allow msgs, ∀ name ∈ (findOldestFile lo sq).2.1,
      (sq.disk.size name).getD 0 ≤ sq.stats.currentSize.toNat
  | .pop _ => ∀ sq, Loop.Passes (advanceRound lo) sp sq → ∀ name ∈ sq.readFileName,
      (sq.disk.size name).getD 0 ≤ sq.stats.currentSize.toNat
  | .restart _ => True

/-! ## Files and streams -/

theorem overwrite_length {old bytes : Bytes} {off : Nat} (h : off + bytes.length ≤ old.length) :
    (Disk.overwrite old off bytes).length = old.length := by
  simp only [Disk.overwrite, List.length_append, List.length_take, List.length_replicate,
    List.length_drop]
  omega

theorem isSpoolFile_congr {a b : Bytes} (h : a.take headerSize = b.take headerSize) :
    isSpoolFile a = isSpoolFile b := by
  rw [isSpoolFile, isSpoolFile, h]

theorem isSpoolFile_length {content : Bytes} (h : isSpoolFile content = true) :
    headerSize ≤ content.length := by
  simp only [isSpoolFile, Bool.and_eq_true, decide_eq_true_eq, List.length_take] at h
  omega

theorem isSpoolFile_append {content : Bytes} (h : isSpoolFile content = true) (bytes : Bytes) :
    isSpoolFile (content ++ bytes) = true := by
  rwa [isSpoolFile_congr (List.take_append_of_le_length (isSpoolFile_length h))]

/-- A write after the id. -/
theorem isSpoolFile_overwrite {content : Bytes} (h : isSpoolFile content = true) {off : Nat}
    (past : headerSize ≤ off) (bytes : Bytes) :
    isSpoolFile (Disk.overwrite content off bytes) = true := by
  have long := isSpoolFile_length h
  rwa [isSpoolFile_congr]
  rw [Disk.overwrite, List.append_assoc, List.append_assoc, List.take_append_of_le_length
    (by rw [List.length_take]; omega), List.take_take, Nat.min_eq_left past]

section
variable (d : Disk) (f : Stream) (n : Nat)

theorem fread_file : (d.fread f n).2.file = f.file := by
  unfold Disk.fread
  split <;> rfl

theorem fread_off : (d.fread f n).2.off = f.off + (d.fread f n).1.length := by
  unfold Disk.fread
  split <;> rfl

theorem fread_length : (d.fread f n).1.length ≤ n := by
  unfold Disk.fread
  split
  · exact Nat.zero_le _
  · exact List.length_take_le _ _

/-- What has been read is before the end of the file. -/
theorem fread_within (read : (d.fread f n).1.length ≠ 0) :
    (d.fread f n).2.off ≤ (d.files f.file).length := by
  unfold Disk.fread at read ⊢
  split
  · rename_i eof
    simp [eof] at read
  · rename_i more
    simp only [more, Bool.false_eq_true, ↓reduceIte, List.length_take, List.length_drop] at read ⊢
    omega

theorem fastForward_past :
    (fastForward d n f).1.file = f.file ∧ f.off ≤ (fastForward d n f).1.off := by
  induction n generalizing f with
  | zero => exact ⟨rfl, Nat.le_refl _⟩
  | succ n ih =>
    have off := fread_off d f 4
    simp only [fastForward]
    split
    · exact ⟨fread_file d f 4, by simp only; omega⟩
    · obtain ⟨file, past⟩ := ih ((d.fread f 4).2.seek _)
      refine ⟨file.trans (fread_file d f 4), Nat.le_trans ?_ past⟩
      simp only [Stream.seek]
      omega

theorem readParts_past : (readParts d n f).1.file = f.file ∧ f.off ≤ (readParts d n f).1.off := by
  induction n generalizing f with
  | zero => exact ⟨rfl, Nat.le_refl _⟩
  | succ n ih =>
    have size := fread_off d f 4
    have data := fread_off d (d.fread f 4).2 (LittleEndian.decode (d.fread f 4).1)
    have file := (fread_file d (d.fread f 4).2 (LittleEndian.decode (d.fread f 4).1)).trans
      (fread_file d f 4)
    simp only [readParts]
    split
    · exact ⟨fread_file d f 4, by simp only; omega⟩
    · split
      · exact ⟨file, by simp only; omega⟩
      · obtain ⟨rest, past⟩ := ih (d.fread (d.fread f 4).2 _).2
        exact ⟨rest.trans file, by simp only; omega⟩

end

/-! ## The state of the account -/

/-- The reader's partition is the first and the writer's the last one, and the size is that of all
of them. -/
structure Counts (sp : Spool) (ps : List (SpoolPos × Nat)) : Prop where
  shelf : Shelf sp.disk ps
  reader : ∃ f, sp.readf = some f ∧ headerSize ≤ f.off ∧ ps.head? = some (sp.readPos, f.file)
  readFileName : sp.readFileName = some (spoolFileName sp.readPos)
  writer : ∃ f, sp.writef = some f ∧ f.off = (sp.disk.files f.file).length ∧
    ps.getLast? = some (sp.writePos, f.file)
  writeFileName : sp.writeFileName = some (spoolFileName sp.writePos)
  sizes : headerSize < sp.stats.maxPartitionSize.toNat →
    ∀ p ∈ ps, (sp.disk.files p.2).length < 2 * sp.stats.maxPartitionSize.toNat
  counted : sp.stats.currentSize.toNat = shelfSize sp.disk ps

/-- So many bytes more, at the end of the last of the partitions that there are now. -/
structure Grown (sp sq : Spool) (ps qs : List (SpoolPos × Nat)) (n : Nat) : Prop where
  bytes : sq.bytes = sp.bytes + n
  readPos : sq.readPos = sp.readPos
  subset : ps ⊆ qs
  others : ∀ q ∈ qs.dropLast, q ∈ ps ∧
    (sq.disk.files q.2).length = (sp.disk.files q.2).length

theorem Grown.trans {sp sq sr : Spool} {ps qs : List (SpoolPos × Nat)} {m n : Nat}
    (h : Grown sp sq ps qs m) (h' : Grown sq sr qs qs n) : Grown sp sr ps qs (m + n) where
  bytes := by rw [h'.bytes, h.bytes, Nat.add_assoc]
  readPos := h'.readPos.trans h.readPos
  subset := h.subset
  others q hq := ⟨(h.others q hq).1, (h'.others q hq).2.trans (h.others q hq).2⟩

theorem toNat_add_ofNat {c : UInt64} {n : Nat} (h : c.toNat + n < 0x10000000000000000) :
    (c + UInt64.ofNat n).toNat = c.toNat + n := by
  have same : (UInt64.ofNat n).toNat = n :=
    UInt64.toNat_ofNat_of_lt' (Nat.lt_of_le_of_lt (Nat.le_add_left n _) h)
  rw [UInt64.toNat_add, same]
  exact Nat.mod_eq_of_lt h

theorem toNat_sub_ofNat {c : UInt64} {n : Nat} (h : n ≤ c.toNat) :
    (c - UInt64.ofNat n).toNat = c.toNat - n := by
  have same : (UInt64.ofNat n).toNat = n :=
    UInt64.toNat_ofNat_of_lt' (Nat.lt_of_le_of_lt h c.toNat_lt)
  rw [UInt64.toNat_sub_of_le _ _ (by rw [UInt64.le_iff_toNat_le, same]; exact h), same]

section
variable {disk : Disk} {files : Nat → Bytes} {ps before : List (SpoolPos × Nat)}
  {p : SpoolPos × Nat}

@[simp] theorem shelfSize_cons : shelfSize disk (p :: ps) =
    (disk.files p.2).length + shelfSize disk ps := rfl

theorem shelfSize_append (qs : List (SpoolPos × Nat)) :
    shelfSize disk (ps ++ qs) = shelfSize disk ps + shelfSize disk qs := by
  simp [shelfSize]

theorem length_le_shelfSize (hp : p ∈ ps) : (disk.files p.2).length ≤ shelfSize disk ps := by
  obtain ⟨before, after, rfl⟩ := List.append_of_mem hp
  rw [shelfSize_append, shelfSize_cons]
  omega

theorem shelfSize_sublist (sub : before.Sublist ps) :
    shelfSize disk before ≤ shelfSize disk ps := by
  induction sub with
  | slnil => exact Nat.le_refl _
  | cons p _ ih => exact Nat.le_trans ih (Nat.le_add_left _ _)
  | cons_cons p _ ih => exact Nat.add_le_add_left ih _

theorem shelfSize_congr (h : ∀ p ∈ ps, (files p.2).length = (disk.files p.2).length) :
    shelfSize { disk with files } ps = shelfSize disk ps :=
  congrArg List.sum (List.map_congr_left h)

/-- The last file gets another content. -/
theorem shelfSize_update (apart : (before ++ [p]).Pairwise (fun p q => p.2 ≠ q.2))
    (content : Bytes) :
    shelfSize { disk with files := Function.update disk.files p.2 content } (before ++ [p]) =
      shelfSize disk before + content.length := by
  have others : shelfSize { disk with files := Function.update disk.files p.2 content } before =
      shelfSize disk before := by
    apply shelfSize_congr
    intro q hq
    rw [Function.update_of_ne ((List.pairwise_append.mp apart).2.2 q hq p (by simp))]
  rw [shelfSize_append, others, shelfSize_cons]
  simp [shelfSize]

end

namespace Counts
variable {lo : ListingOrder} {sp sq : Spool} {ps : List (SpoolPos × Nat)}

theorem bytes (C : Counts sp ps) : sp.stats.currentSize.toNat = sp.bytes :=
  C.counted.trans C.shelf.bytes.symm

/-- The other figures. -/
theorem withStats (C : Counts sp ps) {stats : SpoolStats}
    (same : stats.maxPartitionSize = sp.stats.maxPartitionSize)
    (current : stats.currentSize = sp.stats.currentSize) (total : UInt64) :
    Counts { sp with stats, totalEventBytesWritten := total } ps :=
  { C with
    sizes := by rw [same]; exact C.sizes
    counted := current ▸ C.counted }

/-- The reader goes on in its file. -/
theorem readOn (C : Counts sp ps) {f g : Stream} (hf : sp.readf = some f) (file : g.file = f.file)
    (past : f.off ≤ g.off) : Counts { sp with readf := some g } ps :=
  { C with
    reader := by
      obtain ⟨f', hf', off, first⟩ := C.reader
      obtain rfl : f = f' := Option.some.inj (hf.symm.trans hf')
      exact ⟨g, rfl, Nat.le_trans off past, file ▸ first⟩ }

/-- The size of the reader's partition can be subtracted. -/
theorem subtracts (C : Counts sp ps) :
    ∀ name ∈ sp.readFileName, (sp.disk.size name).getD 0 ≤ sp.stats.currentSize.toNat := by
  intro name hname
  obtain ⟨f, -, -, first⟩ := C.reader
  have mem := List.mem_of_head? first
  rw [C.readFileName, Option.mem_some_iff] at hname
  rw [← hname, C.shelf.size mem, C.counted]
  exact length_le_shelfSize mem

/-- The reader's partition is removed, and the reader opens the one after it. -/
theorem leave (C : Counts sp ps) {st : Spool} {ok : Bool}
    (removed : removeReadPartition sp = some sq)
    (moved : incrementReadSpoolPartition lo sq = some (st, ok)) : ∃ qs, Counts st qs := by
  obtain ⟨f, -, -, first⟩ := C.reader
  obtain ⟨after, rfl⟩ := List.head?_eq_some_iff.mp first
  have order := (List.pairwise_cons.mp C.shelf.order).1
  rw [C.shelf.removeRead_eq C.readFileName, Option.some_inj] at removed
  have rest : Shelf sq.disk after := removed ▸ C.shelf.sublist (List.sublist_cons_self _ after)
  have pos : sq.readPos = sp.readPos := by rw [← removed]
  cases after with
  | nil =>
    rw [rest.incrementRead_none (by simp)] at moved
    cases moved
  | cons m after =>
    have next : sq.readPos < m.1 := pos ▸ order m List.mem_cons_self
    by_cases bound : m.1 < ⟨0xffffffff, 0xffffffff⟩
    · rw [rest.incrementRead_eq next bound, Option.some_inj, Prod.mk.injEq] at moved
      obtain ⟨rfl, -⟩ := moved
      subst removed
      refine ⟨m :: after, rest, ⟨_, rfl, Nat.le_refl _, rfl⟩, rfl, ?_, C.writeFileName, ?_, ?_⟩
      · obtain ⟨g, hg, off, last⟩ := C.writer
        rw [List.getLast?_cons_cons] at last
        exact ⟨g, hg, off, last⟩
      · exact fun size p hp => C.sizes size p (List.mem_cons_of_mem _ hp)
      · have counted := C.counted
        rw [shelfSize_cons] at counted
        show (sp.stats.currentSize - _).toNat = shelfSize sp.disk (m :: after)
        rw [toNat_sub_ofNat (by omega)]
        omega
    · -- the only position that the scan does not find
      have none : ∀ p ∈ m :: after, ¬ (p.1 < ⟨0xffffffff, 0xffffffff⟩ ∧ sq.readPos < p.1) := by
        rintro p hp ⟨lt, -⟩
        obtain rfl | hp := List.mem_cons.mp hp
        · exact bound lt
        · exact bound (SpoolPos.lt_trans ((List.pairwise_cons.mp rest.order).1 p hp) lt)
      rw [rest.incrementRead_none none] at moved
      cases moved

/-- How the loop of a pop ends: a message count is in the reader's file. -/
def Ready (last : Nat × Spool) : Prop :=
  (∃ ps, Counts last.2 ps) ∧ (0 < last.1 → ∃ f, last.2.readf = some f ∧ headerSize + 2 ≤ f.off ∧
    f.off ≤ (last.2.disk.files f.file).length)

theorem round (C : Counts sp ps) {next : Spool ⊕ Nat × Spool}
    (h : advanceRound lo sp = some next) : Sum.elim (fun st => ∃ qs, Counts st qs) Ready next := by
  obtain ⟨f, hf, past, -⟩ := C.reader
  have off := fread_off sp.disk f 2
  have size := fread_length sp.disk f 2
  have file := fread_file sp.disk f 2
  have read := C.readOn hf file (by omega)
  have nothing : ∀ {st qs}, Counts st qs → Ready (0, st) :=
    fun D => ⟨⟨_, D⟩, fun more => absurd more (Nat.lt_irrefl 0)⟩
  simp only [advanceRound, hf, Option.bind_eq_bind, Option.bind_some] at h
  split at h
  · split at h
    · obtain ⟨diff, -, h⟩ := Option.bind_eq_some_iff.mp h
      split at h
      · obtain ⟨sq, removed, h⟩ := Option.bind_eq_some_iff.mp h
        obtain ⟨⟨st, ok⟩, moved, h⟩ := Option.bind_eq_some_iff.mp h
        obtain ⟨qs, left⟩ := read.leave removed moved
        split at h
        · cases h
          exact ⟨qs, left⟩
        · cases h
          exact nothing left
      · cases h
        exact nothing read
    · cases h
      exact nothing read
  · rename_i some
    split at h
    · cases h
      refine ⟨ps, C.readOn hf file ?_⟩
      simp only [Stream.seek]
      omega
    · split at h
      · obtain ⟨same, on⟩ := fastForward_past sp.disk (sp.disk.fread f 2).2
          (eventMsgCount (LittleEndian.decode (sp.disk.fread f 2).1))
        have skipped := C.readOn hf (same.trans file) (by omega)
        split at h
        · cases h
          exact ⟨ps, skipped⟩
        · cases h
          exact nothing skipped
      · rename_i two _
        cases h
        refine ⟨⟨ps, read⟩, fun _ => ⟨_, rfl, ?_, ?_⟩⟩
        · omega
        · rw [file]
          exact fread_within sp.disk f 2 some

theorem passes (C : Counts sp ps) (h : Loop.Passes (advanceRound lo) sp sq) :
    ∃ qs, Counts sq qs := by
  refine h.invariant (fun sp => ∃ ps, Counts sp ps) ⟨ps, C⟩ ?_
  rintro s t ⟨qs, D⟩ round
  exact D.round round

theorem advance (C : Counts sp ps) {rounds msgCount : Nat}
    (h : advanceToNextUnvisited lo rounds sp = some (msgCount, sq)) : Ready (msgCount, sq) := by
  have ends : Loop.Ends (advanceRound lo) sp (msgCount, sq) := ⟨rounds, h⟩
  refine ends.invariant (fun sp => ∃ ps, Counts sp ps) Ready ⟨ps, C⟩ ?_ ?_
  · rintro s t ⟨qs, D⟩ round
    exact D.round round
  · rintro s last ⟨qs, D⟩ round
    exact D.round round

/-- The count of an event is marked. -/
theorem mark (C : Counts sp ps) {f g : Stream} (hf : sp.readf = some f) {bytes : Bytes} {off : Nat}
    (past : headerSize ≤ off) (within : off + bytes.length ≤ (sp.disk.files f.file).length)
    (file : g.file = f.file) (on : headerSize ≤ g.off) :
    Counts { sp with
      disk := { sp.disk with
        files := Function.update sp.disk.files f.file
          (Disk.overwrite (sp.disk.files f.file) off bytes) }
      readf := some g } ps := by
  have kept : ∀ i, (Function.update sp.disk.files f.file
      (Disk.overwrite (sp.disk.files f.file) off bytes) i).length =
      (sp.disk.files i).length := by
    intro i
    by_cases h : i = f.file
    · rw [h, Function.update_self, overwrite_length within]
    · rw [Function.update_of_ne h]
  obtain ⟨f', hf', -, first⟩ := C.reader
  obtain rfl : f = f' := Option.some.inj (hf.symm.trans hf')
  refine ⟨C.shelf.withFiles ?_, ⟨g, rfl, on, file ▸ first⟩, C.readFileName, ?_, C.writeFileName,
    ?_, ?_⟩
  · intro p hp
    have id := C.shelf.spoolFile p hp
    by_cases h : p.2 = f.file
    · rw [h] at id ⊢
      rw [Function.update_self]
      exact isSpoolFile_overwrite id past bytes
    · rwa [Function.update_of_ne h]
  · obtain ⟨w, hw, hoff, last⟩ := C.writer
    exact ⟨w, hw, hoff.trans (kept w.file).symm, last⟩
  · intro size p hp
    rw [kept]
    exact C.sizes size p hp
  · exact C.counted.trans (shelfSize_congr fun p _ => kept p.2).symm

theorem event (C : Counts sp ps) {msgCount : Nat} {rc : Rc} {parts : List Bytes} {f : Stream}
    (hf : sp.readf = some f) (past : headerSize + 2 ≤ f.off)
    (within : f.off ≤ (sp.disk.files f.file).length)
    (h : popEvent sp msgCount = some (sq, rc, parts)) : Counts sq ps := by
  obtain ⟨file, on⟩ := readParts_past sp.disk f msgCount
  simp only [popEvent, hf, Option.bind_eq_bind, Option.bind_some] at h
  split at h
  · cases h
    exact C.readOn hf file on
  · have two : (encode 2 (setVisited msgCount)).length = 2 := LittleEndian.encode_length _ _
    rw [Option.some_inj, Prod.mk.injEq] at h
    obtain ⟨rfl, -⟩ := h
    simp only [Disk.fwrite, Stream.seek, file]
    have off : headerSize ≤ f.off - 2 := by omega
    have inside : f.off - 2 + (encode 2 (setVisited msgCount)).length ≤
        (sp.disk.files f.file).length := by omega
    let g : Stream := { f with off := (readParts sp.disk msgCount f).1.off, eof := false }
    have after : headerSize ≤ g.off := Nat.le_trans (by omega) on
    have marked := C.mark (g := g) hf off inside rfl after
    refine marked.withStats ?_ ?_ _ <;> rfl

theorem pop (C : Counts sp ps) {rounds : Nat} {signaled : Bool} {rc : Rc} {parts : List Bytes}
    (h : spoolPop lo rounds signaled sp = some (sq, rc, parts)) : ∃ qs, Counts sq qs := by
  obtain ⟨diff, -, h⟩ := Option.bind_eq_some_iff.mp h
  split at h
  · split at h
    · cases h
      exact ⟨ps, C⟩
    · obtain ⟨⟨msgCount, st⟩, advanced, h⟩ := Option.bind_eq_some_iff.mp h
      obtain ⟨⟨qs, D⟩, ready⟩ := C.advance advanced
      simp only at h
      split at h
      · rename_i more
        obtain ⟨f, hf, past, within⟩ := ready more
        exact ⟨qs, D.event hf past within h⟩
      · have same : sq = st := by
          unfold popNothing at h
          split at h
          · obtain ⟨r, -, h⟩ := Option.bind_eq_some_iff.mp h
            obtain ⟨w, -, h⟩ := Option.bind_eq_some_iff.mp h
            cases h
            rfl
          · cases h
            rfl
        exact ⟨qs, same ▸ D⟩
  · cases h
    exact ⟨ps, C⟩

/-! ## Opening and closing -/

theorem opened {settings : SpoolSettings} {disk : Disk} (N : NewSpool settings disk ps sp)
    (sizes : headerSize < settings.maxSpoolPartitionSize.toNat →
      ∀ p ∈ ps, (disk.files p.2).length < 2 * settings.maxSpoolPartitionSize.toNat)
    (fits : shelfSize disk ps + headerSize < 0x10000000000000000) :
    Counts sp (ps ++ [(newPos ps, disk.next)]) := by
  have apart := N.shelf.apart
  have files : sp.disk.files = Function.update disk.files disk.next header := by rw [N.stored]
  have size : shelfSize sp.disk (ps ++ [(newPos ps, disk.next)]) =
      shelfSize disk ps + headerSize := by
    have update := @shelfSize_update disk ps (newPos ps, disk.next) apart header
    rw [header_length] at update
    rw [N.stored]
    exact update
  obtain ⟨m, after, hm, pos, readf, name⟩ := N.reader
  refine ⟨N.shelf, ⟨_, readf, Nat.le_refl _, ?_⟩, ?_, ⟨_, N.writef, ?_, ?_⟩, ?_, ?_, ?_⟩
  · rw [hm, pos]
    rfl
  · rw [name, pos]
  · simp [files]
  · simp [N.writePos]
  · rw [N.writeFileName, N.writePos]
  · rw [N.maxPartitionSize]
    intro large p hp
    rw [files]
    obtain hp | hp := List.mem_append.mp hp
    · have ne : p.2 ≠ disk.next :=
        (List.pairwise_append.mp apart).2.2 p hp (newPos ps, disk.next) (by simp)
      rw [Function.update_of_ne ne]
      exact sizes large p hp
    · rw [List.mem_singleton.mp hp, Function.update_self, header_length]
      omega
  · rw [N.currentSize, size, ← UInt64.ofNat_add]
    exact UInt64.toNat_ofNat_of_lt' fits

/-- Only the writer's partition may go. -/
theorem destroy (C : Counts sp ps) {disk : Disk} (h : destroySpool sp = some disk) :
    ∃ qs, Shelf disk qs ∧ qs.Sublist ps ∧ disk.files = sp.disk.files := by
  obtain ⟨f, hf, -, -⟩ := C.reader
  obtain ⟨w, hw, -, last⟩ := C.writer
  simp only [destroySpool, hf, hw, C.writeFileName, Option.bind_eq_bind, Option.bind_some] at h
  split at h
  · obtain ⟨before, rfl⟩ := List.getLast?_eq_some_iff.mp last
    have S := C.shelf
    have remove := S.remove
    rw [List.append_nil] at remove
    rw [remove, Option.getD_some, Option.some_inj] at h
    subst h
    exact ⟨before, S.sublist (List.sublist_append_left _ _), List.sublist_append_left _ _, rfl⟩
  · cases h
    exact ⟨ps, C.shelf, .refl _, rfl⟩

theorem newPos_fits (C : Counts sp ps) (fits : sp.RestartFits) {qs : List (SpoolPos × Nat)}
    (sub : qs.Sublist ps) : (newPos (filled sp.disk qs)).majorSeq < 0x100000000 := by
  obtain h | ⟨before, p, h⟩ := List.eq_nil_or_concat (filled sp.disk qs)
  · rw [h]
    decide
  · rw [List.concat_eq_append] at h
    obtain ⟨mem, more⟩ := List.mem_filter.mp (h ▸ List.mem_concat_self : p ∈ filled sp.disk qs)
    have hp := sub.subset mem
    have long := isSpoolFile_length (C.shelf.spoolFile p hp)
    rw [h, newPos_snoc]
    apply fits (entryOf p) (C.shelf.dir ▸ List.mem_map_of_mem hp) p.1 (C.shelf.listed.scan hp)
    exact Nat.lt_of_le_of_ne long (Ne.symm (of_decide_eq_true more))

theorem restart (C : Counts sp ps) (sized : SizedCall sp (.restart sp.settings))
    (fits : CountFits sp (.restart sp.settings)) {disk : Disk}
    (closed : destroySpool sp = some disk)
    (opened : createSpool lo sp.settings disk sp.listings = some (some sq)) :
    ∃ qs, Counts sq qs := by
  obtain ⟨qs, S, sub, files⟩ := C.destroy closed
  have same : filled disk qs = filled sp.disk qs := by rw [filled, filled, files]
  have size : shelfSize disk (filled disk qs) = shelfSize sp.disk (filled sp.disk qs) := by
    rw [same, shelfSize, shelfSize, files]
  have le : shelfSize sp.disk (filled sp.disk qs) ≤ sp.bytes := by
    rw [← C.bytes, C.counted]
    exact shelfSize_sublist (List.filter_sublist.trans sub)
  obtain ⟨sr, create, N⟩ := @Shelf.createSpool_eq lo disk qs S
    (same ▸ C.newPos_fits sized.2.2.2 sub) sp.settings sp.listings
  rw [opened, Option.some_inj, Option.some_inj] at create
  subst create
  refine ⟨_, Counts.opened N ?_ ?_⟩
  · intro large p hp
    rw [files]
    exact C.sizes large p (sub.subset (List.filter_sublist.subset hp))
  · rw [size]
    exact Nat.lt_of_le_of_lt (Nat.add_le_add_right le _) fits

/-! ## Pushing -/

theorem roll (C : Counts sp ps) (large : headerSize < sp.stats.maxPartitionSize.toNat)
    (minor : sp.nextPos.minorSeq < 0x100000000)
    (fits : sp.bytes + headerSize < 0x10000000000000000) :
    ∃ sq qs, incrementWriteSpoolPartition sp .full = some (sq, .full, true) ∧ Counts sq qs ∧
      sq.settings = sp.settings ∧ Grown sp sq ps qs headerSize ∧
      sq.writef = some { file := sp.disk.next, off := headerSize, eof := false } := by
  obtain ⟨w, -, -, last⟩ := C.writer
  obtain ⟨before, hps⟩ := List.getLast?_eq_some_iff.mp last
  have pos : sp.nextPos.Fits ∧ 0 < sp.nextPos.majorSeq := by
    obtain ⟨⟨major, -⟩, positive⟩ := C.shelf.fits _ (List.mem_of_getLast? last)
    exact ⟨⟨major, minor⟩, positive⟩
  have later : ∀ p ∈ ps, p.1 < sp.nextPos := by
    rw [hps]
    exact fun p hp => lt_of_last_lt (hps ▸ C.shelf.order) (.inr ⟨rfl, Nat.lt_succ_self _⟩) hp
  have S := C.shelf.create pos later
  have size := @shelfSize_update sp.disk ps (sp.nextPos, sp.disk.next) S.apart header
  rw [header_length] at size
  have counted : (sp.stats.currentSize + UInt64.ofNat headerSize).toNat =
      shelfSize sp.disk ps + headerSize := by
    rw [toNat_add_ofNat (by rw [C.bytes]; exact fits), C.counted]
  refine ⟨_, ps ++ [(sp.nextPos, sp.disk.next)], incrementWriteSpoolPartition_eq rfl minor
    (C.shelf.lookup_none pos.1 later) rfl rfl, ?_, rfl, ⟨S.bytes.trans (size.trans ?_), rfl,
    List.subset_append_left _ _, ?_⟩, rfl⟩
  · refine ⟨S, ?_, C.readFileName, ⟨_, rfl, ?_, List.getLast?_concat⟩, rfl, ?_,
      counted.trans size.symm⟩
    · obtain ⟨f, hf, past, first⟩ := C.reader
      exact ⟨f, hf, past, by rw [List.head?_append, first, Option.some_or]⟩
    · simp only [Function.update_self, header_length]
    · intro _ p hp
      obtain hp | hp := List.mem_append.mp hp
      · simp only [Function.update_of_ne (Nat.ne_of_lt (C.shelf.fresh p hp))]
        exact C.sizes large p hp
      · rw [List.mem_singleton.mp hp]
        simp only [Function.update_self, header_length]
        omega
  · rw [← C.counted, C.bytes]
  · intro q hq
    rw [List.dropLast_concat] at hq
    simp only [Function.update_of_ne (Nat.ne_of_lt (C.shelf.fresh q hq))]
    exact ⟨hq, trivial⟩

/-- The partitions but the last are not the writer's. -/
theorem writer_other (C : Counts sp ps) {f : Stream} (hf : sp.writef = some f)
    {q : SpoolPos × Nat} (hq : q ∈ ps.dropLast) : q.2 ≠ f.file := by
  obtain ⟨w, hw, -, last⟩ := C.writer
  obtain rfl : w = f := Option.some.inj (hw.symm.trans hf)
  obtain ⟨before, rfl⟩ := List.getLast?_eq_some_iff.mp last
  rw [List.dropLast_concat] at hq
  exact (List.pairwise_append.mp C.shelf.apart).2.2 q hq (sp.writePos, w.file) (by simp)

/-- The end of the writer's partition. -/
theorem wrote (C : Counts sp ps) {f : Stream} (hf : sp.writef = some f) {bytes : Bytes}
    (small : f.off + bytes.length < 2 * sp.stats.maxPartitionSize.toNat)
    (fits : sp.bytes + bytes.length < 0x10000000000000000) :
    Counts (sp.wrote f bytes (sp.stats.currentSize + UInt64.ofNat bytes.length)) ps := by
  obtain ⟨w, hw, off, last⟩ := C.writer
  obtain rfl : w = f := Option.some.inj (hw.symm.trans hf)
  obtain ⟨before, rfl⟩ := List.getLast?_eq_some_iff.mp last
  have id := C.shelf.spoolFile _ (List.mem_of_getLast? last)
  have apart := C.shelf.apart
  have length : (sp.disk.files w.file ++ bytes).length = w.off + bytes.length := by
    rw [List.length_append, off]
  have size := @shelfSize_update sp.disk before (sp.writePos, w.file) apart
    (sp.disk.files w.file ++ bytes)
  have counted : shelfSize sp.disk before + w.off = sp.stats.currentSize.toNat := by
    rw [C.counted, shelfSize_append, off]
    rfl
  have others : ∀ p ∈ before, p.2 ≠ w.file :=
    fun p hp => (List.pairwise_append.mp apart).2.2 p hp (sp.writePos, w.file) (by simp)
  refine ⟨C.shelf.withFiles ?_, C.reader, C.readFileName, ⟨_, rfl, ?_, last⟩, C.writeFileName,
    ?_, ?_⟩
  · intro p hp
    obtain hp' | hp' := List.mem_append.mp hp
    · rw [Function.update_of_ne (others p hp')]
      exact C.shelf.spoolFile p hp
    · rw [List.mem_singleton.mp hp', Function.update_self]
      exact isSpoolFile_append id bytes
  · simp only [Spool.wrote, Function.update_self, length]
  · intro large p hp
    simp only [Spool.wrote] at large ⊢
    obtain hp' | hp' := List.mem_append.mp hp
    · rw [Function.update_of_ne (others p hp')]
      exact C.sizes large p hp
    · rw [List.mem_singleton.mp hp', Function.update_self, length]
      exact small
  · refine (toNat_add_ofNat (C.bytes ▸ fits)).trans (Eq.trans ?_ size.symm)
    omega

theorem write (C : Counts sp ps) {f : Stream} (hf : sp.writef = some f) {msgs : List Bytes}
    (small : f.off + eventSize msgs < 2 * sp.stats.maxPartitionSize.toNat)
    (fits : sp.bytes + eventSize msgs < 0x10000000000000000) {ok : Bool}
    (h : writeEvent sp .full msgs = some (sq, ok)) :
    ok = true ∧ Counts sq ps ∧ sq.settings = sp.settings ∧ Grown sp sq ps ps (eventSize msgs) := by
  obtain ⟨w, hw, off, -⟩ := C.writer
  obtain rfl : w = f := Option.some.inj (hw.symm.trans hf)
  obtain ⟨current, n, chunks, added⟩ := writeChunks_eq (eventChunks msgs) hf off .full 0
  have all : Allowance.full.grant (eventChunks msgs).flatten.length =
      (eventChunks msgs).flatten.length := rfl
  rw [all, List.take_length, decide_eq_true rfl, added all] at chunks
  have drop := dropUnwritten_eq off .full (eventChunks msgs).flatten
    (sp.stats.currentSize + UInt64.ofNat (eventChunks msgs).flatten.length)
  rw [show Allowance.full.drops = 0 from rfl, Nat.sub_zero, List.take_length] at drop
  simp only [writeEvent, hf, chunks, drop, Option.bind_eq_bind, Option.bind_some,
    ↓reduceIte] at h
  split at h
  · cases h
  · cases h
    have written := C.wrote hf small fits
    refine ⟨rfl, ?_, rfl, ?_, rfl, List.Subset.refl _, fun q hq => ⟨List.dropLast_subset _ hq, ?_⟩⟩
    · refine written.withStats ?_ ?_ _ <;> rfl
    · have counted := toNat_add_ofNat (C.bytes.symm ▸ fits)
      rw [C.bytes] at counted
      exact written.bytes.symm.trans counted
    · simp only [Spool.wrote, Function.update_of_ne (C.writer_other hw hq)]

/-- The partition for the event, with room for the event under the bound. -/
theorem ready (C : Counts sp ps) {f : Stream} (hf : sp.writef = some f) {msgs : List Bytes}
    {allow : Allowance} (sized : SizedCall sp (.push msgs allow))
    (fits : CountFits sp (.push msgs allow)) : ∃ sq qs g,
      (if rollDue sp f then incrementWriteSpoolPartition sp allow else some (sp, allow, true)) =
        some (sq, .full, true) ∧ Counts sq qs ∧ sq.settings = sp.settings ∧
      Grown sp sq ps qs (if sp.rolls then headerSize else 0) ∧ sq.writef = some g ∧
      g.off + eventSize msgs < 2 * sp.stats.maxPartitionSize.toNat ∧
      sq.bytes + eventSize msgs < 0x10000000000000000 := by
  obtain ⟨large, -, rfl, small, minor⟩ := sized
  obtain ⟨-, total⟩ := fits
  have large : 64 ≤ sp.stats.maxPartitionSize.toNat := UInt64.le_iff_toNat_le.mp large
  have eight : headerSize = 8 := rfl
  have rolls : sp.rolls = rollDue sp f := by rw [Spool.rolls, hf, Option.any_some]
  rw [Spool.pushBytes, rolls] at total
  by_cases due : rollDue sp f = true
  · rw [if_pos due] at total ⊢
    obtain ⟨sq, qs, rolled, D, same, grown, writef⟩ :=
      @roll sp ps C (by omega) (minor (rolls.trans due)) (by omega)
    have bytes := grown.bytes
    rw [rolls, if_pos due]
    exact ⟨sq, qs, _, rolled, D, same, grown, writef, by simp only; omega, by omega⟩
  · rw [if_neg due] at total ⊢
    obtain ⟨w, hw, off, last⟩ := C.writer
    obtain rfl : w = f := Option.some.inj (hw.symm.trans hf)
    have le : w.off ≤ sp.bytes := by
      rw [off, ← C.bytes, C.counted]
      exact length_le_shelfSize (List.mem_of_getLast? last)
    have under : w.off < sp.stats.maxPartitionSize.toNat := by
      rw [rollDue, decide_eq_true_eq, UInt64.le_iff_toNat_le,
        UInt64.toNat_ofNat_of_lt' (show w.off < 0x10000000000000000 by omega)] at due
      omega
    rw [rolls, if_neg due]
    refine ⟨sp, ps, w, rfl, C, rfl, ⟨rfl, rfl, List.Subset.refl _, fun q hq => ?_⟩, hf, by omega,
      by omega⟩
    exact ⟨List.dropLast_subset _ hq, rfl⟩

/-- The bytes of a cull are in three partitions at least. -/
theorem three (C : Counts sp ps) (large : headerSize < sp.stats.maxPartitionSize.toNat)
    (product : 4 * sp.stats.maxPartitionSize.toNat ≤
      (sp.stats.maxPartitions * sp.stats.maxPartitionSize).toNat + 1)
    (due : cullDue sp = true) : ∃ p m n after, ps = p :: m :: n :: after := by
  have le := UInt64.le_iff_toNat_le.mp (of_decide_eq_true due)
  rw [C.counted] at le
  have bound := C.sizes large
  obtain _ | ⟨p, _ | ⟨m, _ | ⟨n, after⟩⟩⟩ := ps
  · simp only [shelfSize, List.map_nil, List.sum_nil] at le
    omega
  · have := bound p (by simp)
    simp only [shelfSize, List.map_cons, List.map_nil, List.sum_cons, List.sum_nil] at le
    omega
  · have := bound p (by simp)
    have := bound m (by simp)
    simp only [shelfSize, List.map_cons, List.map_nil, List.sum_cons, List.sum_nil] at le
    omega
  · exact ⟨p, m, n, after, rfl⟩

/-- The oldest partition but the reader's is not the writer's. -/
theorem culled (C : Counts sp ps) {p m n : SpoolPos × Nat} {after : List (SpoolPos × Nat)}
    (hps : ps = p :: m :: n :: after) {name : Option UStr} (h : cull lo sp = some (sq, name)) :
    Counts sq (p :: n :: after) ∧ sq.bytes + (sp.disk.files m.2).length = sp.bytes := by
  subst hps
  obtain ⟨f, hf, past, first⟩ := C.reader
  obtain rfl : p = (sp.readPos, f.file) := by simpa using first
  have S := C.shelf
  have order := (List.pairwise_cons.mp (List.pairwise_cons.mp S.order).2).1
  have bound := lt_last (order n List.mem_cons_self) (S.fits n (by simp)).1
  have sub : List.Sublist ((sp.readPos, f.file) :: n :: after)
      ((sp.readPos, f.file) :: m :: n :: after) := .cons_cons _ (List.sublist_cons_self _ _)
  rw [S.cull_eq rfl bound, Option.some_inj, Prod.mk.injEq] at h
  obtain ⟨rfl, -⟩ := h
  refine ⟨⟨S.sublist sub, ⟨f, hf, past, rfl⟩, C.readFileName, ?_, C.writeFileName, ?_, ?_⟩, ?_⟩
  · obtain ⟨w, hw, off, last⟩ := C.writer
    exact ⟨w, hw, off, by simpa using last⟩
  · exact fun size q hq => C.sizes size q (sub.subset hq)
  · have counted := C.counted
    rw [shelfSize_cons, shelfSize_cons] at counted
    show (sp.stats.currentSize - _).toNat = shelfSize sp.disk ((sp.readPos, f.file) :: n :: after)
    rw [toNat_sub_ofNat (by omega), shelfSize_cons]
    omega
  · have before := S.bytes
    have left := (S.sublist sub).bytes
    rw [shelfSize_cons, shelfSize_cons] at before
    rw [shelfSize_cons] at left
    have same : shelfSize { sp.disk with dir := ((sp.readPos, f.file) :: n :: after).map entryOf }
        (n :: after) = shelfSize sp.disk (n :: after) := rfl
    rw [same] at left
    simp only [Spool.bytes] at before left ⊢
    omega

/-- What a push has done when it looks at the size. -/
theorem stored (C : Counts sp ps) {f : Stream} (hf : sp.writef = some f) {msgs : List Bytes}
    {allow : Allowance} (sized : SizedCall sp (.push msgs allow))
    (fits : CountFits sp (.push msgs allow)) : ∃ sq,
      (if rollDue sp f then incrementWriteSpoolPartition sp allow else some (sp, allow, true)) =
        some (sq, .full, true) ∧
      ∀ sr written, writeEvent sq .full msgs = some (sr, written) →
        written = true ∧ ∃ qs, Counts sr qs ∧ sr.settings = sp.settings ∧
          Grown sp sr ps qs (sp.pushBytes msgs) ∧
          (cullDue sr = true → ∃ p m n after, qs = p :: m :: n :: after) := by
  obtain ⟨sq, qs, g, ready, D, same, rolled, hg, small, total⟩ := C.ready hf sized fits
  refine ⟨sq, ready, fun sr written write => ?_⟩
  have before : sq.stats.maxPartitionSize = sp.stats.maxPartitionSize :=
    (SpoolSettings.mk.inj same).1
  obtain ⟨rfl, E, same', added⟩ := D.write hg (before ▸ small) total write
  obtain ⟨size, parts⟩ := SpoolSettings.mk.inj (same'.trans same)
  refine ⟨rfl, qs, E, same'.trans same, rolled.trans added, E.three ?_ ?_⟩
  · have large : 64 ≤ sp.stats.maxPartitionSize.toNat := UInt64.le_iff_toNat_le.mp sized.1
    exact size ▸ Nat.lt_of_lt_of_le (by decide) large
  · rw [size, parts]
    exact fits.1

theorem push (C : Counts sp ps) {msgs : List Bytes} {allow : Allowance}
    (sized : SizedCall sp (.push msgs allow)) (fits : CountFits sp (.push msgs allow)) {rc : Rc}
    {name : Option UStr} (h : spoolPush lo sp allow msgs = some (sq, rc, name)) :
    ∃ qs, Counts sq qs := by
  obtain ⟨f, hf, -, -⟩ := C.writer
  obtain ⟨sr, ready, stored⟩ := C.stored hf sized fits
  rw [spoolPush_eq hf, ready, Option.bind_some] at h
  obtain ⟨⟨st, written⟩, write, h⟩ := Option.bind_eq_some_iff.mp h
  obtain ⟨rfl, qs, D, -, -, three⟩ := stored st written write
  simp only [Bool.not_true, Bool.false_eq_true, ↓reduceIte] at h
  split at h
  · rename_i due
    obtain ⟨p, m, n, after, hqs⟩ := three due
    obtain ⟨⟨su, culled⟩, cull, h⟩ := Option.bind_eq_some_iff.mp h
    cases h
    exact ⟨_, (D.culled hqs cull).1⟩
  · cases h
    exact ⟨qs, D⟩

/-- The partition that is culled is one of those that are counted. -/
theorem subtractsCulled (C : Counts sp ps) {msgs : List Bytes} {allow : Allowance}
    (sized : SizedCall sp (.push msgs allow)) (fits : CountFits sp (.push msgs allow)) :
    SubtractsWithin lo sp (.push msgs allow) := by
  intro sq due name hname
  obtain ⟨f, hf, -, -⟩ := C.writer
  obtain ⟨sr, ready, stored⟩ := C.stored hf sized fits
  rw [beforeCull, hf, Option.bind_some, ready, Option.bind_some] at due
  obtain ⟨⟨st, written⟩, write, due⟩ := Option.bind_eq_some_iff.mp due
  obtain ⟨rfl, qs, D, -, -, three⟩ := stored st written write
  simp only [Bool.true_and, Option.ite_none_right_eq_some, Option.some_inj] at due
  obtain ⟨cull, rfl⟩ := due
  obtain ⟨p, m, n, after, rfl⟩ := three cull
  have S := D.shelf
  have mem : m ∈ p :: m :: n :: after := by simp
  obtain ⟨g, -, -, first⟩ := D.reader
  have pos : st.readPos = p.1 := by simpa using (congrArg (Option.map Prod.fst) first).symm
  have order := (List.pairwise_cons.mp (List.pairwise_cons.mp S.order).2).1
  have bound := lt_last (order n List.mem_cons_self) (S.fits n (by simp)).1
  have found := @Shelf.findOldest_some lo st [p] (n :: after) m S
    (by simp [pos, SpoolPos.lt_irrefl]) (pos ▸ (List.pairwise_cons.mp S.order).1 m (by simp)) bound
  simp only [found, Option.mem_some_iff] at hname
  rw [← hname, S.size mem, D.counted]
  exact length_le_shelfSize mem

theorem step (C : Counts sp ps) {op : SpoolOp} {out : SpoolOutcome} (sized : SizedCall sp op)
    (fits : CountFits sp op) (h : SpoolStep lo sp op out sq) : ∃ qs, Counts sq qs := by
  cases h with
  | push h => exact C.push sized fits h
  | pop h => exact C.pop h
  | restart closed opened =>
    obtain rfl := sized.2.2.1
    exact C.restart sized fits closed opened

theorem subtractsWithin (C : Counts sp ps) {op : SpoolOp} (sized : SizedCall sp op)
    (fits : CountFits sp op) : SubtractsWithin lo sp op := by
  cases op with
  | push msgs allow => exact C.subtractsCulled sized fits
  | pop signaled =>
    intro sq passes
    obtain ⟨qs, D⟩ := C.passes passes
    exact D.subtracts
  | restart settings => trivial

end Counts

/-! ## Runs -/

section
variable {lo : ListingOrder} {trace : SpoolTrace} {sp : Spool}

/-- A directory without partitions. -/
theorem counts_create {settings : SpoolSettings} {disk : Disk} {listings : Nat}
    (empty : disk.dir = []) (opened : createSpool lo settings disk listings = some (some sp)) :
    ∃ ps, Counts sp ps := by
  have S : Shelf disk [] := ⟨empty, by simp, by simp, .nil, .nil, by simp⟩
  have first : (newPos []).majorSeq < 0x100000000 := by decide
  have small : 0 + headerSize < 0x10000000000000000 := by decide
  obtain ⟨sq, create, N⟩ := @Shelf.createSpool_eq lo disk [] S first settings listings
  rw [opened, Option.some_inj, Option.some_inj] at create
  subst create
  exact ⟨_, Counts.opened N (by simp [filled]) small⟩

theorem counts_run (run : SpoolRun lo (fun sp op => SizedCall sp op ∧ CountFits sp op) trace sp) :
    ∃ ps, Counts sp ps := by
  induction run with
  | create empty opened => exact counts_create empty opened
  | next _ allowed step ih =>
    obtain ⟨ps, C⟩ := ih
    exact C.step allowed.1 allowed.2 step

/-- The size is that of the files in the directory, and nothing is subtracted that is larger. -/
theorem size_exact (run : SpoolRun lo (fun sp op => SizedCall sp op ∧ CountFits sp op) trace sp) :
    sp.stats.currentSize.toNat = sp.bytes ∧
      ∀ op, SizedCall sp op → CountFits sp op → SubtractsWithin lo sp op := by
  obtain ⟨ps, C⟩ := counts_run run
  exact ⟨C.bytes, fun op sized fits => C.subtractsWithin sized fits⟩

end

instance (sp : Spool) (op : SpoolOp) : Decidable (SizedCall sp op) :=
  match op with
  | .push msgs allow => inferInstanceAs (Decidable (_ ∧ _ ∧ allow = .full ∧
      eventSize msgs ≤ sp.stats.maxPartitionSize.toNat ∧
        (sp.rolls = true → sp.nextPos.minorSeq < 0x100000000)))
  | .pop _ => inferInstanceAs (Decidable (_ ∧ _ ∧ True))
  | .restart settings => inferInstanceAs (Decidable (_ ∧ _ ∧ settings = sp.settings ∧
      sp.RestartFits))

instance (sp : Spool) (op : SpoolOp) : Decidable (CountFits sp op) :=
  match op with
  | .push _ _ => inferInstanceAs (Decidable (_ ∧ _))
  | .pop _ => inferInstanceAs (Decidable True)
  | .restart _ => inferInstanceAs (Decidable (_ < _))

/-- Three partitions and a cull, a restart and a pop. -/
theorem size_exact_cull : ∃ trace sp,
    SpoolRun inCreationOrder (fun sp op => SizedCall sp op ∧ CountFits sp op) trace sp ∧
      (culledFiles trace).length = 1 ∧ (poppedEvents trace).length = 1 ∧
      sp.stats.currentSize.toNat = sp.bytes := by
  let part (n : Nat) : List Bytes := [List.replicate n 0]
  obtain ⟨trace, sp, run, h⟩ := @exists_run inCreationOrder 9
    (fun sp op => SizedCall sp op ∧ CountFits sp op) _ ⟨64, 4⟩
    [.push (part 58) .full, .push (part 58) .full, .restart ⟨64, 4⟩, .push (part 58) .full,
      .push (part 58) .full, .pop false]
    (fun _ trace => (culledFiles trace).length = 1 ∧ (poppedEvents trace).length = 1)
    (by decide +kernel)
  obtain ⟨culled, popped⟩ := of_decide_eq_true h
  exact ⟨trace, sp, run, culled, popped, (size_exact run).1⟩

/-- The product of the settings overflows to 128, so the cull comes with two partitions, and
removes the writer's. -/
theorem size_after_overflow : ∃ trace sp, SpoolRun inCreationOrder SizedCall trace sp ∧
    sp.stats.currentSize.toNat ≠ sp.bytes := by
  let part (n : Nat) : List Bytes := [List.replicate n 0]
  obtain ⟨trace, sp, run, h⟩ := @exists_run inCreationOrder 9 SizedCall _
    ⟨64, 288230376151711746⟩
    [.push (part 56) .full, .push (part 46) .full, .push (part 4) .full]
    (fun sp _ => sp.stats.currentSize.toNat ≠ sp.bytes) (by decide +kernel)
  exact ⟨trace, sp, run, of_decide_eq_true h⟩

end Yella
