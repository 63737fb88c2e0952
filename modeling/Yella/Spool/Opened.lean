import Yella.Spool.Run
import Yella.Spool.Shelf

/-!
# Opening any directory of partitions

The partitions may have any positions and hold anything after the id. Where the newest one has
the last major sequence number, the writer comes round to (0, 1), where there may be a partition
already.
-/

namespace Yella

/-- Partitions with files of their own. -/
structure Partitions (disk : Disk) (ps : List (SpoolPos × Nat)) : Prop extends Listed disk ps where
  apart : ∀ p ∈ ps, ∀ q ∈ ps, p.2 = q.2 → p = q
  fresh : ∀ p ∈ ps, p.2 < disk.next

/-- What tells the elements of a list apart does so with one more that it tells from them. -/
theorem eq_of_eq_snoc {α β : Type} {g : α → β} {xs : List α} {x : α}
    (told : ∀ p ∈ xs, ∀ q ∈ xs, g p = g q → p = q) (new : ∀ p ∈ xs, g p ≠ g x) :
    ∀ p ∈ xs ++ [x], ∀ q ∈ xs ++ [x], g p = g q → p = q := by
  intro p hp q hq h
  obtain hp | hp := List.mem_append.mp hp <;> obtain hq | hq := List.mem_append.mp hq
  · exact told p hp q hq h
  · rw [List.mem_singleton.mp hq] at h
    exact absurd h (new p hp)
  · rw [List.mem_singleton.mp hp] at h
    exact absurd h.symm (new q hq)
  · rw [List.mem_singleton.mp hp, List.mem_singleton.mp hq]

/-- The last position, which no scan finds. -/
def lastPos : SpoolPos := ⟨0xffffffff, 0xffffffff⟩

section
variable {lo : ListingOrder} {disk : Disk} {sp sq : Spool} {ps qs : List (SpoolPos × Nat)}
  {p m : SpoolPos × Nat}

namespace Partitions

theorem subset (P : Partitions disk ps) (sub : qs ⊆ ps) :
    Partitions { disk with dir := qs.map entryOf } qs where
  dir := rfl
  fits p hp := P.fits p (sub hp)
  spoolFile p hp := P.spoolFile p (sub hp)
  distinct p hp q hq := P.distinct p (sub hp) q (sub hq)
  apart p hp q hq := P.apart p (sub hp) q (sub hq)
  fresh p hp := P.fresh p (sub hp)

theorem withFiles (P : Partitions disk ps) {files : Nat → Bytes}
    (spoolFile : ∀ p ∈ ps, isSpoolFile (files p.2) = true) :
    Partitions { disk with files } ps := { P with spoolFile }

/-- The file of one partition gets another content that starts with the id. -/
theorem update (P : Partitions disk ps) {content : Bytes} (id : isSpoolFile content = true)
    (i : Nat) : Partitions { disk with files := Function.update disk.files i content } ps := by
  apply P.withFiles
  intro p hp
  by_cases h : p.2 = i
  · rw [h, Function.update_self]
    exact id
  · rw [Function.update_of_ne h]
    exact P.spoolFile p hp

/-- A new file with the id is there. -/
theorem create (P : Partitions disk ps) {pos : SpoolPos} (fits : pos.Fits)
    (absent : ∀ p ∈ ps, p.1 ≠ pos) :
    Partitions {
      dir := disk.dir ++ [(spoolFileName pos, disk.next)]
      files := Function.update disk.files disk.next header
      next := disk.next + 1 } (ps ++ [(pos, disk.next)]) where
  dir := by simp [P.dir, entryOf]
  fits p hp := by
    obtain hp | hp := List.mem_append.mp hp
    · exact P.fits p hp
    · rw [List.mem_singleton.mp hp]
      exact fits
  spoolFile p hp := by
    obtain hp | hp := List.mem_append.mp hp
    · simp only [Function.update_of_ne (Nat.ne_of_lt (P.fresh p hp))]
      exact P.spoolFile p hp
    · rw [List.mem_singleton.mp hp]
      simp only [Function.update_self]
      decide
  distinct := eq_of_eq_snoc P.distinct absent
  apart := eq_of_eq_snoc P.apart fun p hp => Nat.ne_of_lt (P.fresh p hp)
  fresh p hp := by
    obtain hp | hp := List.mem_append.mp hp
    · exact Nat.lt_succ_of_lt (P.fresh p hp)
    · rw [List.mem_singleton.mp hp]
      exact Nat.lt_succ_self _

end Partitions

/-! ## The writer -/

/-- The writer is at the start of a partition of its own, which is after the reader's position.
What lies between has a smaller major sequence number. -/
structure WriterOpened (sp : Spool) (ps : List (SpoolPos × Nat)) : Prop where
  partitions : Partitions sp.disk ps
  writer : ∃ w, sp.writef = some w ∧ w.off = headerSize ∧ sp.disk.files w.file = header ∧
    (sp.writePos, w.file) ∈ ps
  later : sp.readPos < sp.writePos
  bound : sp.writePos < lastPos
  before : ∀ p ∈ ps, sp.readPos < p.1 → p.1 < sp.writePos →
    p.1.majorSeq < sp.writePos.majorSeq

/-- A partition at the next position is created, or one that is there is emptied. -/
theorem Partitions.incrementWrite (P : Partitions sp.disk ps) {pos : SpoolPos}
    (hpos : pos = { sp.writePos with minorSeq := (sp.writePos.minorSeq + 1) % 0x100000000 })
    (fits : pos.Fits) : ∃ allow sq qs i,
      incrementWriteSpoolPartition sp .full = some (sq, allow, true) ∧ Partitions sq.disk qs ∧
        (∀ p, p ∈ qs ↔ p ∈ ps ∨ p = (pos, i)) ∧ sq.readPos = sp.readPos ∧ sq.writePos = pos ∧
        sq.writef = some { file := i, off := headerSize, eof := false } ∧
        sq.disk.files i = header := by
  have written : Disk.overwrite [] 0 (header.take headerSize) = header := by decide
  have opens : Allowance.full.opens = true := rfl
  have granted : Allowance.full.grant headerSize = headerSize := rfl
  have id : isSpoolFile header = true := by decide
  by_cases there : ∃ m ∈ ps, m.1 = pos
  · obtain ⟨m, hm, rfl⟩ := there
    simp only [incrementWriteSpoolPartition, ← hpos, opens, ↓reduceIte, Disk.openWrite,
      P.lookup hm, writeOut, Option.bind_eq_bind, Option.bind_some, header_length, granted,
      Disk.fwrite, Function.update_self, written, Function.update_idem, ne_eq, not_true_eq_false]
    refine ⟨_, _, ps, m.2, rfl, P.update id m.2, fun p => ?_, rfl, rfl, rfl, ?_⟩
    · constructor
      · exact .inl
      · rintro (hp | rfl)
        · exact hp
        · exact hm
    · simp
  · have absent : ∀ p ∈ ps, p.1 ≠ pos := fun p hp heq => there ⟨p, hp, heq⟩
    simp only [incrementWriteSpoolPartition, ← hpos, opens, ↓reduceIte, Disk.openWrite,
      P.lookup_none fits absent, writeOut, Option.bind_eq_bind, Option.bind_some, header_length,
      granted, Disk.fwrite, Function.update_self, written, Function.update_idem, ne_eq,
      not_true_eq_false]
    refine ⟨_, _, ps ++ [(pos, sp.disk.next)], sp.disk.next, rfl, P.create fits absent, fun p => ?_,
      rfl, rfl, rfl, ?_⟩
    · rw [List.mem_append, List.mem_singleton]
    · simp

theorem Partitions.openWriter (P : Partitions sp.disk ps) {majorSeq : Nat}
    (reader : sp.readPos = ⟨0, 0⟩) (start : sp.writePos = ⟨majorSeq, 0⟩)
    (fits : majorSeq < 0x100000000)
    (before : ∀ p ∈ ps, ⟨0, 0⟩ < p.1 → p.1 < ⟨majorSeq, 1⟩ → p.1.majorSeq < majorSeq) :
    ∃ allow sq qs, incrementWriteSpoolPartition sp .full = some (sq, allow, true) ∧
      WriterOpened sq qs ∧ sq.readPos = ⟨0, 0⟩ := by
  obtain ⟨allow, sq, qs, i, written, Q, mem, readPos, pos, writef, content⟩ :=
    @Partitions.incrementWrite sp ps P ⟨majorSeq, 1⟩ (by simp [start]) ⟨fits, by simp⟩
  rw [reader] at readPos
  refine ⟨allow, sq, qs, written, ⟨Q, ⟨_, writef, rfl, content, ?_⟩, ?_, ?_, ?_⟩, readPos⟩
  · rw [mem, pos]
    exact .inr rfl
  · rw [readPos, pos, SpoolPos.lt_def]
    simp only
    omega
  · rw [pos, lastPos, SpoolPos.lt_def]
    simp only
    omega
  · intro p hp first lt
    rw [readPos] at first
    rw [pos] at lt ⊢
    obtain hp | rfl := (mem p).mp hp
    · exact before p hp first lt
    · exact absurd lt (SpoolPos.lt_irrefl _)

theorem Partitions.initWriter (P : Partitions sp.disk ps) (reader : sp.readPos = ⟨0, 0⟩) :
    ∃ sq qs, initWriter lo sp = some (sq, true) ∧ WriterOpened sq qs ∧ sq.readPos = ⟨0, 0⟩ := by
  obtain ⟨found, none⟩ | ⟨m, hm, found, newest⟩ := @Listed.findNewest_cases lo sp ps P.toListed
  · let sr : Spool := { sp with
      listings := sp.listings + 1, writef := Option.none, writePos := ⟨1, 0⟩
      writeFileName := Option.none }
    have Q : Partitions sr.disk ps := P
    obtain ⟨allow, sq, qs, written, opened⟩ := Q.openWriter reader rfl (by decide)
      fun p hp first _ => absurd first (none p hp)
    exact ⟨sq, qs, by simp only [Yella.initWriter, found]; rw [written]; rfl, opened⟩
  · have before : ∀ p ∈ ps, (⟨0, 0⟩ : SpoolPos) < p.1 →
        p.1 < ⟨(m.1.majorSeq + 1) % 0x100000000, 1⟩ →
        p.1.majorSeq < (m.1.majorSeq + 1) % 0x100000000 := by
      intro p hp first lt
      have le := newest p hp
      have fits := (P.fits m hm).1
      rw [SpoolPos.lt_def] at le first lt
      simp only at le first lt
      omega
    let sr : Spool := { sp with
      listings := sp.listings + 1, writef := Option.none
      writePos := ⟨(m.1.majorSeq + 1) % 0x100000000, 0⟩, writeFileName := Option.none }
    have Q : Partitions sr.disk ps := P
    obtain ⟨allow, sq, qs, written, opened⟩ :=
      Q.openWriter reader rfl (Nat.mod_lt _ (by decide)) before
    exact ⟨sq, qs, by simp only [Yella.initWriter, found]; rw [written]; rfl, opened⟩

/-! ## The reader -/

/-- The reader's partition is the writer's, which is empty, or one that was there before. What lies
between has a smaller major sequence number than the writer's. -/
structure Seated (sp : Spool) (ps : List (SpoolPos × Nat)) : Prop where
  partitions : Partitions sp.disk ps
  reader : ∃ f, sp.readf = some f ∧ headerSize ≤ f.off ∧ (sp.readPos, f.file) ∈ ps ∧
    (sp.readPos = sp.writePos → f.off = headerSize)
  readFileName : sp.readFileName = some (spoolFileName sp.readPos)
  notStale : sp.NotStale
  writer : ∃ w, sp.writef = some w ∧ w.off = headerSize ∧ sp.disk.files w.file = header ∧
    (sp.writePos, w.file) ∈ ps
  bound : sp.writePos < lastPos
  behind : sp.readPos = sp.writePos ∨ sp.readPos.majorSeq < sp.writePos.majorSeq
  before : ∀ p ∈ ps, sp.readPos < p.1 → p.1 < sp.writePos →
    p.1.majorSeq < sp.writePos.majorSeq

/-- The reader opens the oldest of the partitions after its position. -/
theorem WriterOpened.incrementRead (W : WriterOpened sp ps) : ∃ p ∈ ps, ∃ sq,
    sq = { sp with
      listings := sp.listings + 1
      readf := some { file := p.2, off := headerSize, eof := false }
      readFileName := some (spoolFileName p.1)
      readPos := p.1 } ∧
    incrementReadSpoolPartition lo sp = some (sq, true) ∧ Seated sq ps ∧
    sp.readPos < p.1 ∧ ∀ q ∈ ps, sp.readPos < q.1 → ¬ q.1 < p.1 := by
  obtain ⟨w, hw, woff, content, mem⟩ := W.writer
  let sq : Spool := { sp with readFileName := none, readf := none }
  have Q : Listed sq.disk ps := W.partitions.toListed
  obtain ⟨-, none⟩ | ⟨p, hp, found, ⟨-, ahead⟩, least⟩ := @Listed.findOldest_cases lo sq ps Q
  · exact absurd ⟨W.bound, W.later⟩ (none _ mem)
  · refine ⟨p, hp, _, rfl, ?_, ?_, ahead, least⟩
    · simp only [sq] at found
      simp only [incrementReadSpoolPartition, found, Option.bind_eq_bind, Option.bind_some,
        Disk.openRead, W.partitions.lookup hp, Option.map_some, Stream.seek]
    · refine ⟨W.partitions, ⟨_, rfl, Nat.le_refl _, hp, fun _ => rfl⟩, rfl,
        by simp [Spool.NotStale], ⟨w, hw, woff, content, mem⟩, W.bound, ?_, ?_⟩
      · by_cases same : p.1 = sp.writePos
        · exact .inl same
        · exact .inr (W.before p hp ahead (SpoolPos.lt_of_ne same (least _ mem W.later)))
      · exact fun q hq lt => W.before q hq (SpoolPos.lt_trans ahead lt)

/-! ## Opening -/

theorem Partitions.createSpool (P : Partitions disk ps) (settings : SpoolSettings)
    (listings : Nat) : ∃ sp qs, createSpool lo settings disk listings = some (some sp) ∧
      Seated sp qs := by
  have opens : ∀ sr : Spool, Partitions sr.disk (filled disk ps) → sr.readPos = ⟨0, 0⟩ →
      ∃ st sv qs, Yella.initWriter lo sr = some (st, true) ∧
        initReader lo st = some (sv, true) ∧ Seated sv qs := by
    intro sr Q start
    obtain ⟨st, qs, written, W, pos⟩ := @Partitions.initWriter lo sr _ Q start
    let su : Spool := { st with readf := none, readPos := ⟨0, 0⟩, readFileName := none }
    have later := W.later
    have before := W.before
    rw [pos] at later before
    have V : WriterOpened su qs := ⟨W.partitions, W.writer, later, W.bound, before⟩
    obtain ⟨p, -, sv, -, opened, seated, -⟩ := @WriterOpened.incrementRead lo su qs V
    exact ⟨st, sv, qs, written, opened, seated⟩
  have Q := P.subset (List.filter_subset_self _ : filled disk ps ⊆ ps)
  simp only [Yella.createSpool, currentSpoolSize, P.removeEmpty]
  generalize hsr : ({ .. } : Spool) = sr
  obtain ⟨st, sv, qs, written, opened, seated⟩ := opens sr (hsr ▸ Q) (hsr ▸ rfl)
  refine ⟨sv, qs, ?_, seated⟩
  simp only [written, opened, Option.bind_eq_bind, Option.bind_some, Bool.not_true,
    Bool.false_eq_true, ↓reduceIte]

end

end Yella
