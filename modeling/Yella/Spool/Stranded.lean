import Yella.Spool.Bytes
import Yella.Spool.Opened

/-!
# Whether the reader comes to an end

The reader goes through partitions that may hold anything, over visited events and from one
partition to the next. It comes to an end unless it meets a last byte that stands on its own:
half a count, which it reads again and again.
-/

namespace Yella

open LittleEndian (encode decode)

/-! ## What the reader passes over -/

/-- What is left after so many parts. The length of a part may point past the end. -/
def skipParts : Nat → Bytes → Option Bytes
  | 0, rest => some rest
  | n + 1, rest =>
    if rest.length < 4 then none
    else skipParts n ((rest.drop 4).drop (decode (rest.take 4)))

/-- Visited events at the front, and what is left after them. -/
inductive Passed : Bytes → Bytes → Prop where
  | here (rest : Bytes) : Passed rest rest
  | event {rest after left : Bytes} (long : 2 ≤ rest.length)
      (visited : eventIsVisited (decode (rest.take 2)) = true)
      (parts : skipParts (eventMsgCount (decode (rest.take 2))) (rest.drop 2) = some after)
      (more : Passed after left) : Passed rest left

namespace Spool

/-- What is to be read of the partition at this position. -/
def ahead (sp : Spool) (pos : SpoolPos) (content : Bytes) : Bytes :=
  content.drop (if pos = sp.readPos then sp.readf.elim headerSize Stream.off else headerSize)

/-- A position from the reader's on to the writer's, which is not included. -/
def Between (sp : Spool) (pos : SpoolPos) : Prop := ¬ pos < sp.readPos ∧ pos < sp.writePos

def ToRead (sp : Spool) (e : UStr × Nat) (pos : SpoolPos) : Prop :=
  e ∈ sp.disk.dir ∧ scanName e.1 = some pos ∧ sp.Between pos

/-- A partition ends with a single byte after visited events, and those before it, from the reader's
on, hold visited events to their end. -/
def Stranded (sp : Spool) : Prop :=
  ∃ e pos, sp.ToRead e pos ∧ (∃ b, Passed (sp.ahead pos (sp.disk.files e.2)) [b]) ∧
    ∀ d q, sp.ToRead d q → q < pos → Passed (sp.ahead q (sp.disk.files d.2)) []

/-- The entries after the reader's. -/
def laterEntries (sp : Spool) : Nat :=
  (sp.disk.dir.filter fun e => (scanName e.1).any fun pos => sp.readPos < pos).length

/-- The entries to come, and the bytes that are left in the reader's file. -/
def toCome (sp : Spool) : Nat × Nat :=
  (sp.laterEntries, sp.readf.elim 0 fun f => ((sp.disk.files f.file).drop f.off).length)

end Spool

/-- The first spool has less to come. -/
def Closer (t s : Spool) : Prop := Prod.Lex (· < ·) (· < ·) t.toCome s.toCome

theorem closer_wf : WellFounded Closer :=
  InvImage.wf Spool.toCome (Prod.lex Nat.lt_wfRel Nat.lt_wfRel).wf

/-- How the loop of a pop ends: a message count is in the reader's file, which is not the
writer's. -/
def Landed (last : Nat × Spool) : Prop :=
  (∃ ps, Seated last.2 ps) ∧ (0 < last.1 → last.2.readPos ≠ last.2.writePos ∧
    ∃ f, last.2.readf = some f ∧ headerSize + 2 ≤ f.off ∧
      f.off ≤ (last.2.disk.files f.file).length ∧ f.eof = false)

section
variable {rest after left : Bytes}

theorem passed_short (short : rest.length < 2) : Passed rest left ↔ left = rest := by
  constructor
  · intro h
    cases h with
    | here => rfl
    | event long => omega
  · rintro rfl
    exact .here _

/-- An event that is not visited, or whose parts are cut off. -/
theorem passed_stop (long : 2 ≤ rest.length)
    (stop : eventIsVisited (decode (rest.take 2)) = true →
      skipParts (eventMsgCount (decode (rest.take 2))) (rest.drop 2) = none)
    (h : Passed rest left) : 2 ≤ left.length := by
  cases h with
  | here => exact long
  | event _ visited parts =>
    rw [stop visited] at parts
    cases parts

theorem passed_event (long : 2 ≤ rest.length)
    (visited : eventIsVisited (decode (rest.take 2)) = true)
    (parts : skipParts (eventMsgCount (decode (rest.take 2))) (rest.drop 2) = some after)
    (short : left.length < 2) : Passed rest left ↔ Passed after left := by
  constructor
  · intro h
    cases h with
    | here => omega
    | event _ _ parts' more =>
      rw [parts, Option.some_inj] at parts'
      exact parts' ▸ more
  · exact .event long visited parts

theorem skipParts_length {n : Nat} (h : skipParts n rest = some after) :
    after.length ≤ rest.length := by
  induction n generalizing rest with
  | zero =>
    cases h
    exact Nat.le_refl _
  | succ n ih =>
    simp only [skipParts] at h
    split at h
    · cases h
    · have := ih h
      simp only [List.length_drop] at this
      omega

end

/-! ## Reading -/

section
variable {disk : Disk} {f : Stream} {n : Nat} {after : Bytes}

/-- The indicator is set at the end only. -/
def AtEndIfEof (disk : Disk) (f : Stream) : Prop :=
  f.eof = true → (disk.files f.file).length ≤ f.off

theorem fread_atEnd (h : AtEndIfEof disk f) (n : Nat) : AtEndIfEof disk (disk.fread f n).2 := by
  unfold Disk.fread
  split
  · exact h
  · intro short
    have short := of_decide_eq_true short
    simp only [List.length_take, List.length_drop] at short ⊢
    omega

theorem fastForward_atEnd (h : AtEndIfEof disk f) (n : Nat) :
    AtEndIfEof disk (fastForward disk n f).1 := by
  induction n generalizing f with
  | zero => exact h
  | succ n ih =>
    simp only [fastForward]
    split
    · exact fread_atEnd h 4
    · apply ih
      simp [AtEndIfEof, Stream.seek]

theorem readParts_atEnd (h : AtEndIfEof disk f) (n : Nat) :
    AtEndIfEof disk (readParts disk n f).1 := by
  induction n generalizing f with
  | zero => exact h
  | succ n ih =>
    simp only [readParts]
    split
    · exact fread_atEnd h 4
    · split
      · exact fread_atEnd (fread_atEnd h 4) _
      · exact ih (fread_atEnd (fread_atEnd h 4) _)

theorem fread_fresh (fresh : f.eof = false) (n : Nat) : disk.fread f n =
    (((disk.files f.file).drop f.off).take n,
      { f with
        off := f.off + (((disk.files f.file).drop f.off).take n).length
        eof := decide ((((disk.files f.file).drop f.off).take n).length < n) }) := by
  simp [Disk.fread, fresh]

theorem fread_done (done : (disk.files f.file).drop f.off = []) (n : Nat) :
    disk.fread f (n + 1) = ([], { f with eof := true }) := by
  cases eof : f.eof with
  | true =>
    rw [fread_eof eof, ← eof]
  | false => simp [fread_fresh eof, done]

/-- The loop over the parts goes on while their lengths are there. -/
theorem fastForward_skips (fresh : f.eof = false) :
    (skipParts n ((disk.files f.file).drop f.off) = none → (fastForward disk n f).2 = false) ∧
      ∀ after, skipParts n ((disk.files f.file).drop f.off) = some after →
        (fastForward disk n f).2 = true ∧ (fastForward disk n f).1.eof = false ∧
          (disk.files f.file).drop (fastForward disk n f).1.off = after := by
  induction n generalizing f with
  | zero =>
    constructor
    · intro h
      cases h
    · exact fun after h => ⟨rfl, fresh, Option.some_inj.mp h⟩
  | succ n ih =>
    simp only [skipParts, fastForward, fread_fresh fresh]
    generalize hrest : (disk.files f.file).drop f.off = rest
    by_cases short : rest.length < 4
    · simp [short]
    · have whole : (rest.take 4).length = 4 := by
        rw [List.length_take]
        omega
      rw [if_neg short, whole, if_neg (by omega)]
      have next := @ih (Stream.seek { f with off := f.off + 4, eof := decide (4 < 4) }
        (f.off + 4 + decode (rest.take 4))) rfl
      have skipped : (disk.files f.file).drop (f.off + 4 + decode (rest.take 4)) =
          (rest.drop 4).drop (decode (rest.take 4)) := by
        rw [← hrest, List.drop_drop, List.drop_drop, Nat.add_assoc]
      simp only [Stream.seek, skipped] at next
      exact next

end

/-! ## The reader's place -/

section
variable {lo : ListingOrder} {sp sq st : Spool} {ps qs : List (SpoolPos × Nat)} {f g : Stream}
  {content after : Bytes} {pos : SpoolPos}

theorem ahead_reader (hf : sp.readf = some f) :
    sp.ahead sp.readPos content = content.drop f.off := by
  rw [Spool.ahead, if_pos rfl, hf]
  rfl

theorem ahead_other (ne : pos ≠ sp.readPos) : sp.ahead pos content = content.drop headerSize := by
  rw [Spool.ahead, if_neg ne]

theorem compare_behind (behind : sp.readPos.majorSeq < sp.writePos.majorSeq) :
    compareWriteToRead sp = some 1 := by
  rw [compareWriteToRead, if_pos behind]

namespace Seated

theorem toRead_iff (S : Seated sp ps) {e : UStr × Nat} :
    sp.ToRead e pos ↔ ∃ p ∈ ps, entryOf p = e ∧ p.1 = pos ∧ sp.Between pos := by
  rw [Spool.ToRead, S.partitions.dir, List.mem_map]
  constructor
  · rintro ⟨⟨p, hp, rfl⟩, scanned, between⟩
    rw [S.partitions.scan hp, Option.some_inj] at scanned
    exact ⟨p, hp, rfl, scanned, between⟩
  · rintro ⟨p, hp, rfl, rfl, between⟩
    exact ⟨⟨p, hp, rfl⟩, S.partitions.scan hp, between⟩

theorem stranded_iff (S : Seated sp ps) : sp.Stranded ↔
    ∃ p ∈ ps, sp.Between p.1 ∧ (∃ b, Passed (sp.ahead p.1 (sp.disk.files p.2)) [b]) ∧
      ∀ q ∈ ps, sp.Between q.1 → q.1 < p.1 →
        Passed (sp.ahead q.1 (sp.disk.files q.2)) [] := by
  constructor
  · rintro ⟨e, pos, toRead, stray, through⟩
    obtain ⟨p, hp, rfl, rfl, between⟩ := S.toRead_iff.mp toRead
    refine ⟨p, hp, between, stray, fun q hq between lt => ?_⟩
    exact through (entryOf q) q.1 (S.toRead_iff.mpr ⟨q, hq, rfl, rfl, between⟩) lt
  · rintro ⟨p, hp, between, stray, through⟩
    refine ⟨entryOf p, p.1, S.toRead_iff.mpr ⟨p, hp, rfl, rfl, between⟩, stray, ?_⟩
    intro d q toRead lt
    obtain ⟨r, hr, rfl, rfl, between⟩ := S.toRead_iff.mp toRead
    exact through r hr between lt

theorem not_stranded_at_writer (at_writer : sp.readPos = sp.writePos) : ¬ sp.Stranded := by
  rintro ⟨e, pos, ⟨-, -, from_reader, to_writer⟩, -⟩
  exact from_reader (at_writer ▸ to_writer)

theorem reader_between (behind : sp.readPos.majorSeq < sp.writePos.majorSeq) :
    sp.Between sp.readPos := ⟨SpoolPos.lt_irrefl _, .inl behind⟩

/-- Where the reader's file is. -/
theorem place (S : Seated sp ps) (hf : sp.readf = some f) : headerSize ≤ f.off ∧
    (sp.readPos, f.file) ∈ ps ∧ (sp.readPos = sp.writePos → f.off = headerSize) := by
  obtain ⟨f', hf', place⟩ := S.reader
  obtain rfl : f = f' := Option.some.inj (hf.symm.trans hf')
  exact place

theorem fresh (S : Seated sp ps) (hf : sp.readf = some f)
    (left : (sp.disk.files f.file).drop f.off ≠ []) : f.eof = false := by
  rw [Bool.eq_false_iff]
  intro eof
  exact left (List.drop_eq_nil_iff.mpr (S.notStale f hf eof))

/-- The reader's partition. -/
theorem eq_reader (S : Seated sp ps) (hf : sp.readf = some f) {p : SpoolPos × Nat} (hp : p ∈ ps)
    (at_reader : p.1 = sp.readPos) : p = (sp.readPos, f.file) := by
  obtain ⟨-, mem, -⟩ := S.place hf
  exact S.partitions.distinct p hp _ mem at_reader

/-- Where the reader stops short of a last byte, it is not stranded. -/
theorem not_stranded_of_stop (S : Seated sp ps) (hf : sp.readf = some f)
    (stop : ∀ left, Passed ((sp.disk.files f.file).drop f.off) left → 2 ≤ left.length) :
    ¬ sp.Stranded := by
  obtain ⟨-, mem, -⟩ := S.place hf
  rw [S.stranded_iff]
  rintro ⟨p, hp, between, ⟨b, stray⟩, through⟩
  by_cases at_reader : p.1 = sp.readPos
  · rw [S.eq_reader hf hp at_reader, ahead_reader hf] at stray
    exact absurd (stop _ stray) (by simp)
  · have lt := SpoolPos.lt_of_ne (Ne.symm at_reader) between.1
    have passed := through _ mem ⟨SpoolPos.lt_irrefl _, SpoolPos.lt_trans lt between.2⟩ lt
    rw [ahead_reader hf] at passed
    exact absurd (stop _ passed) (by simp)

theorem stranded_of_byte (S : Seated sp ps) (hf : sp.readf = some f)
    (behind : sp.readPos.majorSeq < sp.writePos.majorSeq) {b : UInt8}
    (byte : (sp.disk.files f.file).drop f.off = [b]) : sp.Stranded := by
  obtain ⟨-, mem, -⟩ := S.place hf
  rw [S.stranded_iff]
  refine ⟨_, mem, reader_between behind, ⟨b, ?_⟩, fun q _ between lt => absurd lt between.1⟩
  rw [ahead_reader hf, byte]
  exact .here _

/-- The reader goes on in its file. -/
theorem readOn (S : Seated sp ps) (hf : sp.readf = some f) (file : g.file = f.file)
    (past : f.off ≤ g.off) (stays : sp.readPos = sp.writePos → g.off = f.off)
    (atEnd : AtEndIfEof sp.disk g) : Seated { sp with readf := some g } ps :=
  { S with
    reader := by
      obtain ⟨off, mem, start⟩ := S.place hf
      exact ⟨g, rfl, Nat.le_trans off past, file ▸ mem, fun h => (stays h).trans (start h)⟩
    notStale := by
      intro g' hg'
      obtain rfl := Option.some.inj hg'
      exact atEnd }

/-- Passing over an event changes nothing about what lies ahead. -/
theorem stranded_readOn (S : Seated sp ps) (hf : sp.readf = some f) (file : g.file = f.file)
    (same : ∀ left : Bytes, left.length < 2 →
      (Passed ((sp.disk.files g.file).drop g.off) left ↔
        Passed ((sp.disk.files f.file).drop f.off) left)) :
    { sp with readf := some g }.Stranded ↔ sp.Stranded := by
  have ahead : ∀ e pos left, sp.ToRead e pos → left.length < 2 →
      (Passed ({ sp with readf := some g }.ahead pos (sp.disk.files e.2)) left ↔
        Passed (sp.ahead pos (sp.disk.files e.2)) left) := by
    intro e pos left toRead short
    obtain ⟨p, hp, rfl, rfl, -⟩ := S.toRead_iff.mp toRead
    by_cases at_reader : p.1 = sp.readPos
    · obtain rfl := S.eq_reader hf hp at_reader
      have := same left short
      rw [file] at this
      simpa [Spool.ahead, hf, entryOf] using this
    · simp [Spool.ahead, at_reader]
  unfold Spool.Stranded
  refine exists₂_congr fun e pos => and_congr_right fun toRead => ?_
  refine and_congr (exists_congr fun b => ahead e pos [b] toRead (by simp)) ?_
  exact forall₂_congr fun d q => forall_congr' fun toRead => imp_congr_right fun _ =>
    ahead d q [] toRead (by simp)

/-! ## The next partition -/

/-- A reader that opens the next partition after one without bytes has the same ahead of it. -/
theorem stranded_next (S : Seated sp ps) (hf : sp.readf = some f)
    (done : (sp.disk.files f.file).drop f.off = [])
    (T : Seated st (ps.filter (fun p => p.1 ≠ sp.readPos)))
    (files : st.disk.files = sp.disk.files) (writer : st.writePos = sp.writePos)
    (start : ∀ g ∈ st.readf, g.off = headerSize) (later : sp.readPos < st.readPos)
    (least : ∀ q ∈ ps, sp.readPos < q.1 → ¬ q.1 < st.readPos) :
    st.Stranded ↔ sp.Stranded := by
  have mem_rest : ∀ p, p ∈ ps.filter (fun p => p.1 ≠ sp.readPos) ↔
      p ∈ ps ∧ p.1 ≠ sp.readPos := by simp
  have between : ∀ q ∈ ps, q.1 ≠ sp.readPos → (st.Between q.1 ↔ sp.Between q.1) := by
    intro q hq other
    rw [Spool.Between, Spool.Between, writer]
    refine and_congr_left fun _ => not_congr ⟨fun lt => ?_, fun lt => SpoolPos.lt_trans lt later⟩
    by_contra not_before
    exact least q hq (SpoolPos.lt_of_ne (Ne.symm other) not_before) lt
  have same : ∀ q : SpoolPos × Nat, q.1 ≠ sp.readPos →
      st.ahead q.1 (st.disk.files q.2) = sp.ahead q.1 (sp.disk.files q.2) := by
    intro q other
    obtain ⟨g, hg, -⟩ := T.reader
    rw [ahead_other other, files, Spool.ahead, hg, Option.elim_some, start g hg, ite_self]
  have through : ∀ q ∈ ps, q.1 = sp.readPos → sp.ahead q.1 (sp.disk.files q.2) = [] := by
    intro q hq at_reader
    rw [S.eq_reader hf hq at_reader, ahead_reader hf, done]
  rw [T.stranded_iff, S.stranded_iff]
  constructor
  · rintro ⟨q, hq, in_range, stray, before⟩
    obtain ⟨hq, other⟩ := (mem_rest q).mp hq
    rw [same q other] at stray
    refine ⟨q, hq, (between q hq other).mp in_range, stray, fun r hr in_range lt => ?_⟩
    by_cases at_reader : r.1 = sp.readPos
    · rw [through r hr at_reader]
      exact .here _
    · rw [← same r at_reader]
      exact before r ((mem_rest r).mpr ⟨hr, at_reader⟩)
        ((between r hr at_reader).mpr in_range) lt
  · rintro ⟨q, hq, in_range, ⟨b, stray⟩, before⟩
    have other : q.1 ≠ sp.readPos := by
      intro at_reader
      rw [through q hq at_reader, passed_short (by simp)] at stray
      cases stray
    rw [← same q other] at stray
    refine ⟨q, (mem_rest q).mpr ⟨hq, other⟩, (between q hq other).mpr in_range, ⟨b, stray⟩, ?_⟩
    intro r hr in_range lt
    obtain ⟨hr, other⟩ := (mem_rest r).mp hr
    rw [same r other]
    exact before r hr ((between r hr other).mp in_range) lt

theorem laterEntries_eq (S : Seated sp ps) :
    sp.laterEntries = (ps.filter (fun p => sp.readPos < p.1)).length := by
  rw [Spool.laterEntries, S.partitions.dir, List.filter_map, List.length_map]
  refine congrArg List.length (List.filter_congr fun p hp => ?_)
  rw [Function.comp_apply, S.partitions.scan hp, Option.any_some]

/-- Fewer partitions are to come. -/
theorem laterEntries_lt (S : Seated sp ps) (T : Seated st qs) (sub : qs.Sublist ps)
    (later : sp.readPos < st.readPos) (there : ∃ p ∈ ps, p.1 = st.readPos) :
    st.laterEntries < sp.laterEntries := by
  obtain ⟨p, hp, pos⟩ := there
  rw [S.laterEntries_eq, T.laterEntries_eq]
  have both : ps.filter (fun q => st.readPos < q.1) =
      (ps.filter (fun q => sp.readPos < q.1)).filter (fun q => st.readPos < q.1) := by
    rw [List.filter_filter]
    apply List.filter_congr
    intro q _
    rw [Bool.eq_iff_iff, Bool.and_eq_true, decide_eq_true_eq, decide_eq_true_eq]
    exact ⟨fun lt => ⟨lt, SpoolPos.lt_trans later lt⟩, And.left⟩
  apply Nat.lt_of_le_of_lt (sub.filter _).length_le
  rw [both, List.length_filter_lt_length_iff_exists]
  refine ⟨p, List.mem_filter.mpr ⟨hp, decide_eq_true (pos ▸ later)⟩, ?_⟩
  rw [pos, decide_eq_true_eq]
  exact SpoolPos.lt_irrefl _

/-- The reader has read its partition through and opens the next one. -/
theorem leave (S : Seated sp ps) (hf : sp.readf = some f)
    (behind : sp.readPos.majorSeq < sp.writePos.majorSeq)
    (done : (sp.disk.files f.file).drop f.off = []) : ∃ sq st qs,
      removeReadPartition sp = some sq ∧ incrementReadSpoolPartition lo sq = some (st, true) ∧
        Seated st qs ∧ st.laterEntries < sp.laterEntries ∧ (st.Stranded ↔ sp.Stranded) := by
  have P := S.partitions
  obtain ⟨-, mem, -⟩ := S.place hf
  obtain ⟨w, hw, woff, wcontent, wmem⟩ := S.writer
  have lt : sp.readPos < sp.writePos := .inl behind
  let rest := ps.filter (fun p => p.1 ≠ sp.readPos)
  have mem_rest : ∀ p, p ∈ rest ↔ p ∈ ps ∧ p.1 ≠ sp.readPos := by simp [rest]
  have remove : ∃ sq, removeReadPartition sp = some sq ∧
      sq.disk = { sp.disk with dir := rest.map entryOf } ∧ sq.readPos = sp.readPos ∧
      sq.writePos = sp.writePos ∧ sq.writef = sp.writef := by
    simp only [removeReadPartition, S.readFileName, Option.bind_eq_bind, Option.bind_some,
      P.remove mem]
    exact ⟨_, rfl, rfl, rfl, rfl, rfl⟩
  obtain ⟨sq, removed, disk, readPos, writePos, writef⟩ := remove
  have W : WriterOpened sq rest := by
    refine ⟨?_, ⟨w, writef.trans hw, woff, ?_, ?_⟩, ?_, writePos ▸ S.bound, ?_⟩
    · rw [disk]
      exact P.subset (List.filter_subset_self _)
    · rw [disk]
      exact wcontent
    · rw [writePos, mem_rest]
      exact ⟨wmem, fun h => SpoolPos.lt_irrefl _ (h ▸ lt)⟩
    · rw [readPos, writePos]
      exact lt
    · rw [readPos, writePos]
      exact fun p hp => S.before p ((mem_rest p).mp hp).1
  obtain ⟨p, hp, st, hst, opened, T, later, least⟩ := @WriterOpened.incrementRead lo sq rest W
  rw [readPos] at later least
  have pos : st.readPos = p.1 := by rw [hst]
  have start : ∀ g ∈ st.readf, g.off = headerSize := by
    rw [hst]
    rintro g hg
    obtain rfl := Option.some.inj hg
    rfl
  rw [← pos] at later least
  refine ⟨sq, st, rest, removed, opened, T, ?_, ?_⟩
  · exact S.laterEntries_lt T List.filter_sublist later ⟨p, ((mem_rest p).mp hp).1, pos.symm⟩
  · refine S.stranded_next hf done T ?_ ?_ start later fun q hq lt => ?_
    · rw [hst]
      simp only [disk]
    · rw [hst]
      exact writePos
    · exact least q ((mem_rest q).mpr ⟨hq, fun h => SpoolPos.lt_irrefl _ (h ▸ lt)⟩) lt

/-! ## One round -/

/-- At the end of its file the reader compares its position with the writer's. -/
theorem round_done (S : Seated sp ps) (hf : sp.readf = some f)
    (done : (sp.disk.files f.file).drop f.off = []) : ∃ sq, Seated sq ps ∧
      (sq.readf = some { f with eof := true } ∧ sq.disk = sp.disk ∧ sq.readPos = sp.readPos ∧
        sq.writePos = sp.writePos ∧ (sq.Stranded ↔ sp.Stranded)) ∧
      advanceRound lo sp = (compareWriteToRead sq).bind fun diff =>
        if diff > 0 then
          (removeReadPartition sq).bind fun sq =>
            (incrementReadSpoolPartition lo sq).bind fun (sq, ok) =>
              if ok then some (.inl sq) else some (.inr (0, sq))
        else some (.inr (0, sq)) := by
  refine ⟨{ sp with readf := some { f with eof := true } }, ?_, ⟨rfl, rfl, rfl, rfl, ?_⟩, ?_⟩
  · exact S.readOn hf rfl (Nat.le_refl _) (fun _ => rfl) fun _ => List.drop_eq_nil_iff.mp done
  · exact S.stranded_readOn hf rfl fun _ _ => .rfl
  · simp only [advanceRound, hf, Option.bind_eq_bind, Option.bind_some, fread_done done,
      List.length_nil, ↓reduceIte]

/-- In the writer's partition the reader has nothing to read. -/
theorem compare_at_writer (S : Seated sp ps) (at_writer : sp.readPos = sp.writePos) :
    compareWriteToRead sp = some 0 := by
  obtain ⟨f, hf, -, -, start⟩ := S.reader
  obtain ⟨w, hw, woff, -⟩ := S.writer
  simp [compareWriteToRead, at_writer, hw, hf, woff, start at_writer]

theorem round_at_writer (S : Seated sp ps) (hf : sp.readf = some f)
    (at_writer : sp.readPos = sp.writePos) :
    ∃ last, advanceRound lo sp = some (.inr last) ∧ Landed last := by
  obtain ⟨-, mem, start⟩ := S.place hf
  obtain ⟨w, hw, woff, content, wmem⟩ := S.writer
  have file : f.file = w.file :=
    congrArg Prod.snd (S.partitions.distinct _ mem _ wmem at_writer)
  have done : (sp.disk.files f.file).drop f.off = [] := by
    rw [file, content, start at_writer]
    decide
  obtain ⟨sq, T, ⟨-, -, readPos, writePos, -⟩, round⟩ := @round_done lo _ _ _ S hf done
  refine ⟨(0, sq), ?_, ⟨ps, T⟩, fun h => absurd h (Nat.lt_irrefl 0)⟩
  rw [round, T.compare_at_writer (by rw [readPos, writePos, at_writer])]
  rfl

theorem round_at_end (S : Seated sp ps) (hf : sp.readf = some f)
    (behind : sp.readPos.majorSeq < sp.writePos.majorSeq)
    (done : (sp.disk.files f.file).drop f.off = []) :
    ∃ st qs, advanceRound lo sp = some (.inl st) ∧ Seated st qs ∧ Closer st sp ∧
      (st.Stranded ↔ sp.Stranded) := by
  obtain ⟨sq, T, ⟨readf, disk, readPos, writePos, stranded⟩, round⟩ :=
    @round_done lo _ _ _ S hf done
  have behind' : sq.readPos.majorSeq < sq.writePos.majorSeq := by rwa [readPos, writePos]
  have done' : (sq.disk.files f.file).drop f.off = [] := by rwa [disk]
  obtain ⟨sr, st, qs, removed, opened, U, fewer, same⟩ := @leave lo _ _ _ T readf behind' done'
  refine ⟨st, qs, ?_, U, .left _ _ ?_, same.trans stranded⟩
  · rw [round, compare_behind behind', Option.bind_some, if_pos (by decide), removed,
      Option.bind_some, opened]
    rfl
  · rwa [T.laterEntries_eq, readPos, ← S.laterEntries_eq] at fewer

/-- A last byte on its own is read again and again. -/
theorem round_byte (S : Seated sp ps) (hf : sp.readf = some f) {b : UInt8}
    (byte : (sp.disk.files f.file).drop f.off = [b]) : advanceRound lo sp = some (.inl sp) := by
  have fresh : f.eof = false := S.fresh hf (by simp [byte])
  have read : sp.disk.fread f 2 = ([b], { f with off := f.off + 1, eof := true }) := by
    simp [fread_fresh fresh, byte]
  have back : Stream.seek { f with off := f.off + 1, eof := true } (f.off + 1 - 1) = f := by
    cases f
    cases fresh
    rfl
  have same : { sp with readf := some f } = sp := by rw [← hf]
  simp only [advanceRound, hf, Option.bind_eq_bind, Option.bind_some, read, List.length_singleton,
    Nat.one_ne_zero, ↓reduceIte, back, same]
  rfl

/-- A count is read whole. -/
theorem fread_word (S : Seated sp ps) (hf : sp.readf = some f) {rest : Bytes}
    (hrest : (sp.disk.files f.file).drop f.off = rest) (long : 2 ≤ rest.length) :
    ∃ g : Stream, g.file = f.file ∧ g.off = f.off + 2 ∧ g.eof = false ∧
      g.off ≤ (sp.disk.files f.file).length ∧ (sp.disk.files f.file).drop g.off = rest.drop 2 ∧
      sp.disk.fread f 2 = (rest.take 2, g) := by
  have fresh : f.eof = false := by
    apply S.fresh hf
    intro nothing
    rw [← hrest, nothing] at long
    cases long
  have two : (rest.take 2).length = 2 := by
    rw [List.length_take]
    omega
  refine ⟨{ f with off := f.off + 2, eof := false }, rfl, rfl, rfl, ?_, ?_, ?_⟩
  · rw [← hrest, List.length_drop] at long
    simp only
    omega
  · rw [← hrest, List.drop_drop]
  · rw [fread_fresh fresh, hrest, two]
    rfl

theorem reader_apart (behind : sp.readPos.majorSeq < sp.writePos.majorSeq) :
    sp.readPos ≠ sp.writePos := by
  intro same
  rw [same] at behind
  exact Nat.lt_irrefl _ behind

/-- At an event that is not visited the loop stops. -/
theorem round_unvisited (S : Seated sp ps) (hf : sp.readf = some f)
    (behind : sp.readPos.majorSeq < sp.writePos.majorSeq) {rest : Bytes}
    (hrest : (sp.disk.files f.file).drop f.off = rest) (long : 2 ≤ rest.length)
    (unvisited : ¬ eventIsVisited (decode (rest.take 2)) = true) :
    ∃ last, advanceRound lo sp = some (.inr last) ∧ Landed last ∧ ¬ sp.Stranded := by
  obtain ⟨g, file, off, eof, within, -, read⟩ := S.fread_word hf hrest long
  have apart := reader_apart behind
  have round := @advanceRound_word sp lo f g _ hf read (by rw [List.length_take]; omega)
  rw [if_neg unvisited] at round
  refine ⟨_, round, ⟨⟨ps, ?_⟩, fun _ => ⟨apart, g, rfl, ?_, file ▸ within, eof⟩⟩, ?_⟩
  · refine S.readOn hf file (off ▸ Nat.le_add_right _ 2) (fun same => absurd same apart) ?_
    simp [AtEndIfEof, eof]
  · obtain ⟨past, -⟩ := S.place hf
    exact off ▸ Nat.add_le_add_right past 2
  · apply S.not_stranded_of_stop hf
    intro left passed
    rw [hrest] at passed
    exact passed_stop long (fun h => absurd h unvisited) passed

/-- A visited event is passed over, unless its parts are cut off. -/
theorem round_visited (S : Seated sp ps) (hf : sp.readf = some f)
    (behind : sp.readPos.majorSeq < sp.writePos.majorSeq) {rest : Bytes}
    (hrest : (sp.disk.files f.file).drop f.off = rest) (long : 2 ≤ rest.length)
    (visited : eventIsVisited (decode (rest.take 2)) = true) :
    (∃ last, advanceRound lo sp = some (.inr last) ∧ Landed last ∧ ¬ sp.Stranded) ∨
    ∃ st, advanceRound lo sp = some (.inl st) ∧ Seated st ps ∧ Closer st sp ∧
      (st.Stranded ↔ sp.Stranded) := by
  obtain ⟨g, gfile, off, eof, -, gleft, read⟩ := S.fread_word hf hrest long
  have round := @advanceRound_word sp lo f g _ hf read (by rw [List.length_take]; omega)
  obtain ⟨skips, lands⟩ := @fastForward_skips sp.disk g (eventMsgCount (decode (rest.take 2))) eof
  rw [gfile, gleft] at skips lands
  obtain ⟨file, past⟩ := fastForward_past sp.disk g (eventMsgCount (decode (rest.take 2)))
  have atEnd : AtEndIfEof sp.disk
      (fastForward sp.disk (eventMsgCount (decode (rest.take 2))) g).1 :=
    fastForward_atEnd (by simp [AtEndIfEof, eof]) _
  obtain ⟨h, ok, hff⟩ : ∃ h ok,
      fastForward sp.disk (eventMsgCount (decode (rest.take 2))) g = (h, ok) := ⟨_, _, rfl⟩
  rw [hff] at file past atEnd skips lands
  rw [if_pos visited, hff] at round
  rw [gfile] at file
  have T : Seated { sp with readf := some h } ps :=
    S.readOn hf file (Nat.le_trans (Nat.le_add_right _ 2) (off ▸ past))
      (fun same => absurd same (reader_apart behind)) atEnd
  cases parts : skipParts (eventMsgCount (decode (rest.take 2))) (rest.drop 2) with
  | none =>
    obtain rfl : ok = false := skips parts
    refine .inl ⟨_, round, ⟨⟨ps, T⟩, fun h => absurd h (Nat.lt_irrefl 0)⟩, ?_⟩
    apply S.not_stranded_of_stop hf
    intro left passed
    rw [hrest] at passed
    exact passed_stop long (fun _ => parts) passed
  | some after =>
    obtain ⟨rfl, -, left⟩ := lands after parts
    have left : (sp.disk.files f.file).drop h.off = after := left
    refine .inr ⟨_, round, T, ?_, ?_⟩
    · have fewer := skipParts_length parts
      rw [List.length_drop] at fewer
      have now : sp.toCome = (sp.laterEntries, rest.length) := by
        rw [Spool.toCome, hf, Option.elim_some, hrest]
      have next : { sp with readf := some h }.toCome = (sp.laterEntries, after.length) := by
        rw [Spool.toCome, Option.elim_some, file, left]
        rfl
      rw [Closer, now, next]
      exact .right _ (by omega)
    · apply S.stranded_readOn hf file
      intro l short
      rw [file, left, hrest]
      exact (passed_event long visited parts short).symm

theorem round (S : Seated sp ps) :
    Loop.Proceeds (advanceRound lo) Closer (fun sp => ∃ ps, Seated sp ps) Spool.Stranded Landed
      sp := by
  obtain ⟨f, hf, -⟩ := S.reader
  obtain at_writer | behind := S.behind
  · obtain ⟨last, round, landed⟩ := @round_at_writer lo _ _ _ S hf at_writer
    exact .inl ⟨last, round, landed, not_stranded_at_writer at_writer⟩
  · obtain ⟨rest, hrest⟩ : ∃ rest, (sp.disk.files f.file).drop f.off = rest := ⟨_, rfl⟩
    cases rest with
    | nil =>
      obtain ⟨st, qs, round, T, closer, same⟩ := @round_at_end lo _ _ _ S hf behind hrest
      exact .inr (.inr ⟨st, round, ⟨qs, T⟩, closer, same⟩)
    | cons b rest =>
      cases rest with
      | nil => exact .inr (.inl ⟨S.round_byte hf hrest, S.stranded_of_byte hf behind hrest⟩)
      | cons c rest =>
        have long : 2 ≤ (b :: c :: rest).length := by simp
        by_cases visited : eventIsVisited (decode ((b :: c :: rest).take 2)) = true
        · obtain stops | ⟨st, round, T, closer, same⟩ :=
            @round_visited lo _ _ _ S hf behind _ hrest long visited
          · exact .inl stops
          · exact .inr (.inr ⟨st, round, ⟨ps, T⟩, closer, same⟩)
        · exact .inl (S.round_unvisited hf behind hrest long visited)

theorem proceeds (sp : Spool) (h : ∃ ps, Seated sp ps) :
    Loop.Proceeds (advanceRound lo) Closer (fun sp => ∃ ps, Seated sp ps) Spool.Stranded Landed
      sp := by
  obtain ⟨ps, S⟩ := h
  exact S.round

/-! ## Pops -/

/-- The loop ends unless the reader is stranded. -/
theorem advance_iff (S : Seated sp ps) :
    (∃ rounds, (advanceToNextUnvisited lo rounds sp).isSome) ↔ ¬ sp.Stranded := by
  rw [← Loop.ends_iff closer_wf (@proceeds lo) ⟨ps, S⟩]
  constructor
  · rintro ⟨rounds, h⟩
    obtain ⟨last, h⟩ := Option.isSome_iff_exists.mp h
    exact ⟨last, rounds, h⟩
  · rintro ⟨last, rounds, h⟩
    exact ⟨rounds, Option.isSome_iff_exists.mpr ⟨last, h⟩⟩

theorem advance (S : Seated sp ps) {rounds : Nat} {last : Nat × Spool}
    (h : advanceToNextUnvisited lo rounds sp = some last) : Landed last := by
  have ends : Loop.Ends (advanceRound lo) sp last := ⟨rounds, h⟩
  exact ends.proceeds proceeds ⟨ps, S⟩

/-- An event is marked as visited, or its parts cannot be read. -/
theorem event (S : Seated sp ps) (apart : sp.readPos ≠ sp.writePos) (hf : sp.readf = some f)
    (past : headerSize + 2 ≤ f.off) (fresh : f.eof = false) {msgCount : Nat} {rc : Rc}
    {parts : List Bytes} (h : popEvent sp msgCount = some (sq, rc, parts)) : Seated sq ps := by
  obtain ⟨file, on⟩ := readParts_past sp.disk f msgCount
  obtain ⟨-, mem, -⟩ := S.place hf
  simp only [popEvent, hf, Option.bind_eq_bind, Option.bind_some] at h
  split at h
  · cases h
    exact S.readOn hf file on (fun same => absurd same apart)
      (readParts_atEnd (by simp [AtEndIfEof, fresh]) msgCount)
  · rw [Option.some_inj, Prod.mk.injEq] at h
    obtain ⟨rfl, -⟩ := h
    have id := S.partitions.spoolFile _ mem
    have marked := isSpoolFile_overwrite id (show headerSize ≤ f.off - 2 by omega)
      (encode 2 (setVisited msgCount))
    obtain ⟨w, hw, woff, content, wmem⟩ := S.writer
    have other : w.file ≠ f.file := by
      intro same
      exact apart (congrArg Prod.fst (S.partitions.apart _ mem _ wmem same.symm))
    simp only [Disk.fwrite, Stream.seek, file]
    refine { S with
      partitions := ?_
      reader := ⟨_, rfl, Nat.le_trans (by omega) on, mem, fun same => absurd same apart⟩
      notStale := by simp [Spool.NotStale]
      writer := ⟨w, hw, woff, ?_, wmem⟩ }
    · exact S.partitions.update marked f.file
    · simp only [Function.update_of_ne other]
      exact content

theorem popEvent_isSome (hf : sp.readf = some f) (msgCount : Nat) :
    (popEvent sp msgCount).isSome := by
  simp only [popEvent, hf, Option.bind_eq_bind, Option.bind_some]
  split <;> rfl

theorem popNothing_eq (S : Seated sp ps) : ∃ rc, popNothing sp = some (sp, rc, []) := by
  obtain ⟨f, hf, -⟩ := S.reader
  obtain ⟨w, hw, -⟩ := S.writer
  unfold popNothing
  split
  · exact ⟨_, by rw [hf, hw]; rfl⟩
  · exact ⟨_, rfl⟩

theorem pop (S : Seated sp ps) {rounds : Nat} {signaled : Bool} {rc : Rc} {parts : List Bytes}
    (h : spoolPop lo rounds signaled sp = some (sq, rc, parts)) : ∃ qs, Seated sq qs := by
  obtain ⟨diff, -, h⟩ := Option.bind_eq_some_iff.mp h
  split at h
  · split at h
    · cases h
      exact ⟨ps, S⟩
    · obtain ⟨⟨msgCount, st⟩, advanced, h⟩ := Option.bind_eq_some_iff.mp h
      obtain ⟨⟨qs, T⟩, landed⟩ := S.advance advanced
      simp only at h
      split at h
      · rename_i more
        obtain ⟨apart, f, hf, past, -, fresh⟩ := landed more
        exact ⟨qs, T.event apart hf past fresh h⟩
      · obtain ⟨rc', nothing⟩ := T.popNothing_eq
        rw [nothing] at h
        cases h
        exact ⟨qs, T⟩
  · cases h
    exact ⟨ps, S⟩

theorem pop_iff (S : Seated sp ps) (signaled : Bool) :
    (∃ rounds, (spoolPop lo rounds signaled sp).isSome) ↔ ¬ sp.Stranded := by
  obtain at_writer | behind := S.behind
  · refine iff_of_true ⟨0, ?_⟩ (not_stranded_at_writer at_writer)
    simp only [spoolPop, S.compare_at_writer at_writer, Option.bind_eq_bind, Option.bind_some]
    cases signaled <;> rfl
  · rw [← @advance_iff lo _ _ S]
    apply exists_congr
    intro rounds
    simp only [spoolPop, compare_behind behind, Option.bind_eq_bind, Option.bind_some]
    cases advanced : advanceToNextUnvisited lo rounds sp with
    | none => rfl
    | some last =>
      obtain ⟨⟨qs, T⟩, landed⟩ := S.advance advanced
      refine iff_of_true ?_ rfl
      have returns : (if last.1 > 0 then popEvent last.2 last.1 else popNothing last.2).isSome := by
        split
        · rename_i more
          obtain ⟨-, f, hf, -⟩ := landed more
          exact popEvent_isSome hf last.1
        · obtain ⟨rc, nothing⟩ := T.popNothing_eq
          rw [nothing]
          rfl
      simpa using returns

end Seated

end

/-! ## Runs -/

/-- Pops on a spool that was opened where these partitions are. -/
inductive PopRun (lo : ListingOrder) (disk : Disk) : Spool → Prop where
  | create {settings : SpoolSettings} {listings : Nat} {sp : Spool}
      (opened : createSpool lo settings disk listings = some (some sp)) : PopRun lo disk sp
  | pop {sp sq : Spool} {rounds : Nat} {signaled : Bool} {rc : Rc} {parts : List Bytes}
      (run : PopRun lo disk sp)
      (h : spoolPop lo rounds signaled sp = some (sq, rc, parts)) : PopRun lo disk sq

theorem popRun_seated {lo : ListingOrder} {disk : Disk} {ps : List (SpoolPos × Nat)} {sp : Spool}
    (P : Partitions disk ps) (run : PopRun lo disk sp) : ∃ qs, Seated sp qs := by
  induction run with
  | create opened =>
    obtain ⟨sq, qs, opened', S⟩ := @Partitions.createSpool lo disk ps P _ _
    rw [opened', Option.some_inj, Option.some_inj] at opened
    exact ⟨qs, opened ▸ S⟩
  | pop _ h ih =>
    obtain ⟨qs, S⟩ := ih
    exact S.pop h

/-- The loop of a pop, and so the pop, comes to an end unless the reader is stranded. -/
theorem reader_ends_iff {lo : ListingOrder} {disk : Disk} {ps : List (SpoolPos × Nat)}
    (P : Partitions disk ps) {sp : Spool} (run : PopRun lo disk sp) :
    ((∃ rounds, (advanceToNextUnvisited lo rounds sp).isSome) ↔ ¬ sp.Stranded) ∧
      ∀ signaled, (∃ rounds, (spoolPop lo rounds signaled sp).isSome) ↔ ¬ sp.Stranded := by
  obtain ⟨qs, S⟩ := popRun_seated P run
  exact ⟨S.advance_iff, S.pop_iff⟩

/-- A directory with one partition. -/
def oneFile (bytes : Bytes) : Disk where
  dir := [entryOf (⟨1, 1⟩, 0)]
  files := fun _ => header ++ bytes
  next := 1

theorem oneFile_partitions (bytes : Bytes) : Partitions (oneFile bytes) [(⟨1, 1⟩, 0)] where
  dir := rfl
  fits := by simp [SpoolPos.Fits]
  spoolFile p _ := isSpoolFile_append (by decide) bytes
  distinct := by simp
  apart := by simp
  fresh := by simp [oneFile]

/-- A partition with a visited event that is cut off within its part. -/
theorem reader_ends_cutOff : ∃ sp, PopRun inCreationOrder (oneFile [1, 0x80, 9, 0, 0, 0, 1]) sp ∧
    ¬ sp.Stranded ∧ ∃ rounds, (spoolPop inCreationOrder rounds false sp).isSome := by
  have opened : (createSpool inCreationOrder ⟨64, 4⟩ (oneFile [1, 0x80, 9, 0, 0, 0, 1]) 0).any
      (fun sp => sp.any fun sp => (advanceToNextUnvisited inCreationOrder 9 sp).isSome) = true := by
    decide +kernel
  obtain ⟨found, created, h⟩ := (Option.any_eq_true _ _).mp opened
  obtain ⟨sp, rfl, ends⟩ := (Option.any_eq_true _ _).mp h
  have iff := reader_ends_iff (oneFile_partitions _) (.create created)
  have free := iff.1.mp ⟨9, ends⟩
  exact ⟨sp, .create created, free, (iff.2 false).mpr free⟩

/-- A partition that holds half a count. -/
theorem reader_never_ends : ∃ sp, PopRun inCreationOrder (oneFile [7]) sp ∧
    (∀ rounds, advanceToNextUnvisited inCreationOrder rounds sp = none) ∧
    ∀ rounds, spoolPop inCreationOrder rounds false sp = none := by
  have opened : (createSpool inCreationOrder ⟨64, 4⟩ (oneFile [7]) 0).any (fun sp =>
      sp.any fun sp => decide (sp.readf = some ⟨0, headerSize, false⟩ ∧
        sp.disk.files 0 = header ++ [7] ∧ sp.readPos.majorSeq < sp.writePos.majorSeq)) = true := by
    decide +kernel
  obtain ⟨found, created, h⟩ := (Option.any_eq_true _ _).mp opened
  obtain ⟨sp, rfl, h⟩ := (Option.any_eq_true _ _).mp h
  obtain ⟨hf, content, behind⟩ := of_decide_eq_true h
  have run : PopRun inCreationOrder (oneFile [7]) sp := .create created
  obtain ⟨qs, S⟩ := popRun_seated (oneFile_partitions _) run
  have stranded := S.stranded_of_byte hf behind (b := 7) (by rw [content]; rfl)
  have none : ∀ {α : Type} {x : Option α}, ¬ x.isSome → x = none := by simp
  refine ⟨sp, run, fun rounds => none fun ends => ?_, fun rounds => none fun ends => ?_⟩
  · exact S.advance_iff.mp ⟨rounds, ends⟩ stranded
  · exact (S.pop_iff false).mp ⟨rounds, ends⟩ stranded

end Yella
