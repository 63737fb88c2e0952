import Yella.Spool.Format
import Yella.Spool.Shelf

/-!
# The partitions as sequences of events

A layout says what the partitions of a spool mean: from the reader's on, the events in each
of them and how far the reader has got. Every operation of the spool is an operation on the
layout.
-/

namespace Yella

open LittleEndian (encode)

/-- An event on disk; `id` is the number of its push. -/
structure Record where
  id : Nat
  visited : Bool
  parts : List Bytes
  wf : WellFormed parts

def Record.bytes (r : Record) : Bytes := encodeEvent r.visited r.parts

def Record.visit (r : Record) : Record := { r with visited := true }

def encodeAll (rs : List Record) : Bytes := rs.flatMap Record.bytes

/-- The beginning of an event, from the whole count on. -/
def IsTorn (bytes : Bytes) : Prop :=
  ∃ parts missing, WellFormed parts ∧ encodeEvent false parts = bytes ++ missing ∧
    missing ≠ [] ∧ 2 ≤ bytes.length

/-- A partition: the events before the reader, those after it, and the beginning of an event
whose push failed. -/
structure Segment where
  pos : SpoolPos
  file : Nat
  done : List Record
  todo : List Record
  torn : Bytes
  doneVisited : ∀ r ∈ done, r.visited = true
  tornOk : torn = [] ∨ IsTorn torn

namespace Segment

def content (s : Segment) : Bytes :=
  header ++ (encodeAll s.done ++ (encodeAll s.todo ++ s.torn))

def entry (s : Segment) : SpoolPos × Nat := (s.pos, s.file)

/-- The reader goes over one event, which is visited then. -/
def take (s : Segment) : Segment :=
  match s.todo with
  | [] => s
  | r :: todo =>
    { s with
      done := s.done ++ [r.visit]
      todo := todo
      doneVisited := by
        intro q hq
        obtain hq | hq := List.mem_append.mp hq
        · exact s.doneVisited q hq
        · rw [List.mem_singleton.mp hq]; rfl }

/-- The reader goes back to the beginning. -/
def rewind (s : Segment) : Segment :=
  { s with done := [], todo := s.done ++ s.todo, doneVisited := by simp }

def add (r : Record) (s : Segment) : Segment := { s with todo := s.todo ++ [r] }

def tear (bytes : Bytes) (h : bytes = [] ∨ IsTorn bytes) (s : Segment) : Segment :=
  { s with torn := bytes, tornOk := h }

def create (pos : SpoolPos) (file : Nat) : Segment where
  pos := pos
  file := file
  done := []
  todo := []
  torn := []
  doneVisited := by simp
  tornOk := .inl rfl

end Segment

/-- The reader's partition, the later ones in the directory, and the writer's where it is no
longer in the directory; `next` is a file that has not been used yet. -/
structure Layout where
  cur : Segment
  tornRead : Bool
  eof : Bool
  rest : List Segment
  lost : Option Segment
  next : Nat
  maxPartitionSize : UInt64
  maxPartitions : UInt64
  currentSize : UInt64

namespace Layout

/-- The partitions in the directory. -/
def segs (L : Layout) : List Segment := L.cur :: L.rest

def all (L : Layout) : List Segment := L.segs ++ L.lost.toList

def writer (L : Layout) : Segment := L.lost.getD (L.rest.getLast?.getD L.cur)

/-- The offset of the reader. -/
def readOff (L : Layout) : Nat :=
  if L.tornRead then L.cur.content.length else (header ++ encodeAll L.cur.done).length

/-- The events in the directory that have not been read, in order. -/
def unread (L : Layout) : List Record :=
  (L.segs.flatMap Segment.todo).filter (fun r => !r.visited)

/-- `compare_write_to_read` -/
def compare (L : Layout) : Int :=
  if L.writer.pos.majorSeq > L.cur.pos.majorSeq then 1
  else if L.writer.pos.majorSeq = L.cur.pos.majorSeq then
    let diff := toInt32 ((L.writer.pos.minorSeq : Int) - L.cur.pos.minorSeq)
    if diff = 0 then toInt32 ((L.writer.content.length : Int) - L.readOff) else diff
  else -1

end Layout

/-- The partitions have files of their own and stand in the order of their positions. -/
structure Layout.Valid (L : Layout) : Prop where
  apart : L.all.Pairwise (fun s t => s.file ≠ t.file)
  order : L.all.Pairwise (fun s t => s.pos < t.pos)
  fits : ∀ s ∈ L.all, s.pos.Fits ∧ 0 < s.pos.majorSeq ∧ s.pos < ⟨0xffffffff, 0xffffffff⟩
  fresh : ∀ s ∈ L.all, s.file < L.next
  begins : ∀ s ∈ L.rest, s.done = []
  tornRead : L.tornRead = true → L.cur.todo = [] ∧ L.cur.torn ≠ []

/-- The spool is in the state that the layout describes. -/
structure Represents (L : Layout) (sp : Spool) : Prop where
  dir : sp.disk.dir = (L.segs.map Segment.entry).map entryOf
  files : ∀ s ∈ L.all, sp.disk.files s.file = s.content
  next : sp.disk.next = L.next
  writePos : sp.writePos = L.writer.pos
  writef : sp.writef =
    some { file := L.writer.file, off := L.writer.content.length, eof := false }
  writeFileName : sp.writeFileName = some (spoolFileName L.writer.pos)
  readPos : sp.readPos = L.cur.pos
  readf : sp.readf = some { file := L.cur.file, off := L.readOff, eof := L.eof }
  readFileName : sp.readFileName = some (spoolFileName L.cur.pos)
  maxPartitionSize : sp.stats.maxPartitionSize = L.maxPartitionSize
  maxPartitions : sp.stats.maxPartitions = L.maxPartitions
  currentSize : sp.stats.currentSize = L.currentSize

/-! ## Contents -/

theorem encodeAll_append (rs qs : List Record) :
    encodeAll (rs ++ qs) = encodeAll rs ++ encodeAll qs := by simp [encodeAll]

theorem encodeAll_cons (r : Record) (rs : List Record) :
    encodeAll (r :: rs) = r.bytes ++ encodeAll rs := by simp [encodeAll]

@[simp] theorem encodeAll_nil : encodeAll [] = [] := rfl

theorem Record.bytes_length (r : Record) : r.bytes.length = 2 + (encodeParts r.parts).length :=
  encodeEvent_length r.visited r.parts

theorem encodeAll_eq_nil {rs : List Record} (h : (encodeAll rs).length = 0) : rs = [] := by
  cases rs with
  | nil => rfl
  | cons r rs =>
    rw [encodeAll_cons, List.length_append, Record.bytes_length] at h
    omega

@[simp] theorem Record.visit_bytes_length (r : Record) : r.visit.bytes.length = r.bytes.length := by
  simp [Record.bytes_length, Record.visit]

theorem Record.visit_of_visited {r : Record} (h : r.visited = true) : r.visit = r := by
  cases r; simp only at h; subst h; rfl

theorem IsTorn.split {bytes : Bytes} (h : IsTorn bytes) : ∃ parts more missing,
    WellFormed parts ∧ bytes = encode 2 (countWord false parts.length) ++ more ∧
      encodeParts parts = more ++ missing ∧ missing ≠ [] := by
  obtain ⟨parts, missing, wf, cut, hmissing, two⟩ := h
  obtain ⟨more, hbytes, hparts⟩ := append_eq_append_of_le cut (by simpa using two)
  exact ⟨parts, more, missing, wf, hbytes, hparts, hmissing⟩

/-- What is written of an event when the write fails. -/
theorem isTorn_of_take {parts : List Bytes} {n : Nat} (wf : WellFormed parts) (two : 2 ≤ n)
    (short : n < (encodeEvent false parts).length) : IsTorn ((encodeEvent false parts).take n) := by
  refine ⟨parts, (encodeEvent false parts).drop n, wf, (List.take_append_drop n _).symm, ?_, ?_⟩
  · simpa using short
  · simp only [List.length_take]
    omega

theorem isSpoolFile_header (rest : Bytes) : isSpoolFile (header ++ rest) = true := by
  have take : (header ++ rest).take headerSize = header := by
    rw [← header_length, List.take_left]
  rw [isSpoolFile, take]
  decide

namespace Segment

theorem content_length (s : Segment) : s.content.length = headerSize + (encodeAll s.done).length +
    (encodeAll s.todo).length + s.torn.length := by
  simp only [content, List.length_append, header_length]
  omega

theorem take_of_todo {s : Segment} {r : Record} {todo : List Record} (h : s.todo = r :: todo) :
    s.take.done = s.done ++ [r.visit] ∧ s.take.todo = todo ∧ s.take.torn = s.torn := by
  unfold take
  split
  · simp_all
  · rename_i q todo' hq
    rw [h] at hq
    cases hq
    exact ⟨rfl, rfl, rfl⟩

@[simp] theorem take_pos (s : Segment) : s.take.pos = s.pos := by unfold take; split <;> rfl

@[simp] theorem take_file (s : Segment) : s.take.file = s.file := by unfold take; split <;> rfl

theorem content_of_todo {s : Segment} {r : Record} {todo : List Record} (h : s.todo = r :: todo) :
    s.content = header ++ encodeAll s.done ++ r.bytes ++ (encodeAll todo ++ s.torn) := by
  simp [content, h, encodeAll_cons]

theorem take_content {s : Segment} {r : Record} {todo : List Record} (h : s.todo = r :: todo) :
    s.take.content = header ++ encodeAll s.done ++ r.visit.bytes ++ (encodeAll todo ++ s.torn) := by
  obtain ⟨hd, ht, htorn⟩ := take_of_todo h
  simp [content, hd, ht, htorn, encodeAll_append, encodeAll_cons]

theorem take_content_of_visited {s : Segment} {r : Record} {todo : List Record}
    (h : s.todo = r :: todo) (hv : r.visited = true) : s.take.content = s.content := by
  rw [take_content h, content_of_todo h, Record.visit_of_visited hv]

theorem take_content_length {s : Segment} {r : Record} {todo : List Record}
    (h : s.todo = r :: todo) : s.take.content.length = s.content.length := by
  rw [take_content h, content_of_todo h]
  simp

theorem rewind_content (s : Segment) : s.rewind.content = s.content := by
  simp [content, rewind, encodeAll_append]

theorem add_content {s : Segment} (r : Record) (h : s.torn = []) :
    (s.add r).content = s.content ++ r.bytes := by
  simp [content, add, h, encodeAll_append, encodeAll_cons]

theorem tear_content {s : Segment} {bytes : Bytes} (h : bytes = [] ∨ IsTorn bytes)
    (whole : s.torn = []) : (s.tear bytes h).content = s.content ++ bytes := by
  simp [content, tear, whole]

@[simp] theorem create_content (pos : SpoolPos) (file : Nat) :
    (create pos file).content = header := by simp [content, create]

end Segment

/-! ## The partitions of a layout -/

namespace Layout
variable {L : Layout} {sp : Spool}

theorem cur_mem_segs : L.cur ∈ L.segs := List.mem_cons_self

theorem mem_all_of_segs {s : Segment} (h : s ∈ L.segs) : s ∈ L.all := List.mem_append_left _ h

theorem cur_mem_all : L.cur ∈ L.all := mem_all_of_segs cur_mem_segs

theorem mem_all_of_rest {s : Segment} (h : s ∈ L.rest) : s ∈ L.all :=
  mem_all_of_segs (List.mem_cons_of_mem _ h)

/-- The writer's partition is the last one. -/
theorem all_eq : ∃ before, L.all = before ++ [L.writer] := by
  obtain ⟨cur, tornRead, eof, rest, lost, counted⟩ := L
  cases lost with
  | some w => exact ⟨cur :: rest, rfl⟩
  | none =>
    obtain rfl | ⟨before, w, rfl⟩ := List.eq_nil_or_concat rest
    · exact ⟨[], rfl⟩
    · exact ⟨cur :: before, by simp [all, segs, writer]⟩

theorem writer_mem_all : L.writer ∈ L.all := by
  obtain ⟨before, h⟩ := L.all_eq
  simp [h]

theorem Valid.before_writer (V : L.Valid) {s : Segment} (h : s ∈ L.all) :
    s = L.writer ∨ s.pos < L.writer.pos := by
  obtain ⟨before, hall⟩ := L.all_eq
  have order := V.order
  rw [hall] at h order
  obtain h | h := List.mem_append.mp h
  · exact .inr ((List.pairwise_append.mp order).2.2 s h _ (by simp))
  · exact .inl (List.mem_singleton.mp h)

theorem Valid.after_cur (V : L.Valid) {s : Segment} (h : s ∈ L.rest) : L.cur.pos < s.pos := by
  have order := V.order
  rw [all, segs, List.cons_append, List.pairwise_cons] at order
  exact order.1 s (List.mem_append_left _ h)

theorem Valid.segs_order (V : L.Valid) : L.segs.Pairwise (fun s t => s.pos < t.pos) :=
  (List.pairwise_append.mp V.order).1

end Layout

/-- Partitions in the order of their positions. -/
theorem shelf_of_segments {disk : Disk} {ss : List Segment}
    (dir : disk.dir = (ss.map Segment.entry).map entryOf)
    (files : ∀ s ∈ ss, disk.files s.file = s.content)
    (fits : ∀ s ∈ ss, s.pos.Fits ∧ 0 < s.pos.majorSeq)
    (order : ss.Pairwise (fun s t => s.pos < t.pos))
    (apart : ss.Pairwise (fun s t => s.file ≠ t.file))
    (fresh : ∀ s ∈ ss, s.file < disk.next) : Shelf disk (ss.map Segment.entry) where
  dir := dir
  fits := List.forall_mem_map.mpr fits
  spoolFile := List.forall_mem_map.mpr fun s hs => by
    show isSpoolFile (disk.files s.file) = true
    rw [files s hs]
    exact isSpoolFile_header _
  order := List.pairwise_map.mpr order
  apart := List.pairwise_map.mpr apart
  fresh := List.forall_mem_map.mpr fresh

namespace Represents
variable {L : Layout} {sp : Spool}

theorem shelf (R : Represents L sp) (V : L.Valid) : Shelf sp.disk (L.segs.map Segment.entry) :=
  shelf_of_segments R.dir (fun s hs => R.files s (Layout.mem_all_of_segs hs))
    (fun s hs => ⟨(V.fits s (Layout.mem_all_of_segs hs)).1,
      (V.fits s (Layout.mem_all_of_segs hs)).2.1⟩)
    V.segs_order (List.pairwise_append.mp V.apart).1
    (fun s hs => R.next ▸ V.fresh s (Layout.mem_all_of_segs hs))

theorem lookup (R : Represents L sp) (V : L.Valid) {s : Segment} (h : s ∈ L.segs) :
    sp.disk.lookup (spoolFileName s.pos) = some s.file :=
  (R.shelf V).lookup (List.mem_map_of_mem h)

theorem compare (R : Represents L sp) : compareWriteToRead sp = some L.compare := by
  simp only [compareWriteToRead, R.writePos, R.readPos, R.writef, R.readf, Layout.compare,
    Option.bind_eq_bind, Option.bind_some, apply_ite some]

end Represents

end Yella
