import Yella.Spool.Contents

/-!
# The reader

What a pop does to a layout, and that it does so to the spool.
-/

namespace Yella

open LittleEndian (encode decode)

namespace Layout

/-- The reader is at the end of its partition, or its stream says so. -/
def atEnd (L : Layout) : Bool :=
  L.eof || (L.cur.todo.isEmpty && (L.tornRead || L.cur.torn.isEmpty))

/-- The message count of the event that the reader comes to. -/
def count (L : Layout) : Nat :=
  match L.cur.todo with
  | r :: _ => r.parts.length
  | [] => eventMsgCount (decode (L.cur.torn.take 2))

/-- The reader goes on to the next partition and removes its own. -/
def leave (L : Layout) : Option Layout :=
  match L.rest with
  | [] => none
  | s :: rest => some { L with
      cur := s
      tornRead := false
      eof := false
      rest := rest
      currentSize := L.currentSize - UInt64.ofNat L.cur.content.length }

/-- The reader goes over one event. -/
def take (L : Layout) : Layout := { L with cur := L.cur.take }

/-- One round of the loop of `advance_to_next_unvisited`. -/
def round (L : Layout) : Option (Layout ⊕ Nat × Layout) :=
  if L.atEnd then
    if L.compare > 0 then L.leave.map .inl else some (.inr (0, { L with eof := true }))
  else
    match L.cur.todo with
    | r :: _ => some (if r.visited then .inl L.take else .inr (L.count, L))
    | [] => some (.inr (L.count, L))

/-- The event that the reader has come to is read, or only its beginning is there. -/
def readEvent (L : Layout) : Layout × Rc × List Bytes :=
  match L.cur.todo with
  | r :: _ => (L.take, .noError, r.parts)
  | [] => ({ L with tornRead := true, eof := true }, .readError, [])

def popNothing (L : Layout) : Layout × Rc × List Bytes :=
  (L, if L.cur.pos = L.writer.pos ∧ L.readOff = L.writer.content.length then .timedOut
    else .logicError, [])

/-- `spool_pop` -/
def pop (rounds : Nat) (L : Layout) : Option (Layout × Rc × List Bytes) :=
  if L.compare > 0 then
    (Loop.run round rounds L).map fun (n, L) => if n > 0 then L.readEvent else L.popNothing
  else some (L, .timedOut, [])

end Layout

namespace Layout
variable {L : Layout}

theorem Valid.setEof (V : L.Valid) (b : Bool) : { L with eof := b }.Valid :=
  ⟨V.apart, V.order, V.fits, V.fresh, V.begins, V.tornRead⟩

theorem readOff_of_end (h : L.cur.todo = [] ∧ (L.tornRead = true ∨ L.cur.torn = [])) :
    L.readOff = L.cur.content.length := by
  obtain ⟨todo, torn⟩ := h
  unfold readOff
  split
  · rfl
  · rename_i hn
    obtain torn | torn := torn
    · exact absurd torn hn
    · simp [Segment.content, todo, torn]

theorem readOff_at_end (h : L.atEnd = true) (hEof : L.eof = false) :
    L.readOff = L.cur.content.length :=
  readOff_of_end (by simpa [atEnd, hEof] using h)

theorem leave_eq {L' : Layout} (h : L.leave = some L') :
    L.rest = L'.cur :: L'.rest ∧ L.all = L.cur :: L'.all ∧ L'.writer = L.writer ∧
      L'.next = L.next ∧ L'.tornRead = false ∧ L'.eof = false ∧
      L'.maxPartitionSize = L.maxPartitionSize ∧ L'.maxPartitions = L.maxPartitions ∧
      L'.currentSize = L.currentSize - UInt64.ofNat L.cur.content.length := by
  unfold leave at h
  split at h
  · cases h
  · rename_i s rest hrest
    cases h
    refine ⟨hrest, ?_, ?_, rfl, rfl, rfl, rfl, rfl, rfl⟩
    · simp [all, segs, hrest]
    · simp [writer, hrest, List.getLast?_cons]

theorem Valid.leave {L' : Layout} (V : L.Valid) (h : L.leave = some L') : L'.Valid := by
  obtain ⟨hrest, hall, _, hnext, htorn, _, _⟩ := leave_eq h
  have mem : ∀ s ∈ L'.all, s ∈ L.all := by
    intro s hs
    rw [hall]
    exact List.mem_cons_of_mem _ hs
  constructor
  · exact (List.pairwise_cons.mp (hall ▸ V.apart)).2
  · exact (List.pairwise_cons.mp (hall ▸ V.order)).2
  · exact fun s hs => V.fits s (mem s hs)
  · exact fun s hs => hnext ▸ V.fresh s (mem s hs)
  · exact fun s hs => V.begins s (hrest ▸ List.mem_cons_of_mem _ hs)
  · simp [htorn]

theorem Valid.take (V : L.Valid) : L.take.Valid := by
  have same : ∀ s ∈ L.take.all, ∃ t ∈ L.all, s.pos = t.pos ∧ s.file = t.file := by
    intro s hs
    obtain rfl | hs := List.mem_cons.mp hs
    · exact ⟨L.cur, cur_mem_all, by simp [Layout.take], by simp [Layout.take]⟩
    · exact ⟨s, List.mem_cons_of_mem _ hs, rfl, rfl⟩
  constructor
  · have := List.pairwise_cons.mp V.apart
    exact List.pairwise_cons.mpr ⟨by simpa [Layout.take] using this.1, this.2⟩
  · have := List.pairwise_cons.mp V.order
    exact List.pairwise_cons.mpr ⟨by simpa [Layout.take] using this.1, this.2⟩
  · intro s hs
    obtain ⟨t, ht, hpos, _⟩ := same s hs
    rw [hpos]
    exact V.fits t ht
  · intro s hs
    obtain ⟨t, ht, _, hfile⟩ := same s hs
    rw [hfile]
    exact V.fresh t ht
  · exact V.begins
  · intro h
    obtain ⟨todo, torn⟩ := V.tornRead h
    have : L.cur.take = L.cur := by unfold Segment.take; split <;> simp_all
    exact ⟨by simp [Layout.take, this, todo], by simpa [Layout.take, this] using torn⟩

/-- The writer's partition keeps its name and its size. -/
theorem take_writer {r : Record} {todo : List Record} (h : L.cur.todo = r :: todo) :
    L.take.writer.pos = L.writer.pos ∧ L.take.writer.file = L.writer.file ∧
      L.take.writer.content.length = L.writer.content.length := by
  unfold take writer
  cases L.lost with
  | some w => exact ⟨rfl, rfl, rfl⟩
  | none =>
    cases L.rest.getLast? with
    | some w => exact ⟨rfl, rfl, rfl⟩
    | none => exact ⟨by simp, by simp, Segment.take_content_length h⟩

theorem take_readOff (V : L.Valid) {r : Record} {todo : List Record} (h : L.cur.todo = r :: todo) :
    L.readOff = (header ++ encodeAll L.cur.done).length ∧
      L.take.readOff = L.readOff + r.bytes.length := by
  have torn : L.tornRead = false := by
    by_contra hn
    have := (V.tornRead (by simpa using hn)).1
    rw [h] at this
    cases this
  obtain ⟨hd, _⟩ := Segment.take_of_todo h
  simp [readOff, take, torn, hd, encodeAll_append, encodeAll_cons, Nat.add_assoc]

end Layout

namespace Represents
variable {L : Layout} {sp : Spool} {lo : ListingOrder}

/-- Only the stream of the reader moves. -/
theorem moveReader (R : Represents L sp) {L' : Layout} (hcur : L'.cur = L.cur)
    (hrest : L'.rest = L.rest) (hlost : L'.lost = L.lost) (hnext : L'.next = L.next)
    (hlimits : L'.maxPartitionSize = L.maxPartitionSize ∧ L'.maxPartitions = L.maxPartitions ∧
      L'.currentSize = L.currentSize) :
    Represents L' { sp with
      readf := some { file := L.cur.file, off := L'.readOff, eof := L'.eof } } := by
  have hsegs : L'.segs = L.segs := by simp [Layout.segs, hcur, hrest]
  have hall : L'.all = L.all := by simp [Layout.all, hsegs, hlost]
  have hwriter : L'.writer = L.writer := by simp [Layout.writer, hcur, hrest, hlost]
  obtain ⟨h₁, h₂, h₃⟩ := hlimits
  constructor
  · rw [hsegs]; exact R.dir
  · rw [hall]; exact R.files
  · rw [hnext]; exact R.next
  · rw [hwriter]; exact R.writePos
  · rw [hwriter]; exact R.writef
  · rw [hwriter]; exact R.writeFileName
  · rw [hcur]; exact R.readPos
  · rw [hcur]
  · rw [hcur]; exact R.readFileName
  · rw [h₁]; exact R.maxPartitionSize
  · rw [h₂]; exact R.maxPartitions
  · rw [h₃]; exact R.currentSize

theorem curContent (R : Represents L sp) : sp.disk.files L.cur.file = L.cur.content :=
  R.files _ Layout.cur_mem_all

theorem fread_end (R : Represents L sp) (h : L.atEnd = true) :
    sp.disk.fread { file := L.cur.file, off := L.readOff, eof := L.eof } 2 =
      ([], { file := L.cur.file, off := L.readOff, eof := true }) := by
  cases hEof : L.eof with
  | true => exact fread_eof rfl
  | false =>
    have := @fread_short sp.disk { file := L.cur.file, off := L.readOff, eof := false }
      L.cur.content [] 2 (by simp [R.curContent]) (Layout.readOff_at_end h hEof) rfl (by simp)
    simpa using this

theorem removeReadPartition_eq (R : Represents L sp) (V : L.Valid) :
    removeReadPartition sp = some { sp with
      disk := { sp.disk with dir := (L.rest.map Segment.entry).map entryOf }
      readf := none
      readFileName := none
      stats.currentSize := L.currentSize - UInt64.ofNat L.cur.content.length
      stats.filesDestroyed := sp.stats.filesDestroyed + 1 } := by
  rw [(R.shelf V).removeRead_eq R.readFileName, R.currentSize,
    show sp.disk.files L.cur.entry.2 = L.cur.content from R.curContent]

theorem leave_some (R : Represents L sp) (V : L.Valid) {L' : Layout} (h : L.leave = some L') :
    ∃ sp', (removeReadPartition sp).bind (incrementReadSpoolPartition lo) = some (sp', true) ∧
      Represents L' sp' := by
  obtain ⟨hrest, hall, hwriter, hnext, htorn, heof, hmax, hparts, hsize⟩ := Layout.leave_eq h
  have V' := V.leave h
  have files : ∀ s ∈ L'.all, sp.disk.files s.file = s.content :=
    fun s hs => R.files s (hall ▸ List.mem_cons_of_mem _ hs)
  let sq : Spool := { sp with
    disk := { sp.disk with dir := (L'.segs.map Segment.entry).map entryOf }
    readf := none
    readFileName := none
    stats.currentSize := L'.currentSize
    stats.filesDestroyed := sp.stats.filesDestroyed + 1 }
  have removed : removeReadPartition sp = some sq := by
    rw [R.removeReadPartition_eq V, hrest, ← hsize]
    rfl
  have shelf : Shelf sq.disk (L'.segs.map Segment.entry) := by
    have hsegs : L.segs = L.cur :: L'.segs := by simp [Layout.segs, hrest]
    exact (R.shelf V).sublist (List.Sublist.map _ (hsegs ▸ List.sublist_cons_self _ _))
  have after : sq.readPos < L'.cur.pos := by
    rw [show sq.readPos = L.cur.pos from R.readPos]
    exact V.after_cur (by simp [hrest])
  have off : L'.readOff = headerSize := by
    have : L'.cur.done = [] := V.begins _ (by simp [hrest])
    simp [Layout.readOff, htorn, this]
  rw [removed, Option.bind_some,
    shelf.incrementRead_eq after (V'.fits _ Layout.cur_mem_all).2.2]
  refine ⟨_, rfl, rfl, files, ?_, ?_, ?_, ?_, rfl, ?_, rfl, ?_, ?_, rfl⟩
  · rw [hnext]; exact R.next
  · rw [hwriter]; exact R.writePos
  · rw [hwriter]; exact R.writef
  · rw [hwriter]; exact R.writeFileName
  · rw [off, heof]; rfl
  · rw [hmax]; exact R.maxPartitionSize
  · rw [hparts]; exact R.maxPartitions

/-- No later partition is left in the directory. -/
theorem leave_none (R : Represents L sp) (V : L.Valid) (h : L.leave = none) :
    (removeReadPartition sp).bind (incrementReadSpoolPartition lo) = none := by
  have rest : L.rest = [] := by
    unfold Layout.leave at h
    split at h
    · assumption
    · cases h
  have removed := R.removeReadPartition_eq V
  have shelf : Shelf { sp.disk with dir := (L.rest.map Segment.entry).map entryOf }
      (L.rest.map Segment.entry) :=
    (R.shelf V).sublist (List.Sublist.map _ (List.sublist_cons_self _ _))
  rw [removed, Option.bind_some]
  exact Shelf.incrementRead_none shelf (by simp [rest])

theorem take (R : Represents L sp) (V : L.Valid) {r : Record} {todo : List Record}
    (h : L.cur.todo = r :: todo) {files : Nat → Bytes}
    (hfiles : files = Function.update sp.disk.files L.cur.file L.cur.take.content)
    (eventsRead : UInt64) : Represents L.take { sp with
      disk := { sp.disk with files }
      readf := some { file := L.cur.file, off := L.take.readOff, eof := L.eof }
      stats := { sp.stats with eventsRead } } := by
  obtain ⟨hpos, hfile, hlen⟩ := Layout.take_writer h
  have apart : ∀ s ∈ L.rest ++ L.lost.toList, s.file ≠ L.cur.file :=
    fun s hs => ((List.pairwise_cons.mp V.apart).1 s hs).symm
  constructor
  · rw [show L.take.segs.map Segment.entry = L.segs.map Segment.entry by
      simp [Layout.segs, Layout.take, Segment.entry]]
    exact R.dir
  · intro s hs
    obtain rfl | hs := List.mem_cons.mp hs
    · simp [hfiles, Layout.take]
    · simp only [hfiles, Function.update_of_ne (apart s hs)]
      exact R.files s (List.mem_cons_of_mem _ hs)
  · exact R.next
  · rw [hpos]; exact R.writePos
  · rw [hfile, hlen]; exact R.writef
  · rw [hpos]; exact R.writeFileName
  · simpa [Layout.take] using R.readPos
  · simp [Layout.take]
  · simpa [Layout.take] using R.readFileName
  · exact R.maxPartitionSize
  · exact R.maxPartitions
  · exact R.currentSize

/-- The stream behind the count of the event that the reader comes to. -/
def afterCount (L : Layout) : Stream := { file := L.cur.file, off := L.readOff + 2, eof := false }

theorem fread_count (R : Represents L sp) (V : L.Valid) {r : Record} {todo : List Record}
    (h : L.cur.todo = r :: todo) (hEof : L.eof = false) :
    sp.disk.fread { file := L.cur.file, off := L.readOff, eof := L.eof } 2 =
      (encode 2 (countWord r.visited r.parts.length), afterCount L) := by
  have content := R.curContent
  rw [Segment.content_of_todo h, Record.bytes, encodeEvent] at content
  have := @fread_full sp.disk { file := L.cur.file, off := L.readOff, eof := L.eof }
    (header ++ encodeAll L.cur.done) (encode 2 (countWord r.visited r.parts.length))
    (encodeParts r.parts ++ (encodeAll todo ++ L.cur.torn))
    (by rw [content]; simp) (Layout.take_readOff V h).1 hEof
  simpa [afterCount, hEof] using this

theorem content_after_count (R : Represents L sp) (V : L.Valid) {r : Record} {todo : List Record}
    (h : L.cur.todo = r :: todo) : ∃ before after,
      sp.disk.files (afterCount L).file = before ++ encodeParts r.parts ++ after ∧
      (afterCount L).off = before.length ∧
      L.take.readOff = (afterCount L).off + (encodeParts r.parts).length := by
  have content := R.curContent
  rw [Segment.content_of_todo h, Record.bytes, encodeEvent] at content
  obtain ⟨off, off'⟩ := Layout.take_readOff V h
  refine ⟨header ++ encodeAll L.cur.done ++ encode 2 (countWord r.visited r.parts.length),
    encodeAll todo ++ L.cur.torn, ?_, ?_, ?_⟩
  · simp [afterCount, content]
  · simp [afterCount, off, Nat.add_assoc]
  · rw [off', Record.bytes_length]
    simp [afterCount, Nat.add_assoc]

theorem fastForward_visited (R : Represents L sp) (V : L.Valid) {r : Record} {todo : List Record}
    (h : L.cur.todo = r :: todo) :
    fastForward sp.disk r.parts.length (afterCount L) =
      ({ file := L.cur.file, off := L.take.readOff, eof := false }, true) := by
  obtain ⟨before, after, content, off, off'⟩ := R.content_after_count V h
  rw [fastForward_event r.wf.2.2 content off rfl, off']
  rfl

theorem readParts_unread (R : Represents L sp) (V : L.Valid) {r : Record} {todo : List Record}
    (h : L.cur.todo = r :: todo) :
    readParts sp.disk r.parts.length (afterCount L) =
      ({ file := L.cur.file, off := L.take.readOff, eof := false }, some r.parts) := by
  obtain ⟨before, after, content, off, off'⟩ := R.content_after_count V h
  rw [readParts_event r.wf.2.2 content off rfl, off']
  rfl

/-- The offset of the reader before the beginning of an event. -/
theorem readOff_torn (h : L.atEnd = false) (htodo : L.cur.todo = []) :
    L.cur.torn ≠ [] ∧ L.eof = false ∧ L.tornRead = false ∧
      L.readOff = (header ++ encodeAll L.cur.done).length ∧
      L.cur.content = header ++ encodeAll L.cur.done ++ L.cur.torn := by
  simp only [Layout.atEnd, htodo, List.isEmpty_nil, Bool.true_and, Bool.or_eq_false_iff,
    List.isEmpty_eq_false_iff] at h
  obtain ⟨hEof, htorn, hne⟩ := h
  exact ⟨hne, hEof, htorn, by simp [Layout.readOff, htorn], by simp [Segment.content, htodo]⟩

theorem count_torn (hne : L.cur.torn ≠ []) (htodo : L.cur.todo = []) :
    ∃ parts more missing, WellFormed parts ∧
      L.cur.torn = encode 2 (countWord false parts.length) ++ more ∧
      encodeParts parts = more ++ missing ∧ missing ≠ [] ∧ L.count = parts.length := by
  obtain ⟨parts, more, missing, wf, bytes, cut, missing_ne⟩ :=
    (L.cur.tornOk.resolve_left hne).split
  refine ⟨parts, more, missing, wf, bytes, cut, missing_ne, ?_⟩
  have : L.cur.torn.take 2 = encode 2 (countWord false parts.length) := by simp [bytes]
  simp only [Layout.count, htodo, this, decode_countWord wf]
  exact eventMsgCount_countWord wf false

/-- Of a torn event the count is there, and not all of the parts. -/
theorem read_torn (R : Represents L sp) (h : L.atEnd = false) (htodo : L.cur.todo = []) :
    sp.disk.fread { file := L.cur.file, off := L.readOff, eof := L.eof } 2 =
        (encode 2 L.count, afterCount L) ∧
      0 < L.count ∧ L.count ≤ maxMsgCount ∧
      readParts sp.disk L.count (afterCount L) =
        ({ file := L.cur.file, off := L.cur.content.length, eof := true }, none) := by
  obtain ⟨hne, hEof, htorn, off, hcontent⟩ := readOff_torn h htodo
  obtain ⟨parts, more, missing, wf, bytes, cut, missing_ne, count⟩ := count_torn hne htodo
  have content := R.curContent
  rw [hcontent, bytes] at content
  refine ⟨?_, count ▸ wf.1, count ▸ wf.2.1, ?_⟩
  · have := @fread_full sp.disk { file := L.cur.file, off := L.readOff, eof := L.eof }
      (header ++ encodeAll L.cur.done) (encode 2 (countWord false parts.length)) more
      (by rw [content]; simp) off hEof
    simpa [afterCount, hEof, count, countWord] using this
  · have := @readParts_torn sp.disk (afterCount L)
      (header ++ encodeAll L.cur.done ++ encode 2 (countWord false parts.length)) parts more
      missing wf.2.2 cut missing_ne (by simp [afterCount, content])
      (by simp [afterCount, off, Nat.add_assoc]) rfl
    rw [count, this, hcontent, bytes]
    simp [afterCount, off, Nat.add_assoc]

end Represents

/-! ## The loop of the reader -/

/-- The reader has come to an event that has not been read. -/
def Layout.AtUnread (L : Layout) : Prop :=
  L.atEnd = false ∧ ∀ r ∈ L.cur.todo.head?, r.visited = false

/-- How `advance_to_next_unvisited` ends. -/
structure CameTo (a : Nat × Layout) (b : Nat × Spool) : Prop where
  count : a.1 = b.1
  valid : a.2.Valid
  nothing : a.1 = 0 → Represents a.2 b.2
  event : 0 < a.1 → a.2.AtUnread ∧ a.1 = a.2.count ∧ ∃ sp, Represents a.2 sp ∧
    b.2 = { sp with readf := some (Represents.afterCount a.2) }

section
variable {L : Layout} {sp : Spool} {lo : ListingOrder}

theorem round_at_end (R : Represents L sp) (V : L.Valid) (h : L.atEnd = true) :
    Option.Rel (Sum.LiftRel (fun L sp => Represents L sp ∧ L.Valid) CameTo) L.round
      (advanceRound lo sp) := by
  let L' : Layout := { L with eof := true }
  let sp' : Spool := { sp with
    readf := some { file := L.cur.file, off := L.readOff, eof := true } }
  have R' : Represents L' sp' := R.moveReader rfl rfl rfl rfl ⟨rfl, rfl, rfl⟩
  have V' : L'.Valid := V.setEof true
  have compare : compareWriteToRead sp' = some L.compare := R'.compare
  have hround : advanceRound lo sp = if L.compare > 0 then
      ((removeReadPartition sp').bind (incrementReadSpoolPartition lo)).bind fun a =>
        if a.2 then some (.inl a.1) else some (.inr (0, a.1))
      else some (.inr (0, sp')) := by
    simp only [advanceRound, R.readf, Option.bind_eq_bind, Option.bind_some, R.fread_end h,
      List.length_nil, ↓reduceIte, Option.bind_assoc]
    change (compareWriteToRead sp').bind _ = _
    rw [compare]
    rfl
  rw [hround, Layout.round, if_pos h]
  split
  · cases hleave : L.leave with
    | none =>
      rw [R'.leave_none V' hleave]
      exact .none
    | some M =>
      obtain ⟨sq, hsq, RM⟩ := @Represents.leave_some L' sp' lo R' V' M hleave
      rw [hsq]
      exact .some (.inl ⟨RM, V.leave hleave⟩)
  · exact .some (.inr ⟨rfl, V', fun _ => R', by simp⟩)

/-- A round that finds a message count. -/
theorem advanceRound_word {f g : Stream} {bytes : Bytes} (hf : sp.readf = some f)
    (read : sp.disk.fread f 2 = (bytes, g)) (two : bytes.length = 2) :
    advanceRound lo sp =
      if eventIsVisited (decode bytes) then
        let (f, ok) := fastForward sp.disk (eventMsgCount (decode bytes)) g
        if ok then some (.inl { sp with readf := some f })
        else some (.inr (0, { sp with readf := some f }))
      else some (.inr (eventMsgCount (decode bytes), { sp with readf := some g })) := by
  simp only [advanceRound, hf, read, two, Option.bind_eq_bind, Option.bind_some,
    Nat.reduceEqDiff, Nat.lt_irrefl, ↓reduceIte]

theorem round_in_middle (R : Represents L sp) (V : L.Valid) (h : L.atEnd = false) :
    Option.Rel (Sum.LiftRel (fun L sp => Represents L sp ∧ L.Valid) CameTo) L.round
      (advanceRound lo sp) := by
  have hEof : L.eof = false := by
    simp only [Layout.atEnd, Bool.or_eq_false_iff] at h
    exact h.1
  have came : 0 < L.count → (∀ r ∈ L.cur.todo.head?, r.visited = false) →
      CameTo (L.count, L)
        (L.count, { sp with readf := some (Represents.afterCount L) }) := by
    intro pos unread
    exact ⟨rfl, V, fun h0 => absurd h0 (Nat.ne_of_gt pos), fun _ => ⟨⟨h, unread⟩, rfl, sp, R, rfl⟩⟩
  rw [Layout.round, if_neg (by simp [h])]
  cases htodo : L.cur.todo with
  | nil =>
    obtain ⟨read, pos, small, _⟩ := R.read_torn h htodo
    have word : decode (encode 2 L.count) = L.count := by
      refine LittleEndian.decode_encode (Nat.lt_of_le_of_lt small ?_)
      decide
    have plain : eventIsVisited L.count = false ∧ eventMsgCount L.count = L.count := by
      simp only [maxMsgCount, eventIsVisited, eventMsgCount, decide_eq_false_iff_not] at small ⊢
      omega
    have hround : advanceRound lo sp =
        some (.inr (L.count, { sp with readf := some (Represents.afterCount L) })) := by
      rw [advanceRound_word R.readf read (by simp), word, plain.2]
      simp [plain.1]
    rw [hround]
    exact .some (.inr (came pos (by simp [htodo])))
  | cons r todo =>
    have count : L.count = r.parts.length := by simp [Layout.count, htodo]
    have read := R.fread_count V htodo hEof
    have visited := eventIsVisited_countWord r.wf r.visited
    cases hv : r.visited with
    | false =>
      rw [hv] at read visited
      have hround : advanceRound lo sp =
          some (.inr (L.count, { sp with readf := some (Represents.afterCount L) })) := by
        rw [advanceRound_word R.readf read (by simp), decode_countWord r.wf,
          eventMsgCount_countWord r.wf, count]
        simp [visited]
      rw [hround]
      simp only [hv, Bool.false_eq_true, ↓reduceIte]
      exact .some (.inr (came (count ▸ r.wf.1) (by simpa [htodo] using hv)))
    | true =>
      rw [hv] at read visited
      have same : sp.disk.files =
          Function.update sp.disk.files L.cur.file L.cur.take.content := by
        rw [Segment.take_content_of_visited htodo hv, ← R.curContent, Function.update_eq_self]
      have hround : advanceRound lo sp = some (.inl { sp with
          readf := some { file := L.cur.file, off := L.take.readOff, eof := L.eof } }) := by
        rw [advanceRound_word R.readf read (by simp), decode_countWord r.wf,
          eventMsgCount_countWord r.wf, R.fastForward_visited V htodo]
        simp [visited, hEof]
      rw [hround]
      simp only [hv, ↓reduceIte]
      exact .some (.inl ⟨R.take V htodo same sp.stats.eventsRead, V.take⟩)

theorem advance_refines (R : Represents L sp) (V : L.Valid) (rounds : Nat) :
    Option.Rel CameTo (Loop.run Layout.round rounds L) (advanceToNextUnvisited lo rounds sp) := by
  refine Loop.run_rel (fun L sp => Represents L sp ∧ L.Valid) CameTo ?_ rounds ⟨R, V⟩
  intro L sp ⟨R, V⟩
  cases h : L.atEnd with
  | true => exact round_at_end R V h
  | false => exact round_in_middle R V h

/-- The same result, and a layout of the spool. -/
structure SamePop (a : Layout × Rc × List Bytes) (b : Spool × Rc × List Bytes) : Prop where
  represents : Represents a.1 b.1
  valid : a.1.Valid
  result : a.2 = b.2

/-- The count of the event is written over with the visited bit. -/
theorem overwrite_count (V : L.Valid) {r : Record} {todo : List Record}
    (h : L.cur.todo = r :: todo) (hv : r.visited = false) :
    Disk.overwrite L.cur.content L.readOff (encode 2 (setVisited r.parts.length)) =
      L.cur.take.content := by
  have visited : r.visit.bytes = encode 2 (setVisited r.parts.length) ++ encodeParts r.parts := rfl
  rw [Segment.content_of_todo h, Segment.take_content h, (Layout.take_readOff V h).1, visited,
    Record.bytes, encodeEvent, hv]
  have := overwrite_middle (header ++ encodeAll L.cur.done)
    (encode 2 (countWord false r.parts.length))
    (encodeParts r.parts ++ (encodeAll todo ++ L.cur.torn))
    (encode 2 (setVisited r.parts.length)) (by simp)
  simpa using this

theorem readEvent_refines (R : Represents L sp) (V : L.Valid) (h : L.AtUnread) :
    ∃ b, popEvent { sp with readf := some (Represents.afterCount L) } L.count = some b ∧
      SamePop L.readEvent b := by
  obtain ⟨middle, unread⟩ := h
  have hEof : L.eof = false := by
    simp only [Layout.atEnd, Bool.or_eq_false_iff] at middle
    exact middle.1
  cases htodo : L.cur.todo with
  | nil =>
    obtain ⟨_, _, _, parts⟩ := R.read_torn middle htodo
    obtain ⟨torn, _⟩ := Represents.readOff_torn middle htodo
    have hread : L.readEvent = ({ L with tornRead := true, eof := true }, .readError, []) := by
      simp [Layout.readEvent, htodo]
    rw [hread]
    refine ⟨_, by simp only [popEvent, Option.bind_eq_bind, Option.bind_some, parts]; rfl, ?_, ?_,
      rfl⟩
    · exact R.moveReader rfl rfl rfl rfl ⟨rfl, rfl, rfl⟩
    · exact ⟨V.apart, V.order, V.fits, V.fresh, V.begins, fun _ => ⟨htodo, torn⟩⟩
  | cons r todo =>
    have hv : r.visited = false := unread r (by simp [htodo])
    have count : L.count = r.parts.length := by simp [Layout.count, htodo]
    have hread : L.readEvent = (L.take, .noError, r.parts) := by simp [Layout.readEvent, htodo]
    have off : (Represents.afterCount L).off - 2 = L.readOff := rfl
    rw [hread, count]
    refine ⟨_, by simp only [popEvent, Option.bind_eq_bind, Option.bind_some,
      R.readParts_unread V htodo, off, Stream.seek, Disk.fwrite]; rfl, ?_, V.take, rfl⟩
    have files := overwrite_count V htodo hv
    rw [← R.curContent] at files
    simp only [files]
    have := R.take V htodo rfl (sp.stats.eventsRead + 1)
    rwa [hEof] at this

theorem popNothing_refines (R : Represents L sp) (V : L.Valid) :
    ∃ b, popNothing sp = some b ∧ SamePop L.popNothing b := by
  refine ⟨(sp, L.popNothing.2), ?_, R, V, rfl⟩
  simp only [popNothing, R.readPos, R.writePos, R.readf, R.writef, Layout.popNothing]
  by_cases hpos : L.cur.pos = L.writer.pos
  · simp [hpos]
  · simp [hpos]

/-- A pop of the spool is a pop of its layout. -/
theorem pop_refines (R : Represents L sp) (V : L.Valid) (rounds : Nat) (signaled : Bool) :
    Option.Rel SamePop (L.pop rounds) (spoolPop lo rounds signaled sp) := by
  unfold Layout.pop spoolPop
  simp only [R.compare, Option.bind_eq_bind, Option.bind_some]
  by_cases hcompare : L.compare > 0
  · rw [if_pos hcompare, if_pos (by simp [hcompare]), if_neg (by omega)]
    rw [Option.map_eq_bind]
    apply Loop.rel_bind (advance_refines R V rounds)
    rintro ⟨n, M⟩ ⟨m, sq⟩ ⟨rfl : n = m, VM, nothing, event⟩
    by_cases hn : n > 0
    · obtain ⟨unread, rfl : n = M.count, sr, RM, rfl : sq = _⟩ := event hn
      obtain ⟨b, hb, same⟩ := readEvent_refines RM VM unread
      simp only [Function.comp_apply, hn, ↓reduceIte, hb]
      exact .some same
    · obtain ⟨b, hb, same⟩ := popNothing_refines (nothing (by omega)) VM
      simp only [Function.comp_apply, hn, ↓reduceIte, hb]
      exact .some same
  · have : SamePop (L, .timedOut, []) (sp, .timedOut, []) := ⟨R, V, rfl⟩
    rw [if_neg hcompare]
    split
    · rw [if_pos (by omega)]
      exact .some this
    · exact .some this

end

end Yella
