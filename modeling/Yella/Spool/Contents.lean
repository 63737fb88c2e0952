import Yella.Spool.Layout

/-!
# The events on disk

The events that a partition holds, read off its bytes.
-/

namespace Yella

open LittleEndian (encode decode)

/-- The parts of an event, and what follows them. -/
def parseParts : Nat → Bytes → Option (List Bytes × Bytes)
  | 0, bytes => some ([], bytes)
  | n + 1, bytes =>
    let size := decode (bytes.take 4)
    if bytes.length < 4 + size then none
    else
      (parseParts n (bytes.drop (4 + size))).map fun (parts, rest) =>
        ((bytes.drop 4).take size :: parts, rest)

/-- An event, with its visited bit. -/
def parseEvent (bytes : Bytes) : Option ((Bool × List Bytes) × Bytes) :=
  let word := decode (bytes.take 2)
  if bytes.length < 2 then none
  else
    (parseParts (eventMsgCount word) (bytes.drop 2)).map fun (parts, rest) =>
      ((eventIsVisited word, parts), rest)

/-- The events one after the other, and what is left at the end. -/
def parseEvents : Nat → Bytes → List (Bool × List Bytes) × Bytes
  | 0, bytes => ([], bytes)
  | fuel + 1, bytes =>
    match parseEvent bytes with
    | none => ([], bytes)
    | some (event, rest) =>
      let (events, rest) := parseEvents fuel rest
      (event :: events, rest)

def partitionEvents (content : Bytes) : List (Bool × List Bytes) × Bytes :=
  parseEvents content.length (content.drop headerSize)

/-- The events in the directory that are not marked as visited. -/
def unvisitedEvents (disk : Disk) : List (List Bytes) :=
  disk.dir.flatMap fun e =>
    ((partitionEvents (disk.files e.2)).1.filter (fun event => !event.1)).map Prod.snd

theorem parseParts_encode {parts : List Bytes} (rest : Bytes)
    (small : ∀ part ∈ parts, part.length < 0x100000000) :
    parseParts parts.length (encodeParts parts ++ rest) = some (parts, rest) := by
  induction parts with
  | nil => rfl
  | cons part parts ih =>
    rw [List.forall_mem_cons] at small
    have size : decode ((encodeParts (part :: parts) ++ rest).take 4) = part.length := by
      rw [encodeParts_cons, List.append_assoc, List.append_assoc,
        List.take_append_of_le_length (by simp), List.take_of_length_le (by simp)]
      exact decode_partLength small.1
    have after : (encodeParts (part :: parts) ++ rest).drop 4 =
        part ++ (encodeParts parts ++ rest) := by
      simp [encodeParts_cons]
    have enough : ¬ (encodeParts (part :: parts) ++ rest).length < 4 + part.length := by
      simp [encodeParts_cons]
    simp only [List.length_cons, parseParts, size, if_neg enough, ← List.drop_drop, after,
      List.drop_left, List.take_left, ih small.2, Option.map_some]

/-- Of a torn event not all of the parts are there. -/
theorem parseParts_torn {parts : List Bytes} {bytes missing : Bytes}
    (small : ∀ part ∈ parts, part.length < 0x100000000)
    (cut : encodeParts parts = bytes ++ missing) (torn : missing ≠ []) :
    parseParts parts.length bytes = none := by
  induction parts generalizing bytes with
  | nil => exact absurd (List.append_eq_nil_iff.mp cut.symm).2 torn
  | cons part parts ih =>
    rw [List.forall_mem_cons] at small
    rw [encodeParts_cons, List.append_assoc] at cut
    simp only [List.length_cons, parseParts]
    split
    · rfl
    · rename_i enough
      obtain ⟨data, rfl, cutData⟩ := append_eq_append_of_le cut (by simp; omega)
      have size : decode ((encode 4 part.length ++ data).take 4) = part.length := by
        rw [List.take_append_of_le_length (by simp), List.take_of_length_le (by simp)]
        exact decode_partLength small.1
      rw [size] at enough ⊢
      obtain ⟨more, rfl, cutMore⟩ := append_eq_append_of_le cutData (by simp at enough; omega)
      rw [← List.drop_drop, List.drop_left' (by simp), List.drop_left, ih small.2 cutMore]
      rfl

theorem parseEvent_bytes (r : Record) (rest : Bytes) :
    parseEvent (r.bytes ++ rest) = some ((r.visited, r.parts), rest) := by
  have word : decode ((r.bytes ++ rest).take 2) = countWord r.visited r.parts.length := by
    rw [Record.bytes, encodeEvent, List.append_assoc, List.take_append_of_le_length (by simp),
      List.take_of_length_le (by simp)]
    exact decode_countWord r.wf r.visited
  have after : (r.bytes ++ rest).drop 2 = encodeParts r.parts ++ rest := by
    simp [Record.bytes, encodeEvent]
  have enough : ¬ (r.bytes ++ rest).length < 2 := by
    simp only [List.length_append, Record.bytes_length]
    omega
  simp only [parseEvent, word, if_neg enough, after, eventMsgCount_countWord r.wf,
    eventIsVisited_countWord r.wf, parseParts_encode rest r.wf.2.2, Option.map_some]

theorem parseEvent_torn {torn : Bytes} (h : torn = [] ∨ IsTorn torn) : parseEvent torn = none := by
  obtain rfl | h := h
  · rfl
  · obtain ⟨parts, more, missing, wf, rfl, cut, hmissing⟩ := h.split
    have word : decode ((encode 2 (countWord false parts.length) ++ more).take 2) =
        countWord false parts.length := by
      rw [List.take_append_of_le_length (by simp), List.take_of_length_le (by simp)]
      exact decode_countWord wf false
    simp only [parseEvent, word, eventMsgCount_countWord wf]
    rw [List.drop_left' (by simp), parseParts_torn wf.2.2 cut hmissing]
    simp

theorem parseEvents_encode {rs : List Record} {torn : Bytes} (h : torn = [] ∨ IsTorn torn)
    {fuel : Nat} (enough : rs.length ≤ fuel) :
    parseEvents fuel (encodeAll rs ++ torn) = (rs.map (fun r => (r.visited, r.parts)), torn) := by
  induction rs generalizing fuel with
  | nil =>
    cases fuel with
    | zero => rfl
    | succ fuel => simp [parseEvents, parseEvent_torn h]
  | cons r rs ih =>
    cases fuel with
    | zero => cases enough
    | succ fuel =>
      rw [encodeAll_cons, List.append_assoc, parseEvents, parseEvent_bytes]
      simp only [ih (Nat.le_of_succ_le_succ enough), List.map_cons]

theorem encodeAll_length (rs : List Record) : rs.length ≤ (encodeAll rs).length := by
  induction rs with
  | nil => exact Nat.le_refl 0
  | cons r rs ih =>
    rw [encodeAll_cons, List.length_append, Record.bytes_length, List.length_cons]
    omega

theorem Segment.partitionEvents (s : Segment) : partitionEvents s.content =
    ((s.done ++ s.todo).map (fun r => (r.visited, r.parts)), s.torn) := by
  have after : s.content.drop headerSize = encodeAll (s.done ++ s.todo) ++ s.torn := by
    rw [Segment.content, ← header_length, List.drop_left, encodeAll_append, List.append_assoc]
  have enough : (s.done ++ s.todo).length ≤ s.content.length := by
    apply Nat.le_trans (encodeAll_length _)
    rw [s.content_length, encodeAll_append, List.length_append]
    omega
  rw [Yella.partitionEvents, after, parseEvents_encode s.tornOk enough]

/-- What is on disk is what the layout says. -/
theorem Represents.unvisitedEvents {L : Layout} {sp : Spool} (R : Represents L sp) :
    unvisitedEvents sp.disk = L.unread.map Record.parts := by
  have segment : ∀ s ∈ L.segs,
      ((Yella.partitionEvents (sp.disk.files s.file)).1.filter (fun event => !event.1)).map
        Prod.snd = (s.todo.filter (fun r => !r.visited)).map Record.parts := by
    intro s hs
    have done : s.done.filter (fun r => !r.visited) = [] := by
      simpa using s.doneVisited
    rw [R.files s (Layout.mem_all_of_segs hs), s.partitionEvents, List.filter_map, List.map_map,
      List.filter_append]
    simp only [Function.comp_def, done, List.nil_append]
  have all : ∀ ss : List Segment, (∀ s ∈ ss, s ∈ L.segs) →
      (ss.map (entryOf ∘ Segment.entry)).flatMap (fun e =>
        ((Yella.partitionEvents (sp.disk.files e.2)).1.filter (fun event => !event.1)).map
          Prod.snd) =
        ((ss.flatMap Segment.todo).filter (fun r => !r.visited)).map Record.parts := by
    intro ss
    induction ss with
    | nil => intro _; rfl
    | cons s ss ih =>
      intro h
      rw [List.forall_mem_cons] at h
      rw [List.map_cons, List.flatMap_cons, List.flatMap_cons, List.filter_append, List.map_append,
        ih h.2, ← segment s h.1]
      rfl
  rw [Yella.unvisitedEvents, R.dir, List.map_map]
  exact all L.segs fun _ h => h

end Yella
