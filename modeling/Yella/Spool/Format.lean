import Yella.Spool.Model

/-!
# Events in a partition

How an event stands in a partition file, and what the loops of the reader make of it.
-/

namespace Yella

open LittleEndian (encode decode)

/-- An event that the format can hold. -/
def WellFormed (parts : List Bytes) : Prop :=
  0 < parts.length ∧ parts.length ≤ maxMsgCount ∧ ∀ part ∈ parts, part.length < 0x100000000

def encodeParts (parts : List Bytes) : Bytes :=
  parts.flatMap fun part => encode 4 part.length ++ part

def countWord (visited : Bool) (count : Nat) : Nat := if visited then setVisited count else count

def encodeEvent (visited : Bool) (parts : List Bytes) : Bytes :=
  encode 2 (countWord visited parts.length) ++ encodeParts parts

section
variable {parts : List Bytes}

theorem countWord_lt (h : WellFormed parts) (visited : Bool) :
    countWord visited parts.length < LittleEndian.capacity 2 := by
  have := h.2.1
  have : LittleEndian.capacity 2 = 0x10000 := rfl
  cases visited <;> simp only [countWord, setVisited, maxMsgCount, Bool.false_eq_true,
    ↓reduceIte] at * <;> omega

theorem decode_countWord (h : WellFormed parts) (visited : Bool) :
    decode (encode 2 (countWord visited parts.length)) = countWord visited parts.length :=
  LittleEndian.decode_encode (countWord_lt h visited)

theorem eventIsVisited_countWord (h : WellFormed parts) (visited : Bool) :
    eventIsVisited (countWord visited parts.length) = visited := by
  have := h.2.1
  cases visited <;> simp only [eventIsVisited, countWord, setVisited, maxMsgCount,
    Bool.false_eq_true, ↓reduceIte, decide_eq_true_eq, decide_eq_false_iff_not] at * <;> omega

theorem eventMsgCount_countWord (h : WellFormed parts) (visited : Bool) :
    eventMsgCount (countWord visited parts.length) = parts.length := by
  have := h.2.1
  cases visited <;> simp only [eventMsgCount, countWord, setVisited, maxMsgCount,
    Bool.false_eq_true, ↓reduceIte] at * <;> omega

theorem encodeEvent_length (visited : Bool) (parts : List Bytes) :
    (encodeEvent visited parts).length = 2 + (encodeParts parts).length := by
  simp [encodeEvent]

theorem decode_partLength {part : Bytes} (h : part.length < 0x100000000) :
    decode (encode 4 part.length) = part.length :=
  LittleEndian.decode_encode h

theorem encodeParts_cons (part : Bytes) (parts : List Bytes) :
    encodeParts (part :: parts) = encode 4 part.length ++ part ++ encodeParts parts := by
  simp [encodeParts]

/-- The pieces that are written for an event are the event. -/
theorem eventChunks_flatten (h : WellFormed parts) :
    (eventChunks parts).flatten = encodeEvent false parts := by
  have count : parts.length % 0x10000 = parts.length := by
    have := h.2.1
    simp only [maxMsgCount] at this
    omega
  have pieces : ∀ ps : List Bytes, (∀ p ∈ ps, p.length < 0x100000000) →
      (ps.flatMap fun p => [encode 4 (p.length % 0x100000000),
        p.take (p.length % 0x100000000)]).flatten = encodeParts ps := by
    intro ps hps
    induction ps with
    | nil => rfl
    | cons p ps ih =>
      rw [List.forall_mem_cons] at hps
      simp [encodeParts_cons, Nat.mod_eq_of_lt hps.1, ih hps.2]
  simp [eventChunks, encodeEvent, countWord, count, pieces parts h.2.2]

end

/-- The parts as they are written: as many bytes as the 32-bit length says. -/
def storedParts (msgs : List Bytes) : List Bytes :=
  msgs.map fun msg => msg.take (msg.length % 0x100000000)

theorem storedParts_length (msgs : List Bytes) : (storedParts msgs).length = msgs.length := by
  simp [storedParts]

theorem storedParts_of_wellFormed {msgs : List Bytes} (h : WellFormed msgs) :
    storedParts msgs = msgs := by
  refine (List.map_congr_left fun msg hmsg => ?_).trans (List.map_id _)
  rw [Nat.mod_eq_of_lt (h.2.2 msg hmsg), List.take_length]
  rfl

theorem storedPart_length (msg : Bytes) :
    (msg.take (msg.length % 0x100000000)).length = msg.length % 0x100000000 := by
  rw [List.length_take]
  exact Nat.min_eq_left (Nat.mod_le _ _)

theorem wellFormed_stored {msgs : List Bytes} (some : 0 < msgs.length)
    (few : msgs.length ≤ maxMsgCount) : WellFormed (storedParts msgs) := by
  refine ⟨by simpa [storedParts] using some, by simpa [storedParts] using few, fun part hpart => ?_⟩
  obtain ⟨msg, _, rfl⟩ := List.mem_map.mp hpart
  rw [storedPart_length]
  exact Nat.mod_lt _ (by decide)

theorem eventChunks_stored (msgs : List Bytes) :
    eventChunks (storedParts msgs) = eventChunks msgs := by
  have pieces : (storedParts msgs).flatMap (fun msg =>
        [encode 4 (msg.length % 0x100000000), msg.take (msg.length % 0x100000000)]) =
      msgs.flatMap fun msg =>
        [encode 4 (msg.length % 0x100000000), msg.take (msg.length % 0x100000000)] := by
    rw [storedParts, List.flatMap_map]
    refine congrArg (fun f => List.flatMap f msgs) (funext fun msg => ?_)
    rw [storedPart_length, Nat.mod_mod, List.take_take, Nat.min_self]
  rw [eventChunks, eventChunks, pieces, storedParts_length]

/-- The bytes of an event in its partition. -/
def eventSize (msgs : List Bytes) : Nat := (eventChunks msgs).flatten.length

theorem eventSize_eq {msgs : List Bytes} (wf : WellFormed (storedParts msgs)) :
    eventSize msgs = (encodeEvent false (storedParts msgs)).length := by
  rw [eventSize, ← eventChunks_stored, eventChunks_flatten wf]

/-! ## Reading -/

/-- Two ways to cut a list in two, the second one further on. -/
theorem append_eq_append_of_le {α : Type} {a b c d : List α} (h : a ++ b = c ++ d)
    (le : a.length ≤ c.length) : ∃ e, c = a ++ e ∧ b = e ++ d := by
  obtain ⟨e, hc, hb⟩ | ⟨e, ha, hd⟩ := List.append_eq_append_iff.mp h
  · exact ⟨e, hc, hb⟩
  · have : e = [] := by
      have := congrArg List.length ha
      rw [List.length_append] at this
      exact List.length_eq_zero_iff.mp (by omega)
    subst this
    exact ⟨[], by simpa using ha.symm, by simpa using hd.symm⟩

section
variable {d : Disk} {f : Stream} {before : Bytes}

/-- Reading bytes that are there. -/
theorem fread_full {bytes after : Bytes} (content : d.files f.file = before ++ bytes ++ after)
    (off : f.off = before.length) (noEof : f.eof = false) :
    d.fread f bytes.length = (bytes, { f with off := f.off + bytes.length }) := by
  simp [Disk.fread, content, off, noEof]

/-- Reading past the end of the file. -/
theorem fread_short {bytes : Bytes} {n : Nat} (content : d.files f.file = before ++ bytes)
    (off : f.off = before.length) (noEof : f.eof = false) (short : bytes.length < n) :
    d.fread f n = (bytes, { f with off := f.off + bytes.length, eof := true }) := by
  simp [Disk.fread, content, off, noEof, List.take_of_length_le (Nat.le_of_lt short), short]

theorem fread_eof {n : Nat} (eof : f.eof = true) : d.fread f n = ([], f) := by
  simp [Disk.fread, eof]

theorem fastForward_event {parts : List Bytes} {after : Bytes}
    (wf : ∀ part ∈ parts, part.length < 0x100000000)
    (content : d.files f.file = before ++ encodeParts parts ++ after)
    (off : f.off = before.length) (noEof : f.eof = false) :
    fastForward d parts.length f =
      ({ f with off := f.off + (encodeParts parts).length }, true) := by
  induction parts generalizing f before with
  | nil => simp [fastForward, encodeParts]
  | cons part parts ih =>
    rw [List.forall_mem_cons] at wf
    rw [encodeParts_cons] at content ⊢
    have size : d.fread f 4 = (encode 4 part.length, { f with off := f.off + 4 }) := by
      have := @fread_full d f before (encode 4 part.length) (part ++ encodeParts parts ++ after)
        (by simp [content]) off noEof
      simpa using this
    have rest := @ih { f with off := f.off + 4 + part.length, eof := false }
      (before ++ encode 4 part.length ++ part) wf.2 (by simp [content])
      (by simp [off]; omega) rfl
    simp only [List.length_cons, fastForward, size, LittleEndian.encode_length, Nat.lt_irrefl,
      ↓reduceIte, decode_partLength wf.1, Stream.seek, rest, List.length_append]
    simp only [noEof, Prod.mk.injEq, Stream.mk.injEq, and_true, true_and]
    omega

theorem readParts_event {parts : List Bytes} {after : Bytes}
    (wf : ∀ part ∈ parts, part.length < 0x100000000)
    (content : d.files f.file = before ++ encodeParts parts ++ after)
    (off : f.off = before.length) (noEof : f.eof = false) :
    readParts d parts.length f =
      ({ f with off := f.off + (encodeParts parts).length }, some parts) := by
  induction parts generalizing f before with
  | nil => simp [readParts, encodeParts]
  | cons part parts ih =>
    rw [List.forall_mem_cons] at wf
    rw [encodeParts_cons] at content ⊢
    have size : d.fread f 4 = (encode 4 part.length, { f with off := f.off + 4 }) := by
      have := @fread_full d f before (encode 4 part.length) (part ++ encodeParts parts ++ after)
        (by simp [content]) off noEof
      simpa using this
    have data : d.fread { f with off := f.off + 4 } part.length =
        (part, { f with off := f.off + 4 + part.length }) :=
      @fread_full d { f with off := f.off + 4 } (before ++ encode 4 part.length) part
        (encodeParts parts ++ after) (by simp [content]) (by simp [off]) noEof
    have rest := @ih { f with off := f.off + 4 + part.length }
      (before ++ encode 4 part.length ++ part) wf.2 (by simp [content])
      (by simp [off]; omega) noEof
    simp only [List.length_cons, readParts, size, LittleEndian.encode_length, ne_eq,
      not_true_eq_false, ↓reduceIte, decode_partLength wf.1, data, rest, List.length_append,
      Option.map_some, Prod.mk.injEq, Stream.mk.injEq, and_true, true_and]
    omega

/-- A read of the parts that runs into the end of the file: the stream stays there. -/
theorem readParts_torn {parts : List Bytes} {bytes missing : Bytes}
    (wf : ∀ part ∈ parts, part.length < 0x100000000)
    (cut : encodeParts parts = bytes ++ missing) (torn : missing ≠ [])
    (content : d.files f.file = before ++ bytes)
    (off : f.off = before.length) (noEof : f.eof = false) :
    readParts d parts.length f = ({ f with off := f.off + bytes.length, eof := true }, none) := by
  induction parts generalizing f before bytes with
  | nil => exact absurd (List.append_eq_nil_iff.mp cut.symm).2 torn
  | cons part parts ih =>
    rw [List.forall_mem_cons] at wf
    rw [encodeParts_cons, List.append_assoc] at cut
    by_cases hsize : bytes.length < 4
    · have size := fread_short content off noEof hsize
      simp [readParts, size, Nat.ne_of_lt hsize]
    · -- the length of the part is there
      obtain ⟨data, rfl, cutData⟩ := append_eq_append_of_le cut (by simpa using hsize)
      have size : d.fread f 4 = (encode 4 part.length, { f with off := f.off + 4 }) := by
        have := @fread_full d f before (encode 4 part.length) data (by simp [content]) off noEof
        simpa using this
      by_cases hdata : data.length < part.length
      · have short := @fread_short d { f with off := f.off + 4 } (before ++ encode 4 part.length)
          data part.length (by simp [content]) (by simp [off]) noEof hdata
        simp only [List.length_cons, readParts, size, LittleEndian.encode_length, ne_eq,
          not_true_eq_false, ↓reduceIte, decode_partLength wf.1, short, Nat.ne_of_lt hdata,
          not_false_eq_true, List.length_append, Prod.mk.injEq, Stream.mk.injEq, and_true,
          true_and]
        omega
      · -- and so is the part
        obtain ⟨more, rfl, cutMore⟩ := append_eq_append_of_le cutData (Nat.not_lt.mp hdata)
        have read : d.fread { f with off := f.off + 4 } part.length =
            (part, { f with off := f.off + 4 + part.length }) :=
          @fread_full d { f with off := f.off + 4 } (before ++ encode 4 part.length) part
            more (by simp [content]) (by simp [off]) noEof
        have rest := @ih { f with off := f.off + 4 + part.length }
          (before ++ encode 4 part.length ++ part) more wf.2 cutMore (by simp [content])
          (by simp [off]; omega) noEof
        simp only [List.length_cons, readParts, size, LittleEndian.encode_length, ne_eq,
          not_true_eq_false, ↓reduceIte, decode_partLength wf.1, read, rest, Option.map_none,
          List.length_append, Prod.mk.injEq, Stream.mk.injEq, and_true, true_and]
        omega

end

end Yella
