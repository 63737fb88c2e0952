import Mathlib.Data.List.Perm.Basic
import Yella.CInt
import Yella.Lib.LittleEndian
import Yella.Lib.Loop
import Yella.ReturnCode
import Yella.Spool.Name
import Yella.Spool.Stdio

/-!
# The spool

`spool.c`. A record holds the fields of `spool` together with the disk it works on. A result
of `none` is a failed assertion, a NULL pointer that is read, or a loop that has not ended
within the given rounds.
-/

namespace Yella

open LittleEndian (encode decode)

def spoolId : Nat := 0x9311a59001

def maxMsgCount : Nat := 0x0fff

/-- `sizeof(YELLA_SPOOL_ID)` -/
def headerSize : Nat := 8

def header : Bytes := encode headerSize spoolId

def eventIsVisited (n : Nat) : Bool := n / 0x8000 % 2 = 1

def eventMsgCount (n : Nat) : Nat := n % 0x8000

/-- `n | YELLA_VISITED_BIT` -/
def setVisited (n : Nat) : Nat := n % 0x8000 + 0x8000

structure SpoolStats where
  maxPartitionSize : UInt64
  maxPartitions : UInt64
  currentSize : UInt64
  largestSize : UInt64
  filesCreated : UInt64
  filesDestroyed : UInt64
  bytesCulled : UInt64
  eventsRead : UInt64
  eventsWritten : UInt64
  smallestEventSize : UInt64
  largestEventSize : UInt64
  cullEvents : UInt64
  deriving DecidableEq

/-- `listings` counts the times that the directory has been listed. -/
structure Spool where
  disk : Disk
  listings : Nat
  writePos : SpoolPos
  writef : Option Stream
  readPos : SpoolPos
  readf : Option Stream
  readFileName : Option UStr
  writeFileName : Option UStr
  stats : SpoolStats
  totalEventBytesWritten : UInt64

/-- The order in which the n-th listing of the directory returns its entries. -/
structure ListingOrder where
  order : Nat → List (UStr × Nat) → List (UStr × Nat)
  perm : ∀ n dir, (order n dir).Perm dir

/-- What the file system lets one call do: whether a file can be created, how many bytes
`fwrite` takes (`none`: enough), and how many of the bytes of an event the stream then drops,
because its buffer cannot be written to the file. -/
structure Allowance where
  opens : Bool
  room : Option Nat
  drops : Nat
  deriving DecidableEq

namespace Allowance

def full : Allowance := ⟨true, none, 0⟩

def grant (allow : Allowance) (n : Nat) : Nat :=
  match allow.room with
  | none => n
  | some room => min n room

def spend (allow : Allowance) (n : Nat) : Allowance :=
  { allow with room := allow.room.map (· - n) }

/-- Of the `n` bytes of an event, those that reach the file. -/
def landed (allow : Allowance) (n : Nat) : Nat := allow.grant n - allow.drops

end Allowance

/-! ## Finding partitions -/

def isSpoolFile (content : Bytes) : Bool :=
  (content.take headerSize).length = headerSize && decode (content.take headerSize) = spoolId

/-- One round of the loop of `find_file`. Other files are left where they are: `remove` gets
the UTF-16 name, which does not name them. -/
def findStep (cmp : SpoolPos → SpoolPos → Bool) (files : Nat → Bytes)
    (found : Option UStr × SpoolPos) (entry : UStr × Nat) : Option UStr × SpoolPos :=
  match scanName entry.1 with
  | none => found
  | some pos =>
    if isSpoolFile (files entry.2) && cmp pos found.2 then (some entry.1, pos) else found

section
variable (lo : ListingOrder)

def findFile (sp : Spool) (cmp : SpoolPos → SpoolPos → Bool) (start : SpoolPos) :
    Spool × Option UStr × SpoolPos :=
  ({ sp with listings := sp.listings + 1 },
    (lo.order sp.listings sp.disk.dir).foldl (findStep cmp sp.disk.files) (none, start))

def cmpNewest (foundPos prevPos : SpoolPos) : Bool :=
  foundPos.majorSeq > prevPos.majorSeq ||
    (foundPos.majorSeq = prevPos.majorSeq && foundPos.minorSeq > prevPos.minorSeq)

def findNewestFile (sp : Spool) : Spool × Option UStr × SpoolPos :=
  findFile lo sp cmpNewest ⟨0, 0⟩

def cmpOldest (readPos foundPos prevPos : SpoolPos) : Bool :=
  (foundPos.majorSeq < prevPos.majorSeq ||
      (foundPos.majorSeq = prevPos.majorSeq && foundPos.minorSeq < prevPos.minorSeq)) &&
    (foundPos.majorSeq > readPos.majorSeq ||
      (foundPos.majorSeq = readPos.majorSeq && foundPos.minorSeq > readPos.minorSeq))

def findOldestFile (sp : Spool) : Spool × Option UStr × SpoolPos :=
  findFile lo sp (cmpOldest sp.readPos) ⟨0xffffffff, 0xffffffff⟩

/-! ## Writing -/

/-- One `fwrite` on `writef`, with the number of bytes that it takes. -/
def writeOut (sp : Spool) (allow : Allowance) (bytes : Bytes) :
    Option (Spool × Allowance × Nat) := do
  let f ← sp.writef
  let n := allow.grant bytes.length
  let (disk, f) := sp.disk.fwrite f (bytes.take n)
  some ({ sp with disk, writef := some f }, allow.spend n, n)

/-- The stream drops the last of what it has taken from `start` on, where `fwrite` or `fflush`
cannot write the buffer. -/
def dropUnwritten (sp : Spool) (allow : Allowance) (start : Nat) : Option Spool := do
  let f ← sp.writef
  let off := max start (f.off - allow.drops)
  some { sp with disk := sp.disk.cut f.file off, writef := some { f with off } }

/-- With `false` when the partition cannot be created or its id not be written or flushed. -/
def incrementWriteSpoolPartition (sp : Spool) (allow : Allowance) :
    Option (Spool × Allowance × Bool) := do
  let writePos :=
    { sp.writePos with minorSeq := (sp.writePos.minorSeq + 1) % 0x100000000 }
  let sp := { sp with writePos }
  if allow.opens then
    let (disk, f) := sp.disk.openWrite (spoolFileName writePos)
    let sp := { sp with disk, writef := some f, writeFileName := some (spoolFileName writePos) }
    let (sp, allow, numWritten) ← writeOut sp allow header
    if numWritten ≠ headerSize then
      some ({ sp with writef := none, writeFileName := none }, allow, false)
    else
      some ({ sp with
        stats.currentSize := sp.stats.currentSize + UInt64.ofNat numWritten
        stats.filesCreated := sp.stats.filesCreated + 1 }, allow, true)
  else some ({ sp with writef := none, writeFileName := none }, allow, false)

/-- What is written for an event, each with an `fwrite` of its own: the count, and for every
part its length in 32 bits and so many bytes. -/
def eventChunks (msgs : List Bytes) : List Bytes :=
  encode 2 (msgs.length % 0x10000) ::
    msgs.flatMap fun msg =>
      [encode 4 (msg.length % 0x100000000), msg.take (msg.length % 0x100000000)]

/-- With the bytes written in full chunks, and `false` at the first short write. -/
def writeChunks (sp : Spool) (allow : Allowance) (size : Nat) :
    List Bytes → Option (Spool × Nat × Bool)
  | [] => some (sp, size, true)
  | chunk :: chunks => do
    let (sp, allow, numWritten) ← writeOut sp allow chunk
    if numWritten ≠ chunk.length then some (sp, size, false)
    else
      let sp := { sp with
        stats.currentSize := sp.stats.currentSize + UInt64.ofNat numWritten }
      writeChunks sp allow (size + numWritten) chunks

/-- `spool_push` from the count on, without the cull. The result of its `fflush` is not looked
at. -/
def writeEvent (sp : Spool) (allow : Allowance) (msgs : List Bytes) : Option (Spool × Bool) := do
  if msgs.length % 0x10000 > maxMsgCount then none
  else
    let f ← sp.writef
    let (sp, size, ok) ← writeChunks sp allow 0 (eventChunks msgs)
    let sp ← dropUnwritten sp allow f.off
    if ok then
      let eventSize := UInt64.ofNat size
      some ({ sp with
        stats.eventsWritten := sp.stats.eventsWritten + 1
        stats.largestSize := max sp.stats.largestSize sp.stats.currentSize
        stats.largestEventSize := max sp.stats.largestEventSize eventSize
        stats.smallestEventSize := min sp.stats.smallestEventSize eventSize
        totalEventBytesWritten := sp.totalEventBytesWritten + eventSize }, true)
    else some (sp, false)

/-- The partition for the next event is full. -/
def rollDue (sp : Spool) (f : Stream) : Bool :=
  sp.stats.maxPartitionSize ≤ UInt64.ofNat f.off

def cullDue (sp : Spool) : Bool :=
  sp.stats.maxPartitions * sp.stats.maxPartitionSize ≤ sp.stats.currentSize

/-- With the name of the file that is removed, which the warning reports. -/
def cull (sp : Spool) : Option (Spool × Option UStr) := do
  let (sp, oldest, _) := findOldestFile lo sp
  let oldest ← oldest
  let sz := UInt64.ofNat ((sp.disk.size oldest).getD 0)
  match sp.disk.remove oldest with
  | some disk =>
    some ({ sp with
      disk
      stats.currentSize := sp.stats.currentSize - sz
      stats.bytesCulled := sp.stats.bytesCulled + sz
      stats.filesDestroyed := sp.stats.filesDestroyed + 1
      stats.cullEvents := sp.stats.cullEvents + 1 }, some oldest)
  | none => sp.readFileName.map fun _ => (sp, none)

/-- With the name of the file that was culled, if one was. -/
def spoolPush (sp : Spool) (allow : Allowance) (msgs : List Bytes) :
    Option (Spool × Rc × Option UStr) := do
  let f ← sp.writef
  let (sp, allow, ok) ←
    if rollDue sp f then incrementWriteSpoolPartition sp allow else some (sp, allow, true)
  if !ok then some (sp, .fileSystemError, none)
  else
    let (sp, ok) ← writeEvent sp allow msgs
    if !ok then some (sp, .writeError, none)
    else if cullDue sp then
      let (sp, culled) ← cull lo sp
      some (sp, .noError, culled)
    else some (sp, .noError, none)

/-! ## Reading -/

/-- With `false` when the partition cannot be opened. -/
def incrementReadSpoolPartition (sp : Spool) : Option (Spool × Bool) := do
  let sp := { sp with readFileName := none, readf := none }
  let (sp, found, foundPos) := findOldestFile lo sp
  let found ← found
  match sp.disk.openRead found with
  | none => some (sp, false)
  | some f =>
    some ({ sp with
      readf := some (f.seek headerSize)
      readFileName := some found
      readPos := foundPos }, true)

/-- The result is an `int`. -/
def compareWriteToRead (sp : Spool) : Option Int :=
  if sp.writePos.majorSeq > sp.readPos.majorSeq then some 1
  else if sp.writePos.majorSeq = sp.readPos.majorSeq then
    let diff := toInt32 ((sp.writePos.minorSeq : Int) - sp.readPos.minorSeq)
    if diff = 0 then do
      let w ← sp.writef
      let r ← sp.readf
      some (toInt32 ((w.off : Int) - r.off))
    else some diff
  else some (-1)

/-- Closes the file that has been read to its end and removes it. -/
def removeReadPartition (sp : Spool) : Option Spool := do
  let name ← sp.readFileName
  let sz := UInt64.ofNat ((sp.disk.size name).getD 0)
  let sp := { sp with readf := none, readFileName := none }
  match sp.disk.remove name with
  | some disk =>
    some { sp with
      disk
      stats.currentSize := sp.stats.currentSize - sz
      stats.filesDestroyed := sp.stats.filesDestroyed + 1 }
  | none => some sp

/-- The loop over the parts of a visited event. -/
def fastForward (disk : Disk) : Nat → Stream → Stream × Bool
  | 0, f => (f, true)
  | n + 1, f =>
    let (partSize, f) := disk.fread f 4
    if partSize.length < 4 then (f, false)
    else fastForward disk n (f.seek (f.off + decode partSize))

/-- One round of the loop of `advance_to_next_unvisited`. It ends with the message count, 0
on an error and at the end of what has been written. -/
def advanceRound (sp : Spool) : Option (Spool ⊕ Nat × Spool) := do
  let f ← sp.readf
  let (bytes, f) := sp.disk.fread f 2
  let sp := { sp with readf := some f }
  if bytes.length = 0 then
    if f.eof then
      let diff ← compareWriteToRead sp
      if diff > 0 then
        let sp ← removeReadPartition sp
        let (sp, ok) ← incrementReadSpoolPartition lo sp
        if ok then some (.inl sp) else some (.inr (0, sp))
      else some (.inr (0, sp))
    else some (.inr (0, sp))
  else if bytes.length < 2 then
    some (.inl { sp with readf := some (f.seek (f.off - bytes.length)) })
  else
    let msgCount := decode bytes
    if eventIsVisited msgCount then
      let (f, ok) := fastForward sp.disk (eventMsgCount msgCount) f
      let sp := { sp with readf := some f }
      if ok then some (.inl sp) else some (.inr (0, sp))
    else some (.inr (eventMsgCount msgCount, sp))

def advanceToNextUnvisited (rounds : Nat) (sp : Spool) : Option (Nat × Spool) :=
  Loop.run (advanceRound lo) rounds sp

/-- The loop over the parts of an event; without the parts after a short read. -/
def readParts (disk : Disk) : Nat → Stream → Stream × Option (List Bytes)
  | 0, f => (f, some [])
  | n + 1, f =>
    let (msgSize, f) := disk.fread f 4
    if msgSize.length ≠ 4 then (f, none)
    else
      let (data, f) := disk.fread f (decode msgSize)
      if data.length ≠ decode msgSize then (f, none)
      else
        let (f, parts) := readParts disk n f
        (f, parts.map (data :: ·))

/-- The part of `spool_pop` after the message count. -/
def popEvent (sp : Spool) (msgCount : Nat) : Option (Spool × Rc × List Bytes) := do
  let f ← sp.readf
  let msgOff := f.off - 2
  let (f, parts) := readParts sp.disk msgCount f
  match parts with
  | none => some ({ sp with readf := some f }, .readError, [])
  | some parts =>
    let (disk, g) := sp.disk.fwrite (f.seek msgOff) (encode 2 (setVisited msgCount))
    some ({ sp with
      disk
      readf := some (g.seek f.off)
      stats.eventsRead := sp.stats.eventsRead + 1 }, .noError, parts)

/-- The result of `spool_pop` without an event. -/
def popNothing (sp : Spool) : Option (Spool × Rc × List Bytes) :=
  if sp.readPos = sp.writePos then do
    let r ← sp.readf
    let w ← sp.writef
    some (sp, if r.off = w.off then .timedOut else .logicError, [])
  else some (sp, .logicError, [])

/-- `signaled` is what waiting for the condition variable returns. -/
def spoolPop (rounds : Nat) (signaled : Bool) (sp : Spool) :
    Option (Spool × Rc × List Bytes) := do
  let diff ← compareWriteToRead sp
  if diff > 0 || signaled then
    if diff ≤ 0 then some (sp, .timedOut, [])
    else
      let (msgCount, sp) ← advanceToNextUnvisited lo rounds sp
      if msgCount > 0 then popEvent sp msgCount else popNothing sp
  else some (sp, .timedOut, [])

/-! ## Opening and closing -/

structure SpoolSettings where
  maxSpoolPartitionSize : UInt64
  maxSpoolPartitions : UInt64
  deriving DecidableEq

/-- The spool files without an event are removed, and the sizes of the others added up. -/
def currentSpoolSize (disk : Disk) (listings : Nat) : Disk × Nat × UInt64 :=
  let empty := (lo.order listings disk.dir).filter fun e =>
    isSpoolFile (disk.files e.2) && (disk.files e.2).length = headerSize
  let disk := empty.foldl (fun d e => (d.remove e.1).getD d) disk
  let size := (lo.order (listings + 1) disk.dir).foldl
    (fun size e =>
      if isSpoolFile (disk.files e.2) then size + UInt64.ofNat (disk.files e.2).length else size) 0
  (disk, listings + 2, size)

def initWriter (sp : Spool) : Option (Spool × Bool) := do
  let (sp, newest, pos) := findNewestFile lo sp
  let majorSeq := match newest with
    | none => 1
    | some _ => (pos.majorSeq + 1) % 0x100000000
  let sp := { sp with writef := none, writePos := ⟨majorSeq, 0⟩, writeFileName := none }
  let (sp, _, ok) ← incrementWriteSpoolPartition sp .full
  some (sp, ok)

def initReader (sp : Spool) : Option (Spool × Bool) :=
  incrementReadSpoolPartition lo
    { sp with readf := none, readPos := ⟨0, 0⟩, readFileName := none }

/-- `some none` is the result NULL. -/
def createSpool (settings : SpoolSettings) (disk : Disk) (listings : Nat) :
    Option (Option Spool) := do
  let (disk, listings, currentSize) := currentSpoolSize lo disk listings
  let sp : Spool := {
    disk
    listings
    writePos := ⟨0, 0⟩
    writef := none
    readPos := ⟨0, 0⟩
    readf := none
    readFileName := none
    writeFileName := none
    stats := {
      maxPartitionSize := settings.maxSpoolPartitionSize
      maxPartitions := settings.maxSpoolPartitions
      currentSize
      largestSize := 0
      filesCreated := 0
      filesDestroyed := 0
      bytesCulled := 0
      eventsRead := 0
      eventsWritten := 0
      smallestEventSize := 0xffffffffffffffff
      largestEventSize := 0
      cullEvents := 0 }
    totalEventBytesWritten := 0 }
  let (sp, ok) ← initWriter lo sp
  if !ok then some none
  else
    let (sp, ok) ← initReader lo sp
    some (if ok then some sp else none)

/-- The write file is removed if no event was written to it. -/
def destroySpool (sp : Spool) : Option Disk := do
  let _ ← sp.readf
  let w ← sp.writef
  if w.off = headerSize then
    let name ← sp.writeFileName
    some ((sp.disk.remove name).getD sp.disk)
  else some sp.disk

end

def spoolEmptyOfMessages (sp : Spool) : Bool := sp.stats.currentSize = UInt64.ofNat headerSize

end Yella
