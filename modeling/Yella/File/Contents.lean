import Yella.File.Links
import Yella.ReturnCode
import Yella.Spool.Stdio

/-!
# Reading a whole file

`yella_file_contents` of `file.c` with `yella_file_exists`, `yella_file_size` and `stat_impl` of
`file_posix.c`.
-/

namespace Yella

/-- What reading gives: the bytes up to an end, or bytes without an end. -/
inductive GivenBytes where
  | whole (bytes : Bytes)
  | endless (bytes : Nat → UInt8)

def GivenBytes.first (n : Nat) : GivenBytes → Bytes
  | whole bytes => bytes.take n
  | endless bytes => (List.range n).map bytes

/-- A file that is neither a directory nor a link. A special one is a device, a pipe or a socket,
and `fopen` may wait for its other end forever. -/
inductive StoredFile where
  | regular (contents : Bytes)
  | special (size : Nat) (waits : Bool) (given : GivenBytes)

/-- The files with the sizes that `lstat` has for directories and links, and how many bytes can be
read before an error, if there is one. -/
structure StoredFiles extends LinkedFiles StoredFile where
  ownSize : Place → Nat
  damaged : Place → Option Nat

/-- What `*contents` is. -/
inductive ContentsPointer where
  | null
  | buffer (bytes : Bytes)
  | freed
  deriving DecidableEq, Repr

namespace StoredFiles

def stSize (s : StoredFiles) (place : Place) : Nat :=
  match s.node place with
  | some (.file (.regular contents)) => contents.length
  | some (.file (.special size _ _)) => size
  | some .directory | some (.link _) | none => s.ownSize place

def given (s : StoredFiles) (place : Place) : GivenBytes :=
  match s.node place with
  | some (.file (.regular contents)) => .whole contents
  | some (.file (.special _ _ given)) => given
  | some .directory | some (.link _) | none => .whole []

def waits (s : StoredFiles) (place : Place) : Bool :=
  match s.node place with
  | some (.file (.special _ waits _)) => waits
  | some (.file (.regular _)) | some .directory | some (.link _) | none => false

/-- `fopen` with `"rb"`, which opens a directory as well; `none` if it does not return. -/
def fopen (utf : Utf) (s : StoredFiles) (name : UStr) : Option (Except Errno Place) :=
  match s.statText utf name with
  | .error errno => some (.error errno)
  | .ok place =>
    if s.readable place = false then some (.error .eacces)
    else if s.waits place then none
    else some (.ok place)

/-- What `fread` of `n` bytes puts into the buffer, which is nothing for a directory. -/
def fread (s : StoredFiles) (place : Place) (n : Nat) : Bytes :=
  match s.damaged place with
  | none => (s.given place).first n
  | some sound => ((s.given place).first n).take sound

end StoredFiles

section
variable (utf : Utf) (s : StoredFiles) (name : UStr)

def statImpl : Except Rc Place :=
  match (if utf.Converts name then s.lstat name else .error .other) with
  | .ok info => .ok info
  | .error .eacces => .error .noPermission
  | .error .enoent => .error .doesNotExist
  | .error _ => .error .fileSystemError

def yellaFileExists : Bool := s.accessText utf name

def yellaFileSize : Except Rc Nat := (statImpl utf s name).map s.stSize

/-- `yella_file_contents`. The size stays 0 when there is no size. -/
def yellaFileContents : Option (Rc × ContentsPointer) :=
  if yellaFileExists utf s name = false then some (.doesNotExist, .null)
  else
    let size := (yellaFileSize utf s name).toOption.getD 0
    (s.fopen utf name).map fun
      | .error _ => (.fileSystemError, .null)
      | .ok f =>
        let contents := s.fread f size
        if contents.length ≠ size then (.fileSystemError, .freed) else (.noError, .buffer contents)

end

namespace StoredFiles

/-- The bytes of a file that has an end. A directory has none. -/
def wholeBytes (s : StoredFiles) (place : Place) : Option Bytes :=
  match s.node place with
  | some (.file (.regular contents)) => some contents
  | some (.file (.special _ _ (.whole bytes))) => some bytes
  | some (.file (.special _ _ (.endless _))) | some .directory | some (.link _) | none => none

/-- No error comes before the end. -/
def Sound (s : StoredFiles) (place : Place) (bytes : Bytes) : Prop :=
  ∀ sound ∈ s.damaged place, bytes.length ≤ sound

/-- The name leads to a regular file that can be read up to its end. -/
def LeadsToContents (s : StoredFiles) (name : UStr) (contents : Bytes) : Prop :=
  ∃ place, s.stat name = .ok place ∧ s.node place = some (.file (.regular contents)) ∧
    s.readable place = true ∧ s.Sound place contents

/-- A name of a readable regular file gives its contents, and any name gives the whole contents or
an error without a buffer. -/
def ReadsWhole (utf : Utf) (s : StoredFiles) (name : UStr) : Prop :=
  (∀ contents, s.LeadsToContents name contents →
    yellaFileContents utf s name = some (.noError, .buffer contents)) ∧
  ∃ rc contents, yellaFileContents utf s name = some (rc, contents) ∧
    ((rc = .noError ∧ ∃ place bytes, s.stat name = .ok place ∧
        s.wholeBytes place = some bytes ∧ contents = .buffer bytes) ∨
      rc ≠ .noError ∧ contents = .null)

/-- What the name leads to cannot be opened, or can be read to an end, and `lstat` has that many
bytes for the name itself. -/
def SizedAsRead (s : StoredFiles) (name : UStr) : Prop :=
  ∀ place, s.stat name = .ok place → s.readable place = true →
    s.waits place = false ∧ ∃ bytes, s.wholeBytes place = some bytes ∧ s.Sound place bytes ∧
      ∀ own, s.lstat name = .ok own → s.stSize own = bytes.length

variable {utf : YellaUtf} {s : StoredFiles} {name : UStr} {place own : Place} {bytes : Bytes}

theorem given_of_wholeBytes (h : s.wholeBytes place = some bytes) :
    s.given place = .whole bytes := by
  unfold wholeBytes at h
  unfold given
  split at h <;> simp_all

theorem fread_whole (whole : s.wholeBytes place = some bytes) (sound : s.Sound place bytes) :
    s.fread place bytes.length = bytes := by
  unfold fread
  rw [given_of_wholeBytes whole]
  cases damaged : s.damaged place with
  | none => exact List.take_length
  | some k =>
    show (bytes.take bytes.length).take k = bytes
    rw [List.take_length]
    exact List.take_of_length_le (sound k damaged)

theorem sound_of_fread {n : Nat} (read : s.fread place n = bytes) : s.Sound place bytes := by
  intro k damaged
  unfold fread at read
  rw [damaged] at read
  rw [← read]
  exact List.length_take_le _ _

theorem exists_of_stat (ascii : name.IsAscii) (leads : s.stat name = .ok place) :
    yellaFileExists utf s name = true := by
  rw [yellaFileExists, LinkedFiles.accessText_eq ascii, LinkedFiles.access,
    show s.resolve true name = .ok place from leads]
  rfl

/-- The size is that of the name itself, which is there when `access` finds something. -/
theorem contents_of_opened (ascii : name.IsAscii) (leads : s.stat name = .ok place)
    (readable : s.readable place = true) (opens : s.waits place = false) :
    ∃ own, s.lstat name = .ok own ∧ yellaFileContents utf s name =
        some (if (s.fread place (s.stSize own)).length ≠ s.stSize own then
            (.fileSystemError, .freed)
          else (.noError, .buffer (s.fread place (s.stSize own)))) := by
  obtain ⟨own, found, -⟩ := LinkedFiles.lstat_of_stat leads
  refine ⟨own, found, ?_⟩
  have size : (yellaFileSize utf s name).toOption.getD 0 = s.stSize own := by
    unfold yellaFileSize statImpl
    rw [if_pos (YellaUtf.converts_iff.mpr ascii), found]
    rfl
  have opened : s.fopen utf name = some (.ok place) := by
    unfold fopen
    simp [LinkedFiles.statText_eq ascii, leads, readable, opens]
  unfold yellaFileContents
  rw [exists_of_stat ascii leads, if_neg (by decide), opened, size]
  rfl

theorem contents_of_unopened
    (closed : ∀ place, s.statText utf name = .ok place → s.readable place = false) :
    ∃ rc, yellaFileContents utf s name = some (rc, .null) ∧ rc ≠ .noError := by
  unfold yellaFileContents
  split
  · exact ⟨_, rfl, by decide⟩
  · have refused : ∃ errno, s.fopen utf name = some (.error errno) := by
      unfold fopen
      cases found : s.statText utf name with
      | error errno => exact ⟨errno, rfl⟩
      | ok place => exact ⟨.eacces, if_pos (closed place found)⟩
    obtain ⟨errno, refused⟩ := refused
    rw [refused]
    exact ⟨_, rfl, by decide⟩

theorem SizedAsRead.contents (h : s.SizedAsRead name) (ascii : name.IsAscii)
    (leads : s.stat name = .ok place) (readable : s.readable place = true) :
    ∃ bytes, s.wholeBytes place = some bytes ∧
      yellaFileContents utf s name = some (.noError, .buffer bytes) := by
  obtain ⟨opens, bytes, whole, sound, sized⟩ := h place leads readable
  obtain ⟨own, found, contents⟩ := @contents_of_opened utf _ _ _ ascii leads readable opens
  refine ⟨bytes, whole, ?_⟩
  rw [contents, sized own found, fread_whole whole sound, if_neg (not_not_intro rfl)]

theorem SizedAsRead.readsWhole (h : s.SizedAsRead name) (ascii : name.IsAscii) :
    s.ReadsWhole utf name := by
  constructor
  · rintro contents ⟨place, leads, regular, readable, -⟩
    obtain ⟨bytes, whole, result⟩ := @SizedAsRead.contents utf _ _ _ h ascii leads readable
    have same : s.wholeBytes place = some contents := by
      unfold wholeBytes
      rw [regular]
    rw [result, Option.some.inj (whole.symm.trans same)]
  · by_cases opened : ∃ place, s.stat name = .ok place ∧ s.readable place = true
    · obtain ⟨place, leads, readable⟩ := opened
      obtain ⟨bytes, whole, result⟩ := h.contents ascii leads readable
      exact ⟨_, _, result, .inl ⟨rfl, place, bytes, leads, whole, rfl⟩⟩
    · have closed : ∀ place, s.statText utf name = .ok place → s.readable place = false := by
        intro place leads
        by_contra readable
        exact opened ⟨place, (LinkedFiles.statText_ok leads).2, by simpa using readable⟩
      obtain ⟨rc, result, failed⟩ := contents_of_unopened closed
      exact ⟨_, _, result, .inr ⟨failed, rfl⟩⟩

theorem ReadsWhole.sizedAsRead (h : s.ReadsWhole utf name) (ascii : name.IsAscii) :
    s.SizedAsRead name := by
  intro place leads readable
  obtain ⟨rc, contents, result, kept⟩ := h.2
  have opens : s.waits place = false := by
    by_contra waits
    have stuck : s.fopen utf name = none := by
      unfold fopen
      simp [LinkedFiles.statText_eq ascii, leads, readable, waits]
    unfold yellaFileContents at result
    rw [exists_of_stat ascii leads, if_neg (by decide), stuck] at result
    cases result
  obtain ⟨own, found, opened⟩ := @contents_of_opened utf _ _ _ ascii leads readable opens
  rw [opened] at result
  split at result
  · -- The buffer that has been freed is still in `*contents`.
    cases result
    rcases kept with ⟨failed, -⟩ | ⟨-, null⟩
    · cases failed
    · cases null
  · rename_i complete
    cases result
    rcases kept with ⟨-, place', bytes, leads', whole, same⟩ | ⟨failed, -⟩
    · obtain rfl := Except.ok.inj (leads.symm.trans leads')
      have read := ContentsPointer.buffer.inj same
      refine ⟨opens, bytes, whole, sound_of_fread read, fun own' found' => ?_⟩
      obtain rfl := Except.ok.inj (found.symm.trans found')
      rw [← not_not.mp complete, read]
    · exact absurd rfl failed

/-- Under a name that is not ASCII no file is found. -/
theorem readsWhole_of_not_ascii (other : ¬ name.IsAscii) :
    s.ReadsWhole utf name ↔ ∀ contents, ¬ s.LeadsToContents name contents := by
  have none' : yellaFileContents utf s name = some (.doesNotExist, .null) := by
    have absent : yellaFileExists utf s name = false := by
      simp [yellaFileExists, LinkedFiles.accessText, mt YellaUtf.converts_iff.mp other]
    rw [yellaFileContents, if_pos absent]
  constructor
  · rintro ⟨reads, -⟩ contents leads
    have := reads contents leads
    rw [none'] at this
    cases this
  · intro none
    exact ⟨fun contents leads => absurd leads (none contents), _, _, none', .inr ⟨by decide, rfl⟩⟩

end StoredFiles

/-- A file is read as a whole exactly when the size that `lstat` has for the name is that of what
there is to read. A name that is not ASCII must not be that of a file that can be read. -/
theorem readsWhole_iff (utf : YellaUtf) (s : StoredFiles) (name : UStr) :
    s.ReadsWhole utf name ↔
      (name.IsAscii ∧ s.SizedAsRead name) ∨
        (¬ name.IsAscii ∧ ∀ contents, ¬ s.LeadsToContents name contents) := by
  by_cases ascii : name.IsAscii
  · simp only [ascii, not_true_eq_false, true_and, false_and, or_false]
    exact ⟨fun h => h.sizedAsRead ascii, fun h => h.readsWhole ascii⟩
  · simp only [ascii, not_false_eq_true, true_and, false_and, false_or]
    exact StoredFiles.readsWhole_of_not_ascii ascii

/-- `/a` is a link to `b`, a file of three bytes. -/
def shortLink : StoredFiles where
  toLinkedFiles := .ofTable [([[97]], .link [98]), ([[98]], .file (.regular [1, 2, 3]))]
    ⟨by decide, by decide⟩
  ownSize _ := 1
  damaged _ := none

/-- As many bytes are read as the link's text has. -/
theorem contents_of_shortLink :
    yellaFileContents asciiUtf shortLink [47, 97] = some (.noError, .buffer [1]) := rfl

theorem not_readsWhole_shortLink : ¬ shortLink.ReadsWhole asciiUtf [47, 97] := by
  intro whole
  have read := whole.1 [1, 2, 3] ⟨[[98]], rfl, rfl, rfl, fun _ damaged => by cases damaged⟩
  rw [contents_of_shortLink] at read
  cases read

end Yella
