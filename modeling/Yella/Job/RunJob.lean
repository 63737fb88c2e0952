import Yella.Glob.Escape
import Yella.Glob.Matcher
import Yella.Job.ProcessElement

/-!
# Running a job

`collect_attributes.c` and `job.c` over the file system as it stands while a job runs. The
result of a job is the list of its calls of `process_element`, and `none` where the program
reads an indeterminate or a NULL pointer.
-/

namespace Yella

/-- What `yella_get_file_type` and the functions of `stat_collector.h` tell of a file. -/
structure Stat where
  fileType : FileType
  permissions : PosixPermissions
  user : UserGroup
  group : UserGroup
  size : UInt64
  accessTime : UInt64
  metadataChangeTime : UInt64
  modificationTime : UInt64

/-- The name of a directory entry is not empty. -/
abbrev EntryName := {n : UStr // n ≠ []}

/-- What the functions of `file.h` and `stat_collector.h` tell of names. Names of `pathMax` units
and more are refused by `lstat`, so directories nest finitely. -/
structure FileSystem where
  fileExists : UStr → Bool
  stat : UStr → Option Stat
  /-- The entries other than `.` and `..`; `none` if the directory cannot be opened. -/
  readDir : UStr → Option (List EntryName)
  sha256 : UStr → Option (List UInt8)
  posixAcl : UStr → Option (List PosixAclEntry)
  pathMax : Nat
  stat_long : ∀ n, pathMax ≤ n.length → stat n = none

/-- What the functions of `file_posix.c` tell of files on the disk: `access`, `lstat`, `opendir` and
`open` get NULL for a name that is not converted. -/
def FileSystem.through (utf : Utf) (fs : FileSystem) : FileSystem where
  fileExists name := utf.Converts name && fs.fileExists name
  stat name := if utf.Converts name then fs.stat name else none
  readDir name := if utf.Converts name then fs.readDir name else none
  sha256 name := if utf.Converts name then fs.sha256 name else none
  posixAcl name := if utf.Converts name then fs.posixAcl name else none
  pathMax := fs.pathMax
  stat_long name long := by
    rw [fs.stat_long name long]
    exact ite_self none

section
variable (fs : FileSystem)

def FileSystem.isDirectory (name : UStr) : Bool :=
  (fs.stat name).any (fun st => st.fileType = .directory)

theorem FileSystem.isDirectory_length {name : UStr} (h : fs.isDirectory name = true) :
    name.length < fs.pathMax := by
  by_contra hlen
  rw [FileSystem.isDirectory, fs.stat_long name (by omega)] at h
  cases h

def handleSha256 (elem : Element) (ftype : FileType) : Element :=
  if ftype = .regular ∨ ftype = .symbolicLink then
    match fs.sha256 elem.name with
    | some md => addElementAttribute elem (.sha256 md)
    | none => elem
  else elem

def handlePosixAcl (elem : Element) : Element :=
  match fs.posixAcl elem.name with
  | some acl => addElementAttribute elem (.posixAcl acl)
  | none => elem

/-- One round of the `switch`. The access time waits until the file has been read. -/
def collectAttribute (st : Stat) (elem : Element) (t : AttributeType) : Element :=
  match t with
  | .fileType => addElementAttribute elem (.fileType st.fileType)
  | .sha256 => handleSha256 fs elem st.fileType
  | .posixPermissions => addElementAttribute elem (.posixPermissions st.permissions)
  | .user => addElementAttribute elem (.user st.user)
  | .group => addElementAttribute elem (.group st.group)
  | .size => addElementAttribute elem (.size st.size)
  | .accessTime => elem
  | .metadataChangeTime => addElementAttribute elem (.metadataChangeTime st.metadataChangeTime)
  | .modificationTime => addElementAttribute elem (.modificationTime st.modificationTime)
  | .posixAcl => handlePosixAcl fs elem

/-- What is told of a file. `resetsAccessTime` says when the call also changes it. -/
def collectAttributes (name : UStr) (attrTypes : List AttributeType) : Option Element :=
  if fs.fileExists name then
    match fs.stat name with
    | none => none
    | some st =>
      let result := attrTypes.foldl (collectAttribute fs st) (createElement name)
      if .accessTime ∈ attrTypes then
        some (addElementAttribute result (.accessTime st.accessTime))
      else some result
  else none

/-- `should_reset_access_time`, whether `collect_attributes` ends with `reset_access_time` -/
def resetsAccessTime (name : UStr) (attrTypes : List AttributeType) : Bool :=
  fs.fileExists name && (fs.stat name).any fun st =>
    .sha256 ∈ attrTypes ∧ (st.fileType = .regular ∨ st.fileType = .symbolicLink) ∧
      (fs.sha256 name).isSome

/-- The times of files that a scan leaves. -/
structure ScanTimes where
  accessed : UStr → UInt64
  changed : UStr → UInt64

/-- The files after their attributes have been collected: `utimensat` sets the change time of a
file whose access time is reset, and what is read or listed has been accessed. -/
def FileSystem.afterScan (attrTypes : List AttributeType) (times : ScanTimes) : FileSystem where
  fileExists := fs.fileExists
  stat name := (fs.stat name).map fun st => { st with
    accessTime := times.accessed name
    metadataChangeTime :=
      if resetsAccessTime fs name attrTypes then times.changed name else st.metadataChangeTime }
  readDir := fs.readDir
  sha256 := fs.sha256
  posixAcl := fs.posixAcl
  pathMax := fs.pathMax
  stat_long name long := by
    rw [fs.stat_long name long]
    rfl

theorem collectAttribute_name (st : Stat) (e : Element) (t : AttributeType) :
    (collectAttribute fs st e t).name = e.name := by
  cases t <;> simp only [collectAttribute, addElementAttribute_name]
  case sha256 => unfold handleSha256; split <;> [split; skip] <;> rfl
  case posixAcl => unfold handlePosixAcl; split <;> rfl

theorem foldl_collectAttribute_name (st : Stat) (ts : List AttributeType) (e : Element) :
    (ts.foldl (collectAttribute fs st) e).name = e.name := by
  induction ts generalizing e with
  | nil => rfl
  | cons t ts ih => rw [List.foldl_cons, ih, collectAttribute_name]

theorem collectAttributes_name (name : UStr) (ts : List AttributeType) :
    ∀ e ∈ collectAttributes fs name ts, e.name = name := by
  intro e he
  unfold collectAttributes at he
  split at he
  · split at he
    · cases he
    · simp only at he
      split at he <;> cases he
      · exact foldl_collectAttribute_name fs _ ts _
      · exact foldl_collectAttribute_name fs _ ts _
  · cases he

/-! ## The crawl -/

def matchesExcludes (name : UStr) (excludes : List UStr) : Bool :=
  excludes.any (Glob.fileNameMatches name)

/-- The call for a file whose attributes have been collected. -/
def collected (j : Job) (name : UStr) : Observation where
  name := name
  elem := collectAttributes fs name j.attrTypes
  named := collectAttributes_name fs name j.attrTypes

/-- The call with `existing_elem` NULL. -/
def notCollected (name : UStr) : Observation where
  name := name
  elem := none
  named := by simp

/-- The name that the directory iterator returns. -/
def fqn (dir : UStr) (entry : EntryName) : UStr :=
  if dir.getLast? = some dirSep then dir ++ entry.1 else dir ++ [dirSep] ++ entry.1

theorem fqn_length (dir : UStr) (entry : EntryName) : dir.length < (fqn dir entry).length := by
  have := List.length_pos_iff.mpr entry.2
  unfold fqn
  split <;> simp only [List.length_append, List.length_singleton] <;> omega

/-- The call for the entry `cur`. `existing_elem` is only set for a matching entry: before the
first one it is indeterminate, and after each one freed unless it is NULL (`isNull`). -/
def entryCall (incl : UStr) (j : Job) (isNull : Bool) (cur : UStr) : Option Observation :=
  if Glob.fileNameMatches cur incl && !matchesExcludes cur j.excludes then
    some (collected fs j cur)
  else if isNull then some (notCollected cur)
  else none

mutual

def crawlDir (incl : UStr) (j : Job) (dir : UStr) : Option (List Observation) :=
  match fs.readDir dir with
  | none => none
  | some entries => crawlEntries incl j dir false entries
termination_by (fs.pathMax - dir.length, 1, 0)

/-- The loop over the entries of a directory. -/
def crawlEntries (incl : UStr) (j : Job) (dir : UStr) (isNull : Bool) :
    List EntryName → Option (List Observation)
  | [] => some []
  | entry :: entries => do
    let call ← entryCall fs incl j isNull (fqn dir entry)
    let below ←
      (if _h : fs.isDirectory (fqn dir entry) then crawlDir incl j (fqn dir entry) else some [])
    let rest ← crawlEntries incl j dir call.elem.isNone entries
    some (call :: below ++ rest)
termination_by entries => (fs.pathMax - dir.length, 0, entries.length)
decreasing_by
  · have := fqn_length dir entry
    have := fs.isDirectory_length _h
    exact Prod.Lex.left _ _ (by omega)
  · exact Prod.Lex.right _ (Prod.Lex.right _ (by simp))

end

/-- `while (*special != YELLA_DIR_SEP[0] && special >= incl) --special;` The result is the
offset where the pointer stops, if that is in the string. -/
def separatorBefore (incl : UStr) : Nat → Option Nat
  | 0 => if incl[0]? = some dirSep then some 0 else none
  | i + 1 => if incl[i + 1]? = some dirSep then some (i + 1) else separatorBefore incl i

/-- The directory that is crawled for a pattern whose first wildcard is at `special`. -/
def topDir (incl : UStr) (special : Nat) : Option UStr :=
  (separatorBefore incl special).map (fun sep => incl.take (if sep = 0 then 1 else sep))

def runOneInclude (j : Job) (incl : UStr) : Option (List Observation) :=
  match Glob.firstUnescapedSpecialChar incl with
  | none => (Glob.unescapePattern incl).map (fun unescaped => [collected fs j unescaped])
  | some special =>
    match topDir incl special with
    | none => some []
    | some top => if fs.isDirectory top then crawlDir fs incl j top else some []

/-- The loop over the includes, if the database could be opened. -/
def runJob (j : Job) (db : Option StateDb) : Option (List Observation) :=
  match db with
  | none => some []
  | some _ => (j.includes.mapM (runOneInclude fs j)).map List.flatten

end

end Yella
