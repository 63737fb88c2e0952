import Mathlib.Data.Set.Insert
import Yella.File.Links
import Yella.FileName
import Yella.ReturnCode

/-!
# Removing a directory with what is in it

`yella_remove_all` of `file_posix.c`. A directory that has been opened is listed as it was then.
-/

namespace Yella

/-- The larger one of two return codes, as the enumeration has them. -/
def Rc.worse (rc cur : Rc) : Rc := if rc.ctorIdx < cur.ctorIdx then cur else rc

namespace LinkedFiles

variable {F : Type*}

/-- Without what is at a place and below it. -/
def without (fs : LinkedFiles F) (name : UStr) (place : Place) : LinkedFiles F where
  node p := if name :: place <:+ p then none else fs.node p
  root := by
    rw [if_neg (by simp)]
    exact fs.root
  parent n p there := by
    split at there
    · exact absurd rfl there
    · rename_i outside
      rw [if_neg fun inside => outside (inside.trans (List.suffix_cons n p))]
      exact fs.parent n p there
  named n p there := by
    split at there
    · exact absurd rfl there
    · exact fs.named n p there
  order := fs.order
  nodup := fs.nodup
  listed n p there := by
    split at there
    · exact absurd rfl there
    · exact fs.listed n p there
  cwd := fs.cwd
  readable := fs.readable
  searchable := fs.searchable
  symloopMax := fs.symloopMax
  pathMax := fs.pathMax

/-- What `readdir` gives for a directory, other than `.` and `..`. -/
def entries (fs : LinkedFiles F) (place : Place) : List UStr :=
  (fs.order place).filter fun name => (fs.node (name :: place)).isSome

/-- `remove` unlinks a file or a link, and removes an empty directory. `refuses` gives the places
whose entries the system does not remove. -/
def remove (refuses : Place → Bool) (fs : LinkedFiles F) (path : UStr) :
    Except Errno (LinkedFiles F) :=
  if path = [] then .error .enoent
  else if fs.pathMax ≤ path.length then .error .other
  else
    match (parts path).getLast? with
    | none => .error .other
    | some name =>
      match fs.walk fs.searchable true fs.symloopMax (fs.start path) (parts path).dropLast with
      | .error errno => .error errno
      | .ok place =>
        if fs.isDirectory place = false then .error .enotdir
        else if fs.searchable place = false then .error .eacces
        else if name = [46] ∨ name = [46, 46] then .error .other
        else
          match fs.node (name :: place) with
          | none => .error .enoent
          | some node =>
            if path.getLast? = some dirSep ∧ node.isDirectory = false then .error .enotdir
            else if refuses (name :: place) then .error .eacces
            else if fs.entries (name :: place) ≠ [] then .error .other
            else .ok (fs.without name place)

def removeText (utf : Utf) (refuses : Place → Bool) (fs : LinkedFiles F) (path : UStr) :
    Except Errno (LinkedFiles F) :=
  if utf.Converts path then fs.remove refuses path else .error .other

/-- Whether `st` says that it is a directory after `stat`, which leaves it as it is when it
fails. -/
def stIsDir (utf : Utf) (fs : LinkedFiles F) (path : UStr) (isDir : Bool) : Bool :=
  match fs.statText utf path with
  | .ok place => fs.isDirectory place
  | .error _ => isDir

def opendir (utf : Utf) (fs : LinkedFiles F) (path : UStr) : Option Place :=
  match fs.statText utf path with
  | .error _ => none
  | .ok place => if fs.isDirectory place ∧ fs.readable place then some place else none

end LinkedFiles

section
variable {F : Type*} (utf : Utf) (refuses : Place → Bool) (indeterminate : UStr → Bool)

/-- The loop of `remove_all_impl`, where `isDir` is what `st` says. -/
def removeEntries (removeAllImpl : LinkedFiles F → UStr → Option (LinkedFiles F × Rc)) (name : UStr)
    (fs : LinkedFiles F) (isDir : Bool) (rc : Rc) : List UStr → Option (LinkedFiles F × Rc)
  | [] => some (fs, rc)
  | entry :: entries =>
    let cur := dirName name ++ entry
    let isDir := fs.stIsDir utf cur isDir
    if isDir then
      (removeAllImpl fs cur).bind fun (fs, curRc) =>
        removeEntries removeAllImpl name fs isDir (rc.worse curRc) entries
    else
      match fs.removeText utf refuses cur with
      | .ok fs => removeEntries removeAllImpl name fs isDir rc entries
      | .error _ => removeEntries removeAllImpl name fs isDir (rc.worse .fileSystemError) entries

/-- `remove_all_impl`, where `indeterminate` is what `st` says before the first `stat`. Without an
iterator, `yella_directory_iterator_next` reads through NULL. -/
def removeAllImpl : Nat → LinkedFiles F → UStr → Option (LinkedFiles F × Rc)
  | 0, _, _ => none
  | fuel + 1, fs, name =>
    (fs.opendir utf name).bind fun place =>
      (removeEntries utf refuses (removeAllImpl fuel) name fs (indeterminate name) .noError
        (fs.entries place)).map fun (fs, rc) =>
          match fs.removeText utf refuses name with
          | .ok fs => (fs, rc)
          | .error _ => (fs, rc.worse .fileSystemError)

def yellaRemoveAll (fs : LinkedFiles F) (name : UStr) : Option (LinkedFiles F × Rc) :=
  if fs.accessText utf name = false then some (fs, .noError)
  else
    match fs.statText utf name with
    | .error _ => some (fs, .fileSystemError)
    | .ok place =>
      if fs.isDirectory place then removeAllImpl utf refuses indeterminate (fs.pathMax + 1) fs name
      else
        match fs.removeText utf refuses name with
        | .ok fs => some (fs, .noError)
        | .error _ => some (fs, .fileSystemError)

end

end Yella
