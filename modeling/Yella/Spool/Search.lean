import Yella.Lib.Unicode
import Yella.Spool.Find

/-!
# Searching any directory

`find_file` where the directory holds entries of any names and contents, some of which may not
be open for reading. What `u_sscanf_u` reads from a name with `u"%u-%u"` is a parameter.
-/

namespace Yella

open Unicode
open LittleEndian (encode)

/-- The name is there as `readdir` returns it and in UTF-16. The content is `none` if the entry
cannot be opened for reading. -/
structure SpoolEntry where
  file : Bytes
  named : file ≠ []
  name : UStr
  content : Option Bytes

/-- The path has no separator at its end. -/
structure SpoolDir where
  path : List Char
  entries : List SpoolEntry

/-- `is_spool_file`, which closes NULL if the entry cannot be opened. -/
def SpoolEntry.isSpoolFile (e : SpoolEntry) : Option Bool := e.content.map Yella.isSpoolFile

namespace SpoolDir

/-! ## Removing -/

/-- A UTF-16 string as a `char*`: its bytes up to the first zero. -/
def asChars (s : UStr) : Bytes := (s.flatMap fun c => encode 2 c.toNat).takeWhile (· ≠ 0)

def fullName (d : SpoolDir) (name : UStr) : UStr := utf16 d.path ++ dirSep :: name

/-- `remove` -/
def remove (d : SpoolDir) (path : Bytes) : SpoolDir :=
  { d with entries := d.entries.filter fun e => utf8 d.path ++ 47 :: e.file ≠ path }

/-! ## Finding -/

structure Search where
  candidate : Option UStr
  pos : SpoolPos
  toRemove : List UStr

section
variable (scan : UStr → Option SpoolPos)

def findStep (cmp : SpoolPos → SpoolPos → Bool) (found : Search) (e : SpoolEntry) :
    Option Search :=
  match scan e.name with
  | none => some { found with toRemove := found.toRemove ++ [e.name] }
  | some pos => do
    if ← e.isSpoolFile then
      some (if cmp pos found.pos then { found with candidate := some e.name, pos } else found)
    else some { found with toRemove := found.toRemove ++ [e.name] }

/-- `remove` gets the UTF-16 names. -/
def findFile (d : SpoolDir) (cmp : SpoolPos → SpoolPos → Bool) (start : SpoolPos) :
    Option (Option UStr × SpoolPos × SpoolDir) := do
  let found ← d.entries.foldlM (findStep scan cmp) ⟨none, start, []⟩
  some (found.candidate, found.pos,
    found.toRemove.foldl (fun d name => d.remove (asChars (d.fullName name))) d)

def findNewestFile (d : SpoolDir) : Option (Option UStr × SpoolPos × SpoolDir) :=
  d.findFile scan cmpNewest ⟨0, 0⟩

def findOldestFile (readPos : SpoolPos) (d : SpoolDir) :
    Option (Option UStr × SpoolPos × SpoolDir) :=
  d.findFile scan (cmpOldest readPos) ⟨0xffffffff, 0xffffffff⟩

end

/-! ## What is asked of a search -/

section
variable (scan : UStr → Option SpoolPos)

/-- A partition at this position. -/
def IsPartition (e : SpoolEntry) (pos : SpoolPos) : Prop :=
  scan e.name = some pos ∧ e.isSpoolFile = some true

/-- The directory holds nothing but partitions. -/
def OnlyPartitions (d : SpoolDir) : Prop := ∀ e ∈ d.entries, ∃ pos, IsPartition scan e pos

end

/-! ## What is removed -/

section
variable {scan : UStr → Option SpoolPos} {d : SpoolDir} {cmp : SpoolPos → SpoolPos → Bool}
  {start : SpoolPos} {Sought : SpoolPos → Prop} {before : SpoolPos → SpoolPos → Prop}

/-- Among partitions the search is a scan over their positions. -/
theorem OnlyPartitions.findFile_eq (only : d.OnlyPartitions scan) :
    d.findFile scan cmp start =
      let found := d.entries.foldl
        (Scan.step cmp (fun e => (scan e.name).getD ⟨0, 0⟩) SpoolEntry.name) (none, start)
      some (found.1, found.2, d) := by
  have fold : ∀ (es : List SpoolEntry) (acc : Option UStr × SpoolPos),
      (∀ e ∈ es, ∃ pos, IsPartition scan e pos) →
      es.foldlM (findStep scan cmp) ⟨acc.1, acc.2, []⟩ =
        let found := es.foldl
          (Scan.step cmp (fun e => (scan e.name).getD ⟨0, 0⟩) SpoolEntry.name) acc
        some ⟨found.1, found.2, []⟩ := by
    intro es
    induction es with
    | nil => intro acc _; rfl
    | cons e es ih =>
      intro acc h
      obtain ⟨⟨pos, hpos, valid⟩, rest⟩ := List.forall_mem_cons.mp h
      rw [List.foldlM_cons, List.foldl_cons, ← ih _ rest]
      simp only [findStep, hpos, valid, Option.bind_eq_bind, Option.bind_some, ↓reduceIte,
        Scan.step, Option.getD_some]
      split <;> rfl
  rw [findFile, fold d.entries (none, start) only]
  rfl

end

end SpoolDir

end Yella
