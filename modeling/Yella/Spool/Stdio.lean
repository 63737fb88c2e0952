import Mathlib.Logic.Function.Basic
import Yella.Text

/-!
# Files and streams

One directory and the streams of `stdio.h` on its files. A removed file stays there for the
streams that are open on it. The end-of-file indicator of a stream is kept until the
position is set.
-/

namespace Yella

abbrev Bytes := List UInt8

structure Disk where
  /-- The names in the directory, each with its file. -/
  dir : List (UStr × Nat)
  files : Nat → Bytes
  /-- A file that has not been used yet. -/
  next : Nat

structure Stream where
  file : Nat
  off : Nat
  eof : Bool
  deriving DecidableEq, Repr

namespace Disk

def empty : Disk := ⟨[], fun _ => [], 0⟩

def lookup (d : Disk) (name : UStr) : Option Nat :=
  (d.dir.find? (fun e => e.1 = name)).map Prod.snd

/-- `yella_file_size` -/
def size (d : Disk) (name : UStr) : Option Nat := (d.lookup name).map (fun f => (d.files f).length)

def remove (d : Disk) (name : UStr) : Option Disk :=
  (d.lookup name).map (fun _ => { d with dir := d.dir.filter (fun e => e.1 ≠ name) })

/-- `fopen` with `"rb"` or `"r+b"`. -/
def openRead (d : Disk) (name : UStr) : Option Stream :=
  (d.lookup name).map (fun f => { file := f, off := 0, eof := false })

/-- `fopen` with `"wb"`. -/
def openWrite (d : Disk) (name : UStr) : Disk × Stream :=
  match d.lookup name with
  | some f =>
    ({ d with files := Function.update d.files f [] }, { file := f, off := 0, eof := false })
  | none =>
    ({ dir := d.dir ++ [(name, d.next)]
       files := Function.update d.files d.next []
       next := d.next + 1 },
      { file := d.next, off := 0, eof := false })

def fread (d : Disk) (f : Stream) (n : Nat) : Bytes × Stream :=
  if f.eof then ([], f)
  else
    let bytes := ((d.files f.file).drop f.off).take n
    (bytes, { f with off := f.off + bytes.length, eof := decide (bytes.length < n) })

/-- The content after a write at `off`; a gap is filled with zeros. -/
def overwrite (old : Bytes) (off : Nat) (bytes : Bytes) : Bytes :=
  old.take off ++ List.replicate (off - old.length) 0 ++ bytes ++ old.drop (off + bytes.length)

def fwrite (d : Disk) (f : Stream) (bytes : Bytes) : Disk × Stream :=
  ({ d with files := Function.update d.files f.file (overwrite (d.files f.file) f.off bytes) },
    { f with off := f.off + bytes.length })

/-- The file without the bytes from `off` on. -/
def cut (d : Disk) (file off : Nat) : Disk :=
  { d with files := Function.update d.files file ((d.files file).take off) }

end Disk

/-- `fseek` to `off`. -/
def Stream.seek (f : Stream) (off : Nat) : Stream := { f with off := off, eof := false }

theorem overwrite_end (old bytes : Bytes) :
    Disk.overwrite old old.length bytes = old ++ bytes := by
  simp [Disk.overwrite]

/-- A write over bytes that are there. -/
theorem overwrite_middle (before old after bytes : Bytes) (h : bytes.length = old.length) :
    Disk.overwrite (before ++ old ++ after) before.length bytes = before ++ bytes ++ after := by
  simp [Disk.overwrite, h, List.drop_append]

end Yella
