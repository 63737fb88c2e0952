import Yella.Text

/-!
# File names

Functions of `file.c` and of `uds.c` on the names of files.
-/

namespace Yella

/-- The loop; `afterSep` is `last_sep != -1`. -/
def removeDuplicateDirSeps (afterSep : Bool) : UStr → UStr
  | [] => []
  | c :: name =>
    if c = dirSep then
      if afterSep then removeDuplicateDirSeps true name
      else c :: removeDuplicateDirSeps true name
    else c :: removeDuplicateDirSeps false name

def isFileNameAbsolute (name : UStr) : Bool := name.head? = some dirSep

/-- The name of a directory as the iterator keeps it. -/
def dirName (dir : UStr) : UStr := if dir.getLast? = some dirSep then dir else dir ++ [dirSep]

/-- `udsrange` of `uds.c`: keeps the units from `start` to `last`, negative ones counted
from the end. -/
def udsrange (s : UStr) (start last : Int) : UStr :=
  if s.length = 0 then s
  else
    let start := if start < 0 then max (s.length + start) 0 else start
    let last := if last < 0 then max (s.length + last) 0 else last
    if start > last ∨ start ≥ s.length then []
    else
      let last := min last (s.length - 1)
      (s.drop start.toNat).take (last - start + 1).toNat

end Yella
