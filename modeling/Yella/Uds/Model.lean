import Mathlib.Algebra.Ring.Int.Defs
import Mathlib.Algebra.Ring.Nat
import Yella.CInt
import Yella.FileName
import Yella.Lib.Buffer

/-!
# Dynamic strings

The strings of `uds.c`. A string lies behind a header that tells its length and how much room
there is, in fields whose width depends on the type of the header. A result of `none` is an access
outside of the block, a read of what has not been written, or an assertion that fails.
-/

namespace Yella

inductive UdsType where
  | type5
  | type8
  | type16
  | type32
  | type64
  deriving DecidableEq, Repr

namespace UdsType

/-- The width of the length. Type 5 keeps it in the upper bits of its 16 flag bits. -/
def bits : UdsType → ℕ
  | type5 => 13
  | type8 => 8
  | type16 => 16
  | type32 => 32
  | type64 => 64

end UdsType

/-- A string: `buf` are the units behind the header. Type 5 has no field `alloc`. -/
structure Uds where
  type : UdsType
  len : ℕ
  alloc : ℕ
  buf : Buffer UChar
  deriving DecidableEq, Repr

def udsMaxPrealloc : ℕ := 1024 * 1024

def udsReqType (stringSize : ℕ) : UdsType :=
  if stringSize < 2 ^ 5 then .type5
  else if stringSize < 2 ^ 8 then .type8
  else if stringSize < 2 ^ 16 then .type16
  else if stringSize < 2 ^ 32 then .type32
  else .type64

/-- What a new string or one with more room gets instead of type 5. -/
def UdsType.forAppend : UdsType → UdsType
  | .type5 => .type8
  | type => type

/-- ICU counts units in an `int32_t`, and does nothing for a count that is not positive. -/
def unitCount (size : ℕ) : ℕ := (toInt32 size).toNat

/-- What a caller gets for the `int32_t` of `u_strlen` as a `size_t`. -/
def sizeOfLength (length : ℕ) : ℕ := (toInt32 length % 2 ^ 64).toNat

theorem unitCount_of_lt {n : ℕ} (h : n < 2 ^ 31) : unitCount n = n := by
  rw [unitCount, toInt32_of_range (by omega) (by omega), Int.toNat_natCast]

theorem sizeOfLength_of_lt {n : ℕ} (h : n < 2 ^ 31) : sizeOfLength n = n := by
  rw [sizeOfLength, toInt32_of_range (by omega) (by omega)]
  omega

/-! ## The header -/

namespace Uds

variable (s : Uds)

def udslen : ℕ := s.len

def udsalloc : ℕ := if s.type = .type5 then s.len else s.alloc

/-- `sh->alloc - sh->len`. The narrow fields are promoted to `int`. -/
def room : ℤ :=
  match s.type with
  | .type5 => 0
  | .type8 | .type16 => (s.alloc : ℤ) - s.len
  | .type32 => ((s.alloc : ℤ) - s.len) % 2 ^ 32
  | .type64 => ((s.alloc : ℤ) - s.len) % 2 ^ 64

def udsavail : ℕ := (s.room % 2 ^ 64).toNat

def udssetlen (newlen : ℕ) : Uds := { s with len := newlen % 2 ^ s.type.bits }

def udssetalloc (newlen : ℕ) : Uds :=
  if s.type = .type5 then s else { s with alloc := newlen % 2 ^ s.type.bits }

/-- `s[i] = c` -/
def put (i : ℕ) (c : UChar) : Option Uds := (s.buf.write i c).map fun buf => { s with buf }

/-- `u_memcpy(s + i, t, len)` of units that are not in the string -/
def putAll (i : ℕ) (t : UStr) : Option Uds :=
  (s.buf.writeAll i (t.take (unitCount t.length))).map fun buf => { s with buf }

end Uds

/-- A block of so many units; one whose size in bytes would overflow is not given out. -/
def udsMalloc (units : ℕ) : Option (Buffer UChar) :=
  if units < 2 ^ 61 then some (.malloc units) else none

def udsRealloc (buf : Buffer UChar) (units : ℕ) : Option (Buffer UChar) :=
  if units < 2 ^ 61 then some (buf.realloc units) else none

/-! ## The functions -/

/-- `init` is `none` for NULL, and else the units that can be read there. -/
def udsnewlen (init : Option UStr) (initlen : ℕ) : Option Uds := do
  let type := if initlen = 0 then (udsReqType initlen).forAppend else udsReqType initlen
  let block ← udsMalloc (initlen + 1)
  let block := if init = none then ⟨block.cells.map fun _ => some 0⟩ else block
  let s : Uds := ⟨type, initlen % 2 ^ type.bits, initlen % 2 ^ type.bits, block⟩
  let s ←
    match init with
    | none => some s
    | some t =>
      let count := unitCount initlen
      if count ≤ t.length then s.putAll 0 (t.take count) else none
  s.put initlen 0

def udsempty : Option Uds := udsnewlen none 0

namespace Uds

variable (s : Uds)

/-- The units that another function reads through the pointer. -/
def units (buf : Buffer UChar) (n : ℕ) : Option UStr := (List.range n).mapM buf.read

def udsdup : Option Uds := do
  let t ← units s.buf (unitCount s.udslen)
  udsnewlen (some t) s.udslen

/-- `u_strlen(buf + i)`, by looking at no more than `fuel` units -/
def uStrlen (buf : Buffer UChar) (i : ℕ) : ℕ → Option ℕ
  | 0 => none
  | fuel + 1 => do
    let c ← buf.read i
    if c = 0 then some 0 else (uStrlen buf (i + 1) fuel).map (· + 1)

def udsupdatelen : Option Uds := do
  let reallen ← uStrlen s.buf 0 s.buf.size
  some (s.udssetlen (sizeOfLength reallen))

def udsclear : Option Uds := (s.udssetlen 0).put 0 0

/-- The string moves to a new block when the type of the header changes. -/
def udsMakeRoomFor (addlen : ℕ) : Option Uds :=
  if addlen ≤ s.udsavail then some s
  else
    let len := s.udslen
    let newlen := (len + addlen) % 2 ^ 64
    let newlen := if newlen < udsMaxPrealloc then newlen * 2 else newlen + udsMaxPrealloc
    let type := (udsReqType newlen).forAppend
    if s.type = type then do
      let buf ← udsRealloc s.buf (newlen + 1)
      some ({ s with buf }.udssetalloc newlen)
    else do
      let block ← udsMalloc (newlen + 1)
      let buf ← block.copy s.buf (unitCount (len + 1))
      some (({ s with type, buf }.udssetlen len).udssetalloc newlen)

/-- The block is made small. Where the type stays or is larger than 8, the size is computed with
`(len + 1) + sizeof(UChar)` bytes behind the header instead of the product. -/
def udsRemoveFreeSpace : Option Uds :=
  let len := s.udslen
  let type := udsReqType len
  if s.type = type ∨ type ≠ .type5 ∧ type ≠ .type8 then do
    let buf ← udsRealloc s.buf ((len + 1 + 2) / 2)
    some ({ s with buf }.udssetalloc len)
  else do
    let block ← udsMalloc (len + 1)
    let buf ← block.copy s.buf (unitCount (len + 1))
    some (({ s with type, buf }.udssetlen len).udssetalloc len)

/-- What the assertion of `udsIncrLen` for the type of the header says. -/
def fits (incr : ℤ) : Bool :=
  match s.type with
  | .type5 =>
    (0 < incr ∧ (s.len % 32 : ℕ) + incr < 32) ∨ (incr < 0 ∧ -incr % 2 ^ 32 ≤ (s.len % 32 : ℕ))
  | .type8 | .type16 => (0 ≤ incr ∧ incr ≤ s.room) ∨ (incr < 0 ∧ -incr % 2 ^ 32 ≤ s.len)
  | .type32 => (0 ≤ incr ∧ incr % 2 ^ 32 ≤ s.room) ∨ (incr < 0 ∧ -incr % 2 ^ 32 ≤ s.len)
  | .type64 => (0 ≤ incr ∧ incr ≤ s.room) ∨ (incr < 0 ∧ -incr ≤ s.len)

def udsIncrLen (incr : ℤ) : Option Uds :=
  if s.fits incr then
    let oldlen := if s.type = .type5 then s.len % 32 else s.len
    let s := s.udssetlen (oldlen + incr).toNat
    s.put s.len 0
  else none

def udsgrowzero (len : ℕ) : Option Uds :=
  let curlen := s.udslen
  if len ≤ curlen then some s
  else do
    let s ← s.udsMakeRoomFor (len - curlen)
    let s ← s.putAll curlen (List.replicate (len - curlen + 1) 0)
    some (s.udssetlen len)

def udscatlen (t : UStr) : Option Uds := do
  let curlen := s.udslen
  let s ← s.udsMakeRoomFor t.length
  let s ← s.putAll curlen t
  (s.udssetlen (curlen + t.length)).put (curlen + t.length) 0

def udscat (t : Buffer UChar) : Option Uds := do
  let len ← uStrlen t 0 t.size
  let t ← units t (sizeOfLength len)
  s.udscatlen t

/-- The string in a block that is large enough for what is copied over it. -/
def roomToCopy (n : ℕ) : Option Uds :=
  if s.udsalloc < n then s.udsMakeRoomFor (n - s.udslen) else some s

def udscpylen (t : UStr) : Option Uds := do
  let s ← s.roomToCopy t.length
  let s ← s.putAll 0 t
  let s ← s.put t.length 0
  some (s.udssetlen t.length)

/-- `while (sp <= end && u_strchr(cset, *sp)) sp++`, with so many units left up to `end` -/
def trimStart (found : UChar → Bool) (sp : ℕ) : ℕ → Option ℕ
  | 0 => some sp
  | left + 1 => do
    let c ← s.buf.read sp
    if found c then trimStart found (sp + 1) left else some sp

/-- `while (ep > sp && u_strchr(cset, *ep)) ep--`, with so many units between `sp` and `ep` -/
def trimEnd (found : UChar → Bool) (sp : ℕ) : ℕ → Option ℕ
  | 0 => some sp
  | left + 1 => do
    let c ← s.buf.read (sp + (left + 1))
    if found c then trimEnd found sp left else some (sp + (left + 1))

/-- `if (moves) u_memmove(s, s + start, newlen)`, and the new end of the string -/
def keepPart (moves : Bool) (start newlen : ℕ) : Option Uds := do
  let buf ← if moves then s.buf.move 0 start (unitCount newlen) else some s.buf
  let s ← { s with buf }.put newlen 0
  some (s.udssetlen newlen)

/-- Where the part that stays starts, and how long it is. -/
def trimBounds (found : UChar → Bool) : Option (ℕ × ℕ) := do
  let len := s.udslen
  let sp ← s.trimStart found 0 len
  -- `ep` is `len - 1` at first, and below `sp` if all units have been skipped.
  if sp < len then (s.trimEnd found sp (len - 1 - sp)).map fun ep => (sp, ep - sp + 1)
  else some (sp, 0)

/-- `found c` is whether `u_strchr(cset, c)` is not NULL. -/
def udstrim (found : UChar → Bool) : Option Uds := do
  let (sp, newlen) ← s.trimBounds found
  s.keepPart (decide (sp ≠ 0)) sp newlen

/-- The start and the length of the part between two indices, negative ones counted from the end. -/
def rangeBounds (len start last : ℤ) : ℤ × ℤ :=
  let start := if start < 0 then max (len + start) 0 else start
  let last := if last < 0 then max (len + last) 0 else last
  let newlen := if start > last then 0 else last - start + 1
  if newlen ≠ 0 then
    if start ≥ len then (start, 0)
    else if last ≥ len then (start, if start > len - 1 then 0 else len - 1 - start + 1)
    else (start, newlen)
  else (0, newlen)

/-- `udsrange` in memory -/
def rangeInPlace (start last : ℤ) : Option Uds :=
  if s.udslen = 0 then some s
  else
    let (start, newlen) := rangeBounds s.udslen start last
    s.keepPart (decide (start ≠ 0 ∧ newlen ≠ 0)) start.toNat newlen.toNat

/-- `print buf buflen` is what `u_vsnprintf_u` leaves in the buffer. A buffer in which the last unit
but one is written is too small; at most `fuel` buffers are tried. -/
def printLoop (print : Buffer UChar → ℕ → Option (Buffer UChar)) (buf : Buffer UChar)
    (buflen : ℕ) : ℕ → Option (Buffer UChar)
  | 0 => none
  | fuel + 1 => do
    let buf ← buf.write (buflen - 2) 0
    let buf ← print buf buflen
    let last ← buf.read (buflen - 2)
    if last ≠ 0 then
      let block ← udsMalloc (buflen * 2)
      printLoop print block (buflen * 2) fuel
    else some buf

/-- The size of `staticbuf` -/
def staticbufSize : ℕ := 1024

/-- `fmtlen` is the length of the format; the buffer on the stack is not initialised. -/
def udscatvprintf (print : Buffer UChar → ℕ → Option (Buffer UChar)) (fmtlen fuel : ℕ) :
    Option Uds := do
  let buflen := if fmtlen * 2 > staticbufSize then fmtlen * 2 else staticbufSize
  let buf ← udsMalloc buflen
  let buf ← printLoop print buf buflen fuel
  s.udscat buf

end Uds

/-- The loop of `udsjoinuds` over the contents of the strings -/
def joinLoop (sep : UStr) (join : Uds) : List UStr → Option Uds
  | [] => some join
  | [last] => join.udscatlen last
  | arg :: args => do
    let join ← join.udscatlen arg
    let join ← join.udscatlen sep
    joinLoop sep join args

def udsjoinuds (argv : List UStr) (sep : UStr) : Option Uds := do
  let join ← udsempty
  joinLoop sep join argv

end Yella
