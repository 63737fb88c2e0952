import Mathlib.Data.List.TakeWhile

/-!
# Compression

`compression.c` over LZ4. The sizes of buffers are `int`s: `none` is a size that is not positive
or does not fit.
-/

namespace Yella

/-- The functions of LZ4. Without a result `LZ4_decompress_safe` returns a negative number. -/
structure Lz4 where
  compressBound : Nat → Nat
  compressDefault : List UInt8 → Nat → List UInt8
  decompressSafe : List UInt8 → Int → Option (List UInt8)

namespace Lz4

variable (lz4 : Lz4)

/-- `yella_lz4_compress` -/
def compress (bytes : List UInt8) : List UInt8 :=
  lz4.compressDefault bytes (lz4.compressBound bytes.length)

/-- A computation of a buffer size. -/
def intSize (size : Int) : Option Int := if 0 < size ∧ size < 0x80000000 then some size else none

/-- `yella_lz4_decompress`. A result of `some none` is NULL for bytes that are no LZ4. -/
def decompress (bytes : List UInt8) : Option (Option (List UInt8)) := do
  let bufSize ← intSize (if bytes.length < 10 then 10 else bytes.length)
  let shifted ← intSize (bufSize * 256)
  let bufSize ← intSize (shifted - bufSize)
  let bufSize ← intSize (bufSize - 2526)
  match lz4.decompressSafe bytes bufSize with
  | some decmp => some (some decmp)
  | none =>
    let bufSize ← intSize (bufSize * 2)
    some (lz4.decompressSafe bytes bufSize)

/-- `LZ4_MAX_INPUT_SIZE` -/
def Accepts (bytes : List UInt8) : Prop := bytes.length ≤ 0x7e000000

/-- What is compressed comes back where there is room for it, and is not more than so many times
as long. -/
structure Documented : Prop where
  decompress : ∀ bytes, Accepts bytes → ∀ cap : Int,
    lz4.decompressSafe (lz4.compress bytes) cap =
      if (bytes.length : Int) ≤ cap then some bytes else none
  long : ∀ bytes, Accepts bytes → 10 ≤ (lz4.compress bytes).length →
    bytes.length + 2526 ≤ 255 * (lz4.compress bytes).length
  short : ∀ bytes, Accepts bytes → (lz4.compress bytes).length < 10 → bytes.length ≤ 24

/-- Each size is a positive `int`, and one of the buffers is large enough. -/
def HasRoom (bytes : List UInt8) : Prop := lz4.decompress (lz4.compress bytes) = some (some bytes)

variable {lz4} {bytes : List UInt8}

theorem intSize_of {size : Int} (pos : 0 < size) (fits : size < 0x80000000) :
    intSize size = some size := if_pos ⟨pos, fits⟩

theorem intSize_eq_none {size : Int} (large : 0x80000000 ≤ size) : intSize size = none := by
  apply if_neg
  omega

/-- The sizes up to the first attempt. -/
theorem decompress_of_small {cmp decmp : List UInt8} (small : cmp.length < 0x800000)
    (safe : lz4.decompressSafe cmp
      (255 * (if cmp.length < 10 then 10 else (cmp.length : Int)) - 2526) = some decmp) :
    lz4.decompress cmp = some (some decmp) := by
  unfold decompress
  generalize hsize : (if cmp.length < 10 then 10 else (cmp.length : Int)) = size at safe
  have range : 10 ≤ size ∧ size < 0x800000 := by
    split at hsize <;> omega
  have cap : size * 256 - size - 2526 = 255 * size - 2526 := by omega
  rw [intSize_of (by omega) (by omega), Option.bind_eq_bind, Option.bind_some,
    intSize_of (by omega) (by omega), Option.bind_some,
    intSize_of (by omega) (by omega), Option.bind_some,
    intSize_of (by omega) (by omega), Option.bind_some, cap, safe]

/-- The first buffer has room. -/
theorem hasRoom_of_small (documented : lz4.Documented) (accepted : Accepts bytes)
    (small : (lz4.compress bytes).length < 0x800000) : lz4.HasRoom bytes := by
  apply decompress_of_small small
  rw [documented.decompress bytes accepted, if_pos]
  split
  · rename_i few
    have := documented.short bytes accepted few
    omega
  · rename_i many
    have := documented.long bytes accepted (Nat.not_lt.mp many)
    omega

/-- From 8 MiB on the shift overflows. -/
theorem decompress_of_large {cmp : List UInt8} (large : 0x800000 ≤ cmp.length) :
    lz4.decompress cmp = none := by
  unfold decompress
  rw [if_neg (by omega)]
  by_cases fits : (cmp.length : Int) < 0x80000000
  · rw [intSize_of (by omega) fits]
    simp only [Option.bind_eq_bind, Option.bind_some]
    rw [intSize_eq_none (by omega), Option.bind_none]
  · rw [intSize_eq_none (Int.not_lt.mp fits)]
    rfl

/-- There is room exactly as long as the compressed bytes are less than 8 MiB. -/
theorem hasRoom_iff (documented : lz4.Documented) (accepted : Accepts bytes) :
    lz4.HasRoom bytes ↔ (lz4.compress bytes).length < 0x800000 := by
  constructor
  · intro room
    by_contra large
    rw [HasRoom, decompress_of_large (Nat.not_lt.mp large)] at room
    cases room
  · exact hasRoom_of_small documented accepted

/-! ## Bytes that LZ4 finds no repetition in -/

/-- The token for `n` literals and no match, and the rest of the length. -/
def literalHeader (n : Nat) : List UInt8 :=
  if n < 15 then [UInt8.ofNat (16 * n)]
  else 240 :: (List.replicate ((n - 15) / 255) 255 ++ [UInt8.ofNat ((n - 15) % 255)])

def literalsOf : List UInt8 → Option (List UInt8)
  | [] => none
  | token :: rest => some (if token < 240 then rest else (rest.dropWhile (· = 255)).tail)

/-- LZ4 on such bytes: one block of literals. -/
def literals : Lz4 where
  compressBound n := n + n / 255 + 16
  compressDefault bytes _ := literalHeader bytes.length ++ bytes
  decompressSafe block cap := (literalsOf block).filter fun bytes => (bytes.length : Int) ≤ cap

theorem literalsOf_block (bytes : List UInt8) :
    literalsOf (literalHeader bytes.length ++ bytes) = some bytes := by
  unfold literalHeader
  split
  · rename_i few
    rw [List.singleton_append, literalsOf, if_pos]
    rw [UInt8.lt_iff_toNat_lt, UInt8.toNat_ofNat']
    simp
    omega
  · rw [List.cons_append, literalsOf, if_neg (by decide), List.append_assoc,
      List.dropWhile_append_of_pos (by simp)]
    have last : UInt8.ofNat ((bytes.length - 15) % 255) ≠ 255 := by
      rw [ne_eq, ← UInt8.toNat_inj, UInt8.toNat_ofNat']
      simp
      omega
    rw [List.singleton_append, List.dropWhile_cons, decide_eq_false last,
      if_neg Bool.false_ne_true, List.tail_cons]

theorem literalHeader_pos (n : Nat) : 0 < (literalHeader n).length := by
  unfold literalHeader
  split <;> simp

theorem literals_documented : literals.Documented where
  decompress bytes _ cap := by
    show (literalsOf (literalHeader bytes.length ++ bytes)).filter _ = _
    rw [literalsOf_block, Option.filter_some]
    simp
  long bytes _ many := by
    have more : (literals.compress bytes).length = _ := List.length_append
    have := literalHeader_pos bytes.length
    omega
  short bytes _ few := by
    have more : (literals.compress bytes).length = _ := List.length_append
    omega

theorem hasRoom_literals : literals.HasRoom [121, 101, 108, 108, 97] := by
  have accepted : Accepts [121, 101, 108, 108, 97] := by
    rw [Accepts]
    decide
  exact (hasRoom_iff literals_documented accepted).mpr (by decide)

/-- Bytes with no repetition to speak of. -/
def noise : List UInt8 :=
  (List.range 0x1000000).map fun i => UInt8.ofNat (i * i * 2654435761 / 0x1000000)

theorem not_hasRoom_noise :
    literals.Documented ∧ Accepts noise ∧ ¬ literals.HasRoom noise := by
  have length : noise.length = 0x1000000 := by rw [noise, List.length_map, List.length_range]
  refine ⟨literals_documented, ?_, ?_⟩
  · rw [Accepts, length]
    decide
  · intro room
    have large : 0x800000 ≤ (literals.compress noise).length := by
      have more : (literals.compress noise).length = _ := List.length_append
      omega
    rw [HasRoom, decompress_of_large large] at room
    cases room

end Lz4

end Yella
