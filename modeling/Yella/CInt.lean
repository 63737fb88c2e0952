/-!
# C integers

`int` and `int32_t` values are `Int`s in their range; a conversion from a wider type keeps
the low 32 bits. Numbers are read from text as the C library does.
-/

namespace Yella

/-- Conversion to a 32-bit signed integer. -/
def toInt32 (x : Int) : Int := (x + 0x80000000) % 0x100000000 - 0x80000000

theorem toInt32_of_range {x : Int} (lo : -0x80000000 ≤ x) (hi : x < 0x80000000) :
    toInt32 x = x := by
  unfold toInt32; omega

@[simp] theorem toInt32_zero : toInt32 0 = 0 := by decide

/-! ## Numbers in text -/

/-- `isspace` of the C locale -/
def isSpaceByte (b : UInt8) : Bool := b = 32 ∨ 9 ≤ b ∧ b ≤ 13

def isDigitByte (b : UInt8) : Bool := 48 ≤ b ∧ b ≤ 57

/-- `strtoull` to base 10: white space, a sign, and digits up to anything else. A number that is
too large is the largest. -/
def strtoull (text : List UInt8) : UInt64 :=
  let text := text.dropWhile isSpaceByte
  let signed := text.head? = some 43 ∨ text.head? = some 45
  let digits := (if signed then text.tail else text).takeWhile isDigitByte
  let n := digits.foldl (fun n b => n * 10 + (b.toNat - 48)) 0
  if 0x10000000000000000 ≤ n then 0xffffffffffffffff
  else if text.head? = some 45 then 0 - UInt64.ofNat n
  else UInt64.ofNat n

end Yella
