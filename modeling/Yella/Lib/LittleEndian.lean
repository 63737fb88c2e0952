/-!
# Little-endian integers
-/

namespace LittleEndian

/-- The `width` low bytes of `n`. -/
def encode : Nat → Nat → List UInt8
  | 0, _ => []
  | width + 1, n => UInt8.ofNat n :: encode width (n / 256)

def decode : List UInt8 → Nat
  | [] => 0
  | b :: bytes => b.toNat + 256 * decode bytes

/-- The number of values of so many bytes. -/
def capacity : Nat → Nat
  | 0 => 1
  | width + 1 => 256 * capacity width

@[simp] theorem encode_length (width n : Nat) : (encode width n).length = width := by
  induction width generalizing n with
  | zero => rfl
  | succ width ih => simp [encode, ih]

theorem decode_encode {width n : Nat} (h : n < capacity width) :
    decode (encode width n) = n := by
  induction width generalizing n with
  | zero => simp only [capacity] at h; simp [encode, decode]; omega
  | succ width ih =>
    simp only [capacity] at h
    have := @ih (n / 256) (by omega)
    simp only [encode, decode, this, UInt8.toNat_ofNat']
    omega

end LittleEndian
