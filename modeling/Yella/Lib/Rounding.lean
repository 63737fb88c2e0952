import Mathlib.Data.Nat.Log
import Mathlib.Tactic.Ring

/-!
# Rounding to a number of binary digits

To the nearest number that has at most `p` significant digits, and to an even one in a tie.
-/

namespace Rounding

/-- The length of the binary representation. -/
def digits (n : Nat) : Nat := if n = 0 then 0 else n.log2 + 1

theorem digits_le_iff {n k : Nat} : digits n ≤ k ↔ n < 2 ^ k := by
  unfold digits
  split
  · rename_i zero
    subst zero
    exact iff_of_true (Nat.zero_le k) (Nat.two_pow_pos k)
  · rename_i pos
    rw [← Nat.log2_lt pos]
    omega

/-- The quotient nearest to `n / unit`. -/
def nearestEven (n unit : Nat) : Nat :=
  let q := n / unit
  let r := n % unit
  if 2 * r < unit then q else if unit < 2 * r then q + 1 else q + q % 2

def toPrecision (p n : Nat) : Nat :=
  let unit := 2 ^ (digits n - p)
  nearestEven n unit * unit

theorem nearestEven_of_dvd {n unit : Nat} (pos : 0 < unit) (h : unit ∣ n) :
    nearestEven n unit * unit = n := by
  have whole : n % unit = 0 := Nat.mod_eq_zero_of_dvd h
  simp only [nearestEven, whole, Nat.mul_zero, pos, ↓reduceIte]
  exact Nat.div_mul_cancel h

/-- A multiple of a power of two that is not too large is kept as it is. -/
theorem toPrecision_of_dvd {p k n : Nat} (h : 2 ^ k ∣ n) (small : n < 2 ^ (p + k)) :
    toPrecision p n = n := by
  apply nearestEven_of_dvd (Nat.two_pow_pos _)
  have fits : digits n ≤ p + k := digits_le_iff.mpr small
  exact dvd_trans (Nat.pow_dvd_pow 2 (by omega)) h

theorem nearestEven_ge {unit : Nat} (pos : 0 < unit) (n : Nat) :
    2 * n ≤ 2 * (nearestEven n unit * unit) + unit := by
  have small := Nat.mod_lt n pos
  have whole := Nat.div_add_mod n unit
  have comm : n / unit * unit = unit * (n / unit) := Nat.mul_comm _ _
  unfold nearestEven
  dsimp only
  split
  · omega
  · split
    · rw [Nat.add_mul]
      omega
    · rw [Nat.add_mul]
      omega

/-- Rounding takes away a small part. -/
theorem le_toPrecision {p n : Nat} (hp : 4 ≤ p) : 15 * n ≤ 16 * toPrecision p n := by
  have near := nearestEven_ge (Nat.two_pow_pos (digits n - p)) n
  by_cases small : digits n ≤ p
  · have exact : toPrecision p n = n := by
      apply toPrecision_of_dvd (k := 0) (by simp)
      exact digits_le_iff.mp small
    omega
  · have long : ¬ n < 2 ^ (digits n - 1) := by
      rw [← digits_le_iff]
      omega
    have part : 2 ^ (digits n - p) * 8 ≤ 2 ^ (digits n - 1) := by
      rw [show (8 : Nat) = 2 ^ 3 by rfl, ← Nat.pow_add]
      exact Nat.pow_le_pow_right (by decide) (by omega)
    show 15 * n ≤ 16 * (nearestEven n (2 ^ (digits n - p)) * 2 ^ (digits n - p))
    omega

end Rounding
