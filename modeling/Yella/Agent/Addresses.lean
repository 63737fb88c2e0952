import Yella.Agent.Heartbeat

/-!
# Reachable addresses

The addresses that `acceptable_addr` leaves out, in either byte order.
-/

namespace Yella

/-- The number of an IPv4 address. -/
def ipv4 (b₀ b₁ b₂ b₃ : UInt8) : Nat :=
  ((b₀.toNat * 256 + b₁.toNat) * 256 + b₂.toNat) * 256 + b₃.toNat

def byteAt (addr : Vector UInt8 16) (n : Nat) : UInt8 := addr.toList.getD n 0

/-- `fe80::/10`: the first ten bits. -/
def LinkLocal6 (addr : Vector UInt8 16) : Prop :=
  byteAt addr 0 = 0xfe ∧ (byteAt addr 1).toNat / 64 = 2

/-- Neither the loopback address nor in `169.254.0.0/16` or `fe80::/10`. -/
def SockAddr.Reachable : SockAddr → Prop
  | .inet b₀ b₁ b₂ b₃ => [b₀, b₁, b₂, b₃] ≠ [127, 0, 0, 1] ∧ ¬ (b₀ = 169 ∧ b₁ = 254)
  | .inet6 addr => addr ≠ loopback6 ∧ ¬ LinkLocal6 addr
  | .other => False

/-- Where the swapped bounds make no difference: outside the ranges that they are the bounds of. -/
def SockAddr.BoundsAgree : ByteOrder → SockAddr → Prop
  | .big, _ | .little, .other => True
  | .little, .inet b₀ b₁ b₂ b₃ =>
    ¬ (b₀ = 169 ∧ b₁ = 254) ∧
      ¬ (ipv4 254 169 0 0 ≤ ipv4 b₀ b₁ b₂ b₃ ∧ ipv4 b₀ b₁ b₂ b₃ ≤ ipv4 255 255 254 169)
  | .little, .inet6 addr =>
    LinkLocal6 addr ∨
      ¬ (0x80fe ≤ (byteAt addr 1).toNat * 256 + (byteAt addr 0).toNat ∧
        (byteAt addr 1).toNat * 256 + (byteAt addr 0).toNat < 0xc0fe)

/-! ## Byte orders as numbers -/

section
variable {order : ByteOrder} {b₀ b₁ b₂ b₃ : UInt8}

theorem shiftLeft8_or (x y : UInt8) :
    (x.toUInt16 <<< 8 ||| y.toUInt16).toNat = x.toNat * 256 + y.toNat := by
  have hx := x.toNat_lt
  have hy := y.toNat_lt
  rw [UInt16.toNat_or, UInt16.toNat_shiftLeft, UInt8.toNat_toUInt16, UInt8.toNat_toUInt16]
  have small : x.toNat <<< 8 % 2 ^ 16 = x.toNat <<< 8 := by
    rw [Nat.shiftLeft_eq]
    omega
  show x.toNat <<< 8 % 2 ^ 16 ||| y.toNat = _
  rw [small, ← Nat.shiftLeft_add_eq_or_of_lt hy, Nat.shiftLeft_eq]

theorem shiftLeft16_or (x y : UInt16) :
    (x.toUInt32 <<< 16 ||| y.toUInt32).toNat = x.toNat * 65536 + y.toNat := by
  have hx := x.toNat_lt
  have hy := y.toNat_lt
  rw [UInt32.toNat_or, UInt32.toNat_shiftLeft, UInt16.toNat_toUInt32, UInt16.toNat_toUInt32]
  have small : x.toNat <<< 16 % 2 ^ 32 = x.toNat <<< 16 := by
    rw [Nat.shiftLeft_eq]
    omega
  show x.toNat <<< 16 % 2 ^ 32 ||| y.toNat = _
  rw [small, ← Nat.shiftLeft_add_eq_or_of_lt hy, Nat.shiftLeft_eq]

theorem ntohs_little (x : UInt16) :
    (ByteOrder.little.ntohs x).toNat = x.toNat % 256 * 256 + x.toNat / 256 := by
  have hx := x.toNat_lt
  have low : x.toNat <<< 8 % 2 ^ 16 = (x.toNat % 256) <<< 8 := by
    rw [Nat.shiftLeft_eq, Nat.shiftLeft_eq]
    omega
  have high : x.toNat / 256 < 2 ^ 8 := by omega
  rw [ByteOrder.ntohs, UInt16.toNat_or, UInt16.toNat_shiftLeft, UInt16.toNat_shiftRight]
  show x.toNat <<< 8 % 2 ^ 16 ||| x.toNat >>> 8 = _
  rw [low, Nat.shiftRight_eq_div_pow, ← Nat.shiftLeft_add_eq_or_of_lt high, Nat.shiftLeft_eq]

theorem load16_big : (ByteOrder.big.load16 b₀ b₁).toNat = b₀.toNat * 256 + b₁.toNat :=
  shiftLeft8_or b₀ b₁

theorem load16_little : (ByteOrder.little.load16 b₀ b₁).toNat = b₁.toNat * 256 + b₀.toNat :=
  shiftLeft8_or b₁ b₀

theorem ntohl_little {x : UInt32} {high low : Nat} (h : x.toNat = high * 65536 + low)
    (hlow : low < 65536) : (ByteOrder.little.ntohl x).toNat =
      (low % 256 * 256 + low / 256) * 65536 + (high % 256 * 256 + high / 256) := by
  have hx := x.toNat_lt
  have lowWord : x.toUInt16.toNat = low := by
    rw [UInt32.toNat_toUInt16]
    omega
  have highWord : (x >>> 16).toUInt16.toNat = high := by
    have shifted : (x >>> 16).toNat = x.toNat / 65536 := by
      rw [UInt32.toNat_shiftRight]
      exact Nat.shiftRight_eq_div_pow x.toNat 16
    rw [UInt32.toNat_toUInt16, shifted]
    omega
  rw [ByteOrder.ntohl, shiftLeft16_or, ntohs_little, ntohs_little, lowWord, highWord]

/-- What is loaded and brought to the order of the host is the same in both orders. -/
theorem ntohl_load32 : (order.ntohl (order.load32 b₀ b₁ b₂ b₃)).toNat = ipv4 b₀ b₁ b₂ b₃ := by
  have h₀ := b₀.toNat_lt
  have h₁ := b₁.toNat_lt
  have h₂ := b₂.toNat_lt
  have h₃ := b₃.toNat_lt
  cases order with
  | little =>
    have load : (ByteOrder.little.load32 b₀ b₁ b₂ b₃).toNat =
        (b₃.toNat * 256 + b₂.toNat) * 65536 + (b₁.toNat * 256 + b₀.toNat) := by
      rw [ByteOrder.load32, shiftLeft16_or, load16_little, load16_little]
    rw [ntohl_little load (by omega), ipv4]
    omega
  | big =>
    rw [ByteOrder.ntohl, ByteOrder.load32, shiftLeft16_or, load16_big, load16_big, ipv4]
    omega

end

/-! ## What is accepted -/

theorem acceptableAddr_inet (order : ByteOrder) (b₀ b₁ b₂ b₃ : UInt8) :
    acceptableAddr order (.inet b₀ b₁ b₂ b₃) = true ↔ [b₀, b₁, b₂, b₃] ≠ [127, 0, 0, 1] ∧
      (ipv4 b₀ b₁ b₂ b₃ < ((order.ntohs 0xa9fe).toUInt32 <<< 16).toNat ∨
        (order.ntohl 0xa9feffff).toNat < ipv4 b₀ b₁ b₂ b₃) := by
  rw [acceptableAddr]
  split
  · rename_i loopback
    exact iff_of_false Bool.false_ne_true fun h => h.1 loopback
  · rename_i other
    simp only [Bool.or_eq_true, decide_eq_true_eq, UInt32.lt_iff_toNat_lt, gt_iff_lt, ntohl_load32]
    exact (and_iff_right other).symm

theorem acceptableAddr_inet6 (order : ByteOrder) (addr : Vector UInt8 16) :
    acceptableAddr order (.inet6 addr) = true ↔ addr ≠ loopback6 ∧
      ((order.load16 (byteAt addr 0) (byteAt addr 1)).toNat < (order.ntohs 0xfe80).toNat ∨
        (order.ntohs 0xfec0).toNat ≤ (order.load16 (byteAt addr 0) (byteAt addr 1)).toNat) := by
  have first : addr[0] = byteAt addr 0 := by simp [byteAt]
  have second : addr[1] = byteAt addr 1 := by simp [byteAt]
  rw [acceptableAddr, first, second]
  split
  · rename_i loopback
    exact iff_of_false Bool.false_ne_true fun h => h.1 loopback
  · rename_i other
    simp only [Bool.or_eq_true, decide_eq_true_eq, UInt16.lt_iff_toNat_lt, UInt16.le_iff_toNat_le,
      ge_iff_le]
    exact (and_iff_right other).symm

theorem loopback_iff {b₀ b₁ b₂ b₃ : UInt8} :
    [b₀, b₁, b₂, b₃] = [127, 0, 0, 1] ↔ ipv4 b₀ b₁ b₂ b₃ = 0x7f000001 := by
  have h₀ := b₀.toNat_lt
  have h₁ := b₁.toNat_lt
  have h₂ := b₂.toNat_lt
  have h₃ := b₃.toNat_lt
  simp only [List.cons.injEq, and_true, ← UInt8.toNat_inj, ipv4]
  simp
  omega

theorem linkLocal_iff {b₀ b₁ b₂ b₃ : UInt8} : b₀ = 169 ∧ b₁ = 254 ↔
    0xa9fe0000 ≤ ipv4 b₀ b₁ b₂ b₃ ∧ ipv4 b₀ b₁ b₂ b₃ ≤ 0xa9feffff := by
  have h₀ := b₀.toNat_lt
  have h₁ := b₁.toNat_lt
  have h₂ := b₂.toNat_lt
  have h₃ := b₃.toNat_lt
  simp only [← UInt8.toNat_inj, ipv4]
  simp
  omega

theorem inet_reachable_iff (order : ByteOrder) (b₀ b₁ b₂ b₃ : UInt8) :
    (acceptableAddr order (.inet b₀ b₁ b₂ b₃) = true ↔ (SockAddr.inet b₀ b₁ b₂ b₃).Reachable) ↔
      (SockAddr.inet b₀ b₁ b₂ b₃).BoundsAgree order := by
  rw [acceptableAddr_inet, SockAddr.Reachable, ne_eq, loopback_iff, @linkLocal_iff b₀ b₁ b₂ b₃]
  cases order with
  | little =>
    have start : ((ByteOrder.little.ntohs 0xa9fe).toUInt32 <<< 16).toNat = 0xfea90000 := rfl
    have stop : (ByteOrder.little.ntohl 0xa9feffff).toNat = 0xfffffea9 := rfl
    have first : ipv4 254 169 0 0 = 0xfea90000 := rfl
    have last : ipv4 255 255 254 169 = 0xfffffea9 := rfl
    rw [start, stop, SockAddr.BoundsAgree, @linkLocal_iff b₀ b₁ b₂ b₃, first, last]
    omega
  | big =>
    have start : ((ByteOrder.big.ntohs 0xa9fe).toUInt32 <<< 16).toNat = 0xa9fe0000 := rfl
    have stop : (ByteOrder.big.ntohl 0xa9feffff).toNat = 0xa9feffff := rfl
    rw [start, stop, SockAddr.BoundsAgree, iff_true]
    omega

/-- The loopback address is outside the range between the swapped bounds. -/
theorem inet6_reachable_iff (order : ByteOrder) (addr : Vector UInt8 16) :
    (acceptableAddr order (.inet6 addr) = true ↔ (SockAddr.inet6 addr).Reachable) ↔
      (SockAddr.inet6 addr).BoundsAgree order := by
  have h₀ := (byteAt addr 0).toNat_lt
  have h₁ := (byteAt addr 1).toNat_lt
  have loopback : (byteAt loopback6 0).toNat = 0 ∧ (byteAt loopback6 1).toNat = 0 := ⟨rfl, rfl⟩
  have local6 : LinkLocal6 addr ↔
      (byteAt addr 0).toNat = 0xfe ∧ (byteAt addr 1).toNat / 64 = 2 := by
    rw [LinkLocal6, ← UInt8.toNat_inj]
    rfl
  rw [acceptableAddr_inet6, SockAddr.Reachable]
  cases order with
  | little =>
    have start : (ByteOrder.little.ntohs 0xfe80).toNat = 0x80fe := rfl
    have stop : (ByteOrder.little.ntohs 0xfec0).toNat = 0xc0fe := rfl
    rw [start, stop, load16_little, SockAddr.BoundsAgree, local6]
    by_cases here : addr = loopback6
    · simp only [here, ne_eq, not_true_eq_false, false_and, iff_self, true_iff]
      omega
    · simp only [ne_eq, here, not_false_eq_true, true_and]
      omega
  | big =>
    have start : (ByteOrder.big.ntohs 0xfe80).toNat = 0xfe80 := rfl
    have stop : (ByteOrder.big.ntohs 0xfec0).toNat = 0xfec0 := rfl
    rw [start, stop, load16_big, SockAddr.BoundsAgree, local6, iff_true]
    apply and_congr_right
    intro _
    omega

/-- Exactly the reachable addresses are accepted where the bounds agree: on a big-endian host
always. -/
theorem acceptableAddr_iff_reachable (order : ByteOrder) (addr : SockAddr) :
    (acceptableAddr order addr = true ↔ addr.Reachable) ↔ addr.BoundsAgree order := by
  cases addr with
  | inet b₀ b₁ b₂ b₃ => exact inet_reachable_iff order b₀ b₁ b₂ b₃
  | inet6 addr => exact inet6_reachable_iff order addr
  | other =>
    apply iff_of_true
    · exact iff_of_false Bool.false_ne_true id
    · cases order <;> trivial

/-- On a little-endian host `169.254.1.1` is accepted. -/
theorem linkLocal_accepted : ¬ (acceptableAddr .little (.inet 169 254 1 1) = true ↔
    (SockAddr.inet 169 254 1 1).Reachable) := by
  intro same
  obtain ⟨-, reachable⟩ := same.mp (by decide)
  exact reachable ⟨rfl, rfl⟩

end Yella
