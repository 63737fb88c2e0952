import Mathlib.Data.Prod.Lex
import Yella.Spool.Model

/-!
# The writer against the reader

`compare_write_to_read` of `spool.c`. It cuts differences to 32 bits and returns them for their
sign.
-/

namespace Yella

/-- Partitions in the order of their sequence numbers, and offsets in them. -/
def SpoolPos.place (pos : SpoolPos) (off : Nat) : Nat ×ₗ Nat ×ₗ Nat :=
  toLex (pos.majorSeq, toLex (pos.minorSeq, off))

/-- Both streams are open. The sequence numbers are 32-bit ones and each offset fits a `long`. -/
structure Positioned (sp : Spool) (w r : Stream) : Prop where
  writef : sp.writef = some w
  readf : sp.readf = some r
  writePos : sp.writePos.Fits
  readPos : sp.readPos.Fits
  writeOff : w.off < 0x8000000000000000
  readOff : r.off < 0x8000000000000000

/-- The sign says how the writer's place is to the reader's. -/
def TellsOrder (diff : Int) (writer reader : Nat ×ₗ Nat ×ₗ Nat) : Prop :=
  (0 < diff ↔ reader < writer) ∧ (diff = 0 ↔ writer = reader) ∧ (diff < 0 ↔ writer < reader)

/-- The difference of the numbers keeps its sign in 32 bits. -/
def KeepsSign (x y : Nat) : Prop :=
  (y < x → (x - y) % 0x100000000 ≠ 0 ∧ (x - y) % 0x100000000 < 0x80000000) ∧
    (x < y → (y - x) % 0x100000000 ≠ 0 ∧ (y - x) % 0x100000000 ≤ 0x80000000)

instance decidableKeepsSign (x y : Nat) : Decidable (KeepsSign x y) :=
  inferInstanceAs (Decidable (_ ∧ _))

/-- The sequence numbers tell the order, or else the offsets do. -/
def SignsKept (sp : Spool) (w r : Stream) : Prop :=
  sp.writePos.majorSeq = sp.readPos.majorSeq →
    KeepsSign sp.writePos.minorSeq sp.readPos.minorSeq ∧
      (sp.writePos.minorSeq = sp.readPos.minorSeq → KeepsSign w.off r.off)

section
variable {sp : Spool} {w r : Stream} {x y : Nat}

theorem keepsSign_self (x : Nat) : KeepsSign x x := by
  constructor <;> exact fun less => absurd less (Nat.lt_irrefl x)

theorem toInt32_sub_eq_zero_iff (hx : x < 0x100000000) (hy : y < 0x100000000) :
    toInt32 ((x : Int) - y) = 0 ↔ x = y := by
  unfold toInt32
  omega

/-- The difference in 32 bits has the sign of the numbers' order exactly if it keeps it. -/
theorem keepsSign_iff : KeepsSign x y ↔
    (0 < toInt32 ((x : Int) - y) ↔ y < x) ∧ (toInt32 ((x : Int) - y) = 0 ↔ x = y) ∧
      (toInt32 ((x : Int) - y) < 0 ↔ x < y) := by
  unfold KeepsSign toInt32
  rcases Nat.lt_trichotomy x y with less | rfl | less <;> omega

theorem place_lt_iff {p q : SpoolPos} {m n : Nat} : p.place m < q.place n ↔
    p.majorSeq < q.majorSeq ∨ p.majorSeq = q.majorSeq ∧
      (p.minorSeq < q.minorSeq ∨ p.minorSeq = q.minorSeq ∧ m < n) := by
  simp only [SpoolPos.place, Prod.Lex.toLex_lt_toLex]

theorem place_eq_iff {p q : SpoolPos} {m n : Nat} : p.place m = q.place n ↔
    p.majorSeq = q.majorSeq ∧ p.minorSeq = q.minorSeq ∧ m = n := by
  simp only [SpoolPos.place, toLex_inj, Prod.mk.injEq]

/-- What the comparison returns, as the numbers that it looks at. -/
theorem compareWriteToRead_cases (h : Positioned sp w r) :
    (sp.readPos.majorSeq < sp.writePos.majorSeq ∧ compareWriteToRead sp = some 1) ∨
    (sp.writePos.majorSeq < sp.readPos.majorSeq ∧ compareWriteToRead sp = some (-1)) ∨
    (sp.writePos.majorSeq = sp.readPos.majorSeq ∧
      sp.writePos.minorSeq ≠ sp.readPos.minorSeq ∧
      compareWriteToRead sp =
        some (toInt32 ((sp.writePos.minorSeq : Int) - sp.readPos.minorSeq))) ∨
    (sp.writePos.majorSeq = sp.readPos.majorSeq ∧
      sp.writePos.minorSeq = sp.readPos.minorSeq ∧
      compareWriteToRead sp = some (toInt32 ((w.off : Int) - r.off))) := by
  have zero := toInt32_sub_eq_zero_iff h.writePos.2 h.readPos.2
  unfold compareWriteToRead
  rw [h.writef, h.readf]
  rcases Nat.lt_trichotomy sp.writePos.majorSeq sp.readPos.majorSeq with less | same | less
  · refine .inr (.inl ⟨less, ?_⟩)
    rw [if_neg (by omega), if_neg (by omega)]
  · rw [if_neg (by omega), if_pos same]
    by_cases minors : sp.writePos.minorSeq = sp.readPos.minorSeq
    · exact .inr (.inr (.inr ⟨same, minors, if_pos (zero.mpr minors)⟩))
    · exact .inr (.inr (.inl ⟨same, minors, if_neg fun h => minors (zero.mp h)⟩))
  · exact .inl ⟨less, if_pos less⟩

/-- The numbers that decide between two places decide for the difference that is returned. -/
theorem tellsOrder_iff_keepsSign {p q : Nat ×ₗ Nat ×ₗ Nat} (below : p < q ↔ x < y)
    (same : p = q ↔ x = y) (above : q < p ↔ y < x) :
    TellsOrder (toInt32 ((x : Int) - y)) p q ↔ KeepsSign x y := by
  rw [TellsOrder, below, same, above, keepsSign_iff]

/-- **Position comparison.** The sign is right exactly if it does not depend on bits that are cut
off. -/
theorem compareWriteToRead_tellsOrder_iff (h : Positioned sp w r) :
    (∃ diff ∈ compareWriteToRead sp,
      TellsOrder diff (sp.writePos.place w.off) (sp.readPos.place r.off)) ↔
      SignsKept sp w r := by
  have below : sp.writePos.place w.off < sp.readPos.place r.off ↔ _ := place_lt_iff
  have same : sp.writePos.place w.off = sp.readPos.place r.off ↔ _ := place_eq_iff
  have above : sp.readPos.place r.off < sp.writePos.place w.off ↔ _ := place_lt_iff
  unfold SignsKept
  rcases compareWriteToRead_cases h with
    ⟨majors, eq⟩ | ⟨majors, eq⟩ | ⟨majors, minors, eq⟩ | ⟨majors, minors, eq⟩
  · have right : TellsOrder 1 (sp.writePos.place w.off) (sp.readPos.place r.off) := by
      rw [TellsOrder, below, same, above]
      omega
    rw [eq]
    exact iff_of_true ⟨1, rfl, right⟩ fun same => absurd same (Nat.ne_of_gt majors)
  · have right : TellsOrder (-1) (sp.writePos.place w.off) (sp.readPos.place r.off) := by
      rw [TellsOrder, below, same, above]
      omega
    rw [eq]
    exact iff_of_true ⟨-1, rfl, right⟩ fun same => absurd same (Nat.ne_of_lt majors)
  · have kept := tellsOrder_iff_keepsSign (x := sp.writePos.minorSeq)
      (y := sp.readPos.minorSeq) (below.trans (by omega)) (same.trans (by omega))
      (above.trans (by omega))
    rw [eq]
    simp [kept, majors, minors]
  · have kept := tellsOrder_iff_keepsSign (x := w.off) (y := r.off) (below.trans (by omega))
      (same.trans (by omega)) (above.trans (by omega))
    rw [eq]
    simp [kept, majors, minors, keepsSign_self]

end

/-- A writer and a reader at the start of the partitions with these minor sequence numbers. -/
def spoolAt (writeMinor readMinor : Nat) : Spool where
  disk := Disk.empty
  listings := 0
  writePos := ⟨1, writeMinor⟩
  writef := some ⟨0, headerSize, false⟩
  readPos := ⟨1, readMinor⟩
  readf := some ⟨1, headerSize, false⟩
  readFileName := none
  writeFileName := none
  stats := ⟨0, 0, 0, 0, 0, 0, 0, 0, 0, 0, 0, 0⟩
  totalEventBytesWritten := 0

theorem spoolAt_positioned {m n : Nat} (hm : m < 0x100000000) (hn : n < 0x100000000) :
    Positioned (spoolAt m n) ⟨0, headerSize, false⟩ ⟨1, headerSize, false⟩ where
  writef := rfl
  readf := rfl
  writePos := ⟨show 1 < 0x100000000 by decide, hm⟩
  readPos := ⟨show 1 < 0x100000000 by decide, hn⟩
  writeOff := by decide
  readOff := by decide

/-- The writer is in the partition after the one that is read. -/
theorem compareWriteToRead_tellsOrder_next : ∃ diff ∈ compareWriteToRead (spoolAt 1 0),
    TellsOrder diff ((spoolAt 1 0).writePos.place headerSize)
      ((spoolAt 1 0).readPos.place headerSize) :=
  (compareWriteToRead_tellsOrder_iff (spoolAt_positioned (by decide) (by decide))).mpr
    fun _ => ⟨by decide, fun same => absurd same (by decide)⟩

/-- The writer is 2^31 partitions further, and seems to be behind the reader. -/
theorem not_tellsOrder_halfway : compareWriteToRead (spoolAt 0x80000000 0) = some (-0x80000000) ∧
    (spoolAt 0x80000000 0).readPos.place headerSize <
      (spoolAt 0x80000000 0).writePos.place headerSize ∧
    ¬ ∀ sp w r, Positioned sp w r → ∃ diff ∈ compareWriteToRead sp,
      TellsOrder diff (sp.writePos.place w.off) (sp.readPos.place r.off) := by
  have behind : compareWriteToRead (spoolAt 0x80000000 0) = some (-0x80000000) := by decide
  have further : (spoolAt 0x80000000 0).readPos.place headerSize <
      (spoolAt 0x80000000 0).writePos.place headerSize :=
    place_lt_iff.mpr (.inr ⟨rfl, .inl (by decide)⟩)
  refine ⟨behind, further, fun all => ?_⟩
  obtain ⟨diff, hd, right⟩ := all _ _ _ (spoolAt_positioned (m := 0x80000000) (n := 0)
    (by decide) (by decide))
  obtain rfl := Option.some.inj (behind.symm.trans hd)
  exact absurd (right.1.mpr further) (by decide)

end Yella
