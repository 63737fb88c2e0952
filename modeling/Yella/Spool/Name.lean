import Yella.Text

/-!
# Names of spool partitions

`spool_file_name` of `spool.c` and the scan of `find_file`. Names are relative to the spool
directory.
-/

namespace Yella

structure SpoolPos where
  majorSeq : Nat
  minorSeq : Nat
  deriving DecidableEq, Repr

def decimal (n : Nat) : UStr := (Nat.toDigits 10 n).map (fun c => UInt16.ofNat c.toNat)

/-- `".yella.spool"` -/
def spoolSuffix : UStr := [46, 121, 101, 108, 108, 97, 46, 115, 112, 111, 111, 108]

def spoolFileName (pos : SpoolPos) : UStr :=
  decimal pos.majorSeq ++ 45 :: decimal pos.minorSeq ++ spoolSuffix

def isDigit (c : UChar) : Bool := 48 ≤ c && c ≤ 57

/-- `%u`: the value of the digits, in a `uint32_t`, and what follows them. -/
def scanUnsigned (s : UStr) : Option (Nat × UStr) :=
  let digits := s.takeWhile isDigit
  if digits = [] then none
  else some (digits.foldl (fun n c => n * 10 + (c.toNat - 48)) 0 % 0x100000000,
    s.dropWhile isDigit)

/-- `u"%u-%u"` -/
def scanName (name : UStr) : Option SpoolPos := do
  let (majorSeq, rest) ← scanUnsigned name
  if rest.head? = some 45 then
    let (minorSeq, _) ← scanUnsigned rest.tail
    some ⟨majorSeq, minorSeq⟩
  else none

/-- A sequence number that fits. -/
def SpoolPos.Fits (pos : SpoolPos) : Prop :=
  pos.majorSeq < 0x100000000 ∧ pos.minorSeq < 0x100000000

theorem toDigits_digit {n : Nat} {c : Char} (h : c ∈ Nat.toDigits 10 n) :
    48 ≤ c.toNat ∧ c.toNat ≤ 57 := by
  have := Nat.isDigit_of_mem_toDigits (by decide) (by decide) h
  simpa [Char.isDigit, UInt32.le_iff_toNat_le] using this

theorem decimal_isDigit {n : Nat} : ∀ c ∈ decimal n, isDigit c = true := by
  intro c hc
  obtain ⟨d, hd, rfl⟩ := List.mem_map.mp hc
  have := toDigits_digit hd
  simp only [isDigit, UInt16.le_iff_toNat_le, UInt16.toNat_ofNat', Bool.and_eq_true,
    decide_eq_true_eq]
  simp
  omega

theorem decimal_value (n : Nat) :
    (decimal n).foldl (fun n c => n * 10 + (c.toNat - 48)) 0 = n := by
  have fold : ∀ (cs : List Char) (m : Nat), (∀ c ∈ cs, c.toNat ≤ 57) →
      cs.foldl (fun m c => m * 10 + ((UInt16.ofNat c.toNat).toNat - 48)) m =
        Nat.ofDigitChars 10 cs m := by
    intro cs
    induction cs with
    | nil => intro m _; simp
    | cons c cs ih =>
      intro m h
      rw [List.forall_mem_cons] at h
      have small : c.toNat % 65536 = c.toNat := by omega
      rw [List.foldl_cons, ih _ h.2, Nat.ofDigitChars_cons, UInt16.toNat_ofNat', Nat.mul_comm]
      simp [small]
  rw [decimal, List.foldl_map, fold _ _ fun c hc => (toDigits_digit hc).2]
  exact Nat.ofDigitChars_ten_toDigits

theorem scanUnsigned_decimal {n : Nat} {c : UChar} {rest : UStr} (hn : n < 0x100000000)
    (hc : isDigit c = false) : scanUnsigned (decimal n ++ c :: rest) = some (n, c :: rest) := by
  have take : (decimal n ++ c :: rest).takeWhile isDigit = decimal n := by
    rw [List.takeWhile_append_of_pos decimal_isDigit]
    simp [hc]
  have drop : (decimal n ++ c :: rest).dropWhile isDigit = c :: rest := by
    rw [List.dropWhile_append_of_pos decimal_isDigit]
    simp [hc]
  have ne : decimal n ≠ [] := by simp [decimal, Nat.toDigits_ne_nil]
  simp [scanUnsigned, take, drop, ne, decimal_value, Nat.mod_eq_of_lt hn]

/-- The scan finds what was printed. -/
theorem scanName_spoolFileName {pos : SpoolPos} (h : pos.Fits) :
    scanName (spoolFileName pos) = some pos := by
  have dash : isDigit 45 = false := by decide
  have minor : scanUnsigned (decimal pos.minorSeq ++ spoolSuffix) =
      some (pos.minorSeq, spoolSuffix) := scanUnsigned_decimal h.2 (by decide)
  simp [scanName, spoolFileName, scanUnsigned_decimal h.1 dash, minor]

theorem spoolFileName_inj {p q : SpoolPos} (hp : p.Fits) (hq : q.Fits) :
    spoolFileName p = spoolFileName q ↔ p = q := by
  refine ⟨fun h => ?_, fun h => by rw [h]⟩
  have := scanName_spoolFileName hp
  rw [h, scanName_spoolFileName hq] at this
  exact (Option.some.inj this).symm

end Yella
