import Yella.Uds.Content

/-!
# Formatted text

`udscatvprintf` tells whether a buffer was large enough by a unit close to its end. The buffers
are not initialised.
-/

namespace Yella.Uds

/-- What ICU documents: the text of the format is cut at the size of the buffer, and terminated if
there is room left. -/
def Formats (print : Buffer UChar → ℕ → Option (Buffer UChar)) (out : UStr) : Prop :=
  ∀ buf count, count ≤ buf.size → count < 2 ^ 31 →
    print buf count = buf.writeAll 0 ((out ++ [0]).take count)

variable {print : Buffer UChar → ℕ → Option (Buffer UChar)} {out l : UStr} {buf : Buffer UChar}
  {s : Uds} {fuel fmtlen : ℕ}

/-- The unit behind the text is the one that was written before. -/
theorem read_writeAll_start (out : UStr) {b : Buffer UChar} {i : ℕ}
    (written : buf.writeAll 0 out = some b) (behind : out.length ≤ i) :
    b.read i = buf.read i := by
  unfold Buffer.writeAll at written
  split at written
  · cases written
    have cut : (buf.cells.take 0 ++ out.map some).length ≤ i := by simpa using behind
    rw [Buffer.read, Buffer.read, List.getElem?_append_right cut, List.getElem?_drop]
    congr 2
    simp
    omega
  · cases written

theorem read_write {b : Buffer UChar} {i : ℕ} {c : UChar} (written : buf.write i c = some b) :
    b.read i = some c := by
  unfold Buffer.write at written
  split at written
  · rename_i inside
    cases written
    rw [Buffer.read, List.getElem?_set_self (by exact inside)]
    rfl
  · cases written

/-- One round: the text is in the buffer as far as it fits, and the unit before the last one
belongs to it or is 0. -/
theorem Formats.round (formats : Formats print out) (two : 2 ≤ buf.size)
    (small : buf.size < 2 ^ 31) :
    ∃ clean b, buf.write (buf.size - 2) 0 = some clean ∧ print clean buf.size = some b ∧
      b.Holds ((out ++ [0]).take buf.size) ∧
      b.read (buf.size - 2) = some (out[buf.size - 2]?.getD 0) := by
  have written := Buffer.write_of_lt (b := buf) (i := buf.size - 2) (by omega) 0
  have size := Buffer.size_write written
  generalize clean_eq : (⟨buf.cells.set (buf.size - 2) (some 0)⟩ : Buffer UChar) = clean at *
  have cut : 0 + ((out ++ [0]).take buf.size).length ≤ clean.size := by
    rw [size, Nat.zero_add]
    exact List.length_take_le _ _
  obtain ⟨b, all, hold, -⟩ := (Buffer.holds_nil clean).writeAll_end cut
  refine ⟨clean, b, written, (formats clean _ (Nat.le_of_eq size.symm) small).trans all, hold, ?_⟩
  rw [List.nil_append] at hold
  by_cases text : buf.size - 2 < ((out ++ [0]).take buf.size).length
  · rw [hold.read text, List.getElem?_take_of_lt (by omega)]
    simp only [List.length_take, List.length_append, List.length_singleton] at text
    rcases Nat.lt_or_ge (buf.size - 2) out.length with inside | last
    · rw [List.getElem?_append_left inside, List.getElem?_eq_getElem inside]
      rfl
    · have at_end : buf.size - 2 = out.length := by omega
      simp [at_end]
  · rw [read_writeAll_start _ all (not_lt.mp text), read_write written]
    simp only [List.length_take, List.length_append, List.length_singleton] at text
    rw [List.getElem?_eq_none (by omega)]
    rfl

/-- The text up to its first 0 does not depend on what is behind that. -/
theorem takeWhile_take_zero {n : ℕ} (inside : n < out.length) (zero : out[n] = 0) :
    (out.take n).takeWhile (· ≠ 0) = out.takeWhile (· ≠ 0) := by
  have parts : out = out.take n ++ 0 :: out.drop (n + 1) := by
    rw [← zero, List.getElem_cons_drop, List.take_append_drop]
  conv_rhs => rw [parts]
  rw [List.takeWhile_append]
  split
  · rename_i all
    have whole : (out.take n).takeWhile (· ≠ 0) = out.take n :=
      (List.takeWhile_prefix _).eq_of_length all
    rw [List.takeWhile_cons_of_neg (by simp), List.append_nil, whole]
  · rfl

theorem take_zero {n : ℕ} (inside : n < out.length) (zero : out[n] = 0) :
    (out ++ [0]).take (n + 2) = out.take n ++ [0] ++ ((out ++ [0]).drop (n + 1)).take 1 := by
  have last : (out ++ [0]).take (n + 1) = out.take n ++ [0] := by
    rw [List.take_append_of_le_length inside, ← List.take_append_getElem inside, zero]
  rw [show n + 2 = n + 1 + 1 from rfl, List.take_add, last]

/-- A buffer in which the text is found to fit holds it up to its first 0. -/
def Printed (out : UStr) (b : Buffer UChar) : Prop :=
  ∃ text, b.Holds (text ++ [0]) ∧ text.length ≤ out.length ∧
    text.takeWhile (· ≠ 0) = out.takeWhile (· ≠ 0)

/-- Either the text is found to fit, or it is longer than what the buffer can tell and the next one
is tried. -/
theorem printLoop_round (formats : Formats print out) (two : 2 ≤ buf.size)
    (small : buf.size < 2 ^ 31) :
    (∃ b, Printed out b ∧ ∀ fuel, printLoop print buf buf.size (fuel + 1) = some b) ∨
      (buf.size - 2 < out.length ∧ ∀ fuel, printLoop print buf buf.size (fuel + 1) =
        printLoop print (.malloc (buf.size * 2)) (buf.size * 2) fuel) := by
  obtain ⟨clean, b, written, printed, hold, last⟩ := formats.round two small
  have run (fuel : ℕ) : printLoop print buf buf.size (fuel + 1) =
      if out[buf.size - 2]?.getD 0 ≠ 0 then do
        let block ← udsMalloc (buf.size * 2)
        printLoop print block (buf.size * 2) fuel
      else some b := by
    rw [printLoop, written]
    simp only [Option.bind_eq_bind, Option.bind_some, printed, last]
  by_cases inside : buf.size - 2 < out.length
  · rw [List.getElem?_eq_getElem inside, Option.getD_some] at run
    by_cases zero : out[buf.size - 2] = 0
    · left
      refine ⟨b, ⟨out.take (buf.size - 2), ?_, List.length_take_le' _ _,
        takeWhile_take_zero inside zero⟩, fun fuel => ?_⟩
      · rw [← Nat.sub_add_cancel two, take_zero inside zero] at hold
        exact hold.left
      · rw [run, if_neg (not_not.mpr zero)]
    · right
      have given : udsMalloc (buf.size * 2) = some (.malloc (buf.size * 2)) := if_pos (by omega)
      exact ⟨inside, fun fuel => by rw [run, if_pos zero, given]; rfl⟩
  · left
    rw [List.getElem?_eq_none (not_lt.mp inside)] at run
    refine ⟨b, ⟨out, ?_, Nat.le_refl _, rfl⟩, fun fuel => ?_⟩
    swap
    · rw [run]
      exact if_neg (not_not.mpr rfl)
    rwa [List.take_of_length_le (by rw [List.length_append, List.length_singleton]; omega)] at hold

theorem printLoop_spec (formats : Formats print out) (two : 2 ≤ buf.size)
    (small : buf.size < 2 ^ 31) (short : out.length < 2 ^ 29)
    (enough : out.length + 2 ≤ buf.size * 2 ^ fuel) :
    ∃ b, printLoop print buf buf.size (fuel + 1) = some b ∧ Printed out b := by
  induction fuel generalizing buf with
  | zero =>
    rcases printLoop_round formats two small with ⟨b, printed, run⟩ | ⟨inside, -⟩
    · exact ⟨b, run 0, printed⟩
    · omega
  | succ fuel ih =>
    rcases printLoop_round formats two small with ⟨b, printed, run⟩ | ⟨inside, run⟩
    · exact ⟨b, run _, printed⟩
    · have size := Buffer.size_malloc (α := UChar) (buf.size * 2)
      have larger : out.length + 2 ≤ buf.size * 2 * 2 ^ fuel := by
        rw [Nat.mul_assoc, ← Nat.pow_succ']
        exact enough
      rw [← size] at larger
      have next := ih (by omega) (by omega) larger
      rw [size] at next
      rwa [run]

theorem udscat_spec (h : s.Is l) {m : UStr} (hold : buf.Holds (m ++ [0]))
    (moderate : Moderate (l.length + m.length)) :
    ∃ t, s.udscat buf = some t ∧ t.Is (l ++ m.takeWhile (· ≠ 0)) := by
  have room := hold.length_le
  rw [List.length_append, List.length_singleton] at room
  have scan : uStrlen buf 0 buf.size = some (m.takeWhile (· ≠ 0)).length :=
    uStrlen_spec (m := []) hold room
  have le : (m.takeWhile (· ≠ 0)).length ≤ m.length := (List.takeWhile_sublist _).length_le
  have start : buf.Holds (m.takeWhile (· ≠ 0)) := by
    apply Buffer.Holds.left (m := m.dropWhile (· ≠ 0))
    rw [List.takeWhile_append_dropWhile]
    exact hold.left
  have small : Moderate (l.length + (m.takeWhile (· ≠ 0)).length) :=
    lt_of_le_of_lt (Nat.add_le_add_left le _) moderate
  obtain ⟨t, eq, is, -⟩ := udscatlen_spec h small
  refine ⟨t, ?_, is⟩
  unfold Moderate at small
  rw [udscat, scan, Option.bind_eq_bind, Option.bind_some, sizeOfLength_of_lt (by omega), units,
    start.mapM_read]
  exact eq

/-- **Formatted text is appended whole.** Whatever the buffers contain and however long the text
is, the loop ends after as many buffers as the length has bits, reads no unit that has not been
written, and appends the text up to its first 0. -/
theorem udscatvprintf_appends (h : s.Is l) (formats : Formats print out) (format : fmtlen < 2 ^ 30)
    (short : out.length < 2 ^ 29) (moderate : Moderate (l.length + out.length))
    (enough : out.length < 2 ^ fuel) :
    ∃ t, s.udscatvprintf print fmtlen (fuel + 1) = some t ∧
      t.Is (l ++ out.takeWhile (· ≠ 0)) := by
  obtain ⟨buflen, eq, two, small⟩ : ∃ buflen,
      (if fmtlen * 2 > staticbufSize then fmtlen * 2 else staticbufSize) = buflen ∧
        2 ≤ buflen ∧ buflen < 2 ^ 31 := by
    refine ⟨_, rfl, ?_⟩
    unfold staticbufSize
    split <;> omega
  have size := Buffer.size_malloc (α := UChar) buflen
  have given : udsMalloc buflen = some (.malloc buflen) := if_pos (by omega)
  have fits : out.length + 2 ≤ (Buffer.malloc buflen : Buffer UChar).size * 2 ^ fuel := by
    rw [size]
    calc out.length + 2 ≤ 2 ^ fuel * 2 := by
          have := Nat.one_le_two_pow (n := fuel)
          omega
      _ ≤ buflen * 2 ^ fuel := by
        rw [Nat.mul_comm]
        exact Nat.mul_le_mul_right _ two
  rw [← size] at two small
  obtain ⟨b, run, text, hold, le, same⟩ := printLoop_spec formats two small short fits
  rw [size] at run
  have part : Moderate (l.length + text.length) :=
    lt_of_le_of_lt (Nat.add_le_add_left le _) moderate
  obtain ⟨t, appended, is⟩ := udscat_spec h hold part
  rw [same] at is
  refine ⟨t, ?_, is⟩
  simp only [udscatvprintf, eq, given, Option.bind_eq_bind, Option.bind_some, run, appended]

/-- What is formatted has a 0 in it. -/
def printSome (buf : Buffer UChar) (count : ℕ) : Option (Buffer UChar) :=
  buf.writeAll 0 (([47, 97, 0, 98] ++ [0] : UStr).take count)

theorem udscatvprintf_appends_path :
    ∃ s t, udsempty = some s ∧ s.udscatvprintf printSome 4 4 = some t ∧ t.Is [47, 97] := by
  obtain ⟨s, empty, is⟩ := udsempty_spec
  have formats : Formats printSome [47, 97, 0, 98] := fun _ _ _ _ => rfl
  have format : 4 < 2 ^ 30 := by decide
  have enough : ([47, 97, 0, 98] : UStr).length < 2 ^ 3 := by decide
  obtain ⟨t, appended, is'⟩ :=
    udscatvprintf_appends is formats format (by decide) (by decide) enough
  exact ⟨s, t, empty, appended, is'⟩

end Yella.Uds
