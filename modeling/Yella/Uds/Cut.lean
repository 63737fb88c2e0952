import Mathlib.Data.List.DropRight
import Yella.Uds.Content

/-!
# Shorter strings

The functions of `uds.c` that keep a part of the string, the one that gives free room back, and
the one that sets the length after the caller has written behind the string.
-/

namespace Yella.Uds

section
variable {s t : Uds} {l m k : UStr} {n : ℕ} {c : UChar} {found : UChar → Bool}

/-! ## Trimming -/

theorem trimStart_spec (found : UChar → Bool) (hold : s.buf.Holds (k ++ m)) :
    s.trimStart found k.length m.length = some (k.length + (m.takeWhile found).length) := by
  induction m generalizing k with
  | nil => rfl
  | cons c m ih =>
    have here : s.buf.read k.length = some c := by
      rw [hold.read (by simp)]
      simp
    have next := ih (k := k ++ [c]) (by simpa using hold)
    rw [List.length_append, List.length_singleton] at next
    by_cases stop : found c = true
    · simp only [List.length_cons, trimStart, here, Option.bind_eq_bind, Option.bind_some, stop,
        if_true, next, List.takeWhile_cons]
      congr 1
      omega
    · simp [trimStart, here, stop]

/-- The unit at `sp` is not skipped, so the search from behind ends there at the latest. -/
theorem trimEnd_spec (hold : s.buf.Holds (k ++ c :: m)) (stop : found c = false) :
    s.trimEnd found k.length m.length =
      some (k.length + ((c :: m).rdropWhile found).length - 1) := by
  induction m using List.reverseRecOn with
  | nil => simp [trimEnd, List.rdropWhile, stop]
  | append_singleton m d ih =>
    have here : s.buf.read (k.length + (m.length + 1)) = some d := by
      rw [hold.read (by simp)]
      simp
    have less := ih (by
      apply Buffer.Holds.left (m := [d])
      simpa using hold)
    rw [List.length_append, List.length_singleton, trimEnd, here, Option.bind_eq_bind,
      Option.bind_some, ← List.cons_append]
    by_cases last : found d = true
    · rw [if_pos last, less, List.rdropWhile_concat_pos _ _ _ last]
    · rw [if_neg last, List.rdropWhile_concat_neg _ _ _ last]
      simp

/-- What `udstrim` keeps. -/
def trimmed (found : UChar → Bool) (l : UStr) : UStr := (l.dropWhile found).rdropWhile found

theorem keepPart_spec (moves : Bool) (h : s.Is (k ++ l ++ m)) (moderate : Moderate l.length)
    (still : moves = false → k = [] ∨ l = []) :
    ∃ t, s.keepPart moves k.length l.length = some t ∧ t.Is l := by
  have less : l.length ≤ (k ++ l ++ m).length := by simp; omega
  have room := h.room.mono less
  unfold Moderate at moderate
  have front : ∃ buf, (if moves = true then s.buf.move 0 k.length (unitCount l.length)
      else some s.buf) = some buf ∧ buf.Holds l ∧ buf.size = s.buf.size := by
    cases moves with
    | true =>
      rw [unitCount_of_lt (by omega)]
      exact h.content.left.move_front
    | false =>
      refine ⟨s.buf, rfl, ?_, rfl⟩
      rcases still rfl with rfl | rfl
      · exact h.content.left
      · exact Buffer.holds_nil _
  obtain ⟨buf, moved, held, size⟩ := front
  obtain ⟨t, ended, is⟩ := (room.withBuf size).terminate held
  refine ⟨_, ?_, is⟩
  unfold keepPart
  rw [Option.bind_eq_bind]
  cases moves with
  | true =>
    rw [if_pos rfl] at moved ⊢
    simp only [moved, Option.bind_eq_bind, Option.bind_some, ended]
  | false =>
    cases moved
    rw [if_neg (by simp)]
    simp only [Option.bind_eq_bind, Option.bind_some, ended]

theorem trimBounds_spec (found : UChar → Bool) (h : s.Is l) :
    ∃ k m, l = k ++ trimmed found l ++ m ∧
      s.trimBounds found = some (k.length, (trimmed found l).length) := by
  have split : l.takeWhile found ++ l.dropWhile found = l := List.takeWhile_append_dropWhile
  have start : s.trimStart found 0 l.length = some (l.takeWhile found).length := by
    have := trimStart_spec found (k := []) (m := l) h.content
    simpa using this
  have bounds : s.trimBounds found =
      if (l.takeWhile found).length < l.length then
        (s.trimEnd found (l.takeWhile found).length
          (l.length - 1 - (l.takeWhile found).length)).map
          fun ep => ((l.takeWhile found).length, ep - (l.takeWhile found).length + 1)
      else some ((l.takeWhile found).length, 0) := by
    unfold trimBounds
    simp only [udslen, h.len, start, Option.bind_eq_bind, Option.bind_some]
  rw [bounds]
  unfold trimmed
  cases rest : l.dropWhile found with
  | nil =>
    rw [rest, List.append_nil] at split
    refine ⟨l.takeWhile found, [], by simp [split], ?_⟩
    rw [split, if_neg (Nat.lt_irrefl _)]
    rfl
  | cons c body =>
    have stop : found c = false := by
      have := List.head?_dropWhile_not found l
      rw [rest] at this
      simpa using this
    rw [rest] at split
    have len : l.length = (l.takeWhile found).length + (body.length + 1) := by
      rw [← List.length_cons (a := c), ← List.length_append, split]
    obtain ⟨tail, cut⟩ := List.rdropWhile_prefix found (l := c :: body)
    refine ⟨l.takeWhile found, tail, ?_, ?_⟩
    · rw [List.append_assoc, cut, split]
    · have hold : s.buf.Holds (l.takeWhile found ++ c :: body) := by
        rw [split]
        exact h.content
      have some : 0 < ((c :: body).rdropWhile found).length := by
        apply List.length_pos_iff.mpr
        intro none
        have := List.rdropWhile_eq_nil_iff.mp none c (by simp)
        simp [stop] at this
      have left : l.length - 1 - (l.takeWhile found).length = body.length := by omega
      rw [if_pos (by omega), left, trimEnd_spec hold stop, Option.map_some]
      congr 2
      omega

theorem udstrim_spec (h : s.Is l) (moderate : Moderate l.length) (found : UChar → Bool) :
    ∃ t, s.udstrim found = some t ∧ t.Is (trimmed found l) := by
  obtain ⟨k, m, split, bounds⟩ := trimBounds_spec found h
  have part : Moderate (trimmed found l).length := by
    refine lt_of_le_of_lt ?_ moderate
    conv_rhs => rw [split]
    rw [List.length_append, List.length_append]
    omega
  rw [split] at h
  obtain ⟨t, kept, is⟩ := keepPart_spec (decide (k.length ≠ 0)) h part fun still => by
    left
    simpa using still
  exact ⟨t, by rw [udstrim, bounds]; exact kept, is⟩

/-! ## Ranges -/

/-- The units before the part, the part and the units behind it. -/
theorem rangeBounds_spec (some : l ≠ []) (start last : ℤ) :
    ∃ k m, l = k ++ udsrange l start last ++ m ∧
      (rangeBounds l.length start last).2 = (udsrange l start last).length ∧
      ((rangeBounds l.length start last).2 ≠ 0 →
        (rangeBounds l.length start last).1 = k.length) := by
  have pos : 0 < l.length := List.length_pos_iff.mpr some
  unfold rangeBounds udsrange
  rw [if_neg (by omega)]
  simp only
  generalize from' : (if start < 0 then max ((l.length : ℤ) + start) 0 else start) = a
  generalize upto : (if last < 0 then max ((l.length : ℤ) + last) 0 else last) = b
  have ha : 0 ≤ a := by
    subst from'
    split <;> omega
  have part (n : ℕ) : l = l.take a.toNat ++ (l.drop a.toNat).take n ++ (l.drop a.toNat).drop n := by
    rw [List.append_assoc, List.take_append_drop, List.take_append_drop]
  by_cases none : a > b ∨ a ≥ l.length
  · rw [if_pos none]
    refine ⟨[], l, rfl, ?_, fun h => ?_⟩
    · rw [List.length_nil]
      by_cases gt : a > b
      · simp [gt]
      · have ge : a ≥ l.length := by omega
        have more : b - a + 1 ≠ 0 := by omega
        rw [if_neg gt, if_pos more, if_pos ge]
        rfl
    · exfalso
      apply h
      by_cases gt : a > b
      · simp [gt]
      · have ge : a ≥ l.length := by omega
        have more : b - a + 1 ≠ 0 := by omega
        rw [if_neg gt, if_pos more, if_pos ge]
  · rw [if_neg none]
    obtain ⟨gt, ge⟩ : ¬ a > b ∧ ¬ a ≥ l.length := not_or.mp none
    have more : b - a + 1 ≠ 0 := by omega
    have taken : (l.take a.toNat).length = a.toNat := by
      rw [List.length_take]
      omega
    refine ⟨l.take a.toNat, (l.drop a.toNat).drop (min b (l.length - 1) - a + 1).toNat,
      part _, ?_, ?_⟩
    · rw [if_neg gt, if_pos more, if_neg ge, List.length_take, List.length_drop]
      split
      · simp only
        split <;> omega
      · simp only
        omega
    · intro _
      rw [if_neg gt, if_pos more, if_neg ge, taken, Int.toNat_of_nonneg ha]
      split <;> rfl

theorem rangeInPlace_spec (h : s.Is l) (moderate : Moderate l.length) (start last : ℤ) :
    ∃ t, s.rangeInPlace start last = some t ∧ t.Is (udsrange l start last) := by
  unfold rangeInPlace
  rw [udslen, h.len]
  by_cases empty : l.length = 0
  · refine ⟨s, if_pos empty, ?_⟩
    rwa [udsrange, if_pos empty]
  · rw [if_neg empty]
    obtain ⟨k, m, split, len, from'⟩ :=
      rangeBounds_spec (l := l) (List.length_pos_iff.mp (Nat.pos_of_ne_zero empty)) start last
    generalize rangeBounds l.length start last = bounds at len from' ⊢
    obtain ⟨a, n⟩ := bounds
    simp only at len from' ⊢
    generalize udsrange l start last = kept at split len ⊢
    subst split
    have part : Moderate kept.length := by
      refine lt_of_le_of_lt ?_ moderate
      rw [List.length_append, List.length_append]
      omega
    rw [len, Int.toNat_natCast]
    by_cases moves : a ≠ 0 ∧ (kept.length : ℤ) ≠ 0
    · rw [decide_eq_true moves, from' (by omega), Int.toNat_natCast]
      exact keepPart_spec true h part (by simp)
    · have still : s.keepPart false a.toNat kept.length =
          s.keepPart false k.length kept.length := by
        simp only [keepPart, Bool.false_eq_true, if_false]
      rw [decide_eq_false moves, still]
      apply keepPart_spec false h part
      intro _
      by_cases none : kept = []
      · exact .inr none
      · left
        have pos : (kept.length : ℤ) ≠ 0 := by simpa using none
        have zero : a = 0 := by
          by_contra ne
          exact moves ⟨ne, pos⟩
        have := from' (by omega)
        apply List.length_eq_zero_iff.mp
        omega

/-! ## The length that the caller sets -/

theorem udsIncrLen_spec (room : s.Room l.length) (hold : s.buf.Holds l) {incr : ℤ}
    (fits : s.fits incr = true) (len : (s.len : ℤ) + incr = l.length)
    (short : s.type = .type5 → s.len < 32) :
    ∃ t, s.udsIncrLen incr = some t ∧ t.Is l := by
  have old : (if s.type = .type5 then s.len % 32 else s.len) = s.len := by
    split
    · rename_i five
      exact Nat.mod_eq_of_lt (short five)
    · rfl
  obtain ⟨t, ended, is, -⟩ := room.finish hold
  refine ⟨t, ?_, is⟩
  rw [udsIncrLen, if_pos fits]
  simp only
  rw [old, len, Int.toNat_natCast, len_udssetlen room, ended]

/-- The caller asks for room, writes behind the string and sets the length. -/
def appendInPlace (s : Uds) (room : ℕ) (m : UStr) : Option Uds := do
  let s ← s.udsMakeRoomFor room
  let s ← s.putAll s.udslen m
  s.udsIncrLen m.length

theorem fits_of_room (other : s.type ≠ .type5) (room : s.Room (s.len + n)) : s.fits n = true := by
  obtain ⟨le, lt, -⟩ := room.header other
  unfold fits Uds.room
  cases eq : s.type with
  | type5 => exact absurd eq other
  | type8 =>
    simp only [decide_eq_true_eq]
    omega
  | type16 =>
    simp only [decide_eq_true_eq]
    omega
  | type32 =>
    rw [eq, UdsType.bits] at lt
    simp only [decide_eq_true_eq]
    omega
  | type64 =>
    rw [eq, UdsType.bits] at lt
    simp only [decide_eq_true_eq]
    omega

theorem appendInPlace_spec (h : s.Is l) (moderate : Moderate (l.length + n)) (asked : 0 < n)
    (enough : m.length ≤ n) : ∃ t, s.appendInPlace n m = some t ∧ t.Is (l ++ m) := by
  obtain ⟨u, roomy, is, room, typed, -⟩ := udsMakeRoomFor_spec h moderate
  have whole : u.Room (l ++ m).length := room.mono (by simpa using enough)
  obtain ⟨v, written, held, room', len, type, -⟩ :=
    whole.putAll (m := m) is.content (by rw [List.length_append]; omega)
      (by unfold Moderate at moderate; omega)
  have other : v.type ≠ .type5 := type ▸ typed asked
  have len : v.len = l.length := len.trans is.len
  have fits : v.fits m.length = true := by
    apply fits_of_room other
    rw [len, ← List.length_append]
    exact room'
  obtain ⟨t, grown, is'⟩ := udsIncrLen_spec room' held fits (by
    rw [len, List.length_append]
    exact (Int.natCast_add _ _).symm) fun five => absurd five other
  refine ⟨t, ?_, is'⟩
  rw [appendInPlace, roomy, Option.bind_eq_bind, Option.bind_some, udslen, is.len, written,
    Option.bind_some, grown]

theorem shorten_spec (h : s.Is l) (asked : 0 < n) (le : n ≤ l.length)
    (moderate : Moderate l.length) :
    ∃ t, s.udsIncrLen (-n) = some t ∧ t.Is (l.take (l.length - n)) := by
  unfold Moderate at moderate
  have len := h.len
  have kept : (l.take (l.length - n)).length = l.length - n := by simp
  have fits : s.fits (-n) = true := by
    unfold fits
    cases eq : s.type with
    | type5 =>
      have := h.room.short eq
      simp only [decide_eq_true_eq]
      omega
    | type8 | type16 | type32 | type64 =>
      simp only [decide_eq_true_eq]
      omega
  apply udsIncrLen_spec (h.room.mono (by omega)) ?_ fits (by omega) fun five => ?_
  · apply Buffer.Holds.left (m := l.drop (l.length - n))
    rw [List.take_append_drop]
    exact h.content
  · have := h.room.short five
    omega

/-! ## Without free room -/

/-- The block that `udsRemoveFreeSpace` leaves is large enough. -/
def KeepsOnShrink (s : Uds) : Prop :=
  s.udslen ≤ 1 ∨
    s.type ≠ udsReqType s.udslen ∧ (udsReqType s.udslen = .type5 ∨ udsReqType s.udslen = .type8)

instance : Decidable (KeepsOnShrink s) := by
  unfold KeepsOnShrink
  infer_instance

theorem buf_udssetalloc (s : Uds) (n : ℕ) : (s.udssetalloc n).buf = s.buf := by
  unfold udssetalloc
  split <;> rfl

theorem shrinkInPlace_is (h : s.Is l) (small : l.length ≤ 1) :
    ({ s with buf := s.buf.realloc ((l.length + 1 + 2) / 2) }.udssetalloc l.length).Is l := by
  have size : (l.length + 1 + 2) / 2 = l.length + 1 := by omega
  have fits := h.room.lt_bits
  have hold : (s.buf.realloc (l.length + 1)).Holds (l ++ [0]) := h.holds.realloc (by simp)
  have block : (s.buf.realloc (l.length + 1)).size = l.length + 1 := Buffer.size_realloc _ _
  rw [size]
  unfold udssetalloc
  by_cases five : s.type = .type5
  · rw [if_pos five]
    exact ⟨h.len, hold, h.room.short, fun other => absurd five other, block.ge⟩
  · rw [if_neg five]
    simp only [Nat.mod_eq_of_lt fits]
    exact ⟨h.len, hold, h.room.short, fun _ => ⟨Nat.le_refl _, fits, block.ge⟩, block.ge⟩

/-- **Giving free room back** keeps the string exactly where it is of one unit at most, or where
the header becomes one of the two smallest types. Elsewhere the block is cut to about half of
what the string needs. -/
theorem udsRemoveFreeSpace_spec (h : s.Is l) (moderate : Moderate l.length) :
    ∃ t, s.udsRemoveFreeSpace = some t ∧ (t.Is l ↔ KeepsOnShrink s) := by
  unfold Moderate at moderate
  have whole : udsReqType l.length = .type5 → l.length < 32 := udsReqType_type5
  unfold udsRemoveFreeSpace KeepsOnShrink
  simp only [udslen, h.len]
  by_cases stays : s.type = udsReqType l.length ∨
      udsReqType l.length ≠ .type5 ∧ udsReqType l.length ≠ .type8
  · rw [if_pos stays]
    have cut : udsRealloc s.buf ((l.length + 1 + 2) / 2) =
        some (s.buf.realloc ((l.length + 1 + 2) / 2)) := if_pos (by omega)
    refine ⟨_, by rw [cut]; rfl, fun is => ?_, fun keeps => ?_⟩
    · left
      have room := is.room.block
      rw [buf_udssetalloc, Buffer.size_realloc] at room
      omega
    · rcases keeps with small | ⟨other, small⟩
      · have := shrinkInPlace_is h small
        simpa only [h.len] using this
      · rcases stays with same | ⟨ne5, ne8⟩
        · exact absurd same other
        · rcases small with five | eight
          · exact absurd five ne5
          · exact absurd eight ne8
  · rw [if_neg stays]
    obtain ⟨other, small⟩ := not_or.mp stays
    have small : udsReqType l.length = .type5 ∨ udsReqType l.length = .type8 := by
      by_contra none
      exact small (not_or.mp none)
    have given : udsMalloc (l.length + 1) = some (.malloc (l.length + 1)) := if_pos (by omega)
    obtain ⟨buf, copied, hold, size⟩ := h.copied (by omega) (Nat.le_refl _)
    have fits : l.length < 2 ^ (udsReqType l.length).bits := udsReqType_lt (by omega)
    refine ⟨_, by rw [given, Option.bind_eq_bind, Option.bind_some, copied]; rfl,
      fun _ => .inr ⟨other, small⟩, fun _ => ?_⟩
    have lenFits : l.length % 2 ^ (udsReqType l.length).bits = l.length := Nat.mod_eq_of_lt fits
    unfold udssetalloc udssetlen
    by_cases five : udsReqType l.length = .type5
    · rw [if_pos five]
      refine ⟨lenFits, hold, fun _ => whole five, fun other => absurd five other, size.ge⟩
    · rw [if_neg five]
      refine ⟨lenFits, hold, fun five' => absurd five' five, fun _ => ?_, size.ge⟩
      simp only [lenFits]
      exact ⟨Nat.le_refl _, fits, size.ge⟩

end

end Yella.Uds
