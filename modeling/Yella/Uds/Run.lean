import Mathlib.Data.Nat.Size
import Mathlib.Order.MinMax
import Yella.Lib.Machine
import Yella.Uds.Cut

/-!
# Strings under any calls

A string after any sequence of calls, and how often it moves while it grows.
-/

namespace Yella.Uds

inductive UdsOp where
  | cat (t : UStr)
  | copy (t : UStr)
  | growzero (n : ℕ)
  | trim (found : UChar → Bool)
  | range (start last : ℤ)
  | clear
  | updatelen
  | dup
  | makeRoom (n : ℕ)
  | append (room : ℕ) (t : UStr)
  | shorten (n : ℕ)
  | removeFreeSpace

namespace UdsOp

def next (s : Uds) : UdsOp → Option Uds
  | cat t => s.udscatlen t
  | copy t => s.udscpylen t
  | growzero n => s.udsgrowzero n
  | trim found => s.udstrim found
  | range start last => s.rangeInPlace start last
  | clear => s.udsclear
  | updatelen => s.udsupdatelen
  | dup => s.udsdup
  | makeRoom n => s.udsMakeRoomFor n
  | append room t => s.appendInPlace room t
  | shorten n => s.udsIncrLen (-n)
  | removeFreeSpace => s.udsRemoveFreeSpace

/-- What the call is for. -/
def result (l : UStr) : UdsOp → UStr
  | cat t => l ++ t
  | copy t => t
  | growzero n => l ++ List.replicate (n - l.length) 0
  | trim found => trimmed found l
  | range start last => udsrange l start last
  | clear => []
  | updatelen => l.takeWhile (· ≠ 0)
  | dup => l
  | makeRoom _ => l
  | append _ t => l ++ t
  | shorten n => l.take (l.length - n)
  | removeFreeSpace => l

/-- The lengths are moderate, and the caller keeps to what the comments of `uds.c` ask for. -/
def Allowed (s : Uds) : UdsOp → Prop
  | cat t => Moderate (s.udslen + t.length)
  | copy t => Moderate (max s.udslen t.length)
  | growzero n => Moderate (max s.udslen n)
  | makeRoom n => Moderate (s.udslen + n)
  | append room t => Moderate (s.udslen + room) ∧ 0 < room ∧ t.length ≤ room
  | shorten n => Moderate s.udslen ∧ 0 < n ∧ n ≤ s.udslen
  | removeFreeSpace => Moderate s.udslen ∧ KeepsOnShrink s
  | dup | trim _ | range _ _ | updatelen => Moderate s.udslen
  | clear => True

instance decidableAllowed (s : Uds) : ∀ op : UdsOp, Decidable (op.Allowed s)
  | cat _ | copy _ | growzero _ | makeRoom _ | dup | trim _ | range _ _ | updatelen =>
    inferInstanceAs (Decidable (Moderate _))
  | append _ _ | shorten _ => inferInstanceAs (Decidable (Moderate _ ∧ _ ∧ _))
  | removeFreeSpace => inferInstanceAs (Decidable (Moderate _ ∧ KeepsOnShrink _))
  | clear => isTrue trivial

end UdsOp

/-- A machine over strings as they are in memory. -/
def udsMachine : Machine Uds UdsOp where
  start s := s.Is []
  next := UdsOp.next

variable {s t : Uds} {l : UStr}

theorem Is.next (h : s.Is l) (op : UdsOp) (allowed : op.Allowed s) :
    ∃ t, op.next s = some t ∧ t.Is (op.result l) := by
  have len : s.udslen = l.length := h.len
  cases op with
  | cat m =>
    obtain ⟨t, eq, is, -⟩ := udscatlen_spec (m := m) h (by rwa [← len])
    exact ⟨t, eq, is⟩
  | copy m => exact udscpylen_spec h (by rwa [← len])
  | growzero n => exact udsgrowzero_spec h (by rwa [← len])
  | trim found => exact udstrim_spec h (len ▸ allowed) found
  | range start last => exact rangeInPlace_spec h (len ▸ allowed) start last
  | clear => exact udsclear_spec h
  | updatelen => exact udsupdatelen_spec h (len ▸ allowed)
  | dup =>
    have moderate : Moderate l.length := len ▸ allowed
    exact udsdup_spec h moderate
  | makeRoom n =>
    obtain ⟨t, eq, is, -⟩ := udsMakeRoomFor_spec h (k := n) (by rwa [← len])
    exact ⟨t, eq, is⟩
  | append room m =>
    obtain ⟨moderate, asked, enough⟩ := allowed
    exact appendInPlace_spec h (by rwa [← len]) asked enough
  | shorten n =>
    obtain ⟨moderate, asked, le⟩ := allowed
    exact shorten_spec h asked (by rwa [← len]) (by rwa [← len])
  | removeFreeSpace =>
    obtain ⟨moderate, keeps⟩ := allowed
    obtain ⟨t, eq, iff⟩ := udsRemoveFreeSpace_spec h (by rwa [← len])
    exact ⟨t, eq, iff.mpr keeps⟩

theorem Is.after (h : s.Is l) {ops : List UdsOp}
    (allowed : udsMachine.AllowedAlong (fun s op => op.Allowed s) s ops) :
    ∃ t, udsMachine.after s ops = some t ∧ t.Is (ops.foldl UdsOp.result l) := by
  induction ops generalizing s l with
  | nil => exact ⟨s, rfl, h⟩
  | cons op ops ih =>
    obtain ⟨t, next, is⟩ := h.next op allowed.1
    obtain ⟨u, after, is'⟩ := ih is (allowed.2 t next)
    have first : udsMachine.next s op = some t := next
    exact ⟨u, by rw [Machine.after, first]; exact after, is'⟩

/-- **Strings are lists.** From a new string on, any sequence of calls stays inside of the blocks
and leaves what the calls do to lists, with its terminator and under a header that is wide
enough. -/
theorem strings_refine_lists (init rest : UStr) (moderate : Moderate init.length)
    (new : udsnewlen (some (init ++ rest)) init.length = some s) (ops : List UdsOp)
    (allowed : udsMachine.AllowedAlong (fun s op => op.Allowed s) s ops) :
    ∃ t, udsMachine.after s ops = some t ∧ t.Is (ops.foldl UdsOp.result init) := by
  obtain ⟨t, eq, is⟩ := udsnewlen_spec rest moderate
  cases new.symm.trans eq
  exact is.after allowed

def slash : Uds := ⟨.type5, 1, 1, ⟨[some 47, some 0]⟩⟩

def someCalls : List UdsOp := [.growzero 3, .append 4 [104], .range 0 1, .dup, .cat [98, 105]]

/-- A new string is grown, filled through the pointer, cut, duplicated and appended to. -/
theorem strings_refine_lists_path :
    ∃ t, udsMachine.after slash someCalls = some t ∧ t.Is [47, 0, 98, 105] :=
  strings_refine_lists [47] [0] (by decide) (by decide) someCalls (by decide)

/-- **When the free room can be given back.** After any calls the string survives it exactly if it
has at most one unit, or if its header becomes one of the two smallest types. -/
theorem removeFreeSpace_keeps_iff (init rest : UStr) (moderate : Moderate init.length)
    (new : udsnewlen (some (init ++ rest)) init.length = some s) (ops : List UdsOp)
    (allowed : udsMachine.AllowedAlong (fun s op => op.Allowed s) s ops)
    (after : udsMachine.after s ops = some t) (size : Moderate t.udslen) :
    ∃ u, t.udsRemoveFreeSpace = some u ∧
      (u.Is (ops.foldl UdsOp.result init) ↔ KeepsOnShrink t) := by
  obtain ⟨s', eq, is⟩ := udsnewlen_spec rest moderate
  cases new.symm.trans eq
  obtain ⟨t', eq, is'⟩ := is.after allowed
  cases after.symm.trans eq
  have len : t.udslen = (ops.foldl UdsOp.result init).length := is'.len
  exact udsRemoveFreeSpace_spec is' (len ▸ size)

/-- What these calls leave gets a smaller header. -/
theorem removeFreeSpace_keeps_iff_path :
    ∃ t u, udsMachine.after slash someCalls = some t ∧ t.udsRemoveFreeSpace = some u ∧
      (u.Is [47, 0, 98, 105] ↔ KeepsOnShrink t) ∧ KeepsOnShrink t := by
  obtain ⟨t, after⟩ : ∃ t, udsMachine.after slash someCalls = some t := ⟨_, rfl⟩
  have header : t.udslen = 4 ∧ t.type = .type8 := by
    cases after
    decide
  obtain ⟨len, type⟩ := header
  obtain ⟨u, shrunk, kept⟩ := removeFreeSpace_keeps_iff [47] [0] (by decide) (by decide) someCalls
    (by decide) after (by rw [len]; decide)
  refine ⟨t, u, after, shrunk, kept, .inr ?_⟩
  rw [len, type]
  decide

/-! ## Growing -/

/-- The string after the pieces have been appended, and how often it has been given a new size. -/
def catAll (s : Uds) : List UStr → Option (Uds × ℕ)
  | [] => some (s, 0)
  | m :: ms => do
    let t ← s.udscatlen m
    let (u, moves) ← catAll t ms
    some (u, moves + if s.udsavail < m.length then 1 else 0)

/-- A size grows by one bit as long as it is doubled, and then by steps of 1 MB. -/
def level (alloc : ℕ) : ℕ :=
  if alloc < 2 * udsMaxPrealloc then alloc.size
  else 22 + (alloc - 2 * udsMaxPrealloc) / udsMaxPrealloc

theorem size_le_of_lt {n : ℕ} (h : n < 2 * udsMaxPrealloc) : n.size ≤ 21 := Nat.size_le.mpr h

/-- A string that is given more room reaches a new level. -/
theorem level_roomFor {a n : ℕ} (more : a < n) : level a + 1 ≤ level (roomFor n) := by
  by_cases small : n < udsMaxPrealloc
  · have bound : a < 2 * udsMaxPrealloc := by omega
    rw [roomFor, if_pos small, level, level, if_pos bound, if_pos (by omega)]
    apply Nat.lt_size.mpr
    rcases Nat.eq_zero_or_pos a.size with zero | pos
    · rw [zero]
      omega
    · have reached : 2 ^ (a.size - 1) ≤ a := Nat.lt_size.mp (by omega)
      calc 2 ^ a.size = 2 ^ (a.size - 1) * 2 := by rw [← Nat.pow_succ, Nat.succ_eq_add_one,
                                                     Nat.sub_add_cancel pos]
        _ ≤ n * 2 := by omega
  · rw [roomFor, if_neg small, level, level, if_neg (show ¬ n + udsMaxPrealloc < _ by omega)]
    split
    · rename_i short
      exact (Nat.succ_le_succ (size_le_of_lt short)).trans (Nat.le_add_right _ _)
    · rename_i long
      have step : (a - 2 * udsMaxPrealloc) / udsMaxPrealloc + 1 =
          (a - 2 * udsMaxPrealloc + udsMaxPrealloc) / udsMaxPrealloc :=
        (Nat.add_div_right _ (by decide)).symm
      rw [Nat.add_assoc, step]
      apply Nat.add_le_add_left
      apply Nat.div_le_div_right
      omega

theorem level_mono {a b : ℕ} (le : a ≤ b) : level a ≤ level b := by
  unfold level
  by_cases small : b < 2 * udsMaxPrealloc
  · rw [if_pos small, if_pos (lt_of_le_of_lt le small)]
    exact Nat.size_le_size le
  · rw [if_neg small]
    split
    · rename_i short
      exact (size_le_of_lt short).trans (Nat.le_add_right_of_le (by decide))
    · exact Nat.add_le_add_left (Nat.div_le_div_right (Nat.sub_le_sub_right le _)) _

/-- Doublings up to 1 MB, of which 20 lead there, and then one size for each further 1 MB. -/
def sizesUpTo (n : ℕ) : ℕ :=
  if n < udsMaxPrealloc then n.size + 1 else 21 + n / udsMaxPrealloc

theorem level_roomFor_le (n : ℕ) : level (roomFor n) ≤ sizesUpTo n := by
  unfold sizesUpTo
  by_cases small : n < udsMaxPrealloc
  · rw [roomFor, if_pos small, if_pos small, level, if_pos (by omega)]
    apply Nat.size_le.mpr
    rw [Nat.pow_succ]
    exact Nat.mul_lt_mul_of_pos_right (Nat.lt_size_self n) (by decide)
  · rw [roomFor, if_neg small, if_neg small, level,
      if_neg (show ¬ n + udsMaxPrealloc < _ by omega)]
    unfold udsMaxPrealloc at small ⊢
    omega

theorem roomFor_mono {a b : ℕ} (le : a ≤ b) : roomFor a ≤ roomFor b := by
  unfold roomFor
  split <;> split <;> omega

/-- Each new size is a new level. -/
theorem catAll_spec (h : s.Is l) {ms : List UStr} (moderate : Moderate (l ++ ms.flatten).length) :
    ∃ t moves, catAll s ms = some (t, moves) ∧ t.Is (l ++ ms.flatten) ∧
      level s.udsalloc + moves ≤ level t.udsalloc ∧
      t.udsalloc ≤ max s.udsalloc (roomFor (l ++ ms.flatten).length) := by
  induction ms generalizing s l with
  | nil => exact ⟨s, 0, rfl, by simpa using h, Nat.le_refl _, le_max_left _ _⟩
  | cons m ms ih =>
    have whole : l ++ (m :: ms).flatten = l ++ m ++ ms.flatten := by simp
    rw [whole] at moderate ⊢
    have part : l.length + m.length ≤ (l ++ m ++ ms.flatten).length := by
      rw [List.length_append, List.length_append]
      exact Nat.le_add_right _ _
    have small : Moderate (l.length + m.length) := lt_of_le_of_lt part moderate
    obtain ⟨t, eq, is, alloc⟩ := udscatlen_spec h small
    obtain ⟨u, moves, rest, is', levels, size⟩ := ih is moderate
    have avail := h.udsavail_eq
    have ge := h.alloc_ge
    refine ⟨u, _, by rw [catAll, eq, Option.bind_eq_bind, Option.bind_some, rest]; rfl, is', ?_, ?_⟩
    · by_cases enough : l.length + m.length ≤ s.udsalloc
      · rw [if_pos enough] at alloc
        rw [if_neg (by omega), ← alloc]
        exact levels
      · rw [if_neg enough] at alloc
        rw [if_pos (by omega)]
        have grown := level_roomFor (not_le.mp enough)
        rw [← alloc] at grown
        omega
    · have last := roomFor_mono part
      by_cases enough : l.length + m.length ≤ s.udsalloc
      · rw [if_pos enough] at alloc
        rwa [← alloc]
      · rw [if_neg enough] at alloc
        rw [alloc, max_eq_right last] at size
        exact size.trans (le_max_right _ _)

/-- **Moves are rare.** However a text is cut into the pieces that are appended, the string is given
a new size at most once for each doubling up to 1 MB and once for each further 1 MB. -/
theorem moves_le (h : s.Is l) (ms : List UStr) (moderate : Moderate (l ++ ms.flatten).length) :
    ∃ t moves, catAll s ms = some (t, moves) ∧ t.Is (l ++ ms.flatten) ∧
      moves ≤ sizesUpTo (l ++ ms.flatten).length := by
  obtain ⟨t, moves, eq, is, levels, alloc⟩ := catAll_spec h moderate
  refine ⟨t, moves, eq, is, ?_⟩
  have bound := level_roomFor_le (l ++ ms.flatten).length
  rcases le_max_iff.mp alloc with kept | grown
  · have := level_mono kept
    omega
  · have := level_mono grown
    omega

theorem moves_le_path :
    ∃ t moves, catAll slash [[97], [], [98, 47]] = some (t, moves) ∧ t.Is [47, 97, 98, 47] ∧
      moves ≤ sizesUpTo 4 := by
  have is : slash.Is [47] :=
    ⟨rfl, ⟨[], rfl⟩, ⟨by decide, fun other => absurd rfl other, by decide⟩⟩
  exact moves_le is [[97], [], [98, 47]] (by decide)

end Yella.Uds
