import Yella.Glob.Checked

/-!
# Escapes read from left to right

`first_unescaped_special_char` counts the backslashes to the left of a character, the matcher
reads a pattern from its start. Both find the same characters escaped.
-/

namespace Yella.Glob

/-- The units of a pattern that belong together, each with its position. A backslash takes the next
unit along, if there is one. -/
def escapeTokens (i : Nat) : UStr → List (Nat × UStr)
  | [] => []
  | [c] => [(i, [c])]
  | c :: d :: rest =>
    if c = backslash then (i, [c, d]) :: escapeTokens (i + 2) rest
    else (i, [c]) :: escapeTokens (i + 1) (d :: rest)

def isWildcard (token : Nat × UStr) : Bool := token.2 = [star] || token.2 = [question]

/-- Where the first wildcard is that is a token of its own. -/
def firstWildcard (pattern : UStr) : Option Nat :=
  ((escapeTokens 0 pattern).find? isWildcard).map Prod.fst

/-- The character is found that a left-to-right reading finds, and the count of backslashes tells
at each position whether a token starts there. -/
structure ReadsEscapes (pattern : CString) : Prop where
  special : pattern.firstUnescapedSpecialChar = some (firstWildcard pattern.text)
  counts : ∀ i < pattern.text.length, ∃ num, pattern.backslashesLeft i = some num ∧
    (num % 2 = 0 ↔ ∃ token, (i, token) ∈ escapeTokens 0 pattern.text)

section
variable {before rest : UStr} {c : UChar} {i : Nat}

theorem backslashesBefore_plain (plain : c ≠ backslash) : backslashesBefore (c :: before) = 0 :=
  if_neg plain

theorem backslashesBefore_backslash :
    backslashesBefore (backslash :: before) = backslashesBefore before + 1 := if_pos rfl

/-- An escape leaves the number of backslashes even. -/
theorem backslashesBefore_escape (even : backslashesBefore before % 2 = 0) (d : UChar) :
    backslashesBefore (d :: backslash :: before) % 2 = 0 := by
  by_cases escape : d = backslash
  · rw [escape, backslashesBefore_backslash, backslashesBefore_backslash]
    omega
  · rw [backslashesBefore_plain escape]

theorem le_of_mem_tokens {j : Nat} {token : UStr} (mem : (j, token) ∈ escapeTokens i rest) :
    i ≤ j := by
  fun_induction escapeTokens i rest with
  | case1 i => cases mem
  | case2 i c => exact (congrArg Prod.fst (List.mem_singleton.mp mem)).ge
  | case3 i d rest ih =>
    rcases List.mem_cons.mp mem with same | mem
    · exact (congrArg Prod.fst same).ge
    · exact Nat.le_of_succ_le (Nat.le_of_succ_le (ih mem))
  | case4 i c d rest plain ih =>
    rcases List.mem_cons.mp mem with same | mem
    · exact (congrArg Prod.fst same).ge
    · exact Nat.le_of_succ_le (ih mem)

theorem specialFrom_eq_find (even : backslashesBefore before % 2 = 0) (here : before.length = i) :
    specialFrom before rest = ((escapeTokens i rest).find? isWildcard).map Prod.fst := by
  fun_induction escapeTokens i rest generalizing before with
  | case1 i => rfl
  | case2 i c =>
    by_cases wild : c = star ∨ c = question
    · simp [specialFrom, wild, even, isWildcard, here]
    · have plain : isWildcard (i, [c]) = false := by simpa [isWildcard] using wild
      simp [specialFrom, wild, plain]
  | case3 i d rest ih =>
    have plain : ¬ (backslash = star ∨ backslash = question) := by decide
    have odd : ¬ (backslashesBefore before + 1) % 2 = 0 := by omega
    have token : isWildcard (i, [backslash, d]) = false := by simp [isWildcard]
    rw [specialFrom, if_neg fun wild => plain wild.1, specialFrom, backslashesBefore_backslash,
      if_neg fun wild => odd wild.2, List.find?_cons_of_neg (by simp [token])]
    exact ih (backslashesBefore_escape even d) (by simp [here])
  | case4 i c d rest plain ih =>
    by_cases wild : c = star ∨ c = question
    · rw [specialFrom, if_pos ⟨wild, even⟩,
        List.find?_cons_of_pos (by simpa [isWildcard] using wild)]
      simp [here]
    · rw [specialFrom, if_neg fun found => wild found.1,
        List.find?_cons_of_neg (by simpa [isWildcard] using wild)]
      apply ih _ (by simp [here])
      rw [backslashesBefore_plain plain]

/-- The positions in what is left to read. -/
theorem even_iff_mem_tokens (even : backslashesBefore before % 2 = 0) {m : Nat}
    (inside : m < rest.length) :
    backslashesBefore ((rest.take m).reverse ++ before) % 2 = 0 ↔
      ∃ token, (i + m, token) ∈ escapeTokens i rest := by
  fun_induction escapeTokens i rest generalizing before m with
  | case1 i => cases inside
  | case2 i c =>
    obtain rfl : m = 0 := Nat.lt_one_iff.mp inside
    simpa using even
  | case3 i d rest ih =>
    match m with
    | 0 => simpa using even
    | 1 =>
      have odd : ¬ (backslashesBefore before + 1) % 2 = 0 := by omega
      refine iff_of_false ?_ ?_
      · show ¬ backslashesBefore (backslash :: before) % 2 = 0
        rwa [backslashesBefore_backslash]
      · rintro ⟨token, mem⟩
        rcases List.mem_cons.mp mem with same | mem
        · have := congrArg Prod.fst same
          dsimp only at this
          omega
        · have := le_of_mem_tokens mem
          omega
    | m + 2 =>
      have later := ih (backslashesBefore_escape even d) (m := m) (by simpa using inside)
      have index : i + (m + 2) = i + 2 + m := by omega
      rw [List.take_succ_cons, List.take_succ_cons, List.reverse_cons, List.reverse_cons,
        List.append_assoc, List.append_assoc, index]
      refine later.trans (exists_congr fun token => ?_)
      rw [List.mem_cons, or_iff_right]
      intro same
      have := congrArg Prod.fst same
      dsimp only at this
      omega
  | case4 i c d rest plain ih =>
    cases m with
    | zero => simpa using even
    | succ m =>
      have none : backslashesBefore (c :: before) % 2 = 0 := by rw [backslashesBefore_plain plain]
      have later := ih none (m := m) (by simpa using inside)
      have index : i + (m + 1) = i + 1 + m := by omega
      rw [List.take_succ_cons, List.reverse_cons, List.append_assoc, index]
      refine later.trans (exists_congr fun token => ?_)
      rw [List.mem_cons, or_iff_right]
      intro same
      have := congrArg Prod.fst same
      dsimp only at this
      omega

end

/-- **Wildcards and escapes.** Counting backslashes to the left agrees with reading the pattern
from left to right. -/
theorem readsEscapes (pattern : CString) : ReadsEscapes pattern where
  special := by
    rw [pattern.firstUnescapedSpecialChar_eq]
    exact congrArg some (specialFrom_eq_find rfl rfl)
  counts i inside := by
    have agree := @even_iff_mem_tokens [] pattern.text 0 rfl i inside
    rw [List.append_nil, Nat.zero_add] at agree
    exact ⟨_, pattern.backslashesLeft_eq (Nat.le_of_lt inside), agree⟩

/-- `\\*\*?`: the star behind two backslashes is one, the star behind a third one is not. -/
example : firstWildcard [92, 92, 42, 92, 42, 63] = some 2 ∧
    firstWildcard [92, 92, 92, 42] = none := by
  decide

end Yella.Glob
