import Mathlib.Computability.Language
import Yella.Text

/-!
# The language of a file name pattern

A pattern is read from left to right as tokens, each token denotes a language over UTF-16
code units, and the pattern denotes their concatenation.
-/

namespace Yella.Glob

inductive Token where
  /-- A character that matches itself, escaped or not. -/
  | lit (c : UChar)
  /-- `?` -/
  | one
  /-- A star that stays inside one path component. -/
  | within
  /-- A run of stars that may cross separators. -/
  | across
  /-- Such a run together with the unescaped separator after it. -/
  | acrossSep
  /-- A backslash with nothing to escape. -/
  | dangling
  deriving DecidableEq, Repr

def Token.lang : Token → Language UChar
  | .lit c => {[c]}
  | .one => {w | ∃ c, c ≠ dirSep ∧ w = [c]}
  | .within => {w | dirSep ∉ w}
  | .across => Set.univ
  | .acrossSep => {w | w = [] ∨ ∃ u, w = u ++ [dirSep]}
  | .dangling => 0

/-- The rest of a pattern after a run of stars, and the number of stars. -/
def starRun : UStr → Nat × UStr
  | [] => (0, [])
  | c :: p => if c = star then ((starRun p).1 + 1, (starRun p).2) else (0, c :: p)

theorem starRun_length_le (p : UStr) : (starRun p).2.length ≤ p.length := by
  induction p with
  | nil => simp [starRun]
  | cons c p ih =>
    simp only [starRun]
    split
    · simp only [List.length_cons]; omega
    · exact Nat.le_refl _

/-- What a run of two or more stars before `rest` means, and what is left to read. -/
def runToken (rest : UStr) : Token × UStr :=
  match rest with
  | [] => (.across, [])
  | c :: p =>
    if c = dirSep then (.acrossSep, p)
    else if c = backslash ∧ p.head? = some dirSep then (.across, c :: p)
    else (.within, c :: p)

theorem runToken_length_le (rest : UStr) : (runToken rest).2.length ≤ rest.length := by
  unfold runToken
  split
  · exact Nat.le_refl _
  · split
    · simp
    · split <;> exact Nat.le_refl _

def tokens (pattern : UStr) : List Token :=
  match pattern with
  | [] => []
  | c :: p =>
    if c = star then
      if (starRun p).1 = 0 then .within :: tokens p
      else (runToken (starRun p).2).1 :: tokens (runToken (starRun p).2).2
    else if c = question then .one :: tokens p
    else if c = backslash then
      match p with
      | [] => [.dangling]
      | d :: q => .lit d :: tokens q
    else .lit c :: tokens p
termination_by pattern.length
decreasing_by
  · simp
  · have := starRun_length_le p
    have := runToken_length_le (starRun p).2
    simp only [List.length_cons]; omega
  all_goals simp only [List.length_cons]; omega

def lang (ts : List Token) : Language UChar := (ts.map Token.lang).prod

/-- The names a pattern accepts. -/
def language (pattern : UStr) : Language UChar := lang (tokens pattern)

/-! ## Membership, token by token

`Language` is a `def`, so the simp lemmas of `Set` do not fire on it. -/

@[simp] theorem mem_lang_nil (w : UStr) : w ∈ lang [] ↔ w = [] := Iff.rfl

theorem mem_lang_cons (t : Token) (ts : List Token) (w : UStr) :
    w ∈ lang (t :: ts) ↔ ∃ u v, u ∈ t.lang ∧ v ∈ lang ts ∧ w = u ++ v := by
  simp only [lang, List.map_cons, List.prod_cons, Language.mem_mul]
  constructor
  · rintro ⟨u, hu, v, hv, rfl⟩; exact ⟨u, v, hu, hv, rfl⟩
  · rintro ⟨u, v, hu, hv, rfl⟩; exact ⟨u, hu, v, hv, rfl⟩

theorem mem_lang_lit (c : UChar) (ts : List Token) (w : UStr) :
    w ∈ lang (.lit c :: ts) ↔ ∃ v ∈ lang ts, w = c :: v := by
  rw [mem_lang_cons]
  constructor
  · rintro ⟨u, v, rfl, hv, rfl⟩; exact ⟨v, hv, rfl⟩
  · rintro ⟨v, hv, rfl⟩; exact ⟨[c], v, rfl, hv, rfl⟩

theorem mem_lang_one (ts : List Token) (w : UStr) :
    w ∈ lang (.one :: ts) ↔ ∃ c v, c ≠ dirSep ∧ v ∈ lang ts ∧ w = c :: v := by
  rw [mem_lang_cons]
  constructor
  · rintro ⟨u, v, ⟨c, hc, rfl⟩, hv, rfl⟩; exact ⟨c, v, hc, hv, rfl⟩
  · rintro ⟨c, v, hc, hv, rfl⟩; exact ⟨[c], v, ⟨c, hc, rfl⟩, hv, rfl⟩

/-- `across` and `within` differ in what they may skip over. -/
def starToken (matchSlash : Bool) : Token := if matchSlash then .across else .within

theorem mem_lang_starToken (m : Bool) (ts : List Token) (w : UStr) :
    w ∈ lang (starToken m :: ts) ↔
      ∃ u v, (m = true ∨ dirSep ∉ u) ∧ v ∈ lang ts ∧ w = u ++ v := by
  rw [mem_lang_cons]
  cases m with
  | true =>
    constructor
    · rintro ⟨u, v, _, hv, rfl⟩; exact ⟨u, v, .inl rfl, hv, rfl⟩
    · rintro ⟨u, v, _, hv, rfl⟩; exact ⟨u, v, trivial, hv, rfl⟩
  | false =>
    constructor
    · rintro ⟨u, v, hu, hv, rfl⟩; exact ⟨u, v, .inr hu, hv, rfl⟩
    · rintro ⟨u, v, hu | hu, hv, rfl⟩
      · exact absurd hu Bool.false_ne_true
      · exact ⟨u, v, hu, hv, rfl⟩

/-- A run of stars before a separator: the run and the separator match nothing, or the
run matches anything and the separator itself. -/
theorem mem_lang_acrossSep (ts : List Token) (w : UStr) :
    w ∈ lang (.acrossSep :: ts) ↔
      w ∈ lang ts ∨ w ∈ lang (.across :: .lit dirSep :: ts) := by
  simp only [mem_lang_cons]
  constructor
  · rintro ⟨u, v, rfl | ⟨u, rfl⟩, hv, rfl⟩
    · exact .inl hv
    · exact .inr ⟨u, dirSep :: v, trivial, ⟨[dirSep], v, rfl, hv, rfl⟩, by simp⟩
  · rintro (h | ⟨u, _, _, ⟨_, v, rfl, hv, rfl⟩, rfl⟩)
    · exact ⟨[], w, .inl rfl, h, rfl⟩
    · exact ⟨u ++ [dirSep], v, .inr ⟨u, rfl⟩, hv, by simp⟩

theorem not_mem_lang_dangling (ts : List Token) (w : UStr) : w ∉ lang (.dangling :: ts) := by
  rw [mem_lang_cons]
  rintro ⟨u, v, hu, _, _⟩
  exact Language.notMem_zero u hu

end Yella.Glob
