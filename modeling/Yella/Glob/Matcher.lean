import Yella.Text

/-!
# The file name matcher

`file_name_matches` of `file_name_matcher.c`. The pointers `name` and `pattern` are the
suffixes they point to.
-/

namespace Yella.Glob

/-- The run of stars skipped by `while (*++pattern == u'*')`. -/
def skipStars : UStr → UStr
  | [] => []
  | c :: p => if c = star then skipStars p else c :: p

/-- The inner `while` over literals: stops at `c`, at the end, or at a separator the star
may not cross. -/
def skipTo (c : UChar) (matchSlash : Bool) : UStr → UStr
  | [] => []
  | n :: name =>
    if matchSlash || n ≠ dirSep then
      if n = c then n :: name else skipTo c matchSlash name
    else n :: name

theorem skipTo_length_le (c : UChar) (m : Bool) (name : UStr) :
    (skipTo c m name).length ≤ name.length := by
  induction name with
  | nil => simp [skipTo]
  | cons n name ih =>
    simp only [skipTo]
    split
    · split
      · exact Nat.le_refl _
      · simp only [List.length_cons]; omega
    · exact Nat.le_refl _

/-- The character the loop may skip ahead to: `*pattern` unless it is one of `*?\`. -/
def literal (pattern : UStr) : Option UChar :=
  match pattern with
  | [] => none
  | c :: _ => if c = star ∨ c = question ∨ c = backslash then none else some c

/-- The `while (true)` loop after a star. `tryRest` is the recursive call with the pattern
from here on. -/
def starLoop (tryRest : UStr → Bool) (lit : Option UChar) (matchSlash : Bool)
    (name : UStr) : Bool :=
  match name with
  | [] => false
  | n :: tail =>
    match lit with
    | none =>
      if tryRest (n :: tail) then true
      else if !matchSlash && n = dirSep then false
      else starLoop tryRest lit matchSlash tail
    | some c =>
      match _h : skipTo c matchSlash (n :: tail) with
      | [] => false
      | m :: after =>
        if m ≠ c then false
        else if tryRest (m :: after) then true
        else if !matchSlash && m = dirSep then false
        else starLoop tryRest lit matchSlash after
termination_by name.length
decreasing_by
  · simp
  · have := skipTo_length_le c matchSlash (n :: tail)
    rw [_h] at this
    simp only [List.length_cons] at this ⊢
    omega

/-- What follows a run of two or more stars that may cross separators: the end, a
separator, or an escaped separator. -/
def crossing (rest : UStr) : Bool :=
  match rest with
  | [] => true
  | c :: p => c = dirSep || (c = backslash && p.head? = some dirSep)

theorem skipStars_length_le (p : UStr) : (skipStars p).length ≤ p.length := by
  induction p with
  | nil => simp [skipStars]
  | cons c p ih =>
    simp only [skipStars]
    split <;> simp only [List.length_cons] <;> omega

mutual

def fileNameMatchesImpl (name pattern : UStr) : Bool :=
  match pattern with
  | [] => name.isEmpty
  | p :: ps =>
    if p = star then
      if ps.head? = some star then
        -- The test `prev_p < pattern` of the source always holds here.
        let matchSlash := crossing (skipStars ps)
        if matchSlash && (skipStars ps).head? = some dirSep
            && fileNameMatchesImpl name (skipStars ps).tail then true
        else afterStar name (skipStars ps) matchSlash
      else afterStar name ps false
    else
      match name with
      | [] => false
      | n :: name' =>
        if p = backslash then
          match ps with
          | [] => false
          | c :: ps' => if n ≠ c then false else fileNameMatchesImpl name' ps'
        else if p = question then
          if n = dirSep then false else fileNameMatchesImpl name' ps
        else if n ≠ p then false else fileNameMatchesImpl name' ps
termination_by (pattern.length, 0)
decreasing_by
  all_goals simp only [Prod.lex_def, List.length_cons, List.length_tail]
  · have := skipStars_length_le ps; omega
  · have := skipStars_length_le ps; omega
  all_goals omega

/-- The rest of `case u'*'`, from `if (*pattern == 0)` on. -/
def afterStar (name pattern : UStr) (matchSlash : Bool) : Bool :=
  match pattern with
  | [] => matchSlash || (uStrchr name dirSep).isNone
  | c :: ps =>
    if !matchSlash && c = dirSep then
      -- `name = slash; break;` and the increments of the `for` consume the separator
      match uStrchr name dirSep with
      | none => false
      | some slash => fileNameMatchesImpl slash.tail ps
    else starLoop (fun n => fileNameMatchesImpl n (c :: ps)) (literal (c :: ps)) matchSlash name
termination_by (pattern.length, 1)

end

def fileNameMatches (name pattern : UStr) : Bool :=
  fileNameMatchesImpl name pattern

end Yella.Glob
