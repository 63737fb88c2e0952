import Yella.Glob.Escape
import Yella.Glob.Matcher
import Yella.Lib.Terminated

/-!
# Patterns in their arrays

The functions of `file_name_matcher.c` with pointers as indices into the array of the string and
its terminator, where each read is checked.
-/

namespace Yella

/-- A NUL-terminated string. -/
abbrev CString := Terminated UChar 0

namespace CString

/-! ## Escapes -/

section
variable (pattern : CString)

/-- `while (slash > pattern && *(--slash) == u'\\')`, with what it adds to `num`. -/
def backslashesLeft : Nat → Option Nat
  | 0 => some 0
  | slash + 1 =>
    (pattern.read slash).bind fun c =>
      if c = backslash then (backslashesLeft slash).map (· + 1) else some 0

/-- The loop from `first` on. -/
def specialFrom (first : Nat) : Option (Option Nat) :=
  match _h : pattern.find (fun c => c = star || c = question) first with
  | none => none
  | some none => some none
  | some (some found) =>
    (backslashesLeft pattern found).bind fun num =>
      if num % 2 = 0 then some (some found) else specialFrom (found + 1)
termination_by pattern.text.length - first
decreasing_by
  have := Terminated.find_inside _h
  omega

/-- The index of the character. -/
def firstUnescapedSpecialChar : Option (Option Nat) := specialFrom pattern 0

/-- The loop from `cur` on, with what it adds to the result. -/
def unescapeFrom (cur : Nat) : Option UStr :=
  match _h : pattern.read cur with
  | none => none
  | some c =>
    if c = 0 then some []
    else
      let cur := if c = backslash then cur + 1 else cur
      (pattern.read cur).bind fun d => (unescapeFrom (cur + 1)).map (d :: ·)
termination_by pattern.text.length + 1 - cur
decreasing_by
  have := pattern.inside_of_read _h
  split <;> omega

def unescapePattern : Option UStr :=
  (pattern.find (fun c => c = backslash) 0).bind fun found =>
    match found with
    | none => (pattern.stepOver (fun c => c ≠ 0) 0).bind fun len => pattern.copy 0 len
    | some _ => unescapeFrom pattern 0

end

/-! ## Escapes, as on texts -/

section
variable {pattern : CString} {i : Nat} {rest : UStr}

theorem backslashesLeft_eq (inside : i ≤ pattern.text.length) :
    pattern.backslashesLeft i = some (Glob.backslashesBefore (pattern.text.take i).reverse) := by
  induction i with
  | zero => rfl
  | succ i ih =>
    have last : pattern.text.take (i + 1) = pattern.text.take i ++ [pattern.text[i]] :=
      (List.take_append_getElem inside).symm
    rw [backslashesLeft, (pattern.at_getElem inside).read_cons, Option.bind_some,
      ih (Nat.le_of_succ_le inside), last, List.reverse_append]
    show _ = some (Glob.backslashesBefore (pattern.text[i] :: (pattern.text.take i).reverse))
    rw [Glob.backslashesBefore]
    split <;> rfl

theorem specialFrom_skip {before u : UStr} (plain : ∀ c ∈ u, c ≠ star ∧ c ≠ question) :
    Glob.specialFrom before (u ++ rest) = Glob.specialFrom (u.reverse ++ before) rest := by
  induction u generalizing before with
  | nil => rfl
  | cons c u ih =>
    obtain ⟨here, plain⟩ := List.forall_mem_cons.mp plain
    rw [List.cons_append, Glob.specialFrom, if_neg (by simp [here]), ih plain,
      List.reverse_cons, List.append_assoc]
    rfl

theorem specialFrom_eq (h : pattern.At i rest) :
    pattern.specialFrom i = some (Glob.specialFrom (pattern.text.take i).reverse rest) := by
  induction hn : rest.length using Nat.strong_induction_on generalizing i rest with
  | _ n ih =>
  subst hn
  unfold specialFrom
  rcases h.find_cases (fun c => c = star || c = question) with
    ⟨eq, free⟩ | ⟨u, c, v, rfl, plain, here, eq⟩
  · have free : ∀ c ∈ rest, c ≠ star ∧ c ≠ question := by simpa using free
    rw [Glob.specialFrom_none free]
    split
    · rename_i failed
      cases eq.symm.trans failed
    · rfl
    · rename_i found there
      cases eq.symm.trans there
  · have plain : ∀ c ∈ u, c ≠ star ∧ c ≠ question := by simpa using plain
    have here : c = star ∨ c = question := by simpa using here
    have there := h.skip
    have front : pattern.text.take (i + u.length) = pattern.text.take i ++ u := by
      rw [List.take_add, h.rest, List.take_left]
    have front' : pattern.text.take (i + u.length + 1) =
        pattern.text.take (i + u.length) ++ [c] := by
      rw [List.take_add, there.rest]
      rfl
    split
    · rename_i failed
      cases eq.symm.trans failed
    · rename_i none
      cases eq.symm.trans none
    · rename_i found there'
      obtain rfl := Option.some.inj (Option.some.inj (eq.symm.trans there'))
      have num := backslashesLeft_eq there.inside
      rw [num, Option.bind_some, specialFrom_skip plain, ← List.reverse_append, ← front,
        Glob.specialFrom]
      by_cases even : Glob.backslashesBefore (pattern.text.take (i + u.length)).reverse % 2 = 0
      · rw [if_pos even, if_pos ⟨here, even⟩, List.length_reverse,
          List.length_take_of_le there.inside]
      · rw [if_neg even, if_neg fun h => even h.2, ih v.length (by simp; omega) there.next rfl,
          front', List.reverse_append]
        rfl

theorem firstUnescapedSpecialChar_eq (pattern : CString) :
    pattern.firstUnescapedSpecialChar = some (Glob.firstUnescapedSpecialChar pattern.text) :=
  specialFrom_eq pattern.at_start

/-- A backslash at the end takes the terminator along, and the next read is behind it. -/
theorem unescapeFrom_eq (h : pattern.At i rest) :
    pattern.unescapeFrom i = Glob.unescapeFrom rest := by
  induction hn : rest.length using Nat.strong_induction_on generalizing i rest with
  | _ n ih =>
  subst hn
  unfold unescapeFrom
  cases rest with
  | nil =>
    split
    · rename_i failed
      cases h.read_nil.symm.trans failed
    · rename_i c eq
      obtain rfl := Option.some.inj (h.read_nil.symm.trans eq)
      rfl
  | cons c rest =>
    split
    · rename_i failed
      cases h.read_cons.symm.trans failed
    · rename_i d eq
      obtain rfl := Option.some.inj (h.read_cons.symm.trans eq)
      rw [if_neg h.ne]
      by_cases escape : c = backslash
      · cases rest with
        | nil =>
          have behind := pattern.read_behind (i := i + 2) (by
            have := h.length
            rw [List.length_singleton] at this
            omega)
          have none : pattern.unescapeFrom (i + 2) = none := by
            unfold unescapeFrom
            split
            · rfl
            · rename_i c eq
              cases behind.symm.trans eq
          simp only [escape, ↓reduceIte, h.next.read_nil, Option.bind_some, none,
            Glob.unescapeFrom]
          rfl
        | cons d rest =>
          simp only [escape, ↓reduceIte, h.next.read_cons, Option.bind_some, Glob.unescapeFrom]
          rw [ih rest.length (by simp only [List.length_cons]; omega) h.next.next rfl]
      · simp only [escape, ↓reduceIte, h.read_cons, Option.bind_some]
        rw [ih rest.length (by simp) h.next rfl, Glob.unescapeFrom.eq_def (c :: rest)]
        simp [escape]

theorem unescapePattern_eq (pattern : CString) :
    pattern.unescapePattern = Glob.unescapePattern pattern.text := by
  unfold unescapePattern Glob.unescapePattern
  rcases pattern.at_start.find_cases (fun c => c = backslash) with
    ⟨eq, free⟩ | ⟨u, c, v, text, plain, here, eq⟩
  · have absent : uStrchr pattern.text backslash = none := by
      rw [uStrchr_none]
      intro mem
      simpa using free backslash mem
    rw [eq, absent, Option.bind_some]
    dsimp only
    rw [pattern.stepOver_terminator, Option.bind_some, pattern.at_start.copy (Nat.le_refl _),
      List.take_length]
  · have here : c = backslash := by simpa using here
    have mem : backslash ∈ pattern.text := by
      rw [text, here]
      exact List.mem_append_right _ List.mem_cons_self
    rw [eq, Option.bind_some]
    dsimp only
    rw [unescapeFrom_eq pattern.at_start]
    cases there : uStrchr pattern.text backslash with
    | none => exact absurd mem (uStrchr_none.mp there)
    | some _ => rfl

end

/-! ## The matcher -/

section
variable (name pattern : CString)

/-- Whether a run of stars that starts at `j` and ends before `k` may cross separators. The unit
in front of it would be read if `prev_p` were behind `pattern`. -/
def crosses (j k : Nat) : Option Bool :=
  (if (j : Int) - 1 < k then some true
    else (pattern.read ((j : Int) - 1)).map fun c => c = dirSep).bind fun front =>
  if front then
    (pattern.read k).bind fun c =>
      if c = 0 ∨ c = dirSep then some true
      else if c = backslash then (pattern.read (k + 1 : Nat)).map fun d => d = dirSep
      else some false
  else some false

/-- The inner `while`, for a unit that stands for itself: the name and its unit behind it. -/
def seek (matchSlash : Bool) (c : UChar) (i : Nat) (n : UChar) : Option (Nat × UChar) :=
  if c = star ∨ c = question ∨ c = backslash then some (i, n)
  else
    (name.stepOver (fun d => d ≠ 0 && (matchSlash || d ≠ dirSep) && d ≠ c) i).bind fun i =>
      (name.read i).map fun n => (i, n)

variable {name pattern} in
theorem seek_le {matchSlash : Bool} {c n n' : UChar} {i i' : Nat}
    (h : seek name matchSlash c i n = some (i', n')) : i ≤ i' := by
  unfold seek at h
  split at h
  · cases h
    exact Nat.le_refl i
  · obtain ⟨j, stepped, h⟩ := Option.bind_eq_some_iff.mp h
    obtain ⟨d, -, h⟩ := Option.map_eq_some_iff.mp h
    cases h
    exact (Terminated.stepOver_inside stepped).1

mutual

/-- `name` and `pattern` point to `i` and `j`. -/
def fileNameMatchesImpl (i j : Nat) : Option Bool :=
  match _h : pattern.read j with
  | none => none
  | some p =>
    if p = 0 then (name.read i).map fun n => n = 0
    else
      (name.read i).bind fun n =>
        if n = 0 ∧ p ≠ star then some false
        else if p = backslash then
          (pattern.read (j + 1 : Nat)).bind fun c =>
            if n ≠ c then some false else fileNameMatchesImpl (i + 1) (j + 2)
        else if p = question then
          if n = dirSep then some false else fileNameMatchesImpl (i + 1) (j + 1)
        else if p = star then
          (pattern.read (j + 1 : Nat)).bind fun c =>
            if c = star then
              match _hk : pattern.stepOver (fun c => c = star) (j + 2) with
              | none => none
              | some k =>
                (crosses pattern j k).bind fun matchSlash =>
                  (pattern.read k).bind fun c =>
                    (if matchSlash && c = dirSep then fileNameMatchesImpl i (k + 1)
                      else some false).bind fun below =>
                    if below then some true else afterStar i k n matchSlash
            else afterStar i (j + 1) n false
        else if n ≠ p then some false else fileNameMatchesImpl (i + 1) (j + 1)
termination_by (pattern.text.length + 1 - j, 0, 0)
decreasing_by
  all_goals have := pattern.inside_of_read _h
  all_goals try have := Terminated.stepOver_inside _hk
  all_goals exact Prod.Lex.left _ _ (by omega)

/-- The rest of `case u'*'`, from `if (*pattern == 0)` on, with `n_ch`. -/
def afterStar (i k : Nat) (n : UChar) (matchSlash : Bool) : Option Bool :=
  match _h : pattern.read k with
  | none => none
  | some c =>
    if c = 0 then
      if matchSlash then some true
      else (name.find (fun d => d = dirSep) i).map Option.isNone
    else if !matchSlash && c = dirSep then
      (name.find (fun d => d = dirSep) i).bind fun slash =>
        match slash with
        | none => some false
        | some slash => fileNameMatchesImpl (slash + 1) (k + 1)
    else starLoop i k n matchSlash
termination_by (pattern.text.length + 1 - k, 2, 0)
decreasing_by
  all_goals have := pattern.inside_of_read _h
  · exact Prod.Lex.left _ _ (by omega)
  · exact Prod.Lex.right _ (Prod.Lex.left _ _ (by omega))

/-- The `while (true)` loop. -/
def starLoop (i k : Nat) (n : UChar) (matchSlash : Bool) : Option Bool :=
  if n = 0 then some false
  else
    (pattern.read k).bind fun c =>
      match _hs : seek name matchSlash c i n with
      | none => none
      | some (i', n') =>
        if ¬ (c = star ∨ c = question ∨ c = backslash) ∧ n' ≠ c then some false
        else
          (fileNameMatchesImpl i' k).bind fun found =>
            if found then some true
            else if !matchSlash && n' = dirSep then some false
            else
              match _hi : name.read (i' + 1 : Nat) with
              | none => none
              | some next => starLoop (i' + 1) k next matchSlash
termination_by (pattern.text.length + 1 - k, 1, name.text.length + 1 - i)
decreasing_by
  · exact Prod.Lex.right _ (Prod.Lex.left _ _ (by omega))
  · have := seek_le _hs
    have := name.inside_of_read _hi
    exact Prod.Lex.right _ (Prod.Lex.right _ (by omega))

end

def fileNameMatches : Option Bool := fileNameMatchesImpl name pattern 0 0

end

/-! ## The matcher, as on texts -/

section
variable {name pattern : CString} {i j k : Nat} {u v : UStr} {c n : UChar} {m : Bool}

theorem crosses_eq (h : pattern.At k v) (before : j ≤ k) :
    pattern.crosses j k = some (Glob.crossing v) := by
  unfold crosses
  rw [if_pos (by omega), Option.bind_some, if_pos rfl]
  cases v with
  | nil =>
    rw [h.read_nil]
    rfl
  | cons c v =>
    rw [h.read_cons, Option.bind_some]
    by_cases sep : c = dirSep
    · simp [Glob.crossing, sep]
    · rw [if_neg (by simp [h.ne, sep]), Glob.crossing]
      by_cases escape : c = backslash
      · cases v with
        | nil =>
          rw [if_pos escape, h.next.read_nil, escape]
          rfl
        | cons d v =>
          rw [if_pos escape, h.next.read_cons, escape]
          simp [show backslash ≠ dirSep by decide]
      · simp [sep, escape]

/-- The units that the inner loop goes over, none of which is the terminator. -/
theorem dropWhile_eq_skipTo (plain : 0 ∉ u) :
    u.dropWhile (fun d => d ≠ 0 && (m || d ≠ dirSep) && d ≠ c) = Glob.skipTo c m u := by
  induction u with
  | nil => rfl
  | cons d u ih =>
    simp only [List.mem_cons, not_or] at plain
    have ne : d ≠ 0 := Ne.symm plain.1
    rw [List.dropWhile_cons, Glob.skipTo, ih plain.2, decide_eq_true ne, Bool.true_and]
    cases m <;> by_cases sep : d = dirSep <;> by_cases here : d = c <;> simp [sep, here]

/-- Where the inner loop ends. -/
theorem seek_eq (h : name.At i u) (literal : ¬ (c = star ∨ c = question ∨ c = backslash)) :
    ∃ i' n', name.seek m c i n = some (i', n') ∧ name.At i' (Glob.skipTo c m u) ∧
      name.read i' = some n' := by
  have plain : 0 ∉ u := fun mem => name.plain (List.mem_of_mem_drop (h.rest ▸ mem))
  have there := h.stepped fun d => d ≠ 0 && (m || d ≠ dirSep) && d ≠ c
  rw [dropWhile_eq_skipTo plain] at there
  unfold seek
  rw [if_neg literal, h.stepOver (by simp), Option.bind_some]
  cases rest : Glob.skipTo c m u with
  | nil =>
    rw [rest] at there
    exact ⟨_, _, by rw [there.read_nil]; rfl, there, there.read_nil⟩
  | cons d after =>
    rw [rest] at there
    exact ⟨_, _, by rw [there.read_cons]; rfl, there, there.read_cons⟩

theorem uStrchr_append {a b : UStr} (plain : c ∉ a) : uStrchr (a ++ c :: b) c = some (c :: b) := by
  induction a with
  | nil => simp [uStrchr]
  | cons d a ih =>
    obtain ⟨ne, plain⟩ := not_or.mp (mt List.mem_cons.mpr plain)
    rw [List.cons_append, uStrchr, if_neg (Ne.symm ne), ih plain]

/-- `u_strchr` in the array and on the text. -/
theorem find_sep (h : name.At i u) :
    (name.find (fun d => d = dirSep) i = some none ∧ uStrchr u dirSep = none) ∨
      ∃ a b, u = a ++ dirSep :: b ∧ uStrchr u dirSep = some (dirSep :: b) ∧
        name.find (fun d => d = dirSep) i = some (some (i + a.length)) := by
  rcases h.find_cases (fun d => d = dirSep) with ⟨eq, free⟩ | ⟨a, d, b, rfl, plain, sep, eq⟩
  · exact .inl ⟨eq, uStrchr_none.mpr fun mem => by simpa using free dirSep mem⟩
  · obtain rfl : d = dirSep := by simpa using sep
    have plain : dirSep ∉ a := fun mem => by simpa using plain dirSep mem
    exact .inr ⟨a, b, rfl, uStrchr_append plain, eq⟩

theorem starLoop_literal (tryRest : UStr → Bool) (d : UChar) (tail : UStr) :
    Glob.starLoop tryRest (some c) m (d :: tail) =
      match Glob.skipTo c m (d :: tail) with
      | [] => false
      | e :: after =>
        if e ≠ c then false
        else if tryRest (e :: after) then true
        else if !m && e = dirSep then false
        else Glob.starLoop tryRest (some c) m after := by
  rw [Glob.starLoop]
  split <;> simp [*]

/-- The loop does what it does on the text if the recursive calls do. -/
theorem starLoop_eq {tryRest : UStr → Bool}
    (rest : ∀ i u, name.At i u → fileNameMatchesImpl name pattern i k = some (tryRest u))
    (hp : pattern.At k (c :: v)) (h : name.At i u) (here : name.read i = some n) :
    starLoop name pattern i k n m = some (Glob.starLoop tryRest (Glob.literal (c :: v)) m u) := by
  induction hl : u.length using Nat.strong_induction_on generalizing i u n with
  | _ l ih =>
  subst hl
  -- what comes behind the unit that the recursive call has been tried at
  have go (i' : Nat) (d : UChar) (after : UStr) (short : after.length < u.length)
      (there : name.At i' (d :: after)) :
      ((fileNameMatchesImpl name pattern i' k).bind fun found =>
        if found then some true
        else if !m && d = dirSep then some false
        else
          match _hi : name.read (i' + 1 : Nat) with
          | none => none
          | some next => starLoop name pattern (i' + 1) k next m) =
        some (if tryRest (d :: after) then true
          else if !m && d = dirSep then false
          else Glob.starLoop tryRest (Glob.literal (c :: v)) m after) := by
    rw [rest i' _ there, Option.bind_some]
    split
    · rfl
    · split
      · rfl
      · split
        · rename_i failed
          cases after with
          | nil => cases there.next.read_nil.symm.trans failed
          | cons e after => cases there.next.read_cons.symm.trans failed
        · rename_i next eq
          exact ih _ short there.next eq rfl
  unfold starLoop
  cases u with
  | nil =>
    obtain rfl := Option.some.inj (h.read_nil.symm.trans here)
    rw [if_pos rfl, Glob.starLoop]
  | cons d tail =>
    obtain rfl := Option.some.inj (h.read_cons.symm.trans here)
    rw [if_neg h.ne, hp.read_cons, Option.bind_some]
    by_cases special : c = star ∨ c = question ∨ c = backslash
    · have eq : name.seek m c i d = some (i, d) := if_pos special
      have none : Glob.literal (c :: v) = none := if_pos special
      split
      · rename_i failed
        cases eq.symm.trans failed
      · rename_i i' n' there
        obtain ⟨rfl, rfl⟩ := Prod.mk.inj (Option.some.inj (eq.symm.trans there))
        rw [if_neg fun other => other.1 special, go i d tail (Nat.lt_succ_self _) h, none,
          Glob.starLoop]
    · obtain ⟨i', n', eq, there, unit⟩ := seek_eq (m := m) (n := d) h special
      have literal : Glob.literal (c :: v) = some c := if_neg special
      split
      · rename_i failed
        cases eq.symm.trans failed
      · rename_i i'' n'' there'
        obtain ⟨rfl, rfl⟩ := Prod.mk.inj (Option.some.inj (eq.symm.trans there'))
        rw [literal, starLoop_literal]
        have short := Glob.skipTo_length_le c m (d :: tail)
        cases stopped : Glob.skipTo c m (d :: tail) with
        | nil =>
          rw [stopped] at there
          obtain rfl := Option.some.inj (there.read_nil.symm.trans unit)
          rw [if_pos ⟨special, hp.ne.symm⟩]
        | cons e after =>
          rw [stopped] at there short
          obtain rfl := Option.some.inj (there.read_cons.symm.trans unit)
          dsimp only
          by_cases same : e = c
          · rw [if_neg fun other => other.2 same, if_neg (not_not_intro same),
              go i' e after short there, literal]
          · rw [if_pos ⟨special, same⟩, if_pos same]

theorem afterStar_eq
    (below : ∀ w : UStr, w.length ≤ v.length → ∀ i k u, name.At i u → pattern.At k w →
      fileNameMatchesImpl name pattern i k = some (Glob.fileNameMatchesImpl u w))
    (hp : pattern.At k v) (h : name.At i u) (here : name.read i = some n) :
    afterStar name pattern i k n m = some (Glob.afterStar u v m) := by
  unfold afterStar
  cases v with
  | nil =>
    split
    · rename_i failed
      cases hp.read_nil.symm.trans failed
    · rename_i c eq
      obtain rfl := Option.some.inj (hp.read_nil.symm.trans eq)
      rw [if_pos rfl, Glob.afterStar]
      cases m with
      | true => rfl
      | false => rcases find_sep h with ⟨eq, absent⟩ | ⟨a, b, -, there, eq⟩ <;> simp [*]
  | cons c v =>
    split
    · rename_i failed
      cases hp.read_cons.symm.trans failed
    · rename_i d eq
      obtain rfl := Option.some.inj (hp.read_cons.symm.trans eq)
      rw [if_neg hp.ne, Glob.afterStar]
      split
      · rcases find_sep h with ⟨eq, absent⟩ | ⟨a, b, rfl, there, eq⟩
        · rw [eq, absent]
          rfl
        · rw [eq, there, Option.bind_some]
          exact below v (Nat.le_succ _) _ _ _ h.skip.next hp.next
      · exact starLoop_eq (fun i u h => below _ (Nat.le_refl _) i k u h hp) hp h here

/-- Behind a run of stars. -/
theorem afterRun_eq
    (below : ∀ w : UStr, w.length ≤ v.length → ∀ i k u, name.At i u → pattern.At k w →
      fileNameMatchesImpl name pattern i k = some (Glob.fileNameMatchesImpl u w))
    (hp : pattern.At k v) (h : name.At i u) (here : name.read i = some n) :
    ((pattern.read k).bind fun c =>
      (if m && c = dirSep then fileNameMatchesImpl name pattern i (k + 1)
        else some false).bind fun below =>
      if below then some true else afterStar name pattern i k n m) =
      some (if m && v.head? = some dirSep && Glob.fileNameMatchesImpl u v.tail then true
        else Glob.afterStar u v m) := by
  have after := afterStar_eq (m := m) below hp h here
  cases v with
  | nil =>
    have none : ¬ (0 : UChar) = dirSep := by decide
    simp [hp.read_nil, none, after]
  | cons c v =>
    rw [hp.read_cons, Option.bind_some, after, List.head?_cons, List.tail_cons]
    by_cases crossed : m = true ∧ c = dirSep
    · have rest := below v (Nat.le_succ _) i (k + 1) u h hp.next
      cases found : Glob.fileNameMatchesImpl u v <;> simp [crossed, rest, found]
    · have stays : (m && decide (c = dirSep)) = false := by simpa using crossed
      simp [stays]

theorem dropWhile_eq_skipStars (v : UStr) :
    v.dropWhile (fun c => c = star) = Glob.skipStars v := by
  induction v with
  | nil => rfl
  | cons c v ih => by_cases here : c = star <;> simp [Glob.skipStars, ih, here]

/-- The unit of the name that is read first. -/
theorem exists_unit (h : name.At i u) : ∃ n, name.read i = some n ∧ (n = 0 ↔ u = []) ∧
    ∀ d tail, u = d :: tail → n = d := by
  cases u with
  | nil => exact ⟨0, h.read_nil, by simp, by simp⟩
  | cons d tail => exact ⟨d, h.read_cons, by simp [h.ne], by simp⟩

theorem fileNameMatchesImpl_eq (h : name.At i u) (hp : pattern.At j v) :
    name.fileNameMatchesImpl pattern i j = some (Glob.fileNameMatchesImpl u v) := by
  induction hl : v.length using Nat.strong_induction_on generalizing i j u v with
  | _ l ih =>
  subst hl
  have below (v' : UStr) (short : v'.length < v.length) : ∀ w : UStr, w.length ≤ v'.length →
      ∀ i k u, name.At i u → pattern.At k w →
        name.fileNameMatchesImpl pattern i k = some (Glob.fileNameMatchesImpl u w) :=
    fun w hw i k u h hp => ih w.length (by omega) h hp rfl
  obtain ⟨n, here, zero, unit⟩ := exists_unit h
  unfold fileNameMatchesImpl
  cases v with
  | nil =>
    split
    · rename_i failed
      cases hp.read_nil.symm.trans failed
    · rename_i c eq
      obtain rfl := Option.some.inj (hp.read_nil.symm.trans eq)
      rw [if_pos rfl, here, Glob.fileNameMatchesImpl.eq_def]
      cases u <;> simp [zero]
  | cons p ps =>
    split
    · rename_i failed
      cases hp.read_cons.symm.trans failed
    rename_i c eq
    obtain rfl := Option.some.inj (hp.read_cons.symm.trans eq)
    rw [if_neg hp.ne, here, Option.bind_some, Glob.fileNameMatchesImpl.eq_def]
    dsimp only
    by_cases isStar : p = star
    · have plain : ¬ star = backslash ∧ ¬ star = question := by decide
      subst isStar
      simp only [ne_eq, not_true_eq_false, and_false, plain, ↓reduceIte]
      cases ps with
      | nil =>
        have none : ¬ (0 : UChar) = star := by decide
        rw [hp.next.read_nil, Option.bind_some, if_neg none,
          afterStar_eq (below [] (Nat.lt_succ_self _)) hp.next h here]
        rfl
      | cons c ps =>
        rw [hp.next.read_cons, Option.bind_some]
        by_cases more : c = star
        · subst more
          have stepped := hp.next.next.stepped fun c => c = star
          rw [dropWhile_eq_skipStars] at stepped
          have short := Glob.skipStars_length_le ps
          have eq := hp.next.next.stepOver (p := fun c => c = star) (by decide)
          have skip : Glob.skipStars (star :: ps) = Glob.skipStars ps := if_pos rfl
          rw [if_pos rfl, skip]
          split
          · rename_i failed
            cases eq.symm.trans failed
          rename_i k there
          obtain rfl := Option.some.inj (eq.symm.trans there)
          rw [crosses_eq stepped (by omega), Option.bind_some]
          apply afterRun_eq ?_ stepped h here
          exact below (Glob.skipStars ps) (by simp; omega)
        · rw [if_neg more, if_neg (by simpa using more),
            afterStar_eq (below _ (Nat.lt_succ_self _)) hp.next h here]
    · simp only [if_neg isStar]
      cases u with
      | nil =>
        obtain rfl : n = 0 := zero.mpr rfl
        rw [if_pos ⟨rfl, isStar⟩]
      | cons d tail =>
        obtain rfl : n = d := unit d tail rfl
        dsimp only
        rw [if_neg fun none => h.ne none.1]
        split
        · cases ps with
          | nil =>
            rw [hp.next.read_nil, Option.bind_some, if_pos h.ne]
          | cons c ps =>
            rw [hp.next.read_cons, Option.bind_some]
            dsimp only
            split
            · rfl
            · exact below (c :: ps) (Nat.lt_succ_self _) ps (Nat.le_succ _) _ _ _ h.next
                hp.next.next
        · split
          · split
            · rfl
            · exact below ps (Nat.lt_succ_self _) ps (Nat.le_refl _) _ _ _ h.next hp.next
          · split
            · rfl
            · exact below ps (Nat.lt_succ_self _) ps (Nat.le_refl _) _ _ _ h.next hp.next

theorem fileNameMatches_eq (name pattern : CString) :
    name.fileNameMatches pattern = some (Glob.fileNameMatches name.text pattern.text) :=
  fileNameMatchesImpl_eq name.at_start pattern.at_start

end

end CString

end Yella
