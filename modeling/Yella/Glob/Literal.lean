import Yella.Glob.Correct
import Yella.Glob.Escape

/-!
# Literal pattern text

What `first_unescaped_special_char`, `unescape_pattern` and the matcher make of the text before
the first wildcard of a pattern.
-/

namespace Yella.Glob

/-- The pattern text reads as the literal one: each unit stands for itself or for the unit
behind it. -/
inductive Reads : UStr → UStr → Prop
  | nil : Reads [] []
  | plain {c : UChar} {r u : UStr} : c ≠ backslash → c ≠ star → c ≠ question → Reads r u →
      Reads (c :: r) (c :: u)
  | escaped {c : UChar} {r u : UStr} : Reads r u → Reads (backslash :: c :: r) (c :: u)

theorem Reads.append {r u s v : UStr} (h : Reads r u) (h' : Reads s v) :
    Reads (r ++ s) (u ++ v) := by
  induction h with
  | nil => exact h'
  | plain hb hs hq _ ih => exact .plain hb hs hq ih
  | escaped _ ih => exact .escaped ih

theorem Reads.length_le {r u : UStr} (h : Reads r u) : u.length ≤ r.length := by
  induction h with
  | nil => exact Nat.le_refl _
  | plain _ _ _ _ ih => simpa using ih
  | escaped _ ih => simp only [List.length_cons]; omega

theorem Reads.eq_self {r u : UStr} (h : Reads r u) (hb : backslash ∉ r) : u = r := by
  induction h with
  | nil => rfl
  | plain _ _ _ _ ih => rw [ih (List.not_mem_of_not_mem_cons hb)]
  | escaped => exact absurd List.mem_cons_self hb

/-- A unit that is not a backslash stands for itself wherever it is, so behind it the reading
starts afresh. -/
theorem Reads.split {r u a s : UStr} {c : UChar} (h : Reads r u) (hc : c ≠ backslash)
    (hr : r = a ++ c :: s) :
    ∃ v w, Reads (a ++ [c]) (v ++ [c]) ∧ Reads s w ∧ u = v ++ c :: w := by
  induction h generalizing a with
  | nil => simp at hr
  | @plain d r u hb hs hq hru ih =>
    cases a with
    | nil =>
      obtain ⟨rfl, rfl⟩ := List.cons.inj hr
      exact ⟨[], u, .plain hb hs hq .nil, hru, rfl⟩
    | cons e a =>
      rw [List.cons_append, List.cons.injEq] at hr
      obtain ⟨rfl, hr⟩ := hr
      obtain ⟨v, w, front, back, rfl⟩ := ih hr
      exact ⟨d :: v, w, .plain hb hs hq front, back, rfl⟩
  | @escaped d r u hru ih =>
    cases a with
    | nil => exact absurd (List.cons.inj hr).1.symm hc
    | cons e a =>
      rw [List.cons_append, List.cons.injEq] at hr
      obtain ⟨rfl, hr⟩ := hr
      cases a with
      | nil =>
        obtain ⟨rfl, rfl⟩ := List.cons.inj hr
        exact ⟨[], u, .escaped .nil, hru, rfl⟩
      | cons e a =>
        rw [List.cons_append, List.cons.injEq] at hr
        obtain ⟨rfl, hr⟩ := hr
        obtain ⟨v, w, front, back, rfl⟩ := ih hr
        exact ⟨d :: v, w, .escaped front, back, rfl⟩

/-- Unescaped text does not catch up with backslashes put before the escaped text. -/
theorem Reads.not_prefix_backslashes {r u : UStr} (h : Reads r u)
    (ends : r.getLast? = some dirSep) {k : Nat} :
    ¬ u <+: List.replicate (k + 1) backslash ++ r := by
  induction h generalizing k with
  | nil => cases ends
  | plain hb _ _ _ _ =>
    rintro ⟨t, ht⟩
    exact hb (List.cons.inj ht).1
  | @escaped c r u _ ih =>
    rintro ⟨t, ht⟩
    obtain ⟨rfl, ht⟩ := List.cons.inj ht
    cases r with
    | nil => exact absurd ends (by decide)
    | cons d r =>
      rw [List.getLast?_cons_cons, List.getLast?_cons_cons] at ends
      apply @ih ends (k + 1)
      refine ⟨t, ht.trans ?_⟩
      rw [List.replicate_succ', List.replicate_succ', List.append_assoc, List.append_assoc]
      rfl

/-- Text with an escape in it is not what it reads as, up to its last separator. -/
theorem Reads.no_backslash_of_prefix {r u : UStr} (h : Reads r u)
    (ends : r.getLast? = some dirSep) (hp : u <+: r) : backslash ∉ r := by
  induction h with
  | nil => simp
  | @plain c r u hb _ _ _ ih =>
    cases r with
    | nil => simpa using hb.symm
    | cons d r =>
      rw [List.getLast?_cons_cons] at ends
      rw [List.mem_cons, not_or]
      exact ⟨hb.symm, ih ends (List.cons_prefix_cons.mp hp).2⟩
  | @escaped c r u hru ih =>
    obtain ⟨rfl, hp⟩ := List.cons_prefix_cons.mp hp
    cases r with
    | nil => exact absurd ends (by decide)
    | cons d r =>
      rw [List.getLast?_cons_cons, List.getLast?_cons_cons] at ends
      exact absurd hp (@not_prefix_backslashes _ _ hru ends 0)

/-- The runs of backslashes of a pattern against the readings of its front: it is literal
text, or literal text and a backslash with nothing behind it, or it has a wildcard. -/
theorem reads_cases (p : UStr) :
    (∃ u, Reads p u) ∨ (∃ r u, Reads r u ∧ p = r ++ [backslash]) ∨
      ∃ r u c q, Reads r u ∧ (c = star ∨ c = question) ∧ p = r ++ c :: q := by
  induction hn : p.length using Nat.strong_induction_on generalizing p with
  | _ k ih =>
  subst hn
  -- what the rest is, the whole is with a unit or an escape before it
  have extend (f s v : UStr) (hf : Reads f v) (hlen : s.length < p.length) (hp : p = f ++ s) :
      (∃ u, Reads p u) ∨ (∃ r u, Reads r u ∧ p = r ++ [backslash]) ∨
        ∃ r u c q, Reads r u ∧ (c = star ∨ c = question) ∧ p = r ++ c :: q := by
    subst hp
    rcases ih s.length hlen s rfl with ⟨u, h⟩ | ⟨r, u, h, rfl⟩ | ⟨r, u, c, q, h, hc, rfl⟩
    · exact .inl ⟨v ++ u, hf.append h⟩
    · exact .inr (.inl ⟨f ++ r, v ++ u, hf.append h, by simp⟩)
    · exact .inr (.inr ⟨f ++ r, v ++ u, c, q, hf.append h, hc, by simp⟩)
  cases p with
  | nil => exact .inl ⟨[], .nil⟩
  | cons c rest =>
    by_cases hb : c = backslash
    · subst hb
      cases rest with
      | nil => exact .inr (.inl ⟨[], [], .nil, rfl⟩)
      | cons d rest =>
        have shorter : rest.length < (backslash :: d :: rest).length := by
          rw [List.length_cons, List.length_cons]
          omega
        exact extend [backslash, d] rest [d] (.escaped .nil) shorter rfl
    · by_cases hw : c = star ∨ c = question
      · exact .inr (.inr ⟨[], [], c, rest, .nil, hw, rfl⟩)
      · rw [not_or] at hw
        exact extend [c] rest [c] (.plain hb hw.1 hw.2 .nil) (by simp) rfl

/-! ## The detector -/

theorem Reads.backslashesBefore_even {r u before : UStr} (h : Reads r u)
    (hb : backslashesBefore before % 2 = 0) :
    backslashesBefore (r.reverse ++ before) % 2 = 0 := by
  induction h generalizing before with
  | nil => exact hb
  | @plain c r u hc _ _ _ ih =>
    rw [List.reverse_cons, List.append_assoc]
    apply ih
    simp [backslashesBefore, hc]
  | @escaped c r u _ ih =>
    rw [List.reverse_cons, List.reverse_cons, List.append_assoc, List.append_assoc]
    apply ih
    simp only [List.cons_append, List.nil_append, backslashesBefore, ↓reduceIte]
    split <;> omega

theorem Reads.reverse_even {r u : UStr} (h : Reads r u) :
    backslashesBefore r.reverse % 2 = 0 := by
  have even : backslashesBefore (r.reverse ++ []) % 2 = 0 := h.backslashesBefore_even rfl
  rwa [List.append_nil] at even

/-- Literal text is passed over. -/
theorem Reads.specialFrom_append {r u before : UStr} (h : Reads r u) (q : UStr)
    (hb : backslashesBefore before % 2 = 0) :
    specialFrom before (r ++ q) = specialFrom (r.reverse ++ before) q := by
  induction h generalizing before with
  | nil => rfl
  | @plain c r u hc hs hq _ ih =>
    simp only [List.cons_append, specialFrom, hs, hq, or_self, false_and, ↓reduceIte,
      List.reverse_cons, List.append_assoc, List.nil_append]
    apply ih
    simp [backslashesBefore, hc]
  | @escaped c r u _ ih =>
    have plain : ¬ (backslash = star ∨ backslash = question) := by decide
    have odd : (backslashesBefore before + 1) % 2 ≠ 0 := by omega
    simp only [List.cons_append, specialFrom, plain, false_and, backslashesBefore, odd, and_false,
      ↓reduceIte, List.reverse_cons, List.append_assoc, List.nil_append]
    apply ih
    simp only [backslashesBefore, ↓reduceIte]
    split <;> omega

theorem Reads.special_append {r u : UStr} (h : Reads r u) (q : UStr) :
    firstUnescapedSpecialChar (r ++ q) = specialFrom r.reverse q := by
  have passed : specialFrom [] (r ++ q) = specialFrom (r.reverse ++ []) q :=
    h.specialFrom_append q rfl
  rwa [List.append_nil] at passed

theorem Reads.special_none {p u : UStr} (h : Reads p u) : firstUnescapedSpecialChar p = none := by
  rw [← List.append_nil p, h.special_append]
  rfl

theorem Reads.special_wildcard {r u q : UStr} {c : UChar} (h : Reads r u)
    (hc : c = star ∨ c = question) :
    firstUnescapedSpecialChar (r ++ c :: q) = some r.length := by
  rw [h.special_append]
  simp [specialFrom, hc, h.reverse_even]

/-! ## The unescaper -/

theorem unescapeFrom_plain {c : UChar} (hb : c ≠ backslash) (rest : UStr) :
    unescapeFrom (c :: rest) = (unescapeFrom rest).map (c :: ·) := by
  rw [unescapeFrom.eq_def]
  simp [hb]

theorem Reads.unescapeFrom_eq {p u : UStr} (h : Reads p u) : unescapeFrom p = some u := by
  induction h with
  | nil => rfl
  | plain hb _ _ _ ih => simp [unescapeFrom_plain hb, ih]
  | escaped _ ih => simp [unescapeFrom, ih]

theorem Reads.unescapePattern_eq {p u : UStr} (h : Reads p u) : unescapePattern p = some u := by
  cases hu : uStrchr p backslash with
  | none =>
    obtain rfl := h.eq_self (uStrchr_none.mp hu)
    simp [unescapePattern, hu]
  | some _ => simp [unescapePattern, hu, h.unescapeFrom_eq]

theorem Reads.unescapeFrom_dangling {r u : UStr} (h : Reads r u) :
    unescapeFrom (r ++ [backslash]) = none := by
  induction h with
  | nil => rfl
  | plain hb _ _ _ ih => simp [unescapeFrom_plain hb, ih]
  | escaped _ ih => simp [unescapeFrom, ih]

/-- The unescaper reads behind the end of the pattern. -/
theorem Reads.unescapePattern_dangling {r u : UStr} (h : Reads r u) :
    unescapePattern (r ++ [backslash]) = none := by
  cases hu : uStrchr (r ++ [backslash]) backslash with
  | none => exact absurd (uStrchr_none.mp hu) (by simp)
  | some _ => simp [unescapePattern, hu, h.unescapeFrom_dangling]

theorem unescapePattern_isSome_iff {p : UStr} (literal : firstUnescapedSpecialChar p = none) :
    (unescapePattern p).isSome ↔ backslashesBefore p.reverse % 2 = 0 := by
  rcases reads_cases p with ⟨u, h⟩ | ⟨r, u, h, rfl⟩ | ⟨r, u, c, q, h, hc, rfl⟩
  · simp [h.unescapePattern_eq, h.reverse_even]
  · have even := h.reverse_even
    have odd : (backslashesBefore r.reverse + 1) % 2 ≠ 0 := by omega
    simp [h.unescapePattern_dangling, backslashesBefore, odd]
  · rw [h.special_wildcard hc] at literal
    cases literal

/-! ## The matcher -/

theorem Reads.tokens_append {r u : UStr} (h : Reads r u) (q : UStr) :
    tokens (r ++ q) = u.map Token.lit ++ tokens q := by
  induction h with
  | nil => rfl
  | plain hb hs hq _ ih =>
    rw [List.cons_append, tokens_literal _ hs hq hb, ih, List.map_cons, List.cons_append]
  | escaped _ ih =>
    rw [List.cons_append, List.cons_append, tokens_backslash, ih, List.map_cons, List.cons_append]

theorem mem_lang_lits (u : UStr) (ts : List Token) (w : UStr) :
    w ∈ lang (u.map Token.lit ++ ts) ↔ ∃ v ∈ lang ts, w = u ++ v := by
  induction u generalizing w with
  | nil => simp
  | cons c u ih =>
    rw [List.map_cons, List.cons_append, mem_lang_lit]
    constructor
    · rintro ⟨v, hv, rfl⟩
      obtain ⟨v', hv', rfl⟩ := (ih v).mp hv
      exact ⟨v', hv', rfl⟩
    · rintro ⟨v, hv, rfl⟩
      exact ⟨u ++ v, (ih _).mpr ⟨v, hv, rfl⟩, rfl⟩

/-- A name that the pattern accepts starts with what the text before the wildcard reads as. -/
theorem Reads.matches_append {r u q name : UStr} (h : Reads r u) :
    fileNameMatches name (r ++ q) = true ↔ ∃ v ∈ language q, name = u ++ v := by
  rw [fileNameMatches, fileNameMatchesImpl_iff, language, h.tokens_append, mem_lang_lits]
  rfl

theorem Reads.matches_iff {p u name : UStr} (h : Reads p u) :
    fileNameMatches name p = true ↔ u = name := by
  rw [← List.append_nil p, h.matches_append]
  constructor
  · rintro ⟨v, hv, rfl⟩
    obtain rfl : v = [] := by simpa [language, tokens] using hv
    exact (List.append_nil u).symm
  · rintro rfl
    exact ⟨[], by simp [language, tokens], (List.append_nil u).symm⟩

theorem Reads.not_matches_dangling {r u name : UStr} (h : Reads r u) :
    fileNameMatches name (r ++ [backslash]) = false := by
  rw [Bool.eq_false_iff, ne_eq, h.matches_append, language, tokens_dangling]
  rintro ⟨v, hv, -⟩
  exact not_mem_lang_dangling _ _ hv

/-! ## The literal path -/

/-- The unescaped pattern is the one name that the pattern accepts. -/
def UnescapesRight (p : UStr) : Prop :=
  ∃ t, unescapePattern p = some t ∧ ∀ name, t = name ↔ fileNameMatches name p = true

/-- A pattern without wildcards accepts what it is unescaped to. -/
theorem matches_iff_unescaped {p t name : UStr} (literal : firstUnescapedSpecialChar p = none)
    (h : unescapePattern p = some t) : fileNameMatches name p = true ↔ t = name := by
  rcases reads_cases p with ⟨u, hr⟩ | ⟨r, u, hr, rfl⟩ | ⟨r, u, c, q, hr, hc, rfl⟩
  · rw [hr.unescapePattern_eq, Option.some_inj] at h
    rw [hr.matches_iff, h]
  · rw [hr.unescapePattern_dangling] at h
    cases h
  · rw [hr.special_wildcard hc] at literal
    cases literal

/-- A pattern without wildcards is unescaped to the name it accepts unless its last backslash
escapes the terminator. -/
theorem unescapesRight_iff {p : UStr} (literal : firstUnescapedSpecialChar p = none) :
    UnescapesRight p ↔ backslashesBefore p.reverse % 2 = 0 := by
  rw [← unescapePattern_isSome_iff literal, Option.isSome_iff_exists]
  constructor
  · rintro ⟨t, ht, -⟩
    exact ⟨t, ht⟩
  · rintro ⟨t, ht⟩
    exact ⟨t, ht, fun name => (matches_iff_unescaped literal ht).symm⟩

/-- `\*` is unescaped to `*`. -/
theorem unescapesRight_star : UnescapesRight [92, 42] :=
  (unescapesRight_iff (by decide)).mpr (by decide)

/-- The terminator behind a backslash is copied as if it were a character. -/
theorem dangling_unescapes_wrong :
    firstUnescapedSpecialChar [92] = none ∧ ¬ UnescapesRight [92] := by
  refine ⟨by decide, ?_⟩
  rintro ⟨t, ht, -⟩
  cases ht

end Yella.Glob
