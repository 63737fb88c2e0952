import Yella.Glob.Matcher
import Yella.Glob.Language

namespace Yella.Glob

theorem skipStars_eq (p : UStr) : skipStars p = (starRun p).2 := by
  induction p with
  | nil => rfl
  | cons c p ih => simp only [skipStars, starRun]; split <;> simp [ih]

theorem starRun_zero {p : UStr} : (starRun p).1 = 0 ↔ p.head? ≠ some star := by
  cases p with
  | nil => simp [starRun]
  | cons c p => simp only [starRun]; split <;> simp [*]

theorem starRun_head (p : UStr) : (starRun p).2.head? ≠ some star := by
  induction p with
  | nil => simp [starRun]
  | cons c p ih =>
    simp only [starRun]
    split
    · exact ih
    · rename_i h; simpa using h

/-! ## The loop after a star -/

theorem skipTo_spec (c : UChar) (m : Bool) (name : UStr) :
    ∃ pre, name = pre ++ skipTo c m name ∧ c ∉ pre ∧ (m = true ∨ dirSep ∉ pre) ∧
      ∀ x after, skipTo c m name = x :: after → x ≠ c → m = false ∧ x = dirSep := by
  induction name with
  | nil => exact ⟨[], rfl, by simp, by simp, by simp [skipTo]⟩
  | cons n name ih =>
    simp only [skipTo]
    split
    · rename_i crossable
      split
      · rename_i found
        refine ⟨[], rfl, by simp, by simp, ?_⟩
        intro x after hx hne
        cases hx
        exact absurd found hne
      · rename_i other
        obtain ⟨pre, hname, hc, hsep, hstop⟩ := ih
        refine ⟨n :: pre, ?_, ?_, ?_, hstop⟩
        · rw [List.cons_append, ← hname]
        · simp only [List.mem_cons, not_or]; exact ⟨Ne.symm other, hc⟩
        · cases m with
          | true => exact .inl rfl
          | false =>
            have : n ≠ dirSep := by simpa using crossable
            right
            simp only [List.mem_cons, not_or]
            exact ⟨Ne.symm this, hsep.resolve_left Bool.false_ne_true⟩
    · rename_i stuck
      refine ⟨[], rfl, by simp, by simp, ?_⟩
      intro x after hx _
      cases hx
      simpa using stuck

theorem prefix_before {pre s u v : UStr} {c : UChar} (h : pre ++ s = u ++ c :: v)
    (hc : c ∉ pre) : ∃ u', u = pre ++ u' ∧ s = u' ++ c :: v := by
  rcases List.append_eq_append_iff.mp h with ⟨a, rfl, hs⟩ | ⟨a, rfl, hs⟩
  · exact ⟨a, rfl, hs⟩
  · cases a with
    | nil => exact ⟨[], by simp, by simpa using hs.symm⟩
    | cons d a =>
      simp only [List.cons_append, List.cons.injEq] at hs
      exact absurd (by simp [hs.1]) hc

/-- The star takes the front of the name, across a separator only if `m` allows it, and the rest
of the pattern what is left. -/
def Splits (tryRest : UStr → Bool) (m : Bool) (name : UStr) : Prop :=
  ∃ u v, (m = true ∨ dirSep ∉ u) ∧ tryRest v = true ∧ name = u ++ v

section
variable {tryRest : UStr → Bool} {m : Bool} {n : UChar} {tail name : UStr}

theorem splits_here (h : tryRest name = true) : Splits tryRest m name :=
  ⟨[], name, by simp, h, rfl⟩

theorem not_splits_nil (hnil : tryRest [] = false) : ¬ Splits tryRest m [] := by
  rintro ⟨u, v, _, hv, he⟩
  obtain ⟨rfl, rfl⟩ := List.append_eq_nil_iff.mp he.symm
  rw [hnil] at hv
  cases hv

/-- Where the rest of the pattern does not start, the star takes `n`, unless it stops at this
separator. -/
theorem splits_cons (here : tryRest (n :: tail) = false) :
    Splits tryRest m (n :: tail) ↔ (m = true ∨ n ≠ dirSep) ∧ Splits tryRest m tail := by
  constructor
  · rintro ⟨u, v, hu, hv, he⟩
    cases u with
    | nil =>
      rw [List.nil_append] at he
      rw [← he, here] at hv
      cases hv
    | cons d u =>
      obtain ⟨rfl, rfl⟩ := List.cons.inj he
      simp only [List.mem_cons, not_or] at hu
      exact ⟨hu.imp_right (fun h => Ne.symm h.1), u, v, hu.imp_right (·.2), hv, rfl⟩
  · rintro ⟨hn, u, v, hu, hv, rfl⟩
    refine ⟨n :: u, v, ?_, hv, rfl⟩
    rw [List.mem_cons, not_or]
    rcases hu with hu | hu
    · exact .inl hu
    · exact hn.imp_right (fun h => ⟨Ne.symm h, hu⟩)

/-- Skipping ahead to a literal loses no split, as the rest of the pattern starts with it. -/
theorem splits_skipTo {c : UChar} (hlit : ∀ v, tryRest v = true → ∃ v', v = c :: v') :
    Splits tryRest m (skipTo c m name) ↔ Splits tryRest m name := by
  obtain ⟨pre, hname, hpre, hsep, -⟩ := skipTo_spec c m name
  constructor
  · rintro ⟨u, v, hu, hv, he⟩
    refine ⟨pre ++ u, v, ?_, hv, by rw [List.append_assoc, ← he, ← hname]⟩
    rcases hu with hu | hu
    · exact .inl hu
    · exact hsep.imp_right (fun h => by simp [h, hu])
  · rintro ⟨u, v, hu, hv, he⟩
    obtain ⟨v', rfl⟩ := hlit v hv
    obtain ⟨u', rfl, hs⟩ := prefix_before (hname.symm.trans he) hpre
    exact ⟨u', c :: v', hu.imp_right (fun h h' => h (List.mem_append_right _ h')), hv, hs⟩

/-- One round of the loop at a place where a literal, if there is one, has been found. -/
theorem round_iff {rest : Bool} (next : rest = true ↔ Splits tryRest m tail) :
    (if tryRest (n :: tail) then true
      else if !m && n = dirSep then false
      else rest) = true ↔ Splits tryRest m (n :: tail) := by
  split
  · rename_i here
    exact iff_of_true rfl (splits_here here)
  · rename_i here
    rw [splits_cons (Bool.eq_false_of_not_eq_true here)]
    split
    · rename_i stop
      simp only [Bool.and_eq_true, Bool.not_eq_true', decide_eq_true_eq] at stop
      simp [stop]
    · rename_i go
      simp only [Bool.and_eq_true, Bool.not_eq_true', decide_eq_true_eq, not_and] at go
      have free : m = true ∨ n ≠ dirSep := by
        cases m with
        | true => exact .inl rfl
        | false => exact .inr (go rfl)
      rw [next, and_iff_right free]

end

/-- The loop tries every split of the name that the star allows. -/
theorem starLoop_iff (tryRest : UStr → Bool) (lit : Option UChar) (m : Bool)
    (hnil : tryRest [] = false)
    (hlit : ∀ c, lit = some c → ∀ v, tryRest v = true → ∃ v', v = c :: v') (name : UStr) :
    starLoop tryRest lit m name = true ↔ Splits tryRest m name := by
  induction hn : name.length using Nat.strong_induction_on generalizing name with
  | _ k ih =>
  subst hn
  cases name with
  | nil =>
    rw [starLoop]
    exact iff_of_false Bool.false_ne_true (not_splits_nil hnil)
  | cons n tail =>
    cases lit with
    | none =>
      rw [starLoop]
      exact round_iff (ih tail.length (by simp) tail rfl)
    | some c =>
      have size := skipTo_length_le c m (n :: tail)
      obtain ⟨-, -, -, -, stops⟩ := skipTo_spec c m (n :: tail)
      rw [← splits_skipTo (hlit c rfl), starLoop]
      split
      · rename_i hs
        rw [hs]
        exact iff_of_false Bool.false_ne_true (not_splits_nil hnil)
      · rename_i x after hs
        rw [hs] at size stops ⊢
        have next := ih after.length (by simp only [List.length_cons] at size ⊢; omega) after rfl
        split
        · rename_i ne
          -- a separator that may not be passed
          obtain ⟨rfl, rfl⟩ := stops x after rfl ne
          have here : tryRest (dirSep :: after) = false := by
            apply Bool.eq_false_of_not_eq_true
            intro h
            obtain ⟨v', hv'⟩ := hlit c rfl _ h
            exact ne (List.cons.inj hv').1
          rw [splits_cons here]
          simp
        · exact round_iff next

/-! ## The tokens after a star -/

theorem starToken_crossing (rest : UStr) (h : rest.head? ≠ some dirSep) :
    runToken rest = (starToken (crossing rest), rest) := by
  cases rest with
  | nil => rfl
  | cons c p =>
    have hc : c ≠ dirSep := by simpa using h
    simp only [runToken, crossing, starToken, hc, ↓reduceIte, decide_false, Bool.false_or]
    by_cases he : c = backslash ∧ p.head? = some dirSep
    · simp [he]
    · simp only [he, ↓reduceIte]
      have : (decide (c = backslash) && decide (p.head? = some dirSep)) = false := by
        simpa using he
      simp [this]

theorem tokens_star (p : UStr) :
    tokens (star :: p) =
      if p.head? = some star then (runToken (starRun p).2).1 :: tokens (runToken (starRun p).2).2
      else .within :: tokens p := by
  rw [tokens.eq_def]
  have run := starRun_zero (p := p)
  by_cases h : p.head? = some star
  · have : (starRun p).1 ≠ 0 := fun hz => run.mp hz h
    simp [h, this]
  · simp [h, run.mpr h]

theorem tokens_backslash (c : UChar) (p : UStr) :
    tokens (backslash :: c :: p) = .lit c :: tokens p := by
  rw [tokens.eq_def]; simp [show backslash ≠ star by decide, show backslash ≠ question by decide]

theorem tokens_dangling : tokens [backslash] = [.dangling] := by
  rw [tokens.eq_def]; simp [show backslash ≠ star by decide, show backslash ≠ question by decide]

theorem tokens_question (p : UStr) : tokens (question :: p) = .one :: tokens p := by
  rw [tokens.eq_def]; simp [show question ≠ star by decide]

theorem tokens_literal {c : UChar} (p : UStr) (hs : c ≠ star) (hq : c ≠ question)
    (hb : c ≠ backslash) : tokens (c :: p) = .lit c :: tokens p := by
  rw [tokens.eq_def]; simp [hs, hq, hb]

/-- A pattern that does not start with a star needs at least one character, and its first
one is the literal it starts with. -/
theorem lang_tokens_cons {c : UChar} {p w : UStr} (hc : c ≠ star)
    (h : w ∈ lang (tokens (c :: p))) :
    w ≠ [] ∧ ∀ d, literal (c :: p) = some d → ∃ v, w = d :: v := by
  by_cases hq : c = question
  · subst hq
    rw [tokens_question, mem_lang_one] at h
    obtain ⟨d, v, _, _, rfl⟩ := h
    exact ⟨by simp, by simp [literal]⟩
  · by_cases hb : c = backslash
    · subst hb
      cases p with
      | nil => rw [tokens_dangling] at h; exact absurd h (not_mem_lang_dangling _ _)
      | cons d q =>
        rw [tokens_backslash, mem_lang_lit] at h
        obtain ⟨v, _, rfl⟩ := h
        exact ⟨by simp, by simp [literal]⟩
    · rw [tokens_literal p hc hq hb, mem_lang_lit] at h
      obtain ⟨v, _, rfl⟩ := h
      refine ⟨by simp, ?_⟩
      intro d hd
      simp only [literal, hc, hq, hb, or_self, ↓reduceIte, Option.some.injEq] at hd
      exact ⟨v, by rw [hd]⟩

/-! ## The matcher and the language -/

/-- The matcher is right about every pattern shorter than `k`. -/
def RightBelow (k : Nat) : Prop :=
  ∀ p name, p.length < k → (fileNameMatchesImpl name p = true ↔ name ∈ language p)

theorem afterStar_iff {rest : UStr} (m : Bool) (name : UStr) {k : Nat}
    (right : RightBelow k) (hk : rest.length < k) (hstar : rest.head? ≠ some star) :
    afterStar name rest m = true ↔ name ∈ lang (starToken m :: tokens rest) := by
  rw [mem_lang_starToken]
  cases rest with
  | nil =>
    unfold afterStar
    simp only [Bool.or_eq_true, Option.isNone_iff_eq_none, uStrchr_none, tokens, mem_lang_nil]
    constructor
    · intro h; exact ⟨name, [], h, rfl, by simp⟩
    · rintro ⟨u, _, h, rfl, rfl⟩; simpa using h
  | cons c p =>
    have hc : c ≠ star := by simpa using hstar
    unfold afterStar
    split
    · rename_i fast
      obtain ⟨hm, rfl⟩ : m = false ∧ c = dirSep := by simpa using fast
      rw [tokens_literal p (by decide) (by decide) (by decide)]
      simp only [hm, Bool.false_eq_true, false_or, mem_lang_lit]
      split
      · rename_i absent
        rw [uStrchr_none] at absent
        simp only [Bool.false_eq_true, false_iff, not_exists]
        rintro u v ⟨_, ⟨v', _, rfl⟩, rfl⟩
        simp at absent
      · rename_i slash found
        obtain ⟨u, v, rfl, rfl, hu⟩ := uStrchr_some found
        rw [List.tail_cons, right p v (by simp only [List.length_cons] at hk; omega)]
        constructor
        · intro h; exact ⟨u, dirSep :: v, hu, ⟨v, h, rfl⟩, rfl⟩
        · rintro ⟨u', _, hu', ⟨v', h, rfl⟩, he⟩
          -- both splits are at the first separator
          obtain ⟨w, rfl, hw⟩ := prefix_before he hu
          cases w with
          | nil => simp only [List.nil_append, List.cons.injEq, true_and] at hw; rwa [hw]
          | cons x w =>
            simp only [List.cons_append, List.cons.injEq] at hw
            simp [← hw.1] at hu'
    · have try_iff : ∀ v, fileNameMatchesImpl v (c :: p) = true ↔ v ∈ lang (tokens (c :: p)) :=
        fun v => right (c :: p) v hk
      rw [starLoop_iff]
      · simp only [Splits, try_iff]
      · cases hv : fileNameMatchesImpl [] (c :: p) with
        | false => rfl
        | true => exact absurd rfl (lang_tokens_cons hc ((try_iff []).mp hv)).1
      · intro d hd v hv
        exact (lang_tokens_cons hc ((try_iff v).mp hv)).2 d hd

theorem right_below (k : Nat) : RightBelow k := by
  induction k with
  | zero => intro p name h; omega
  | succ k ih =>
    intro pattern name hk
    unfold language fileNameMatchesImpl
    cases pattern with
    | nil => simp [tokens]
    | cons p ps =>
      have hps : ps.length < k := by simp only [List.length_cons] at hk; omega
      simp only
      split
      · rename_i hp
        subst hp
        rw [tokens_star, skipStars_eq]
        split
        · have hrun := starRun_length_le ps
          have shorter : (starRun ps).2.length < k := by omega
          have head := starRun_head ps
          generalize (starRun ps).2 = rest at hrun shorter head
          by_cases hsep : rest.head? = some dirSep
          · -- a run before an unescaped separator may match nothing together with it
            obtain ⟨q, rfl⟩ : ∃ q, rest = dirSep :: q := by
              cases rest with
              | nil => simp at hsep
              | cons c q => exact ⟨q, by simpa using hsep⟩
            have hq := ih q name (by simp only [List.length_cons] at shorter; omega)
            have ha := afterStar_iff true name ih shorter head
            rw [tokens_literal q (by decide) (by decide) (by decide)] at ha
            have hc : crossing (dirSep :: q) = true := by simp [crossing]
            simp only [hc, Bool.true_and, List.head?_cons, decide_true, List.tail_cons,
              runToken, ↓reduceIte, mem_lang_acrossSep]
            rw [← show _ ↔ name ∈ lang (tokens q) from hq,
              ← show _ ↔ name ∈ lang (.across :: .lit dirSep :: tokens q) from ha]
            cases fileNameMatchesImpl name q <;> simp
          · have ha := afterStar_iff (crossing rest) name ih shorter head
            rw [starToken_crossing rest hsep, ← ha]
            simp [hsep]
        · rename_i single
          have ha := afterStar_iff false name ih hps single
          exact ha
      · rename_i hp
        cases name with
        | nil =>
          simp only [Bool.false_eq_true, false_iff]
          exact fun h => (lang_tokens_cons hp h).1 rfl
        | cons n name =>
          simp only
          split
          · rename_i hb
            subst hb
            cases ps with
            | nil =>
              rw [tokens_dangling]
              simp [not_mem_lang_dangling]
            | cons c q =>
              have hq := ih q name (by simp only [List.length_cons] at hps; omega)
              rw [tokens_backslash, mem_lang_lit]
              by_cases hn : n = c
              · simp [hn, hq, language]
              · simp [hn]
          · rename_i hb
            split
            · rename_i hq
              subst hq
              rw [tokens_question, mem_lang_one]
              by_cases hn : n = dirSep
              · simp [hn]
              · simp [hn, ih ps name hps, language]
            · rename_i hq
              rw [tokens_literal ps hp hq hb, mem_lang_lit]
              by_cases hn : n = p
              · simp [hn, ih ps name hps, language]
              · simp [hn]

theorem fileNameMatchesImpl_iff {name pattern : UStr} :
    fileNameMatchesImpl name pattern = true ↔ name ∈ language pattern :=
  right_below (pattern.length + 1) pattern name (Nat.lt_succ_self _)

/-- `file_name_matches` accepts exactly the names in the pattern's language. -/
theorem fileNameMatches_iff (name pattern : UStr) :
    fileNameMatches name pattern = true ↔ name ∈ language pattern :=
  fileNameMatchesImpl_iff

end Yella.Glob
