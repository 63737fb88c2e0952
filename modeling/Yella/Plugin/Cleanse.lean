import Mathlib.Data.List.Chain
import Yella.Glob.Literal
import Yella.Plugin.Request

/-!
# Cleansing a pattern

`cleanse_file_name` of `file_plugin.c` edits a pattern as if it were a path. The pattern keeps
every canonical name that it matches.
-/

namespace Yella

/-- No component of the name is empty. -/
def NoDouble (name : UStr) : Prop := name.IsChain fun c d => ¬ (c = dirSep ∧ d = dirSep)

structure Canonical (name : UStr) : Prop where
  absolute : isFileNameAbsolute name = true
  noDouble : NoDouble name
  noTrailing : name ≠ [dirSep] → name.getLast? ≠ some dirSep

theorem Canonical.root : Canonical [dirSep] where
  absolute := rfl
  noDouble := .singleton dirSep
  noTrailing h := absurd rfl h

theorem NoDouble.tail_head {name : UStr} (h : NoDouble (dirSep :: name)) :
    name.head? ≠ some dirSep := by
  cases name with
  | nil => simp
  | cons c name =>
    have := (List.isChain_cons_cons.mp h).1
    simpa using this

/-! ## The collapse of separators -/

theorem removeDuplicateDirSeps_other {flag : Bool} {c : UChar} {name : UStr} (h : c ≠ dirSep) :
    removeDuplicateDirSeps flag (c :: name) = c :: removeDuplicateDirSeps false name := by
  simp [removeDuplicateDirSeps, h]

theorem removeDuplicateDirSeps_cons (c : UChar) (name : UStr) :
    removeDuplicateDirSeps false (c :: name) =
      c :: removeDuplicateDirSeps (decide (c = dirSep)) name := by
  by_cases h : c = dirSep <;> simp [removeDuplicateDirSeps, h]

/-- The flag only matters before a separator. -/
theorem removeDuplicateDirSeps_flag {name : UStr} (h : name.head? ≠ some dirSep) :
    removeDuplicateDirSeps true name = removeDuplicateDirSeps false name := by
  cases name with
  | nil => rfl
  | cons c name =>
    have : c ≠ dirSep := by simpa using h
    rw [removeDuplicateDirSeps_other this, removeDuplicateDirSeps_other this]

theorem head_removeDuplicateDirSeps (name : UStr) :
    (removeDuplicateDirSeps false name).head? = name.head? := by
  cases name with
  | nil => rfl
  | cons c name => rw [removeDuplicateDirSeps_cons, List.head?_cons, List.head?_cons]

theorem removeDuplicateDirSeps_noDouble (flag : Bool) (name : UStr) :
    NoDouble (removeDuplicateDirSeps flag name) ∧
      (flag = true → (removeDuplicateDirSeps flag name).head? ≠ some dirSep) := by
  induction name generalizing flag with
  | nil => exact ⟨.nil, by simp [removeDuplicateDirSeps]⟩
  | cons c name ih =>
    by_cases hc : c = dirSep
    · subst hc
      cases flag with
      | true =>
        rw [removeDuplicateDirSeps, if_pos rfl, if_pos rfl]
        exact ih true
      | false =>
        rw [removeDuplicateDirSeps_cons]
        refine ⟨List.isChain_cons.mpr ⟨?_, (ih true).1⟩, by simp⟩
        rintro d hd ⟨-, rfl⟩
        exact (ih true).2 rfl hd
    · rw [removeDuplicateDirSeps_other hc]
      refine ⟨List.isChain_cons.mpr ⟨fun d _ h => hc h.1, (ih false).1⟩, ?_⟩
      simpa using fun _ => hc

theorem removeDuplicateDirSeps_self {flag : Bool} {name : UStr} (h : NoDouble name)
    (hf : flag = true → name.head? ≠ some dirSep) : removeDuplicateDirSeps flag name = name := by
  induction name generalizing flag with
  | nil => rfl
  | cons c name ih =>
    have rest : NoDouble name := (List.isChain_cons.mp h).2
    have start : removeDuplicateDirSeps flag (c :: name) =
        removeDuplicateDirSeps false (c :: name) := by
      cases flag with
      | true => exact removeDuplicateDirSeps_flag (hf rfl)
      | false => rfl
    rw [start, removeDuplicateDirSeps_cons, ih rest]
    intro hc
    obtain rfl : c = dirSep := by simpa using hc
    exact h.tail_head

/-! ## The names that a pattern keeps -/

namespace Glob

theorem tokens_star_single {p : UStr} (h : p.head? ≠ some star) :
    tokens (star :: p) = starToken false :: tokens p := by
  rw [tokens_star, if_neg h]
  rfl

theorem tokens_star_sep {p q : UStr} (h : p.head? = some star) (hq : (starRun p).2 = dirSep :: q) :
    tokens (star :: p) = .acrossSep :: tokens q := by
  rw [tokens_star, if_pos h, hq]
  rfl

theorem tokens_star_run {p rest : UStr} (h : p.head? = some star) (hr : (starRun p).2 = rest)
    (hs : rest.head? ≠ some dirSep) :
    tokens (star :: p) = starToken (crossing rest) :: tokens rest := by
  rw [tokens_star, if_pos h, hr, starToken_crossing rest hs]

theorem mem_lang_tokens_nil {w : UStr} : w ∈ lang (tokens []) ↔ w = [] := by simp [tokens]

theorem mem_lang_across_sep {ts : List Token} {w : UStr} :
    w ∈ lang (.across :: .lit dirSep :: ts) ↔ ∃ u v, v ∈ lang ts ∧ w = u ++ dirSep :: v := by
  simp only [mem_lang_cons .across, mem_lang_lit]
  constructor
  · rintro ⟨u, _, -, ⟨v, hv, rfl⟩, rfl⟩
    exact ⟨u, v, hv, rfl⟩
  · rintro ⟨u, v, hv, rfl⟩
    exact ⟨u, _, trivial, ⟨v, hv, rfl⟩, rfl⟩

/-- Induction over a pattern as the matcher reads it. -/
theorem pattern_induction {P : UStr → Prop} (nil : P [])
    (literal : ∀ c p, c ≠ star → c ≠ question → c ≠ backslash → P p → P (c :: p))
    (dangling : P [backslash])
    (escaped : ∀ c p, P p → P (backslash :: c :: p))
    (one : ∀ p, P p → P (question :: p))
    (single : ∀ p, p.head? ≠ some star → P p → P (star :: p))
    (runSep : ∀ p q, p.head? = some star → (starRun p).2 = dirSep :: q → P q → P (star :: p))
    (run : ∀ p rest, p.head? = some star → (starRun p).2 = rest → rest.head? ≠ some dirSep →
      P rest → P (star :: p))
    (p : UStr) : P p := by
  induction hn : p.length using Nat.strong_induction_on generalizing p with
  | _ k ih =>
  subst hn
  have shorter (q : UStr) (hq : q.length < p.length) : P q := ih q.length hq q rfl
  cases p with
  | nil => exact nil
  | cons c p =>
    rw [List.length_cons] at shorter
    by_cases hs : c = star
    · subst hs
      by_cases head : p.head? = some star
      · have size := starRun_length_le p
        by_cases sep : (starRun p).2.head? = some dirSep
        · obtain ⟨q, hq⟩ := List.head?_eq_some_iff.mp sep
          refine runSep p q head hq (shorter q ?_)
          rw [hq, List.length_cons] at size
          omega
        · exact run p _ head rfl sep (shorter _ (by omega))
      · exact single p head (shorter p (by omega))
    · by_cases hq : c = question
      · exact hq ▸ one p (shorter p (by omega))
      · by_cases hb : c = backslash
        · subst hb
          cases p with
          | nil => exact dangling
          | cons d p =>
            refine escaped d p (shorter p ?_)
            simp only [List.length_cons]
            omega
        · exact literal c p hs hq hb (shorter p (by omega))

end Glob

section
open Glob

theorem starRun_removeDuplicateDirSeps (p : UStr) :
    (starRun (removeDuplicateDirSeps false p)).2 = removeDuplicateDirSeps false (starRun p).2 := by
  induction p with
  | nil => rfl
  | cons c p ih =>
    rw [removeDuplicateDirSeps_cons]
    by_cases hs : c = star
    · subst hs
      simpa [starRun, show decide (star = dirSep) = false from rfl] using ih
    · simp [starRun, hs, removeDuplicateDirSeps_cons]

theorem crossing_removeDuplicateDirSeps (p : UStr) :
    crossing (removeDuplicateDirSeps false p) = crossing p := by
  cases p with
  | nil => rfl
  | cons c p =>
    rw [removeDuplicateDirSeps_cons]
    by_cases hc : c = dirSep
    · simp [crossing, hc]
    · simp [crossing, hc, head_removeDuplicateDirSeps]

/-- A name without empty components that the pattern accepts is still accepted. Behind a
separator, which the name has just passed, it does not start with another. -/
theorem mem_language_removeDuplicateDirSeps {flag : Bool} {p w : UStr} (hw : NoDouble w)
    (hf : flag = true → w.head? ≠ some dirSep) (h : w ∈ lang (tokens p)) :
    w ∈ lang (tokens (removeDuplicateDirSeps flag p)) := by
  induction p using pattern_induction generalizing flag w with
  | nil => exact h
  | literal c p hs hq hb ih =>
    rw [tokens_literal p hs hq hb, mem_lang_lit] at h
    obtain ⟨v, hv, rfl⟩ := h
    have rest : NoDouble v := (List.isChain_cons.mp hw).2
    have start : removeDuplicateDirSeps flag (c :: p) =
        removeDuplicateDirSeps false (c :: p) := by
      cases flag with
      | true => exact removeDuplicateDirSeps_flag (hf rfl)
      | false => rfl
    rw [start, removeDuplicateDirSeps_cons, tokens_literal _ hs hq hb, mem_lang_lit]
    refine ⟨v, ih rest ?_ hv, rfl⟩
    intro hc
    obtain rfl : c = dirSep := by simpa using hc
    exact hw.tail_head
  | dangling =>
    rw [tokens_dangling] at h
    exact absurd h (not_mem_lang_dangling _ _)
  | escaped c p ih =>
    rw [tokens_backslash, mem_lang_lit] at h
    obtain ⟨v, hv, rfl⟩ := h
    rw [removeDuplicateDirSeps_other (by decide), removeDuplicateDirSeps_cons, tokens_backslash,
      mem_lang_lit]
    refine ⟨v, ih (List.isChain_cons.mp hw).2 ?_ hv, rfl⟩
    intro hc
    obtain rfl : c = dirSep := by simpa using hc
    exact hw.tail_head
  | one p ih =>
    rw [tokens_question, mem_lang_one] at h
    obtain ⟨c, v, hc, hv, rfl⟩ := h
    rw [removeDuplicateDirSeps_other (by decide), tokens_question, mem_lang_one]
    exact ⟨c, v, hc, ih (List.isChain_cons.mp hw).2 (by simp) hv, rfl⟩
  | single p head ih =>
    rw [tokens_star_single head, mem_lang_starToken] at h
    obtain ⟨u, v, hu, hv, rfl⟩ := h
    rw [removeDuplicateDirSeps_other (by decide),
      tokens_star_single (by rwa [head_removeDuplicateDirSeps]), mem_lang_starToken]
    exact ⟨u, v, hu, ih hw.right_of_append (by simp) hv, rfl⟩
  | runSep p q head hq ih =>
    have same : (starRun (removeDuplicateDirSeps false p)).2 =
        dirSep :: removeDuplicateDirSeps true q := by
      rw [starRun_removeDuplicateDirSeps, hq, removeDuplicateDirSeps_cons]
      rfl
    rw [tokens_star_sep head hq, mem_lang_acrossSep] at h
    rw [removeDuplicateDirSeps_other (by decide),
      tokens_star_sep (by rwa [head_removeDuplicateDirSeps]) same, mem_lang_acrossSep]
    rcases h with h | h
    · by_cases before : q.head? = some dirSep
      · -- the run and the separator match nothing: with another separator in `q` they are not
        -- needed, and the run may still match nothing before the one that is kept
        obtain ⟨q, rfl⟩ := List.head?_eq_some_iff.mp before
        have kept := @ih false _ hw (by simp) h
        rw [removeDuplicateDirSeps_cons, tokens_literal _ (by decide) (by decide) (by decide),
          mem_lang_lit] at kept
        obtain ⟨v, hv, rfl⟩ := kept
        exact .inr (mem_lang_across_sep.mpr ⟨[], v, hv, rfl⟩)
      · rw [removeDuplicateDirSeps_flag before]
        exact .inl (@ih false _ hw (by simp) h)
    · obtain ⟨u, v, hv, rfl⟩ := mem_lang_across_sep.mp h
      have behind : NoDouble (dirSep :: v) := hw.right_of_append
      exact .inr (mem_lang_across_sep.mpr ⟨u, v,
        ih (List.isChain_cons.mp behind).2 (fun _ => behind.tail_head) hv, rfl⟩)
  | run p rest head hr hs ih =>
    rw [tokens_star_run head hr hs, mem_lang_starToken] at h
    obtain ⟨u, v, hu, hv, rfl⟩ := h
    have same := starRun_removeDuplicateDirSeps p
    rw [hr] at same
    rw [removeDuplicateDirSeps_other (by decide),
      tokens_star_run (by rwa [head_removeDuplicateDirSeps]) same
        (by rwa [head_removeDuplicateDirSeps]),
      crossing_removeDuplicateDirSeps, mem_lang_starToken]
    exact ⟨u, v, hu, ih hw.right_of_append (by simp) hv, rfl⟩

/-! ## The separator at the end -/

theorem starRun_append_sep (p : UStr) :
    (starRun (p ++ [dirSep])).2 = (starRun p).2 ++ [dirSep] := by
  induction p with
  | nil => rfl
  | cons c p ih =>
    rw [List.cons_append, starRun, starRun]
    split
    · exact ih
    · rfl

theorem head_append_sep {p : UStr} :
    (p ++ [dirSep]).head? = some star ↔ p.head? = some star := by
  cases p with
  | nil => decide
  | cons c p => exact Iff.rfl

theorem ends_append {u v : UStr} (h : v.getLast? = some dirSep) :
    (u ++ v).getLast? = some dirSep := by
  rw [List.getLast?_append, h, Option.some_or]

/-- A pattern that loses the separator at its end loses only names that end in one. -/
theorem mem_language_append_sep {p w : UStr} (h : w ∈ lang (tokens (p ++ [dirSep]))) :
    w ∈ lang (tokens p) ∨ w.getLast? = some dirSep := by
  induction p using pattern_induction generalizing w with
  | nil =>
    rw [List.nil_append, tokens_literal _ (by decide) (by decide) (by decide), mem_lang_lit] at h
    obtain ⟨v, hv, rfl⟩ := h
    obtain rfl := mem_lang_tokens_nil.mp hv
    exact .inr rfl
  | literal c p hs hq hb ih =>
    rw [List.cons_append, tokens_literal _ hs hq hb, mem_lang_lit] at h
    obtain ⟨v, hv, rfl⟩ := h
    rw [tokens_literal _ hs hq hb, mem_lang_lit]
    exact (ih hv).imp (fun kept => ⟨v, kept, rfl⟩) (ends_append (u := [c]))
  | dangling =>
    rw [List.singleton_append, tokens_backslash, mem_lang_lit] at h
    obtain ⟨v, hv, rfl⟩ := h
    obtain rfl := mem_lang_tokens_nil.mp hv
    exact .inr rfl
  | escaped c p ih =>
    rw [List.cons_append, List.cons_append, tokens_backslash, mem_lang_lit] at h
    obtain ⟨v, hv, rfl⟩ := h
    rw [tokens_backslash, mem_lang_lit]
    exact (ih hv).imp (fun kept => ⟨v, kept, rfl⟩) (ends_append (u := [c]))
  | one p ih =>
    rw [List.cons_append, tokens_question, mem_lang_one] at h
    obtain ⟨c, v, hc, hv, rfl⟩ := h
    rw [tokens_question, mem_lang_one]
    exact (ih hv).imp (fun kept => ⟨c, v, hc, kept, rfl⟩) (ends_append (u := [c]))
  | single p head ih =>
    rw [List.cons_append, tokens_star_single (mt head_append_sep.mp head), mem_lang_starToken] at h
    obtain ⟨u, v, hu, hv, rfl⟩ := h
    rw [tokens_star_single head, mem_lang_starToken]
    exact (ih hv).imp (fun kept => ⟨u, v, hu, kept, rfl⟩) ends_append
  | runSep p q head hq ih =>
    have same : (starRun (p ++ [dirSep])).2 = dirSep :: (q ++ [dirSep]) := by
      rw [starRun_append_sep, hq, List.cons_append]
    rw [List.cons_append, tokens_star_sep (head_append_sep.mpr head) same, mem_lang_cons] at h
    obtain ⟨u, v, hu, hv, rfl⟩ := h
    rw [tokens_star_sep head hq, mem_lang_cons]
    exact (ih hv).imp (fun kept => ⟨u, v, hu, kept, rfl⟩) ends_append
  | run p rest head hr hs ih =>
    have same := starRun_append_sep p
    rw [hr] at same
    rw [tokens_star_run head hr hs, mem_lang_starToken]
    cases rest with
    | nil => exact .inl ⟨w, [], .inl rfl, mem_lang_tokens_nil.mpr rfl, by simp⟩
    | cons c rest =>
      have other : c ≠ dirSep := by simpa using hs
      rw [List.cons_append, tokens_star_run (head_append_sep.mpr head) same (by simpa using other),
        mem_lang_starToken] at h
      obtain ⟨u, v, hu, hv, rfl⟩ := h
      refine (ih hv).imp (fun kept => ⟨u, v, hu.imp_left ?_, kept, rfl⟩) ends_append
      cases rest with
      | nil =>
        -- a backslash would escape the separator, but at the end it accepts nothing
        have plain : c ≠ backslash := by
          rintro rfl
          rw [tokens_dangling] at kept
          exact not_mem_lang_dangling _ _ kept
        simp [crossing, other, plain]
      | cons d rest => exact fun wide => wide

end

/-! ## The cleansed pattern -/

theorem udsrange_dropLast {s : UStr} (h : 1 < s.length) : udsrange s 0 (-2) = s.dropLast := by
  have last : max ((s.length : Int) + -2) 0 = s.length - 2 := by omega
  have none : ¬ ((0 : Int) > s.length - 2 ∨ (0 : Int) ≥ s.length) := by omega
  have kept : (min ((s.length : Int) - 2) (s.length - 1) - 0 + 1).toNat = s.length - 1 := by omega
  have some : s.length ≠ 0 := by omega
  simp only [udsrange, some, ↓reduceIte, Int.reduceNeg, Int.reduceLT, Int.lt_irrefl, last, none,
    kept, Int.toNat_zero, List.drop_zero, List.dropLast_eq_take]

theorem udsrange_single (c : UChar) : udsrange [c] 0 (-2) = [c] := by
  simp [udsrange]

/-- What is left of an absolute name, by the end of the collapsed one. -/
theorem cleanseFileName_cases {utf : Utf} {utf8 : List UInt8} {r : UStr}
    (h : isFileNameAbsolute (utf.fromUtf8 utf8) = true)
    (hr : removeDuplicateDirSeps false (utf.fromUtf8 utf8) = r) :
    (r = [dirSep] ∧ cleanseFileName utf utf8 = some r) ∨
      (∃ q, r = dirSep :: q ++ [dirSep] ∧ cleanseFileName utf utf8 = some (dirSep :: q)) ∨
      (r.head? = some dirSep ∧ r.getLast? ≠ some dirSep ∧ cleanseFileName utf utf8 = some r) := by
  have head : r.head? = some dirSep := by
    rw [← hr, head_removeDuplicateDirSeps]
    simpa [isFileNameAbsolute] using h
  obtain ⟨tail, rfl⟩ := List.head?_eq_some_iff.mp head
  have result : cleanseFileName utf utf8 =
      if (dirSep :: tail).getLast? = some dirSep then some (udsrange (dirSep :: tail) 0 (-2))
      else some (dirSep :: tail) := by
    simp [cleanseFileName, h, hr]
  rw [result]
  split
  · rename_i ends
    cases tail with
    | nil => exact .inl ⟨rfl, by rw [udsrange_single]⟩
    | cons c tail =>
      right; left
      rw [udsrange_dropLast (by simp)]
      rw [List.getLast?_cons_cons] at ends
      obtain ⟨q, hq⟩ := List.getLast?_eq_some_iff.mp ends
      exact ⟨q, by rw [hq, List.cons_append], by rw [hq, ← List.cons_append, List.dropLast_concat]⟩
  · rename_i stays
    exact .inr (.inr ⟨head, stays, rfl⟩)

theorem cleanseFileName_canonical {utf : Utf} {utf8 : List UInt8}
    (h : isFileNameAbsolute (utf.fromUtf8 utf8) = true) :
    ∃ q, cleanseFileName utf utf8 = some q ∧ Canonical q := by
  have single := (removeDuplicateDirSeps_noDouble false (utf.fromUtf8 utf8)).1
  rcases cleanseFileName_cases h rfl with ⟨hr, hq⟩ | ⟨q, hr, hq⟩ | ⟨head, stays, hq⟩
  · rw [hr] at hq
    exact ⟨_, hq, .root⟩
  · rw [hr] at single
    refine ⟨_, hq, rfl, single.left_of_append, ?_⟩
    intro _ ends
    -- two separators would be left at the end
    exact (List.isChain_append.mp single).2.2 dirSep ends dirSep rfl ⟨rfl, rfl⟩
  · exact ⟨_, hq, by simpa [isFileNameAbsolute] using head, single, fun _ => stays⟩

/-- A canonical name is left as it is. -/
theorem cleanseFileName_self {utf : Utf} {utf8 : List UInt8}
    (h : Canonical (utf.fromUtf8 utf8)) :
    cleanseFileName utf utf8 = some (utf.fromUtf8 utf8) := by
  have same := @removeDuplicateDirSeps_self false _ h.noDouble (by simp)
  rcases cleanseFileName_cases h.absolute same with ⟨-, hq⟩ | ⟨q, hr, -⟩ | ⟨-, -, hq⟩
  · exact hq
  · refine absurd ?_ (h.noTrailing ?_)
    · rw [hr, List.getLast?_concat]
    · rw [hr]
      simp
  · exact hq

theorem cleanseFileName_matches {utf : Utf} {utf8 : List UInt8} {q n : UStr}
    (h : isFileNameAbsolute (utf.fromUtf8 utf8) = true)
    (hq : cleanseFileName utf utf8 = some q) (canonical : Canonical n)
    (matched : Glob.fileNameMatches n (utf.fromUtf8 utf8) = true) :
    Glob.fileNameMatches n q = true := by
  rw [Glob.fileNameMatches, Glob.fileNameMatchesImpl_iff] at matched ⊢
  have kept := @mem_language_removeDuplicateDirSeps false _ n canonical.noDouble (by simp)
    matched
  rcases cleanseFileName_cases h rfl with ⟨-, hc⟩ | ⟨r, hr, hc⟩ | ⟨-, -, hc⟩
  · exact Option.some_inj.mp (hq.symm.trans hc) ▸ kept
  · obtain rfl := Option.some_inj.mp (hq.symm.trans hc)
    have plain (p : UStr) : Glob.tokens (dirSep :: p) = .lit dirSep :: Glob.tokens p :=
      Glob.tokens_literal p (by decide) (by decide) (by decide)
    rw [hr, List.cons_append, plain, Glob.mem_lang_lit] at kept
    obtain ⟨v, hv, rfl⟩ := kept
    rw [Glob.language, plain, Glob.mem_lang_lit]
    -- a canonical name that goes on behind the root does not end in a separator
    refine ⟨v, (mem_language_append_sep hv).resolve_right fun ends => ?_, rfl⟩
    refine canonical.noTrailing ?_ (ends_append (u := [dirSep]) ends)
    rintro hn
    obtain rfl := (List.cons.inj hn).2
    cases ends
  · exact Option.some_inj.mp (hq.symm.trans hc) ▸ kept

/-- The pattern is cleansed to a canonical one, which is its own cleansed form and accepts each
canonical name that the pattern did. -/
def CleansedSafely (utf : Utf) (utf8 : List UInt8) : Prop :=
  ∃ q, cleanseFileName utf utf8 = some q ∧ Canonical q ∧
    (∀ again, utf.fromUtf8 again = q → cleanseFileName utf again = some q) ∧
    ∀ n, Canonical n → Glob.fileNameMatches n (utf.fromUtf8 utf8) = true →
      Glob.fileNameMatches n q = true

theorem cleansedSafely_of_absolute {utf : Utf} {utf8 : List UInt8}
    (absolute : isFileNameAbsolute (utf.fromUtf8 utf8) = true) : CleansedSafely utf utf8 := by
  obtain ⟨q, hq, canonical⟩ := cleanseFileName_canonical absolute
  refine ⟨q, hq, canonical, ?_, fun n hn matched => cleanseFileName_matches absolute hq hn matched⟩
  rintro again rfl
  exact cleanseFileName_self canonical

/-- `/a//**/` becomes `/a/**`. -/
theorem cleansedSafely_crossing : CleansedSafely asciiUtf [47, 97, 47, 47, 42, 42, 47] :=
  cleansedSafely_of_absolute (by decide)

example : cleanseFileName asciiUtf [47, 97, 47, 47, 42, 42, 47] =
    some [47, 97, 47, 42, 42] := by decide


end Yella
