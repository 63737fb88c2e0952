import Mathlib.Data.List.Induction

/-!
# Facts about every point of a history

A predicate of the histories so far against a predicate of each next event.
-/

namespace Prefixes

variable {α : Type*} {P : List α → Prop} {Q : List α → α → Prop} {l : List α} {a : α}

def Throughout (P : List α → Prop) (l : List α) : Prop := ∀ pre post, l = pre ++ post → P pre

def AtEach (Q : List α → α → Prop) (l : List α) : Prop :=
  ∀ pre a post, l = pre ++ a :: post → Q pre a

theorem throughout_nil : Throughout P [] ↔ P [] := by
  refine ⟨fun h => h [] [] rfl, fun h pre post he => ?_⟩
  obtain ⟨rfl, -⟩ := List.append_eq_nil_iff.mp he.symm
  exact h

theorem atEach_nil : AtEach Q [] := by
  intro pre a post he
  simp at he

theorem throughout_snoc : Throughout P (l ++ [a]) ↔ Throughout P l ∧ P (l ++ [a]) := by
  constructor
  · intro h
    exact ⟨fun pre post he => h pre (post ++ [a]) (by simp [he]), h _ [] (by simp)⟩
  · rintro ⟨h, last⟩ pre post he
    rcases List.eq_nil_or_concat post with rfl | ⟨post, b, rfl⟩
    · rw [List.append_nil] at he
      exact he ▸ last
    · rw [List.concat_eq_append, ← List.append_assoc] at he
      exact h pre post (List.append_inj' he rfl).1

theorem atEach_snoc : AtEach Q (l ++ [a]) ↔ AtEach Q l ∧ Q l a := by
  constructor
  · intro h
    exact ⟨fun pre b post he => h pre b (post ++ [a]) (by simp [he]), h l a [] rfl⟩
  · rintro ⟨h, last⟩ pre b post he
    rcases List.eq_nil_or_concat post with rfl | ⟨post, c, rfl⟩
    · obtain ⟨rfl, same⟩ := List.append_inj' he rfl
      obtain rfl : a = b := by simpa using same
      exact last
    · have : l ++ [a] = (pre ++ b :: post) ++ [c] := by simp [he]
      exact h pre b post (List.append_inj' this rfl).1

/-- What each event decides, as long as all was well before it, decides the whole history. -/
theorem throughout_iff_atEach (start : P []) (l : List α)
    (step : ∀ pre a, pre ++ [a] <+: l → P pre → (P (pre ++ [a]) ↔ Q pre a)) :
    Throughout P l ↔ AtEach Q l := by
  induction l using List.reverseRecOn with
  | nil => exact ⟨fun _ => atEach_nil, fun _ => throughout_nil.mpr start⟩
  | append_singleton l a ih =>
    have ih := ih fun pre b hp => step pre b (hp.trans (List.prefix_append l [a]))
    rw [throughout_snoc, atEach_snoc, ih]
    refine and_congr_right fun each => step l a (List.prefix_refl _) ?_
    exact ih.mpr each l [] (List.append_nil l).symm

end Prefixes
