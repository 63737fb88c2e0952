import Mathlib.Tactic.TypeStar

/-!
# Scans for a best element

A scan that keeps the best key so far, with what it says of its element.
-/

namespace Scan

variable {α β κ : Type*} (better : κ → κ → Bool) (key : α → κ) (name : α → β)

def step (acc : Option β × κ) (x : α) : Option β × κ :=
  if better (key x) acc.2 then (some (name x), key x) else acc

variable {better key name}

/-- The scan finds an element that none is better than, even where several have one key. -/
theorem foldl_spec (trans : ∀ a b c, better a b = true → better b c = true → better a c = true)
    (irrefl : ∀ a, better a a = false) (l : List α) (acc : Option β × κ) :
    (l.foldl (step better key name) acc = acc ∧ ∀ x ∈ l, better (key x) acc.2 = false) ∨
      ∃ m ∈ l, l.foldl (step better key name) acc = (some (name m), key m) ∧
        better (key m) acc.2 = true ∧ ∀ x ∈ l, better (key x) (key m) = false := by
  induction l generalizing acc with
  | nil => exact .inl ⟨rfl, by simp⟩
  | cons x l ih =>
    rw [List.foldl_cons]
    by_cases taken : better (key x) acc.2 = true
    · rw [step, if_pos taken]
      obtain ⟨same, none⟩ | ⟨m, hm, found, first, best⟩ := ih (some (name x), key x)
      · refine .inr ⟨x, List.mem_cons_self, same, taken, ?_⟩
        rw [List.forall_mem_cons]
        exact ⟨irrefl _, none⟩
      · refine .inr ⟨m, List.mem_cons_of_mem x hm, found, trans _ _ _ first taken, ?_⟩
        rw [List.forall_mem_cons]
        refine ⟨?_, best⟩
        rw [Bool.eq_false_iff]
        intro h
        exact absurd (trans _ _ _ h first) (by simp [irrefl])
    · rw [step, if_neg taken]
      obtain ⟨same, none⟩ | ⟨m, hm, found, first, best⟩ := ih acc
      · refine .inl ⟨same, ?_⟩
        rw [List.forall_mem_cons]
        exact ⟨Bool.eq_false_iff.mpr taken, none⟩
      · refine .inr ⟨m, List.mem_cons_of_mem x hm, found, first, ?_⟩
        rw [List.forall_mem_cons]
        refine ⟨?_, best⟩
        rw [Bool.eq_false_iff]
        intro h
        exact taken (trans _ _ _ h first)

end Scan
