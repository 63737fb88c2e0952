import Mathlib.Tactic.TypeStar

/-!
# Loops

A loop whose body fails (`none`), goes on with a new state (`inl`) or ends (`inr`).
-/

namespace Loop

variable {σ ρ : Type*} {body : σ → Option (σ ⊕ ρ)} {s t : σ} {r r' : ρ}

/-- At most `fuel` rounds. -/
def run (body : σ → Option (σ ⊕ ρ)) : Nat → σ → Option ρ
  | 0, _ => none
  | fuel + 1, s =>
    match body s with
    | none => none
    | some (.inl t) => run body fuel t
    | some (.inr r) => some r

/-- Enough rounds reach the end. -/
def Ends (body : σ → Option (σ ⊕ ρ)) (s : σ) (r : ρ) : Prop := ∃ fuel, run body fuel s = some r

theorem ends_of_end (h : body s = some (.inr r)) : Ends body s r := ⟨1, by simp [run, h]⟩

theorem Ends.of_next (h : body s = some (.inl t)) (ht : Ends body t r) : Ends body s r := by
  obtain ⟨fuel, hf⟩ := ht
  exact ⟨fuel + 1, by simp [run, h, hf]⟩

/-- Two computations that agree go on with what agrees. -/
theorem rel_bind {α β α' β' : Type*} {R : α → β → Prop} {Q : α' → β' → Prop} {x : Option α}
    {y : Option β} {f : α → Option α'} {g : β → Option β'} (h : Option.Rel R x y)
    (next : ∀ a b, R a b → Option.Rel Q (f a) (g b)) : Option.Rel Q (x.bind f) (y.bind g) := by
  cases h with
  | none => exact .none
  | some h => exact next _ _ h

theorem rel_some_left {α β : Type*} {R : α → β → Prop} {y : Option β} {a : α}
    (h : Option.Rel R (some a) y) : ∃ b, y = some b ∧ R a b := by
  cases h with
  | some hab => exact ⟨_, rfl, hab⟩

theorem rel_some_right {α β : Type*} {R : α → β → Prop} {x : Option α} {b : β}
    (h : Option.Rel R x (some b)) : ∃ a, x = some a ∧ R a b := by
  cases h with
  | some hab => exact ⟨_, rfl, hab⟩

/-- Two loops that do the same round by round do the same. -/
theorem run_rel {σ' ρ' : Type*} {body' : σ' → Option (σ' ⊕ ρ')} (R : σ → σ' → Prop)
    (Q : ρ → ρ' → Prop)
    (round : ∀ a b, R a b → Option.Rel (Sum.LiftRel R Q) (body a) (body' b)) (fuel : Nat)
    {a : σ} {b : σ'} (h : R a b) : Option.Rel Q (run body fuel a) (run body' fuel b) := by
  induction fuel generalizing a b with
  | zero => exact .none
  | succ fuel ih =>
    have hround := round a b h
    simp only [run]
    generalize body a = x at hround
    generalize body' b = y at hround
    cases hround with
    | none => exact .none
    | some hxy =>
      cases hxy with
      | inl next => exact ih next
      | inr last => exact .some last

/-- What a round preserves holds when the loop ends. -/
theorem Ends.invariant (h : Ends body s r) (P : σ → Prop) (Q : ρ → Prop) (start : P s)
    (next : ∀ s t, P s → body s = some (.inl t) → P t)
    (last : ∀ s r, P s → body s = some (.inr r) → Q r) : Q r := by
  obtain ⟨fuel, hf⟩ := h
  induction fuel generalizing s with
  | zero => cases hf
  | succ fuel ih =>
    simp only [run] at hf
    split at hf
    · cases hf
    · rename_i t ht
      exact ih (next s t start ht) hf
    · rename_i r' hr
      cases hf
      exact last s r start hr

/-- The states that the loop goes through from `s` on. -/
inductive Passes (body : σ → Option (σ ⊕ ρ)) (s : σ) : σ → Prop where
  | start : Passes body s s
  | next {t u : σ} : Passes body s t → body t = some (.inl u) → Passes body s u

theorem Passes.invariant (h : Passes body s t) (P : σ → Prop) (start : P s)
    (next : ∀ s t, P s → body s = some (.inl t) → P t) : P t := by
  induction h with
  | start => exact start
  | next _ round ih => exact next _ _ ih round

/-- A loop ends whose rounds go on only while a measure falls. -/
theorem ends_of_measure (m : σ → Nat) (P : σ → Prop) (Q : ρ → Prop) (start : P s)
    (round : ∀ s, P s → (∃ t, body s = some (.inl t) ∧ P t ∧ m t < m s) ∨
      ∃ r, body s = some (.inr r) ∧ Q r) : ∃ r, Ends body s r ∧ Q r := by
  induction hn : m s using Nat.strongRecOn generalizing s with
  | ind n ih =>
    rcases round s start with ⟨t, ht, hP, hlt⟩ | ⟨r, hr, hQ⟩
    · obtain ⟨r, hr, hQ⟩ := ih (m t) (by omega) hP rfl
      exact ⟨r, hr.of_next ht, hQ⟩
    · exact ⟨r, ends_of_end hr, hQ⟩

theorem ends_next_iff (h : body s = some (.inl t)) : Ends body s r ↔ Ends body t r := by
  refine ⟨?_, .of_next h⟩
  rintro ⟨fuel, hf⟩
  cases fuel with
  | zero => cases hf
  | succ fuel =>
    simp only [run, h] at hf
    exact ⟨fuel, hf⟩

/-- A round that leaves everything as it is comes again and again. -/
theorem not_ends_of_repeat (h : body s = some (.inl s)) : ¬ Ends body s r := by
  rintro ⟨fuel, hf⟩
  induction fuel with
  | zero => cases hf
  | succ fuel ih =>
    simp only [run, h] at hf
    exact ih hf

/-- A round ends the loop, leaves everything as it is where the loop is stuck, or comes closer to
the end. -/
def Proceeds (body : σ → Option (σ ⊕ ρ)) (rel : σ → σ → Prop) (P Stuck : σ → Prop) (Q : ρ → Prop)
    (s : σ) : Prop :=
  (∃ r, body s = some (.inr r) ∧ Q r ∧ ¬ Stuck s) ∨ (body s = some (.inl s) ∧ Stuck s) ∨
    ∃ t, body s = some (.inl t) ∧ P t ∧ rel t s ∧ (Stuck t ↔ Stuck s)

variable {rel : σ → σ → Prop} {P Stuck : σ → Prop} {Q : ρ → Prop}

/-- Such a loop ends where it is not stuck. -/
theorem ends_iff (wf : WellFounded rel) (round : ∀ s, P s → Proceeds body rel P Stuck Q s)
    (start : P s) : (∃ r, Ends body s r) ↔ ¬ Stuck s := by
  induction s using wf.induction with
  | _ s ih =>
    obtain ⟨r, last, -, free⟩ | ⟨again, stuck⟩ | ⟨t, next, ht, closer, same⟩ := round s start
    · exact iff_of_true ⟨r, ends_of_end last⟩ free
    · refine iff_of_false ?_ (not_not_intro stuck)
      rintro ⟨r, ends⟩
      exact not_ends_of_repeat again ends
    · rw [← same, ← ih t closer ht]
      exact exists_congr fun r => ends_next_iff next

theorem Ends.proceeds (h : Ends body s r) (round : ∀ s, P s → Proceeds body rel P Stuck Q s)
    (start : P s) : Q r := by
  apply h.invariant P Q start
  · intro s t hs next
    obtain ⟨r, last, -⟩ | ⟨again, -⟩ | ⟨u, next', hu, -⟩ := round s hs
    · cases next.symm.trans last
    · cases next.symm.trans again
      exact hs
    · cases next.symm.trans next'
      exact hu
  · intro s r hs last
    obtain ⟨r', last', hr, -⟩ | ⟨again, -⟩ | ⟨u, next, -⟩ := round s hs
    · cases last.symm.trans last'
      exact hr
    · cases last.symm.trans again
    · cases last.symm.trans next

end Loop
