import Mathlib.Data.Fintype.Card
import Mathlib.Data.List.Chain
import Mathlib.Logic.Relation

/-!
# Depth of recursion

A recursion over a graph that need not be a tree: `r a b` where the call at `a` makes one at `b`.
-/

namespace Depth

open Relation

variable {α : Type*} {r : α → α → Prop} {a b : α} {n m : ℕ}

/-- The call at `a` ends, with no more than this many calls open at a time. -/
def Within (r : α → α → Prop) : ℕ → α → Prop
  | 0, _ => False
  | n + 1, a => ∀ b, r a b → Within r n b

theorem Within.mono (h : Within r n a) (le : n ≤ m) : Within r m a := by
  induction n generalizing a m with
  | zero => exact h.elim
  | succ n ih =>
    obtain ⟨m, rfl⟩ : ∃ k, m = k + 1 := ⟨m - 1, by omega⟩
    intro b hb
    exact ih (h b hb) (by omega)

/-- What is reached by calls needs less. -/
theorem Within.of_transGen (h : Within r n a) (reached : TransGen r a b) :
    ∃ m < n, Within r m b := by
  induction reached using TransGen.head_induction_on generalizing n with
  | single step =>
    cases n with
    | zero => exact h.elim
    | succ n => exact ⟨n, n.lt_succ_self, h b step⟩
  | head step _ ih =>
    cases n with
    | zero => exact h.elim
    | succ n =>
      obtain ⟨m, less, within⟩ := ih (h _ step)
      exact ⟨m, by omega, within⟩

theorem Within.no_cycle (h : Within r n a) : ¬ TransGen r a a := by
  induction n using Nat.strong_induction_on with
  | _ n ih =>
    intro cycle
    obtain ⟨m, less, within⟩ := h.of_transGen cycle
    exact ih m less within cycle

/-- Without enough depth there is a chain of calls as long as that. -/
theorem exists_chain_of_not_within (h : ¬ Within r n a) :
    ∃ l, List.IsChain r (a :: l) ∧ l.length = n := by
  induction n generalizing a with
  | zero => exact ⟨[], List.isChain_singleton a, rfl⟩
  | succ n ih =>
    unfold Within at h
    push Not at h
    obtain ⟨b, step, more⟩ := h
    obtain ⟨l, chain, rfl⟩ := ih more
    exact ⟨b :: l, List.isChain_cons_cons.mpr ⟨step, chain⟩, rfl⟩

/-- A chain of calls repeats none, unless there is a cycle. -/
theorem nodup_of_isChain {l : List α} (acyclic : ∀ b, ReflTransGen r a b → ¬ TransGen r b b)
    (chain : List.IsChain r (a :: l)) : (a :: l).Nodup := by
  have ordered : List.Pairwise (TransGen r) (a :: l) :=
    (chain.imp fun _ _ => TransGen.single).pairwise
  have reached : ∀ b ∈ a :: l, ReflTransGen r a b := by
    intro b hb
    rcases List.mem_cons.mp hb with rfl | hb
    · exact .refl
    · exact ((List.pairwise_cons.mp ordered).1 b hb).to_reflTransGen
  apply ordered.imp_of_mem
  rintro b c hb - less rfl
  exact acyclic b (reached b hb) less

/-- A recursion ends exactly if no cycle is reached, and then within the number of nodes. -/
theorem within_card_iff [Fintype α] :
    Within r (Fintype.card α) a ↔ ∀ b, ReflTransGen r a b → ¬ TransGen r b b := by
  constructor
  · intro within b reached
    rcases reflTransGen_iff_eq_or_transGen.mp reached with rfl | reached
    · exact within.no_cycle
    · obtain ⟨m, -, h⟩ := within.of_transGen reached
      exact h.no_cycle
  · intro acyclic
    by_contra more
    obtain ⟨l, chain, long⟩ := exists_chain_of_not_within more
    have fits := (nodup_of_isChain acyclic chain).length_le_card
    rw [List.length_cons, long] at fits
    omega

end Depth
