import Mathlib.Data.List.Basic
import Mathlib.Tactic.TypeStar

/-!
# Two lanes to one reader

A sender puts its items on one of two lanes, each of which keeps their order, and the reader
takes the next item of either. The reader gets them in order if the sender changes the lane
only when the one that it leaves is empty.
-/

/-- What the reader has, and what is on its way. -/
structure Lanes (α : Type*) where
  received : List α
  slow : List α
  direct : List α

namespace Lanes

variable {α : Type*} {r : α → α → Prop} {L L' : Lanes α}

/-- All items in the order in which they are received if the slow lane goes first. -/
def all (L : Lanes α) : List α := L.received ++ L.slow ++ L.direct

/-- The items are in order, and one of the lanes is empty. -/
structure InOrder (r : α → α → Prop) (L : Lanes α) : Prop where
  ordered : L.all.Pairwise r
  clear : L.slow = [] ∨ L.direct = []

inductive Step (r : α → α → Prop) (L : Lanes α) : Lanes α → Prop
  | stay : Step r L L
  | putSlow {x : α} (later : ∀ y ∈ L.all, r y x) (clear : L.direct = []) :
      Step r L { L with slow := L.slow ++ [x] }
  | putDirect {x : α} (later : ∀ y ∈ L.all, r y x) (clear : L.slow = []) :
      Step r L { L with direct := L.direct ++ [x] }
  | takeSlow {x : α} {rest : List α} (first : L.slow = x :: rest) :
      Step r L { L with received := L.received ++ [x], slow := rest }
  | takeDirect {x : α} {rest : List α} (first : L.direct = x :: rest) :
      Step r L { L with received := L.received ++ [x], direct := rest }
  /-- What is on its way may be lost. -/
  | lose {slow direct : List α} (slow_sub : slow.Sublist L.slow)
      (direct_sub : direct.Sublist L.direct) : Step r L { L with slow, direct }

theorem ordered_put {xs : List α} {x : α} (ordered : xs.Pairwise r) (later : ∀ y ∈ xs, r y x) :
    (xs ++ [x]).Pairwise r := by
  rw [List.pairwise_append]
  refine ⟨ordered, List.pairwise_singleton r x, fun y hy z hz => ?_⟩
  rw [List.mem_singleton.mp hz]
  exact later y hy

theorem Step.inOrder (h : Step r L L') (inOrder : L.InOrder r) : L'.InOrder r := by
  obtain ⟨ordered, clear⟩ := inOrder
  cases h with
  | stay => exact ⟨ordered, clear⟩
  | putSlow later direct =>
    refine ⟨?_, .inr direct⟩
    have put := ordered_put ordered later
    simpa [all, direct] using put
  | putDirect later slow =>
    refine ⟨?_, .inl slow⟩
    have put := ordered_put ordered later
    simpa [all] using put
  | takeSlow first =>
    have direct : L.direct = [] := clear.resolve_left (by simp [first])
    refine ⟨?_, .inr direct⟩
    simpa [all, first] using ordered
  | takeDirect first =>
    have slow : L.slow = [] := clear.resolve_right (by simp [first])
    refine ⟨?_, .inl slow⟩
    simpa [all, first, slow] using ordered
  | lose slow direct =>
    refine ⟨ordered.sublist ((List.Sublist.refl _).append slow |>.append direct), ?_⟩
    rcases clear with empty | empty
    · exact .inl (List.sublist_nil.mp (empty ▸ slow))
    · exact .inr (List.sublist_nil.mp (empty ▸ direct))

theorem InOrder.received (h : L.InOrder r) : L.received.Pairwise r :=
  h.ordered.sublist ((List.sublist_append_left _ _).trans (List.sublist_append_left _ _))

end Lanes
