import Mathlib.Logic.Function.Basic
import Mathlib.Tactic.Convert

/-!
# Cells with owners

Cells that are allocated and freed, and places that own them. While each cell has one owner, a
cell that is freed through its owner is there, and nobody else holds it.
-/

/-- The cells in the order in which they were allocated, without the contents of those that have
been freed. -/
structure Cells (α : Type*) where
  slots : List (Option α)
  deriving DecidableEq, Repr

namespace Cells

variable {α ι : Type*}

def empty : Cells α := ⟨[]⟩

/-- What is in a cell, unless it has been freed. -/
def get (h : Cells α) (c : Nat) : Option α := (h.slots[c]?).join

/-- The cell is the next one. -/
def next (h : Cells α) : Nat := h.slots.length

def alloc (h : Cells α) (a : α) : Cells α := ⟨h.slots ++ [some a]⟩

/-- A cell is freed once. -/
def free (h : Cells α) (c : Nat) : Option (Cells α) :=
  if (h.get c).isSome then some ⟨h.slots.set c none⟩ else none

@[simp] theorem get_empty (c : Nat) : (empty : Cells α).get c = none := rfl

theorem get_next (h : Cells α) : h.get h.next = none := by
  simp [get, next]

theorem get_alloc (h : Cells α) (a : α) (c : Nat) :
    (h.alloc a).get c = if c = h.next then some a else h.get c := by
  rcases Nat.lt_trichotomy c h.next with below | rfl | above
  · rw [if_neg (Nat.ne_of_lt below), get, alloc, List.getElem?_append_left below, get]
  · simp [get, alloc, next]
  · have behind : (h.slots ++ [some a]).length ≤ c := by
      rw [List.length_append]
      exact above
    rw [if_neg (Nat.ne_of_gt above), get, get, alloc, List.getElem?_eq_none behind,
      List.getElem?_eq_none (Nat.le_of_lt above)]

theorem free_isSome {h : Cells α} {c : Nat} : (h.free c).isSome ↔ (h.get c).isSome := by
  unfold free
  split <;> simp_all

theorem get_free {h h' : Cells α} {c : Nat} (freed : h.free c = some h') (d : Nat) :
    h'.get d = if d = c then none else h.get d := by
  unfold free at freed
  split at freed
  · obtain rfl := Option.some_inj.mp freed
    by_cases same : d = c
    · subst same
      simp only [get, List.getElem?_set_self', if_true]
      cases h.slots[d]? <;> rfl
    · simp [get, List.getElem?_set_ne (Ne.symm same), same]
  · cases freed

/-! ## Owners -/

/-- What the places own is there, no two own the same, and every cell that is there has an
owner. -/
structure Owned (h : Cells α) (owns : ι → Option Nat) : Prop where
  live : ∀ i c, owns i = some c → (h.get c).isSome
  unique : ∀ i j c, owns i = some c → owns j = some c → i = j
  owner : ∀ c, (h.get c).isSome → ∃ i, owns i = some c

theorem owned_empty : Owned (empty : Cells α) (fun _ : ι => none) where
  live _ _ h := by cases h
  unique _ _ _ h := by cases h
  owner _ h := by cases h

variable [DecidableEq ι] {h h' : Cells α} {owns : ι → Option Nat} {i : ι} {c : Nat}

open Function (update)

/-- A place that owns nothing gets the new cell. -/
theorem Owned.alloc (o : Owned h owns) (none_here : owns i = none) (a : α) :
    Owned (h.alloc a) (update owns i (some h.next)) := by
  have fresh (j : ι) : owns j ≠ some h.next := by
    intro hj
    have := o.live j h.next hj
    rw [get_next] at this
    cases this
  constructor
  · intro j d hj
    rw [get_alloc]
    by_cases there : j = i
    · subst there
      rw [Function.update_self] at hj
      obtain rfl := Option.some_inj.mp hj
      simp
    · rw [Function.update_of_ne there] at hj
      split
      · rfl
      · exact o.live j d hj
  · intro j k d hj hk
    by_cases hji : j = i
    · by_cases hki : k = i
      · exact hji.trans hki.symm
      · subst hji
        rw [Function.update_self] at hj
        rw [Function.update_of_ne hki, ← hj] at hk
        exact absurd hk (fresh k)
    · rw [Function.update_of_ne hji] at hj
      by_cases hki : k = i
      · subst hki
        rw [Function.update_self] at hk
        rw [← hk] at hj
        exact absurd hj (fresh j)
      · rw [Function.update_of_ne hki] at hk
        exact o.unique j k d hj hk
  · intro d hd
    rw [get_alloc] at hd
    split at hd
    · rename_i new
      exact ⟨i, by rw [Function.update_self, new]⟩
    · obtain ⟨j, hj⟩ := o.owner d hd
      refine ⟨j, ?_⟩
      rwa [Function.update_of_ne]
      rintro rfl
      rw [none_here] at hj
      cases hj

/-- What a place owns can be freed, and then it owns nothing. -/
theorem Owned.free (o : Owned h owns) (here : owns i = some c) :
    ∃ h', h.free c = some h' ∧ Owned h' (update owns i none) := by
  obtain ⟨h', freed⟩ := Option.isSome_iff_exists.mp (free_isSome.mpr (o.live i c here))
  have others {j : ι} {d : Nat} (hj : update owns i none j = some d) :
      j ≠ i ∧ owns j = some d := by
    by_cases there : j = i
    · subst there
      rw [Function.update_self] at hj
      cases hj
    · exact ⟨there, by rwa [Function.update_of_ne there] at hj⟩
  refine ⟨h', freed, ?_, ?_, ?_⟩
  · intro j d hj
    obtain ⟨there, hj⟩ := others hj
    rw [get_free freed, if_neg]
    · exact o.live j d hj
    · rintro rfl
      exact there (o.unique j i d hj here)
  · intro j k d hj hk
    exact o.unique j k d (others hj).2 (others hk).2
  · intro d hd
    rw [get_free freed] at hd
    split at hd
    · cases hd
    · rename_i other
      obtain ⟨j, hj⟩ := o.owner d hd
      refine ⟨j, ?_⟩
      rwa [Function.update_of_ne]
      rintro rfl
      rw [here] at hj
      exact other (Option.some_inj.mp hj).symm

/-- What a place owns is freed. -/
def release (owns : ι → Option Nat) (h : Cells α) (i : ι) : Option (Cells α) :=
  match owns i with
  | none => some h
  | some c => h.free c

theorem Owned.release (o : Owned h owns) (i : ι) :
    ∃ h', release owns h i = some h' ∧ Owned h' (update owns i none) := by
  unfold Cells.release
  cases here : owns i with
  | none =>
    refine ⟨h, rfl, ?_⟩
    rwa [← here, Function.update_eq_self]
  | some c => exact o.free here

/-- Places, none of them twice, are released one after the other, where those that are left own
what they owned at first. -/
theorem Owned.releaseFrom {now : ι → Option Nat} {places : List ι} (o : Owned h now)
    (same : ∀ i ∈ places, now i = owns i) (distinct : places.Nodup) :
    ∃ h', places.foldlM (Cells.release owns) h = some h' ∧
      Owned h' (fun i => if i ∈ places then none else now i) := by
  induction places generalizing h now with
  | nil => exact ⟨h, rfl, by simpa using o⟩
  | cons i places ih =>
    obtain ⟨fresh, distinct⟩ := List.nodup_cons.mp distinct
    obtain ⟨h₁, first, o₁⟩ := o.release i
    have still : ∀ j ∈ places, update now i none j = owns j := by
      intro j hj
      rw [Function.update_of_ne (ne_of_mem_of_not_mem hj fresh)]
      exact same j (List.mem_cons_of_mem i hj)
    obtain ⟨h', rest, o'⟩ := ih o₁ still distinct
    refine ⟨h', ?_, ?_⟩
    · have : Cells.release owns h i = some h₁ := by
        rw [← first, Cells.release, Cells.release, same i List.mem_cons_self]
      rw [List.foldlM_cons, this]
      exact rest
    · convert o' using 2 with j
      by_cases there : j = i
      · subst there
        simp
      · simp [there]

/-- When all owners have been released, nothing is left. -/
theorem Owned.releaseAll {places : List ι} (o : Owned h owns) (distinct : places.Nodup)
    (all : ∀ i, i ∉ places → owns i = none) :
    ∃ h', places.foldlM (Cells.release owns) h = some h' ∧ ∀ c, h'.get c = none := by
  obtain ⟨h', released, o'⟩ := o.releaseFrom (fun _ _ => rfl) distinct
  refine ⟨h', released, ?_⟩
  intro c
  by_contra there
  obtain ⟨i, hi⟩ := o'.owner c (Option.isSome_iff_ne_none.mpr there)
  split at hi
  · cases hi
  · rename_i left
    rw [all i left] at hi
    cases hi

end Cells
