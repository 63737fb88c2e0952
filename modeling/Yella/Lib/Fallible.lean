import Mathlib.Data.List.Basic
import Mathlib.Data.List.Forall2

/-!
# Loops over calls that may fail

A call without a result ends the loop.
-/

namespace Fallible

variable {α β γ σ : Type*} {f : α → Option β} {l : List α}

/-! ## Results in a list -/

theorem mapM_isSome : (l.mapM f).isSome ↔ ∀ x ∈ l, (f x).isSome := by
  induction l with
  | nil => simp
  | cons x l ih =>
    rw [List.forall_mem_cons, ← ih, List.mapM_cons]
    cases f x with
    | none => simp
    | some y => cases l.mapM f <;> simp

theorem mapM_eq_none (h : ∃ x ∈ l, f x = none) : l.mapM f = none := by
  rw [← Option.not_isSome_iff_eq_none, mapM_isSome]
  intro all
  obtain ⟨x, hx, failed⟩ := h
  have := all x hx
  rw [failed] at this
  cases this

theorem mapM_eq_self {f : α → Option α} (h : ∀ x ∈ l, f x = some x) : l.mapM f = some l := by
  induction l with
  | nil => rfl
  | cons x l ih =>
    have hx := h x List.mem_cons_self
    have hl := ih (fun y hy => h y (List.mem_cons_of_mem _ hy))
    simp [List.mapM_cons, hx, hl]

theorem mapM_eq_map {g : α → β} (h : ∀ x ∈ l, f x = some (g x)) : l.mapM f = some (l.map g) := by
  induction l with
  | nil => rfl
  | cons x l ih =>
    have hx := h x List.mem_cons_self
    have hl := ih (fun y hy => h y (List.mem_cons_of_mem _ hy))
    simp [List.mapM_cons, hx, hl]

theorem mem_mapM {ys : List β} (h : l.mapM f = some ys) (y : β) :
    y ∈ ys ↔ ∃ x ∈ l, f x = some y := by
  induction l generalizing ys with
  | nil =>
    cases h
    simp
  | cons x l ih =>
    simp only [List.mapM_cons, Option.bind_eq_bind, Option.bind_eq_some_iff, Option.pure_def,
      Option.some.injEq] at h
    obtain ⟨z, first, rest, later, rfl⟩ := h
    rw [List.mem_cons, ih later, List.exists_mem_cons_iff, first, Option.some_inj, eq_comm]

theorem mapM_bind_mapM (f : α → Option β) (g : β → Option γ) (l : List α) :
    (l.mapM f).bind (fun ys => ys.mapM g) = l.mapM (fun x => (f x).bind g) := by
  induction l with
  | nil => rfl
  | cons x l ih =>
    simp only [List.mapM_cons, Option.bind_eq_bind, Option.pure_def]
    cases hx : f x with
    | none => rfl
    | some y =>
      simp only [Option.bind_some]
      rw [← ih]
      cases l.mapM f with
      | none => simp
      | some ys => simp [List.mapM_cons]

theorem mem_flatten_mapM {f : α → Option (List β)} {parts : List (List β)}
    (h : l.mapM f = some parts) (y : β) :
    y ∈ parts.flatten ↔ ∃ x ∈ l, ∃ part, f x = some part ∧ y ∈ part := by
  induction l generalizing parts with
  | nil =>
    cases h
    simp
  | cons x l ih =>
    simp only [List.mapM_cons, Option.bind_eq_bind, Option.bind_eq_some_iff, Option.pure_def,
      Option.some.injEq] at h
    obtain ⟨part, hpart, rest, hrest, rfl⟩ := h
    rw [List.flatten_cons, List.mem_append, ih hrest, List.exists_mem_cons_iff]
    simp [hpart]

/-- Elements that are passed over add nothing. -/
theorem mapM_filterMap {δ : Type*} (g : α → Option δ) (f : δ → Option (List β)) (l : List α) :
    (l.mapM fun x => (g x).elim (some []) f).map List.flatten =
      ((l.filterMap g).mapM f).map List.flatten := by
  induction l with
  | nil => rfl
  | cons x l ih =>
    cases hx : g x with
    | none =>
      rw [List.filterMap_cons_none hx, ← ih, List.mapM_cons, hx]
      cases l.mapM fun x => (g x).elim (some []) f <;> rfl
    | some z =>
      rw [List.filterMap_cons_some hx, List.mapM_cons, List.mapM_cons, hx]
      show Option.map List.flatten ((f z).bind _) = Option.map List.flatten ((f z).bind _)
      cases f z with
      | none => rfl
      | some part =>
        cases found : l.mapM fun x => (g x).elim (some []) f <;>
          cases found' : (l.filterMap g).mapM f <;> rw [found, found'] at ih <;> simp_all

theorem mapM_mono {g : α → Option β} {ys : List β}
    (more : ∀ x ∈ l, ∀ y, f x = some y → g x = some y) (h : l.mapM f = some ys) :
    l.mapM g = some ys := by
  induction l generalizing ys with
  | nil => exact h
  | cons x l ih =>
    simp only [List.mapM_cons, Option.bind_eq_bind, Option.bind_eq_some_iff, Option.pure_def,
      Option.some.injEq] at h ⊢
    obtain ⟨y, hy, rest, hrest, rfl⟩ := h
    refine ⟨y, more x List.mem_cons_self y hy, rest, ?_, rfl⟩
    apply ih _ hrest
    intro x' hx'
    exact more x' (List.mem_cons_of_mem x hx')

theorem mapM_forall₂ {R : α → γ → Prop} {g : γ → Option β} {l' : List γ}
    (related : List.Forall₂ R l l') (same : ∀ x y, R x y → f x = g y) :
    l.mapM f = l'.mapM g := by
  induction related with
  | nil => rfl
  | cons h _ ih => rw [List.mapM_cons, List.mapM_cons, same _ _ h, ih]

/-- Going on from the results, or from what they are results of. -/
theorem mapM_of_mapM {f' : α → Option γ} {g : β → Option γ} {ys : List β} (h : l.mapM f = some ys)
    (same : ∀ x ∈ l, ∀ y, f x = some y → f' x = g y) : l.mapM f' = ys.mapM g := by
  induction l generalizing ys with
  | nil =>
    cases h
    rfl
  | cons x l ih =>
    simp only [List.mapM_cons, Option.bind_eq_bind, Option.bind_eq_some_iff, Option.pure_def,
      Option.some.injEq] at h
    obtain ⟨y, hy, rest, hrest, rfl⟩ := h
    rw [List.mapM_cons, List.mapM_cons, same x List.mem_cons_self y hy,
      ih hrest fun x' hx' => same x' (List.mem_cons_of_mem x hx')]

theorem map_mapM (h : β → γ) (f : α → Option β) (l : List α) :
    (l.mapM f).map (List.map h) = l.mapM fun x => (f x).map h := by
  induction l with
  | nil => rfl
  | cons x l ih =>
    rw [List.mapM_cons, List.mapM_cons, ← ih]
    cases f x with
    | none => rfl
    | some y => cases l.mapM f <;> rfl

/-- Lists of lists, or one list. -/
theorem mapM_flatten (f : α → Option (List β)) (ls : List (List α)) :
    (ls.mapM fun l : List α => (l.mapM f).map List.flatten).map List.flatten =
      (ls.flatten.mapM f).map List.flatten := by
  induction ls with
  | nil => rfl
  | cons l ls ih =>
    rw [List.flatten_cons, List.mapM_append, List.mapM_cons]
    cases l.mapM f with
    | none => rfl
    | some part =>
      cases found : ls.mapM fun l : List α => (l.mapM f).map List.flatten <;>
        cases found' : ls.flatten.mapM f <;> rw [found, found'] at ih <;> simp_all

/-! ## A state that is handed on -/

theorem foldlM_congr {step step' : σ → α → Option σ} (same : ∀ x ∈ l, ∀ s, step s x = step' s x)
    (s : σ) : l.foldlM step s = l.foldlM step' s := by
  induction l generalizing s with
  | nil => rfl
  | cons x l ih =>
    rw [List.foldlM_cons, List.foldlM_cons, same x List.mem_cons_self]
    have rest (t : σ) : l.foldlM step t = l.foldlM step' t :=
      ih (fun y hy => same y (List.mem_cons_of_mem x hy)) t
    simp only [rest]

/-- What each step keeps is kept by all of them. -/
theorem foldlM_keeps {step : σ → α → Option σ} {P : σ → Prop}
    (keeps : ∀ s x t, P s → step s x = some t → P t) {s t : σ} (h : P s)
    (folded : l.foldlM step s = some t) : P t := by
  induction l generalizing s with
  | nil =>
    cases folded
    exact h
  | cons x l ih =>
    rw [List.foldlM_cons, Option.bind_eq_bind, Option.bind_eq_some_iff] at folded
    obtain ⟨s', first, rest⟩ := folded
    exact ih (keeps s x s' h first) rest

/-- Two nested loops as one. -/
theorem foldlM_flatMap (step : σ → β → Option σ) (inner : α → List β) (l : List α) (s : σ) :
    (l.flatMap inner).foldlM step s = l.foldlM (fun s x => (inner x).foldlM step s) s := by
  induction l generalizing s with
  | nil => rfl
  | cons x l ih =>
    rw [List.flatMap_cons, List.foldlM_append, List.foldlM_cons]
    simp only [ih]

end Fallible
