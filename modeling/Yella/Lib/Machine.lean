import Mathlib.Tactic.TypeStar
import Yella.Lib.Prefixes

/-!
# Machines

A machine takes one event after the other, each where it is possible. What a step preserves,
every run preserves.
-/

/-- Where it may start, and what an event does where it is possible. -/
structure Machine (σ ε : Type*) where
  start : σ → Prop
  next : σ → ε → Option σ

namespace Machine

variable {σ ε : Type*} {M : Machine σ ε} {Allowed : σ → ε → Prop} {s t : σ} {e : ε}
  {events more : List ε}

/-- The runs whose events are allowed where they happen, each with its events. -/
inductive Run (M : Machine σ ε) (Allowed : σ → ε → Prop) : List ε → σ → Prop where
  | start {s : σ} : M.start s → Run M Allowed [] s
  | step {events : List ε} {s t : σ} {e : ε} : Run M Allowed events s → Allowed s e →
      M.next s e = some t → Run M Allowed (events ++ [e]) t

/-- Every event is allowed. -/
def Any : σ → ε → Prop := fun _ _ => True

/-- An invariant of the events so far and the state. -/
theorem Run.history (Inv : List ε → σ → Prop) (h : M.Run Allowed events s)
    (start : ∀ s, M.start s → Inv [] s)
    (step : ∀ events s e t, Inv events s → Allowed s e → M.next s e = some t →
      Inv (events ++ [e]) t) : Inv events s := by
  induction h with
  | start h => exact start _ h
  | step _ allowed next ih => exact step _ _ _ _ ih allowed next

theorem Run.invariant (Inv : σ → Prop) (h : M.Run Allowed events s)
    (start : ∀ s, M.start s → Inv s)
    (step : ∀ s e t, Inv s → Allowed s e → M.next s e = some t → Inv t) : Inv s :=
  h.history (fun _ => Inv) start fun _ => step

/-! ## Following given events -/

/-- The state after these events, if each is possible. -/
def after (M : Machine σ ε) : σ → List ε → Option σ
  | s, [] => some s
  | s, e :: events => (M.next s e).bind fun t => after M t events

theorem after_snoc (s : σ) (events : List ε) (e : ε) :
    M.after s (events ++ [e]) = (M.after s events).bind fun t => M.next t e := by
  induction events generalizing s with
  | nil => simp [after]
  | cons d events ih => simp only [List.cons_append, after, ih, Option.bind_assoc]

/-- Each of these events is allowed where it happens. -/
def AllowedAlong (M : Machine σ ε) (Allowed : σ → ε → Prop) : σ → List ε → Prop
  | _, [] => True
  | s, e :: events => Allowed s e ∧ ∀ t ∈ M.next s e, AllowedAlong M Allowed t events

instance decidableAllowedAlong [∀ s e, Decidable (Allowed s e)] :
    ∀ (events : List ε) (s : σ), Decidable (M.AllowedAlong Allowed s events)
  | [], _ => isTrue trivial
  | e :: events, s =>
    match h : M.next s e with
    | none => decidable_of_iff (Allowed s e) (by simp [AllowedAlong, h])
    | some t =>
      have := decidableAllowedAlong events t
      decidable_of_iff (Allowed s e ∧ M.AllowedAlong Allowed t events) (by simp [AllowedAlong, h])

theorem allowedAlong_snoc : M.AllowedAlong Allowed s (events ++ [e]) ↔
    M.AllowedAlong Allowed s events ∧ ∀ t ∈ M.after s events, Allowed t e := by
  induction events generalizing s with
  | nil => simp [AllowedAlong, after]
  | cons d events ih =>
    simp only [List.cons_append, AllowedAlong, after, ih]
    cases M.next s d <;> simp [and_assoc]

theorem allowedAlong_iff_atEach : M.AllowedAlong Allowed s events ↔
    Prefixes.AtEach (fun pre e => ∀ t ∈ M.after s pre, Allowed t e) events := by
  induction events using List.reverseRecOn with
  | nil => exact iff_of_true trivial Prefixes.atEach_nil
  | append_singleton events e ih => rw [allowedAlong_snoc, Prefixes.atEach_snoc, ih]

theorem Run.append (h : M.Run Allowed events s) (allowed : M.AllowedAlong Allowed s more)
    (after : M.after s more = some t) : M.Run Allowed (events ++ more) t := by
  induction more generalizing events s with
  | nil =>
    cases after
    rwa [List.append_nil]
  | cons e more ih =>
    obtain ⟨u, next, rest⟩ := Option.bind_eq_some_iff.mp after
    have := ih (h.step allowed.1 next) (allowed.2 u next) rest
    rwa [List.append_assoc] at this

theorem run_of_after (h : M.start s) (allowed : M.AllowedAlong Allowed s events)
    (after : M.after s events = some t) : M.Run Allowed events t :=
  (Run.start h).append allowed after

theorem allowedAlong_of_forall (h : ∀ e ∈ events, ∀ s, Allowed s e) (s : σ) :
    M.AllowedAlong Allowed s events := by
  induction events generalizing s with
  | nil => trivial
  | cons e events ih =>
    exact ⟨h e (by simp) s, fun t _ => ih (fun e' he' => h e' (by simp [he'])) t⟩

/-- Two machines stay related, and one can go on exactly if the other can. -/
theorem rel_after {τ : Type*} {N : Machine τ ε} {R : σ → τ → Prop}
    (step : ∀ s t e, R s t → Option.Rel R (M.next s e) (N.next t e)) {t : τ} (h : R s t)
    (events : List ε) : Option.Rel R (M.after s events) (N.after t events) := by
  induction events generalizing s t with
  | nil => exact .some h
  | cons e events ih =>
    have first := step s t e h
    rw [after, after]
    generalize M.next s e = s' at first
    generalize N.next t e = t' at first
    cases first with
    | some related => exact ih related
    | none => exact .none

theorem reached_of_after (h : M.start s) (after : M.after s events = some t) :
    M.Run Any events t :=
  run_of_after h (allowedAlong_of_forall (fun _ _ _ => trivial) s) after

/-- Some events lead to such a state. -/
def Reaches (M : Machine σ ε) (s : σ) (P : σ → Prop) : Prop :=
  ∃ events t, M.after s events = some t ∧ P t

theorem Reaches.here {P : σ → Prop} (h : P s) : M.Reaches s P := ⟨[], s, rfl, h⟩

theorem Reaches.step {P : σ → Prop} (e : ε) (next : M.next s e = some t) (h : M.Reaches t P) :
    M.Reaches s P := by
  obtain ⟨events, u, after, hu⟩ := h
  exact ⟨e :: events, u, by simp [Machine.after, next, after], hu⟩

end Machine
