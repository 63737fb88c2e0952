import Mathlib.Data.Nat.Notation
import Mathlib.Logic.Function.Basic
import Mathlib.Tactic.TypeStar

/-!
# Gates

A flag under a mutex, which is never taken back, and a condition that the threads which wait for it
sleep on. A thread that wakes checks the flag again, so it may wake without a reason.
-/

namespace Gate

/-- Where a thread is: those that open the gate lock, set the flag, broadcast and unlock, and those
that wait for it lock, check the flag until it is set, and unlock. -/
inductive Place where
  | outside
  | locksToOpen
  | opens
  | broadcasts
  | unlocks
  | locksToWait
  | checks
  | sleeps
  | leaves
  deriving DecidableEq

namespace Place

def holds : Place → Bool
  | opens | broadcasts | unlocks | checks | leaves => true
  | _ => false

def waits : Place → Bool
  | locksToWait | checks | sleeps | leaves => true
  | _ => false

end Place

/-- `owner` holds the mutex. -/
structure State (τ : Type*) where
  isOpen : Bool
  owner : Option τ
  place : τ → Place

variable {τ : Type*} [DecidableEq τ]

namespace State

def start : State τ := ⟨false, none, fun _ => .outside⟩

def put (g : State τ) (t : τ) (p : Place) : State τ :=
  { g with place := Function.update g.place t p }

def lock (g : State τ) (t : τ) (p : Place) : Option (State τ) :=
  if g.owner = none then some { g.put t p with owner := some t } else none

def unlock (g : State τ) (t : τ) (p : Place) : State τ := { g.put t p with owner := none }

def wakeAll (g : State τ) : State τ :=
  { g with place := fun u => if g.place u = .sleeps then .locksToWait else g.place u }

/-- A thread goes one step further. -/
def go (g : State τ) (t : τ) : Option (State τ) :=
  match g.place t with
  | .outside | .sleeps => none
  | .locksToOpen => g.lock t .opens
  | .opens => some { g.put t .broadcasts with isOpen := true }
  | .broadcasts => some (g.wakeAll.put t .unlocks)
  | .locksToWait => g.lock t .checks
  | .checks => some (if g.isOpen then g.put t .leaves else g.unlock t .sleeps)
  | .unlocks | .leaves => some (g.unlock t .outside)

def callOpen (g : State τ) (t : τ) : Option (State τ) :=
  if g.place t = .outside then some (g.put t .locksToOpen) else none

def callWait (g : State τ) (t : τ) : Option (State τ) :=
  if g.place t = .outside then some (g.put t .locksToWait) else none

/-- A thread wakes without a broadcast. -/
def wake (g : State τ) (t : τ) : Option (State τ) :=
  if g.place t = .sleeps then some (g.put t .locksToWait) else none

end State

/-- What a thread does when it goes on -/
inductive Step : State τ → τ → State τ → Prop
  | lockToOpen {g : State τ} {t : τ} : g.place t = .locksToOpen → g.owner = none →
      Step g t { g.put t .opens with owner := some t }
  | lockToWait {g : State τ} {t : τ} : g.place t = .locksToWait → g.owner = none →
      Step g t { g.put t .checks with owner := some t }
  | opens {g : State τ} {t : τ} : g.place t = .opens →
      Step g t { g.put t .broadcasts with isOpen := true }
  | broadcast {g : State τ} {t : τ} : g.place t = .broadcasts →
      Step g t (g.wakeAll.put t .unlocks)
  | found {g : State τ} {t : τ} : g.place t = .checks → g.isOpen = true →
      Step g t (g.put t .leaves)
  | sleep {g : State τ} {t : τ} : g.place t = .checks → g.isOpen = false →
      Step g t (g.unlock t .sleeps)
  | unlock {g : State τ} {t : τ} : g.place t = .unlocks ∨ g.place t = .leaves →
      Step g t (g.unlock t .outside)

section
variable {g g' : State τ} {t u : τ}

theorem step_of_go (h : g.go t = some g') : Step g t g' := by
  unfold State.go at h
  split at h
  · cases h
  · cases h
  · rename_i place
    obtain ⟨free, ⟨⟩⟩ := Option.ite_none_right_eq_some.mp h
    exact .lockToOpen place free
  · rename_i place
    cases h
    exact .opens place
  · rename_i place
    cases h
    exact .broadcast place
  · rename_i place
    obtain ⟨free, ⟨⟩⟩ := Option.ite_none_right_eq_some.mp h
    exact .lockToWait place free
  · rename_i place
    cases h
    split
    · rename_i isOpen
      exact .found place isOpen
    · rename_i shut
      exact .sleep place (Bool.not_eq_true _ ▸ shut)
  · rename_i place
    cases h
    exact .unlock (.inl place)
  · rename_i place
    cases h
    exact .unlock (.inr place)

/-- The other threads stay where they are, but for those that are woken. -/
theorem Step.other (h : Step g t g') (ne : u ≠ t) :
    g'.place u = g.place u ∨ g.place u = .sleeps ∧ g'.place u = .locksToWait := by
  cases h with
  | broadcast =>
    by_cases sleeps : g.place u = .sleeps
    · exact .inr ⟨sleeps, by simp [State.put, State.wakeAll, ne, sleeps]⟩
    · exact .inl (by simp [State.put, State.wakeAll, ne, sleeps])
  | lockToOpen | lockToWait | opens | found | sleep | unlock =>
    exact .inl (Function.update_of_ne ne _ _)

theorem Step.isOpen (h : Step g t g') (isOpen : g.isOpen = true) : g'.isOpen = true := by
  cases h with
  | opens => rfl
  | lockToOpen | lockToWait | broadcast | found | sleep | unlock =>
    exact isOpen

end

/-! ## The invariant -/

/-- The place follows the setting of the flag. -/
def Place.follows : Place → Bool
  | broadcasts | unlocks | leaves => true
  | _ => false

/-- The mutex is with the thread that is between its locking and its unlocking, and whoever sleeps
beside a set flag will be woken. -/
structure Sound (g : State τ) : Prop where
  owner : ∀ t, g.owner = some t ↔ (g.place t).holds = true
  told : g.isOpen = true → ∀ t, g.place t = .sleeps → ∃ u, g.place u = .broadcasts
  opened : ∀ t, (g.place t).follows = true → g.isOpen = true

section
variable {g g' : State τ} {t u : τ} {p : Place}

omit [DecidableEq τ] in
theorem sound_start : Sound (State.start : State τ) where
  owner t := by simp [State.start, Place.holds]
  told isOpen := by cases isOpen
  opened t follows := by cases follows

omit [DecidableEq τ] in
theorem Sound.unique (sound : Sound g) (first : (g.place t).holds = true)
    (second : (g.place u).holds = true) : t = u :=
  Option.some.inj (((sound.owner t).mpr first).symm.trans ((sound.owner u).mpr second))

omit [DecidableEq τ] in
theorem Sound.free (sound : Sound g) (free : g.owner = none) (u : τ) :
    (g.place u).holds = false := by
  rw [← Bool.not_eq_true, ← sound.owner, free]
  exact nofun

theorem put_place (g : State τ) (t u : τ) (p : Place) :
    (g.put t p).place u = if u = t then p else g.place u := Function.update_apply _ _ _ _

/-- A thread goes on without locking or unlocking. -/
theorem Sound.put_owner (sound : Sound g) (same : p.holds = (g.place t).holds) (u : τ) :
    g.owner = some u ↔ ((g.put t p).place u).holds = true := by
  rw [put_place]
  split
  · rename_i own
    rw [own, same]
    exact sound.owner t
  · exact sound.owner u

theorem Sound.lock_owner (sound : Sound g) (free : g.owner = none) (holds : p.holds = true)
    (u : τ) : some t = some u ↔ ((g.put t p).place u).holds = true := by
  rw [put_place]
  split
  · rename_i own
    simp [own, holds]
  · rename_i other
    rw [sound.free free u]
    simp [Ne.symm other]

theorem Sound.unlock_owner (sound : Sound g) (holds : (g.place t).holds = true)
    (left : p.holds = false) (u : τ) :
    (none : Option τ) = some u ↔ ((g.put t p).place u).holds = true := by
  rw [put_place]
  split
  · simp [left]
  · rename_i other
    have notHere : ¬ (g.place u).holds = true := fun there => other (sound.unique there holds)
    simp [notHere]

/-- A thread that neither broadcasts nor falls asleep -/
theorem Sound.put_told (sound : Sound g) (awake : p ≠ .sleeps) (before : g.place t ≠ .broadcasts)
    (isOpen : g.isOpen = true) (u : τ) (sleeps : (g.put t p).place u = .sleeps) :
    ∃ v, (g.put t p).place v = .broadcasts := by
  rw [put_place] at sleeps
  split at sleeps
  · exact absurd sleeps awake
  · obtain ⟨v, broadcasts⟩ := sound.told isOpen u sleeps
    have other : v ≠ t := by
      rintro rfl
      exact before broadcasts
    exact ⟨v, by rw [put_place, if_neg other, broadcasts]⟩

theorem Sound.put_opened (sound : Sound g) (now : p.follows = true → g.isOpen = true) (u : τ)
    (follows : ((g.put t p).place u).follows = true) : g.isOpen = true := by
  rw [put_place] at follows
  split at follows
  · exact now follows
  · exact sound.opened u follows

omit [DecidableEq τ] in
theorem wakeAll_holds (g : State τ) (u : τ) :
    (g.wakeAll.place u).holds = (g.place u).holds := by
  show Place.holds (if _ then _ else _) = _
  split
  · rename_i sleeps
    rw [sleeps]
    rfl
  · rfl

omit [DecidableEq τ] in
theorem wakeAll_follows (g : State τ) (u : τ) :
    (g.wakeAll.place u).follows = (g.place u).follows := by
  show Place.follows (if _ then _ else _) = _
  split
  · rename_i sleeps
    rw [sleeps]
    rfl
  · rfl

omit [DecidableEq τ] in
theorem wakeAll_awake (g : State τ) (u : τ) : g.wakeAll.place u ≠ .sleeps := by
  show (if _ then _ else _) ≠ Place.sleeps
  split
  · exact nofun
  · assumption

/-- A thread comes to a place or is woken. -/
theorem Sound.put (sound : Sound g) (before : (g.place t).holds = false)
    (now : p.holds = false) (awake : p ≠ .sleeps) : Sound (g.put t p) := by
  refine ⟨sound.put_owner (now.trans before.symm), sound.put_told awake ?_,
    sound.put_opened fun follows => ?_⟩
  · intro broadcasts
    rw [broadcasts] at before
    cases before
  · cases p with
    | outside | locksToOpen | locksToWait | sleeps | opens | checks => cases follows
    | broadcasts | unlocks | leaves => cases now

theorem Step.sound (h : Step g t g') (sound : Sound g) : Sound g' := by
  cases h with
  | lockToOpen place free | lockToWait place free =>
    exact ⟨sound.lock_owner free rfl, sound.put_told nofun (by rw [place]; nofun),
      sound.put_opened nofun⟩
  | opens place =>
    exact ⟨sound.put_owner (by rw [place]; rfl),
      fun _ _ _ => ⟨t, by simp [State.put]⟩, fun _ _ => rfl⟩
  | broadcast place =>
    have woken : Sound g.wakeAll := by
      refine ⟨fun u => ?_, fun _ u sleeps => absurd sleeps (wakeAll_awake g u), fun u follows => ?_⟩
      · rw [wakeAll_holds]
        exact sound.owner u
      · rw [wakeAll_follows] at follows
        exact sound.opened u follows
    refine ⟨woken.put_owner ?_, fun _ u sleeps => ?_, woken.put_opened fun _ => ?_⟩
    · rw [wakeAll_holds, place]
      rfl
    · rw [put_place] at sleeps
      split at sleeps
      · cases sleeps
      · exact absurd sleeps (wakeAll_awake g u)
    · exact sound.opened t (by rw [place]; rfl)
  | found place isOpen =>
    exact ⟨sound.put_owner (by rw [place]; rfl), sound.put_told nofun (by rw [place]; nofun),
      sound.put_opened fun _ => isOpen⟩
  | sleep place shut =>
    refine ⟨sound.unlock_owner (by rw [place]; rfl) rfl, fun isOpen => ?_, sound.put_opened nofun⟩
    have still : g.isOpen = true := isOpen
    rw [shut] at still
    cases still
  | unlock place =>
    have holds : (g.place t).holds = true := by rcases place with p | p <;> rw [p] <;> rfl
    have before : g.place t ≠ .broadcasts := by rcases place with p | p <;> rw [p] <;> nofun
    exact ⟨sound.unlock_owner holds rfl, sound.put_told nofun before, sound.put_opened nofun⟩

end

/-! ## Going on -/

/-- The threads go on, and nobody calls. -/
inductive Goes : State τ → State τ → Prop where
  | refl (g : State τ) : Goes g g
  | step {g g' g'' : State τ} {t : τ} : g.go t = some g' → Goes g' g'' → Goes g g''

/-- What is left to do for the thread that holds the mutex -/
def Place.left : Place → ℕ
  | opens => 3
  | broadcasts | checks => 2
  | unlocks | leaves => 1
  | _ => 0

section
variable {g g' g'' : State τ} {t u : τ}

theorem Goes.trans (first : Goes g g') (second : Goes g' g'') : Goes g g'' := by
  induction first with
  | refl => exact second
  | step go _ ih => exact .step go (ih second)

theorem Goes.one (go : g.go t = some g') : Goes g g' := .step go (.refl g')

theorem Goes.sound (h : Goes g g') (sound : Sound g) : Sound g' := by
  induction h with
  | refl => exact sound
  | step go _ ih => exact ih ((step_of_go go).sound sound)

theorem Goes.isOpen (h : Goes g g') (isOpen : g.isOpen = true) : g'.isOpen = true := by
  induction h with
  | refl => exact isOpen
  | step go _ ih => exact ih ((step_of_go go).isOpen isOpen)

/-- A thread that waits does so until it is through. -/
theorem Step.waits (h : Step g u g') (waits : (g.place t).waits = true ∨ g.place t = .outside) :
    (g'.place t).waits = true ∨ g'.place t = .outside := by
  by_cases own : t = u
  · subst own
    cases h with
    | lockToOpen place | opens place | broadcast place =>
      rw [place] at waits
      exact absurd waits (by decide)
    | lockToWait | found | sleep => exact .inl (by simp [State.put, State.unlock, Place.waits])
    | unlock => exact .inr (by simp [State.put, State.unlock])
  · rcases h.other own with same | ⟨-, woken⟩
    · rwa [same]
    · exact .inl (by rw [woken]; rfl)

/-- A thread that waits gets through the gate by leaving. -/
theorem Step.through (h : Step g u g') (waits : (g.place t).waits = true)
    (outside : g'.place t = .outside) : g.place t = .leaves := by
  by_cases own : t = u
  · subst own
    cases h with
    | lockToOpen | lockToWait | opens | broadcast | found | sleep =>
      simp [State.put, State.unlock] at outside
    | unlock place =>
      rcases place with unlocks | leaves
      · rw [unlocks] at waits
        cases waits
      · exact leaves
  · rcases h.other own with same | ⟨-, woken⟩
    · rw [← same, outside] at waits
      cases waits
    · rw [woken] at outside
      cases outside

/-- A thread that is about to leave has found the gate open. -/
theorem Step.leaves (h : Step g u g') (leaves : g'.place t = .leaves) :
    g.place t = .leaves ∨ u = t ∧ g.place t = .checks ∧ g.isOpen = true := by
  by_cases own : t = u
  · subst own
    cases h with
    | lockToOpen | lockToWait | opens | broadcast | sleep | unlock =>
      simp [State.put, State.unlock] at leaves
    | found place isOpen => exact .inr ⟨rfl, place, isOpen⟩
  · rcases h.other own with same | ⟨-, woken⟩
    · exact .inl (same.symm.trans leaves)
    · rw [woken] at leaves
      cases leaves

theorem go_ne (go : g.go u = some g') (outside : g.place t = .outside) : u ≠ t := by
  rintro rfl
  rw [State.go, outside] at go
  cases go

theorem stays_outside (go : g.go u = some g') (outside : g.place t = .outside) :
    g'.place t = .outside := by
  rcases (step_of_go go).other (go_ne go outside).symm with same | ⟨sleeps, -⟩
  · rw [same, outside]
  · rw [outside] at sleeps
    cases sleeps

/-- Who does not wait does not begin to. -/
theorem Step.not_waits (h : Step g u g') (other : (g.place t).waits = false) :
    (g'.place t).waits = false := by
  by_cases own : t = u
  · subst own
    cases h with
    | lockToOpen | opens | broadcast => simp [State.put, Place.waits]
    | lockToWait place | found place | sleep place =>
      rw [place] at other
      cases other
    | unlock => simp [State.put, State.unlock, Place.waits]
  · rcases h.other own with same | ⟨sleeps, -⟩
    · rwa [same]
    · rw [sleeps] at other
      cases other

/-- Whoever is about to open the gate still is, or has opened it. -/
theorem Step.about (h : Step g u g') (about : g.place t = .locksToOpen ∨ g.place t = .opens) :
    g'.isOpen = true ∨ g'.place t = .locksToOpen ∨ g'.place t = .opens := by
  by_cases own : t = u
  · subst own
    cases h with
    | lockToOpen => exact .inr (.inr (by simp [State.put]))
    | opens => exact .inl rfl
    | lockToWait place | broadcast place | found place | sleep place =>
      rw [place] at about
      simp at about
    | unlock place => rcases place with p | p <;> rw [p] at about <;> simp at about
  · rcases h.other own with same | ⟨sleeps, -⟩
    · exact .inr (by rwa [same])
    · rw [sleeps] at about
      simp at about

theorem Step.about_before (h : Step g u g')
    (about : g'.place t = .locksToOpen ∨ g'.place t = .opens) :
    g.place t = .locksToOpen ∨ g.place t = .opens := by
  by_cases own : t = u
  · subst own
    cases h with
    | lockToOpen place => exact .inl place
    | opens place => exact .inr place
    | lockToWait | broadcast | found | sleep | unlock =>
      simp [State.put, State.unlock] at about
  · rcases h.other own with same | ⟨-, woken⟩
    · rwa [← same]
    · rw [woken] at about
      simp at about

theorem Step.shut (h : Step g u g') (shut : g.isOpen = false) (other : g.place u ≠ .opens) :
    g'.isOpen = false := by
  cases h with
  | opens place => exact absurd place other
  | lockToOpen | lockToWait | broadcast | found | sleep | unlock => exact shut

theorem Goes.waits (h : Goes g g') (waits : (g.place t).waits = true ∨ g.place t = .outside) :
    (g'.place t).waits = true ∨ g'.place t = .outside := by
  induction h with
  | refl => exact waits
  | step go _ ih => exact ih ((step_of_go go).waits waits)

/-- The thread that holds the mutex can go on, and has less left to do or has given it back. -/
theorem go_of_holds (holds : (g.place u).holds = true) :
    ∃ g', g.go u = some g' ∧ (g'.place u).left < (g.place u).left ∧
      (g'.owner = g.owner ∨ g'.owner = none) := by
  cases place : g.place u with
  | outside | locksToOpen | locksToWait | sleeps =>
    rw [place] at holds
    cases holds
  | opens =>
    refine ⟨{ g.put u .broadcasts with isOpen := true }, by rw [State.go, place], ?_, .inl rfl⟩
    simp [State.put, Place.left]
  | broadcasts =>
    refine ⟨g.wakeAll.put u .unlocks, by rw [State.go, place], ?_, .inl rfl⟩
    simp [State.put, Place.left]
  | unlocks | leaves =>
    refine ⟨g.unlock u .outside, by rw [State.go, place], ?_, .inr rfl⟩
    simp [State.put, State.unlock, Place.left]
  | checks =>
    refine ⟨if g.isOpen then g.put u .leaves else g.unlock u .sleeps, by rw [State.go, place], ?_⟩
    split
    · exact ⟨by simp [State.put, Place.left], .inl rfl⟩
    · exact ⟨by simp [State.put, State.unlock, Place.left], .inr rfl⟩

/-- The mutex becomes free, and a thread that wants it to open the gate still does. -/
theorem goes_free (sound : Sound g) :
    ∃ g', Goes g g' ∧ g'.owner = none ∧
      ∀ t, g.place t = .locksToOpen → g'.place t = .locksToOpen := by
  cases owner : g.owner with
  | none => exact ⟨g, .refl g, owner, fun _ same => same⟩
  | some u =>
    induction left : (g.place u).left using Nat.strongRecOn generalizing g with
    | ind n ih =>
      have holds := (sound.owner u).mp owner
      obtain ⟨g', go, less, still⟩ := go_of_holds holds
      have kept (t : τ) (wants : g.place t = .locksToOpen) : g'.place t = .locksToOpen := by
        have other : t ≠ u := by
          rintro rfl
          rw [wants] at holds
          cases holds
        rcases (step_of_go go).other other with same | ⟨sleeps, -⟩
        · rw [same, wants]
        · rw [wants] at sleeps
          cases sleeps
      rcases still with same | free
      · obtain ⟨g'', goes, free, wants⟩ :=
          ih _ (left ▸ less) ((step_of_go go).sound sound) (same.trans owner) rfl
        exact ⟨g'', .step go goes, free, fun t first => wants t (kept t first)⟩
      · exact ⟨g', .one go, free, kept⟩

/-- Whoever is about to open the gate does. -/
theorem goes_open (sound : Sound g) (about : g.place t = .locksToOpen ∨ g.place t = .opens) :
    ∃ g', Goes g g' ∧ g'.isOpen = true := by
  have opens {p : State τ} (place : p.place t = .opens) : ∃ g', Goes p g' ∧ g'.isOpen = true :=
    ⟨_, .one (t := t) (by rw [State.go, place]), rfl⟩
  rcases about with wants | place
  · obtain ⟨g', goes, free, kept⟩ := goes_free sound
    have lock : g'.go t = some { g'.put t .opens with owner := some t } := by
      rw [State.go, kept t wants]
      exact if_pos free
    obtain ⟨g'', last, isOpen⟩ :=
      opens (p := { g'.put t .opens with owner := some t }) (by simp [State.put])
    exact ⟨g'', goes.trans (.step lock last), isOpen⟩
  · exact opens place

/-- Nobody waits forever at an open gate. -/
theorem goes_past (sound : Sound g) (isOpen : g.isOpen = true)
    (waits : (g.place t).waits = true) : ∃ g', Goes g g' ∧ g'.place t = .outside := by
  obtain ⟨p, goes, free, -⟩ := goes_free sound
  have sound' := goes.sound sound
  have isOpen' := goes.isOpen isOpen
  by_cases through : p.place t = .outside
  · exact ⟨p, goes, through⟩
  have still := (goes.waits (.inl waits)).resolve_right through
  have notHeld := sound'.free free
  -- With a free mutex nobody is about to broadcast, so nobody sleeps.
  have wants : p.place t = .locksToWait := by
    cases place : p.place t with
    | locksToWait => rfl
    | sleeps =>
      obtain ⟨u, broadcasts⟩ := sound'.told isOpen' t place
      have held := notHeld u
      rw [broadcasts] at held
      cases held
    | checks | leaves =>
      have held := notHeld t
      rw [place] at held
      cases held
    | outside | locksToOpen | opens | broadcasts | unlocks =>
      rw [place] at still
      cases still
  let checking : State τ := { p.put t .checks with owner := some t }
  have lock : p.go t = some checking := by
    rw [State.go, wants]
    exact if_pos free
  have found : checking.go t = some (checking.put t .leaves) := by
    have place : checking.place t = .checks := by simp [checking, State.put]
    have still : checking.isOpen = true := isOpen'
    simp [State.go, place, still]
  have leave : (checking.put t .leaves).go t =
      some ((checking.put t .leaves).unlock t .outside) := by
    rw [State.go, put_place, if_pos rfl]
  exact ⟨_, goes.trans (.step lock (.step found (.one leave))), by simp [State.put, State.unlock]⟩

end

end Gate
