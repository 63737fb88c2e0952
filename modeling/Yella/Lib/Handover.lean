import Mathlib.Logic.Function.Basic
import Yella.Lib.Machine

/-!
# Buffers that are handed over

A program wraps its buffers in handles and hands them over to another thread, which reads them
and releases them whenever it likes. Whether each is released once, and not read after it, can
be counted in the program.
-/

namespace Handover

/-- What the program does with a buffer; `close` gives up a handle. -/
inductive Call (β : Type*) where
  | wrap (b : β)
  | handOver (b : β)
  | close (b : β)
  | free (b : β)

/-- `held` says which buffers the program has a handle of, and `dangling` which ones the other
thread has read after a release. -/
structure Heap (β : Type*) where
  todo : List (Call β)
  held : β → Bool
  inFlight : β → Nat
  released : β → Nat
  dangling : β → Bool

inductive Event (β : Type*) where
  | call
  | read (b : β)
  | finish (b : β)

variable {β : Type*} [DecidableEq β]

/-- The buffers that a program hands over. -/
def handedOver : List (Call β) → List β
  | [] => []
  | .handOver b :: rest => b :: handedOver rest
  | .wrap _ :: rest | .close _ :: rest | .free _ :: rest => handedOver rest

namespace Heap

def start (program : List (Call β)) : Heap β :=
  ⟨program, fun _ => false, fun _ => 0, fun _ => 0, fun _ => false⟩

def release (h : Heap β) (b : β) : Heap β :=
  { h with released := Function.update h.released b (h.released b + 1) }

def unhold (h : Heap β) (b : β) : Heap β := { h with held := Function.update h.held b false }

def apply (h : Heap β) : Call β → Heap β
  | .wrap b => { h with held := Function.update h.held b true }
  | .handOver b =>
    if h.held b then
      { h.unhold b with inFlight := Function.update h.inFlight b (h.inFlight b + 1) }
    else h
  | .close b => if h.held b then (h.unhold b).release b else h
  | .free b => h.release b

/-- The program is at its end, and the other thread has nothing left. -/
def Finished (h : Heap β) : Prop := h.todo = [] ∧ ∀ b, h.inFlight b = 0

end Heap

def next (h : Heap β) : Event β → Option (Heap β)
  | .call =>
    match h.todo with
    | [] => none
    | c :: todo => some ({ h with todo }.apply c)
  | .read b =>
    if h.inFlight b = 0 then none
    else some { h with
      dangling := Function.update h.dangling b (h.dangling b || h.released b != 0) }
  | .finish b =>
    if h.inFlight b = 0 then none
    else some ({ h with inFlight := Function.update h.inFlight b (h.inFlight b - 1) }.release b)

/-- The program together with the other thread. -/
def machine (program : List (Call β)) : Machine (Heap β) (Event β) where
  start h := h = .start program
  next := next

/-- However the two threads take turns. -/
def ReleasedOnce (program : List (Call β)) (b : β) : Prop :=
  ∀ events h, (machine program).Run Machine.Any events h →
    h.dangling b = false ∧ (h.Finished → h.released b = 1)

/-- How often a program releases a buffer, itself or through the other thread. -/
def releases (b : β) : Bool → List (Call β) → Nat
  | _, [] => 0
  | held, .wrap c :: rest => releases b (if c = b then true else held) rest
  | held, .handOver c :: rest | held, .close c :: rest =>
    if c = b ∧ held = true then releases b false rest + 1 else releases b held rest
  | held, .free c :: rest => releases b held rest + if c = b then 1 else 0

/-- What a program frees after its last use of a handle adds up. -/
theorem releases_append_free (b : β) (held : Bool) (program : List (Call β)) (bs : List β) :
    releases b held (program ++ bs.map .free) = releases b held program + bs.count b := by
  induction program generalizing held with
  | nil =>
    induction bs with
    | nil => rfl
    | cons c bs ih =>
      simp only [List.nil_append, releases, Nat.zero_add] at ih
      simp only [List.nil_append, List.map_cons, releases, ih, List.count_cons, beq_iff_eq]
      omega
  | cons c program ih =>
    cases c with
    | wrap => simp only [List.cons_append, releases, ih]
    | handOver | close =>
      simp only [List.cons_append, releases, ih]
      split <;> omega
    | free =>
      simp only [List.cons_append, releases, ih]
      omega

namespace Heap

/-- The releases so far, and those to come. -/
def total (h : Heap β) (b : β) : Nat :=
  h.released b + h.inFlight b + releases b (h.held b) h.todo

theorem total_apply (h : Heap β) (c : Call β) (b : β) :
    (h.apply c).total b = { h with todo := c :: h.todo }.total b := by
  cases c with
  | wrap c =>
    by_cases same : c = b
    · subst same
      simp [apply, total, releases]
    · simp [apply, total, releases, same, Ne.symm same]
  | handOver c | close c =>
    by_cases same : c = b
    · subst same
      by_cases held : h.held c = true
      · simp [apply, total, releases, unhold, release, held]
        omega
      · simp [apply, total, releases, held]
    · by_cases held : h.held c = true
      · simp [apply, total, releases, unhold, release, held, same, Ne.symm same]
      · simp [apply, total, releases, held, same]
  | free c =>
    by_cases same : c = b
    · subst same
      simp [apply, total, releases, release]
      omega
    · simp [apply, total, releases, release, same, Ne.symm same]

end Heap

variable {program : List (Call β)} {h t : Heap β} {e : Event β} {events : List (Event β)}

theorem total_next (step : next h e = some t) (b : β) : t.total b = h.total b := by
  cases e with
  | call =>
    simp only [next] at step
    split at step <;> cases step
    rename_i c todo front
    rw [Heap.total_apply]
    simp [Heap.total, front]
  | read c =>
    simp only [next] at step
    split at step <;> cases step
    rfl
  | finish c =>
    simp only [next] at step
    split at step <;> cases step
    rename_i some
    by_cases same : b = c
    · subst same
      simp [Heap.total, Heap.release]
      omega
    · simp [Heap.total, Heap.release, same]

/-- No buffer that is released once is read after it. -/
theorem dangling_next (step : next h e = some t) {b : β} (once : h.total b = 1)
    (before : h.dangling b = false) : t.dangling b = false := by
  cases e with
  | call =>
    simp only [next] at step
    split at step <;> cases step
    rename_i c todo _
    cases c <;> simp only [Heap.apply] <;> first | exact before | (split <;> exact before)
  | read c =>
    simp only [next] at step
    split at step <;> cases step
    rename_i flying
    by_cases same : b = c
    · subst same
      have : h.released b = 0 := by
        rw [Heap.total] at once
        omega
      simp [before, this]
    · simpa [same] using before
  | finish c =>
    simp only [next] at step
    split at step <;> cases step
    exact before

theorem total_run {Allowed : Heap β → Event β → Prop} (run : (machine program).Run Allowed events h)
    (b : β) : h.total b = releases b false program := by
  refine run.invariant (fun h => h.total b = releases b false program) ?_ ?_
  · rintro h rfl
    simp [Heap.start, Heap.total]
  · intro h e t before _ step
    rw [total_next step, before]

theorem Heap.apply_todo (h : Heap β) (c : Call β) : (h.apply c).todo = h.todo := by
  cases c with
  | wrap | free => rfl
  | handOver | close =>
    simp only [Heap.apply]
    split <;> rfl

/-- What is in flight after a call: nothing new, or a buffer that the program has handed over. -/
theorem Heap.apply_inFlight (h : Heap β) (c : Call β) : (h.apply c).inFlight = h.inFlight ∨
    ∃ b, (h.apply c).inFlight = Function.update h.inFlight b (h.inFlight b + 1) := by
  cases c with
  | wrap | free => exact .inl rfl
  | handOver b =>
    simp only [Heap.apply]
    split
    · exact .inr ⟨b, rfl⟩
    · exact .inl rfl
  | close =>
    simp only [Heap.apply]
    split <;> exact .inl rfl

/-- The other thread can finish each buffer when it gets it. -/
theorem reaches_finished (program : List (Call β)) (h : Heap β) (quiet : ∀ b, h.inFlight b = 0) :
    (machine program).Reaches h Heap.Finished := by
  induction front : h.todo generalizing h with
  | nil => exact .here ⟨front, quiet⟩
  | cons c todo ih =>
    have step : next h .call = some ({ h with todo }.apply c) := by simp only [next, front]
    refine .step .call step ?_
    rcases { h with todo }.apply_inFlight c with same | ⟨b, more⟩
    · refine ih _ (fun b => ?_) (Heap.apply_todo _ c)
      rw [same]
      exact quiet b
    · have flying : ({ h with todo }.apply c).inFlight b = 1 := by
        rw [more, Function.update_self, quiet b]
      refine .step (.finish b) (if_neg (by omega)) (ih _ (fun b' => ?_) (Heap.apply_todo _ c))
      by_cases same : b' = b
      · subst same
        simp [Heap.release, flying]
      · simp [Heap.release, more, quiet b']

/-- To release a buffer once is to release it once in the program or through what it hands
over. -/
theorem releasedOnce_iff {b : β} : ReleasedOnce program b ↔ releases b false program = 1 := by
  constructor
  · intro once
    obtain ⟨events, h, after, finished⟩ :=
      reaches_finished program (.start program) fun _ => rfl
    have run := Machine.reached_of_after (M := machine program) rfl after
    have := (once events h run).2 finished
    rw [← total_run run b, Heap.total, finished.1, finished.2 b, this]
    rfl
  · intro once events h run
    constructor
    · refine run.invariant (fun h => h.total b = 1 ∧ h.dangling b = false) ?_ ?_ |>.2
      · rintro h rfl
        exact ⟨by simpa [Heap.start, Heap.total] using once, rfl⟩
      · rintro h e t ⟨total, before⟩ _ step
        exact ⟨by rw [total_next step, total], dangling_next step total before⟩
    · intro finished
      have := total_run run b
      rw [once, Heap.total, finished.1, finished.2 b] at this
      exact this

end Handover
