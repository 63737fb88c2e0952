import Mathlib.Algebra.Group.Action.Defs
import Mathlib.Algebra.Order.BigOperators.Group.List
import Mathlib.Algebra.Order.Ring.Nat
import Yella.Job.JobQueue

/-!
# Statistics of the job queue

`get_job_queue_stats` of `job_queue.c`, called between the steps of the queue. The sum of the
times is updated before the guard is locked, and the number of jobs after it.
-/

namespace Yella

variable {α : Type*}

/-- What is copied from the queue, and the average. -/
structure JobQueueReport where
  jobsRun : Nat
  slowestJobMicroseconds : Nat
  fastestJobMicroseconds : Nat
  averageJobMicroseconds : Nat

/-- The sum and the number of jobs have 64 bits. A result of `none` is a division by zero. -/
def JobQueue.getJobQueueStats (s : JobQueue α) : Option JobQueueReport :=
  let accumulated := s.accumulatedMicroseconds % 0x10000000000000000
  let jobsRun := s.stats.jobsRun % 0x10000000000000000
  let report (average : Nat) : JobQueueReport :=
    ⟨jobsRun, s.stats.slowestJobMicroseconds, s.stats.fastestJobMicroseconds, average⟩
  if accumulated = 0 then some (report 0)
  else if jobsRun = 0 then none
  else some (report (accumulated / jobsRun))

/-- A queue, and the reports asked of it so far. -/
structure AskedQueue (α : Type*) where
  queue : JobQueue α
  reports : List (Option JobQueueReport)

inductive AskedEvent (α : Type*) where
  | step (e : JobQueueEvent α)
  | getStats

/-- The steps of the queue and the calls in any order. -/
def askedMachine (α : Type*) : Machine (AskedQueue α) (AskedEvent α) where
  start s := s.queue = createJobQueue ∧ s.reports = []
  next s
    | .step e => (jobQueueNext s.queue e).map fun queue => { s with queue }
    | .getStats =>
      if s.queue.freed then none
      else some { s with reports := s.reports ++ [s.queue.getJobQueueStats] }

def JobQueueReport.Consistent (r : JobQueueReport) : Prop :=
  1 ≤ r.jobsRun → r.fastestJobMicroseconds ≤ r.averageJobMicroseconds ∧
    r.averageJobMicroseconds ≤ r.slowestJobMicroseconds

/-- No call has divided by zero, and each has reported consistent numbers. -/
def AskedQueue.Consistent (s : AskedQueue α) : Prop :=
  ∀ r ∈ s.reports, ∃ report, r = some report ∧ report.Consistent

/-- The time of a job that is in the sum while the job has not been counted. -/
def QueueRunner.uncounted : QueueRunner α → Nat
  | counting micros => micros
  | _ => 0

/-- There is no such time, and neither number has gone beyond 64 bits. -/
structure JobQueue.Settled (s : JobQueue α) : Prop where
  counted : s.runner.uncounted = 0
  sum : s.accumulatedMicroseconds < 0x10000000000000000
  jobs : s.stats.jobsRun < 0x10000000000000000

/-- Calls come at settled times. -/
def Timely (s : AskedQueue α) : AskedEvent α → Prop
  | .step _ => True
  | .getStats => s.queue.Settled

instance (s : JobQueue α) : Decidable s.Settled :=
  decidable_of_iff (s.runner.uncounted = 0 ∧
      s.accumulatedMicroseconds < 0x10000000000000000 ∧ s.stats.jobsRun < 0x10000000000000000)
    ⟨fun h => ⟨h.1, h.2.1, h.2.2⟩, fun h => ⟨h.counted, h.sum, h.jobs⟩⟩

instance (s : AskedQueue α) : (e : AskedEvent α) → Decidable (Timely s e)
  | .step _ => isTrue trivial
  | .getStats => inferInstanceAs (Decidable s.queue.Settled)

/-- The sum is of the jobs that have been counted and the one that has not. -/
def JobQueue.Accounted (s : JobQueue α) : Prop :=
  s.accumulatedMicroseconds = s.times.sum + s.runner.uncounted

theorem JobQueueStep.accounted {s t : JobQueue α} {e : JobQueueEvent α} (h : JobQueueStep s e t)
    (inv : s.Accounted) : t.Accounted := by
  unfold JobQueue.Accounted at inv ⊢
  cases h with
  | push | setEmptyCallback | stop | callBack | free => exact inv
  | leave here | take here | ranJob here =>
    simp only [here, JobQueue.take, JobQueue.ranJob, QueueRunner.uncounted] at inv ⊢
    omega
  | countJob here =>
    simp only [here, JobQueue.countJob, QueueRunner.uncounted, List.sum_append,
      List.sum_singleton] at inv ⊢
    omega

/-! ## The average -/

theorem foldl_min_le {first : Nat} {rest : List Nat} :
    ∀ n ∈ first :: rest, rest.foldl min first ≤ n := by
  induction rest generalizing first with
  | nil => simp
  | cons next rest ih =>
    simp only [List.foldl_cons, List.forall_mem_cons] at ih ⊢
    obtain ⟨least, others⟩ := @ih (min first next)
    exact ⟨least.trans (Nat.min_le_left ..), least.trans (Nat.min_le_right ..), others⟩

theorem le_foldl_max {first : Nat} {rest : List Nat} :
    ∀ n ∈ first :: rest, n ≤ rest.foldl max first := by
  induction rest generalizing first with
  | nil => simp
  | cons next rest ih =>
    simp only [List.foldl_cons, List.forall_mem_cons] at ih ⊢
    obtain ⟨greatest, others⟩ := @ih (max first next)
    exact ⟨(Nat.le_max_left ..).trans greatest, (Nat.le_max_right ..).trans greatest, others⟩

/-- The average of some numbers is between the least and the greatest. -/
theorem average_between {times : List Nat} {least greatest : Nat} (some : times ≠ [])
    (hl : ∀ n ∈ times, least ≤ n) (hg : ∀ n ∈ times, n ≤ greatest) :
    least ≤ times.sum / times.length ∧ times.sum / times.length ≤ greatest := by
  have pos : 0 < times.length := List.length_pos_iff.mpr some
  have low := List.card_nsmul_le_sum times least hl
  have high := List.sum_le_card_nsmul times greatest hg
  rw [smul_eq_mul] at low high
  constructor
  · rwa [Nat.le_div_iff_mul_le pos, Nat.mul_comm]
  · exact Nat.div_le_of_le_mul high

/-- At a settled time the report is consistent. -/
theorem getJobQueueStats_consistent {s : JobQueue α} (timed : s.Timed) (accounted : s.Accounted)
    (settled : s.Settled) : ∃ report, s.getJobQueueStats = some report ∧ report.Consistent := by
  have sum : s.accumulatedMicroseconds = s.times.sum := by
    rw [accounted, settled.counted, Nat.add_zero]
  have same : s.times.sum % 0x10000000000000000 = s.times.sum :=
    Nat.mod_eq_of_lt (sum ▸ settled.sum)
  have jobs : s.stats.jobsRun % 0x10000000000000000 = s.times.length := by
    rw [Nat.mod_eq_of_lt settled.jobs, timed.1]
  simp only [JobQueue.getJobQueueStats, sum, same, jobs]
  cases htimes : s.times with
  | nil => exact ⟨_, rfl, fun counted => absurd counted (by simp)⟩
  | cons first rest =>
    obtain ⟨fastest, slowest⟩ := timed.2 first rest htimes
    have between := average_between (List.cons_ne_nil first rest) foldl_min_le le_foldl_max
    rw [← fastest, ← slowest] at between
    split
    · rename_i zero
      refine ⟨_, rfl, ?_⟩
      intro _
      rwa [zero, Nat.zero_div] at between
    · exact ⟨_, rfl, fun _ => between⟩

/-! ## Runs -/

structure AskedInvariant (s : AskedQueue α) : Prop where
  timed : s.queue.Timed
  accounted : s.queue.Accounted
  consistent : s.Consistent

/-- In every run whose calls come at settled times, every report is consistent. -/
theorem timely_reports_consistent {events : List (AskedEvent α)} {s : AskedQueue α}
    (run : (askedMachine α).Run Timely events s) : s.Consistent := by
  suffices AskedInvariant s from this.consistent
  apply run.invariant AskedInvariant
  · rintro s ⟨queue, reports⟩
    refine ⟨?_, ?_, ?_⟩
    · rw [queue]
      exact ⟨rfl, fun first rest h => by cases h⟩
    · rw [queue]
      rfl
    · rw [AskedQueue.Consistent, reports]
      simp
  · intro s e t inv timely next
    cases e with
    | step e =>
      obtain ⟨queue, hqueue, rfl⟩ := Option.map_eq_some_iff.mp next
      have step := jobQueueNext_step hqueue
      exact ⟨step.timed inv.timed, step.accounted inv.accounted, inv.consistent⟩
    | getStats =>
      simp only [askedMachine, Option.ite_none_left_eq_some, Option.some.injEq] at next
      obtain ⟨-, rfl⟩ := next
      refine ⟨inv.timed, inv.accounted, ?_⟩
      intro r hr
      rcases List.mem_append.mp hr with hr | hr
      · exact inv.consistent r hr
      · rw [List.mem_singleton.mp hr]
        exact getJobQueueStats_consistent inv.timed inv.accounted timely

def newAskedQueue (α : Type*) : AskedQueue α where
  queue := createJobQueue
  reports := []

/-- A job, and a call after it has been counted. -/
def settledCall : List (AskedEvent Nat) :=
  [.step (.push 1), .step .next, .step (.runJob 5), .step .count, .getStats]

theorem reports_consistent_settled : ∃ s,
    (askedMachine Nat).after (newAskedQueue Nat) settledCall = some s ∧
      s.reports = [some ⟨1, 5, 5, 5⟩] ∧ s.Consistent := by
  have reached : ∃ s, (askedMachine Nat).after (newAskedQueue Nat) settledCall = some s ∧
      s.reports = [some ⟨1, 5, 5, 5⟩] := ⟨_, rfl, rfl⟩
  obtain ⟨s, after, reports⟩ := reached
  have start : (askedMachine Nat).start (newAskedQueue Nat) := ⟨rfl, rfl⟩
  have timely : (askedMachine Nat).AllowedAlong Timely (newAskedQueue Nat) settledCall := by
    decide
  exact ⟨s, after, reports, timely_reports_consistent (Machine.run_of_after start timely after)⟩

/-- The first job has been run and not been counted when the call comes. -/
theorem early_call_divides_by_zero : ∃ events s,
    (askedMachine Nat).Run Machine.Any events s ∧ s.reports = [none] ∧ ¬ s.Consistent := by
  have reached : ∃ s, (askedMachine Nat).after (newAskedQueue Nat)
      [.step (.push 1), .step .next, .step (.runJob 5), .getStats] = some s ∧
        s.reports = [none] := ⟨_, rfl, rfl⟩
  obtain ⟨s, after, reports⟩ := reached
  have start : (askedMachine Nat).start (newAskedQueue Nat) := ⟨rfl, rfl⟩
  refine ⟨_, s, Machine.reached_of_after start after, reports, ?_⟩
  intro consistent
  obtain ⟨report, lost, -⟩ := consistent none (by rw [reports]; exact List.mem_singleton.mpr rfl)
  cases lost

end Yella
