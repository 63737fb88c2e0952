import Yella.Lib.Machine

/-!
# The job queue

`job_queue.c`: the threads that push jobs, the runner and the thread that destroys the queue,
one critical section or job after the other in any order. A step that is not defined is one that
the thread waits for, or undefined behaviour.
-/

namespace Yella

variable {α : Type*}

/-- Where `job_queue_main` is: a job that it has taken is `running` until it has been run, and
`counting` until its counters have been updated. -/
inductive QueueRunner (α : Type*) where
  | waiting
  | running (jb : α)
  | counting (micros : Nat)
  | ended

/-- The job that is run or to be counted. -/
def QueueRunner.jobs : QueueRunner α → Nat
  | waiting => 0
  | running _ => 1
  | counting _ => 1
  | ended => 0

/-- A call of the empty callback: which registration it is of, and the queue at that time. -/
structure EmptyCall (α : Type*) where
  registration : Nat
  q : List α
  runner : QueueRunner α
  jobsRun : Nat
  jobsPushed : Nat

structure JobQueueStats where
  maxSize : Nat
  jobsPushed : Nat
  jobsRun : Nat
  slowestJobMicroseconds : Nat
  fastestJobMicroseconds : Nat

/-- The fields of `job_queue`, where `cb` is the number of the registration that set it, and the
thread of the runner; from `freed` on what has happened. -/
structure JobQueue (α : Type*) where
  q : List α
  sz : Nat
  shouldStop : Bool
  cb : Option Nat
  stats : JobQueueStats
  accumulatedMicroseconds : Nat
  runner : QueueRunner α
  freed : Bool
  pushed : List α
  ran : List α
  destroyed : List α
  registrations : Nat
  called : List (EmptyCall α)
  times : List Nat
  lengths : List Nat

def createJobQueue : JobQueue α where
  q := []
  sz := 0
  shouldStop := false
  cb := none
  stats := ⟨0, 0, 0, 0, 0⟩
  accumulatedMicroseconds := 0
  runner := .waiting
  freed := false
  pushed := []
  ran := []
  destroyed := []
  registrations := 0
  called := []
  times := []
  lengths := [0]

inductive JobQueueEvent (α : Type*) where
  | push (jb : α)
  /-- `set_job_queue_empty_callback`, which may also take the callback away. -/
  | setEmptyCallback (set : Bool)
  /-- The first critical section of `job_queue_main`. -/
  | next
  | runJob (micros : Nat)
  /-- The second one. -/
  | count
  /-- `destroy_job_queue` sets `should_stop`. -/
  | stop
  /-- The rest of `destroy_job_queue`. -/
  | free

namespace JobQueue

def push (s : JobQueue α) (jb : α) : JobQueue α :=
  let curSz := s.sz + 1
  { s with
    q := s.q ++ [jb]
    sz := curSz
    stats := { s.stats with
      jobsPushed := s.stats.jobsPushed + 1
      maxSize := if curSz > s.stats.maxSize then curSz else s.stats.maxSize }
    pushed := s.pushed ++ [jb]
    lengths := s.lengths ++ [s.q.length + 1] }

/-- `cb` is called while the guard is locked. -/
def callBack (s : JobQueue α) (registration : Nat) : JobQueue α :=
  { s with
    cb := none
    called := s.called ++ [⟨registration, s.q, s.runner, s.stats.jobsRun, s.stats.jobsPushed⟩] }

def take (s : JobQueue α) (jb : α) (rest : List α) : JobQueue α :=
  { s with
    q := rest
    sz := s.sz - 1
    runner := .running jb
    lengths := s.lengths ++ [rest.length] }

def ranJob (s : JobQueue α) (jb : α) (micros : Nat) : JobQueue α :=
  { s with
    accumulatedMicroseconds := s.accumulatedMicroseconds + micros
    runner := .counting micros
    ran := s.ran ++ [jb]
    destroyed := s.destroyed ++ [jb] }

def countJob (s : JobQueue α) (micros : Nat) : JobQueue α :=
  let jobsRun := s.stats.jobsRun + 1
  { s with
    stats :=
      if jobsRun = 1 then
        { s.stats with
          jobsRun
          fastestJobMicroseconds := micros
          slowestJobMicroseconds := micros }
      else
        { s.stats with
          jobsRun
          fastestJobMicroseconds := min micros s.stats.fastestJobMicroseconds
          slowestJobMicroseconds := max micros s.stats.slowestJobMicroseconds }
    runner := .waiting
    times := s.times ++ [micros] }

end JobQueue

def jobQueueNext (s : JobQueue α) : JobQueueEvent α → Option (JobQueue α)
  | .push jb => if s.freed then none else some (s.push jb)
  | .setEmptyCallback set =>
    if s.freed then none
    else some { s with
      cb := if set then some s.registrations else none
      registrations := s.registrations + 1 }
  | .next =>
    match s.runner with
    | .waiting =>
      if s.shouldStop then some { s with runner := .ended }
      else if s.sz = 0 then s.cb.map s.callBack
      else
        match s.q with
        | [] => none
        | jb :: rest => some (s.take jb rest)
    | _ => none
  | .runJob micros =>
    match s.runner with
    | .running jb => some (s.ranJob jb micros)
    | _ => none
  | .count =>
    match s.runner with
    | .counting micros => some (s.countJob micros)
    | _ => none
  | .stop => if s.freed then none else some { s with shouldStop := true }
  | .free =>
    -- the thread is joined
    match s.runner with
    | .ended =>
      if s.freed then none
      else some { s with freed := true, destroyed := s.destroyed ++ s.q, q := [] }
    | _ => none

def jobQueueMachine (α : Type*) : Machine (JobQueue α) (JobQueueEvent α) where
  start s := s = createJobQueue
  next := jobQueueNext

/-! ## What each step does -/

inductive JobQueueStep (s : JobQueue α) : JobQueueEvent α → JobQueue α → Prop
  | push {jb : α} (here : s.freed = false) : JobQueueStep s (.push jb) (s.push jb)
  | setEmptyCallback {set : Bool} : JobQueueStep s (.setEmptyCallback set)
      { s with
        cb := if set then some s.registrations else none
        registrations := s.registrations + 1 }
  | leave (here : s.runner = .waiting) : JobQueueStep s .next { s with runner := .ended }
  | callBack {registration : Nat} (here : s.runner = .waiting) (empty : s.sz = 0)
      (set : s.cb = some registration) : JobQueueStep s .next (s.callBack registration)
  | take {jb : α} {rest : List α} (here : s.runner = .waiting) (front : s.q = jb :: rest) :
      JobQueueStep s .next (s.take jb rest)
  | ranJob {jb : α} {micros : Nat} (here : s.runner = .running jb) :
      JobQueueStep s (.runJob micros) (s.ranJob jb micros)
  | countJob {micros : Nat} (here : s.runner = .counting micros) :
      JobQueueStep s .count (s.countJob micros)
  | stop : JobQueueStep s .stop { s with shouldStop := true }
  | free (here : s.runner = .ended) (before : s.freed = false) :
      JobQueueStep s .free
        { s with freed := true, destroyed := s.destroyed ++ s.q, q := [] }

theorem jobQueueNext_step {s t : JobQueue α} {e : JobQueueEvent α} (h : jobQueueNext s e = some t) :
    JobQueueStep s e t := by
  cases e with
  | push jb =>
    simp only [jobQueueNext] at h
    split at h <;> cases h
    rename_i here
    exact .push (by simpa using here)
  | setEmptyCallback set =>
    simp only [jobQueueNext] at h
    split at h <;> cases h
    exact .setEmptyCallback
  | next =>
    simp only [jobQueueNext] at h
    split at h
    · rename_i here
      split at h
      · cases h
        exact .leave here
      · split at h
        · rename_i empty
          obtain ⟨registration, set, rfl⟩ := Option.map_eq_some_iff.mp h
          exact .callBack here empty set
        · split at h <;> cases h
          exact .take here ‹_›
    · cases h
  | runJob micros =>
    simp only [jobQueueNext] at h
    split at h <;> cases h
    exact .ranJob ‹_›
  | count =>
    simp only [jobQueueNext] at h
    split at h <;> cases h
    exact .countJob ‹_›
  | stop =>
    simp only [jobQueueNext] at h
    split at h <;> cases h
    exact .stop
  | free =>
    simp only [jobQueueNext] at h
    split at h
    · rename_i here
      split at h <;> cases h
      rename_i before
      exact .free here (by simpa using before)
    · cases h

/-! ## What holds in every state -/

/-- The job that has been taken and not been run. -/
def QueueRunner.taken : QueueRunner α → List α
  | running jb => [jb]
  | _ => []

namespace JobQueue

/-- Where the jobs are that have been pushed, until the queue is freed and after it. -/
structure Placed (s : JobQueue α) : Prop where
  size : s.freed = false → s.sz = s.q.length
  pushed : s.freed = false → s.pushed = s.ran ++ s.runner.taken ++ s.q
  destroyed : s.freed = false → s.destroyed = s.ran
  ran : s.ran <+: s.pushed
  ended : s.freed = true → s.runner = .ended
  all : s.freed = true → s.destroyed = s.pushed

def Counted (s : JobQueue α) : Prop :=
  s.stats.jobsPushed = s.stats.jobsRun + s.sz + s.runner.jobs

/-- `max_size` is the greatest length. -/
structure Largest (s : JobQueue α) : Prop where
  reached : s.stats.maxSize ∈ s.lengths
  bounds : ∀ n ∈ s.lengths, n ≤ s.stats.maxSize
  present : s.q.length ≤ s.stats.maxSize

/-- The fastest and the slowest of the jobs that have been counted. -/
def Timed (s : JobQueue α) : Prop :=
  s.stats.jobsRun = s.times.length ∧ ∀ first rest, s.times = first :: rest →
    s.stats.fastestJobMicroseconds = rest.foldl min first ∧
      s.stats.slowestJobMicroseconds = rest.foldl max first

/-- No registration has been called twice, and the present one not yet. -/
structure CalledOnce (s : JobQueue α) : Prop where
  once : (s.called.map EmptyCall.registration).Nodup
  before : ∀ c ∈ s.called, c.registration < s.registrations
  present : ∀ registration ∈ s.cb, registration < s.registrations ∧
    registration ∉ s.called.map EmptyCall.registration

end JobQueue

/-- When it was called the queue was empty, no job was being run, and all had been counted. -/
def EmptyCall.Idle (c : EmptyCall α) : Prop :=
  c.q = [] ∧ c.runner.jobs = 0 ∧ c.jobsRun = c.jobsPushed

section
variable {s t : JobQueue α} {e : JobQueueEvent α}

/-- While the runner has not ended the queue is not freed. -/
theorem JobQueue.Placed.inUse (inv : s.Placed) (runs : s.runner ≠ .ended) : s.freed = false :=
  Bool.eq_false_iff.mpr (mt inv.ended runs)

theorem JobQueueStep.placed (h : JobQueueStep s e t) (inv : s.Placed) : t.Placed := by
  cases h with
  | @push jb here =>
    refine ⟨fun _ => ?_, fun _ => ?_, inv.destroyed, inv.ran.trans (List.prefix_append _ _),
      inv.ended, fun freed => absurd (here.symm.trans freed) Bool.false_ne_true⟩
    · simp [JobQueue.push, inv.size here]
    · simp [JobQueue.push, inv.pushed here]
  | setEmptyCallback | stop | callBack =>
    exact ⟨inv.size, inv.pushed, inv.destroyed, inv.ran, inv.ended, inv.all⟩
  | leave here =>
    refine ⟨inv.size, fun goesOn => ?_, inv.destroyed, inv.ran, fun _ => rfl, inv.all⟩
    have := inv.pushed goesOn
    rwa [here] at this
  | @take jb rest here front =>
    have goesOn := inv.inUse (by rw [here]; exact fun h => by cases h)
    have size := inv.size goesOn
    have pushed := inv.pushed goesOn
    rw [front] at size
    rw [here, front] at pushed
    refine ⟨fun _ => ?_, fun _ => ?_, inv.destroyed, inv.ran,
      fun freed => absurd (goesOn.symm.trans freed) Bool.false_ne_true, inv.all⟩
    · simp [JobQueue.take, size]
    · simp [JobQueue.take, QueueRunner.taken, pushed]
  | @ranJob jb micros here =>
    have goesOn := inv.inUse (by rw [here]; exact fun h => by cases h)
    have pushed := inv.pushed goesOn
    rw [here] at pushed
    refine ⟨inv.size, fun _ => ?_, fun _ => ?_, ?_,
      fun freed => absurd (goesOn.symm.trans freed) Bool.false_ne_true,
      fun freed => absurd (goesOn.symm.trans freed) Bool.false_ne_true⟩
    · simp [JobQueue.ranJob, QueueRunner.taken, pushed]
    · simp [JobQueue.ranJob, inv.destroyed goesOn]
    · exact ⟨s.q, by simp [JobQueue.ranJob, QueueRunner.taken, pushed]⟩
  | @countJob micros here =>
    have goesOn := inv.inUse (by rw [here]; exact fun h => by cases h)
    have pushed := inv.pushed goesOn
    rw [here] at pushed
    exact ⟨inv.size, fun _ => pushed, inv.destroyed, inv.ran,
      fun freed => absurd (goesOn.symm.trans freed) Bool.false_ne_true, inv.all⟩
  | free here before =>
    have pushed := inv.pushed before
    rw [here] at pushed
    refine ⟨fun goesOn => (by cases goesOn), fun goesOn => (by cases goesOn),
      fun goesOn => (by cases goesOn), inv.ran, fun _ => here, fun _ => ?_⟩
    simp [inv.destroyed before, pushed, QueueRunner.taken]

theorem JobQueueStep.counted (h : JobQueueStep s e t) (placed : s.Placed) (inv : s.Counted) :
    t.Counted := by
  unfold JobQueue.Counted at inv ⊢
  cases h with
  | push | setEmptyCallback | stop | callBack | free =>
    simp only [JobQueue.push, JobQueue.callBack] at inv ⊢
    omega
  | leave here =>
    simp only [here, QueueRunner.jobs] at inv ⊢
    omega
  | take here front =>
    have size := placed.size (placed.inUse (by rw [here]; exact fun h => by cases h))
    rw [front, List.length_cons] at size
    simp only [here, JobQueue.take, QueueRunner.jobs] at inv ⊢
    omega
  | ranJob here =>
    simp only [here, JobQueue.ranJob, QueueRunner.jobs] at inv ⊢
    omega
  | countJob here =>
    simp only [here, JobQueue.countJob, QueueRunner.jobs] at inv ⊢
    split <;> (simp only; omega)

theorem JobQueueStep.largest (h : JobQueueStep s e t) (placed : s.Placed) (inv : s.Largest) :
    t.Largest := by
  cases h with
  | setEmptyCallback | stop | callBack | leave | ranJob =>
    exact ⟨inv.reached, inv.bounds, inv.present⟩
  | free => exact ⟨inv.reached, inv.bounds, Nat.zero_le _⟩
  | @push jb here =>
    have size := placed.size here
    have sizes : ∀ n ∈ (s.push jb).lengths, n ∈ s.lengths ∨ n = s.q.length + 1 := by
      simp [JobQueue.push]
    by_cases grows : s.sz + 1 > s.stats.maxSize
    · have max : (s.push jb).stats.maxSize = s.sz + 1 := if_pos grows
      refine ⟨?_, fun n hn => ?_, ?_⟩
      · rw [max, size]
        exact List.mem_append_right _ (List.mem_singleton_self _)
      · rw [max]
        rcases sizes n hn with hn | rfl
        · have := inv.bounds n hn
          omega
        · omega
      · rw [max]
        simp only [JobQueue.push, List.length_append, List.length_singleton]
        omega
    · have max : (s.push jb).stats.maxSize = s.stats.maxSize := if_neg grows
      refine ⟨?_, fun n hn => ?_, ?_⟩
      · rw [max]
        exact List.mem_append_left _ inv.reached
      · rw [max]
        rcases sizes n hn with hn | rfl
        · exact inv.bounds n hn
        · omega
      · rw [max]
        simp only [JobQueue.push, List.length_append, List.length_singleton]
        omega
  | @take jb rest here front =>
    have present := inv.present
    rw [front, List.length_cons] at present
    refine ⟨List.mem_append_left _ inv.reached, fun n hn => ?_, ?_⟩
    · rcases List.mem_append.mp hn with hn | hn
      · exact inv.bounds n hn
      · rw [List.mem_singleton.mp hn]
        show rest.length ≤ s.stats.maxSize
        omega
    · show rest.length ≤ s.stats.maxSize
      omega
  | @countJob micros =>
    have max : (s.countJob micros).stats.maxSize = s.stats.maxSize := by
      simp only [JobQueue.countJob]
      split <;> rfl
    exact ⟨max ▸ inv.reached, max ▸ inv.bounds, max ▸ inv.present⟩

theorem JobQueueStep.timed (h : JobQueueStep s e t) (inv : s.Timed) : t.Timed := by
  obtain ⟨counts, extremes⟩ := inv
  cases h with
  | push | setEmptyCallback | stop | callBack | leave | take | ranJob | free =>
    exact ⟨counts, extremes⟩
  | @countJob micros here =>
    cases before : s.times with
    | nil =>
      rw [before] at counts
      have first : s.stats.jobsRun + 1 = 1 := by rw [counts]; rfl
      simp only [JobQueue.Timed, JobQueue.countJob, before, first, if_true]
      refine ⟨rfl, ?_⟩
      rintro _ _ ⟨⟩
      exact ⟨rfl, rfl⟩
    | cons first rest =>
      obtain ⟨fastest, slowest⟩ := extremes first rest before
      rw [before] at counts
      have later : ¬ s.stats.jobsRun + 1 = 1 := by simp [counts]
      simp only [JobQueue.Timed, JobQueue.countJob, before, later, if_false]
      refine ⟨by simp [counts], ?_⟩
      intro _ _ same
      rw [List.cons_append] at same
      obtain ⟨rfl, rfl⟩ := List.cons.inj same
      simp only [List.foldl_append, List.foldl_cons, List.foldl_nil, fastest, slowest]
      exact ⟨Nat.min_comm .., Nat.max_comm ..⟩

theorem JobQueueStep.calledOnce (h : JobQueueStep s e t) (inv : s.CalledOnce) : t.CalledOnce := by
  cases h with
  | push | stop | leave | take | ranJob | countJob | free =>
    exact ⟨inv.once, inv.before, inv.present⟩
  | setEmptyCallback =>
    refine ⟨inv.once, fun c hc => ?_, fun registration hr => ?_⟩
    · have := inv.before c hc
      show c.registration < s.registrations + 1
      omega
    · simp only at hr
      split at hr <;> cases hr
      refine ⟨Nat.lt_succ_self _, fun called => ?_⟩
      obtain ⟨c, hc, same⟩ := List.mem_map.mp called
      have := inv.before c hc
      omega
  | @callBack registration here empty set =>
    obtain ⟨before, fresh⟩ := inv.present registration set
    refine ⟨?_, fun c hc => ?_, fun _ hr => by cases hr⟩
    · simp only [JobQueue.callBack, List.map_append, List.map_cons, List.map_nil]
      refine List.nodup_append.mpr ⟨inv.once, by simp, ?_⟩
      rintro a ha b hb rfl
      exact fresh (List.mem_singleton.mp hb ▸ ha)
    · rcases List.mem_append.mp hc with hc | hc
      · exact inv.before c hc
      · rw [List.mem_singleton.mp hc]
        exact before

theorem JobQueueStep.idle (h : JobQueueStep s e t) (placed : s.Placed) (counted : s.Counted)
    (inv : ∀ c ∈ s.called, c.Idle) : ∀ c ∈ t.called, c.Idle := by
  cases h with
  | push | setEmptyCallback | stop | leave | take | ranJob | countJob | free => exact inv
  | callBack here empty set =>
    intro c hc
    rcases List.mem_append.mp hc with hc | hc
    · exact inv c hc
    · have size := placed.size (placed.inUse (by rw [here]; exact fun h => by cases h))
      rw [JobQueue.Counted, here, empty] at counted
      rw [List.mem_singleton.mp hc]
      exact ⟨List.length_eq_zero_iff.mp (size.symm.trans empty), by rw [here]; rfl, counted.symm⟩

end

structure JobQueueInvariant (s : JobQueue α) : Prop where
  placed : s.Placed
  counted : s.Counted
  largest : s.Largest
  timed : s.Timed
  calledOnce : s.CalledOnce
  idle : ∀ c ∈ s.called, c.Idle

theorem run_jobQueue {Allowed : JobQueue α → JobQueueEvent α → Prop}
    {events : List (JobQueueEvent α)} {s : JobQueue α}
    (run : (jobQueueMachine α).Run Allowed events s) : JobQueueInvariant s := by
  apply run.invariant JobQueueInvariant
  · rintro s rfl
    refine ⟨⟨fun _ => rfl, fun _ => rfl, fun _ => rfl, List.prefix_rfl, fun h => (by cases h),
      fun h => (by cases h)⟩, rfl, ⟨List.mem_singleton_self _, ?_, Nat.le_refl _⟩, ⟨rfl, ?_⟩,
      ⟨List.nodup_nil, ?_, ?_⟩, ?_⟩
    · intro n hn
      exact Nat.le_of_eq (List.mem_singleton.mp hn)
    · intro first rest h
      cases h
    · intro c hc
      cases hc
    · intro registration hr
      cases hr
    · intro c hc
      cases hc
  · intro s e t inv _ next
    have step := jobQueueNext_step next
    exact ⟨step.placed inv.placed, step.counted inv.placed inv.counted,
      step.largest inv.placed inv.largest, step.timed inv.timed, step.calledOnce inv.calledOnce,
      step.idle inv.placed inv.counted inv.idle⟩

/-! ## Every job once, in order -/

structure JobQueue.Sound (s : JobQueue α) : Prop where
  inOrder : s.ran <+: s.pushed
  size : s.freed = false → s.sz = s.q.length
  counted : s.stats.jobsPushed = s.stats.jobsRun + s.sz + s.runner.jobs
  largest : s.stats.maxSize ∈ s.lengths ∧ ∀ n ∈ s.lengths, n ≤ s.stats.maxSize
  destroyed : s.destroyed = if s.freed then s.pushed else s.ran
  once : (s.called.map EmptyCall.registration).Nodup
  idle : ∀ c ∈ s.called, c.Idle

theorem jobs_run_once_in_order {events : List (JobQueueEvent α)} {s : JobQueue α}
    (run : (jobQueueMachine α).Run Machine.Any events s) : s.Sound := by
  obtain ⟨placed, counted, largest, _, calledOnce, idle⟩ := run_jobQueue run
  refine ⟨placed.ran, placed.size, counted, ⟨largest.reached, largest.bounds⟩, ?_,
    calledOnce.once, idle⟩
  cases freed : s.freed with
  | true => exact placed.all freed
  | false => exact placed.destroyed freed

/-- One of two jobs is run, the other one is destroyed with the queue. -/
theorem jobs_run_once_stopped :
    ∃ events s, (jobQueueMachine Nat).Run Machine.Any events s ∧ s.ran = [1] ∧
      s.destroyed = [1, 2] ∧ s.freed = true ∧ s.Sound := by
  have reached : ∃ s, (jobQueueMachine Nat).after createJobQueue
      [.setEmptyCallback true, .push 1, .next, .runJob 5, .push 2, .count, .stop, .next, .free] =
        some s ∧ s.ran = [1] ∧ s.destroyed = [1, 2] ∧ s.freed = true := ⟨_, rfl, rfl, rfl, rfl⟩
  obtain ⟨s, after, ran, destroyed, freed⟩ := reached
  have run := Machine.reached_of_after rfl after
  exact ⟨_, s, run, ran, destroyed, freed, jobs_run_once_in_order run⟩

end Yella
