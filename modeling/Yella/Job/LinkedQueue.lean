import Yella.Job.JobQueue
import Yella.Sglib.DlList

/-!
# The job queue in memory

`job_queue.c` over the nodes of its list, against the queue as a list of jobs. A node is there from
`push_job_queue` on until its job has been run, or the queue is destroyed.
-/

namespace Yella

open DoublyLinked
open LinkedList (addresses)
open Sglib (DlList.concat DlList.getFirst DlList.delete DlList.freeAll)

variable {α : Type}

/-- `calloc`, which gives an address that is not in use -/
def Calloc (α : Type) := { calloc : Heap α → Nat // ∀ h : Heap α, h.node (calloc h) = none }

instance inhabitedCalloc : Inhabited (Calloc α) :=
  ⟨⟨Heap.bound, fun h => h.finite _ (Nat.le_refl _)⟩⟩

/-- Where `job_queue_main` is; `front` is the node that it has taken. -/
inductive LinkedRunner where
  | waiting
  | running (front : Nat)
  | counting (micros : Nat)
  | ended

/-- The fields of `job_queue`; `heap` are the nodes, and `destroyed` the jobs that have been. -/
structure LinkedQueue (α : Type) where
  heap : Heap α
  q : Option Nat
  sz : Nat
  shouldStop : Bool
  cb : Bool
  stats : JobQueueStats
  accumulatedMicroseconds : Nat
  runner : LinkedRunner
  freed : Bool
  destroyed : List α

def createLinkedQueue : LinkedQueue α where
  heap := .empty
  q := none
  sz := 0
  shouldStop := false
  cb := false
  stats := ⟨0, 0, 0, 0, 0⟩
  accumulatedMicroseconds := 0
  runner := .waiting
  freed := false
  destroyed := []

namespace LinkedQueue

variable (s : LinkedQueue α)

def pushJobQueue (calloc : Calloc α) (jb : α) : Option (LinkedQueue α) := do
  let node := calloc.1 s.heap
  let (heap, q) ← DlList.concat (s.heap.alloc node ⟨jb, none, none⟩) s.q (some node)
  let curSz := s.sz + 1
  some { s with
    heap
    q
    sz := curSz
    stats := { s.stats with
      jobsPushed := s.stats.jobsPushed + 1
      maxSize := if curSz > s.stats.maxSize then curSz else s.stats.maxSize } }

/-- NULL is no node to delete. -/
def take : Option (LinkedQueue α) := do
  let first ← DlList.getFirst s.heap s.q
  let front ← first
  let (heap, q) ← DlList.delete s.heap s.q front
  some { s with heap, q, sz := s.sz - 1, runner := .running front }

def runJob (front micros : Nat) : Option (LinkedQueue α) := do
  let n ← s.heap.node front
  some { s with
    heap := s.heap.free front
    accumulatedMicroseconds := s.accumulatedMicroseconds + micros
    runner := .counting micros
    destroyed := s.destroyed ++ [n.value] }

def countJob (micros : Nat) : LinkedQueue α :=
  let jobsRun := s.stats.jobsRun + 1
  { s with
    stats :=
      if jobsRun = 1 then
        { s.stats with
          jobsRun
          fastestJobMicroseconds := micros
          slowestJobMicroseconds := micros }
      else
        { s.stats with
          jobsRun
          fastestJobMicroseconds := min micros s.stats.fastestJobMicroseconds
          slowestJobMicroseconds := max micros s.stats.slowestJobMicroseconds }
    runner := .waiting }

def free : Option (LinkedQueue α) := do
  let (heap, jobs) ← DlList.freeAll s.heap s.q
  some { s with heap, freed := true, destroyed := s.destroyed ++ jobs, q := none }

end LinkedQueue

def linkedQueueNext (calloc : Calloc α) (s : LinkedQueue α) :
    JobQueueEvent α → Option (LinkedQueue α)
  | .push jb => if s.freed then none else s.pushJobQueue calloc jb
  | .setEmptyCallback set => if s.freed then none else some { s with cb := set }
  | .next =>
    match s.runner with
    | .waiting =>
      if s.shouldStop then some { s with runner := .ended }
      else if s.sz = 0 then if s.cb then some { s with cb := false } else none
      else s.take
    | _ => none
  | .runJob micros =>
    match s.runner with
    | .running front => s.runJob front micros
    | _ => none
  | .count =>
    match s.runner with
    | .counting micros => some (s.countJob micros)
    | _ => none
  | .stop => if s.freed then none else some { s with shouldStop := true }
  | .free =>
    match s.runner with
    | .ended => if s.freed then none else s.free
    | _ => none

def linkedQueueMachine (calloc : Calloc α) : Machine (LinkedQueue α) (JobQueueEvent α) where
  start s := s = createLinkedQueue
  next := linkedQueueNext calloc

/-! ## What the nodes stand for -/

/-- The runner's node holds its job. -/
inductive RunnerIs (h : Heap α) : LinkedRunner → QueueRunner α → Prop
  | waiting : RunnerIs h .waiting .waiting
  | running {front : Nat} {n : Node α} : h.node front = some n →
      RunnerIs h (.running front) (.running n.value)
  | counting (micros : Nat) : RunnerIs h (.counting micros) (.counting micros)
  | ended : RunnerIs h .ended .ended

def LinkedRunner.nodes : LinkedRunner → List Nat
  | running front => [front]
  | waiting | counting _ | ended => []

/-- The list holds the jobs of the queue, and no other node is in memory but the runner's. -/
structure LinkedQueue.Is (c : LinkedQueue α) (s : JobQueue α) (l : List (Nat × α)) : Prop where
  sz : c.sz = s.sz
  shouldStop : c.shouldStop = s.shouldStop
  cb : c.cb = s.cb.isSome
  stats : c.stats = s.stats
  accumulated : c.accumulatedMicroseconds = s.accumulatedMicroseconds
  freed : c.freed = s.freed
  destroyed : c.destroyed = s.destroyed
  runner : RunnerIs c.heap c.runner s.runner
  holds : Holds c.heap c.q l
  first : c.q = l.head?.map Prod.fst
  jobs : l.map Prod.snd = s.q
  nodes : ∀ p, (c.heap.node p).isSome ↔ p ∈ addresses l ++ c.runner.nodes
  apart : ∀ p ∈ c.runner.nodes, p ∉ addresses l

def LinkedQueue.Refines (c : LinkedQueue α) (s : JobQueue α) : Prop := ∃ l, c.Is s l

theorem createLinkedQueue_refines :
    (createLinkedQueue : LinkedQueue α).Refines createJobQueue := by
  refine ⟨[], rfl, rfl, rfl, rfl, rfl, rfl, rfl, .waiting, holds_nil _, rfl, rfl, fun p => ?_, ?_⟩
  · exact iff_of_false (by simp [createLinkedQueue, Heap.empty]) (by simp [createLinkedQueue,
      addresses, LinkedRunner.nodes])
  · exact fun p there => absurd there List.not_mem_nil

/-! ## One step -/

section
variable {c : LinkedQueue α} {s : JobQueue α} {l : List (Nat × α)}

theorem RunnerIs.frame {h h' : Heap α} {r : LinkedRunner} {r' : QueueRunner α}
    (is : RunnerIs h r r') (same : ∀ p ∈ r.nodes, h'.node p = h.node p) : RunnerIs h' r r' := by
  cases is with
  | waiting => exact .waiting
  | running there => exact .running ((same _ (List.mem_singleton_self _)).trans there)
  | counting micros => exact .counting micros
  | ended => exact .ended

/-- A new node behind the last one -/
theorem LinkedQueue.Is.push (h : c.Is s l) (calloc : Calloc α) (jb : α) :
    ∃ c', c.pushJobQueue calloc jb = some c' ∧ c'.Refines (s.push jb) := by
  obtain ⟨node, eq⟩ : ∃ node, calloc.1 c.heap = node := ⟨_, rfl⟩
  have unused : c.heap.node node = none := eq ▸ calloc.2 c.heap
  have fresh : node ∉ addresses l ++ c.runner.nodes := by
    intro there
    have := (h.nodes node).mpr there
    rw [unused] at this
    cases this
  rw [List.mem_append, not_or] at fresh
  have other (p : Nat) (ne : p ≠ node) :
      (c.heap.alloc node ⟨jb, none, none⟩).node p = c.heap.node p := if_neg ne
  have new : (c.heap.alloc node ⟨jb, none, none⟩).node node = some ⟨jb, none, none⟩ := if_pos rfl
  have holds : Holds (c.heap.alloc node ⟨jb, none, none⟩) c.q l :=
    h.holds.frame fun p hp => other p fun same => fresh.1 (same ▸ hp)
  have single : Holds (c.heap.alloc node ⟨jb, none, none⟩) (some node) [(node, jb)] :=
    ⟨⟨new, trivial⟩, fun p same => by cases same; exact List.mem_singleton_self _,
      fun none' => by cases none'⟩
  have apart : (addresses l).Disjoint (addresses [(node, jb)]) := by
    intro p hp own
    cases List.mem_singleton.mp own
    exact fresh.1 hp
  obtain ⟨heap, q, linked, iff, at_q, there, frame⟩ :=
    Sglib.DlList.concat_iff holds single apart
  have run : c.pushJobQueue calloc jb = some { c with
      heap
      q
      sz := c.sz + 1
      stats := { c.stats with
        jobsPushed := c.stats.jobsPushed + 1
        maxSize := if c.sz + 1 > c.stats.maxSize then c.sz + 1 else c.stats.maxSize } } := by
    simp only [LinkedQueue.pushJobQueue, eq, linked, Option.bind_eq_bind, Option.bind_some]
  have outside (p : Nat) (hp : p ∈ c.runner.nodes) : p ≠ node ∧ p ∉ addresses l := by
    refine ⟨?_, h.apart p hp⟩
    rintro rfl
    exact fresh.2 hp
  refine ⟨_, run, l ++ [(node, jb)], ?_⟩
  exact {
    sz := congrArg (· + 1) h.sz
    shouldStop := h.shouldStop
    cb := h.cb
    stats := by
      simp only [JobQueue.push, h.stats, h.sz]
    accumulated := h.accumulated
    freed := h.freed
    destroyed := h.destroyed
    runner := h.runner.frame fun p hp => by
      have own : p ∉ addresses [(node, jb)] := fun there =>
        (outside p hp).1 (List.mem_singleton.mp there)
      exact (frame p (outside p hp).2 own).trans (other p (outside p hp).1)
    holds := iff.mpr (.inr (Nat.le_refl 1))
    first := by
      show q = _
      rw [at_q, h.first]
      cases l <;> rfl
    jobs := by
      rw [List.map_append, h.jobs]
      rfl
    nodes := fun p => by
      show (heap.node p).isSome ↔ p ∈ addresses (l ++ [(node, jb)]) ++ c.runner.nodes
      rw [there, addresses, List.map_append]
      by_cases same : p = node
      · subst same
        rw [new]
        simp
      · rw [other p same, h.nodes p]
        simp [addresses, same]
    apart := fun p hp there => by
      rw [addresses, List.map_append, List.mem_append] at there
      rcases there with mine | own
      · exact (outside p hp).2 mine
      · exact (outside p hp).1 (List.mem_singleton.mp own) }

/-- The first node is taken out of the list, and stays in memory. -/
theorem LinkedQueue.Is.take {jb : α} {rest : List α} (h : c.Is s l) (waits : c.runner = .waiting)
    (queued : s.q = jb :: rest) : ∃ c', c.take = some c' ∧ c'.Refines (s.take jb rest) := by
  obtain ⟨⟨p, v⟩, b, rfl⟩ : ∃ n b, l = n :: b := by
    cases l with
    | nil => exact absurd (h.jobs.trans queued) (by simp)
    | cons n b => exact ⟨n, b, rfl⟩
  have jobs := h.jobs
  rw [queued, List.map_cons, List.cons.injEq] at jobs
  obtain ⟨rfl, jobs⟩ := jobs
  have at_first : c.q = some p := h.first
  have found := Sglib.DlList.getFirst_eq h.holds
  have once := h.holds.linked.nodup
  have notIn : p ∉ addresses b := (List.nodup_cons.mp once).1
  have here := h.holds.linked.1
  obtain ⟨heap, q, deleted, holds, there, frame, next⟩ :=
    Sglib.DlList.delete_spec (a := []) h.holds
  have run : c.take =
      some { c with heap, q, sz := c.sz - 1, runner := .running p } := by
    simp only [LinkedQueue.take, found, List.head?_cons, Option.map_some, Option.bind_eq_bind,
      Option.bind_some, deleted]
  refine ⟨_, run, b, ?_⟩
  exact {
    sz := congrArg (· - 1) h.sz
    shouldStop := h.shouldStop
    cb := h.cb
    stats := h.stats
    accumulated := h.accumulated
    freed := h.freed
    destroyed := h.destroyed
    runner := .running ((frame p notIn).trans here)
    holds := holds
    first := next rfl at_first
    jobs := jobs
    nodes := fun k => by
      show (heap.node k).isSome ↔ k ∈ addresses b ++ [p]
      rw [there, h.nodes k, waits]
      simp [addresses, LinkedRunner.nodes, or_comm]
    apart := fun k hk => by
      cases List.mem_singleton.mp hk
      exact notIn }

theorem LinkedQueue.take_eq_none (h : c.Is s l) (empty : s.q = []) : c.take = none := by
  have nothing : l = [] := List.map_eq_nil_iff.mp (h.jobs.trans empty)
  subst nothing
  have found := Sglib.DlList.getFirst_eq h.holds
  simp [LinkedQueue.take, found]

/-- The node goes with its job. -/
theorem LinkedQueue.Is.runJob {front : Nat} {jb : α} (h : c.Is s l)
    (runs : c.runner = .running front) (job : s.runner = .running jb) (micros : Nat) :
    ∃ c', c.runJob front micros = some c' ∧ c'.Refines (s.ranJob jb micros) := by
  have is := h.runner
  rw [runs, job] at is
  cases is with
  | @running _ n here =>
  have notIn : front ∉ addresses l := h.apart front (by rw [runs]; exact List.mem_singleton_self _)
  have run : c.runJob front micros = some { c with
      heap := c.heap.free front
      accumulatedMicroseconds := c.accumulatedMicroseconds + micros
      runner := .counting micros
      destroyed := c.destroyed ++ [n.value] } := by
    simp only [LinkedQueue.runJob, here, Option.bind_eq_bind, Option.bind_some]
  refine ⟨_, run, l, ?_⟩
  exact {
    sz := h.sz
    shouldStop := h.shouldStop
    cb := h.cb
    stats := h.stats
    accumulated := congrArg (· + micros) h.accumulated
    freed := h.freed
    destroyed := congrArg (· ++ [n.value]) h.destroyed
    runner := .counting micros
    holds := h.holds.frame fun p hp => node_free_of_ne fun same => notIn (same ▸ hp)
    first := h.first
    jobs := h.jobs
    nodes := fun p => by
      show ((c.heap.free front).node p).isSome ↔ p ∈ addresses l ++ []
      by_cases gone : p = front
      · subst gone
        simp [Heap.free, notIn]
      · rw [node_free_of_ne gone, h.nodes p, runs]
        simp [LinkedRunner.nodes, gone]
    apart := fun p hp => absurd hp List.not_mem_nil }

/-- No node is left behind. -/
theorem LinkedQueue.Is.free (h : c.Is s l) (ended : c.runner = .ended) : ∃ c', c.free = some c' ∧
    c'.Refines { s with freed := true, destroyed := s.destroyed ++ s.q, q := [] } := by
  have all : ∃ heap, Sglib.DlList.freeAll c.heap c.q = some (heap, l.map Prod.snd) ∧
      Freed c.heap heap l := by
    cases l with
    | nil =>
      have null : c.q = none := h.first
      refine ⟨c.heap, ?_, fun p => (if_neg List.not_mem_nil).symm⟩
      rw [null]
      exact Sglib.DlList.freeAll_nil _
    | cons n b =>
      have start : c.q = some n.1 := h.first
      have holds := h.holds
      rw [start] at holds ⊢
      exact Sglib.DlList.freeAll_spec (a := []) holds
  obtain ⟨heap, run, freed⟩ := all
  refine ⟨{ c with heap, freed := true, destroyed := c.destroyed ++ l.map Prod.snd, q := none }, ?_,
    [], ?_⟩
  · simp only [LinkedQueue.free, run, Option.bind_eq_bind, Option.bind_some]
  · have left := h.runner
    rw [ended] at left
    exact {
      sz := h.sz
      shouldStop := h.shouldStop
      cb := h.cb
      stats := h.stats
      accumulated := h.accumulated
      freed := rfl
      destroyed := by
        show c.destroyed ++ l.map Prod.snd = s.destroyed ++ s.q
        rw [h.destroyed, h.jobs]
      runner := by
        show RunnerIs heap c.runner s.runner
        rw [ended]
        exact left.frame fun p hp => absurd hp List.not_mem_nil
      holds := holds_nil _
      first := rfl
      jobs := rfl
      nodes := fun p => by
        show (heap.node p).isSome ↔ p ∈ [] ++ c.runner.nodes
        have only := h.nodes p
        rw [freed p, ended]
        rw [ended, LinkedRunner.nodes, List.append_nil] at only
        by_cases mine : p ∈ addresses l
        · simp [mine, LinkedRunner.nodes]
        · rw [if_neg mine, only]
          simp [mine, LinkedRunner.nodes]
      apart := fun p _ => List.not_mem_nil }

theorem LinkedQueue.Is.runner_waiting (h : c.Is s l) (waits : c.runner = .waiting) :
    s.runner = .waiting := by
  have is := h.runner
  rw [waits] at is
  generalize s.runner = runner at is
  cases is
  rfl

theorem LinkedQueue.Is.runner_running {front : Nat} (h : c.Is s l)
    (runs : c.runner = .running front) : ∃ jb, s.runner = .running jb := by
  have is := h.runner
  rw [runs] at is
  generalize s.runner = runner at is
  cases is
  exact ⟨_, rfl⟩

theorem LinkedQueue.Is.runner_counting {micros : Nat} (h : c.Is s l)
    (counts : c.runner = .counting micros) : s.runner = .counting micros := by
  have is := h.runner
  rw [counts] at is
  generalize s.runner = runner at is
  cases is
  rfl

theorem LinkedQueue.Is.runner_ended (h : c.Is s l) (ended : c.runner = .ended) :
    s.runner = .ended := by
  have is := h.runner
  rw [ended] at is
  generalize s.runner = runner at is
  cases is
  rfl

/-- The runner leaves its loop, or is back in it. -/
theorem LinkedQueue.Is.withRunner {r : LinkedRunner} {r' : QueueRunner α} (h : c.Is s l)
    (is : RunnerIs c.heap r r') (before : c.runner.nodes = []) (now : r.nodes = []) :
    ({ c with runner := r } : LinkedQueue α).Is { s with runner := r' } l :=
  { h with
    runner := is
    nodes := fun p => by rw [h.nodes p, before, now]
    apart := fun p hp => by
      rw [now] at hp
      cases hp }

theorem LinkedQueue.Is.count {micros : Nat} (h : c.Is s l) (counts : c.runner = .counting micros) :
    (c.countJob micros).Refines (s.countJob micros) := by
  have before : c.runner.nodes = [] := by rw [counts]; rfl
  refine ⟨l, { h.withRunner (.waiting) before rfl with stats := ?_ }⟩
  simp only [LinkedQueue.countJob, JobQueue.countJob, h.stats]

/-- The first critical section of the runner -/
theorem LinkedQueue.Is.nextSection (h : c.Is s l) (calloc : Calloc α) :
    Option.Rel LinkedQueue.Refines (linkedQueueNext calloc c .next) (jobQueueNext s .next) := by
  simp only [linkedQueueNext, jobQueueNext]
  cases state : c.runner with
  | waiting =>
    rw [h.runner_waiting state]
    have none' : c.runner.nodes = [] := by rw [state]; rfl
    simp only
    by_cases stop : s.shouldStop = true
    · rw [if_pos stop, if_pos (h.shouldStop.trans stop)]
      exact .some ⟨l, h.withRunner .ended none' rfl⟩
    · rw [if_neg stop, if_neg (by rwa [h.shouldStop])]
      by_cases empty : s.sz = 0
      · rw [if_pos empty, if_pos (h.sz.trans empty)]
        cases set : s.cb with
        | none =>
          rw [if_neg (by rw [h.cb, set]; exact Bool.false_ne_true)]
          exact .none
        | some registration =>
          rw [if_pos (by rw [h.cb, set]; rfl)]
          have is : RunnerIs c.heap .waiting s.runner := by
            rw [h.runner_waiting state]
            exact .waiting
          exact .some ⟨l, { h.withRunner is none' rfl with cb := rfl }⟩
      · rw [if_neg empty, if_neg (by rwa [h.sz])]
        cases queued : s.q with
        | nil =>
          rw [LinkedQueue.take_eq_none h queued]
          exact .none
        | cons jb rest =>
          obtain ⟨c', run, refines⟩ := h.take state queued
          rw [run]
          exact .some refines
  | running front =>
    obtain ⟨jb, runs⟩ := h.runner_running state
    rw [runs]
    exact .none
  | counting micros =>
    rw [h.runner_counting state]
    exact .none
  | ended =>
    rw [h.runner_ended state]
    exact .none

theorem LinkedQueue.Refines.next (refines : c.Refines s) (calloc : Calloc α)
    (e : JobQueueEvent α) :
    Option.Rel LinkedQueue.Refines (linkedQueueNext calloc c e) (jobQueueNext s e) := by
  obtain ⟨l, h⟩ := refines
  cases e with
  | push jb =>
    simp only [linkedQueueNext, jobQueueNext]
    by_cases gone : s.freed = true
    · rw [if_pos gone, if_pos (h.freed.trans gone)]
      exact .none
    · rw [if_neg gone, if_neg (by rwa [h.freed])]
      obtain ⟨c', run, refines⟩ := h.push calloc jb
      rw [run]
      exact .some refines
  | setEmptyCallback set =>
    simp only [linkedQueueNext, jobQueueNext]
    by_cases gone : s.freed = true
    · rw [if_pos gone, if_pos (h.freed.trans gone)]
      exact .none
    · rw [if_neg gone, if_neg (by rwa [h.freed])]
      refine .some ⟨l, { h with cb := ?_ }⟩
      cases set <;> rfl
  | next => exact h.nextSection calloc
  | runJob micros =>
    simp only [linkedQueueNext, jobQueueNext]
    cases state : c.runner with
    | waiting =>
      rw [h.runner_waiting state]
      exact .none
    | running front =>
      obtain ⟨jb, runs⟩ := h.runner_running state
      obtain ⟨c', run, refines⟩ := h.runJob state runs micros
      rw [runs]
      simp only [run]
      exact .some refines
    | counting micros =>
      rw [h.runner_counting state]
      exact .none
    | ended =>
      rw [h.runner_ended state]
      exact .none
  | count =>
    simp only [linkedQueueNext, jobQueueNext]
    cases state : c.runner with
    | waiting =>
      rw [h.runner_waiting state]
      exact .none
    | running front =>
      obtain ⟨jb, runs⟩ := h.runner_running state
      rw [runs]
      exact .none
    | counting micros =>
      rw [h.runner_counting state]
      exact .some (h.count state)
    | ended =>
      rw [h.runner_ended state]
      exact .none
  | stop =>
    simp only [linkedQueueNext, jobQueueNext]
    by_cases gone : s.freed = true
    · rw [if_pos gone, if_pos (h.freed.trans gone)]
      exact .none
    · rw [if_neg gone, if_neg (by rwa [h.freed])]
      exact .some ⟨l, { h with shouldStop := rfl }⟩
  | free =>
    simp only [linkedQueueNext, jobQueueNext]
    cases state : c.runner with
    | waiting =>
      rw [h.runner_waiting state]
      exact .none
    | running front =>
      obtain ⟨jb, runs⟩ := h.runner_running state
      rw [runs]
      exact .none
    | counting micros =>
      rw [h.runner_counting state]
      exact .none
    | ended =>
      rw [h.runner_ended state]
      simp only
      by_cases gone : s.freed = true
      · rw [if_pos gone, if_pos (h.freed.trans gone)]
        exact .none
      · rw [if_neg gone, if_neg (by rwa [h.freed])]
        obtain ⟨c', run, refines⟩ := h.free state
        rw [h.runner_ended state] at refines
        rw [run]
        exact .some refines

end

/-- **The list in memory is the queue.** Over any order of the threads' steps the nodes hold the
queue: no node is read that is not there, the list can go on exactly where the queue can, and no
node is in memory but those of the queue and the one whose job is run. -/
theorem linked_queue_refines (calloc : Calloc α) (events : List (JobQueueEvent α)) :
    Option.Rel LinkedQueue.Refines ((linkedQueueMachine calloc).after createLinkedQueue events)
      ((jobQueueMachine α).after createJobQueue events) :=
  Machine.rel_after (fun _ _ e refines => refines.next calloc e) createLinkedQueue_refines events

end Yella
