import Yella.Lib.Handover
import Yella.Router.Model

/-!
# Who frees the data of a part

A buffer is the number of its part. `send_transient_router_message` gives each one to ZeroMQ,
which frees it with `zmq_free`; where a message is pushed to the spool, `send_router_message`
frees them itself.
-/

namespace Yella

open Handover (Call ReleasedOnce releases releasedOnce_iff)

/-- The loop of `send_transient_router_message` from the `i`-th part on, `n` parts from the
end. -/
def transientCalls (failing : Option Nat) : Nat → Nat → List (Call Nat)
  | _, 0 => []
  | i, n + 1 =>
    .wrap i ::
      if failing = some i then [.close i] else .handOver i :: transientCalls failing (i + 1) n

/-- `for (i = 0; i < count; i++) free(msgs[i].data);` -/
def freeParts (count : Nat) : List (Call Nat) := (List.range count).map .free

/-- The ways on which the data of a message is given away. -/
inductive SendPath where
  /-- `send_router_message` with the state that it has read. A push returns `pushed`, which only
  becomes the result. -/
  | router (s : Router) (curSt : RouterState) (pushed : Rc)
  /-- `send_transient_router_message`, called by itself. -/
  | transient
  /-- The thread of `spool_main` with a message that it has popped. -/
  | spoolMain

namespace SendPath

def calls (failing : Option Nat) (count : Nat) : SendPath → List (Call Nat)
  | router s curSt _ =>
    if s.spools curSt then freeParts count else transientCalls failing 0 count
  | transient => transientCalls failing 0 count
  | spoolMain => transientCalls failing 0 count ++ freeParts count

/-- No part comes after one whose send fails. -/
def FailsLast (failing : Option Nat) (count : Nat) : Prop := ∀ i ∈ failing, count ≤ i + 1

/-- The way that is taken gives every buffer away once. -/
def GivesAway (failing : Option Nat) (count : Nat) : SendPath → Prop
  | router s curSt _ => s.spools curSt = true ∨ FailsLast failing count
  | transient => FailsLast failing count
  | spoolMain => False

end SendPath

/-- What ZeroMQ gets are the parts that `send_transient_router_message` has sent. -/
theorem handedOver_transientCalls (failing : Option Nat) (msgs : List Bytes) (i : Nat) :
    Handover.handedOver (transientCalls (failing.map (· + i)) i msgs.length) =
      List.range' i (sendTransientRouterMessage failing msgs).1.length := by
  induction msgs generalizing failing i with
  | nil =>
    cases failing with
    | none => rfl
    | some k => cases k <;> rfl
  | cons msg msgs ih =>
    cases failing with
    | none =>
      have := ih none (i + 1)
      simp only [Option.map_none] at this
      simp [transientCalls, Handover.handedOver, sendTransientRouterMessage, this,
        List.range'_succ]
    | some k =>
      cases k with
      | zero =>
        simp [transientCalls, Handover.handedOver, sendTransientRouterMessage]
      | succ k =>
        have := ih (some k) (i + 1)
        simp only [Option.map_some] at this
        have later : k + (i + 1) ≠ i := by omega
        simp [transientCalls, Handover.handedOver, sendTransientRouterMessage, later,
          List.range'_succ, show k + 1 + i = k + (i + 1) by omega, this]

section
variable {failing : Option Nat} {count : Nat}

/-- From `i` on, each part is given away once until a send fails. -/
theorem releases_transientCalls (b i n : Nat) :
    releases b false (transientCalls failing i n) =
      if i ≤ b ∧ b < i + n ∧ ∀ k ∈ failing, i ≤ k → b ≤ k then 1 else 0 := by
  induction n generalizing i with
  | zero =>
    rw [if_neg (by omega)]
    rfl
  | succ n ih =>
    by_cases fails : failing = some i
    · subst fails
      simp only [transientCalls, if_true, releases, Option.mem_some_iff, forall_eq', Nat.le_refl,
        forall_const]
      by_cases same : i = b
      · simp [same]
      · simp only [same, if_false, false_and]
        rw [if_neg (by omega)]
    · have elsewhere : ∀ k ∈ failing, k ≠ i := by
        rintro k hk rfl
        exact fails hk
      by_cases same : i = b
      · subst same
        have behind : releases i false (transientCalls failing (i + 1) n) = 0 := by
          rw [ih, if_neg (by omega)]
        rw [if_pos ⟨Nat.le_refl i, by omega, fun _ _ h => h⟩]
        simp [transientCalls, releases, fails, behind]
      · have further : (i + 1 ≤ b ∧ b < i + 1 + n ∧ ∀ k ∈ failing, i + 1 ≤ k → b ≤ k) ↔
            (i ≤ b ∧ b < i + (n + 1) ∧ ∀ k ∈ failing, i ≤ k → b ≤ k) := by
          constructor
          · rintro ⟨from', before, ends⟩
            refine ⟨by omega, by omega, fun k hk later => ends k hk ?_⟩
            have := elsewhere k hk
            omega
          · rintro ⟨from', before, ends⟩
            exact ⟨by omega, by omega, fun k hk later => ends k hk (by omega)⟩
        simp only [transientCalls, fails, if_false, releases, same, false_and, ih, further]

theorem releases_freeParts {b : Nat} (program : List (Call Nat)) (h : b < count) :
    releases b false (program ++ freeParts count) = releases b false program + 1 := by
  rw [freeParts, Handover.releases_append_free, List.nodup_range.count, if_pos]
  exact List.mem_range.mpr h

/-- The loop gives away what comes before the end and before a failure. -/
theorem transientCalls_once {b : Nat} (h : b < count) :
    releases b false (transientCalls failing 0 count) = 1 ↔ ∀ k ∈ failing, b ≤ k := by
  rw [releases_transientCalls]
  split
  · rename_i sent
    simpa using fun k hk => sent.2.2 k hk (Nat.zero_le k)
  · rename_i notSent
    simp only [Nat.zero_ne_one, false_iff]
    intro sent
    exact notSent ⟨Nat.zero_le b, by omega, fun k hk _ => sent k hk⟩

theorem transientCalls_all_once :
    (∀ b < count, releases b false (transientCalls failing 0 count) = 1) ↔
      SendPath.FailsLast failing count := by
  constructor
  · intro once k hk
    by_contra early
    have := (transientCalls_once (by omega)).mp (once (k + 1) (by omega)) k hk
    omega
  · intro last b hb
    apply (transientCalls_once hb).mpr
    intro k hk
    have := last k hk
    omega

/-- Every part of a message is released once, whenever ZeroMQ does it, if and only if the way it
takes gives every buffer away once. -/
theorem parts_released_once_iff (path : SendPath) (msgs : List Bytes) (some : msgs ≠ []) :
    (∀ b < msgs.length, ReleasedOnce (path.calls failing msgs.length) b) ↔
      path.GivesAway failing msgs.length := by
  have positive := List.length_pos_iff.mpr some
  simp only [releasedOnce_iff]
  cases path with
  | router s curSt pushed =>
    by_cases spools : s.spools curSt = true
    · simp only [SendPath.calls, SendPath.GivesAway, spools, if_true, true_or, iff_true]
      intro b hb
      exact releases_freeParts [] hb
    · simp only [SendPath.calls, SendPath.GivesAway, spools, Bool.false_eq_true, if_false,
        false_or]
      exact transientCalls_all_once
  | transient => exact transientCalls_all_once
  | spoolMain =>
    -- the first part is sent or closed, and freed as well
    refine iff_of_false (fun once => ?_) id
    have twice := once 0 positive
    rw [SendPath.calls, releases_freeParts _ positive,
      (transientCalls_once positive).mpr fun k _ => Nat.zero_le k] at twice
    cases twice

end

/-- A part that cannot be sent is closed; if it is the last one, all are released. -/
theorem parts_released_once_lastFails :
    (∀ b < 2, ReleasedOnce (SendPath.transient.calls (some 1) 2) b) ∧
      SendPath.transient.GivesAway (some 1) 2 :=
  have last : SendPath.transient.GivesAway (some 1) 2 := by
    rintro i ⟨⟩
    exact Nat.le_refl 2
  ⟨(parts_released_once_iff .transient [[1], [2]] (by decide)).mpr last, last⟩

/-- The second of two parts is not released if the first one is not sent. The thread of
`spool_main` frees a part that ZeroMQ reads afterwards and frees again. -/
theorem parts_leaked_and_freed_twice :
    (∃ events h, (Handover.machine (SendPath.transient.calls (some 0) 2)).Run Machine.Any
      events h ∧ h.Finished ∧ h.released 1 = 0) ∧
    (∃ events h, (Handover.machine (SendPath.spoolMain.calls none 2)).Run Machine.Any
      events h ∧ h.Finished ∧ h.released 0 = 2 ∧ h.dangling 0 = true) ∧
    ¬ ∀ (path : SendPath) failing (msgs : List Bytes), msgs ≠ [] →
      ∀ b < msgs.length, ReleasedOnce (path.calls failing msgs.length) b := by
  refine ⟨?_, ?_, fun all => ?_⟩
  · exact ⟨[.call, .call], _, Machine.reached_of_after rfl rfl, ⟨rfl, fun _ => rfl⟩, rfl⟩
  · refine ⟨[.call, .call, .call, .call, .call, .call, .read 0, .finish 0, .finish 1], _,
      Machine.reached_of_after rfl rfl, ⟨rfl, fun b => ?_⟩, rfl, rfl⟩
    rcases b with _ | _ | b <;> rfl
  · have := releasedOnce_iff.mp (all .transient (some 0) [[1], [2]] (by decide) 1 (by decide))
    cases this

end Yella
