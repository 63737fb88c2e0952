import Yella.Spool.Live

/-!
# What all events have in common

A property of every pushed event is one of every popped event, with culls and after a stale
end-of-file indicator too.
-/

namespace Yella

section
variable {lo : ListingOrder} {trace : SpoolTrace} {L L' : Layout} {sp : Spool}

theorem push_has {r : Record} {culled : Option SpoolPos} (h : L.push r = some (L', culled))
    {pos : SpoolPos} {id : Nat} {parts : List Bytes} (has : L'.Has pos id parts) :
    L.Has pos id parts ∨ parts = r.parts := by
  have added : (L.ready.add r).Has pos id parts := by
    unfold Layout.push at h
    simp only at h
    split at h
    · obtain ⟨⟨M, culledPos⟩, hcull, hM⟩ := Option.map_eq_some_iff.mp h
      cases hM
      obtain ⟨s, hs, rest⟩ := has
      exact ⟨s, (Layout.cull_all hcull).1.subset hs, rest⟩
    · cases h
      exact has
  rcases @Layout.mapWriter_has L.ready (Segment.add r) [r] ⟨rfl, rfl, rfl⟩ rfl pos id parts added
    with has | ⟨_, q, hq, _, hparts⟩
  · exact .inl (Layout.ready_has has)
  · rw [List.mem_singleton.mp hq] at hparts
    exact .inr hparts.symm

/-- The events of the partitions, from a step to the next. -/
theorem has_step {n : Nat} {op : SpoolOp} {out : SpoolOutcome} (h : LayoutStep n L op out L')
    {pos : SpoolPos} {id : Nat} {parts : List Bytes} (has : L'.Has pos id parts) :
    L.Has pos id parts ∨ ∃ msgs allow, op = .push msgs allow ∧ parts = storedParts msgs := by
  cases h with
  | push wf _ _ h =>
    obtain has | rfl := push_has h has
    · exact .inl has
    · exact .inr ⟨_, _, rfl, rfl⟩
  | @tear _ _ bytes _ _ torn =>
    rcases @Layout.mapWriter_has L.ready (Segment.tear bytes torn) [] ⟨rfl, rfl, rfl⟩
      (by simp [Segment.tear]) pos id parts has with has | ⟨_, q, hq, _⟩
    · exact .inl (Layout.ready_has has)
    · cases hq
  | pop h => exact .inl ((Layout.pop_reads h).has _ _ _ has)
  | restart => exact .inl (Layout.restart_has has)

/-- An allowed call, and the event of a push has the property. -/
def PushesOnly (P : List Bytes → Prop) (sp : Spool) (op : SpoolOp) : Prop :=
  LiveAllowed sp op ∧ ∀ msgs allow, op = .push msgs allow → P (storedParts msgs)

theorem popped_carried {P : List Bytes → Prop} (run : SpoolRun lo (PushesOnly P) trace sp)
    {rounds : Nat} {signaled : Bool} {sp' : Spool} {parts : List Bytes}
    (h : spoolPop lo rounds signaled sp = some (sp', .noError, parts)) : P parts := by
  obtain ⟨L, R, V, _, all⟩ := run_invariant
    (fun _ L => InUse L ∧ ∀ pos id parts, L.Has pos id parts → P parts)
    (fun settings next => ⟨⟨rfl, Layout.opened_whole settings next⟩, by
      rintro pos id parts ⟨s, hs, _, r, hr, _⟩
      rw [Layout.opened_all] at hs
      rw [List.mem_singleton.mp hs] at hr
      cases hr⟩)
    (fun _ _ _ _ R V inv allowed => inv.1.fits R V allowed.1)
    (fun _ _ _ _ _ _ R V inv allowed step _ => ⟨inv.1.step R V allowed.1 step, by
      intro pos id parts has
      obtain has | ⟨msgs, allow, rfl, rfl⟩ := has_step step has
      · exact inv.2 pos id parts has
      · exact allowed.2 msgs allow rfl⟩) run
  have step : SpoolStep lo sp (.pop signaled) (.popped .noError parts) sp' := .pop h
  have fits : L.Fits (.pop signaled) := trivial
  obtain ⟨L', step, _⟩ := step_refines R V fits step 0
  cases step with
  | pop h =>
    obtain ⟨pos, id, has⟩ := Layout.pop_has h
    exact all pos id parts has

end

end Yella
