import Yella.Spool.Fifo

/-!
# Events that are passed over

In one session the events come back once each and in order, except for those whose partition
was culled.
-/

namespace Yella

/-- A push of an event of at most `maxMsgCount` parts or a pop, without a failure. -/
def SessionCall : SpoolOp → Prop
  | .push msgs allow => msgs.length ≤ maxMsgCount ∧ allow = .full
  | .pop _ => True
  | .restart _ => False

/-- The event has parts, the lengths of which fit into 32 bits, and the sequence number of its
partition does not overflow. -/
def StoredWhole (sp : Spool) : SpoolOp → Prop
  | .push msgs _ => 0 < msgs.length ∧ (∀ part ∈ msgs, part.length < 0x100000000) ∧ sp.RollFits
  | _ => True

def SessionAllowed (sp : Spool) (op : SpoolOp) : Prop := SessionCall op ∧ StoredWhole sp op

instance (op : SpoolOp) : Decidable (SessionCall op) :=
  match op with
  | .push _ _ => inferInstanceAs (Decidable (_ ∧ _))
  | .pop _ => .isTrue trivial
  | .restart _ => .isFalse id

instance (sp : Spool) (op : SpoolOp) : Decidable (StoredWhole sp op) :=
  match op with
  | .push msgs _ => inferInstanceAs
      (Decidable (0 < msgs.length ∧ (∀ part ∈ msgs, part.length < 0x100000000) ∧ sp.RollFits))
  | .pop _ => .isTrue trivial
  | .restart _ => .isTrue trivial

instance (sp : Spool) (op : SpoolOp) : Decidable (SessionAllowed sp op) :=
  inferInstanceAs (Decidable (_ ∧ _))

namespace Layout

/-- The reader has not been at the end of what is written, and every partition after its own
has events, none of which has been visited. -/
structure Session (L : Layout) : Prop where
  eof : L.eof = false
  tornRead : L.tornRead = false
  whole : L.Whole
  unvisited : ∀ s ∈ L.all, ∀ r ∈ s.todo, r.visited = false
  filled : ∀ s ∈ L.rest, s.todo ≠ []

section
variable {L L' : Layout}

theorem Session.notStale (S : L.Session) : L.NotStale :=
  fun hEof => absurd (S.eof.symm.trans hEof) (by decide)

theorem Session.leave (S : L.Session) (h : L.leave = some L') :
    L'.Session ∧ L'.cur.todo ≠ [] := by
  obtain ⟨hrest, hall, _, _, htorn, heof, _⟩ := leave_eq h
  have filled := S.filled
  rw [hrest, List.forall_mem_cons] at filled
  refine ⟨⟨heof, htorn, (reads_leave h).whole S.whole, fun s hs => ?_, filled.2⟩, filled.1⟩
  exact S.unvisited s (hall ▸ List.mem_cons_of_mem _ hs)

theorem Session.take (S : L.Session) {r : Record} {todo : List Record}
    (h : L.cur.todo = r :: todo) : L.take.Session := by
  obtain ⟨_, ht, _⟩ := Segment.take_of_todo h
  refine ⟨S.eof, S.tornRead, reads_take.whole S.whole, fun s hs => ?_, S.filled⟩
  obtain rfl | hs := List.mem_cons.mp hs
  · intro q hq
    rw [show L.take.cur.todo = todo from ht] at hq
    exact S.unvisited _ cur_mem_all q (h ▸ List.mem_cons_of_mem _ hq)
  · exact S.unvisited s (List.mem_cons_of_mem _ hs)

/-- At the end of its partition the reader goes on to an event. -/
theorem Session.advance (S : L.Session) (ahead : L.compare > 0) {a : Nat × Layout}
    (h : Loop.Ends round L a) : a.2.Session ∧ a.2.AtUnread ∧ 0 < a.1 := by
  refine h.invariant (fun M => M.Session ∧ (M.compare > 0 ∨ M.cur.todo ≠ []))
    (fun a => a.2.Session ∧ a.2.AtUnread ∧ 0 < a.1) ⟨S, .inl ahead⟩ ?_ ?_
  · rintro M N ⟨S, _⟩ hround
    obtain ⟨_, _, hleave⟩ | ⟨_, _, r, todo, htodo, hv⟩ := round_next hround
    · obtain ⟨S', more⟩ := S.leave hleave
      exact ⟨S', .inr more⟩
    · have := S.unvisited _ cur_mem_all r (by simp [htodo])
      exact absurd (this.symm.trans hv) (by decide)
  · rintro M ⟨n, N⟩ ⟨S, more⟩ hround
    obtain ⟨hEnd, behind, _, _⟩ | ⟨hat, rfl, rfl⟩ := round_last hround
    · have todo := (S.notStale.at_end hEnd).1
      obtain more | more := more
      · exact absurd more behind
      · exact absurd todo more
    · exact ⟨S, hat, count_pos hat.1⟩

theorem Session.pop (S : L.Session) {rounds : Nat} {a : Layout × Rc × List Bytes}
    (h : L.pop rounds = some a) : a.1.Session := by
  unfold Layout.pop at h
  split at h
  · rename_i ahead
    obtain ⟨⟨n, M⟩, hrun, rfl⟩ := Option.map_eq_some_iff.mp h
    obtain ⟨S', hat, hn⟩ := S.advance ahead ⟨rounds, hrun⟩
    simp only at S' hat hn
    simp only [if_pos hn, readEvent]
    cases htodo : M.cur.todo with
    | nil =>
      have torn := (Represents.readOff_torn hat.1 htodo).1
      exact absurd (S'.whole _ cur_mem_all) torn
    | cons r todo => exact S'.take htodo
  · cases h
    exact S

theorem Session.add (S : L.Session) {r : Record} (unread : r.visited = false) :
    (L.add r).Session := by
  have keeps : Keeps (Segment.add r) L.writer := ⟨rfl, rfl, rfl⟩
  obtain ⟨htorn, heof, _⟩ := @mapWriter_other L (Segment.add r)
  obtain ⟨⟨before, hall, hall'⟩, _⟩ := @mapWriter_eq L (Segment.add r)
  have members : ∀ s ∈ (L.add r).all, s ∈ L.all ∨ s = Segment.add r L.writer := by
    intro s hs
    have hs : s ∈ before ++ [Segment.add r L.writer] := hall' ▸ hs
    obtain hs | hs := List.mem_append.mp hs
    · exact .inl (hall ▸ List.mem_append_left _ hs)
    · exact .inr (List.mem_singleton.mp hs)
  refine ⟨heof.trans S.eof, htorn.trans S.tornRead, fun s hs => ?_, fun s hs => ?_,
    fun s hs => ?_⟩
  · obtain hs | rfl := members s hs
    · exact S.whole s hs
    · exact S.whole L.writer L.writer_mem_all
  · obtain hs | rfl := members s hs
    · exact S.unvisited s hs
    · intro q hq
      obtain hq | hq := List.mem_append.mp hq
      · exact S.unvisited _ L.writer_mem_all q hq
      · rw [List.mem_singleton.mp hq]
        exact unread
  · obtain hs | ⟨rfl, _⟩ := mapWriter_rest hs
    · exact S.filled s hs
    · simp [Segment.add]

/-- The new partition gets its event at once. -/
theorem Session.roll_add (S : L.Session) {r : Record} (unread : r.visited = false) :
    (L.roll.add r).Session := by
  let new := Segment.add r (Segment.create L.nextPos L.next)
  have rest : (L.roll.add r).rest = L.rest ++ [new] := by
    simp [Layout.add, mapWriter, roll, new]
  have members : ∀ s ∈ (L.roll.add r).all, s ∈ L.all ∨ s = new := by
    intro s hs
    have hs : s ∈ L.cur :: (L.rest ++ [new]) := by
      simpa [Layout.add, mapWriter, roll, all, segs, new] using hs
    obtain rfl | hs := List.mem_cons.mp hs
    · exact .inl cur_mem_all
    · obtain hs | hs := List.mem_append.mp hs
      · exact .inl (mem_all_of_rest hs)
      · exact .inr (List.mem_singleton.mp hs)
  have same : (L.roll.add r).eof = L.eof ∧ (L.roll.add r).tornRead = L.tornRead := by
    obtain ⟨htorn, heof, _⟩ := @mapWriter_other L.roll (Segment.add r)
    exact ⟨heof, htorn⟩
  refine ⟨same.1.trans S.eof, same.2.trans S.tornRead, fun s hs => ?_, fun s hs => ?_,
    fun s hs => ?_⟩
  · obtain hs | rfl := members s hs
    · exact S.whole s hs
    · rfl
  · obtain hs | rfl := members s hs
    · exact S.unvisited s hs
    · intro q hq
      rw [List.mem_singleton.mp hq]
      exact unread
  · rw [rest] at hs
    obtain hs | hs := List.mem_append.mp hs
    · exact S.filled s hs
    · rw [List.mem_singleton.mp hs]
      exact List.cons_ne_nil _ _

theorem Session.push (S : L.Session) {r : Record} (unread : r.visited = false)
    {culled : Option SpoolPos} (h : L.push r = some (L', culled)) : L'.Session := by
  have added : (L.ready.add r).Session := by
    unfold ready
    split
    · exact S.roll_add unread
    · exact S.add unread
  unfold Layout.push at h
  simp only at h
  split at h
  · obtain ⟨⟨M, pos⟩, hcull, hM⟩ := Option.map_eq_some_iff.mp h
    cases hM
    obtain ⟨s, hrest, _, hL'⟩ := cull_some hcull
    obtain ⟨sub, _⟩ := cull_all hcull
    have same : M.eof = (L.ready.add r).eof ∧ M.tornRead = (L.ready.add r).tornRead := by
      rw [hL']
      exact ⟨rfl, rfl⟩
    refine ⟨same.1.trans added.eof, same.2.trans added.tornRead,
      fun t ht => added.whole t (sub.subset ht), fun t ht => added.unvisited t (sub.subset ht),
      fun t ht => added.filled t (hrest ▸ List.mem_cons_of_mem _ ht)⟩
  · cases h
    exact added

end

end Layout

/-! ## Runs -/

/-- The events of a session are accounted for. -/
structure InSession (trace : SpoolTrace) (L : Layout) : Prop where
  account : ∃ taken, Accounted trace L taken
  session : L.Session
  pushes : pushes trace = storedEvents trace

section
variable {lo : ListingOrder} {trace : SpoolTrace} {sp : Spool}

theorem session_run (run : SpoolRun lo SessionAllowed trace sp) :
    ∃ L, Represents L sp ∧ L.Valid ∧ InSession trace L := by
  refine run_invariant InSession ?_ ?_ ?_ run
  · intro settings next
    refine ⟨⟨[], .start settings next⟩, ⟨rfl, rfl, Layout.opened_whole settings next, ?_, ?_⟩, rfl⟩
    · intro s hs
      rw [Layout.opened_all] at hs
      rw [List.mem_singleton.mp hs]
      exact fun r hr => nomatch hr
    · exact fun s hs => nomatch hs
  · intro trace sp L op R V inv allowed
    cases op with
    | push msgs allow =>
      obtain ⟨⟨few, rfl⟩, some, _, fits⟩ := allowed
      exact push_fits R inv.session.whole (wellFormed_stored some few) fits
    | pop signaled => trivial
    | restart settings => exact allowed.1.elim
  · intro trace sp L op out L' R V inv allowed step V'
    obtain ⟨⟨taken, account⟩, session, hpushes⟩ := inv
    have full : ∀ msgs allow, op = .push msgs allow → allow = .full ∧ storedParts msgs = msgs := by
      rintro msgs allow rfl
      obtain ⟨⟨few, hfull⟩, some, small, _⟩ := allowed
      exact ⟨hfull, storedParts_of_wellFormed ⟨some, few, small⟩⟩
    refine ⟨account.step (fun _ _ => session.notStale) step, ?_, pushes_step step full hpushes⟩
    cases step with
    | push wf _ _ h => exact session.push rfl h
    | tear _ _ short => exact absurd (full _ _ rfl).1 short
    | pop h => exact session.pop h
    | restart => exact allowed.1.elim

/-- The events that were returned are among those that were pushed, in their order and each
once; one that was passed over was in a partition that had been culled. -/
theorem passed_over_culled (run : SpoolRun lo SessionAllowed trace sp) :
    ∃ taken : List Nat, taken.Pairwise (· < ·) ∧
      (poppedEvents trace).map some = taken.map (fun i => (pushes trace)[i]?) ∧
      ∀ i, i ∉ taken → (∃ j ∈ taken, i < j) →
        ∃ name ∈ culledFiles trace, (pushedFiles trace)[i]? = some (some name) := by
  obtain ⟨L, _, _, inv⟩ := session_run run
  obtain ⟨taken, account⟩ := inv.account
  rw [inv.pushes]
  refine ⟨taken, (List.pairwise_append.mp account.order).1, account.popped, ?_⟩
  rintro i hi ⟨j, hj, hij⟩
  obtain h | h | h := account.all i (Nat.lt_trans hij (account.taken_lt hj))
  · exact absurd h hi
  · have := (List.pairwise_append.mp account.order).2.2 j hj i h
    exact absurd hij (Nat.lt_asymm this)
  · exact h

end

/-! ## Culls while the reader is in the first partition -/

theorem second_passed_over : ∃ trace sp, SpoolRun inCreationOrder SessionAllowed trace sp ∧
    pushes trace = [[[1]], [[2]], [[3]]] ∧ poppedEvents trace = [[[1]], [[3]]] ∧
    ∃ taken : List Nat, taken.Pairwise (· < ·) ∧
      (poppedEvents trace).map some = taken.map (fun i => (pushes trace)[i]?) ∧
      ∀ i, i ∉ taken → (∃ j ∈ taken, i < j) →
        ∃ name ∈ culledFiles trace, (pushedFiles trace)[i]? = some (some name) := by
  obtain ⟨trace, sp, run, h⟩ := @exists_run inCreationOrder 9 SessionAllowed _ ⟨15, 3⟩
    [.push [[1]] .full, .push [[2]] .full, .push [[3]] .full, .pop false, .pop false]
    (fun _ trace => pushes trace = [[[1]], [[2]], [[3]]] ∧ poppedEvents trace = [[[1]], [[3]]])
    (by decide +kernel)
  obtain ⟨hpushes, hpopped⟩ := of_decide_eq_true h
  exact ⟨trace, sp, run, hpushes, hpopped, passed_over_culled run⟩

/-- Of a part whose length is a multiple of 2^32 nothing is written. -/
theorem large_part_emptied {n : Nat} (some : 0 < n) (large : n % 0x100000000 = 0) :
    ∃ trace sp, SpoolRun inCreationOrder (fun _ => SessionCall) trace sp ∧
      pushes trace = [[List.replicate n 0]] ∧ ¬ (poppedEvents trace).Sublist (pushes trace) := by
  have stored : storedParts [List.replicate n 0] = [[]] := by simp [storedParts, large]
  obtain ⟨a, h, hpopped⟩ := (Option.any_eq_true _ _).mp
    (show ((createSpool inCreationOrder tenPartitions Disk.empty 0).join.bind fun sp =>
        (spoolPush inCreationOrder sp .full [[]]).bind fun a =>
          spoolPop inCreationOrder 9 false a.1).any
      (fun a => a.2.1 = .noError ∧ a.2.2 = [[]]) = true by decide +kernel)
  obtain ⟨sp, hcreate, h⟩ := Option.bind_eq_some_iff.mp h
  obtain ⟨⟨sq, rc, culled⟩, hpush, hpop⟩ := Option.bind_eq_some_iff.mp h
  obtain ⟨sr, rc', parts⟩ := a
  obtain ⟨rfl, rfl⟩ := of_decide_eq_true hpopped
  rw [← stored, spoolPush_stored] at hpush
  have call : SessionCall (.push [List.replicate n 0] .full) :=
    ⟨Nat.one_le_of_lt (by decide : 0 < maxMsgCount), rfl⟩
  have read : SessionCall (.pop false) := trivial
  refine ⟨_, sr, .next (.next (.create rfl (Option.join_eq_some_iff.mp hcreate))
    call (.push hpush)) read (.pop hpop), rfl, fun sub => ?_⟩
  have hmem : [[]] ∈ [[List.replicate n (0 : UInt8)]] := sub.subset (List.mem_singleton.mpr rfl)
  have hnil := congrArg List.length (List.cons.inj (List.mem_singleton.mp hmem)).1
  rw [List.length_replicate, List.length_nil] at hnil
  omega

/-- A part of 4 GiB comes back empty. -/
theorem large_event_emptied : ∃ trace sp,
    SpoolRun inCreationOrder (fun _ => SessionCall) trace sp ∧
      pushes trace = [[List.replicate 0x100000000 0]] ∧
      ¬ (poppedEvents trace).Sublist (pushes trace) :=
  large_part_emptied (by decide) (Nat.mod_self _)

end Yella
