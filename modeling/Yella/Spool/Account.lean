import Mathlib.Data.List.Sort
import Yella.Spool.Refine

/-!
# What becomes of the events

Every event that was pushed has been returned, is still unread, or was in a partition that was
culled; and the unread ones come after the returned ones, in the order of the pushes.
-/

namespace Yella

/-- `taken` are the numbers of the events that were returned. -/
structure Accounted (trace : SpoolTrace) (L : Layout) (taken : List Nat) : Prop where
  popped : (poppedEvents trace).map some = taken.map (fun i => (storedEvents trace)[i]?)
  order : (taken ++ L.unread.map Record.id).Pairwise (· < ·)
  has : ∀ pos id parts, L.Has pos id parts → (storedEvents trace)[id]? = some parts ∧
    (pushedFiles trace)[id]? = some (some (spoolFileName pos))
  all : ∀ i < (storedEvents trace).length, i ∈ taken ∨ i ∈ L.unread.map Record.id ∨
    ∃ name ∈ culledFiles trace, (pushedFiles trace)[i]? = some (some name)
  lost : ∀ w, L.lost = some w → spoolFileName w.pos ∈ culledFiles trace
  files : (pushedFiles trace).length = (storedEvents trace).length

/-! ## The operations on the events of a layout -/

namespace Layout
variable {L L' : Layout}

theorem has_of_unread {r : Record} (h : r ∈ L.unread) : ∃ pos, L.Has pos r.id r.parts := by
  obtain ⟨h, _⟩ := List.mem_filter.mp h
  obtain ⟨s, hs, hr⟩ := List.mem_flatMap.mp h
  exact ⟨s.pos, s, mem_all_of_segs hs, rfl, r, List.mem_append_right _ hr, rfl, rfl⟩

theorem ready_has {pos : SpoolPos} {id : Nat} {parts : List Bytes}
    (h : L.ready.Has pos id parts) : L.Has pos id parts := by
  unfold ready at h
  split at h
  · obtain ⟨s, hs, hpos, r, hr, hid⟩ := h
    rw [roll_all] at hs
    obtain hs | hs := List.mem_append.mp hs
    · exact ⟨s, mem_all_of_segs hs, hpos, r, hr, hid⟩
    · rw [List.mem_singleton.mp hs] at hr
      cases hr
  · exact h

theorem ready_unread : L.ready.unread = L.unread := by
  unfold ready
  split
  · simp [unread, segs, roll, Segment.create]
  · rfl

theorem ready_lost {w : Segment} (h : L.ready.lost = some w) : L.lost = some w := by
  unfold ready at h
  split at h
  · cases h
  · exact h

/-- A change of the writer's partition that only adds events. -/
theorem mapWriter_has {f : Segment → Segment} {added : List Record}
    (keeps : Keeps f L.writer) (todo : (f L.writer).todo = L.writer.todo ++ added)
    {pos : SpoolPos} {id : Nat} {parts : List Bytes} (h : (L.mapWriter f).Has pos id parts) :
    L.Has pos id parts ∨
      (pos = L.writer.pos ∧ ∃ r ∈ added, r.id = id ∧ r.parts = parts) := by
  obtain ⟨⟨before, hall, hall'⟩, _⟩ := @mapWriter_eq L f
  obtain ⟨s, hs, hpos, r, hr, hid⟩ := h
  rw [hall'] at hs
  obtain hs | hs := List.mem_append.mp hs
  · exact .inl ⟨s, hall ▸ List.mem_append_left _ hs, hpos, r, hr, hid⟩
  · rw [List.mem_singleton.mp hs] at hpos hr
    rw [keeps.done, todo, ← List.append_assoc] at hr
    obtain hr | hr := List.mem_append.mp hr
    · exact .inl ⟨L.writer, writer_mem_all, keeps.pos ▸ hpos, r, hr, hid⟩
    · exact .inr ⟨hpos.symm.trans keeps.pos, r, hr, hid⟩

theorem mapWriter_unread {f : Segment → Segment} {added : List Record}
    (todo : (f L.writer).todo = L.writer.todo ++ added) :
    (L.mapWriter f).unread =
      L.unread ++ if L.lost = none then added.filter (fun r => !r.visited) else [] := by
  obtain ⟨cur, tornRead, eof, rest, lost, next, size, parts, current⟩ := L
  cases lost with
  | some w => simp [mapWriter, unread, segs]
  | none =>
    obtain rfl | ⟨before, w, rfl⟩ := List.eq_nil_or_concat rest
    · have todo : (f cur).todo = cur.todo ++ added := todo
      simp [mapWriter, unread, segs, todo]
    · rw [List.concat_eq_append] at todo ⊢
      have todo : (f w).todo = w.todo ++ added := by simpa [writer] using todo
      simp [mapWriter, unread, segs, todo]

theorem add_writer_pos (r : Record) : (L.add r).writer.pos = L.writer.pos := by
  have : (L.add r).writer = Segment.add r L.writer := (@mapWriter_eq L (Segment.add r)).2
  rw [this]
  rfl

theorem mapWriter_lost {f : Segment → Segment} (keeps : Keeps f L.writer) {w : Segment}
    (h : (L.mapWriter f).lost = some w) : ∃ v, L.lost = some v ∧ w.pos = v.pos := by
  obtain ⟨cur, tornRead, eof, rest, lost, next, size, parts, current⟩ := L
  cases lost with
  | some v =>
    cases h
    exact ⟨v, rfl, keeps.pos⟩
  | none =>
    unfold mapWriter at h
    simp only at h
    split at h <;> cases h

theorem cull_unread {pos : SpoolPos} (h : L.cull = some (L', pos)) {r : Record}
    (hr : r ∈ L.unread) : r ∈ L'.unread ∨ L.Has pos r.id r.parts := by
  obtain ⟨s, hrest, rfl, hL'⟩ := cull_some h
  have hcur : L'.cur = L.cur := by rw [hL']
  rw [unread_eq, hrest] at hr
  rw [unread_eq, hcur]
  simp only [List.flatMap_cons, List.filter_append, List.mem_append] at hr ⊢
  obtain hr | hr | hr := hr
  · exact .inl (.inl hr)
  · refine .inr ⟨s, mem_all_of_rest (hrest ▸ List.mem_cons_self), rfl, r, ?_, rfl, rfl⟩
    exact List.mem_append_right _ (List.mem_filter.mp hr).1
  · exact .inl (.inr hr)

theorem cull_sublist {pos : SpoolPos} (h : L.cull = some (L', pos)) :
    L'.unread.Sublist L.unread := by
  obtain ⟨s, hrest, _, hL'⟩ := cull_some h
  have hcur : L'.cur = L.cur := by rw [hL']
  rw [unread_eq, unread_eq, hcur, hrest, List.flatMap_cons, List.filter_append]
  exact List.Sublist.append_left (List.sublist_append_right _ _) _

theorem kept_unread (ss : List Segment) :
    ((kept ss).flatMap Segment.todo).filter (fun r => !r.visited) =
      (ss.flatMap Segment.todo).filter (fun r => !r.visited) := by
  induction ss with
  | nil => rfl
  | cons s ss ih =>
    have done : s.done.filter (fun r => !r.visited) = [] := by simpa using s.doneVisited
    rw [List.flatMap_cons, List.filter_append, ← ih, kept, kept]
    by_cases hlen : s.content.length = headerSize
    · have : s.todo = [] := encodeAll_eq_nil (by have := s.content_length; omega)
      simp [hlen, this]
    · simp [hlen, Segment.rewind, done]

theorem restart_unread (settings : SpoolSettings) : (L.restart settings).unread = L.unread := by
  rw [unread, restart, opened_segs, List.flatMap_append, List.filter_append, kept_unread]
  simp [unread, Segment.create]

theorem restart_has {settings : SpoolSettings} {pos : SpoolPos} {id : Nat} {parts : List Bytes}
    (h : (L.restart settings).Has pos id parts) : L.Has pos id parts := by
  obtain ⟨s, hs, hpos, r, hr, hid⟩ := h
  rw [restart, opened_all] at hs
  obtain hs | hs := List.mem_append.mp hs
  · obtain ⟨t, ht, rfl⟩ := List.mem_map.mp hs
    exact ⟨t, mem_all_of_segs (List.mem_filter.mp ht).1, hpos, r, hr, hid⟩
  · rw [List.mem_singleton.mp hs] at hr
    cases hr

end Layout

/-! ## The account after a step -/

namespace Accounted
variable {trace : SpoolTrace} {L L' : Layout} {taken : List Nat}

theorem start (settings : SpoolSettings) (next : Nat) :
    Accounted [] (Layout.opened settings next []) [] where
  popped := rfl
  order := .nil
  has := by
    rintro pos id parts ⟨s, hs, _, r, hr, _⟩
    rw [Layout.opened_all] at hs
    rw [List.mem_singleton.mp hs] at hr
    cases hr
  all := fun i hi => absurd hi (Nat.not_lt_zero i)
  lost := fun w h => by cases h
  files := rfl

theorem taken_lt (A : Accounted trace L taken) {i : Nat} (h : i ∈ taken) :
    i < (storedEvents trace).length := by
  have : (storedEvents trace)[i]? ∈ (poppedEvents trace).map some := by
    rw [A.popped]
    exact List.mem_map_of_mem h
  obtain ⟨parts, _, hparts⟩ := List.mem_map.mp this
  exact (List.getElem?_eq_some_iff.mp hparts.symm).1

theorem unread_lt (A : Accounted trace L taken) {i : Nat} (h : i ∈ L.unread.map Record.id) :
    i < (storedEvents trace).length := by
  obtain ⟨r, hr, rfl⟩ := List.mem_map.mp h
  obtain ⟨pos, has⟩ := Layout.has_of_unread hr
  exact (List.getElem?_eq_some_iff.mp (A.has _ _ _ has).1).1

/-- A call without an event, and a step that does not touch what the events are. -/
theorem same (A : Accounted trace L taken) {call : SpoolOp × SpoolOutcome}
    (pushed : storedEvents [call] = []) (files : pushedFiles [call] = [])
    (popped : poppedEvents [call] = []) (culled : culledFiles [call] = [])
    (unread : L'.unread = L.unread)
    (has : ∀ pos id parts, L'.Has pos id parts → L.Has pos id parts)
    (lost : ∀ w, L'.lost = some w → ∃ v, L.lost = some v ∧ w.pos = v.pos) :
    Accounted (trace ++ [call]) L' taken := by
  have pushed : storedEvents (trace ++ [call]) = storedEvents trace := by
    rw [storedEvents_snoc, pushed, List.append_nil]
  have files : pushedFiles (trace ++ [call]) = pushedFiles trace := by
    rw [pushedFiles_snoc, files, List.append_nil]
  have popped : poppedEvents (trace ++ [call]) = poppedEvents trace := by
    rw [poppedEvents_snoc, popped, List.append_nil]
  have culled : culledFiles (trace ++ [call]) = culledFiles trace := by
    rw [culledFiles_snoc, culled, List.append_nil]
  constructor
  · rw [popped, pushed]; exact A.popped
  · rw [unread]; exact A.order
  · intro pos id parts h
    rw [pushed, files]
    exact A.has pos id parts (has pos id parts h)
  · rw [pushed, files, unread, culled]; exact A.all
  · intro w hw
    obtain ⟨v, hv, hpos⟩ := lost w hw
    rw [culled, hpos]
    exact A.lost v hv
  · rw [pushed, files]; exact A.files

/-- The event is added to the writer's partition. -/
theorem add (A : Accounted trace L taken) {msgs : List Bytes} {allow : Allowance}
    (wf : WellFormed (storedParts msgs)) :
    Accounted
      (trace ++ [(.push msgs allow,
        .pushed .noError (some (spoolFileName L.ready.writer.pos)) none)])
      (L.ready.add ⟨(storedEvents trace).length, false, storedParts msgs, wf⟩) taken := by
  let n := (storedEvents trace).length
  let r : Record := ⟨n, false, storedParts msgs, wf⟩
  let name := some (spoolFileName L.ready.writer.pos)
  have keeps : Layout.Keeps (Segment.add r) L.ready.writer := ⟨rfl, rfl, rfl⟩
  have unread : (L.ready.add r).unread =
      L.unread ++ if L.ready.lost = none then [r] else [] := by
    have := @Layout.mapWriter_unread L.ready (Segment.add r) [r] rfl
    rw [Layout.ready_unread] at this
    exact this
  have lost : ∀ w, (L.ready.add r).lost = some w → ∃ v, L.ready.lost = some v ∧ w.pos = v.pos :=
    fun w hw => Layout.mapWriter_lost keeps hw
  have pushed : storedEvents (trace ++ [(.push msgs allow, .pushed .noError name none)]) =
      storedEvents trace ++ [storedParts msgs] := storedEvents_snoc _ _
  have files : pushedFiles (trace ++ [(.push msgs allow, .pushed .noError name none)]) =
      pushedFiles trace ++ [name] := pushedFiles_snoc _ _
  have popped : poppedEvents (trace ++ [(.push msgs allow, .pushed .noError name none)]) =
      poppedEvents trace := (poppedEvents_snoc _ _).trans (List.append_nil _)
  have culled : culledFiles (trace ++ [(.push msgs allow, .pushed .noError name none)]) =
      culledFiles trace := (culledFiles_snoc _ _).trans (List.append_nil _)
  constructor
  · rw [popped, pushed, A.popped]
    apply List.map_congr_left
    intro i hi
    rw [List.getElem?_append_left (A.taken_lt hi)]
  · rw [unread, List.map_append, ← List.append_assoc, List.pairwise_append]
    refine ⟨A.order, ?_, ?_⟩
    · split <;> simp
    · intro i hi j hj
      have hj : j = n := by
        split at hj
        · exact List.mem_singleton.mp hj
        · cases hj
      rw [hj]
      obtain hi | hi := List.mem_append.mp hi
      · exact A.taken_lt hi
      · exact A.unread_lt hi
  · intro pos id parts h
    rw [pushed, files]
    have h := @Layout.mapWriter_has L.ready (Segment.add r) [r] keeps rfl pos id parts h
    obtain h | ⟨hpos, q, hq, hid, hparts⟩ := h
    · obtain ⟨hpushed, hfiles⟩ := A.has pos id parts (Layout.ready_has h)
      have lt := (List.getElem?_eq_some_iff.mp hpushed).1
      rw [List.getElem?_append_left lt, List.getElem?_append_left (A.files ▸ lt)]
      exact ⟨hpushed, hfiles⟩
    · rw [List.mem_singleton.mp hq] at hid hparts
      subst hpos hid hparts
      refine ⟨by simp [r, n], ?_⟩
      rw [show r.id = (pushedFiles trace).length from A.files.symm]
      simp [name]
  · intro i hi
    rw [pushed, List.length_append, List.length_singleton] at hi
    rw [files, unread, culled, List.map_append]
    by_cases hlt : i < n
    · rw [List.getElem?_append_left (A.files ▸ hlt)]
      obtain h | h | h := A.all i hlt
      · exact .inl h
      · exact .inr (.inl (List.mem_append_left _ h))
      · exact .inr (.inr h)
    · have hi : i = n := by omega
      subst hi
      cases hlost : L.ready.lost with
      | none => exact .inr (.inl (List.mem_append_right _ (by simp [r])))
      | some v =>
        have hwriter : L.ready.writer = v := by simp [Layout.writer, hlost]
        refine .inr (.inr ⟨_, A.lost v (Layout.ready_lost hlost), ?_⟩)
        rw [show n = (pushedFiles trace).length from A.files.symm]
        simp [name, hwriter]
  · intro w hw
    obtain ⟨v, hv, hpos⟩ := lost w hw
    rw [culled, hpos]
    exact A.lost v (Layout.ready_lost hv)
  · rw [pushed, files, List.length_append, List.length_append, A.files]
    rfl

/-- A partition is culled. -/
theorem cull {op : SpoolOp} {name : Option UStr} {pos : SpoolPos}
    (A : Accounted (trace ++ [(op, .pushed .noError name none)]) L taken)
    (h : L.cull = some (L', pos)) :
    Accounted (trace ++ [(op, .pushed .noError name (some (spoolFileName pos)))]) L' taken := by
  let before := trace ++ [(op, .pushed .noError name none)]
  let after := trace ++ [(op, .pushed .noError name (some (spoolFileName pos)))]
  have pushed : storedEvents after = storedEvents before := by
    rw [storedEvents_snoc, storedEvents_snoc]
    cases op <;> rfl
  have files : pushedFiles after = pushedFiles before := by
    rw [pushedFiles_snoc, pushedFiles_snoc]
    cases op <;> rfl
  have popped : poppedEvents after = poppedEvents before := by
    rw [poppedEvents_snoc, poppedEvents_snoc]
    rfl
  have culled : culledFiles after = culledFiles before ++ [spoolFileName pos] := by
    rw [culledFiles_snoc, culledFiles_snoc, List.append_assoc]
    rfl
  obtain ⟨s, hrest, hpos, hL'⟩ := Layout.cull_some h
  obtain ⟨sub, _⟩ := Layout.cull_all h
  constructor
  · rw [popped, pushed]; exact A.popped
  · exact A.order.sublist (((Layout.cull_sublist h).map _).append_left _)
  · rintro p id parts ⟨t, ht, hid⟩
    rw [pushed, files]
    exact A.has p id parts ⟨t, sub.subset ht, hid⟩
  · intro i hi
    rw [pushed] at hi
    rw [files, culled]
    obtain hi | hi | ⟨n, hn, hi⟩ := A.all i hi
    · exact .inl hi
    · obtain ⟨r, hr, rfl⟩ := List.mem_map.mp hi
      obtain hr | has := Layout.cull_unread h hr
      · exact .inr (.inl (List.mem_map_of_mem hr))
      · exact .inr (.inr ⟨_, List.mem_append_right _ List.mem_cons_self, (A.has _ _ _ has).2⟩)
    · exact .inr (.inr ⟨n, List.mem_append_left _ hn, hi⟩)
  · intro w hw
    rw [culled]
    rw [hL'] at hw
    simp only at hw
    split at hw
    · cases hw
      rw [← hpos]
      exact List.mem_append_right _ List.mem_cons_self
    · exact List.mem_append_left _ (A.lost w hw)
  · rw [pushed, files]; exact A.files

theorem pop (A : Accounted trace L taken) {signaled : Bool} {rc : Rc} {parts : List Bytes}
    (h : Layout.Pops L L' rc parts) :
    ∃ taken', Accounted (trace ++ [(.pop signaled, .popped rc parts)]) L' taken' := by
  obtain ⟨rfl, r, hunread, rfl⟩ | ⟨hrc, hunread⟩ := h.unread
  · have pushed : storedEvents (trace ++ [(.pop signaled, .popped .noError r.parts)]) =
        storedEvents trace := (storedEvents_snoc _ _).trans (List.append_nil _)
    have files : pushedFiles (trace ++ [(.pop signaled, .popped .noError r.parts)]) =
        pushedFiles trace := (pushedFiles_snoc _ _).trans (List.append_nil _)
    have culled : culledFiles (trace ++ [(.pop signaled, .popped .noError r.parts)]) =
        culledFiles trace := (culledFiles_snoc _ _).trans (List.append_nil _)
    have popped : poppedEvents (trace ++ [(.pop signaled, .popped .noError r.parts)]) =
        poppedEvents trace ++ [r.parts] := poppedEvents_snoc _ _
    have first : (storedEvents trace)[r.id]? = some r.parts := by
      obtain ⟨pos, has⟩ := Layout.has_of_unread (hunread ▸ List.mem_cons_self)
      exact (A.has _ _ _ has).1
    refine ⟨taken ++ [r.id], ?_, ?_, ?_, ?_, ?_, ?_⟩
    · rw [popped, pushed, List.map_append, List.map_append, A.popped]
      simp [first]
    · have := A.order
      rw [hunread] at this
      simpa using this
    · intro pos id parts has
      rw [pushed, files]
      exact A.has pos id parts (h.reads.has pos id parts has)
    · intro i hi
      rw [pushed] at hi
      rw [files, culled]
      obtain hi | hi | hi := A.all i hi
      · exact .inl (List.mem_append_left _ hi)
      · rw [hunread, List.map_cons, List.mem_cons] at hi
        obtain rfl | hi := hi
        · exact .inl (List.mem_append_right _ List.mem_cons_self)
        · exact .inr (.inl hi)
      · exact .inr (.inr hi)
    · intro w hw
      rw [culled]
      exact A.lost w (h.reads.lost ▸ hw)
    · rw [pushed, files]; exact A.files
  · have popped : poppedEvents [(.pop signaled, .popped rc parts)] = [] := by
      simp only [poppedEvents, List.filterMap_cons, if_neg hrc, List.filterMap_nil]
    refine ⟨taken, A.same rfl rfl popped rfl hunread h.reads.has fun w hw => ?_⟩
    exact ⟨w, h.reads.lost ▸ hw, rfl⟩

/-- A step under which the reader's end-of-file indicator is not stale. -/
theorem step {op : SpoolOp} {out : SpoolOutcome} (A : Accounted trace L taken)
    (fresh : ∀ signaled, op = .pop signaled → L.NotStale)
    (h : LayoutStep (storedEvents trace).length L op out L') :
    ∃ taken', Accounted (trace ++ [(op, out)]) L' taken' := by
  cases h with
  | @push _ msgs allow culled wf whole _ h =>
    have A' := @add trace L taken A msgs allow wf
    unfold Layout.push at h
    simp only at h
    split at h
    · obtain ⟨⟨M, pos⟩, hcull, hM⟩ := Option.map_eq_some_iff.mp h
      cases hM
      have hwriter := (Layout.cull_all hcull).2
      rw [hwriter, Layout.add_writer_pos]
      exact ⟨taken, A'.cull hcull⟩
    · cases h
      rw [Layout.add_writer_pos]
      exact ⟨taken, A'⟩
  | @tear msgs allow bytes size name torn whole short =>
    have keeps : Layout.Keeps (Segment.tear bytes torn) L.ready.writer := ⟨rfl, rfl, rfl⟩
    refine ⟨taken, A.same rfl rfl rfl rfl ?_ ?_ ?_⟩
    · have := @Layout.mapWriter_unread L.ready (Segment.tear bytes torn) []
        (by simp [Segment.tear])
      rw [Layout.ready_unread, List.filter_nil, ite_self, List.append_nil] at this
      exact this
    · intro pos id parts has
      rcases @Layout.mapWriter_has L.ready _ [] keeps (by simp [Segment.tear]) pos id parts has
        with has | ⟨_, q, hq, _⟩
      · exact Layout.ready_has has
      · cases hq
    · intro w hw
      obtain ⟨v, hv, hpos⟩ := Layout.mapWriter_lost keeps hw
      exact ⟨v, Layout.ready_lost hv, hpos⟩
  | pop h => exact A.pop (Layout.pop_pops h (fresh _ rfl))
  | restart =>
    refine ⟨taken, A.same rfl rfl rfl rfl (Layout.restart_unread _)
      (fun _ _ _ => Layout.restart_has) ?_⟩
    exact fun w hw => by cases hw

/-! ## Without culls -/

theorem exact (A : Accounted trace L taken) (culled : culledFiles trace = []) :
    taken ++ L.unread.map Record.id = List.range (storedEvents trace).length := by
  apply List.Pairwise.eq_of_mem_iff A.order List.pairwise_lt_range
  intro i
  rw [List.mem_range, List.mem_append]
  constructor
  · rintro (h | h)
    · exact A.taken_lt h
    · exact A.unread_lt h
  · intro h
    obtain h | h | ⟨name, hname, _⟩ := A.all i h
    · exact .inl h
    · exact .inr h
    · rw [culled] at hname
      cases hname

theorem popped_eq (A : Accounted trace L taken) (culled : culledFiles trace = []) :
    poppedEvents trace = (storedEvents trace).take taken.length := by
  have htaken : taken = (List.range (storedEvents trace).length).take taken.length := by
    rw [← A.exact culled, List.take_left]
  have hmap :
      (poppedEvents trace).map some = ((storedEvents trace).take taken.length).map some := by
    rw [A.popped, List.map_take]
    nth_rewrite 1 [htaken]
    rw [List.map_take]
    congr 1
    apply List.ext_getElem (by simp)
    intro i h h'
    simp only [List.length_map] at h'
    simp [h']
  exact (List.map_injective_iff.mpr (Option.some_injective _)) hmap

/-- The first unread event is the one after those that were returned. -/
theorem next_eq (A : Accounted trace L taken) (culled : culledFiles trace = []) {r : Record}
    {rest : List Record} (h : L.unread = r :: rest) :
    (storedEvents trace)[(poppedEvents trace).length]? = some r.parts := by
  have lengths : (poppedEvents trace).length = taken.length := by
    have := congrArg List.length A.popped
    simpa using this
  have hid : r.id = taken.length := by
    have := congrArg (fun l => l[taken.length]?) (A.exact culled)
    rw [h] at this
    simp only [List.map_cons, List.getElem?_append_right (Nat.le_refl _), Nat.sub_self,
      List.getElem?_cons_zero] at this
    have hlt : taken.length < (storedEvents trace).length := by
      by_contra hge
      rw [List.getElem?_eq_none (by simpa using hge)] at this
      cases this
    rw [List.getElem?_range hlt] at this
    exact Option.some.inj this
  obtain ⟨pos, has⟩ := Layout.has_of_unread (h ▸ List.mem_cons_self)
  rw [lengths, ← hid]
  exact (A.has _ _ _ has).1

/-- The events that have not been returned are the unread ones. -/
theorem unread_parts (A : Accounted trace L taken) (culled : culledFiles trace = []) :
    poppedEvents trace ++ L.unread.map Record.parts = storedEvents trace := by
  have each : L.unread.map (some ∘ Record.parts) =
      (L.unread.map Record.id).map (fun i => (storedEvents trace)[i]?) := by
    rw [List.map_map]
    apply List.map_congr_left
    intro r hr
    obtain ⟨pos, has⟩ := Layout.has_of_unread hr
    exact (A.has _ _ _ has).1.symm
  have hmap : (poppedEvents trace ++ L.unread.map Record.parts).map some =
      (storedEvents trace).map some := by
    rw [List.map_append, A.popped, List.map_map, each, ← List.map_append, A.exact culled]
    apply List.ext_getElem (by simp)
    intro i h h'
    simp only [List.length_map] at h'
    simp [h']
  exact (List.map_injective_iff.mpr (Option.some_injective _)) hmap

theorem unread_of_next (A : Accounted trace L taken) (culled : culledFiles trace = [])
    (h : (poppedEvents trace).length < (storedEvents trace).length) : L.unread ≠ [] := by
  intro hunread
  have := congrArg List.length (A.exact culled)
  have := congrArg List.length A.popped
  simp [hunread] at *
  omega

end Accounted

/-! ## Pushes that succeed -/

theorem canRoll_full {L : Layout} (fits : L.rollDue = true → L.RollFits) : L.CanRoll .full :=
  ⟨fits, fun _ => rfl, fun _ => rfl⟩

/-- A push with enough room fits where it has a partition to go to. -/
theorem push_fits {L : Layout} {sp : Spool} (R : Represents L sp) (whole : L.Whole)
    {msgs : List Bytes} (wf : WellFormed (storedParts msgs)) (fits : sp.RollFits) :
    L.Fits (.push msgs .full) :=
  ⟨wf, canRoll_full fun due => R.rollFits fits due, fun _ => whole _ L.writer_mem_all,
    .inl (landed_full L _)⟩

theorem Layout.ready_lost_none {L : Layout} (h : L.lost = none) : L.ready.lost = none := by
  unfold ready
  split
  · rfl
  · exact h

theorem Layout.mapWriter_lost_none {L : Layout} {f : Segment → Segment} (keeps : Keeps f L.writer)
    (h : L.lost = none) : (L.mapWriter f).lost = none := by
  cases hlost : (L.mapWriter f).lost with
  | none => rfl
  | some w =>
    obtain ⟨v, hv, _⟩ := mapWriter_lost keeps hlost
    rw [h] at hv
    cases hv

theorem Layout.add_lost_none {L : Layout} (r : Record) (h : L.lost = none) :
    (L.add r).lost = none :=
  @mapWriter_lost_none L (Segment.add r) ⟨rfl, rfl, rfl⟩ h

theorem Layout.opened_whole (settings : SpoolSettings) (next : Nat) :
    (Layout.opened settings next []).Whole := by
  intro s hs
  rw [opened_all] at hs
  rw [List.mem_singleton.mp hs]
  rfl

/-- Without a failed push no partition ends with the beginning of an event. -/
theorem whole_step {id : Nat} {L L' : Layout} {op : SpoolOp} {out : SpoolOutcome}
    (whole : L.Whole) (h : LayoutStep id L op out L')
    (full : ∀ msgs allow, op = .push msgs allow → allow = .full) : L'.Whole := by
  cases h with
  | @push _ msgs allow culled wf hwriter _ h =>
    have ready : L.ready.Whole := by
      unfold Layout.ready
      split
      · intro s hs
        rw [Layout.roll_all] at hs
        obtain hs | hs := List.mem_append.mp hs
        · exact whole s (Layout.mem_all_of_segs hs)
        · rw [List.mem_singleton.mp hs]; rfl
      · exact whole
    have added : (L.ready.add ⟨id, false, storedParts msgs, wf⟩).Whole := by
      obtain ⟨⟨before, hall, hall'⟩, _⟩ :=
        @Layout.mapWriter_eq L.ready (Segment.add ⟨id, false, storedParts msgs, wf⟩)
      intro s hs
      have hs : s ∈ before ++ [Segment.add ⟨id, false, storedParts msgs, wf⟩ L.ready.writer] :=
        hall' ▸ hs
      obtain hs | hs := List.mem_append.mp hs
      · exact ready s (hall ▸ List.mem_append_left _ hs)
      · rw [List.mem_singleton.mp hs]
        exact hwriter
    unfold Layout.push at h
    simp only at h
    split at h
    · obtain ⟨⟨M, pos⟩, hcull, hM⟩ := Option.map_eq_some_iff.mp h
      cases hM
      exact fun s hs => added s ((Layout.cull_all hcull).1.subset hs)
    · cases h
      exact added
  | tear _ _ short => exact absurd (full _ _ rfl) short
  | pop h => exact (Layout.pop_reads h).whole whole
  | restart =>
    intro s hs
    rw [Layout.restart, Layout.opened_all] at hs
    obtain hs | hs := List.mem_append.mp hs
    · obtain ⟨t, ht, rfl⟩ := List.mem_map.mp hs
      exact whole t (Layout.mem_all_of_segs (List.mem_filter.mp ht).1)
    · rw [List.mem_singleton.mp hs]; rfl

theorem pushes_step {trace : SpoolTrace} {id : Nat} {L L' : Layout} {op : SpoolOp}
    {out : SpoolOutcome} (h : LayoutStep id L op out L')
    (full : ∀ msgs allow, op = .push msgs allow → allow = .full ∧ storedParts msgs = msgs)
    (before : pushes trace = storedEvents trace) :
    pushes (trace ++ [(op, out)]) = storedEvents (trace ++ [(op, out)]) := by
  have step : pushes [(op, out)] = storedEvents [(op, out)] := by
    cases h with
    | push => simp [pushes, storedEvents, (full _ _ rfl).2]
    | tear _ _ short => exact absurd (full _ _ rfl).1 short
    | pop => rfl
    | restart => rfl
  rw [pushes_snoc, storedEvents_snoc, before, step]

end Yella
