import Yella.Job.Collected
import Yella.Job.Shielded

/-!
# A scan that is repeated

What a job reports when it runs again and no file has changed in between, but for the times that the
first scan has changed.
-/

namespace Yella

/-! ## Calls on one state of the files -/

section
variable {fs : FileSystem} {j : Job} {incl : UStr} {calls : List Observation} {o : Observation}

/-- The element of a call, if it has one, is what the files are like. -/
def TakenFrom (fs : FileSystem) (j : Job) (o : Observation) : Prop :=
  ∀ e ∈ o.elem, collectAttributes fs o.name j.attrTypes = some e

theorem properCall_taken (name : UStr) : TakenFrom fs j (properCall fs incl j name) := by
  unfold properCall
  split
  · exact fun e he => he
  · intro e he
    cases he

theorem runOneInclude_taken (run : runOneInclude fs j incl = some calls) :
    ∀ o ∈ calls, TakenFrom fs j o := by
  unfold runOneInclude at run
  split at run
  · obtain ⟨unescaped, -, rfl⟩ := Option.map_eq_some_iff.mp run
    intro o ho
    cases List.mem_singleton.mp ho
    exact fun e he => he
  · split at run
    · cases run
      exact fun o ho => absurd ho List.not_mem_nil
    · split at run
      · obtain ⟨names, -, rfl⟩ := crawlDir_proper run
        intro o ho
        obtain ⟨name, -, rfl⟩ := List.mem_map.mp ho
        exact properCall_taken name
      · cases run
        exact fun o ho => absurd ho List.not_mem_nil

theorem runJob_taken {db : Option StateDb} (run : runJob fs j db = some calls) :
    ∀ o ∈ calls, TakenFrom fs j o := by
  cases db with
  | none =>
    cases run
    exact fun o ho => absurd ho List.not_mem_nil
  | some db =>
    obtain ⟨parts, each, rfl⟩ := Option.map_eq_some_iff.mp run
    intro o ho
    obtain ⟨incl, -, part, one, mem⟩ := (Fallible.mem_flatten_mapM each o).mp ho
    exact runOneInclude_taken one o mem

/-- The calls for one name agree on whether there is a file. -/
def Settled (calls : List Observation) : Prop :=
  ∀ o ∈ calls, ∀ p ∈ calls, o.name = p.name → o.elem.isSome = p.elem.isSome

/-- A job with one include is settled. -/
theorem settled_of_single {db : Option StateDb} (single : j.includes = [incl])
    (run : runJob fs j db = some calls) : Settled calls := by
  cases db with
  | none =>
    cases run
    exact fun o ho => absurd ho List.not_mem_nil
  | some db =>
    simp only [runJob, single, List.mapM_cons, List.mapM_nil, Option.bind_eq_bind,
      Option.map_eq_some_iff, Option.bind_eq_some_iff, Option.pure_def, Option.some.injEq] at run
    obtain ⟨_, ⟨one, each, _, rfl, rfl⟩, rfl⟩ := run
    rw [List.flatten_singleton]
    unfold runOneInclude at each
    split at each
    · obtain ⟨unescaped, -, rfl⟩ := Option.map_eq_some_iff.mp each
      intro o ho p hp _
      cases List.mem_singleton.mp ho
      cases List.mem_singleton.mp hp
      rfl
    · split at each
      · cases each
        exact fun o ho => absurd ho List.not_mem_nil
      · split at each
        · obtain ⟨names, -, rfl⟩ := crawlDir_proper each
          intro o ho p hp same
          obtain ⟨name, -, rfl⟩ := List.mem_map.mp ho
          obtain ⟨name', -, rfl⟩ := List.mem_map.mp hp
          rw [properCall_name, properCall_name] at same
          rw [same]
        · cases each
          exact fun o ho => absurd ho List.not_mem_nil

end

/-! ## What was seen last -/

section
variable {xs ys : List Observation} {n : UStr}

theorem lastSeen_of_not_mem (unseen : n ∉ xs.map Observation.name) : lastSeen xs n = none := by
  induction xs using List.reverseRecOn with
  | nil => rfl
  | append_singleton xs o ih =>
    rw [List.map_append, List.mem_append, not_or] at unseen
    have other : o.name ≠ n := fun same => unseen.2 (by simp [same])
    rw [lastSeen_snoc, if_neg other, ih unseen.1]

/-- A name that occurs late was last seen there. -/
theorem lastSeen_append_of_mem (there : n ∈ ys.map Observation.name) :
    ∃ o ∈ ys, o.name = n ∧ lastSeen (xs ++ ys) n = o.elem := by
  induction ys using List.reverseRecOn with
  | nil => cases there
  | append_singleton ys o ih =>
    rw [← List.append_assoc, lastSeen_snoc]
    by_cases same : o.name = n
    · exact ⟨o, by simp, same, if_pos same⟩
    · rw [if_neg same]
      obtain ⟨p, hp, named, last⟩ := ih (by simpa [Ne.symm same] using there)
      exact ⟨p, List.mem_append_left _ hp, named, last⟩

end

/-! ## One call and many -/

section
variable {utf : Utf} {fs : FileSystem} {j : Job} {seen calls : List Observation} {o : Observation}
  {db db' : StateDb} {ms : List Message} {m : Option Message}

/-- The database holds what the files are like, as far as it holds anything of these names. -/
def SeenAsIs (fs : FileSystem) (j : Job) (seen calls : List Observation) : Prop :=
  ∀ o ∈ calls, ∀ e ∈ lastSeen seen o.name, collectAttributes fs o.name j.attrTypes = some e

theorem SeenAsIs.next (h : SeenAsIs fs j seen (o :: calls)) (taken : TakenFrom fs j o) :
    SeenAsIs fs j (seen ++ [o]) calls := by
  intro p hp e he
  rw [lastSeen_snoc] at he
  split at he
  · rename_i same
    exact same ▸ taken e he
  · exact h p (List.mem_cons_of_mem _ hp) e he

/-- Nothing is reported of a file that is as it was, and the entry stays. -/
theorem call_silent_iff (h : Logged utf seen db ms) (agrees : CallAgrees utf o db db' m)
    (seenAsIs : ∀ e ∈ lastSeen seen o.name, collectAttributes fs o.name j.attrTypes = some e)
    (taken : TakenFrom fs j o) :
    m = none ↔ o.elem.isSome = (lastSeen seen o.name).isSome := by
  obtain ⟨before, get, reported⟩ := agrees.reported
  rw [← Option.not_isSome_iff_eq_none, reported, not_or, not_not]
  cases last : lastSeen seen o.name with
  | none =>
    have row := (h.absent o.name last).1
    simp only [getElementFromStateDb, row, Option.some.injEq] at get
    subst get
    constructor
    · exact fun same => same.1.symm
    · exact fun same => ⟨same.symm, by simp⟩
  | some p =>
    obtain ⟨-, s, ⟨packed, row, read⟩, -, -, equal⟩ := h.present o.name p last
    rw [getElement_of_row row read] at get
    cases get
    constructor
    · exact fun same => same.1.symm
    · refine fun same => ⟨same.symm, ?_⟩
      rintro ⟨s', e, stored, elem, differs⟩
      cases stored
      have asIs : e = p := Option.some.inj ((taken e elem).symm.trans (seenAsIs p last))
      exact differs (asIs ▸ equal)

theorem processElement_silent (run : processElement utf j o.name o.elem db = some (db', none)) :
    db' = db := by
  simp only [processElement, Option.bind_eq_bind, Option.bind_eq_some_iff] at run
  obtain ⟨before, -, run⟩ := run
  split at run
  · cases run
    rfl
  · obtain ⟨_, -, run⟩ := Option.bind_eq_some_iff.mp run
    cases run
  · cases run
  · obtain ⟨cmp, -, run⟩ := Option.bind_eq_some_iff.mp run
    split at run
    · obtain ⟨_, -, run⟩ := Option.bind_eq_some_iff.mp run
      split at run
      · cases run
      · obtain ⟨_, -, run⟩ := Option.bind_eq_some_iff.mp run
        split at run <;> cases run
    · cases run
      rfl

theorem keepsTypes_of_taken (seenAsIs : SeenAsIs fs j seen (o :: calls))
    (taken : TakenFrom fs j o) : KeepsTypes seen o := by
  intro e he p hp a ha
  have asIs := seenAsIs o List.mem_cons_self p hp
  cases (taken e he).symm.trans asIs
  exact ⟨a, ha, rfl⟩

/-- The calls are silent exactly if each of them finds what the last one has left. -/
theorem processAll_silent_iff (h : Logged utf seen db ms) (stores : ∀ o ∈ calls, o.Stores utf)
    (seenAsIs : SeenAsIs fs j seen calls) (taken : ∀ o ∈ calls, TakenFrom fs j o) :
    ∃ db' ms', processAll utf j db calls = some (db', ms') ∧
      (ms' = [] ↔ ∀ o ∈ calls, o.elem.isSome = (lastSeen seen o.name).isSome) ∧
      (ms' = [] → db' = db) := by
  induction calls generalizing seen db ms with
  | nil => exact ⟨db, [], rfl, by simp, fun _ => rfl⟩
  | cons o calls ih =>
    have takenFirst := taken o List.mem_cons_self
    obtain ⟨db₁, m, call, logged, agrees⟩ :=
      call_agrees (j := j) h (stores o List.mem_cons_self) (keepsTypes_of_taken seenAsIs takenFirst)
    have silent := call_silent_iff h agrees (seenAsIs o List.mem_cons_self) takenFirst
    obtain ⟨db₂, ms', rest, iff, same⟩ := ih logged
      (fun p hp => stores p (List.mem_cons_of_mem _ hp)) (seenAsIs.next takenFirst)
      (fun p hp => taken p (List.mem_cons_of_mem _ hp))
    refine ⟨db₂, m.toList ++ ms', by simp [processAll, call, rest], ?_, ?_⟩
    · rw [List.append_eq_nil_iff, Option.toList_eq_nil_iff, silent, iff, List.forall_mem_cons]
      apply and_congr_right
      intro first
      -- The first call leaves the presence of every name as it was.
      apply forall₂_congr
      intro p _
      rw [lastSeen_snoc]
      split
      · rename_i same
        rw [first, same]
      · rfl
    · intro none'
      obtain ⟨first, later⟩ := List.append_eq_nil_iff.mp none'
      rw [Option.toList_eq_nil_iff] at first
      subst first
      exact (same later).trans (processElement_silent call)

/-- A call that returns is logged. -/
theorem Logged.call (h : Logged utf seen db ms) (stores : o.Stores utf)
    (run : processElement utf j o.name o.elem db = some (db', m)) :
    Logged utf (seen ++ [o]) db' (ms ++ m.toList) := by
  obtain ⟨_, _, call, logged, -⟩ :=
    call_agrees (j := j) h stores (keepsTypes_of_returns h run)
  cases run.symm.trans call
  exact logged

theorem logged_of_returns (stores : ∀ o ∈ seen, o.Stores utf)
    (run : processAll utf j .empty seen = some (db, ms)) : Logged utf seen db ms := by
  induction seen using List.reverseRecOn generalizing db ms with
  | nil =>
    cases run
    exact logged_start utf
  | append_singleton seen o ih =>
    rw [processAll_snoc] at run
    obtain ⟨⟨db₁, ms₁⟩, first, last⟩ := Option.bind_eq_some_iff.mp run
    obtain ⟨⟨db₂, m⟩, call, eq⟩ := Option.map_eq_some_iff.mp last
    cases eq
    have logged := ih (fun p hp => stores p (List.mem_append_left _ hp)) first
    exact logged.call (stores o (by simp)) call

end

/-- **A second scan.** Whatever the job has seen before, when it scans the files again as the first
scan has left them, and does not ask for a time that a scan changes, then the second scan is silent
exactly if no file is collected for one include and passed over for another, as with a single
include; and then it leaves the database as it is. -/
theorem rescan_silent_iff {utf : Utf} {fs : FileSystem} {j : Job} {db₀ db : StateDb}
    {seen calls : List Observation} {ms : List Message} (keeps : ScanKeeps j.attrTypes)
    (scan : runJob fs j (some db₀) = some calls) (stores : ∀ o ∈ seen ++ calls, o.Stores utf)
    (run : processAll utf j .empty (seen ++ calls) = some (db, ms)) (times : ScanTimes) :
    ∃ again db' ms', runJob (fs.afterScan j.attrTypes times) j (some db) = some again ∧
      processAll utf j db again = some (db', ms') ∧ (ms' = [] ↔ Settled again) ∧
      (∀ incl, j.includes = [incl] → ms' = []) ∧ (ms' = [] → db' = db) := by
  have taken := runJob_taken scan
  have logged := logged_of_returns stores run
  have last (o : Observation) (ho : o ∈ calls) :
      ∃ p ∈ calls, p.name = o.name ∧ lastSeen (seen ++ calls) o.name = p.elem :=
    lastSeen_append_of_mem (List.mem_map_of_mem ho)
  have seenAsIs : SeenAsIs fs j (seen ++ calls) calls := by
    intro o ho e he
    obtain ⟨p, hp, named, eq⟩ := last o ho
    rw [eq] at he
    exact named ▸ taken p hp e he
  obtain ⟨db', ms', all, iff, same⟩ := processAll_silent_iff logged
    (fun o ho => stores o (List.mem_append_right _ ho)) seenAsIs taken
  have silent : ms' = [] ↔ Settled calls := by
    refine iff.trans ⟨?_, ?_⟩
    · intro found o ho p hp named
      rw [found o ho, found p hp, named]
    · intro settled o ho
      obtain ⟨p, hp, named, eq⟩ := last o ho
      rw [eq]
      exact settled o ho p hp named.symm
  have again : runJob (fs.afterScan j.attrTypes times) j (some db) = some calls :=
    (runJob_afterScan keeps times _).trans scan
  refine ⟨calls, db', ms', again, all, silent, fun incl single => ?_, same⟩
  exact silent.mpr (settled_of_single single scan)

def oneFileJob : Job where
  configName := [99]
  recipient := [114]
  includes := [[47, 100, 47, 102]]
  excludes := []
  attrTypes := [.fileType, .size]

def oneFileCall : Observation := collected (nestedFiles false) oneFileJob [47, 100, 47, 102]

theorem oneFileCall_stores : oneFileCall.Stores asciiUtf where
  readsBack := by rintro e ⟨⟩; rfl
  fits := by
    rintro e ⟨⟩ a ha
    rcases List.mem_pair.mp ha with rfl | rfl <;> trivial

/-- A scan after which the file has been accessed -/
theorem rescan_silent_one_file :
    ∃ db ms again db' ms',
      processAll asciiUtf oneFileJob .empty ([] ++ [oneFileCall]) = some (db, ms) ∧
      runJob ((nestedFiles false).afterScan oneFileJob.attrTypes ⟨fun _ => 1, fun _ => 2⟩)
        oneFileJob (some db) = some again ∧
      processAll asciiUtf oneFileJob db again = some (db', ms') ∧ (ms' = [] ↔ Settled again) ∧
      (∀ incl, oneFileJob.includes = [incl] → ms' = []) ∧ (ms' = [] → db' = db) := by
  have scan : runJob (nestedFiles false) oneFileJob (some .empty) = some [oneFileCall] := by
    rfl
  have stores : ∀ o ∈ [] ++ [oneFileCall], o.Stores asciiUtf := by
    intro o ho
    cases List.mem_singleton.mp ho
    exact oneFileCall_stores
  obtain ⟨⟨db, ms⟩, run⟩ := Option.isSome_iff_exists.mp
    (show (processAll asciiUtf oneFileJob .empty ([] ++ [oneFileCall])).isSome by rfl)
  obtain ⟨again, db', ms', silent⟩ :=
    rescan_silent_iff (by decide) scan stores run ⟨fun _ => 1, fun _ => 2⟩
  exact ⟨db, ms, again, db', ms', run, silent⟩

end Yella
