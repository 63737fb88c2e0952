import Yella.Job.Crawl

/-!
# The element that a crawl passes on

`existing_elem` of `crawl_dir` is set for a monitored entry only and is left as it is by the
others, so these find NULL in it only behind an entry whose attributes could not be collected.
-/

namespace Yella

section
variable (fs : FileSystem) (incl : UStr) (j : Job)

def lastMonitored (names : List UStr) : Option UStr := (names.filter (Monitored incl j)).getLast?

/-- The variable is NULL after the entries, when it was before them if `isNull`. -/
def LeftNull (isNull : Bool) (before : List UStr) : Prop :=
  (lastMonitored incl j before = none → isNull = true) ∧
    ∀ last, lastMonitored incl j before = some last → collectAttributes fs last j.attrTypes = none

/-- Each entry that is not monitored comes after a monitored one of the directory, and the last
monitored one before it could not be collected. -/
def Shielded (names : List UStr) : Prop :=
  ∀ before cur after, names = before ++ cur :: after → Monitored incl j cur = false →
    ∃ last, lastMonitored incl j before = some last ∧
      collectAttributes fs last j.attrTypes = none

def ShieldedFrom (isNull : Bool) (names : List UStr) : Prop :=
  ∀ before cur after, names = before ++ cur :: after → Monitored incl j cur = false →
    LeftNull fs incl j isNull before

end

section
variable {fs : FileSystem} {incl : UStr} {j : Job}

theorem shieldedFrom_false {names : List UStr} :
    ShieldedFrom fs incl j false names ↔ Shielded fs incl j names := by
  have left (before : List UStr) : LeftNull fs incl j false before ↔
      ∃ last, lastMonitored incl j before = some last ∧
        collectAttributes fs last j.attrTypes = none := by
    unfold LeftNull
    cases lastMonitored incl j before <;> simp
  simp only [ShieldedFrom, Shielded, left]

theorem leftNull_nil {isNull : Bool} : LeftNull fs incl j isNull [] ↔ isNull = true := by
  simp [LeftNull, lastMonitored]

theorem leftNull_cons {isNull : Bool} {cur : UStr} {before : List UStr} :
    LeftNull fs incl j isNull (cur :: before) ↔
      LeftNull fs incl j (if Monitored incl j cur then
        (collectAttributes fs cur j.attrTypes).isNone else isNull) before := by
  by_cases monitored : Monitored incl j cur = true
  · simp only [LeftNull, lastMonitored, monitored, List.filter_cons, ↓reduceIte]
    cases hf : before.filter (Monitored incl j) <;> simp [List.getLast?_cons_cons]
  · simp [LeftNull, lastMonitored, monitored]

theorem shieldedFrom_cons {isNull : Bool} {cur : UStr} {names : List UStr} :
    ShieldedFrom fs incl j isNull (cur :: names) ↔
      (Monitored incl j cur = false → isNull = true) ∧
        ShieldedFrom fs incl j (if Monitored incl j cur then
          (collectAttributes fs cur j.attrTypes).isNone else isNull) names := by
  constructor
  · intro h
    refine ⟨fun other => leftNull_nil.mp (h [] cur names rfl other), ?_⟩
    rintro before c after rfl other
    exact leftNull_cons.mp (h (cur :: before) c after rfl other)
  · rintro ⟨first, rest⟩ before c after hsplit other
    cases before with
    | nil =>
      obtain ⟨rfl, rfl⟩ := List.cons.inj hsplit
      exact leftNull_nil.mpr (first other)
    | cons d before =>
      obtain ⟨rfl, rfl⟩ := List.cons.inj hsplit
      exact leftNull_cons.mpr (rest before c after rfl other)

/-- What the call for an entry leaves in `existing_elem`. -/
theorem entryCall_isSome (fs : FileSystem) {isNull : Bool} {cur : UStr} :
    (entryCall fs incl j isNull cur).isSome ↔ (Monitored incl j cur = false → isNull = true) := by
  unfold entryCall Monitored
  split
  · rename_i monitored; simp [monitored]
  · rename_i other
    cases isNull <;> simp [other]

theorem entryCall_leaves {isNull : Bool} {cur : UStr} {call : Observation}
    (h : entryCall fs incl j isNull cur = some call) :
    call.elem.isNone = if Monitored incl j cur then
      (collectAttributes fs cur j.attrTypes).isNone else isNull := by
  have given := (entryCall_isSome fs).mp (Option.isSome_iff_exists.mpr ⟨call, h⟩)
  obtain rfl := entryCall_proper h
  unfold properCall
  split
  · rfl
  · rename_i other
    exact (given (by simpa using other)).symm

theorem crawlEntries_isSome_iff {dir : UStr} {entries : List EntryName} {isNull : Bool} :
    (crawlEntries fs incl j dir isNull entries).isSome ↔
      ShieldedFrom fs incl j isNull (entries.map (fqn dir)) ∧ ∀ entry ∈ entries,
        fs.isDirectory (fqn dir entry) = true → (crawlDir fs incl j (fqn dir entry)).isSome := by
  induction entries generalizing isNull with
  | nil => simp [crawlEntries, ShieldedFrom]
  | cons entry entries ih =>
    rw [crawlEntries, List.map_cons, shieldedFrom_cons, List.forall_mem_cons,
      ← entryCall_isSome fs]
    cases hcall : entryCall fs incl j isNull (fqn dir entry) with
    | none => simp
    | some call =>
      rw [← entryCall_leaves hcall]
      have rest := @ih call.elem.isNone
      have joined (below : Option (List Observation)) : (below.bind fun below =>
          (crawlEntries fs incl j dir call.elem.isNone entries).bind fun rest =>
            some (call :: below ++ rest)).isSome ↔ below.isSome ∧
          (crawlEntries fs incl j dir call.elem.isNone entries).isSome := by
        cases below <;> cases crawlEntries fs incl j dir call.elem.isNone entries <;> simp
      simp only [Option.bind_eq_bind, Option.bind_some, Option.isSome_some, true_and]
      rw [joined, rest]
      by_cases hd : fs.isDirectory (fqn dir entry) = true
      · rw [dif_pos hd, imp_iff_right hd, and_left_comm]
      · rw [dif_neg hd]
        simp [hd]

/-- A crawl of readable directories runs to its end if it is shielded in each of them. -/
theorem crawlDir_isSome_iff {start : UStr} (readable : AllReadable fs start) :
    (crawlDir fs incl j start).isSome ↔ ∀ dir, Reached fs start dir →
      ∀ entries, fs.readDir dir = some entries → Shielded fs incl j (entries.map (fqn dir)) := by
  induction start using crawl_induction fs with
  | step dir ih =>
    rw [crawlDir]
    cases hr : fs.readDir dir with
    | none => exact absurd hr (readable dir (.here dir))
    | some entries =>
      obtain ⟨-, under⟩ := (forall_reached_iff hr).mp readable
      rw [forall_reached_iff hr]
      simp only [hr, Option.some.injEq, forall_eq', crawlEntries_isSome_iff, shieldedFrom_false]
      refine and_congr_right fun _ => forall₃_congr fun entry he hd => ?_
      exact ih entry hd (under entry he hd)

/-! ## What the calls do to the database -/

variable {utf : Utf} {db db' : StateDb} {name : UStr}

/-- A call for another name leaves the row and the messages of this one as they are. -/
theorem processElement_other {o : Observation} {m : Option Message}
    (h : processElement utf j o.name o.elem db = some (db', m)) (hn : o.name ≠ name) :
    db'.rows name = db.rows name ∧ conditions m.toList name = [] := by
  have key {e : Element} (he : o.elem = some e) : name ≠ e.name := by
    rw [o.named e (by simp [he])]
    exact Ne.symm hn
  simp only [processElement, Option.bind_eq_bind, Option.bind_eq_some_iff] at h
  obtain ⟨dbElem, -, h⟩ := h
  cases dbElem with
  | none =>
    cases he : o.elem with
    | none =>
      simp only [he, Option.some.injEq, Prod.mk.injEq] at h
      obtain ⟨rfl, rfl⟩ := h
      simp [conditions]
    | some e =>
      simp only [he, insertIntoStateDb, Option.bind_eq_bind, Option.bind_eq_some_iff,
        Option.some.injEq, Prod.mk.injEq] at h
      obtain ⟨_, ⟨_, -, rfl⟩, rfl, rfl⟩ := h
      simp [key he, conditions_message, hn]
  | some dbElem =>
    cases he : o.elem with
    | none =>
      simp only [he, Option.some.injEq, Prod.mk.injEq] at h
      obtain ⟨rfl, rfl⟩ := h
      simp [deleteFromStateDb, Ne.symm hn, conditions_message, hn]
    | some e =>
      simp only [he, Option.bind_eq_some_iff] at h
      obtain ⟨cmp, -, h⟩ := h
      split at h
      · simp only [updateIntoStateDb, Option.bind_eq_bind, Option.bind_eq_some_iff] at h
        obtain ⟨db₁, ⟨_, -, hdb⟩, h⟩ := h
        split at h
        · cases h
        · simp only [Option.bind_eq_some_iff] at h
          obtain ⟨kept, -, h⟩ := h
          split at h
          · cases h
          · simp only [Option.some.injEq, Prod.mk.injEq] at h hdb
            obtain ⟨rfl, rfl⟩ := h
            simp [← hdb, key he, conditions_message, hn]
      · simp only [Option.some.injEq, Prod.mk.injEq] at h
        obtain ⟨rfl, rfl⟩ := h
        simp [conditions]

/-- What calls without an element make of one name. -/
theorem processElement_removes {m : Option Message}
    (h : processElement utf j name none db = some (db', m)) :
    db'.rows name = none ∧
      conditions m.toList name = if (db.rows name).isSome then [.removed] else [] := by
  simp only [processElement, Option.bind_eq_bind, Option.bind_eq_some_iff] at h
  obtain ⟨dbElem, hget, h⟩ := h
  cases hrow : db.rows name with
  | none =>
    simp only [getElementFromStateDb, hrow, Option.some.injEq] at hget
    subst hget
    simp only [Option.some.injEq, Prod.mk.injEq] at h
    obtain ⟨rfl, rfl⟩ := h
    simp [hrow, conditions]
  | some row =>
    simp only [getElementFromStateDb, hrow, Option.map_eq_some_iff] at hget
    obtain ⟨stored, -, rfl⟩ := hget
    simp only [Option.some.injEq, Prod.mk.injEq] at h
    obtain ⟨rfl, rfl⟩ := h
    simp [deleteFromStateDb, conditions_message]

/-- The calls for a name that is never passed an element: its row is gone after the first, and
the removal is reported if there was a row. -/
theorem processAll_removes {calls : List Observation} {ms : List Message}
    (bare : ∀ o ∈ calls, o.name = name → o.elem = none)
    (h : processAll utf j db calls = some (db', ms)) :
    if name ∈ calls.map Observation.name then
      db'.rows name = none ∧
        conditions ms name = if (db.rows name).isSome then [.removed] else []
    else db'.rows name = db.rows name ∧ conditions ms name = [] := by
  induction calls generalizing db ms with
  | nil =>
    simp only [processAll, Option.some.injEq, Prod.mk.injEq] at h
    obtain ⟨rfl, rfl⟩ := h
    simp [conditions]
  | cons o calls ih =>
    rw [List.forall_mem_cons] at bare
    simp only [processAll, Option.bind_eq_bind, Option.bind_eq_some_iff, Option.some.injEq,
      Prod.mk.injEq] at h
    obtain ⟨⟨db₁, m⟩, first, ⟨db₂, ms'⟩, rest, rfl, rfl⟩ := h
    have later := ih bare.2 rest
    by_cases hn : o.name = name
    · rw [bare.1 hn, hn] at first
      obtain ⟨gone, told⟩ := processElement_removes first
      rw [conditions_append, told]
      simp only [List.map_cons, hn, List.mem_cons, true_or, ↓reduceIte]
      split at later
      · exact ⟨later.1, by simp [later.2, gone]⟩
      · exact ⟨later.1.trans gone, by simp [later.2]⟩
    · obtain ⟨row, told⟩ := processElement_other first hn
      rw [conditions_append, told, ← row]
      simpa only [List.map_cons, List.mem_cons, Ne.symm hn, false_or, List.nil_append] using later

end

/-- The crawl calls `process_element` for the visible entries, with a fresh element for the
monitored ones and with none for the others; then the others have no row, and are reported
removed if they had one. -/
def ProcessesMonitored (fs : FileSystem) (incl : UStr) (j : Job) (start : UStr) : Prop :=
  ∃ calls, crawlDir fs incl j start = some calls ∧
    (∀ name, name ∈ calls.map Observation.name ↔ VisibleEntry fs start name) ∧
    (∀ call ∈ calls, call = properCall fs incl j call.name) ∧
    ∀ utf db db' ms, processAll utf j db calls = some (db', ms) →
      ∀ name, VisibleEntry fs start name → Monitored incl j name = false →
        db'.rows name = none ∧
          conditions ms name = if (db.rows name).isSome then [.removed] else []

/-- A crawl of readable directories does what it should exactly if it is shielded in each. -/
theorem processesMonitored_iff_shielded {fs : FileSystem} {start : UStr}
    (readable : AllReadable fs start) (incl : UStr) (j : Job) :
    ProcessesMonitored fs incl j start ↔ ∀ dir, Reached fs start dir →
      ∀ entries, fs.readDir dir = some entries → Shielded fs incl j (entries.map (fqn dir)) := by
  rw [← crawlDir_isSome_iff readable, Option.isSome_iff_exists]
  constructor
  · rintro ⟨calls, h, -⟩
    exact ⟨calls, h⟩
  · rintro ⟨calls, h⟩
    have visible (name : UStr) : name ∈ calls.map Observation.name ↔ VisibleEntry fs start name :=
      mem_visitDir (crawlDir_names h) name
    have proper : ∀ call ∈ calls, call = properCall fs incl j call.name := by
      obtain ⟨names, -, rfl⟩ := crawlDir_proper h
      simp [properCall_name]
    refine ⟨calls, h, visible, proper, fun utf db db' ms hall name seen other => ?_⟩
    have bare : ∀ o ∈ calls, o.name = name → o.elem = none := by
      rintro o ho rfl
      rw [proper o ho, properCall, other]
      rfl
    simpa [visible, seen] using processAll_removes bare hall

/-- A job with the exclude `/d/f`, or none. -/
def fileTypeJob (excludes : List UStr) : Job where
  configName := [99]
  recipient := [114]
  includes := [[47, 100, 47, 63]]
  excludes
  attrTypes := [.fileType]

theorem nestedFiles_names : ([⟨[115], by decide⟩, ⟨[102], by decide⟩] : List EntryName).map
    (fqn [47, 100]) = [[47, 100, 47, 115], [47, 100, 47, 102]] := rfl

/-- `/d/?` matches both entries of the directory. -/
theorem shielded_question : ∀ dir, Reached (nestedFiles false) [47, 100] dir →
    ∀ entries, (nestedFiles false).readDir dir = some entries →
      Shielded (nestedFiles false) [47, 100, 47, 63] (fileTypeJob []) (entries.map (fqn dir)) := by
  apply forall_reached_nested
  · intro entries hr
    rw [nestedFiles_top, Option.some_inj] at hr
    subst hr
    rintro before cur after split other
    have listed : cur ∈ before ++ cur :: after := List.mem_append_right _ List.mem_cons_self
    rw [← split, nestedFiles_names] at listed
    simp only [List.mem_cons, List.not_mem_nil, or_false] at listed
    obtain rfl | rfl := listed <;>
      simp [Monitored, matchesExcludes, fileTypeJob, Glob.fileNameMatches,
        Glob.fileNameMatchesImpl, star, backslash, question, dirSep] at other
  · intro entries hr
    obtain rfl : [] = entries := Option.some_inj.mp hr
    rintro before cur after split
    simp at split

theorem processesMonitored_question :
    ProcessesMonitored (nestedFiles false) [47, 100, 47, 63] (fileTypeJob []) [47, 100] :=
  (processesMonitored_iff_shielded nestedFiles_readable [47, 100, 47, 63] (fileTypeJob [])).mpr
    shielded_question

/-- The file is excluded, and the crawl comes to it with the freed element of the directory. -/
theorem excluded_after_collected :
    AllReadable (nestedFiles false) [47, 100] ∧
      ¬ ProcessesMonitored (nestedFiles false) [47, 100, 47, 63]
        (fileTypeJob [[47, 100, 47, 102]]) [47, 100] := by
  refine ⟨nestedFiles_readable, ?_⟩
  rintro ⟨calls, h, -⟩
  have shielded := (crawlDir_isSome_iff nestedFiles_readable).mp
    (Option.isSome_iff_exists.mpr ⟨calls, h⟩) [47, 100] (.here _) _ (nestedFiles_top false)
  rw [nestedFiles_names] at shielded
  have excluded : Monitored [47, 100, 47, 63] (fileTypeJob [[47, 100, 47, 102]])
      [47, 100, 47, 102] = false := by
    simp [Monitored, matchesExcludes, fileTypeJob, Glob.fileNameMatches,
      Glob.fileNameMatchesImpl, star, backslash, question]
  obtain ⟨last, hlast, lost⟩ := shielded [[47, 100, 47, 115]] _ [] rfl excluded
  obtain rfl : last = [47, 100, 47, 115] := by
    have := List.mem_of_getLast? hlast
    simp only [List.mem_filter, List.mem_singleton] at this
    exact this.1
  cases lost

end Yella
