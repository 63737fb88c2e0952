import Mathlib.Computability.Language
import Yella.Job.ProcessElement
import Yella.Element.Compare

/-!
# The change log and the state database

What the database holds and what has been reported after any sequence of observations.
-/

namespace Yella

/-- The last observation of a name: the element, or nothing. -/
def lastSeen (obs : List Observation) : UStr → Option Element :=
  obs.foldl (fun seen o name => if o.name = name then o.elem else seen name) (fun _ => none)

@[simp] theorem lastSeen_snoc (obs : List Observation) (o : Observation) (name : UStr) :
    lastSeen (obs ++ [o]) name = if o.name = name then o.elem else lastSeen obs name := by
  simp [lastSeen]

/-- The later element has every attribute type of the earlier one. -/
def Covers (later earlier : Element) : Prop :=
  ∀ a ∈ earlier.attrs, ∃ b ∈ later.attrs, b.type = a.type

/-- An observation that drops no attribute type of the last one of its name. -/
def KeepsTypes (obs : List Observation) (o : Observation) : Prop :=
  ∀ e ∈ o.elem, ∀ p ∈ lastSeen obs o.name, Covers e p

/-- No observation of the sequence drops a type. -/
def NoTypeLost (obs : List Observation) : Prop :=
  ∀ pre o post, obs = pre ++ o :: post → KeepsTypes pre o

theorem noTypeLost_snoc {obs : List Observation} {o : Observation} :
    NoTypeLost (obs ++ [o]) ↔ NoTypeLost obs ∧ KeepsTypes obs o := by
  constructor
  · intro h
    refine ⟨fun pre p post he => h pre p (post ++ [o]) (by simp [he]), h obs o [] rfl⟩
  · rintro ⟨h, ho⟩ pre p post he
    rcases List.eq_nil_or_concat post with rfl | ⟨post, q, rfl⟩
    · obtain ⟨rfl, last⟩ := List.append_inj' he rfl
      obtain rfl : o = p := by simpa using last
      exact ho
    · have : obs ++ [o] = (pre ++ p :: post) ++ [q] := by simp [he]
      exact h pre p post (List.append_inj' this rfl).1

/-- What is stored reads back unchanged, and comparing it is defined. -/
structure Observation.Stores (utf : Utf) (o : Observation) : Prop where
  readsBack : ∀ e ∈ o.elem, storeAndRead utf e.name e = some e
  fits : ∀ e ∈ o.elem, ∀ a ∈ e.attrs, a.Fits

theorem storable_of_readsBack {utf : Utf} {name : UStr} {e f : Element}
    (h : storeAndRead utf name e = some f) : ∀ a ∈ e.attrs, a.Storable := by
  intro a ha
  by_contra hs
  rw [storeAndRead_eq, Fallible.mapM_eq_none ⟨a, ha, attributeBack_not_storable hs⟩] at h
  cases h

theorem Observation.Stores.comparable {utf : Utf} {o : Observation} (h : o.Stores utf)
    {e : Element} (he : e ∈ o.elem) : e.Comparable :=
  fun a ha => ⟨storable_of_readsBack (h.readsBack e he) a ha, h.fits e he a ha⟩

theorem packed_of_readsBack {utf : Utf} {name : UStr} {e f : Element}
    (h : storeAndRead utf name e = some f) :
    ∃ packed, packElementAttributes utf e = some packed ∧
      createElementWithAttrs utf name packed = some f := by
  unfold storeAndRead at h
  cases hp : packElementAttributes utf e with
  | none => simp [hp] at h
  | some packed => exact ⟨packed, rfl, by simpa [hp] using h⟩

/-! ## The reported conditions -/

/-- The conditions reported for one name. -/
def conditions (ms : List Message) (name : UStr) : List FileCondition :=
  (ms.filter (fun m => m.name = name)).map Message.cond

open Computability in
/-- `(ADDED CHANGED* REMOVED)*` -/
def closedLog : Language FileCondition := ({[.added]} * {[.changed]}∗ * {[.removed]})∗

open Computability in
/-- `(ADDED CHANGED* REMOVED)* ADDED CHANGED*`: the same, cut off while the file is there. -/
def openLog : Language FileCondition := closedLog * ({[.added]} * {[.changed]}∗)

open Computability in
theorem kstar_snoc {α : Type} {l : Language α} {x y : List α} (hx : x ∈ l∗) (hy : y ∈ l) :
    x ++ y ∈ l∗ := by
  obtain ⟨L, rfl, hL⟩ := Language.mem_kstar.mp hx
  refine Language.mem_kstar.mpr ⟨L ++ [y], by simp, ?_⟩
  intro z hz
  rcases List.mem_append.mp hz with hz | hz
  · exact hL z hz
  · rwa [List.mem_singleton.mp hz]

theorem nil_closedLog : [] ∈ closedLog := Language.nil_mem_kstar _

open Computability in
theorem closedLog_added {t : List FileCondition} (h : t ∈ closedLog) : t ++ [.added] ∈ openLog := by
  have : [.added] ++ [] ∈ ({[.added]} : Language FileCondition) * {[.changed]}∗ :=
    Language.append_mem_mul rfl (Language.nil_mem_kstar _)
  exact Language.append_mem_mul h this

theorem openLog_changed {t : List FileCondition} (h : t ∈ openLog) :
    t ++ [.changed] ∈ openLog := by
  obtain ⟨u, hu, v, ⟨w, hw, x, hx, rfl⟩, rfl⟩ := h
  simp only [List.append_assoc]
  exact Language.append_mem_mul hu (Language.append_mem_mul hw (kstar_snoc hx rfl))

theorem openLog_removed {t : List FileCondition} (h : t ∈ openLog) :
    t ++ [.removed] ∈ closedLog := by
  obtain ⟨u, hu, v, hv, rfl⟩ := h
  simp only [List.append_assoc]
  exact kstar_snoc hu (Language.append_mem_mul hv rfl)

/-! ## One call -/

/-- The invariant: what is stored and reported after the calls `obs`. -/
structure Logged (utf : Utf) (obs : List Observation) (db : StateDb) (ms : List Message) :
    Prop where
  absent : ∀ n, lastSeen obs n = none → db.rows n = none ∧ conditions ms n ∈ closedLog
  present : ∀ n p, lastSeen obs n = some p → conditions ms n ∈ openLog ∧
    ∃ s, (∃ packed, db.rows n = some packed ∧ createElementWithAttrs utf n packed = some s) ∧
      s.name = n ∧ s.Comparable ∧ compareElementAttributes p s = some 0

theorem logged_start (utf : Utf) : Logged utf [] .empty [] where
  absent := fun _ _ => ⟨rfl, nil_closedLog⟩
  present := by intro n p h; cases h

theorem conditions_append (ms ms' : List Message) (n : UStr) :
    conditions (ms ++ ms') n = conditions ms n ++ conditions ms' n := by
  simp [conditions]

theorem conditions_message (j : Job) (name n : UStr) (attrs : Option (List Attribute))
    (c : FileCondition) :
    conditions [message j name attrs c] n = if name = n then [c] else [] := by
  by_cases h : name = n <;> simp [conditions, message, h]

section
variable {utf : Utf} {j : Job} {obs : List Observation} {o : Observation} {db db' : StateDb}
  {ms : List Message} {m : Option Message}

theorem getElement_of_row {n : UStr} {packed : Option FbAttrArray} {s : Element}
    (hrow : db.rows n = some packed) (hs : createElementWithAttrs utf n packed = some s) :
    getElementFromStateDb utf db n = some (some s) := by
  simp [getElementFromStateDb, hrow, hs]

/-- The invariant is kept when the other rows stay, nothing is reported of other names, and
the observed name is right. -/
theorem Logged.next (h : Logged utf obs db ms)
    (rows : ∀ n, n ≠ o.name → db'.rows n = db.rows n)
    (reports : ∀ n, n ≠ o.name → conditions m.toList n = [])
    (absent : o.elem = none →
      db'.rows o.name = none ∧ conditions (ms ++ m.toList) o.name ∈ closedLog)
    (present : ∀ p, o.elem = some p → conditions (ms ++ m.toList) o.name ∈ openLog ∧
      ∃ s, (∃ packed, db'.rows o.name = some packed ∧
          createElementWithAttrs utf o.name packed = some s) ∧
        s.name = o.name ∧ s.Comparable ∧ compareElementAttributes p s = some 0) :
    Logged utf (obs ++ [o]) db' (ms ++ m.toList) where
  absent := by
    intro n hn
    rw [lastSeen_snoc] at hn
    by_cases ho : o.name = n
    · subst ho
      exact absent (by simpa using hn)
    · rw [conditions_append, reports n (Ne.symm ho), rows n (Ne.symm ho), List.append_nil]
      exact h.absent n (by simpa [ho] using hn)
  present := by
    intro n p hn
    rw [lastSeen_snoc] at hn
    by_cases ho : o.name = n
    · subst ho
      exact present p (by simpa using hn)
    · rw [conditions_append, reports n (Ne.symm ho), rows n (Ne.symm ho), List.append_nil]
      exact h.present n p (by simpa [ho] using hn)

/-- What a call does when the log agrees with the files: other entries are untouched, and a message
is sent exactly when presence changed or the comparison was not zero. -/
structure CallAgrees (utf : Utf) (o : Observation) (db db' : StateDb) (m : Option Message) :
    Prop where
  others : ∀ n, n ≠ o.name → db'.rows n = db.rows n
  reported : ∃ before, getElementFromStateDb utf db o.name = some before ∧
    (m.isSome ↔ before.isSome ≠ o.elem.isSome ∨
      ∃ s e, before = some s ∧ o.elem = some e ∧ compareElementAttributes e s ≠ some 0)

/-- A call on a name with no entry. -/
theorem call_unknown (h : Logged utf obs db ms) (stores : o.Stores utf)
    (unseen : lastSeen obs o.name = none) :
    ∃ db' m, processElement utf j o.name o.elem db = some (db', m) ∧
      Logged utf (obs ++ [o]) db' (ms ++ m.toList) ∧ CallAgrees utf o db db' m := by
  obtain ⟨hrow, hlog⟩ := h.absent o.name unseen
  have hget : getElementFromStateDb utf db o.name = some none := by
    simp [getElementFromStateDb, hrow]
  cases he : o.elem with
  | none =>
    refine ⟨db, none, by simp [processElement, hget], ?_, ?_⟩
    · exact h.next (fun _ _ => rfl) (fun _ _ => rfl)
        (fun _ => ⟨hrow, by simpa using hlog⟩) (by simp [he])
    · exact ⟨fun _ _ => rfl, none, hget, by simp [he]⟩
  | some e =>
    have hname : e.name = o.name := o.named e he
    obtain ⟨packed, hpack, hread⟩ := packed_of_readsBack (stores.readsBack e he)
    rw [hname] at hread
    refine ⟨⟨fun n => if n = e.name then some packed else db.rows n⟩,
      some (message j o.name (some e.attrs) .added), ?_, ?_, ?_⟩
    · simp [processElement, hget, insertIntoStateDb, hpack]
    · apply h.next
      · intro n hn; simp [hname, hn]
      · intro n hn; simp [conditions_message, Ne.symm hn]
      · simp [he]
      · intro p hp
        obtain rfl : e = p := by simpa [he] using hp
        refine ⟨?_, e, ⟨packed, by simp [hname], hread⟩, hname, stores.comparable he, ?_⟩
        · simpa [conditions_append, conditions_message] using closedLog_added hlog
        · exact compareElementAttributes_self (stores.comparable he)
    · refine ⟨fun n hn => by simp [hname, hn], none, hget, by simp [he]⟩

/-- A call on a name with an entry, that loses no attribute type. -/
theorem call_known (h : Logged utf obs db ms) (stores : o.Stores utf) {p : Element}
    (seen : lastSeen obs o.name = some p) (keeps : KeepsTypes obs o) :
    ∃ db' m, processElement utf j o.name o.elem db = some (db', m) ∧
      Logged utf (obs ++ [o]) db' (ms ++ m.toList) ∧ CallAgrees utf o db db' m := by
  obtain ⟨hlog, s, ⟨row, hrow, hread⟩, hsname, hscmp, hps⟩ := h.present o.name p seen
  have hget := getElement_of_row hrow hread
  cases he : o.elem with
  | none =>
    refine ⟨deleteFromStateDb db o.name, some (message j o.name none .removed), ?_, ?_, ?_⟩
    · simp [processElement, hget]
    · apply h.next
      · intro n hn; simp [deleteFromStateDb, hn]
      · intro n hn; simp [conditions_message, Ne.symm hn]
      · intro _
        refine ⟨by simp [deleteFromStateDb], ?_⟩
        simpa [conditions_append, conditions_message] using openLog_removed hlog
      · simp [he]
    · exact ⟨fun n hn => by simp [deleteFromStateDb, hn], some s, hget, by simp [he]⟩
  | some e =>
    have hname : e.name = o.name := o.named e he
    have hecmp := stores.comparable he
    obtain ⟨cmp, hcmp⟩ := compareElementAttributes_defined hecmp hscmp
    by_cases hz : cmp = 0
    · subst hz
      refine ⟨db, none, by simp [processElement, hget, hcmp], ?_, ?_⟩
      · apply h.next (fun _ _ => rfl) (fun _ _ => rfl) (by simp [he])
        intro q hq
        obtain rfl : e = q := by simpa [he] using hq
        exact ⟨by simpa using hlog, s, ⟨row, hrow, hread⟩, hsname, hscmp, hcmp⟩
      · refine ⟨fun _ _ => rfl, some s, hget, by simp [he, hcmp]⟩
    · obtain ⟨packed, hpack, hback⟩ := packed_of_readsBack (stores.readsBack e he)
      rw [hname] at hback
      obtain ⟨kept, hkept⟩ := diffKept_defined hscmp hecmp
      -- the entry has the types of the last observation, so nothing is taken over from it
      have taken : diffTaken e.attrs s.attrs = [] := by
        rw [diffTaken_eq_nil e.sorted]
        intro a ha
        have : a.type ∈ p.attrs.map Attribute.type := by
          rw [compareElementAttributes_types hps]
          exact List.mem_map_of_mem ha
        obtain ⟨b, hb, hab⟩ := List.mem_map.mp this
        obtain ⟨c, hc, hcb⟩ := keeps e he p seen b hb
        exact ⟨c, hc, hcb.trans hab⟩
      refine ⟨⟨fun n => if n = e.name then (db.rows n).map (fun _ => packed) else db.rows n⟩,
        some (message j o.name (some kept) .changed), ?_, ?_, ?_⟩
      · simp [processElement, hget, hcmp, hz, updateIntoStateDb, hpack, hname, hsname, hkept,
          taken]
      · apply h.next
        · intro n hn; simp [hname, hn]
        · intro n hn; simp [conditions_message, Ne.symm hn]
        · simp [he]
        · intro q hq
          obtain rfl : e = q := by simpa [he] using hq
          refine ⟨?_, e, ⟨packed, by simp [hname, hrow], hback⟩, hname, hecmp, ?_⟩
          · simpa [conditions_append, conditions_message] using openLog_changed hlog
          · exact compareElementAttributes_self hecmp
      · refine ⟨fun n hn => by simp [hname, hn], some s, hget, ?_⟩
        simp [he, hcmp, hz]

theorem call_agrees (h : Logged utf obs db ms) (stores : o.Stores utf)
    (keeps : KeepsTypes obs o) :
    ∃ db' m, processElement utf j o.name o.elem db = some (db', m) ∧
      Logged utf (obs ++ [o]) db' (ms ++ m.toList) ∧ CallAgrees utf o db db' m := by
  cases hs : lastSeen obs o.name with
  | none => exact call_unknown h stores hs
  | some p => exact call_known h stores hs keeps

/-- A call that returns has not lost a type: the nodes taken over from the entry would have
been read after they were freed. -/
theorem keepsTypes_of_returns (h : Logged utf obs db ms)
    (returns : processElement utf j o.name o.elem db = some (db', m)) : KeepsTypes obs o := by
  intro e he p hp a ha
  obtain ⟨_, s, ⟨row, hrow, hread⟩, _, _, hps⟩ := h.present o.name p hp
  have hget := getElement_of_row hrow hread
  have htypes := compareElementAttributes_types hps
  have hin : a.type ∈ s.attrs.map Attribute.type := by
    rw [← htypes]
    exact List.mem_map_of_mem ha
  obtain ⟨c, hc, hca⟩ := List.mem_map.mp hin
  have he' : o.elem = some e := he
  simp only [processElement, hget, he', Option.bind_eq_bind, Option.bind_some] at returns
  cases hcmp : compareElementAttributes e s with
  | none => simp [hcmp] at returns
  | some cmp =>
    by_cases hz : cmp = 0
    · rw [hz] at hcmp
      have : a.type ∈ e.attrs.map Attribute.type := by
        rw [compareElementAttributes_types hcmp]
        exact hin
      obtain ⟨b, hb, hba⟩ := List.mem_map.mp this
      exact ⟨b, hb, hba⟩
    · have taken : diffTaken e.attrs s.attrs = [] := by
        by_contra hne
        simp only [hcmp, Option.bind_some, ne_eq, hz, not_false_eq_true, ↓reduceIte, hne] at returns
        cases hu : updateIntoStateDb utf db e <;> cases hd : diffKept s.attrs e.attrs <;>
          simp [hu, hd] at returns
      obtain ⟨b, hb, hbc⟩ := (diffTaken_eq_nil e.sorted).mp taken c hc
      exact ⟨b, hb, hbc.trans hca⟩

/-! ## Sequences of calls -/

theorem processAll_snoc (db : StateDb) (obs : List Observation) (o : Observation) :
    processAll utf j db (obs ++ [o]) = (processAll utf j db obs).bind fun r =>
      (processElement utf j o.name o.elem r.1).map fun q => (q.1, r.2 ++ q.2.toList) := by
  induction obs generalizing db with
  | nil =>
    simp only [List.nil_append, processAll, Option.bind_eq_bind, Option.bind_some]
    cases processElement utf j o.name o.elem db <;> simp
  | cons p obs ih =>
    simp only [List.cons_append, processAll, Option.bind_eq_bind]
    cases processElement utf j p.name p.elem db with
    | none => rfl
    | some r =>
      simp only [Option.bind_some, ih]
      cases processAll utf j r.1 obs with
      | none => rfl
      | some q =>
        simp only [Option.bind_some]
        cases processElement utf j o.name o.elem q.1 <;> simp

theorem logged_of_noTypeLost (utf : Utf) (j : Job) (obs : List Observation)
    (stores : ∀ o ∈ obs, o.Stores utf) (keeps : NoTypeLost obs) :
    ∃ db ms, processAll utf j .empty obs = some (db, ms) ∧ Logged utf obs db ms := by
  induction obs using List.reverseRecOn with
  | nil => exact ⟨.empty, [], rfl, logged_start utf⟩
  | append_singleton obs o ih =>
    obtain ⟨keepsPre, keepsLast⟩ := noTypeLost_snoc.mp keeps
    obtain ⟨db, ms, hrun, hlog⟩ := ih (fun p hp => stores p (by simp [hp])) keepsPre
    obtain ⟨db', m, hcall, hlog', _⟩ :=
      call_agrees (j := j) hlog (stores o (by simp)) keepsLast
    exact ⟨db', ms ++ m.toList, by simp [processAll_snoc, hrun, hcall], hlog'⟩

end

/-- What the database holds and what has been reported after the calls `obs`. -/
structure DatabaseAgrees (utf : Utf) (obs : List Observation) (db : StateDb)
    (ms : List Message) : Prop where
  /-- There is an entry exactly for the names last observed present. -/
  present_iff : ∀ n, (db.rows n).isSome ↔ (lastSeen obs n).isSome
  /-- The entry compares equal to the last observation. -/
  equal : ∀ n p, lastSeen obs n = some p →
    ∃ s, getElementFromStateDb utf db n = some (some s) ∧ compareElementAttributes p s = some 0
  closedShape : ∀ n, lastSeen obs n = none → conditions ms n ∈ closedLog
  openShape : ∀ n, lastSeen obs n ≠ none → conditions ms n ∈ openLog

theorem Logged.agrees {utf : Utf} {obs : List Observation} {db : StateDb} {ms : List Message}
    (h : Logged utf obs db ms) : DatabaseAgrees utf obs db ms where
  present_iff := by
    intro n
    cases hn : lastSeen obs n with
    | none => simp [(h.absent n hn).1]
    | some p =>
      obtain ⟨_, s, ⟨row, hrow, _⟩, _⟩ := h.present n p hn
      simp [hrow]
  equal := by
    intro n p hn
    obtain ⟨_, s, ⟨row, hrow, hread⟩, _, _, hps⟩ := h.present n p hn
    exact ⟨s, getElement_of_row hrow hread, hps⟩
  closedShape := fun n hn => (h.absent n hn).2
  openShape := by
    intro n hn
    obtain ⟨p, hp⟩ := Option.ne_none_iff_exists'.mp hn
    exact (h.present n p hp).1

/-- Every call of the sequence returns, and after it the database and the reported
conditions agree with the observations so far. -/
def ChangeLogAgrees (utf : Utf) (j : Job) (obs : List Observation) : Prop :=
  ∀ pre o post, obs = pre ++ o :: post →
    ∃ db ms db' m, processAll utf j .empty pre = some (db, ms) ∧
      processElement utf j o.name o.elem db = some (db', m) ∧
      DatabaseAgrees utf (pre ++ [o]) db' (ms ++ m.toList) ∧ CallAgrees utf o db db' m

/-- The change log agrees with the database through a sequence of observations exactly when
no observation lacks an attribute type that the last one of its name had. -/
theorem changeLog_agrees_iff (utf : Utf) (j : Job) (obs : List Observation)
    (stores : ∀ o ∈ obs, o.Stores utf) : ChangeLogAgrees utf j obs ↔ NoTypeLost obs := by
  constructor
  · intro h
    induction obs using List.reverseRecOn with
    | nil => intro pre o post he; simp at he
    | append_singleton obs o ih =>
      have keepsPre : NoTypeLost obs := by
        apply ih (fun p hp => stores p (by simp [hp]))
        intro pre p post he
        exact h pre p (post ++ [o]) (by simp [he])
      obtain ⟨db, ms, db', m, hrun, hcall, _⟩ := h obs o [] rfl
      obtain ⟨db₀, ms₀, hrun₀, hlog⟩ :=
        logged_of_noTypeLost utf j obs (fun p hp => stores p (by simp [hp])) keepsPre
      rw [hrun] at hrun₀
      cases hrun₀
      exact noTypeLost_snoc.mpr ⟨keepsPre, keepsTypes_of_returns hlog hcall⟩
  · intro keeps pre o post he
    subst he
    have keepsPre : NoTypeLost pre := by
      intro a p b hab
      exact keeps a p (b ++ o :: post) (by simp [hab])
    obtain ⟨db, ms, hrun, hlog⟩ :=
      logged_of_noTypeLost utf j pre (fun p hp => stores p (by simp [hp])) keepsPre
    obtain ⟨db', m, hcall, hlog', hagrees⟩ :=
      call_agrees (j := j) hlog (stores o (by simp)) (keeps pre o post rfl)
    exact ⟨db, ms, db', m, hrun, hcall, hlog'.agrees, hagrees⟩

def hashJob : Job where
  configName := [99]
  recipient := [114]
  includes := [[47, 100, 47, 42]]
  excludes := []
  attrTypes := [.fileType, .sha256]

/-- A regular file, with one byte in the place of its hash. -/
def hashedFile (hash : UInt8) : Element where
  name := [47, 100, 47, 102]
  attrs := [.fileType .regular, .sha256 [hash]]
  sorted := by simp [SortedList.Sorted, attrKey, Attribute.type, AttributeType.toNat]

/-- A directory of that name. No hash is taken of a directory. -/
def directoryInPlace : Element where
  name := [47, 100, 47, 102]
  attrs := [.fileType .directory]
  sorted := by simp [SortedList.Sorted]

/-- The job sees an element under its own name. -/
def observed (e : Element) : Observation where
  name := e.name
  elem := some e
  named := by rintro e ⟨⟩; rfl

theorem observed_hashedFile_stores (hash : UInt8) :
    (observed (hashedFile hash)).Stores asciiUtf where
  readsBack := by rintro e ⟨⟩; rfl
  fits := by
    rintro e ⟨⟩ a ha
    rcases List.mem_pair.mp ha with rfl | rfl
    · trivial
    · show 1 < 0x100000000
      decide

theorem observed_directoryInPlace_stores : (observed directoryInPlace).Stores asciiUtf where
  readsBack := by rintro e ⟨⟩; rfl
  fits := by
    rintro e ⟨⟩ a ha
    rw [List.mem_singleton.mp ha]
    trivial

theorem changeLog_agrees_hashedFile :
    ChangeLogAgrees asciiUtf hashJob [observed (hashedFile 1), observed (hashedFile 2)] := by
  refine (changeLog_agrees_iff asciiUtf hashJob _ ?_).mpr ?_
  · intro o ho
    rcases List.mem_pair.mp ho with rfl | rfl <;> exact observed_hashedFile_stores _
  · have start : NoTypeLost [] := by intro pre o post he; simp at he
    have one : NoTypeLost ([] ++ [observed (hashedFile 1)]) :=
      noTypeLost_snoc.mpr ⟨start, by rintro e he p ⟨⟩⟩
    refine noTypeLost_snoc.mpr ⟨one, ?_⟩
    rintro e ⟨⟩ p ⟨⟩ a ha
    rcases List.mem_pair.mp ha with rfl | rfl
    · exact ⟨.fileType .regular, by simp [hashedFile], rfl⟩
    · exact ⟨.sha256 [2], by simp [hashedFile], rfl⟩

/-- The hash that the entry had is taken over into the message, and freed before it is sent. -/
theorem directoryInPlace_disagrees :
    (∀ o ∈ [observed (hashedFile 1), observed directoryInPlace], o.Stores asciiUtf) ∧
    ¬ ChangeLogAgrees asciiUtf hashJob [observed (hashedFile 1), observed directoryInPlace] := by
  constructor
  · intro o ho
    rcases List.mem_pair.mp ho with rfl | rfl
    · exact observed_hashedFile_stores 1
    · exact observed_directoryInPlace_stores
  · intro h
    obtain ⟨db, ms, db', m, hrun, hcall, -⟩ := h [observed (hashedFile 1)] _ [] rfl
    have crash : processAll asciiUtf hashJob .empty
        ([observed (hashedFile 1)] ++ [observed directoryInPlace]) = none := rfl
    rw [processAll_snoc, hrun] at crash
    simp [hcall] at crash

end Yella
