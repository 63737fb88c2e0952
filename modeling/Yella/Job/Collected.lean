import Yella.Job.Crawl

/-!
# What is collected of a file

The attributes in an element are those that the file has of the types asked for. Neither an
element nor what a job observes depends on the order of these types.
-/

namespace Yella

section
variable {fs : FileSystem} {name : UStr} {st : Stat} {ts ts' : List AttributeType}

/-- The attribute of this type, if the file has one. -/
def attributeOf (fs : FileSystem) (name : UStr) (st : Stat) : AttributeType → Option Attribute
  | .fileType => some (.fileType st.fileType)
  | .sha256 =>
    if st.fileType = .regular ∨ st.fileType = .symbolicLink then (fs.sha256 name).map .sha256
    else none
  | .posixPermissions => some (.posixPermissions st.permissions)
  | .user => some (.user st.user)
  | .group => some (.group st.group)
  | .size => some (.size st.size)
  | .accessTime => some (.accessTime st.accessTime)
  | .metadataChangeTime => some (.metadataChangeTime st.metadataChangeTime)
  | .modificationTime => some (.modificationTime st.modificationTime)
  | .posixAcl => (fs.posixAcl name).map .posixAcl

theorem attributeOf_type {t : AttributeType} {a : Attribute}
    (h : attributeOf fs name st t = some a) : a.type = t := by
  cases t with
  | sha256 =>
    rw [attributeOf] at h
    split at h
    · obtain ⟨md, -, rfl⟩ := Option.map_eq_some_iff.mp h
      rfl
    · cases h
  | posixAcl =>
    obtain ⟨acl, -, rfl⟩ := Option.map_eq_some_iff.mp h
    rfl
  | _ =>
    cases h
    rfl

/-- The types in the order in which their attributes are added: the access time is last. -/
def inAddOrder (ts : List AttributeType) : List AttributeType :=
  ts.filter (· ≠ .accessTime) ++ if .accessTime ∈ ts then [.accessTime] else []

theorem inAddOrder_perm (perm : ts.Perm ts') : (inAddOrder ts).Perm (inAddOrder ts') := by
  unfold inAddOrder
  rw [if_congr perm.mem_iff rfl rfl]
  exact (perm.filter _).append_right _

theorem collectAttribute_attrs (e : Element) {t : AttributeType} (other : t ≠ .accessTime) :
    (collectAttribute fs st e t).attrs =
      (attributeOf fs e.name st t).toList.foldl (fun l a => SortedList.add attrKey a l)
        e.attrs := by
  cases t with
  | accessTime => exact absurd rfl other
  | sha256 =>
    simp only [collectAttribute, handleSha256, attributeOf]
    split
    · cases fs.sha256 e.name <;> rfl
    · rfl
  | posixAcl =>
    simp only [collectAttribute, handlePosixAcl, attributeOf]
    cases fs.posixAcl e.name <;> rfl
  | _ => rfl

theorem foldl_collectAttribute_attrs (fs : FileSystem) (st : Stat) (ts : List AttributeType)
    (e : Element) :
    (ts.foldl (collectAttribute fs st) e).attrs =
      ((ts.filter (· ≠ .accessTime)).filterMap (attributeOf fs e.name st)).foldl
        (fun l a => SortedList.add attrKey a l) e.attrs := by
  induction ts generalizing e with
  | nil => rfl
  | cons t ts ih =>
    rw [List.foldl_cons, ih, collectAttribute_name]
    by_cases access : t = .accessTime
    · subst access
      rfl
    · rw [collectAttribute_attrs e access, List.filter_cons_of_pos (by simpa using access)]
      cases found : attributeOf fs e.name st t with
      | none => rw [List.filterMap_cons_none found]; rfl
      | some a => rw [List.filterMap_cons_some found]; rfl

/-- The attributes that are added, one after the other. -/
def attributesOf (fs : FileSystem) (name : UStr) (st : Stat) (ts : List AttributeType) :
    List Attribute :=
  (inAddOrder ts).filterMap (attributeOf fs name st)

theorem collectAttributes_attrs {e : Element} (h : collectAttributes fs name ts = some e) :
    ∃ st, fs.stat name = some st ∧
      e.attrs = (attributesOf fs name st ts).foldl (fun l a => SortedList.add attrKey a l) [] := by
  unfold collectAttributes at h
  split at h
  · split at h
    · cases h
    · rename_i st found
      refine ⟨st, found, ?_⟩
      have each := foldl_collectAttribute_attrs fs st ts (createElement name)
      rw [createElement_attrs, createElement_name] at each
      simp only at h
      split at h
      · rename_i access
        cases h
        rw [addElementAttribute_attrs, each, attributesOf, inAddOrder, if_pos access,
          List.filterMap_append, List.foldl_append]
        rfl
      · rename_i access
        cases h
        rw [each, attributesOf, inAddOrder, if_neg access, List.append_nil]
  · cases h

theorem mem_attributesOf {a : Attribute} (h : a ∈ attributesOf fs name st ts) :
    attributeOf fs name st a.type = some a := by
  obtain ⟨t, -, found⟩ := List.mem_filterMap.mp h
  rwa [attributeOf_type found]

/-- Attributes of one type in an element are the same. -/
def Element.Uniform (e : Element) : Prop := ∀ a ∈ e.attrs, ∀ b ∈ e.attrs, a.type = b.type → a = b

theorem attributesOf_uniform : ∀ a ∈ attributesOf fs name st ts, ∀ b ∈ attributesOf fs name st ts,
    a.type = b.type → a = b := by
  intro a ha b hb same
  have found := mem_attributesOf ha
  rw [same, mem_attributesOf hb] at found
  exact (Option.some.inj found).symm

theorem collectAttributes_uniform {e : Element} (h : collectAttributes fs name ts = some e) :
    e.Uniform := by
  obtain ⟨st, -, attrs⟩ := collectAttributes_attrs h
  have mem (a : Attribute) : a ∈ e.attrs ↔ a ∈ attributesOf fs name st ts := by
    rw [attrs, SortedList.mem_foldl_add]
    simp
  intro a ha b hb
  exact attributesOf_uniform a ((mem a).mp ha) b ((mem b).mp hb)

/-! ## The order of the types -/

theorem collectAttributes_isSome (fs : FileSystem) (name : UStr) (ts : List AttributeType) :
    (collectAttributes fs name ts).isSome = (fs.fileExists name && (fs.stat name).isSome) := by
  unfold collectAttributes
  split
  · rename_i there
    rw [there, Bool.true_and]
    cases fs.stat name with
    | none => rfl
    | some st =>
      simp only
      split <;> rfl
  · rename_i absent
    rw [Bool.eq_false_iff.mpr absent, Bool.false_and]
    rfl

theorem collectAttributes_perm (fs : FileSystem) (name : UStr) (perm : ts.Perm ts') :
    collectAttributes fs name ts = collectAttributes fs name ts' := by
  have there : (collectAttributes fs name ts).isSome = (collectAttributes fs name ts').isSome := by
    rw [collectAttributes_isSome, collectAttributes_isSome]
  cases first : collectAttributes fs name ts with
  | none =>
    rw [first] at there
    exact (Option.isNone_iff_eq_none.mp (by simpa using there.symm)).symm
  | some e =>
    rw [first] at there
    obtain ⟨e', second⟩ := Option.isSome_iff_exists.mp there.symm
    obtain ⟨st, stat, attrs⟩ := collectAttributes_attrs first
    obtain ⟨st', stat', attrs'⟩ := collectAttributes_attrs second
    cases stat.symm.trans stat'
    have added : (attributesOf fs name st ts).Perm (attributesOf fs name st ts') :=
      (inAddOrder_perm perm).filterMap _
    have equal : e.attrs = e'.attrs := by
      rw [attrs, attrs']
      apply SortedList.foldl_add_perm attrKey added
      intro a ha b hb same
      exact attributesOf_uniform a ha b hb (AttributeType.toNat_inj.mp same)
    have named := collectAttributes_name fs name ts e first
    have named' := collectAttributes_name fs name ts' e' second
    rw [second, Element.ext' (named.trans named'.symm) equal]

end

/-! ## What a job observes -/

section
variable {fs fs' : FileSystem} {incl : UStr} {j j' : Job}

theorem crawlDir_congr (calls : entryCall fs incl j = entryCall fs' incl j')
    (lists : fs.readDir = fs'.readDir) (directories : fs.isDirectory = fs'.isDirectory)
    (dir : UStr) : crawlDir fs incl j dir = crawlDir fs' incl j' dir := by
  induction dir using crawl_induction fs with
  | step dir ih =>
    rw [crawlDir, crawlDir, ← lists]
    cases fs.readDir dir with
    | none => rfl
    | some entries =>
      have loop (isNull : Bool) : crawlEntries fs incl j dir isNull entries =
          crawlEntries fs' incl j' dir isNull entries := by
        induction entries generalizing isNull with
        | nil => rw [crawlEntries, crawlEntries]
        | cons entry entries rest =>
          have below : (if _h : fs.isDirectory (fqn dir entry) then
                crawlDir fs incl j (fqn dir entry) else some []) =
              if _h : fs'.isDirectory (fqn dir entry) then
                crawlDir fs' incl j' (fqn dir entry) else some [] := by
            by_cases directory : fs.isDirectory (fqn dir entry) = true
            · rw [dif_pos directory, dif_pos (directories ▸ directory)]
              exact ih entry directory
            · rw [dif_neg directory, dif_neg (directories ▸ directory)]
          rw [crawlEntries, crawlEntries, calls, below]
          simp only [rest]
      exact loop false

/-- A job observes the same where the same is told of each file. -/
theorem runJob_congr (files : collected fs j = collected fs' j')
    (lists : fs.readDir = fs'.readDir) (directories : fs.isDirectory = fs'.isDirectory)
    (includes : j.includes = j'.includes) (excludes : j.excludes = j'.excludes)
    (db : Option StateDb) : runJob fs j db = runJob fs' j' db := by
  have calls (incl : UStr) : entryCall fs incl j = entryCall fs' incl j' := by
    funext isNull cur
    rw [entryCall, entryCall, files, excludes]
  have each : runOneInclude fs j = runOneInclude fs' j' := by
    funext incl
    unfold runOneInclude
    simp only [files, directories, crawlDir_congr (calls incl) lists directories]
  unfold runJob
  rw [each, includes]

/-- **The order of the attribute types** that a job collects makes no difference: it observes the
same of the same files. -/
theorem runJob_attrTypes_perm (fs : FileSystem) (j : Job) (db : Option StateDb)
    {ts : List AttributeType} (perm : ts.Perm j.attrTypes) :
    runJob fs { j with attrTypes := ts } db = runJob fs j db := by
  have files : collected fs { j with attrTypes := ts } = collected fs j := by
    funext name
    have elem := collectAttributes_perm fs name perm
    simp only [collected, elem]
  exact runJob_congr files rfl rfl rfl rfl db

theorem runJob_attrTypes_perm_two :
    runJob (nestedFiles false) { hashJob with attrTypes := [.sha256, .fileType] } (some .empty) =
      runJob (nestedFiles false) hashJob (some .empty) :=
  runJob_attrTypes_perm (nestedFiles false) hashJob (some .empty)
    (List.Perm.swap AttributeType.fileType AttributeType.sha256 [])

/-! ## What a scan changes -/

/-- None of the types is a time that collecting them changes. -/
def ScanKeeps (attrTypes : List AttributeType) : Prop :=
  (.sha256 ∈ attrTypes → .metadataChangeTime ∉ attrTypes) ∧ .accessTime ∉ attrTypes

instance (attrTypes : List AttributeType) : Decidable (ScanKeeps attrTypes) :=
  inferInstanceAs (Decidable (_ ∧ _))

theorem collectAttributes_afterScan {attrTypes : List AttributeType} (keeps : ScanKeeps attrTypes)
    (times : ScanTimes) (name : UStr) :
    collectAttributes (fs.afterScan attrTypes times) name attrTypes =
      collectAttributes fs name attrTypes := by
  obtain ⟨unhashed, unaccessed⟩ := keeps
  unfold collectAttributes
  cases stat : fs.stat name with
  | none => simp [FileSystem.afterScan, stat]
  | some st =>
    simp only [FileSystem.afterScan, stat, Option.map_some, if_neg unaccessed]
    congr 2
    apply List.foldl_ext
    intro e t asked
    cases t with
    | metadataChangeTime =>
      have kept : resetsAccessTime fs name attrTypes = false := by
        have unasked : .sha256 ∉ attrTypes := fun hashed => unhashed hashed asked
        simp [resetsAccessTime, stat, unasked]
      simp only [collectAttribute, kept, Bool.false_eq_true, if_false]
    | _ => rfl

/-- A job observes the same of the files that it has scanned before. -/
theorem runJob_afterScan (keeps : ScanKeeps j.attrTypes) (times : ScanTimes)
    (db : Option StateDb) : runJob (fs.afterScan j.attrTypes times) j db = runJob fs j db := by
  have files : collected (fs.afterScan j.attrTypes times) j = collected fs j := by
    funext name
    simp only [collected, collectAttributes_afterScan keeps]
  have directories : (fs.afterScan j.attrTypes times).isDirectory = fs.isDirectory := by
    funext name
    simp only [FileSystem.isDirectory, FileSystem.afterScan]
    cases fs.stat name <;> rfl
  exact runJob_congr files rfl directories rfl rfl db

end

end Yella
