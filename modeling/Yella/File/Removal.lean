import Mathlib.Data.List.Induction
import Yella.File.RemoveAll

/-!
# What is removed

`yella_remove_all` against the tree at the name, where no links are followed.
-/

namespace Yella

namespace LinkedFiles

variable {F : Type*} {fs left : LinkedFiles F} {name path entry : UStr} {place p q : Place}
  {utf : YellaUtf} {refuses : Place → Bool} {R S : Set Place}

/-! ## The names of entries -/

theorem parts_of_fileName (h : IsFileName entry) : parts entry = [entry] :=
  partsFrom_plain h.plain h.nonempty

theorem parts_dirName_append (h : IsFileName entry) (name : UStr) :
    parts (dirName name ++ entry) = parts name ++ [entry] := by
  unfold dirName
  split
  · rename_i slash
    obtain ⟨front, rfl⟩ := List.getLast?_eq_some_iff.mp slash
    have same : parts (front ++ [dirSep]) = parts front := parts_append_run (by simp)
    rw [same, List.append_assoc, ← parts_of_fileName h]
    exact partsFrom_append_sep
  · rw [List.append_assoc, ← parts_of_fileName h]
    exact partsFrom_append_sep

theorem components_dirName_append (h : IsFileName entry) (name : UStr) :
    components (dirName name ++ entry) = parts name ++ [entry] := by
  rw [components, if_neg, parts_dirName_append h]
  rw [List.getLast?_append_of_ne_nil _ h.nonempty]
  exact fun slash => h.plain (List.mem_of_getLast? slash)

theorem start_dirName_append (fs : LinkedFiles F) (nonempty : name ≠ []) (entry : UStr) :
    fs.start (dirName name ++ entry) = fs.start name := by
  obtain ⟨c, more, rfl⟩ := List.exists_cons_of_ne_nil nonempty
  unfold start base isFileNameAbsolute dirName
  split <;> rfl

theorem length_dirName_append (h : IsFileName entry) (name : UStr) :
    name.length < (dirName name ++ entry).length := by
  have := List.length_pos_iff.mpr h.nonempty
  unfold dirName
  split <;> simp only [List.length_append, List.length_singleton] <;> omega

theorem step_fileName (h : IsFileName entry) (place : Place) :
    place.step entry = entry :: place := by
  rw [Place.step, if_neg h.dot, if_neg h.dots]

/-- Without the slash at its end, a path leads to the same directory. -/
theorem parts_of_components {links : Nat} {search : Place → Bool}
    (h : fs.Leads search true links p (components path) q) :
    fs.Leads search true links p (parts path) q := by
  unfold components at h
  split at h
  · obtain ⟨q', front, back, leads, last, rfl⟩ := h.split (by simp)
    cases last with
    | stay _ rest =>
      cases rest
      exact leads
    | step _ nonempty => exact absurd rfl nonempty
    | jump _ nonempty => exact absurd rfl nonempty
  · exact h

/-- The walk to an entry, behind the directory that a name leads to. -/
theorem leads_of_entry {follow : Bool} (found : fs.stat name = .ok place) (h : IsFileName entry)
    (entry_found : fs.resolve follow (dirName name ++ entry) = .ok p) :
    ∃ links, fs.Leads fs.searchable follow links place [entry] p := by
  obtain ⟨nonempty, -, links, -, leads⟩ := leads_of_resolve found
  have leads := parts_of_components leads
  obtain ⟨-, -, total, -, whole⟩ := leads_of_resolve entry_found
  rw [components_dirName_append h, start_dirName_append fs nonempty] at whole
  obtain ⟨place', front, back, first, last, -⟩ := whole.split (by simp)
  obtain ⟨-, rfl⟩ := leads.deterministic first
  exact ⟨back, last⟩

theorem lstat_entry (found : fs.stat name = .ok place) (h : IsFileName entry)
    (entry_found : fs.lstat (dirName name ++ entry) = .ok p) : p = entry :: place := by
  obtain ⟨links, leads⟩ := leads_of_entry found h entry_found
  cases leads with
  | stay => exact absurd rfl h.nonempty
  | step _ _ _ _ _ rest =>
    cases rest
    exact step_fileName h place
  | jump _ _ _ _ followed => exact absurd ⟨rfl, rfl⟩ followed

theorem stat_directory (found : fs.stat name = .ok place) (h : IsFileName entry)
    (own : fs.isDirectory (entry :: place) = true)
    (entry_found : fs.stat (dirName name ++ entry) = .ok p) : p = entry :: place := by
  obtain ⟨links, leads⟩ := leads_of_entry found h entry_found
  cases leads with
  | stay => exact absurd rfl h.nonempty
  | step _ _ _ _ _ rest =>
    cases rest
    exact step_fileName h place
  | jump _ _ _ there =>
    rw [step_fileName h place, exists_directory own] at there
    cases there

/-! ## One removal -/

theorem exists_below (below : p <:+ q) (other : q ≠ p) : ∃ c, c :: p <:+ q := by
  obtain ⟨front, rfl⟩ := below
  induction front using List.reverseRecOn with
  | nil => exact absurd rfl other
  | append_singleton front c => exact ⟨c, front, by simp⟩

/-- What is below something that is there is in directories that are there. -/
theorem node_of_below (fs : LinkedFiles F) (below : p <:+ q) (there : fs.node q ≠ none) :
    fs.node p ≠ none := by
  obtain ⟨front, rfl⟩ := below
  induction front with
  | nil => exact there
  | cons c front ih =>
    have directory := fs.parent c (front ++ p) there
    apply ih
    intro gone
    rw [gone] at directory
    cases directory

theorem below_of_entries (empty : fs.entries p = []) (below : p <:+ q) (other : q ≠ p) :
    fs.node q = none := by
  obtain ⟨c, under⟩ := exists_below below other
  by_contra there
  have child := fs.node_of_below under there
  have listed : c ∈ fs.entries p :=
    List.mem_filter.mpr ⟨fs.listed c p child, Option.isSome_iff_ne_none.mpr child⟩
  rw [empty] at listed
  cases listed

/-- What a removal takes away. -/
structure Removes (fs : LinkedFiles F) (refuses : Place → Bool) (p : Place)
    (left : LinkedFiles F) : Prop where
  leftOf : left.LeftOf fs
  gone : left.node p = none
  kept : ∀ q, q ≠ p → left.node q = fs.node q
  allowed : refuses p = false
  empty : ∀ q, p <:+ q → q ≠ p → fs.node q = none

theorem without_leftOf (fs : LinkedFiles F) (name : UStr) (place : Place) :
    (fs.without name place).LeftOf fs := by
  refine ⟨fun q node there => ?_, rfl, rfl, rfl, rfl, rfl, rfl⟩
  unfold without at there
  dsimp only at there
  split at there
  · cases there
  · exact there

theorem removes_without (empty : fs.entries (name :: place) = [])
    (allowed : refuses (name :: place) = false) :
    fs.Removes refuses (name :: place) (fs.without name place) where
  leftOf := without_leftOf fs name place
  gone := if_pos (List.suffix_refl _)
  kept q other := by
    by_cases below : name :: place <:+ q
    · rw [below_of_entries empty below other]
      exact if_pos below
    · exact if_neg below
  allowed := allowed
  empty q := below_of_entries empty

/-- The entry of a path, behind the directories that lead to it. -/
theorem lstat_of_walk {node : FileNode F} (nonempty : path ≠ []) (short : path.length < fs.pathMax)
    (last : (parts path).getLast? = some name)
    (walked : fs.walk fs.searchable true fs.symloopMax (fs.start path) (parts path).dropLast =
      .ok place)
    (directory : fs.isDirectory place = true) (allowed : fs.searchable place = true)
    (there : fs.node (name :: place) = some node)
    (slash : path.getLast? = some dirSep → node.isDirectory = true) :
    fs.lstat path = .ok (name :: place) := by
  have named : IsFileName name :=
    fs.named name place (by rw [there]; exact Option.some_ne_none node)
  have here : fs.node (place.step name) = some node := (step_fileName named place).symm ▸ there
  obtain ⟨links, few, leads⟩ := leads_of_walk walked
  have whole := List.dropLast_append_getLast? name last
  have entry : ∃ more, components path = (parts path).dropLast ++ name :: more ∧
      fs.Leads fs.searchable false 0 place (name :: more) (place.step name) := by
    unfold components
    split
    · rename_i ends
      have is_dir := slash ends
      have same : parts path ++ [[]] = (parts path).dropLast ++ [name, []] := by
        rw [List.append_cons (parts path).dropLast, whole]
      refine ⟨[[]], same, ?_⟩
      have final : fs.isDirectory (place.step name) = true := by
        rw [isDirectory, here]
        exact is_dir
      refine .step directory named.nonempty allowed here (fun link => ?_) (.stay final (.here _))
      cases node with
      | directory => cases link
      | link target => cases is_dir
      | file f => cases link
    · exact ⟨[], whole.symm, .step directory named.nonempty allowed here (fun _ => ⟨rfl, rfl⟩)
        (.here _)⟩
  obtain ⟨more, same, kept⟩ := entry
  have both := leads.append kept (by simp)
  rw [← same, step_fileName named] at both
  exact both.resolve (by omega) nonempty short

/-- A removal that succeeds takes away the entry that the path leads to. -/
theorem removes_of_remove (h : fs.remove refuses path = .ok left) :
    ∃ p, fs.lstat path = .ok p ∧ fs.Removes refuses p left := by
  unfold remove at h
  split at h
  · cases h
  rename_i nonempty
  split at h
  · cases h
  rename_i short
  split at h
  · cases h
  rename_i name last
  split at h
  · cases h
  rename_i place walked
  split at h
  · cases h
  rename_i directory
  split at h
  · cases h
  rename_i allowed
  split at h
  · cases h
  split at h
  · cases h
  rename_i node there
  split at h
  · cases h
  rename_i slash
  split at h
  · cases h
  rename_i permitted
  split at h
  · cases h
  rename_i empty
  obtain rfl := Except.ok.inj h
  refine ⟨name :: place, ?_, removes_without (not_not.mp empty) (by simpa using permitted)⟩
  exact lstat_of_walk nonempty (Nat.not_le.mp short) last walked (by simpa using directory)
    (by simpa using allowed) there fun ends => by simpa [ends] using slash

theorem removeText_ok (h : fs.removeText utf refuses path = .ok left) :
    fs.remove refuses path = .ok left := by
  unfold removeText at h
  split at h
  · exact h
  · cases h

/-! ## The tree at a name -/

/-- Something is at the name, for whoever may search every directory and follow any number of
links. -/
def Occupied (fs : LinkedFiles F) (path : UStr) : Prop :=
  path ≠ [] ∧ ∃ links p, fs.Leads (fun _ => true) false links (fs.start path) (components path) p

/-- What is at the name itself, or at or below where it leads to. -/
def InTree (fs : LinkedFiles F) (name : UStr) (p : Place) : Prop :=
  fs.lstat name = .ok p ∨ ∃ place, fs.stat name = .ok place ∧ place <:+ p

/-- Neither the entry nor one below it is refused. -/
def Removable (fs : LinkedFiles F) (refuses : Place → Bool) (p : Place) : Prop :=
  ∀ q, p <:+ q → fs.node q ≠ none → refuses q = false

/-- Not more is gone than what may go at these places. -/
structure Rest (fs : LinkedFiles F) (refuses : Place → Bool) (R : Set Place)
    (left : LinkedFiles F) : Prop where
  leftOf : left.LeftOf fs
  gone : ∀ p, left.node p ≠ fs.node p → p ∈ R ∧ fs.Removable refuses p

/-- The places at or below the entries of a directory. -/
def treesOf (place : Place) (entries : List UStr) : Set Place :=
  {p | ∃ entry ∈ entries, entry :: place <:+ p}

/-- After a removal nothing is at the name. -/
theorem Removes.not_occupied (h : fs.Removes refuses p left) (found : fs.lstat path = .ok p) :
    ¬ left.Occupied path := by
  rintro ⟨nonempty, links, q, leads⟩
  obtain ⟨node, there, -⟩ := leads.lands_from (components_ne_nil nonempty)
  have before := h.leftOf.leads leads
  obtain ⟨-, -, links', -, leads'⟩ := leads_of_resolve found
  rw [start, h.leftOf.cwd] at before
  obtain ⟨-, rfl⟩ := before.deterministic leads'
  rw [h.gone] at there
  cases there

theorem Rest.refl (fs : LinkedFiles F) (refuses : Place → Bool) (R : Set Place) :
    fs.Rest refuses R fs :=
  ⟨.refl fs, fun _ other => absurd rfl other⟩

theorem Rest.mono (h : fs.Rest refuses R left) (sub : R ⊆ S) : fs.Rest refuses S left :=
  ⟨h.leftOf, fun p other => ⟨sub (h.gone p other).1, (h.gone p other).2⟩⟩

/-- What the system refuses to remove is still there. -/
theorem Rest.refused (h : fs.Rest refuses R left) (there : fs.node p ≠ none)
    (refused : refuses p = true) : left.node p = fs.node p := by
  by_contra other
  have := (h.gone p other).2 p (List.suffix_refl p) there
  rw [refused] at this
  cases this

theorem Rest.removes {less : LinkedFiles F} (h : fs.Rest refuses R left)
    (removes : left.Removes refuses p less) : fs.Rest refuses (R ∪ {p}) less := by
  refine ⟨removes.leftOf.trans h.leftOf, fun q other => ?_⟩
  by_cases here : q = p
  · subst here
    refine ⟨.inr rfl, fun s under there => ?_⟩
    by_contra refused
    have refused : refuses s = true := by simpa using refused
    have still := h.refused there refused
    by_cases top : s = q
    · subst top
      rw [removes.allowed] at refused
      cases refused
    · rw [removes.empty s under top] at still
      exact there still.symm
  · rw [removes.kept q here] at other
    exact ⟨.inl (h.gone q other).1, (h.gone q other).2⟩

/-! ## The walk -/

/-- The path is ASCII and something is found, however much is gone of what may go at these
places. -/
def StillFound (fs : LinkedFiles F) (refuses : Place → Bool) (R : Set Place) (path : UStr) : Prop :=
  path.IsAscii ∧ ∀ left, fs.Rest refuses R left → left.access path = true

/-- The last one of these entries is no directory. -/
def EndsInFile (fs : LinkedFiles F) (place : Place) (before : List UStr) : Prop :=
  ∃ entry ∈ before.getLast?, fs.isDirectory (entry :: place) = false

/-- The directory of this name can be opened, and no link in it leads to a directory. When what is
listed before an entry is gone, and what there is in `R`, the entry is still found, or the one
before it is no directory. The same holds of the directories in it. Links and directories whose
names are not ASCII do not count. -/
inductive CleanTree (fs : LinkedFiles F) (refuses : Place → Bool) : Set Place → UStr → Place → Prop
  | directory {R : Set Place} {name : UStr} {place : Place} : fs.readable place = true →
      (∀ entry q, entry ∈ fs.entries place → (dirName name ++ entry).IsAscii →
        fs.stat (dirName name ++ entry) = .ok q → fs.isDirectory q = true →
        fs.isDirectory (entry :: place) = true) →
      (∀ before entry after, fs.entries place = before ++ entry :: after →
        fs.StillFound refuses (R ∪ treesOf place before) (dirName name ++ entry) ∨
          fs.EndsInFile place before) →
      (∀ before entry after, fs.entries place = before ++ entry :: after →
        fs.isDirectory (entry :: place) = true → (dirName name ++ entry).IsAscii →
        CleanTree fs refuses (R ∪ treesOf place before) (dirName name ++ entry) (entry :: place)) →
      CleanTree fs refuses R name place

theorem fileName_of_mem (h : entry ∈ fs.entries place) : IsFileName entry :=
  fs.named entry place (Option.isSome_iff_ne_none.mp (List.mem_filter.mp h).2)

theorem treesOf_append (place : Place) (before after : List UStr) :
    treesOf place (before ++ after) = treesOf place before ∪ treesOf place after := by
  ext p
  simp only [treesOf, List.mem_append, Set.mem_ofPred_eq, Set.mem_union]
  constructor
  · rintro ⟨entry, here | here, under⟩
    · exact .inl ⟨entry, here, under⟩
    · exact .inr ⟨entry, here, under⟩
  · rintro (⟨entry, here, under⟩ | ⟨entry, here, under⟩)
    · exact ⟨entry, .inl here, under⟩
    · exact ⟨entry, .inr here, under⟩

theorem Rest.isDirectory (h : fs.Rest refuses R left) {node : FileNode F}
    (there : left.node p = some node) : left.isDirectory p = fs.isDirectory p := by
  rw [LinkedFiles.isDirectory, LinkedFiles.isDirectory, there, h.leftOf.node p node there]

section
variable {recurse : LinkedFiles F → UStr → Option (LinkedFiles F × Rc)}

variable (utf) in
/-- What `st` says of an entry is only that it is a directory where it is one itself. -/
theorem own_of_status (found : fs.stat name = .ok place)
    (no_link : ∀ entry q, entry ∈ fs.entries place → (dirName name ++ entry).IsAscii →
      fs.stat (dirName name ++ entry) = .ok q → fs.isDirectory q = true →
      fs.isDirectory (entry :: place) = true)
    {before : List UStr}
    (entry_found : fs.StillFound refuses S (dirName name ++ entry) ∨ fs.EndsInFile place before)
    (listed : entry ∈ fs.entries place) (rest : fs.Rest refuses S left) {isDir : Bool}
    (status : fs.EndsInFile place before → isDir = false)
    (directory : left.stIsDir utf (dirName name ++ entry) isDir = true) :
    fs.isDirectory (entry :: place) = true ∧ (dirName name ++ entry).IsAscii ∧
      left.stat (dirName name ++ entry) = .ok (entry :: place) := by
  unfold stIsDir at directory
  cases told : left.statText utf (dirName name ++ entry) with
  | ok q =>
    obtain ⟨ascii, here⟩ := statText_ok told
    rw [told] at directory
    obtain ⟨node, there, -⟩ := resolve_lands here
    have before_that := rest.leftOf.resolve here
    have own := no_link entry q listed ascii before_that
      ((rest.isDirectory there).symm.trans directory)
    have at_entry := stat_directory found (fileName_of_mem listed) own before_that
    exact ⟨own, ascii, here.trans (congrArg _ at_entry)⟩
  | error errno =>
    rw [told] at directory
    rcases entry_found with ⟨ascii, still⟩ | file
    · have present := still left rest
      rw [statText_eq ascii] at told
      rw [access, show left.resolve true _ = _ from told] at present
      cases present
    · rw [status file] at directory
      cases directory

/-- The loop over the entries of a directory whose own directories are removed as they should be.
`isDir` is only trusted behind an entry that is no directory. -/
theorem removeEntries_rest (found : fs.stat name = .ok place)
    (no_link : ∀ entry q, entry ∈ fs.entries place → (dirName name ++ entry).IsAscii →
      fs.stat (dirName name ++ entry) = .ok q → fs.isDirectory q = true →
      fs.isDirectory (entry :: place) = true)
    (entry_found : ∀ before entry after, fs.entries place = before ++ entry :: after →
      fs.StillFound refuses (R ∪ treesOf place before) (dirName name ++ entry) ∨
        fs.EndsInFile place before)
    (recurse_rest : ∀ before entry after left, fs.entries place = before ++ entry :: after →
      fs.isDirectory (entry :: place) = true → fs.Rest refuses (R ∪ treesOf place before) left →
      (dirName name ++ entry).IsAscii → left.stat (dirName name ++ entry) = .ok (entry :: place) →
      ∃ left' rc, recurse left (dirName name ++ entry) = some (left', rc) ∧
        fs.Rest refuses (R ∪ treesOf place before ∪ {p | entry :: place <:+ p}) left')
    {before after : List UStr} (entries : fs.entries place = before ++ after)
    (rest : fs.Rest refuses (R ∪ treesOf place before) left) {isDir : Bool}
    (status : fs.EndsInFile place before → isDir = false) (rc : Rc) :
    ∃ left' rc', removeEntries utf refuses recurse name left isDir rc after = some (left', rc') ∧
      fs.Rest refuses (R ∪ treesOf place (before ++ after)) left' := by
  induction after generalizing before left isDir rc with
  | nil => exact ⟨left, rc, rfl, by rwa [List.append_nil]⟩
  | cons entry after ih =>
    have entries' : fs.entries place = (before ++ [entry]) ++ after := by
      rw [entries, List.append_assoc]
      rfl
    have next : R ∪ treesOf place before ∪ {p | entry :: place <:+ p} ⊆
        R ∪ treesOf place (before ++ [entry]) := by
      rw [treesOf_append]
      rintro p ((old | old) | new)
      · exact .inl old
      · exact .inr (.inl old)
      · exact .inr (.inr ⟨entry, by simp, new⟩)
    have listed : entry ∈ fs.entries place := by
      rw [entries]
      simp
    have named := fileName_of_mem listed
    have own := own_of_status utf found no_link (entry_found before entry after entries) listed
      rest status
    rw [show before ++ entry :: after = (before ++ [entry]) ++ after by simp]
    unfold removeEntries
    dsimp only
    generalize left.stIsDir utf (dirName name ++ entry) isDir = isDir' at own ⊢
    have status' : fs.EndsInFile place (before ++ [entry]) → isDir' = false := by
      rintro ⟨last, at_end, file⟩
      rw [List.getLast?_concat, Option.mem_some_iff] at at_end
      subst at_end
      by_contra dir
      rw [(own (by simpa using dir)).1] at file
      cases file
    split
    · rename_i is_dir
      obtain ⟨own_dir, ascii, here⟩ := own is_dir
      obtain ⟨left', rc', removed, rest'⟩ := recurse_rest before entry after left entries own_dir
        rest ascii here
      rw [removed]
      exact ih entries' (rest'.mono next) status' _
    · split
      · rename_i left' removed
        obtain ⟨p, at_p, removes⟩ := removes_of_remove (removeText_ok removed)
        obtain rfl := lstat_entry found named (rest.leftOf.resolve at_p)
        refine ih entries' ((rest.removes removes).mono ?_) status' _
        rintro p (old | rfl)
        · exact next (.inl old)
        · exact next (.inr (List.suffix_refl _))
      · exact ih entries' (rest.mono fun p old => next (.inl old)) status' _

/-- What is listed after an entry is not below it. -/
theorem untouched_entry {before after : List UStr}
    (entries : fs.entries place = before ++ entry :: after) (outside : ∀ p, place <:+ p → p ∉ R)
    (under : entry :: place <:+ p) : p ∉ R ∪ treesOf place before := by
  rintro (old | ⟨other, listed, under'⟩)
  · exact outside p ((List.suffix_cons entry place).trans under) old
  · have nodup : (fs.entries place).Nodup := (fs.nodup place).filter _
    rw [entries, List.nodup_append] at nodup
    have same : other :: place <:+ entry :: place :=
      List.suffix_of_suffix_length_le under' under (by simp)
    obtain ⟨rfl, -⟩ := List.cons.inj (same.eq_of_length (by simp))
    exact nodup.2.2 other listed other (by simp) rfl

theorem Rest.entries (h : fs.Rest refuses R left) (outside : ∀ p, place <:+ p → p ∉ R) :
    left.entries place = fs.entries place := by
  unfold LinkedFiles.entries
  rw [h.leftOf.order]
  apply List.filter_congr
  intro name _
  have same : left.node (name :: place) = fs.node (name :: place) := by
    by_contra other
    exact outside _ (List.suffix_cons name place) (h.gone _ other).1
  rw [same]

theorem Rest.opendir (h : fs.Rest refuses R left) (ascii : name.IsAscii)
    (here : left.stat name = .ok place) (directory : fs.isDirectory place = true)
    (readable : fs.readable place = true) : left.opendir utf name = some place := by
  obtain ⟨node, there, -⟩ := resolve_lands here
  unfold LinkedFiles.opendir
  rw [statText_eq ascii, here]
  apply if_pos
  rw [h.isDirectory there, h.leftOf.readable]
  exact ⟨directory, readable⟩

theorem worse_fileSystemError (rc : Rc) : rc.worse .fileSystemError ≠ .noError := by
  cases rc <;> decide

theorem CleanTree.removeAllImpl (h : fs.CleanTree refuses R name place)
    (found : fs.stat name = .ok place) (directory : fs.isDirectory place = true)
    (outside : ∀ p, place <:+ p → p ∉ R) (rest : fs.Rest refuses R left) (ascii : name.IsAscii)
    (here : left.stat name = .ok place) (indeterminate : UStr → Bool) {fuel : Nat}
    (enough : fs.pathMax < name.length + fuel) :
    ∃ left' rc, removeAllImpl utf refuses indeterminate fuel left name = some (left', rc) ∧
      fs.Rest refuses (R ∪ {p | place <:+ p ∨ fs.lstat name = .ok p}) left' ∧
      (rc = .noError → ¬ left'.Occupied name) := by
  induction h generalizing left fuel with
  | @directory R name place readable no_link entry_found trees ih =>
    obtain ⟨-, short, -⟩ := leads_of_resolve found
    cases fuel with
    | zero => omega
    | succ fuel =>
      have recurse_rest : ∀ before entry after left, fs.entries place = before ++ entry :: after →
          fs.isDirectory (entry :: place) = true →
          fs.Rest refuses (R ∪ treesOf place before) left → (dirName name ++ entry).IsAscii →
          left.stat (dirName name ++ entry) = .ok (entry :: place) →
          ∃ left' rc, Yella.removeAllImpl utf refuses indeterminate fuel left
              (dirName name ++ entry) = some (left', rc) ∧
            fs.Rest refuses (R ∪ treesOf place before ∪ {p | entry :: place <:+ p}) left' := by
        intro before entry after left entries own rest entry_ascii now
        have listed : entry ∈ fs.entries place := by
          rw [entries]
          simp
        have longer := length_dirName_append (fileName_of_mem listed) name
        have enough' : fs.pathMax < (dirName name ++ entry).length + fuel := by omega
        obtain ⟨left', rc, removed, rest', -⟩ := ih before entry after entries own entry_ascii
          (rest.leftOf.resolve now) own (fun p => untouched_entry entries outside) rest entry_ascii
          now enough'
        refine ⟨left', rc, removed, rest'.mono ?_⟩
        rintro p (old | under | at_p)
        · exact .inl old
        · exact .inr under
        · obtain rfl := lstat_entry found (fileName_of_mem listed) at_p
          exact .inr (List.suffix_refl _)
      have untrusted : fs.EndsInFile place [] → indeterminate name = false := by
        rintro ⟨_, none_yet, _⟩
        cases none_yet
      have all : fs.entries place = [] ++ fs.entries place := rfl
      obtain ⟨walked, rc, loop, rest'⟩ := removeEntries_rest found no_link entry_found recurse_rest
        all (rest.mono fun p old => .inl old) untrusted .noError
      have tree : R ∪ treesOf place ([] ++ fs.entries place) ⊆
          R ∪ {p | place <:+ p ∨ fs.lstat name = .ok p} := by
        rintro p (old | ⟨entry, -, under⟩)
        · exact .inl old
        · exact .inr (.inl ((List.suffix_cons entry place).trans under))
      unfold Yella.removeAllImpl
      rw [rest.opendir ascii here directory readable, Option.bind_some, rest.entries outside, loop,
        Option.map_some]
      cases removed : walked.removeText utf refuses name with
      | error errno =>
        refine ⟨walked, rc.worse .fileSystemError, by simp only [removed], rest'.mono tree,
          fun none_left => ?_⟩
        exact absurd none_left (worse_fileSystemError rc)
      | ok left' =>
        obtain ⟨p, at_p, removes⟩ := removes_of_remove (removeText_ok removed)
        refine ⟨left', rc, by simp only [removed], (rest'.removes removes).mono ?_,
          fun _ => removes.not_occupied at_p⟩
        rintro q (old | rfl)
        · exact tree old
        · exact .inr (.inr (rest'.leftOf.resolve at_p))

/-! ## The depth -/

theorem pathMax_of_remove (h : fs.remove refuses path = .ok left) : left.pathMax = fs.pathMax := by
  obtain ⟨p, -, removes⟩ := removes_of_remove h
  exact removes.leftOf.pathMax

variable {recurse' : LinkedFiles F → UStr → Option (LinkedFiles F × Rc)}

theorem removeEntries_pathMax (keeps : ∀ fs path left rc, recurse fs path = some (left, rc) →
      left.pathMax = fs.pathMax) {isDir : Bool} {rc rc' : Rc} {entries : List UStr}
    (h : removeEntries utf refuses recurse name fs isDir rc entries = some (left, rc')) :
    left.pathMax = fs.pathMax := by
  induction entries generalizing fs isDir rc with
  | nil =>
    obtain ⟨rfl, -⟩ := Prod.mk.inj (Option.some.inj h)
    rfl
  | cons entry entries ih =>
    unfold removeEntries at h
    dsimp only at h
    split at h
    · obtain ⟨⟨inner, cur⟩, removed, more⟩ := Option.bind_eq_some_iff.mp h
      exact (ih more).trans (keeps _ _ _ _ removed)
    · split at h
      · rename_i inner removed
        exact (ih h).trans (pathMax_of_remove (removeText_ok removed))
      · exact ih h

theorem removeAllImpl_pathMax {indeterminate : UStr → Bool} {fuel : Nat} {rc : Rc}
    (h : Yella.removeAllImpl utf refuses indeterminate fuel fs name = some (left, rc)) :
    left.pathMax = fs.pathMax := by
  induction fuel generalizing fs name left rc with
  | zero => cases h
  | succ fuel ih =>
    unfold Yella.removeAllImpl at h
    obtain ⟨place, -, more⟩ := Option.bind_eq_some_iff.mp h
    obtain ⟨⟨walked, walked_rc⟩, loop, last⟩ := Option.map_eq_some_iff.mp more
    have before := removeEntries_pathMax (fun _ _ _ _ => ih) loop
    dsimp only at last
    split at last
    · rename_i final removed
      obtain ⟨rfl, -⟩ := Prod.mk.inj last
      exact (pathMax_of_remove (removeText_ok removed)).trans before
    · obtain ⟨rfl, -⟩ := Prod.mk.inj last
      exact before

theorem removeEntries_congr (keeps : ∀ fs path left rc, recurse fs path = some (left, rc) →
      left.pathMax = fs.pathMax) {entries : List UStr} (named : ∀ entry ∈ entries, IsFileName entry)
    (same : ∀ left entry, left.pathMax = fs.pathMax → IsFileName entry →
      recurse left (dirName name ++ entry) = recurse' left (dirName name ++ entry))
    (isDir : Bool) (rc : Rc) :
    removeEntries utf refuses recurse name fs isDir rc entries =
      removeEntries utf refuses recurse' name fs isDir rc entries := by
  induction entries generalizing fs isDir rc with
  | nil => rfl
  | cons entry entries ih =>
    obtain ⟨here, rest⟩ := List.forall_mem_cons.mp named
    have step : ∀ left, left.pathMax = fs.pathMax → ∀ isDir rc,
        removeEntries utf refuses recurse name left isDir rc entries =
          removeEntries utf refuses recurse' name left isDir rc entries := by
      intro left equal
      apply ih rest
      intro less entry equal' named
      exact same less entry (equal'.trans equal) named
    unfold removeEntries
    dsimp only
    split
    · rw [← same fs entry rfl here]
      cases removed : recurse fs (dirName name ++ entry) with
      | none => rfl
      | some inner => exact step inner.1 (keeps _ _ _ _ removed) _ _
    · split
      · rename_i left removed
        exact step left (pathMax_of_remove (removeText_ok removed)) _ _
      · exact step fs rfl _ _

/-- Names only get longer, and ones that are too long are not opened: the rounds do not run out. -/
theorem removeAllImpl_enough {indeterminate : UStr → Bool} {fuel : Nat}
    (enough : fs.pathMax < name.length + fuel) :
    Yella.removeAllImpl utf refuses indeterminate (fuel + 1) fs name =
      Yella.removeAllImpl utf refuses indeterminate fuel fs name := by
  induction fuel generalizing fs name with
  | zero =>
    have closed : fs.opendir utf name = none := by
      unfold LinkedFiles.opendir
      cases told : fs.statText utf name with
      | error errno => rfl
      | ok place =>
        obtain ⟨-, short, -⟩ := leads_of_resolve (statText_ok told).2
        omega
    unfold Yella.removeAllImpl
    rw [closed]
    rfl
  | succ fuel ih =>
    rw [Yella.removeAllImpl.eq_2 utf refuses indeterminate fs name fuel, Yella.removeAllImpl]
    cases opened : fs.opendir utf name with
    | none => rfl
    | some place =>
      rw [Option.bind_some, Option.bind_some]
      congr 1
      apply removeEntries_congr (fun _ _ _ _ => removeAllImpl_pathMax)
      · intro entry listed
        exact fileName_of_mem listed
      · intro left entry equal named
        have longer := length_dirName_append named name
        apply ih
        rw [equal]
        omega

end

/-! ## The call -/

/-- The call returns, takes away nothing outside of the tree, and without an error nothing is left
at the name. -/
def RemovesTree (utf : Utf) (fs : LinkedFiles F) (refuses : Place → Bool)
    (indeterminate : UStr → Bool) (name : UStr) : Prop :=
  ∃ fs' rc, yellaRemoveAll utf refuses indeterminate fs name = some (fs', rc) ∧
    (∀ p, fs'.node p ≠ fs.node p → fs'.node p = none ∧ fs.InTree name p) ∧
    (rc = .noError → ¬ fs'.Occupied name)

/-- What the condition asks of a name that `access` finds nothing at is needed. -/
theorem RemovesTree.not_occupied {indeterminate : UStr → Bool}
    (h : fs.RemovesTree utf refuses indeterminate name)
    (missing : ¬ (name.IsAscii ∧ fs.access name = true)) : ¬ fs.Occupied name := by
  obtain ⟨fs', rc, removed, -, done⟩ := h
  have told : fs.accessText utf name = false := by
    simpa [accessText, YellaUtf.converts_iff] using missing
  unfold yellaRemoveAll at removed
  rw [if_pos told] at removed
  obtain ⟨rfl, rfl⟩ := Prod.mk.inj (Option.some.inj removed)
  exact done rfl

/-- So is that the directory can be opened. -/
theorem RemovesTree.readable {indeterminate : UStr → Bool}
    (h : fs.RemovesTree utf refuses indeterminate name) (ascii : name.IsAscii)
    (found : fs.stat name = .ok place) (directory : fs.isDirectory place = true) :
    fs.readable place = true := by
  obtain ⟨fs', rc, removed, -, -⟩ := h
  by_contra closed
  have told : fs.statText utf name = .ok place := (statText_eq ascii).trans found
  have none_opened : fs.opendir utf name = none := by
    unfold opendir
    rw [told]
    exact if_neg fun both => closed both.2
  have present : fs.accessText utf name = true := by
    rw [accessText_eq ascii, access, show fs.resolve true name = .ok place from found]
    rfl
  unfold yellaRemoveAll Yella.removeAllImpl at removed
  simp [present, told, directory, none_opened] at removed

theorem LeftOf.gone (h : left.LeftOf fs) (other : left.node p ≠ fs.node p) :
    left.node p = none := by
  by_contra there
  obtain ⟨node, here⟩ := Option.ne_none_iff_exists'.mp there
  exact other (here.trans (h.node p node here).symm)

end LinkedFiles

end Yella
