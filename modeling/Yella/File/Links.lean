import Mathlib.Data.List.Nodup
import Yella.File.Tree
import Yella.TextUtil

/-!
# Files and symbolic links

How the kernel finds the file of a path: the links on the way are followed, up to a limit, and the
directories on the way have to be searchable. The conversion of the names to UTF-8 is left out.
-/

namespace Yella

/-- What there is at a place. What is kept of the other files is of any type. -/
inductive FileNode (F : Type*) where
  | directory
  | link (target : UStr)
  | file (f : F)

namespace FileNode

variable {F : Type*}

def isDirectory : FileNode F → Bool
  | directory => true
  | link _ | file _ => false

def isLink : FileNode F → Bool
  | link _ => true
  | directory | file _ => false

end FileNode

/-- What a directory has an entry for, other than `.` and `..`. -/
structure IsFileName (name : UStr) : Prop where
  nonempty : name ≠ []
  plain : dirSep ∉ name
  dot : name ≠ [46]
  dots : name ≠ [46, 46]

instance decidableIsFileName (name : UStr) : Decidable (IsFileName name) :=
  decidable_of_iff (name ≠ [] ∧ dirSep ∉ name ∧ name ≠ [46] ∧ name ≠ [46, 46])
    ⟨fun ⟨a, b, c, d⟩ => ⟨a, b, c, d⟩, fun h => ⟨h.nonempty, h.plain, h.dot, h.dots⟩⟩

/-- The files as a process finds them. Those that are `readable` can be opened, and directories that
are `searchable` can be walked through. -/
structure LinkedFiles (F : Type*) where
  node : Place → Option (FileNode F)
  root : node [] = some .directory
  parent : ∀ name place, node (name :: place) ≠ none → node place = some .directory
  named : ∀ name place, node (name :: place) ≠ none → IsFileName name
  /-- The order in which the entries of a directory are listed. -/
  order : Place → List UStr
  nodup : ∀ place, (order place).Nodup
  listed : ∀ name place, node (name :: place) ≠ none → name ∈ order place
  cwd : Place
  readable : Place → Bool
  searchable : Place → Bool
  symloopMax : Nat
  pathMax : Nat

/-- The parts of a path. One that ends with a slash is a directory's, which is an empty part. -/
def components (path : UStr) : List UStr :=
  if path.getLast? = some dirSep then parts path ++ [[]] else parts path

namespace LinkedFiles

variable {F : Type*}

def isDirectory (fs : LinkedFiles F) (place : Place) : Bool :=
  (fs.node place).any FileNode.isDirectory

/-- Where a path starts that is looked up from this directory. -/
def base (place : Place) (path : UStr) : Place := if isFileNameAbsolute path then [] else place

section
variable (fs : LinkedFiles F) (search : Place → Bool) (follow : Bool)

/-- The walk to the next link that is followed. -/
def walkParts (jump : Place → List UStr → Except Errno Place) :
    Place → List UStr → Except Errno Place
  | place, [] => .ok place
  | place, part :: more =>
    if fs.isDirectory place = false then .error .enotdir
    else if part = [] then walkParts jump place more
    else if search place = false then .error .eacces
    else
      match fs.node (place.step part) with
      | none => .error .enoent
      | some (.link target) =>
        if more = [] ∧ follow = false then .ok (place.step part)
        else if target = [] then .error .enoent
        else jump (base place target) (components target ++ more)
      | some .directory | some (.file _) => walkParts jump (place.step part) more

/-- So many links are followed; the last part is if `follow` says so. -/
def walk : Nat → Place → List UStr → Except Errno Place
  | 0 => walkParts fs search follow fun _ _ => .error .other
  | links + 1 => walkParts fs search follow (walk links)

end

def start (fs : LinkedFiles F) (path : UStr) : Place := base fs.cwd path

def resolve (fs : LinkedFiles F) (follow : Bool) (path : UStr) : Except Errno Place :=
  if path = [] then .error .enoent
  else if fs.pathMax ≤ path.length then .error .other
  else fs.walk fs.searchable follow fs.symloopMax (fs.start path) (components path)

/-- Whether `access` with `F_OK` returns 0. -/
def access (fs : LinkedFiles F) (path : UStr) : Bool := (fs.resolve true path).isOk

def stat (fs : LinkedFiles F) (path : UStr) : Except Errno Place := fs.resolve true path

def lstat (fs : LinkedFiles F) (path : UStr) : Except Errno Place := fs.resolve false path

/-! ## Where the parts of a path lead -/

/-- They lead there over so many links. -/
inductive Leads (fs : LinkedFiles F) (search : Place → Bool) (follow : Bool) :
    Nat → Place → List UStr → Place → Prop
  | here (place : Place) : Leads fs search follow 0 place [] place
  | stay {links : Nat} {place q : Place} {more : List UStr} :
      fs.isDirectory place = true → Leads fs search follow links place more q →
      Leads fs search follow links place ([] :: more) q
  | step {links : Nat} {place q : Place} {part : UStr} {more : List UStr} {node : FileNode F} :
      fs.isDirectory place = true → part ≠ [] → search place = true →
      fs.node (place.step part) = some node →
      (node.isLink = true → more = [] ∧ follow = false) →
      Leads fs search follow links (place.step part) more q →
      Leads fs search follow links place (part :: more) q
  | jump {links : Nat} {place q : Place} {part target : UStr} {more : List UStr} :
      fs.isDirectory place = true → part ≠ [] → search place = true →
      fs.node (place.step part) = some (.link target) → ¬(more = [] ∧ follow = false) →
      target ≠ [] →
      Leads fs search follow links (base place target) (components target ++ more) q →
      Leads fs search follow (links + 1) place (part :: more) q

section
variable {fs : LinkedFiles F} {search search' : Place → Bool} {follow : Bool} {links budget : Nat}
  {place p q : Place} {part path : UStr} {more ds : List UStr}

theorem leads_of_walkParts {jump : Place → List UStr → Except Errno Place}
    (next : ∀ p ds, jump p ds = .ok q → ∃ links, links + 1 ≤ budget ∧
      fs.Leads search follow links p ds q)
    (h : fs.walkParts search follow jump place ds = .ok q) :
    ∃ links, links ≤ budget ∧ fs.Leads search follow links place ds q := by
  induction ds generalizing place with
  | nil =>
    obtain rfl := Except.ok.inj h
    exact ⟨0, Nat.zero_le _, .here _⟩
  | cons part more ih =>
    unfold walkParts at h
    split at h
    · cases h
    rename_i directory
    have directory : fs.isDirectory place = true := by simpa using directory
    split at h
    · rename_i empty
      subst empty
      obtain ⟨links, few, leads⟩ := ih h
      exact ⟨links, few, .stay directory leads⟩
    rename_i nonempty
    split at h
    · cases h
    rename_i allowed
    have allowed : search place = true := by simpa using allowed
    split at h
    · cases h
    · rename_i target link
      split at h
      · rename_i last
        obtain rfl := Except.ok.inj h
        obtain ⟨rfl, kept⟩ := last
        exact ⟨0, Nat.zero_le _,
          .step directory nonempty allowed link (fun _ => ⟨rfl, kept⟩) (.here _)⟩
      · rename_i followed
        split at h
        · cases h
        · rename_i some_target
          obtain ⟨links, few, leads⟩ := next _ _ h
          exact ⟨links + 1, few, .jump directory nonempty allowed link followed some_target leads⟩
    all_goals
      rename_i node
      obtain ⟨links, few, leads⟩ := ih h
      exact ⟨links, few, .step directory nonempty allowed node (by simp [FileNode.isLink]) leads⟩

theorem leads_of_walk (h : fs.walk search follow budget place ds = .ok q) :
    ∃ links, links ≤ budget ∧ fs.Leads search follow links place ds q := by
  induction budget generalizing place ds with
  | zero => exact leads_of_walkParts (by simp) h
  | succ budget ih =>
    refine leads_of_walkParts (fun p ds jumped => ?_) h
    obtain ⟨links, few, leads⟩ := ih jumped
    exact ⟨links, by omega, leads⟩

/-- The limit does not matter to a walk with fewer links. -/
theorem Leads.walk (h : fs.Leads search follow links place ds q) (few : links ≤ budget) :
    fs.walk search follow budget place ds = .ok q := by
  induction h generalizing budget with
  | here place => cases budget <;> rfl
  | stay directory _ ih =>
    have rest := ih few
    cases budget <;> simpa [LinkedFiles.walk, walkParts, directory] using rest
  | @step _ _ _ _ _ node directory nonempty allowed there last _ ih =>
    have rest := ih few
    cases node with
    | directory | file =>
      cases budget <;>
        simpa [LinkedFiles.walk, walkParts, directory, nonempty, allowed, there] using rest
    | link target =>
      obtain ⟨rfl, rfl⟩ := last rfl
      cases budget <;>
        simpa [LinkedFiles.walk, walkParts, directory, nonempty, allowed, there] using rest
  | @jump _ _ _ _ _ more directory nonempty allowed there followed target _ ih =>
    cases budget with
    | zero => omega
    | succ budget =>
      have rest := ih (Nat.le_of_succ_le_succ few)
      simp only [LinkedFiles.walk, walkParts, directory, nonempty, allowed, there, followed, target,
        Bool.true_eq_false, ↓reduceIte]
      exact rest

/-- A walk finds what the parts lead to within the limit. -/
theorem walk_ok_iff : fs.walk search follow budget place ds = .ok q ↔
    ∃ links, links ≤ budget ∧ fs.Leads search follow links place ds q :=
  ⟨leads_of_walk, fun ⟨_, few, leads⟩ => leads.walk few⟩

theorem Leads.deterministic (h : fs.Leads search follow links place ds q)
    (h' : fs.Leads search' follow budget place ds p) : links = budget ∧ q = p := by
  induction h generalizing budget with
  | here => cases h'; exact ⟨rfl, rfl⟩
  | stay _ _ ih =>
    cases h' with
    | stay _ rest => exact ih rest
    | step _ nonempty => exact absurd rfl nonempty
    | jump _ nonempty => exact absurd rfl nonempty
  | step _ nonempty _ there last _ ih =>
    cases h' with
    | stay => exact absurd rfl nonempty
    | step _ _ _ _ _ rest => exact ih rest
    | jump _ _ _ link followed =>
      obtain rfl := Option.some.inj (there.symm.trans link)
      exact absurd (last rfl) followed
  | jump _ nonempty _ link followed _ _ ih =>
    cases h' with
    | stay => exact absurd rfl nonempty
    | step _ _ _ there last =>
      obtain rfl := Option.some.inj (there.symm.trans link)
      exact absurd (last rfl) followed
    | jump _ _ _ link' _ _ rest =>
      obtain ⟨rfl⟩ := Option.some.inj (link'.symm.trans link)
      obtain ⟨rfl, rfl⟩ := ih rest
      exact ⟨rfl, rfl⟩

theorem exists_directory (h : fs.isDirectory place = true) :
    fs.node place = some .directory := by
  unfold isDirectory at h
  cases there : fs.node place with
  | none => rw [there] at h; cases h
  | some node =>
    rw [there] at h
    cases node with
    | directory => rfl
    | link | file => cases h

theorem isDirectory_root (fs : LinkedFiles F) : fs.isDirectory [] = true := by
  rw [isDirectory, fs.root]
  rfl

theorem isDirectory_base (path : UStr) (h : fs.isDirectory place = true) :
    fs.isDirectory (base place path) = true := by
  unfold base
  split
  · exact fs.isDirectory_root
  · exact h

/-- The walk ends at something that is there, and at a link only if the last one is kept. -/
theorem Leads.lands (h : fs.Leads search follow links place ds q)
    (start : ∃ node, fs.node place = some node ∧ (node.isLink = true → follow = false)) :
    ∃ node, fs.node q = some node ∧ (node.isLink = true → follow = false) := by
  induction h with
  | here => exact start
  | stay _ _ ih => exact ih start
  | step _ _ _ there last _ ih => exact ih ⟨_, there, fun link => (last link).2⟩
  | @jump _ _ _ _ target _ directory _ _ _ _ _ _ ih =>
    exact ih ⟨_, exists_directory (isDirectory_base target directory), by simp [FileNode.isLink]⟩

theorem Leads.directory (h : fs.Leads search follow links place ds q) (some_part : ds ≠ []) :
    fs.isDirectory place = true := by
  cases h with
  | here => exact absurd rfl some_part
  | stay directory => exact directory
  | step directory => exact directory
  | jump directory => exact directory

theorem Leads.lands_from (h : fs.Leads search follow links place ds q) (some_part : ds ≠ []) :
    ∃ node, fs.node q = some node ∧ (node.isLink = true → follow = false) :=
  h.lands ⟨_, exists_directory (h.directory some_part), by simp [FileNode.isLink]⟩

/-- Without the last link the walk ends at that link or where the other one does. -/
theorem Leads.keep_last (h : fs.Leads search true links place ds q) :
    ∃ fewer p, fewer ≤ links ∧ fs.Leads search false fewer place ds p ∧
      (p = q ∨ ∃ target, fs.node p = some (.link target)) := by
  induction h with
  | here place => exact ⟨0, place, Nat.le_refl _, .here place, .inl rfl⟩
  | stay directory _ ih =>
    obtain ⟨fewer, p, few, leads, same⟩ := ih
    exact ⟨fewer, p, few, .stay directory leads, same⟩
  | step directory nonempty allowed there last _ ih =>
    obtain ⟨fewer, p, few, leads, same⟩ := ih
    refine ⟨fewer, p, few, .step directory nonempty allowed there (fun link => ?_) leads, same⟩
    exact absurd (last link).2 (by decide)
  | @jump links place q part target more directory nonempty allowed there followed target_some
      _ ih =>
    by_cases final : more = []
    · subst final
      exact ⟨0, place.step part, Nat.zero_le _,
        .step directory nonempty allowed there (fun _ => ⟨rfl, rfl⟩) (.here _),
        .inr ⟨target, there⟩⟩
    · obtain ⟨fewer, p, few, leads, same⟩ := ih
      exact ⟨fewer + 1, p, Nat.succ_le_succ few,
        .jump directory nonempty allowed there (fun h => final h.1) target_some leads, same⟩

/-! ## One walk behind the other -/

theorem Leads.append (h : fs.Leads search true links place ds p)
    (h' : fs.Leads search follow budget p more q) (some_part : more ≠ []) :
    fs.Leads search follow (links + budget) place (ds ++ more) q := by
  induction h with
  | here => rwa [Nat.zero_add]
  | stay directory _ ih => exact .stay directory (ih h')
  | step directory nonempty allowed there last _ ih =>
    exact .step directory nonempty allowed there
      (fun link => absurd (last link).2 (by decide)) (ih h')
  | jump directory nonempty allowed there _ target_some _ ih =>
    have rest := ih h'
    rw [List.append_assoc] at rest
    rw [Nat.add_right_comm]
    refine .jump directory nonempty allowed there (fun final => ?_) target_some rest
    exact some_part (List.append_eq_nil_iff.mp final.1).2

theorem Leads.split (h : fs.Leads search follow links place (ds ++ more) q)
    (some_part : more ≠ []) : ∃ p front back, fs.Leads search true front place ds p ∧
      fs.Leads search follow back p more q ∧ links = front + back := by
  generalize whole : ds ++ more = all at h
  induction h generalizing ds with
  | here =>
    exact absurd (List.append_eq_nil_iff.mp whole).2 some_part
  | @stay links place q rest directory leads ih =>
    cases ds with
    | nil =>
      obtain rfl : more = [] :: rest := whole
      exact ⟨_, 0, _, .here _, .stay directory leads, (Nat.zero_add _).symm⟩
    | cons d ds =>
      obtain ⟨rfl, same⟩ := List.cons.inj whole
      obtain ⟨p, front, back, first, second, sum⟩ := ih same
      exact ⟨p, front, back, .stay directory first, second, sum⟩
  | @step links place q part rest node directory nonempty allowed there last leads ih =>
    cases ds with
    | nil =>
      obtain rfl : more = part :: rest := whole
      exact ⟨_, 0, _, .here _, .step directory nonempty allowed there last leads,
        (Nat.zero_add _).symm⟩
    | cons d ds =>
      obtain ⟨rfl, same⟩ := List.cons.inj whole
      obtain ⟨p, front, back, first, second, sum⟩ := ih same
      refine ⟨p, front, back, .step directory nonempty allowed there (fun link => ?_) first, second,
        sum⟩
      have final := (last link).1
      rw [← same] at final
      exact absurd (List.append_eq_nil_iff.mp final).2 some_part
  | @jump links place q part target rest directory nonempty allowed there followed target_some
      leads ih =>
    cases ds with
    | nil =>
      obtain rfl : more = part :: rest := whole
      exact ⟨_, 0, _, .here _, .jump directory nonempty allowed there followed target_some leads,
        (Nat.zero_add _).symm⟩
    | cons d ds =>
      obtain ⟨rfl, same⟩ := List.cons.inj whole
      have regrouped : components target ++ ds ++ more = components target ++ rest := by
        rw [List.append_assoc]
        exact congrArg _ same
      obtain ⟨p, front, back, first, second, sum⟩ := ih regrouped
      exact ⟨p, front + 1, back,
        .jump directory nonempty allowed there (fun final => by cases final.2) target_some first,
        second, by omega⟩

/-! ## What is left of the files -/

/-- Some of what there was is gone. -/
structure LeftOf (left fs : LinkedFiles F) : Prop where
  node : ∀ p node, left.node p = some node → fs.node p = some node
  order : left.order = fs.order
  cwd : left.cwd = fs.cwd
  readable : left.readable = fs.readable
  searchable : left.searchable = fs.searchable
  symloopMax : left.symloopMax = fs.symloopMax
  pathMax : left.pathMax = fs.pathMax

variable {left : LinkedFiles F}

theorem LeftOf.refl (fs : LinkedFiles F) : fs.LeftOf fs :=
  ⟨fun _ _ there => there, rfl, rfl, rfl, rfl, rfl, rfl⟩

theorem LeftOf.trans {less : LinkedFiles F} (h : less.LeftOf left) (h' : left.LeftOf fs) :
    less.LeftOf fs :=
  ⟨fun p node there => h'.node p node (h.node p node there), h.order.trans h'.order,
    h.cwd.trans h'.cwd, h.readable.trans h'.readable, h.searchable.trans h'.searchable,
    h.symloopMax.trans h'.symloopMax, h.pathMax.trans h'.pathMax⟩

theorem LeftOf.isDirectory (h : left.LeftOf fs) (directory : left.isDirectory p = true) :
    fs.isDirectory p = true := by
  rw [LinkedFiles.isDirectory, h.node p _ (exists_directory directory)]
  rfl

/-- What is found among what is left was found there before. -/
theorem LeftOf.leads (h : left.LeftOf fs) (leads : left.Leads search follow links place ds q) :
    fs.Leads search follow links place ds q := by
  induction leads with
  | here => exact .here _
  | stay directory _ ih => exact .stay (h.isDirectory directory) ih
  | step directory nonempty allowed there last _ ih =>
    exact .step (h.isDirectory directory) nonempty allowed (h.node _ _ there) last ih
  | jump directory nonempty allowed there followed target_some _ ih =>
    exact .jump (h.isDirectory directory) nonempty allowed (h.node _ _ there) followed target_some
      ih

/-! ## Paths -/

theorem slashes_of_partsFrom {part path : UStr} (h : partsFrom part path = []) :
    part = [] ∧ ∀ c ∈ path, c = dirSep := by
  induction path generalizing part with
  | nil =>
    unfold partsFrom at h
    split at h
    · rename_i empty
      exact ⟨empty, by simp⟩
    · cases h
  | cons c path ih =>
    unfold partsFrom at h
    split at h
    · rename_i sep
      split at h
      · rename_i empty
        exact ⟨empty, List.forall_mem_cons.mpr ⟨sep, (ih h).2⟩⟩
      · cases h
    · exact absurd (ih h).1 (by simp)

theorem components_ne_nil (nonempty : path ≠ []) : components path ≠ [] := by
  unfold components
  split
  · simp
  · rename_i other
    intro none_there
    obtain ⟨c, last⟩ := Option.isSome_iff_exists.mp (List.getLast?_isSome.mpr nonempty)
    have slash := (slashes_of_partsFrom none_there).2 c (List.mem_of_getLast? last)
    exact other (slash ▸ last)

/-- The walk that a successful look-up makes. -/
theorem leads_of_resolve (h : fs.resolve follow path = .ok q) :
    path ≠ [] ∧ path.length < fs.pathMax ∧ ∃ links, links ≤ fs.symloopMax ∧
      fs.Leads fs.searchable follow links (fs.start path) (components path) q := by
  unfold resolve at h
  split at h
  · cases h
  · rename_i nonempty
    split at h
    · cases h
    · rename_i short
      exact ⟨nonempty, Nat.not_le.mp short, walk_ok_iff.mp h⟩

theorem Leads.resolve (h : fs.Leads fs.searchable follow links (fs.start path) (components path) q)
    (few : links ≤ fs.symloopMax) (nonempty : path ≠ []) (short : path.length < fs.pathMax) :
    fs.resolve follow path = .ok q := by
  rw [LinkedFiles.resolve, if_neg nonempty, if_neg (Nat.not_le.mpr short)]
  exact walk_ok_iff.mpr ⟨links, few, h⟩

theorem LeftOf.resolve (h : left.LeftOf fs) (found : left.resolve follow path = .ok q) :
    fs.resolve follow path = .ok q := by
  obtain ⟨nonempty, short, links, few, leads⟩ := leads_of_resolve found
  rw [h.searchable, start, h.cwd] at leads
  exact (h.leads leads).resolve (h.symloopMax ▸ few) nonempty (h.pathMax ▸ short)

theorem resolve_lands (h : fs.resolve follow path = .ok q) :
    ∃ node, fs.node q = some node ∧ (node.isLink = true → follow = false) := by
  obtain ⟨nonempty, _, _, _, leads⟩ := leads_of_resolve h
  exact leads.lands_from (components_ne_nil nonempty)

/-- What `stat` finds `lstat` finds, or a link to it. -/
theorem lstat_of_stat (h : fs.stat path = .ok q) :
    ∃ p, fs.lstat path = .ok p ∧ (p = q ∨ ∃ target, fs.node p = some (.link target)) := by
  obtain ⟨nonempty, short, links, few, leads⟩ := leads_of_resolve h
  obtain ⟨fewer, p, fewer_links, leads', same⟩ := leads.keep_last
  exact ⟨p, leads'.resolve (Nat.le_trans fewer_links few) nonempty short, same⟩

end

/-! ## Files from a table -/

def tableNode (table : List (Place × FileNode F)) (p : Place) : Option (FileNode F) :=
  if p = [] then some .directory else (table.find? fun e => e.1 = p).map Prod.snd

/-- Each place once, in directories that are in the table or the root. -/
structure IsTable (table : List (Place × FileNode F)) : Prop where
  nodup : (table.map Prod.fst).Nodup
  nested : ∀ e ∈ table, (e.1.tail = [] ∨ (tableNode table e.1.tail).any FileNode.isDirectory) ∧
    ∀ name ∈ e.1.head?, IsFileName name

section
variable {table : List (Place × FileNode F)} {place : Place} {name : UStr}

theorem mem_of_tableNode (h : tableNode table (name :: place) ≠ none) :
    ∃ e ∈ table, e.1 = name :: place := by
  rw [tableNode, if_neg (List.cons_ne_nil _ _), ne_eq, Option.map_eq_none_iff] at h
  obtain ⟨e, found⟩ := Option.ne_none_iff_exists'.mp h
  exact ⟨e, List.mem_of_find?_eq_some found, by simpa using List.find?_some found⟩

def ofTable (table : List (Place × FileNode F)) (ok : IsTable table) : LinkedFiles F where
  node := tableNode table
  root := rfl
  parent name place h := by
    obtain ⟨e, there, here⟩ := mem_of_tableNode h
    obtain ⟨directory, -⟩ := ok.nested e there
    rw [here, List.tail_cons] at directory
    rcases directory with rfl | directory
    · rfl
    · cases found : tableNode table place with
      | none => rw [found] at directory; cases directory
      | some node => cases node <;> first | rfl | (rw [found] at directory; cases directory)
  named name place h := by
    obtain ⟨e, there, here⟩ := mem_of_tableNode h
    exact (ok.nested e there).2 name (by rw [here]; rfl)
  order place := (table.map Prod.fst).filterMap fun p => if p.tail = place then p.head? else none
  nodup place := by
    have same : ∀ p q : Place, ∀ name, (name ∈ if p.tail = place then p.head? else none) →
        (name ∈ if q.tail = place then q.head? else none) → p = q := by
      intro p q name hp hq
      split at hp
      · split at hq
        · rename_i here here'
          rw [← List.cons_head?_tail hp, ← List.cons_head?_tail hq, here, here']
        · cases hq
      · cases hp
    exact List.Nodup.filterMap same ok.nodup
  listed name place h := by
    obtain ⟨e, there, here⟩ := mem_of_tableNode h
    exact List.mem_filterMap.mpr ⟨e.1, List.mem_map_of_mem there, by simp [here]⟩
  cwd := []
  readable _ := true
  searchable _ := true
  symloopMax := 40
  pathMax := 4096

end

/-! ## Calls for a text

The system gets what `yella_to_utf8` returns, and fails with `EFAULT` for NULL. -/

def accessText (utf : Utf) (fs : LinkedFiles F) (path : UStr) : Bool :=
  utf.Converts path && fs.access path

def statText (utf : Utf) (fs : LinkedFiles F) (path : UStr) : Except Errno Place :=
  if utf.Converts path then fs.stat path else .error .other

section
variable {utf : YellaUtf} {fs : LinkedFiles F} {path : UStr} {p : Place}

theorem accessText_eq (ascii : path.IsAscii) : fs.accessText utf path = fs.access path := by
  simp [accessText, YellaUtf.converts_iff.mpr ascii]

theorem statText_eq (ascii : path.IsAscii) : fs.statText utf path = fs.stat path :=
  if_pos (YellaUtf.converts_iff.mpr ascii)

theorem statText_ok (h : fs.statText utf path = .ok p) : path.IsAscii ∧ fs.stat path = .ok p := by
  unfold statText at h
  split at h
  · exact ⟨YellaUtf.converts_iff.mp ‹_›, h⟩
  · cases h

end

end LinkedFiles

end Yella
