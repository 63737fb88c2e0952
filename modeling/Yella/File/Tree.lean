import Yella.FileName

/-!
# A tree of directories and other files

`access` and `mkdir` as the file functions use them. Symbolic links are not followed, since there
are none. The names of the files are texts, which the callers convert.
-/

namespace Yella

/-! ## Parts of a path -/

/-- The parts between the slashes, where `part` has been read of the first. -/
def partsFrom (part : UStr) : UStr → List UStr
  | [] => if part = [] then [] else [part]
  | c :: path =>
    if c = dirSep then
      if part = [] then partsFrom [] path else part :: partsFrom [] path
    else partsFrom (part ++ [c]) path

def parts (path : UStr) : List UStr := partsFrom [] path

section
variable {part a b run : UStr}

theorem partsFrom_append_sep :
    partsFrom part (a ++ dirSep :: b) = partsFrom part a ++ parts b := by
  induction a generalizing part with
  | nil =>
    simp only [List.nil_append, partsFrom, ↓reduceIte, parts]
    split <;> rfl
  | cons c a ih =>
    simp only [List.cons_append, partsFrom, ih]
    split
    · split <;> rfl
    · rfl

theorem partsFrom_plain (plain : dirSep ∉ b) (nonempty : part ++ b ≠ []) :
    partsFrom part b = [part ++ b] := by
  induction b generalizing part with
  | nil =>
    rw [List.append_nil] at nonempty ⊢
    exact if_neg nonempty
  | cons c b ih =>
    simp only [List.mem_cons, not_or] at plain
    rw [partsFrom, if_neg (Ne.symm plain.1), ih plain.2 (by simp), List.append_assoc]
    rfl

theorem parts_run_append (slashes : ∀ c ∈ run, c = dirSep) : parts (run ++ b) = parts b := by
  induction run with
  | nil => rfl
  | cons c run ih =>
    obtain ⟨rfl, more⟩ := List.forall_mem_cons.mp slashes
    exact ih more

theorem parts_append_run (slashes : ∀ c ∈ run, c = dirSep) : parts (a ++ run) = parts a := by
  cases run with
  | nil => rw [List.append_nil]
  | cons c run =>
    obtain ⟨rfl, more⟩ := List.forall_mem_cons.mp slashes
    have rest : parts run = [] := by
      rw [← List.append_nil run]
      exact parts_run_append more
    rw [parts, partsFrom_append_sep, rest, List.append_nil]
    rfl

/-- Parts with a run of slashes in between. -/
theorem parts_append_run_append (nonempty : run ≠ []) (slashes : ∀ c ∈ run, c = dirSep) :
    parts (a ++ run ++ b) = parts a ++ parts b := by
  obtain ⟨c, more, rfl⟩ := List.exists_cons_of_ne_nil nonempty
  obtain ⟨rfl, rest⟩ := List.forall_mem_cons.mp slashes
  rw [List.append_assoc, List.cons_append, parts, partsFrom_append_sep, parts_run_append rest]
  rfl

end

/-! ## Files -/

inductive FileKind where
  | directory
  | other
  deriving DecidableEq, Repr

/-- The names of a file and of the directories that it is in, up to the root. -/
abbrev Place := List UStr

structure FileTree where
  kind : Place → Option FileKind
  root : kind [] = some .directory
  parent : ∀ name place, kind (name :: place) ≠ none → kind place = some .directory
  cwd : Place
  cwdDirectory : kind cwd = some .directory

inductive Errno where
  | eacces
  | eexist
  | enoent
  | enotdir
  | other
  deriving DecidableEq, Repr

/-- One part of a path further. -/
def Place.step (place : Place) (part : UStr) : Place :=
  if part = [46] then place else if part = [46, 46] then place.tail else part :: place

/-- Where the parts of a path lead. -/
def Place.along (place : Place) (parts : List UStr) : Place := parts.foldl Place.step place

namespace FileTree

/-- Where absolute and relative paths start. -/
def base (tree : FileTree) (absolute : Bool) : Place := if absolute then [] else tree.cwd

def start (tree : FileTree) (path : UStr) : Place := tree.base (isFileNameAbsolute path)

/-- Where the path leads, whatever is there. -/
def place (tree : FileTree) (path : UStr) : Place := (tree.start path).along (parts path)

/-- Only directories are walked through, and each part is there. -/
def walk (tree : FileTree) : Place → List UStr → Except Errno Place
  | place, [] => .ok place
  | place, part :: more =>
    if tree.kind place ≠ some .directory then .error .enotdir
    else if tree.kind (place.step part) = none then .error .enoent
    else walk tree (place.step part) more

/-- Whether `access` with `F_OK` returns 0. A path that ends with a slash is a directory's. -/
def access (tree : FileTree) (path : UStr) : Bool :=
  if path = [] then false
  else
    match tree.walk (tree.start path) (parts path) with
    | .ok place => path.getLast? ≠ some dirSep || tree.kind place = some .directory
    | .error _ => false

def addDirectory (tree : FileTree) (place : Place) (name : UStr)
    (directory : tree.kind place = some .directory) : FileTree where
  kind p := if p = name :: place then some .directory else tree.kind p
  root := tree.root
  parent := by
    intro n p there
    split
    · rfl
    · split at there
      · rename_i same
        obtain ⟨rfl, rfl⟩ := List.cons.inj same
        exact directory
      · exact tree.parent n p there
  cwd := tree.cwd
  cwdDirectory := by
    split
    · rfl
    · exact tree.cwdDirectory

/-- `refuses` gives the places where the system makes no directory, for lack of permission or
space. -/
def mkdir (refuses : Place → Option Errno) (tree : FileTree) (path : UStr) :
    Except Errno FileTree :=
  match (parts path).getLast? with
  | none => .error .eexist
  | some last =>
    match tree.walk (tree.start path) (parts path).dropLast with
    | .error errno => .error errno
    | .ok place =>
      if directory : tree.kind place = some .directory then
        if tree.kind (place.step last) ≠ none then .error .eexist
        else
          match refuses (last :: place) with
          | some errno => .error errno
          | none => .ok (tree.addDirectory place last directory)
      else .error .enotdir

/-! ## Walks -/

section
variable {tree tree' : FileTree} {place p : Place} {ds es : List UStr} {c path : UStr}
  {refuses : Place → Option Errno}

theorem along_append (place : Place) (ds es : List UStr) :
    place.along (ds ++ es) = (place.along ds).along es :=
  List.foldl_append

theorem walk_append (tree : FileTree) (place : Place) (ds es : List UStr) :
    tree.walk place (ds ++ es) = (tree.walk place ds).bind fun p => tree.walk p es := by
  induction ds generalizing place with
  | nil => rfl
  | cons d ds ih =>
    simp only [List.cons_append, walk, ih]
    split
    · rfl
    · split <;> rfl

theorem eq_along_of_walk (h : tree.walk place ds = .ok p) : p = place.along ds := by
  induction ds generalizing place with
  | nil => exact (Except.ok.inj h).symm
  | cons d ds ih =>
    unfold walk at h
    split at h
    · cases h
    · split at h
      · cases h
      · exact ih h

/-- A step out of a directory that leads to nothing is one to a name in it. -/
theorem step_of_absent (directory : tree.kind place = some .directory)
    (absent : tree.kind (place.step c) = none) : place.step c = c :: place := by
  unfold Place.step at absent ⊢
  split
  · rename_i dot
    rw [if_pos dot, directory] at absent
    cases absent
  · rename_i dot
    split
    · rename_i dots
      rw [if_neg dot, if_pos dots] at absent
      cases place with
      | nil => rw [List.tail_nil, tree.root] at absent; cases absent
      | cons n place =>
        have := tree.parent n place (by rw [directory]; exact Option.some_ne_none _)
        rw [List.tail_cons, this] at absent
        cases absent
    · rfl

/-- The parts lead to a directory. -/
structure Reaches (tree : FileTree) (place : Place) (ds : List UStr) : Prop where
  walk : tree.walk place ds = .ok (place.along ds)
  directory : tree.kind (place.along ds) = some .directory

theorem Reaches.of_walk (h : tree.walk place ds = .ok p)
    (directory : tree.kind p = some .directory) : tree.Reaches place ds := by
  obtain rfl := eq_along_of_walk h
  exact ⟨h, directory⟩

theorem reaches_nil (directory : tree.kind place = some .directory) : tree.Reaches place [] :=
  ⟨rfl, directory⟩

theorem Reaches.walk_snoc (h : tree.Reaches place ds) (c : UStr) :
    tree.walk place (ds ++ [c]) =
      if tree.kind (place.along (ds ++ [c])) = none then .error .enoent
      else .ok (place.along (ds ++ [c])) := by
  rw [walk_append, h.walk, along_append]
  show tree.walk (place.along ds) [c] = _
  rw [FileTree.walk, if_neg (not_not_intro h.directory)]
  rfl

theorem Reaches.snoc (h : tree.Reaches place ds)
    (directory : tree.kind (place.along (ds ++ [c])) = some .directory) :
    tree.Reaches place (ds ++ [c]) := by
  refine ⟨?_, directory⟩
  rw [h.walk_snoc, directory]
  rfl

theorem Reaches.front (h : tree.Reaches place (ds ++ es)) : tree.Reaches place ds := by
  have walk := h.walk
  rw [walk_append] at walk
  cases front : tree.walk place ds with
  | error errno =>
    rw [front] at walk
    cases walk
  | ok p =>
    apply Reaches.of_walk front
    cases es with
    | nil =>
      obtain rfl := eq_along_of_walk front
      simpa using h.directory
    | cons e es =>
      rw [front] at walk
      by_contra other
      have : tree.walk p (e :: es) = .error .enotdir := if_pos other
      rw [show (Except.ok p : Except Errno Place).bind (fun p => tree.walk p (e :: es)) =
        tree.walk p (e :: es) from rfl, this] at walk
      cases walk

/-! ## One part behind a directory -/

theorem parts_ne_nil_of_snoc (last : parts path = ds ++ [c]) : path ≠ [] := by
  rintro rfl
  have := congrArg List.length last
  simp [parts, partsFrom] at this

theorem place_of_snoc (tree : FileTree) (last : parts path = ds ++ [c]) :
    tree.place path = ((tree.start path).along ds).step c := by
  rw [place, last, along_append]
  rfl

theorem Reaches.access_iff (h : tree.Reaches (tree.start path) ds) (last : parts path = ds ++ [c]) :
    tree.access path = true ↔
      tree.kind (tree.place path) = some .directory ∨
        tree.kind (tree.place path) = some .other ∧
          path.getLast? ≠ some dirSep := by
  have here : (tree.start path).along (ds ++ [c]) = tree.place path := by rw [place, last]
  rw [access, if_neg (parts_ne_nil_of_snoc last), last, h.walk_snoc, here]
  cases kind : tree.kind (tree.place path) with
  | none => simp
  | some k => cases k <;> simp [kind]

theorem Reaches.mkdir_eq (h : tree.Reaches (tree.start path) ds) (last : parts path = ds ++ [c]) :
    tree.mkdir refuses path =
      if tree.kind (tree.place path) ≠ none then .error .eexist
      else
        match refuses (c :: (tree.start path).along ds) with
        | some errno => .error errno
        | none => .ok (tree.addDirectory ((tree.start path).along ds) c h.directory) := by
  rw [tree.place_of_snoc last]
  unfold mkdir
  simp only [last, List.getLast?_concat, List.dropLast_concat, h.walk, dif_pos h.directory]

theorem Reaches.mkdir_ok (h : tree.Reaches (tree.start path) ds) (last : parts path = ds ++ [c])
    (made : tree.mkdir refuses path = .ok tree') :
    tree.kind (tree.place path) = none ∧
      refuses (tree.place path) = none ∧ tree'.cwd = tree.cwd ∧
      ∀ p, tree'.kind p =
        if p = tree.place path then some .directory else tree.kind p := by
  rw [h.mkdir_eq last] at made
  split at made
  · cases made
  · rename_i absent
    have absent : tree.kind (tree.place path) = none := not_not.mp absent
    have step : tree.place path = c :: (tree.start path).along ds := by
      rw [tree.place_of_snoc last] at absent ⊢
      exact step_of_absent h.directory absent
    split at made
    · cases made
    · rename_i allowed
      obtain rfl := Except.ok.inj made
      rw [step] at absent ⊢
      exact ⟨absent, allowed, rfl, fun p => rfl⟩

theorem Reaches.exists_mkdir (h : tree.Reaches (tree.start path) ds)
    (last : parts path = ds ++ [c])
    (absent : tree.kind (tree.place path) = none)
    (allowed : refuses (tree.place path) = none) :
    ∃ tree', tree.mkdir refuses path = .ok tree' := by
  have step : tree.place path = c :: (tree.start path).along ds := by
    rw [tree.place_of_snoc last] at absent ⊢
    exact step_of_absent h.directory absent
  rw [h.mkdir_eq last, if_neg (not_not_intro absent), ← step, allowed]
  exact ⟨_, rfl⟩

/-- Nothing is found or made behind a file that is no directory. -/
theorem blocked (front : tree.walk (tree.start path) ds = .ok p)
    (other : tree.kind p = some .other) (last : parts path = ds ++ [c]) :
    tree.access path = false ∧ tree.mkdir refuses path = .error .enotdir := by
  have no : tree.kind p ≠ some .directory := by
    rw [other]
    decide
  have whole : tree.walk (tree.start path) (ds ++ [c]) = .error .enotdir := by
    rw [walk_append, front]
    exact if_pos no
  constructor
  · rw [access, if_neg (parts_ne_nil_of_snoc last), last, whole]
  · unfold mkdir
    simp only [last, List.getLast?_concat, List.dropLast_concat, front, dif_neg no]

/-! ## A tree that has grown -/

/-- What was there is there. What was not is a directory, where one may be made, and `mkdir` has
been called for it. -/
structure Grown (refuses : Place → Option Errno) (before : FileTree) (calls : List UStr)
    (after : FileTree) : Prop where
  kept : ∀ p k, before.kind p = some k → after.kind p = some k
  made : ∀ p k, before.kind p = none → after.kind p = some k →
    k = .directory ∧ refuses p = none ∧ ∃ path ∈ calls, before.place path = p
  cwd : after.cwd = before.cwd

variable {calls : List UStr} {before : FileTree}

theorem Grown.refl (tree : FileTree) : Grown refuses tree calls tree := by
  refine ⟨fun _ _ there => there, fun p k was is => ?_, rfl⟩
  rw [was] at is
  cases is

theorem Grown.start_eq (grown : Grown refuses tree calls tree') (path : UStr) :
    tree'.start path = tree.start path := by
  unfold start base
  rw [grown.cwd]

theorem Grown.place_eq (grown : Grown refuses tree calls tree') (path : UStr) :
    tree'.place path = tree.place path := by
  unfold place
  rw [grown.start_eq]

/-- What is there now was there or has been made. -/
theorem Grown.there (grown : Grown refuses before calls tree) (there : tree.kind p ≠ none) :
    before.kind p ≠ none ∨ ∃ path ∈ calls, before.place path = p := by
  cases was : before.kind p with
  | some k => exact .inl (Option.some_ne_none k)
  | none =>
    obtain ⟨k, is⟩ := Option.ne_none_iff_exists'.mp there
    exact .inr (grown.made p k was is).2.2

theorem Grown.call (grown : Grown refuses before calls tree) (path : UStr) :
    Grown refuses before (calls ++ [path]) tree := by
  refine ⟨grown.kept, fun p k was is => ?_, grown.cwd⟩
  obtain ⟨directory, allowed, q, hq, here⟩ := grown.made p k was is
  exact ⟨directory, allowed, q, List.mem_append_left _ hq, here⟩

theorem Grown.mkdir (grown : Grown refuses before calls tree)
    (h : tree.Reaches (tree.start path) ds) (last : parts path = ds ++ [c])
    (made : tree.mkdir refuses path = .ok tree') :
    Grown refuses before (calls ++ [path]) tree' := by
  obtain ⟨absent, allowed, cwd, kind⟩ := h.mkdir_ok last made
  refine ⟨fun p k was => ?_, fun p k was is => ?_, cwd.trans grown.cwd⟩
  · have there := grown.kept p k was
    rw [kind, if_neg]
    · exact there
    · rintro rfl
      rw [absent] at there
      cases there
  · rw [kind] at is
    split at is
    · rename_i here
      refine ⟨(Option.some.inj is).symm, here ▸ allowed, path, by simp, ?_⟩
      rw [here, grown.place_eq]
    · exact (grown.call path).made p k was is

theorem Grown.walk_eq (grown : Grown refuses tree calls tree') (h : tree.walk place ds = .ok p) :
    tree'.walk place ds = .ok p := by
  induction ds generalizing place with
  | nil => exact h
  | cons d ds ih =>
    unfold walk at h ⊢
    split at h
    · cases h
    · rename_i directory
      split at h
      · cases h
      · rename_i there
        obtain ⟨k, hk⟩ := Option.ne_none_iff_exists'.mp there
        rw [if_neg (not_not_intro (grown.kept _ _ (not_not.mp directory))),
          if_neg (by rw [grown.kept _ _ hk]; exact Option.some_ne_none k)]
        exact ih h

theorem Grown.reaches (grown : Grown refuses tree calls tree') (h : tree.Reaches place ds) :
    tree'.Reaches place ds :=
  ⟨grown.walk_eq h.walk, grown.kept _ _ h.directory⟩

theorem Reaches.after_mkdir (h : tree.Reaches (tree.start path) ds) (last : parts path = ds ++ [c])
    (made : tree.mkdir refuses path = .ok tree') :
    tree'.Reaches (tree'.start path) (parts path) := by
  have same : Grown refuses tree [] tree := Grown.refl tree
  have grown : Grown refuses tree [path] tree' := same.mkdir h last made
  obtain ⟨-, -, -, kind⟩ := h.mkdir_ok last made
  rw [grown.start_eq, last]
  apply (grown.reaches h).snoc
  rw [kind, if_pos]
  rw [place, last]

end

end FileTree

end Yella
