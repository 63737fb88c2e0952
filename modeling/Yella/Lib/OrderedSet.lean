import Yella.Lib.SortedList

/-!
# Sets ordered by a key

What an ordered container keeps whose comparator sees only the key of an element: an insertion
does nothing when an element of that key is there.
-/

/-- The elements in the order of the iterators, no two of one key. -/
structure OrderedSet {α κ : Type*} [LinearOrder κ] (key : α → κ) where
  tree : SortedList.Tree key
  distinct : tree.Distinct

namespace OrderedSet

variable {α κ : Type*} [LinearOrder κ] {key : α → κ} {s t : OrderedSet key} {x y : α}

def elems (s : OrderedSet key) : List α := s.tree.nodes

instance : Membership α (OrderedSet key) := ⟨fun s x => x ∈ s.elems⟩

theorem mem_elems : x ∈ s.elems ↔ x ∈ s := Iff.rfl

theorem eq_of_elems (h : s.elems = t.elems) : s = t := by
  obtain ⟨⟨_, _⟩, _⟩ := s
  obtain ⟨⟨_, _⟩, _⟩ := t
  cases h
  rfl

instance [DecidableEq α] : DecidableEq (OrderedSet key) := fun s t =>
  decidable_of_iff (s.elems = t.elems) ⟨eq_of_elems, congrArg elems⟩

theorem unique (s : OrderedSet key) (hx : x ∈ s) (hy : y ∈ s) (same : key x = key y) : x = y :=
  List.inj_on_of_nodup_map s.distinct hx hy same

/-- Sets are equal that have the same elements. -/
theorem ext_mem (h : ∀ x, x ∈ s ↔ x ∈ t) : s = t := by
  apply eq_of_elems
  have nodup (r : OrderedSet key) : r.elems.Nodup := List.Nodup.of_map key r.distinct
  have perm : s.elems.Perm t.elems := (List.perm_ext_iff_of_nodup (nodup s) (nodup t)).mpr h
  have sorted (r : OrderedSet key) : r.elems.Pairwise (fun a b => key a ≤ key b) := r.tree.sorted
  refine List.Perm.eq_of_pairwise ?_ (sorted s) (sorted t) perm
  intro a b ha hb le ge
  exact s.unique ha ((h b).mpr hb) (le_antisymm le ge)

def empty : OrderedSet key := ⟨.empty, List.nodup_nil⟩

@[simp] theorem not_mem_empty : x ∉ (empty : OrderedSet key) := List.not_mem_nil

def insert (s : OrderedSet key) (x : α) : OrderedSet key :=
  match h : s.tree.find (key x) with
  | some _ => s
  | none => ⟨s.tree.add x, s.distinct.add (SortedList.Tree.find_eq_none.mp h)⟩

def Has (s : OrderedSet key) (k : κ) : Prop := ∃ z ∈ s, key z = k

theorem has_iff_find {k : κ} : s.Has k ↔ s.tree.find k ≠ none := by
  rw [ne_eq, SortedList.Tree.find_eq_none, not_not, List.mem_map]
  rfl

theorem mem_insert : y ∈ s.insert x ↔ y ∈ s ∨ y = x ∧ ¬ s.Has (key x) := by
  unfold insert
  split
  · rename_i z found
    have taken : s.Has (key x) := has_iff_find.mpr (by rw [found]; exact Option.some_ne_none z)
    simp [taken]
  · rename_i found
    have free : ¬ s.Has (key x) := fun h => has_iff_find.mp h found
    have added : y ∈ (s.tree.add x).nodes ↔ y = x ∨ y ∈ s := SortedList.Tree.mem_nodes_add
    rw [or_comm, and_iff_left free]
    exact added

theorem has_insert {k : κ} : (s.insert x).Has k ↔ s.Has k ∨ key x = k := by
  constructor
  · rintro ⟨z, hz, rfl⟩
    obtain hz | ⟨rfl, -⟩ := mem_insert.mp hz
    · exact .inl ⟨z, hz, rfl⟩
    · exact .inr rfl
  · rintro (⟨z, hz, rfl⟩ | rfl)
    · exact ⟨z, mem_insert.mpr (.inl hz), rfl⟩
    · by_cases there : s.Has (key x)
      · obtain ⟨z, hz, same⟩ := there
        exact ⟨z, mem_insert.mpr (.inl hz), same⟩
      · exact ⟨x, mem_insert.mpr (.inr ⟨rfl, there⟩), rfl⟩

/-- Insertions one after the other. -/
def insertAll (s : OrderedSet key) (xs : List α) : OrderedSet key := xs.foldl insert s

def ofList (key : α → κ) (xs : List α) : OrderedSet key := insertAll empty xs

theorem mem_insertAll {xs : List α} : y ∈ s.insertAll xs ↔
    y ∈ s ∨ ¬ s.Has (key y) ∧ xs.find? (fun z => key z = key y) = some y := by
  induction xs generalizing s with
  | nil => simp [insertAll]
  | cons x xs ih =>
    have first : y ∈ s.insertAll (x :: xs) ↔ y ∈ (s.insert x).insertAll xs := Iff.rfl
    rw [first, ih, mem_insert, has_insert]
    by_cases same : key x = key y
    · simp [same, eq_comm, and_comm]
    · have other : y ≠ x := fun h => same (congrArg key h.symm)
      simp [same, other]

/-- Of the elements of one key the first one is kept. -/
theorem mem_ofList {xs : List α} :
    y ∈ ofList key xs ↔ xs.find? (fun z => key z = key y) = some y := by
  simp [ofList, mem_insertAll, Has]

/-- Where elements of one key are equal, nothing is left out. -/
theorem mem_ofList_of_agree {xs : List α} (h : ∀ x ∈ xs, ∀ y ∈ xs, key x = key y → x = y) :
    y ∈ ofList key xs ↔ y ∈ xs := by
  rw [mem_ofList]
  constructor
  · exact List.mem_of_find?_eq_some
  · intro hy
    cases found : xs.find? (fun z => key z = key y) with
    | none => simpa using List.find?_eq_none.mp found y hy
    | some z =>
      have same : key z = key y := by simpa using List.find?_some found
      rw [h z (List.mem_of_find?_eq_some found) y hy same]

/-- The elements in any order. -/
theorem ofList_of_perm {xs : List α} (h : xs.Perm s.elems) : ofList key xs = s := by
  apply ext_mem
  intro x
  rw [mem_ofList_of_agree, h.mem_iff, mem_elems]
  intro y hy z hz
  exact s.unique (h.mem_iff.mp hy) (h.mem_iff.mp hz)

/-! ## Elements by their key -/

def find (s : OrderedSet key) (k : κ) : Option α := s.tree.find k

/-- The element of that key is changed in its place. -/
def modify (s : OrderedSet key) (k : κ) (f : α → α) (same : ∀ x, key (f x) = key x) :
    OrderedSet key :=
  ⟨s.tree.modify k f same, s.distinct.modify k f same⟩

@[simp] theorem find_empty (k : κ) : (empty : OrderedSet key).find k = none := rfl

theorem find_eq_some {k : κ} : s.find k = some x ↔ x ∈ s ∧ key x = k := by
  constructor
  · exact SortedList.find_some key
  · rintro ⟨hx, rfl⟩
    cases found : s.find (key x) with
    | none => exact absurd (List.mem_map_of_mem hx) (SortedList.Tree.find_eq_none.mp found)
    | some y =>
      obtain ⟨hy, same⟩ := SortedList.find_some key found
      rw [s.unique hy hx same]

theorem find_insert (s : OrderedSet key) (x : α) (k : κ) :
    (s.insert x).find k = if k = key x then some ((s.find k).getD x) else s.find k := by
  unfold insert
  split
  · rename_i z found
    split
    · rename_i here
      subst here
      have there : s.find (key x) = some z := found
      rw [there, Option.getD_some]
    · rfl
  · rename_i found
    have added : (s.tree.add x).find k = if k = key x then some x else s.find k :=
      SortedList.Tree.find_add s.tree x k
    show (s.tree.add x).find k = _
    rw [added]
    split
    · rename_i here
      subst here
      have absent : s.find (key x) = none := found
      rw [absent, Option.getD_none]
    · rfl

theorem find_modify (s : OrderedSet key) (k : κ) (f : α → α) (same : ∀ x, key (f x) = key x)
    (k' : κ) : (s.modify k f same).find k' = if k' = k then (s.find k').map f else s.find k' :=
  SortedList.Tree.find_modify s.tree k f same k'

end OrderedSet
