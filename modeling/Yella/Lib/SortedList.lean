import Mathlib.Data.List.Sort
import Mathlib.Data.Tree.Basic
import Mathlib.Logic.Function.Basic

/-!
# Lists kept sorted by a key

A list sorted by a key that need not be injective. A new element goes in front of the
elements with its key, so elements with one key stand in the reverse of the order in which
they were added.
-/

namespace SortedList

variable {α κ : Type*} [LinearOrder κ] (key : α → κ)

def add (x : α) (l : List α) : List α :=
  l.orderedInsert (fun a b => key a ≤ key b) x

def Sorted (l : List α) : Prop := l.Pairwise (fun a b => key a ≤ key b)

/-- The first element with key `k`, found by walking up to the first key not below `k`. -/
def find (k : κ) (l : List α) : Option α :=
  match l with
  | [] => none
  | y :: l => if key y < k then find k l else if key y = k then some y else none

/-- The elements with key `k`. -/
def fibre (k : κ) (l : List α) : List α := l.filter (fun y => key y = k)

theorem add_sorted (x : α) {l : List α} (h : Sorted key l) : Sorted key (add key x l) := by
  have : Std.Total (fun a b : α => key a ≤ key b) := ⟨fun a b => le_total (key a) (key b)⟩
  have : IsTrans α (fun a b => key a ≤ key b) := ⟨fun _ _ _ => le_trans⟩
  exact List.Pairwise.orderedInsert x l h

theorem mem_add {x y : α} {l : List α} : y ∈ add key x l ↔ y = x ∨ y ∈ l := by
  simp [add, List.mem_orderedInsert]

theorem fibre_add (x : α) {l : List α} (h : Sorted key l) (k : κ) :
    fibre key k (add key x l) = if key x = k then x :: fibre key k l else fibre key k l := by
  induction l with
  | nil => by_cases hx : key x = k <;> simp [fibre, add, hx]
  | cons y l ih =>
    have hl : Sorted key l := (List.pairwise_cons.mp h).2
    simp only [add, List.orderedInsert_cons] at ih ⊢
    split
    · simp only [fibre, List.filter_cons, decide_eq_true_eq]
    · rename_i above
      -- `y` lies strictly below `x`, so it is in the fibre only when `x` is not
      have lt : key y < key x := not_le.mp above
      simp only [fibre, List.filter_cons, decide_eq_true_eq] at ih ⊢
      rw [ih hl]
      by_cases hx : key x = k
      · have : key y ≠ k := by rw [← hx]; exact ne_of_lt lt
        simp [hx, this]
      · simp [hx]

theorem sorted_foldl_add (xs : List α) {l : List α} (h : Sorted key l) :
    Sorted key (xs.foldl (fun l x => add key x l) l) := by
  induction xs generalizing l with
  | nil => exact h
  | cons x xs ih => exact ih (add_sorted key x h)

theorem fibre_foldl_add (xs : List α) {l : List α} (h : Sorted key l) (k : κ) :
    fibre key k (xs.foldl (fun l x => add key x l) l) =
      (fibre key k xs).reverse ++ fibre key k l := by
  induction xs generalizing l with
  | nil => rfl
  | cons x xs ih =>
    rw [List.foldl_cons, ih (add_sorted key x h), fibre_add key x h]
    by_cases hx : key x = k <;> simp [fibre, hx]

/-- A sorted list is determined by its fibres. -/
theorem eq_of_fibres {l m : List α} (hl : Sorted key l) (hm : Sorted key m)
    (h : ∀ k, fibre key k l = fibre key k m) : l = m := by
  induction l generalizing m with
  | nil =>
    cases m with
    | nil => rfl
    | cons y m => have := h (key y); simp [fibre] at this
  | cons x l ih =>
    cases m with
    | nil => have := h (key x); simp [fibre] at this
    | cons y m =>
      have hx : x ∈ y :: m := by
        have : x ∈ fibre key (key x) (y :: m) := by rw [← h]; simp [fibre]
        exact List.mem_of_mem_filter this
      have hy : y ∈ x :: l := by
        have : y ∈ fibre key (key y) (x :: l) := by rw [h]; simp [fibre]
        exact List.mem_of_mem_filter this
      have le₁ : key x ≤ key y := by
        rcases List.mem_cons.mp hy with rfl | hy
        · exact le_refl _
        · exact (List.pairwise_cons.mp hl).1 y hy
      have le₂ : key y ≤ key x := by
        rcases List.mem_cons.mp hx with rfl | hx
        · exact le_refl _
        · exact (List.pairwise_cons.mp hm).1 x hx
      have keys : key x = key y := le_antisymm le₁ le₂
      have heads : x = y := by
        have := h (key x)
        simp only [fibre, List.filter_cons, decide_true, keys, ↓reduceIte,
          List.cons.injEq] at this
        exact this.1
      subst heads
      have tails : l = m := by
        apply ih (List.pairwise_cons.mp hl).2 (List.pairwise_cons.mp hm).2
        intro k
        have := h k
        simp only [fibre, List.filter_cons] at this ⊢
        split at this
        · exact (List.cons.inj this).2
        · exact this
      rw [tails]

/-- Adding the elements of a sorted list in order gives the list back exactly when the
elements of each key read the same in both directions. -/
theorem foldl_add_eq_iff {l : List α} (h : Sorted key l) :
    l.foldl (fun l x => add key x l) [] = l ↔
      ∀ k, (fibre key k l).reverse = fibre key k l := by
  have empty : Sorted key ([] : List α) := List.Pairwise.nil
  have fibres := fibre_foldl_add key l empty
  constructor
  · intro he k
    have := fibres k
    rw [he] at this
    simpa [fibre] using this.symm
  · intro hk
    apply eq_of_fibres key (sorted_foldl_add key l empty) h
    intro k
    rw [fibres k, hk k]
    simp [fibre]

/-- The elements of a sorted list whose keys differ, added in order. -/
theorem foldl_add_of_nodup {l : List α} (h : Sorted key l) (distinct : (l.map key).Nodup) :
    l.foldl (fun l x => add key x l) [] = l := by
  rw [foldl_add_eq_iff key h]
  intro k
  have single : (fibre key k l).Nodup ∧ ∀ x ∈ fibre key k l, ∀ y ∈ fibre key k l, x = y := by
    refine ⟨(List.Nodup.of_map key distinct).filter _, fun x hx y hy => ?_⟩
    simp only [fibre, List.mem_filter, decide_eq_true_eq] at hx hy
    exact List.inj_on_of_nodup_map distinct hx.1 hy.1 (hx.2.trans hy.2.symm)
  match hf : fibre key k l, single with
  | [], _ => rfl
  | [_], _ => rfl
  | x :: y :: l', ⟨nodup, same⟩ =>
    have : x = y := same x (by simp) y (by simp)
    simp [this] at nodup

theorem mem_foldl_add {xs l : List α} {y : α} :
    y ∈ xs.foldl (fun l x => add key x l) l ↔ y ∈ xs ∨ y ∈ l := by
  induction xs generalizing l with
  | nil => simp
  | cons x xs ih => rw [List.foldl_cons, ih, mem_add, List.mem_cons]; tauto

/-- The order of adding does not matter where elements with one key are the same. -/
theorem foldl_add_perm {xs ys : List α} (perm : xs.Perm ys)
    (same : ∀ x ∈ xs, ∀ y ∈ xs, key x = key y → x = y) :
    xs.foldl (fun l x => add key x l) [] = ys.foldl (fun l x => add key x l) [] := by
  have empty : Sorted key ([] : List α) := List.Pairwise.nil
  apply eq_of_fibres key (sorted_foldl_add key xs empty) (sorted_foldl_add key ys empty)
  intro k
  have fibres : (fibre key k xs).Perm (fibre key k ys) := perm.filter _
  rw [fibre_foldl_add key xs empty, fibre_foldl_add key ys empty]
  congr 1
  cases found : fibre key k xs with
  | nil =>
    rw [found] at fibres
    rw [fibres.nil_eq]
  | cons x rest =>
    have one : fibre key k xs = List.replicate (fibre key k xs).length x := by
      apply List.eq_replicate_of_mem
      intro y hy
      have hx : x ∈ fibre key k xs := by simp [found]
      simp only [fibre, List.mem_filter, decide_eq_true_eq] at hx hy
      exact same y hy.1 x hx.1 (hy.2.trans hx.2.symm)
    have other : fibre key k ys = List.replicate (fibre key k xs).length x :=
      List.perm_replicate.mp (one ▸ fibres.symm)
    rw [← found, other, ← one]

theorem find_some {k : κ} {l : List α} {x : α} (h : find key k l = some x) :
    x ∈ l ∧ key x = k := by
  induction l with
  | nil => simp [find] at h
  | cons y l ih =>
    simp only [find] at h
    split at h
    · exact ⟨List.mem_cons_of_mem _ (ih h).1, (ih h).2⟩
    · split at h
      · rename_i hk; cases h; exact ⟨List.mem_cons_self, hk⟩
      · cases h

theorem find_none {k : κ} {l : List α} (hs : Sorted key l) :
    find key k l = none ↔ ∀ x ∈ l, key x ≠ k := by
  induction l with
  | nil => simp [find]
  | cons y l ih =>
    have above := (List.pairwise_cons.mp hs).1
    simp only [find]
    split
    · rename_i below
      rw [ih (List.pairwise_cons.mp hs).2, List.forall_mem_cons]
      exact ⟨fun h => ⟨ne_of_lt below, h⟩, fun h => h.2⟩
    · rename_i reached
      split
      · rename_i hk; simp [hk]
      · rename_i hk
        simp only [true_iff, List.forall_mem_cons]
        refine ⟨hk, fun x hx => ?_⟩
        have : k < key y := lt_of_le_of_ne (not_lt.mp reached) (Ne.symm hk)
        exact (ne_of_lt (lt_of_lt_of_le this (above x hx))).symm

theorem find_eq_head? {k : κ} {l : List α} (hs : Sorted key l) :
    find key k l = (fibre key k l).head? := by
  induction l with
  | nil => rfl
  | cons y l ih =>
    have above := (List.pairwise_cons.mp hs).1
    have rest := ih (List.pairwise_cons.mp hs).2
    simp only [find, fibre, List.filter_cons, decide_eq_true_eq]
    split
    · rename_i below
      rw [if_neg (ne_of_lt below)]
      exact rest
    · rename_i reached
      split
      · rfl
      · rename_i hk
        have lt : k < key y := lt_of_le_of_ne (not_lt.mp reached) (Ne.symm hk)
        have : l.filter (fun y => key y = k) = [] := by
          rw [List.filter_eq_nil_iff]
          intro x hx
          simpa using (ne_of_lt (lt_of_lt_of_le lt (above x hx))).symm
        rw [this]
        rfl

/-- The list without its first element with key `k`. -/
def delete (k : κ) (l : List α) : List α :=
  l.eraseP (fun y => key y = k)

theorem delete_sorted (k : κ) {l : List α} (h : Sorted key l) : Sorted key (delete key k l) :=
  List.Pairwise.sublist List.eraseP_sublist h

theorem fibre_delete (k k' : κ) (l : List α) :
    fibre key k (delete key k' l) =
      if k' = k then (fibre key k l).tail else fibre key k l := by
  induction l with
  | nil => by_cases h : k' = k <;> simp [fibre, delete]
  | cons y l ih =>
    simp only [fibre, delete, List.eraseP_cons, List.filter_cons, decide_eq_true_eq] at ih ⊢
    by_cases hy : key y = k'
    · by_cases hk : k' = k <;> simp [hy, hk]
    · by_cases hk : k' = k
      · subst hk
        simp only [hy, decide_false, cond_false, List.filter_cons, ↓reduceIte] at ih ⊢
        exact ih
      · simp only [hy, decide_false, cond_false, List.filter_cons, hk, ↓reduceIte] at ih ⊢
        simp only [ih, decide_eq_true_eq]

theorem delete_of_not_mem {k : κ} {l : List α} (h : ∀ x ∈ l, key x ≠ k) : delete key k l = l := by
  apply List.eraseP_of_forall_not
  intro x hx
  simpa using h x hx

theorem mem_delete_of_nodup {k : κ} {l : List α} {x : α} (h : (l.map key).Nodup) :
    x ∈ delete key k l ↔ x ∈ l ∧ key x ≠ k := by
  induction l with
  | nil => simp [delete]
  | cons y l ih =>
    obtain ⟨fresh, h⟩ := List.nodup_cons.mp h
    by_cases hy : key y = k
    · subst hy
      have : ∀ z ∈ l, key z ≠ key y := by
        intro z hz same
        exact fresh (same ▸ List.mem_map_of_mem hz)
      simp only [delete, List.eraseP_cons, decide_true, cond_true, List.mem_cons]
      constructor
      · exact fun hx => ⟨.inr hx, this x hx⟩
      · rintro ⟨rfl | hx, other⟩
        · exact absurd rfl other
        · exact hx
    · have ih := ih h
      simp only [delete] at ih
      simp only [delete, List.eraseP_cons, hy, decide_false, cond_false, List.mem_cons, ih]
      constructor
      · rintro (rfl | ⟨hx, other⟩)
        · exact ⟨.inl rfl, hy⟩
        · exact ⟨.inr hx, other⟩
      · rintro ⟨rfl | hx, other⟩
        · exact .inl rfl
        · exact .inr ⟨hx, other⟩

/-- The list with its first element of key `k` changed. -/
def modify (k : κ) (f : α → α) : List α → List α
  | [] => []
  | y :: l => if key y = k then f y :: l else y :: modify k f l

theorem map_key_modify {k : κ} {f : α → α} (same : ∀ x, key (f x) = key x) (l : List α) :
    (modify key k f l).map key = l.map key := by
  induction l with
  | nil => rfl
  | cons y l ih =>
    simp only [modify]
    split
    · simp [same]
    · simp [ih]

theorem modify_sorted {k : κ} {f : α → α} (same : ∀ x, key (f x) = key x) {l : List α}
    (h : Sorted key l) : Sorted key (modify key k f l) := by
  have keys : (l.map key).Pairwise (· ≤ ·) := List.pairwise_map.mpr h
  rw [← map_key_modify key same l] at keys
  exact List.pairwise_map.mp keys

theorem mem_modify_of_nodup {k : κ} {f : α → α} {l : List α} {y : α} (h : (l.map key).Nodup) :
    y ∈ modify key k f l ↔ (y ∈ l ∧ key y ≠ k) ∨ ∃ x ∈ l, key x = k ∧ y = f x := by
  induction l with
  | nil => simp [modify]
  | cons x l ih =>
    obtain ⟨fresh, h⟩ := List.nodup_cons.mp h
    by_cases hx : key x = k
    · subst hx
      have others : ∀ z ∈ l, key z ≠ key x := by
        intro z hz same
        exact fresh (same ▸ List.mem_map_of_mem hz)
      simp only [modify, if_true, List.mem_cons]
      constructor
      · rintro (rfl | hy)
        · exact .inr ⟨x, .inl rfl, rfl, rfl⟩
        · exact .inl ⟨.inr hy, others y hy⟩
      · rintro (⟨rfl | hy, other⟩ | ⟨z, rfl | hz, hk, rfl⟩)
        · exact absurd rfl other
        · exact .inr hy
        · exact .inl rfl
        · exact absurd hk (others z hz)
    · simp only [modify, hx, if_false, List.mem_cons, ih h]
      constructor
      · rintro (rfl | ⟨hy, other⟩ | ⟨z, hz, hk, rfl⟩)
        · exact .inl ⟨.inl rfl, hx⟩
        · exact .inl ⟨.inr hy, other⟩
        · exact .inr ⟨z, .inr hz, hk, rfl⟩
      · rintro (⟨rfl | hy, other⟩ | ⟨z, rfl | hz, hk, rfl⟩)
        · exact .inl rfl
        · exact .inr (.inl ⟨hy, other⟩)
        · exact absurd hk hx
        · exact .inr (.inr ⟨z, hz, hk, rfl⟩)

theorem find_modify {k : κ} {f : α → α} (same : ∀ x, key (f x) = key x) (l : List α) (k' : κ) :
    find key k' (modify key k f l) = if k' = k then (find key k' l).map f else find key k' l := by
  induction l with
  | nil => simp [modify, find]
  | cons y l ih =>
    by_cases hy : key y = k
    · subst hy
      simp only [modify, if_true, find, same]
      by_cases below : key y < k'
      · simp [below, (ne_of_lt below).symm]
      · by_cases here : key y = k'
        · simp [here]
        · simp [below, here, Ne.symm here]
    · simp only [modify, hy, if_false, find, ih]
      by_cases below : key y < k'
      · simp [below]
      · by_cases here : key y = k'
        · simp [here, here ▸ hy]
        · simp [below, here]

theorem find_add (x : α) {l : List α} (h : Sorted key l) (k : κ) :
    find key k (add key x l) = if k = key x then some x else find key k l := by
  rw [find_eq_head? key (add_sorted key x h), fibre_add key x h, find_eq_head? key h]
  by_cases here : k = key x
  · simp [here]
  · simp [here, Ne.symm here]

/-! ## Elements seen through a function that keeps the keys -/

section
variable {β : Type*} {key} {key' : β → κ} {g : α → β}

theorem map_add (same : ∀ x, key' (g x) = key x) (x : α) (l : List α) :
    (add key x l).map g = add key' (g x) (l.map g) := by
  apply List.map_orderedInsert
  · intro y _
    rw [same, same]
  · intro y _
    rw [same, same]

theorem map_delete (same : ∀ x, key' (g x) = key x) (k : κ) (l : List α) :
    (delete key k l).map g = delete key' k (l.map g) := by
  simp only [delete, List.eraseP_map, Function.comp_def, same]

theorem map_modify (same : ∀ x, key' (g x) = key x) (k : κ) {f : α → α} {f' : β → β}
    (comm : ∀ x, g (f x) = f' (g x)) (l : List α) :
    (modify key k f l).map g = modify key' k f' (l.map g) := by
  induction l with
  | nil => rfl
  | cons y l ih =>
    simp only [modify, List.map_cons, same]
    split
    · rw [List.map_cons, comm]
    · rw [List.map_cons, ih]

end

/-! ## Trees

What a search tree with this key holds, in the order of its iterators. -/

structure Tree where
  nodes : List α
  sorted : Sorted key nodes

namespace Tree
variable {key}

def empty : Tree key := ⟨[], List.Pairwise.nil⟩

def find (t : Tree key) (k : κ) : Option α := SortedList.find key k t.nodes

def add (t : Tree key) (x : α) : Tree key :=
  ⟨SortedList.add key x t.nodes, add_sorted key x t.sorted⟩

def delete (t : Tree key) (k : κ) : Tree key :=
  ⟨SortedList.delete key k t.nodes, delete_sorted key k t.sorted⟩

/-- An element is changed in its place. -/
def modify (t : Tree key) (k : κ) (f : α → α) (same : ∀ x, key (f x) = key x) : Tree key :=
  ⟨SortedList.modify key k f t.nodes, modify_sorted key same t.sorted⟩

theorem find_modify (t : Tree key) (k : κ) (f : α → α) (same : ∀ x, key (f x) = key x) (k' : κ) :
    (t.modify k f same).find k' = if k' = k then (t.find k').map f else t.find k' :=
  SortedList.find_modify key same t.nodes k'

theorem find_add (t : Tree key) (x : α) (k : κ) :
    (t.add x).find k = if k = key x then some x else t.find k :=
  SortedList.find_add key x t.sorted k

@[simp] theorem nodes_empty : (empty : Tree key).nodes = [] := rfl

/-- Adding elements, one after the other. -/
def addAll (t : Tree key) (xs : List α) : Tree key := xs.foldl add t

theorem nodes_addAll (t : Tree key) (xs : List α) :
    (t.addAll xs).nodes = xs.foldl (fun l x => SortedList.add key x l) t.nodes := by
  induction xs generalizing t with
  | nil => rfl
  | cons x xs ih => exact ih (t.add x)

/-- Each element takes the place of one with its key. -/
def putAll (t : Tree key) (xs : List α) : Tree key :=
  xs.foldl (fun t x => (t.delete (key x)).add x) t

theorem mem_nodes_add {t : Tree key} {x y : α} : y ∈ (t.add x).nodes ↔ y = x ∨ y ∈ t.nodes := by
  exact mem_add key

theorem mem_of_mem_delete {t : Tree key} {k : κ} {x : α} (h : x ∈ (t.delete k).nodes) :
    x ∈ t.nodes :=
  List.mem_of_mem_eraseP h

theorem mem_nodes_addAll {t : Tree key} {xs : List α} {y : α} :
    y ∈ (t.addAll xs).nodes ↔ y ∈ xs ∨ y ∈ t.nodes := by
  induction xs generalizing t with
  | nil => simp [addAll]
  | cons x xs ih =>
    have : y ∈ (t.addAll (x :: xs)).nodes ↔ y ∈ xs ∨ y ∈ (t.add x).nodes := ih
    rw [this, mem_nodes_add, List.mem_cons]
    tauto

/-- Where no key is there twice, nothing is replaced. -/
theorem putAll_eq_addAll {t : Tree key} {xs : List α} (distinct : (xs.map key).Nodup)
    (free : ∀ x ∈ t.nodes, key x ∉ xs.map key) : t.putAll xs = t.addAll xs := by
  induction xs generalizing t with
  | nil => rfl
  | cons x xs ih =>
    have kept : t.delete (key x) = t := by
      have : SortedList.delete key (key x) t.nodes = t.nodes := by
        apply delete_of_not_mem
        intro y hy same
        exact free y hy (by simp [same])
      cases t
      simp only [Tree.delete, Tree.mk.injEq]
      exact this
    have hx := List.nodup_cons.mp (List.map_cons .. ▸ distinct)
    show ((t.delete (key x)).add x).putAll xs = (t.add x).addAll xs
    rw [kept]
    apply ih hx.2
    intro y hy
    rcases mem_nodes_add.mp hy with rfl | hy
    · exact hx.1
    · have := free y hy
      simp only [List.map_cons, List.mem_cons, not_or] at this
      exact this.2

/-- A sorted list whose keys differ, put into an empty tree. -/
theorem nodes_putAll_empty {l : List α} (sorted : Sorted key l) (distinct : (l.map key).Nodup) :
    ((empty : Tree key).putAll l).nodes = l := by
  rw [putAll_eq_addAll distinct (by simp), nodes_addAll]
  exact foldl_add_of_nodup key sorted distinct

/-- No key is there twice. -/
def Distinct (t : Tree key) : Prop := (t.nodes.map key).Nodup

theorem find_eq_none {t : Tree key} {k : κ} : t.find k = none ↔ k ∉ t.nodes.map key := by
  rw [Tree.find, find_none key t.sorted, List.mem_map]
  simp only [not_exists, not_and]

theorem length_add (t : Tree key) (x : α) : (t.add x).nodes.length = t.nodes.length + 1 :=
  List.orderedInsert_length _ t.nodes x

theorem length_delete {t : Tree key} {x : α} (hx : x ∈ t.nodes) :
    (t.delete (key x)).nodes.length = t.nodes.length - 1 :=
  List.length_eraseP_of_mem hx (by simp)

theorem Distinct.delete {t : Tree key} (h : t.Distinct) (k : κ) : (t.delete k).Distinct :=
  h.sublist (List.eraseP_sublist.map key)

theorem Distinct.mem_delete {t : Tree key} (h : t.Distinct) {k : κ} {x : α} :
    x ∈ (t.delete k).nodes ↔ x ∈ t.nodes ∧ key x ≠ k :=
  mem_delete_of_nodup key h

theorem Distinct.modify {t : Tree key} (h : t.Distinct) (k : κ) (f : α → α)
    (same : ∀ x, key (f x) = key x) : (t.modify k f same).Distinct := by
  show ((SortedList.modify key k f t.nodes).map key).Nodup
  rwa [map_key_modify key same]

theorem Distinct.add {t : Tree key} (h : t.Distinct) {x : α} (free : key x ∉ t.nodes.map key) :
    (t.add x).Distinct := by
  have perm : (t.add x).nodes.Perm (x :: t.nodes) := List.perm_orderedInsert _ x t.nodes
  exact (perm.map key).nodup_iff.mpr (List.nodup_cons.mpr ⟨free, h⟩)

/-- The tree has the bindings of `m`, and no key twice. -/
def Holds (t : Tree key) (m : κ → Option α) : Prop :=
  ∀ k, fibre key k t.nodes = (m k).toList

theorem holds_empty : (empty : Tree key).Holds (fun _ => none) := fun _ => rfl

theorem Holds.find {t : Tree key} {m : κ → Option α} (h : t.Holds m) (k : κ) :
    t.find k = m k := by
  rw [Tree.find, find_eq_head? key t.sorted, h k]
  cases m k <;> rfl

theorem Holds.mem_iff {t : Tree key} {m : κ → Option α} (h : t.Holds m) {k : κ} :
    k ∈ t.nodes.map key ↔ (m k).isSome := by
  have : (∃ x ∈ t.nodes, key x = k) ↔ fibre key k t.nodes ≠ [] := by
    simp [fibre, List.filter_eq_nil_iff]
  rw [List.mem_map, this, h k]
  cases m k <;> simp

theorem Holds.unique {t : Tree key} {m m' : κ → Option α} (h : t.Holds m) (h' : t.Holds m') :
    m = m' := by
  funext k
  rw [← h.find, h'.find]

section
variable [DecidableEq κ]

theorem Holds.delete {t : Tree key} {m : κ → Option α} (h : t.Holds m) (k : κ) :
    (t.delete k).Holds (Function.update m k none) := by
  intro k'
  show fibre key k' (SortedList.delete key k t.nodes) = _
  rw [fibre_delete, h k']
  by_cases hk : k = k'
  · subst hk
    cases m k <;> simp
  · simp [hk, Ne.symm hk]

theorem Holds.add {t : Tree key} {m : κ → Option α} (h : t.Holds m) (x : α)
    (free : m (key x) = none) : (t.add x).Holds (Function.update m (key x) (some x)) := by
  intro k
  show fibre key k (SortedList.add key x t.nodes) = _
  rw [fibre_add key x t.sorted, h k]
  by_cases hk : key x = k
  · subst hk
    simp [free]
  · simp [hk, Ne.symm hk]

/-- Replacing: delete if there, then add. -/
theorem Holds.put {t : Tree key} {m : κ → Option α} (h : t.Holds m) (x : α) :
    ((t.delete (key x)).add x).Holds (Function.update m (key x) (some x)) := by
  simpa using (h.delete (key x)).add x (by simp)

end

end Tree

/-! ## Shapes of a tree -/

def inorder : BinaryTree α → List α
  | .nil => []
  | .node x left right => inorder left ++ x :: inorder right

def postorder : BinaryTree α → List α
  | .nil => []
  | .node x left right => postorder left ++ postorder right ++ [x]

theorem postorder_perm (root : BinaryTree α) : (postorder root).Perm (inorder root) := by
  induction root with
  | nil => exact .nil
  | node x left right hl hr =>
    rw [postorder, inorder, List.append_assoc]
    exact hl.append ((hr.append_right [x]).trans List.perm_append_comm)

/-- `root` is a search tree that holds the nodes. -/
def Tree.ShapedAs {key : α → κ} (t : Tree key) (root : BinaryTree α) : Prop :=
  inorder root = t.nodes

theorem Tree.ShapedAs.mem_postorder {key : α → κ} {t : Tree key} {root : BinaryTree α}
    (h : t.ShapedAs root) {x : α} : x ∈ postorder root ↔ x ∈ t.nodes := by
  rw [← h]
  exact (postorder_perm root).mem_iff

end SortedList
