import Yella.Sglib.Deletion
import Yella.Text

/-!
# The trees of sglib as maps

The functions that `SGLIB_DEFINE_RBTREE_FUNCTIONS` defines for a type of nodes, and what any
sequence of calls makes of a tree that was empty at first.
-/

namespace Yella.Sglib

open RedBlack RbTree Comparator

variable {α : Type*}

/-! ## The functions -/

section
variable (cmp : α → α → ℤ) (lower : α → α → Bool)

def findMember (t : RbTree α) (elem : α) : Option α := t.find (cmp elem)

/-- The tree, and the member that `memb` points to. -/
def addIfNotMember (t : RbTree α) (elem : α) : RbTree α × Option α :=
  match findMember cmp t elem with
  | none => (t.add cmp lower elem, none)
  | some memb => (t, some memb)

def deleteIfMember [DecidableEq α] (t : RbTree α) (elem : α) : Option (RbTree α × Option α) :=
  match findMember cmp t elem with
  | some memb => (delete cmp lower memb t).map fun u => (u, some memb)
  | none => some (t, none)

/-- `delete_if_member` and then `add`, as `add_or_replace_event_source_specs` does. -/
def replaceMember [DecidableEq α] (t : RbTree α) (elem : α) : Option (RbTree α × Option α) :=
  (deleteIfMember cmp lower t elem).map fun (u, memb) => (u.add cmp lower elem, memb)

def rootElem : RbTree α → Option α
  | leaf => none
  | node _ _ x _ => some x

/-- `pathdeep` is `none` while it is -1. The result is `none` where an assertion fails. -/
def checkRecursive : RbTree α → Option ℕ → ℕ → Option (Option ℕ)
  | leaf, none, cdeep => some (some cdeep)
  | leaf, some pathdeep, cdeep => if pathdeep = cdeep then some (some pathdeep) else none
  | node c l x r, pathdeep, cdeep =>
    if (∀ y ∈ rootElem l, cmp y x ≤ 0) ∧ (∀ y ∈ rootElem r, cmp x y ≤ 0) then
      if c = .red then
        if l.isRed ∨ r.isRed then none
        else (checkRecursive l pathdeep cdeep).bind fun p => checkRecursive r p cdeep
      else (checkRecursive l pathdeep (cdeep + 1)).bind fun p => checkRecursive r p (cdeep + 1)
    else none

/-- Whether all assertions of `sglib___type_consistency_check` hold. -/
def consistencyCheck (t : RbTree α) : Bool := !t.isRed && (checkRecursive cmp t none 0).isSome

end

/-- A call on a tree. -/
inductive TreeOp (α : Type*) where
  | findMember (elem : α)
  | addIfNotMember (elem : α)
  | deleteIfMember (elem : α)
  | replace (elem : α)

section
variable (cmp : α → α → ℤ) (lower : α → α → Bool) [DecidableEq α]

/-- The tree after a call and the member that the call finds. -/
def runOp (t : RbTree α) : TreeOp α → Option (RbTree α × Option α)
  | .findMember elem => some (t, findMember cmp t elem)
  | .addIfNotMember elem => some (addIfNotMember cmp lower t elem)
  | .deleteIfMember elem => deleteIfMember cmp lower t elem
  | .replace elem => replaceMember cmp lower t elem

def runOps (t : RbTree α) : List (TreeOp α) → Option (RbTree α × List (Option α))
  | [] => some (t, [])
  | op :: ops => do
    let (u, memb) ← runOp cmp lower t op
    let (v, membs) ← runOps u ops
    some (v, memb :: membs)

end

/-! ## What the calls are for -/

section
variable {κ : Type*} [LinearOrder κ] (key : α → κ)

def TreeOp.elem : TreeOp α → α
  | .findMember e | .addIfNotMember e | .deleteIfMember e | .replace e => e

/-- What is bound to the key of the element after the call. -/
def TreeOp.bind (found : Option α) : TreeOp α → Option α
  | .findMember _ => found
  | .addIfNotMember e => some (found.getD e)
  | .deleteIfMember _ => none
  | .replace e => some e

/-- The calls on a map from keys to nodes. -/
def mapOps (m : κ → Option α) : List (TreeOp α) → (κ → Option α) × List (Option α)
  | [] => (m, [])
  | op :: ops =>
    let found := m (key op.elem)
    let (m', membs) := mapOps (Function.update m (key op.elem) (op.bind found)) ops
    (m', found :: membs)

end

/-! ## One call -/

section
variable {κ : Type*} [LinearOrder κ] {key : α → κ} {cmp : α → α → ℤ} {lower : α → α → Bool}
  {t u : RbTree α} {x y e : α} {k : κ} {m : κ → Option α}

/-- The tree is a red-black tree that holds what the map binds. -/
structure Holds (key : α → κ) (t : RbTree α) (m : κ → Option α) : Prop where
  balanced : ∃ n, Balanced .black n t
  sorted : SortedBy key t.inorder
  bound : ∀ k x, m k = some x ↔ x ∈ t.inorder ∧ key x = k

theorem holds_leaf : Holds key leaf fun _ => none where
  balanced := ⟨0, .leaf⟩
  sorted := List.Pairwise.nil
  bound := by simp

theorem Holds.find (h : Holds key t m) (compares : Compares cmp key) (e : α) :
    findMember cmp t e = m (key e) := by
  unfold findMember
  cases found : t.find (cmp e) with
  | some x =>
    obtain ⟨mem, zero⟩ := find_some found
    exact ((h.bound _ x).mpr ⟨mem, (compares.eq_zero.mp zero).symm⟩).symm
  | none =>
    have ordered : t.inorder.Pairwise fun a b => cmp e a ≤ 0 → cmp e b < 0 := by
      apply h.sorted.imp
      intro a b less le
      have before : key e ≤ key a := not_lt.mp fun behind => by
        have := (compares.gt e a).mpr behind
        omega
      exact (compares.lt e b).mpr (before.trans_lt less)
    cases bound : m (key e) with
    | none => rfl
    | some x =>
      obtain ⟨mem, same⟩ := (h.bound _ x).mp bound
      exact absurd (compares.eq_zero.mpr same.symm) (find_none ordered found x mem)

theorem sortedBy_addRecursive (compares : Compares cmp key) (fresh : ∀ y ∈ t.inorder, key y ≠ key e)
    (sorted : SortedBy key t.inorder) : SortedBy key (t.addRecursive cmp lower e).inorder := by
  induction t with
  | leaf => exact List.pairwise_singleton _ _
  | node c l x r ihl ihr =>
    obtain ⟨hl, hr, below, above⟩ := sortedBy_append_cons.mp sorted
    have freshl (y : α) (hy : y ∈ l.inorder) : key y ≠ key e := fresh y (by simp [hy])
    have freshr (y : α) (hy : y ∈ r.inorder) : key y ≠ key e := fresh y (by simp [hy])
    have ne : key x ≠ key e := fresh x (by simp)
    rw [inorder_addRecursive_node]
    split
    · rename_i before
      have less : key e < key x := by
        rcases before with before | ⟨zero, -⟩
        · exact (compares.lt e x).mp before
        · exact absurd (compares.eq_zero.mp zero).symm ne
      refine sortedBy_append_cons.mpr ⟨ihl freshl hl, hr, fun y hy => ?_, above⟩
      rcases mem_addRecursive.mp hy with rfl | hy
      · exact less
      · exact below y hy
    · rename_i behind
      have more : key x < key e := by
        apply lt_of_le_of_ne (not_lt.mp fun less => behind (.inl ((compares.lt e x).mpr less))) ne
      refine sortedBy_append_cons.mpr ⟨hl, ihr freshr hr, below, fun y hy => ?_⟩
      rcases mem_addRecursive.mp hy with rfl | hy
      · exact more
      · exact above y hy

theorem Holds.add (h : Holds key t m) (compares : Compares cmp key) (absent : m (key e) = none) :
    Holds key (t.add cmp lower e) (Function.update m (key e) (some e)) where
  balanced := by
    obtain ⟨n, balanced⟩ := h.balanced
    exact add_balanced balanced
  sorted := by
    rw [inorder_add]
    apply sortedBy_addRecursive compares ?_ h.sorted
    intro y hy same
    have := (h.bound _ y).mpr ⟨hy, same⟩
    rw [absent] at this
    cases this
  bound := by
    intro k x
    rw [mem_add, Function.update_apply]
    split
    · rename_i here
      subst here
      constructor
      · rintro ⟨⟩
        exact ⟨.inl rfl, rfl⟩
      · rintro ⟨rfl | mem, same⟩
        · rfl
        · rw [(h.bound _ x).mpr ⟨mem, same⟩] at absent
          cases absent
    · rename_i other
      rw [h.bound k x]
      constructor
      · exact fun ⟨mem, same⟩ => ⟨.inr mem, same⟩
      · rintro ⟨rfl | mem, same⟩
        · exact absurd same.symm other
        · exact ⟨mem, same⟩

theorem mem_without {l : List α} : y ∈ without key k l ↔ y ∈ l ∧ key y ≠ k := by
  simp [without]

variable [DecidableEq α]

theorem Holds.delete (h : Holds key t m) (compares : Compares cmp key)
    (self : ∀ a, lower a a = false) (there : e ∈ t.inorder) :
    ∃ u, delete cmp lower e t = some u ∧ Holds key u (Function.update m (key e) none) := by
  obtain ⟨n, balanced⟩ := h.balanced
  obtain ⟨u, n', eq, balanced', inorder⟩ :=
    delete_spec compares (self e) balanced h.sorted there
  refine ⟨u, eq, ⟨n', balanced'⟩, ?_, ?_⟩
  · rw [inorder]
    exact h.sorted.filter _
  · intro k x
    rw [inorder, mem_without, Function.update_apply]
    split
    · rename_i here
      subst here
      simp
    · rename_i other
      rw [h.bound k x]
      constructor
      · rintro ⟨mem, rfl⟩
        exact ⟨⟨mem, other⟩, rfl⟩
      · exact fun ⟨⟨mem, _⟩, same⟩ => ⟨mem, same⟩

theorem Holds.deleteIfMember (h : Holds key t m) (compares : Compares cmp key)
    (self : ∀ a, lower a a = false) (e : α) :
    ∃ u, deleteIfMember cmp lower t e = some (u, m (key e)) ∧
      Holds key u (Function.update m (key e) none) := by
  unfold Sglib.deleteIfMember
  rw [h.find compares e]
  cases bound : m (key e) with
  | none =>
    refine ⟨t, rfl, ?_⟩
    rwa [← bound, Function.update_eq_self]
  | some x =>
    obtain ⟨mem, same⟩ := (h.bound _ x).mp bound
    obtain ⟨u, eq, held⟩ := h.delete compares self mem
    rw [same] at held
    exact ⟨u, by simp [eq], held⟩

/-- Each call does to the tree what it does to the map, and no assertion fails. -/
theorem Holds.runOp (h : Holds key t m) (compares : Compares cmp key)
    (self : ∀ a, lower a a = false) (op : TreeOp α) :
    ∃ u, runOp cmp lower t op = some (u, m (key op.elem)) ∧
      Holds key u (Function.update m (key op.elem) (op.bind (m (key op.elem)))) := by
  cases op with
  | findMember e =>
    refine ⟨t, by simp only [Sglib.runOp, h.find compares e, TreeOp.elem], ?_⟩
    rwa [TreeOp.bind, Function.update_eq_self]
  | addIfNotMember e =>
    simp only [Sglib.runOp, addIfNotMember, h.find compares e, TreeOp.elem, TreeOp.bind]
    cases bound : m (key e) with
    | none => exact ⟨_, rfl, h.add compares bound⟩
    | some x =>
      refine ⟨t, rfl, ?_⟩
      rwa [Option.getD_some, ← bound, Function.update_eq_self]
  | deleteIfMember e => exact h.deleteIfMember compares self e
  | replace e =>
    obtain ⟨u, eq, held⟩ := h.deleteIfMember compares self e
    have added : Holds key (u.add cmp lower e) (Function.update (Function.update m (key e) none)
        (key e) (some e)) := held.add compares (Function.update_self _ _ _)
    rw [Function.update_idem] at added
    exact ⟨_, by simp only [Sglib.runOp, replaceMember, eq]; rfl, added⟩

end

/-! ## Any sequence of calls -/

section
variable {κ : Type*} [LinearOrder κ] {key : α → κ} {cmp : α → α → ℤ} {lower : α → α → Bool}
  {t : RbTree α} {m : κ → Option α}

theorem mem_of_rootElem {y : α} (h : y ∈ rootElem t) : y ∈ t.inorder := by
  cases t with
  | leaf => cases h
  | node c l x r =>
    cases h
    simp

theorem balanced_check {c : Color} {n : ℕ} (h : Balanced c n t) (compares : Compares cmp key)
    (sorted : SortedBy key t.inorder) (p : Option ℕ) (d : ℕ) (hp : ∀ q ∈ p, q = d + n) :
    checkRecursive cmp t p d = some (some (d + n)) := by
  have children {l r : RbTree α} {x : α} (below : ∀ a ∈ l.inorder, key a < key x)
      (above : ∀ b ∈ r.inorder, key x < key b) :
      (∀ y ∈ rootElem l, cmp y x ≤ 0) ∧ ∀ y ∈ rootElem r, cmp x y ≤ 0 :=
    ⟨fun y hy => ((compares.lt y x).mpr (below y (mem_of_rootElem hy))).le,
      fun y hy => ((compares.lt x y).mpr (above y (mem_of_rootElem hy))).le⟩
  induction h generalizing p d with
  | leaf =>
    cases p with
    | none => rfl
    | some q =>
      obtain rfl := hp q rfl
      simp [checkRecursive]
  | red hl hr ihl ihr =>
    obtain ⟨sl, sr, below, above⟩ := sortedBy_append_cons.mp sorted
    rw [checkRecursive, if_pos (children below above), if_pos rfl, hl.isRed_eq, hr.isRed_eq,
      ihl sl p d hp]
    simpa using ihr sr (some (d + _)) d (by simp)
  | @black _ _ n _ _ _ hl hr ihl ihr =>
    obtain ⟨sl, sr, below, above⟩ := sortedBy_append_cons.mp sorted
    have shift : d + 1 + n = d + (n + 1) := by omega
    rw [checkRecursive, if_pos (children below above), if_neg (by simp),
      ihl sl p (d + 1) (by rwa [shift]), Option.bind_some,
      ihr sr (some (d + 1 + n)) (d + 1) (by simp), shift]

theorem Holds.check (h : Holds key t m) (compares : Compares cmp key) :
    consistencyCheck cmp t = true := by
  obtain ⟨n, balanced⟩ := h.balanced
  have checked := balanced_check balanced compares h.sorted none 0 (by simp)
  simp [consistencyCheck, checked, balanced.isRed_eq]

theorem Holds.runOps [DecidableEq α] (h : Holds key t m) (compares : Compares cmp key)
    (self : ∀ a, lower a a = false) (ops : List (TreeOp α)) :
    ∃ u, runOps cmp lower t ops = some (u, (mapOps key m ops).2) ∧
      Holds key u (mapOps key m ops).1 := by
  induction ops generalizing t m with
  | nil => exact ⟨t, rfl, h⟩
  | cons op ops ih =>
    obtain ⟨u, first, held⟩ := h.runOp compares self op
    obtain ⟨v, rest, left⟩ := ih held
    exact ⟨v, by simp [Sglib.runOps, first, rest, mapOps], left⟩

/-- **The trees are maps.** Whichever of these is called on a tree that was empty, no assertion of
sglib fails, each call finds what a map would hold, and the tree passes its own check. -/
theorem runs_like_map [DecidableEq α] (compares : Compares cmp key) (self : ∀ a, lower a a = false)
    (ops : List (TreeOp α)) :
    ∃ t, runOps cmp lower leaf ops = some (t, (mapOps key (fun _ => none) ops).2) ∧
      (∀ e, findMember cmp t e = (mapOps key (fun _ => none) ops).1 (key e)) ∧
      SortedBy key t.inorder ∧ consistencyCheck cmp t = true := by
  obtain ⟨t, eq, held⟩ := holds_leaf.runOps compares self ops
  exact ⟨t, eq, held.find compares, held.sorted, held.check compares⟩

/-- Names as the trees of the agent compare them: no unit of a string is 0. -/
abbrev Name := {s : UStr // 0 ∉ s}

/-- `YELLA_KEY_COMPARE` and the comparators like it -/
def nameCompare (x y : Name) : ℤ := uStrcmp x y

theorem uStrcmp_swap (s t : UStr) : uStrcmp t s = -uStrcmp s t := by
  induction s generalizing t with
  | nil => cases t <;> simp [uStrcmp]
  | cons c s ih =>
    cases t with
    | nil => simp [uStrcmp]
    | cons d t =>
      simp only [uStrcmp]
      by_cases same : c = d
      · rw [if_pos same, if_pos same.symm, ih]
      · rw [if_neg same, if_neg (Ne.symm same)]
        omega

theorem nameCompare_compares : Compares nameCompare (Subtype.val : Name → UStr) where
  lt x y := uStrcmp_neg_iff y.2
  gt x y := by
    have swap : nameCompare x y = -nameCompare y x := uStrcmp_swap y.1 x.1
    have lt : nameCompare y x < 0 ↔ y.1 < x.1 := uStrcmp_neg_iff x.2
    rw [← lt, swap]
    omega

/-- Calls that leave the nodes `a`, `c`, `d` and `e`. -/
def someOps : List (TreeOp Name) :=
  [.addIfNotMember ⟨[98], by decide⟩, .addIfNotMember ⟨[97], by decide⟩,
    .addIfNotMember ⟨[99], by decide⟩, .addIfNotMember ⟨[101], by decide⟩,
    .addIfNotMember ⟨[100], by decide⟩, .deleteIfMember ⟨[98], by decide⟩,
    .replace ⟨[97], by decide⟩, .findMember ⟨[98], by decide⟩]

theorem runs_like_map_names :
    (∃ t, runOps nameCompare (fun _ _ => false) leaf someOps =
        some (t, (mapOps Subtype.val (fun _ => none) someOps).2) ∧
      (∀ e, findMember nameCompare t e =
        (mapOps Subtype.val (fun _ => none) someOps).1 e.1) ∧
      SortedBy Subtype.val t.inorder ∧ consistencyCheck nameCompare t = true) ∧
    (mapOps Subtype.val (fun _ => none) someOps).2 =
      [none, none, none, none, none, some ⟨[98], by decide⟩, some ⟨[97], by decide⟩, none] :=
  ⟨runs_like_map nameCompare_compares (fun _ => rfl) someOps, by decide⟩

end

end Yella.Sglib
