import Mathlib.Data.List.Basic
import Mathlib.Tactic.TypeStar
import Yella.Lib.Comparator

/-!
# Red-black trees

A search tree with colours, which an insertion repairs on its way back to the root. The
comparator need not be an order; what is said of the order of the elements assumes that it is one.
-/

namespace RedBlack

open Comparator

inductive Color where
  | red
  | black
  deriving DecidableEq, Repr

inductive RbTree (α : Type*) where
  | leaf
  | node (color : Color) (left : RbTree α) (elem : α) (right : RbTree α)
  deriving DecidableEq, Repr

namespace RbTree

variable {α : Type*}

def inorder : RbTree α → List α
  | leaf => []
  | node _ l x r => l.inorder ++ x :: r.inorder

def isRed : RbTree α → Bool
  | node .red _ _ _ => true
  | _ => false

def paint (c : Color) : RbTree α → RbTree α
  | leaf => leaf
  | node _ l x r => node c l x r

/-- The descent of a search. The probe compares what is searched for with an element. -/
def find (probe : α → ℤ) : RbTree α → Option α
  | leaf => none
  | node _ l x r =>
    if probe x < 0 then l.find probe else if probe x > 0 then r.find probe else some x

/-! ## Insertion -/

/-- Two reds in a row below a black node, on its left. -/
def fixLeft : RbTree α → RbTree α
  | node c (node .red l y m) x r =>
    if r.isRed then
      if l.isRed ∨ m.isRed then node .red (node .black l y m) x (r.paint .black)
      else node c (node .red l y m) x r
    else if l.isRed then node .black l y (node .red m x r)
    else
      match m with
      | node .red ml z mr => node .black (node .red l y ml) z (node .red mr x r)
      | m => node c (node .red l y m) x r
  | t => t

def fixRight : RbTree α → RbTree α
  | node c l x (node .red m y r) =>
    if l.isRed then
      if r.isRed ∨ m.isRed then node .red (l.paint .black) x (node .black m y r)
      else node c l x (node .red m y r)
    else if r.isRed then node .black (node .red l x m) y r
    else
      match m with
      | node .red ml z mr => node .black (node .red l x ml) z (node .red mr y r)
      | m => node c l x (node .red m y r)
  | t => t

variable (cmp : α → α → ℤ) (lower : α → α → Bool)

/-- Of elements that compare equal, the one that is `lower` goes first. -/
def addRecursive (elem : α) : RbTree α → RbTree α
  | leaf => node .red leaf elem leaf
  | node c l x r =>
    if cmp elem x < 0 ∨ cmp elem x = 0 ∧ lower elem x then
      if c = .black then fixLeft (node c (l.addRecursive elem) x r)
      else node c (l.addRecursive elem) x r
    else
      if c = .black then fixRight (node c l x (r.addRecursive elem))
      else node c l x (r.addRecursive elem)

def add (elem : α) (t : RbTree α) : RbTree α := (t.addRecursive cmp lower elem).paint .black

variable {cmp lower} {t : RbTree α} {x e : α}

@[simp] theorem inorder_leaf : (leaf : RbTree α).inorder = [] := rfl

@[simp] theorem inorder_node (c : Color) (l r : RbTree α) :
    (node c l x r).inorder = l.inorder ++ x :: r.inorder := rfl

@[simp] theorem inorder_paint (c : Color) : (t.paint c).inorder = t.inorder := by
  cases t <;> rfl

@[simp] theorem inorder_fixLeft : t.fixLeft.inorder = t.inorder := by
  unfold fixLeft
  repeat' split
  all_goals simp

@[simp] theorem inorder_fixRight : t.fixRight.inorder = t.inorder := by
  unfold fixRight
  repeat' split
  all_goals simp

/-- An insertion goes to one side, whatever the colours. -/
theorem inorder_addRecursive_node (c : Color) (l r : RbTree α) :
    ((node c l x r).addRecursive cmp lower e).inorder =
      if cmp e x < 0 ∨ cmp e x = 0 ∧ lower e x then
        (l.addRecursive cmp lower e).inorder ++ x :: r.inorder
      else l.inorder ++ x :: (r.addRecursive cmp lower e).inorder := by
  rw [addRecursive]
  split <;> split <;> simp

@[simp] theorem inorder_add : (t.add cmp lower e).inorder = (t.addRecursive cmp lower e).inorder :=
  inorder_paint .black

theorem perm_inorder_addRecursive : (t.addRecursive cmp lower e).inorder.Perm (e :: t.inorder) := by
  induction t with
  | leaf => exact .refl _
  | node c l x r ihl ihr =>
    rw [inorder_addRecursive_node]
    split
    · exact ihl.append_right _
    · have : (x :: (r.addRecursive cmp lower e).inorder).Perm (e :: x :: r.inorder) :=
        (ihr.cons x).trans (.swap e x _)
      exact (this.append_left _).trans List.perm_middle

theorem mem_addRecursive {y : α} :
    y ∈ (t.addRecursive cmp lower e).inorder ↔ y = e ∨ y ∈ t.inorder := by
  rw [perm_inorder_addRecursive.mem_iff, List.mem_cons]

theorem mem_add {y : α} : y ∈ (t.add cmp lower e).inorder ↔ y = e ∨ y ∈ t.inorder := by
  rw [inorder_add, mem_addRecursive]

/-- An element that is not there yet is put in its place. -/
theorem ordered_addRecursive {s : Set α} (total : StrictTotalOn cmp s)
    (self : ∀ a ∈ s, cmp a a = 0) (he : e ∈ s) (sub : ∀ a ∈ t.inorder, a ∈ s)
    (fresh : e ∉ t.inorder) (ordered : Ordered cmp t.inorder) :
    Ordered cmp (t.addRecursive cmp lower e).inorder := by
  have trans {a b c : α} (ha : a ∈ s) (hb : b ∈ s) (hc : c ∈ s) (first : cmp a b < 0)
      (second : cmp b c < 0) : cmp a c < 0 := by
    apply total.trans a ha b hb c hc ?_ ?_ first second
    · rintro rfl
      exact absurd (self a ha) (by omega)
    · rintro rfl
      exact absurd (self b hb) (by omega)
  induction t with
  | leaf => exact List.pairwise_singleton _ _
  | node c l x r ihl ihr =>
    simp only [inorder_node, List.mem_append, List.mem_cons, not_or] at sub fresh
    obtain ⟨freshl, ne, freshr⟩ := fresh
    obtain ⟨ordl, ordr, xr, lx⟩ := ordered_append_cons.mp ordered
    have hx : x ∈ s := sub x (.inr (.inl rfl))
    have hl (a : α) (ha : a ∈ l.inorder) : a ∈ s := sub a (.inl ha)
    have hr (b : α) (hb : b ∈ r.inorder) : b ∈ s := sub b (.inr (.inr hb))
    rw [inorder_addRecursive_node]
    split
    · rename_i before
      have ex : cmp e x < 0 := by
        have := total.apart e he x hx ne
        omega
      apply ordered_append_cons.mpr
      refine ⟨ihl hl freshl ordl, ordr, xr, fun a ha => ?_⟩
      rcases mem_addRecursive.mp ha with rfl | ha
      · exact ⟨ex, fun b hb => trans he hx (hr b hb) ex (xr b hb)⟩
      · exact lx a ha
    · rename_i behind
      have xe : cmp x e < 0 := by
        have := total.lt_or_gt he hx ne
        omega
      apply ordered_append_cons.mpr
      refine ⟨ordl, ihr hr freshr ordr, fun b hb => ?_, fun a ha => ⟨(lx a ha).1, fun b hb => ?_⟩⟩
      · rcases mem_addRecursive.mp hb with rfl | hb
        · exact xe
        · exact xr b hb
      · rcases mem_addRecursive.mp hb with rfl | hb
        · exact trans (hl a ha) hx he (lx a ha).1 xe
        · exact (lx a ha).2 b hb

theorem ordered_add {s : Set α} (total : StrictTotalOn cmp s) (self : ∀ a ∈ s, cmp a a = 0)
    (he : e ∈ s) (sub : ∀ a ∈ t.inorder, a ∈ s) (fresh : e ∉ t.inorder)
    (ordered : Ordered cmp t.inorder) : Ordered cmp (t.add cmp lower e).inorder := by
  rw [inorder_add]
  exact ordered_addRecursive total self he sub fresh ordered

/-! ## Search -/

theorem find_some {probe : α → ℤ} (found : t.find probe = some x) :
    x ∈ t.inorder ∧ probe x = 0 := by
  induction t with
  | leaf => cases found
  | node c l y r ihl ihr =>
    unfold find at found
    split at found
    · have := ihl found
      exact ⟨by simp [this.1], this.2⟩
    · split at found
      · have := ihr found
        exact ⟨by simp [this.1], this.2⟩
      · cases found
        exact ⟨by simp, by omega⟩

/-- The search misses nothing where, once an element is reached, the later ones are behind it. -/
theorem find_none {probe : α → ℤ}
    (ordered : t.inorder.Pairwise fun a b => probe a ≤ 0 → probe b < 0)
    (missing : t.find probe = none) : ∀ y ∈ t.inorder, probe y ≠ 0 := by
  induction t with
  | leaf => simp
  | node c l x r ihl ihr =>
    obtain ⟨ordl, ordr, cross⟩ := List.pairwise_append.mp ordered
    obtain ⟨xr, ordr⟩ := List.pairwise_cons.mp ordr
    intro y hy
    unfold find at missing
    split at missing
    · rename_i before
      rcases List.mem_append.mp hy with hy | hy
      · exact ihl ordl missing y hy
      · rcases List.mem_cons.mp hy with rfl | hy
        · omega
        · have := xr y hy (by omega)
          omega
    · split at missing
      · rename_i behind
        rcases List.mem_append.mp hy with hy | hy
        · have := cross y hy x List.mem_cons_self
          omega
        · rcases List.mem_cons.mp hy with rfl | hy
          · omega
          · exact ihr ordr missing y hy
      · cases missing

end RbTree

end RedBlack
