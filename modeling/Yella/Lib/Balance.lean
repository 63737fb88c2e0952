import Mathlib.Tactic.Ring
import Yella.Lib.RedBlack

/-!
# Balance of red-black trees

What an insertion does to the colours: no path to a leaf has two reds in a row, and all have the
same number of blacks. A tree of these colours is low.
-/

namespace RedBlack.RbTree

variable {α : Type*}

/-- The root has this colour, and each path to a leaf so many blacks. -/
inductive Balanced : Color → ℕ → RbTree α → Prop where
  | leaf : Balanced .black 0 leaf
  | red {n : ℕ} {l r : RbTree α} {x : α} : Balanced .black n l → Balanced .black n r →
      Balanced .red n (node .red l x r)
  | black {c d : Color} {n : ℕ} {l r : RbTree α} {x : α} : Balanced c n l → Balanced d n r →
      Balanced .black (n + 1) (node .black l x r)

/-- The tree that an insertion leaves before its parent has repaired it: a red root may have one
red child. -/
inductive Grown : ℕ → RbTree α → Prop where
  | kept {c : Color} {n : ℕ} {t : RbTree α} : Balanced c n t → Grown n t
  | redLeft {n : ℕ} {l r : RbTree α} {x : α} : Balanced .red n l → Balanced .black n r →
      Grown n (node .red l x r)
  | redRight {n : ℕ} {l r : RbTree α} {x : α} : Balanced .black n l → Balanced .red n r →
      Grown n (node .red l x r)

def mirror : RbTree α → RbTree α
  | leaf => leaf
  | node c l x r => node c r.mirror x l.mirror

variable {t l r : RbTree α} {x : α} {c d : Color} {n : ℕ}

@[simp] theorem mirror_leaf : (leaf : RbTree α).mirror = leaf := rfl

@[simp] theorem mirror_node : (node c l x r).mirror = node c r.mirror x l.mirror := rfl

@[simp] theorem mirror_mirror : t.mirror.mirror = t := by
  induction t with
  | leaf => rfl
  | node c l x r ihl ihr => rw [mirror_node, mirror_node, ihl, ihr]

@[simp] theorem inorder_mirror : t.mirror.inorder = t.inorder.reverse := by
  induction t with
  | leaf => rfl
  | node c l x r ihl ihr => simp [ihl, ihr]

@[simp] theorem isRed_mirror : t.mirror.isRed = t.isRed := by
  cases t with
  | leaf => rfl
  | node c l x r => cases c <;> rfl

@[simp] theorem paint_mirror : t.mirror.paint c = (t.paint c).mirror := by cases t <;> rfl

namespace Balanced

theorem mirror (h : Balanced c n t) : Balanced c n t.mirror := by
  induction h with
  | leaf => exact .leaf
  | red _ _ ihl ihr => exact .red ihr ihl
  | black _ _ ihl ihr => exact .black ihr ihl

theorem isRed_eq (h : Balanced c n t) : t.isRed = decide (c = .red) := by cases h <;> rfl

theorem paint (h : Balanced c n t) : ∃ m, Balanced .black m (t.paint .black) := by
  cases h with
  | leaf => exact ⟨0, .leaf⟩
  | red hl hr => exact ⟨_, .black hl hr⟩
  | black hl hr => exact ⟨_, .black hl hr⟩

end Balanced

theorem Grown.mirror (h : Grown n t) : Grown n t.mirror := by
  cases h with
  | kept h => exact .kept h.mirror
  | redLeft hl hr => exact .redRight hr.mirror hl.mirror
  | redRight hl hr => exact .redLeft hr.mirror hl.mirror

theorem Grown.paint (h : Grown n t) : ∃ m, Balanced .black m (t.paint .black) := by
  cases h with
  | kept h => exact h.paint
  | redLeft hl hr => exact ⟨_, .black hl hr⟩
  | redRight hl hr => exact ⟨_, .black hl hr⟩

/-! ## Insertion -/

/-- The two repairs are mirror images. -/
theorem fixRight_eq_mirror : t.fixRight = t.mirror.fixLeft.mirror := by
  rcases t with _ | ⟨c, l, x, _ | ⟨_ | _, m, y, r⟩⟩
  · rfl
  · simp [fixRight, fixLeft]
  · simp only [mirror_node, fixRight, fixLeft, isRed_mirror]
    by_cases red : l.isRed = true
    · simp only [red, if_true]
      split <;> simp
    · simp only [red]
      by_cases outer : r.isRed = true
      · simp [outer]
      · simp only [outer]
        rcases m with _ | ⟨_ | _, ml, z, mr⟩ <;> simp
  · simp [fixRight, fixLeft]

theorem fixLeft_balanced (hl : Grown n l) (hr : Balanced d n r) :
    ∃ c, Balanced c (n + 1) (node .black l x r).fixLeft := by
  cases hl with
  | kept h =>
    -- Nothing to repair: the left child is black, or red with black children.
    cases h with
    | leaf => exact ⟨_, .black .leaf hr⟩
    | black ha hb => exact ⟨_, .black (.black ha hb) hr⟩
    | @red _ a b y ha hb =>
      refine ⟨.black, ?_⟩
      have plain : (node .black (node .red a y b) x r).fixLeft =
          node .black (node .red a y b) x r := by
        simp only [fixLeft, ha.isRed_eq, hb.isRed_eq]
        cases hb <;> simp
      rw [plain]
      exact .black (.red ha hb) hr
  | redLeft ha hb =>
    simp only [fixLeft, ha.isRed_eq]
    cases hr with
    | red hra hrb => exact ⟨_, .red (.black ha hb) (.black hra hrb)⟩
    | leaf => exact ⟨_, .black ha (.red hb .leaf)⟩
    | black hra hrb => exact ⟨_, .black ha (.red hb (.black hra hrb))⟩
  | redRight ha hb =>
    cases hb with
    | red hma hmb =>
      simp only [fixLeft, ha.isRed_eq]
      cases hr with
      | red hra hrb => exact ⟨_, .red (.black ha (.red hma hmb)) (.black hra hrb)⟩
      | leaf => exact ⟨_, .black (.red ha hma) (.red hmb .leaf)⟩
      | black hra hrb => exact ⟨_, .black (.red ha hma) (.red hmb (.black hra hrb))⟩

theorem fixRight_balanced (hl : Balanced c n l) (hr : Grown n r) :
    ∃ d, Balanced d (n + 1) (node .black l x r).fixRight := by
  rw [fixRight_eq_mirror]
  obtain ⟨d, h⟩ := fixLeft_balanced (x := x) hr.mirror hl.mirror
  exact ⟨d, h.mirror⟩

section
variable {cmp : α → α → ℤ} {lower : α → α → Bool} {e : α}

/-- Below a black root everything is repaired. -/
theorem addRecursive_grown (h : Balanced c n t) :
    Grown n (t.addRecursive cmp lower e) ∧
      (c = .black → ∃ d, Balanced d n (t.addRecursive cmp lower e)) := by
  induction h with
  | leaf => exact ⟨.kept (.red .leaf .leaf), fun _ => ⟨_, .red .leaf .leaf⟩⟩
  | red hl hr ihl ihr =>
    refine ⟨?_, by simp⟩
    rw [addRecursive]
    split
    · obtain ⟨d, hd⟩ := ihl.2 rfl
      cases d with
      | red => exact .redLeft hd hr
      | black => exact .kept (.red hd hr)
    · obtain ⟨d, hd⟩ := ihr.2 rfl
      cases d with
      | red => exact .redRight hl hd
      | black => exact .kept (.red hl hd)
  | black hl hr ihl ihr =>
    rw [addRecursive]
    split
    · obtain ⟨d, hd⟩ := fixLeft_balanced ihl.1 hr
      exact ⟨.kept hd, fun _ => ⟨d, hd⟩⟩
    · obtain ⟨d, hd⟩ := fixRight_balanced hl ihr.1
      exact ⟨.kept hd, fun _ => ⟨d, hd⟩⟩

theorem add_balanced (h : Balanced c n t) : ∃ m, Balanced .black m (t.add cmp lower e) :=
  (addRecursive_grown h).1.paint

end

/-! ## Height -/

def height : RbTree α → ℕ
  | leaf => 0
  | node _ l _ r => max l.height r.height + 1

def size (t : RbTree α) : ℕ := t.inorder.length

/-- There are no more reds on a path than blacks, but for a red root. -/
theorem Balanced.height_le (h : Balanced c n t) :
    t.height ≤ 2 * n + (if c = .red then 1 else 0) := by
  induction h with
  | leaf => exact Nat.le_refl 0
  | red _ _ ihl ihr =>
    simp only [height] at *
    simp at ihl ihr ⊢
    omega
  | @black c d _ _ _ _ _ _ ihl ihr =>
    have hc : (if c = .red then 1 else 0) ≤ 1 := by split <;> omega
    have hd : (if d = .red then 1 else 0) ≤ 1 := by split <;> omega
    simp only [height]
    simp
    omega

theorem Balanced.pow_le_size (h : Balanced c n t) : 2 ^ n ≤ t.size + 1 := by
  unfold size
  induction h with
  | leaf => exact Nat.le_refl 1
  | red _ _ ihl ihr =>
    simp only [inorder_node, List.length_append, List.length_cons]
    omega
  | black _ _ ihl ihr =>
    simp only [inorder_node, List.length_append, List.length_cons, pow_succ]
    omega

/-- The height is logarithmic in the number of elements. -/
theorem Balanced.pow_height_le (h : Balanced .black n t) :
    2 ^ t.height ≤ (t.size + 1) * (t.size + 1) := by
  have low : t.height ≤ 2 * n := by simpa using h.height_le
  calc 2 ^ t.height ≤ 2 ^ (2 * n) := Nat.pow_le_pow_right (by omega) low
    _ = 2 ^ n * 2 ^ n := by rw [two_mul, pow_add]
    _ ≤ (t.size + 1) * (t.size + 1) := Nat.mul_le_mul h.pow_le_size h.pow_le_size

end RedBlack.RbTree
