import Yella.Lib.Balance

/-!
# Deletion from the trees of sglib

The macros of `sglib.h` that take a node out of a red-black tree. A result of `none` is an
assertion that fails. With a tree comes whether it has fewer blacks on its paths than before
(`deepDecreased`).
-/

namespace Yella.Sglib

open RedBlack RbTree

variable {α : Type*}

/-- `SGLIB___RBTREE_FIX_DELETION_DISCREPANCY` with `leftt` on the left: the right subtree has
lost a black. -/
def fixRightDeletion : RbTree α → Option (RbTree α × Bool)
  | leaf => none
  | node ca leaf a ar => if ca = .red then some (node .black leaf a ar, false) else none
  | node ca (node .red bl b br) a ar =>
    match br with
    | leaf => some (node .black bl b (node ca leaf a ar), false)
    | node .red _ _ _ => none
    | node .black cl c cr =>
      if !cl.isRed && !cr.isRed then
        some (node .black bl b (node ca (node .red cl c cr) a ar), false)
      else
        match cr with
        | node .red dl d dr =>
          some (node .black (node .red bl b (node .black cl c dl)) d (node ca dr a ar), false)
        | cr => some (node .black (node .red bl b (cl.paint .black)) c (node ca cr a ar), false)
  | node ca (node .black bl b br) a ar =>
    match br with
    | node .red cl c cr => some (node ca (node .black bl b cl) c (node .black cr a ar), false)
    | br =>
      if bl.isRed then some (node ca (bl.paint .black) b (node .black br a ar), false)
      else some (node .black (node .red bl b br) a ar, decide (ca = .black))

/-- The macro with `left` and `right` exchanged. -/
def fixLeftDeletion (t : RbTree α) : Option (RbTree α × Bool) :=
  (fixRightDeletion t.mirror).map fun (u, decreased) => (u.mirror, decreased)

def isBlackNode : RbTree α → Bool
  | node .black _ _ _ => true
  | _ => false

/-- The tree without its rightmost node, and that node. -/
def deleteRightmostLeaf : RbTree α → Option (RbTree α × α × Bool)
  | leaf => none
  | node c l x leaf =>
    match l with
    | leaf => some (leaf, x, decide (c = .black))
    | l => some (l.paint .black, x, decide (c = .black) && isBlackNode l)
  | node c l x r => do
    let (r', theLeaf, deepDecreased) ← deleteRightmostLeaf r
    if deepDecreased then
      let (t, res) ← fixRightDeletion (node c l x r')
      some (t, theLeaf, res)
    else some (node c l x r', theLeaf, false)

/-- The branch of the recursion that has found the node, of this colour and with these subtrees. -/
def deleteHere (c : Color) (r : RbTree α) : RbTree α → Option (RbTree α × Bool)
  | leaf =>
    match r with
    | leaf => some (leaf, decide (c = .black))
    | r => some (r.paint .black, decide (c = .black) && isBlackNode r)
  | l => do
    let (l', theLeaf, deepDecreased) ← deleteRightmostLeaf l
    if deepDecreased then fixLeftDeletion (node c l' theLeaf r)
    else some (node c l' theLeaf r, false)

section
variable (cmp : α → α → ℤ) (lower : α → α → Bool) [DecidableEq α]

/-- The pointers tell the nodes apart that compare equal. -/
def deleteRecursive (elem : α) : RbTree α → Option (RbTree α × Bool)
  | leaf => none
  | node c l x r =>
    if cmp elem x < 0 ∨ cmp elem x = 0 ∧ lower elem x then do
      let (l', deepDecreased) ← deleteRecursive elem l
      if deepDecreased then fixLeftDeletion (node c l' x r) else some (node c l' x r, false)
    else if 0 < cmp elem x ∨ cmp elem x = 0 ∧ lower x elem then do
      let (r', deepDecreased) ← deleteRecursive elem r
      if deepDecreased then fixRightDeletion (node c l x r') else some (node c l x r', false)
    else if elem ≠ x then none
    else deleteHere c r l

/-- `sglib_type_delete` -/
def delete (elem : α) (t : RbTree α) : Option (RbTree α) :=
  (deleteRecursive cmp lower elem t).map fun (u, _) => u.paint .black

end

/-! ## What is left -/

section
variable {c d : Color} {n : ℕ} {t u l r : RbTree α} {x y : α} {p : RbTree α × Bool}
  {decreased : Bool}

theorem inorder_fixRightDeletion (h : fixRightDeletion t = some (u, decreased)) :
    u.inorder = t.inorder := by
  unfold fixRightDeletion at h
  repeat' split at h
  all_goals cases h
  all_goals simp

theorem inorder_fixLeftDeletion (h : fixLeftDeletion t = some (u, decreased)) :
    u.inorder = t.inorder := by
  obtain ⟨⟨v, b⟩, fixed, eq⟩ := Option.map_eq_some_iff.mp h
  obtain ⟨rfl, rfl⟩ := Prod.mk.inj eq
  rw [inorder_mirror, inorder_fixRightDeletion fixed, inorder_mirror, List.reverse_reverse]

/-- A deletion from a tree of this colour and so many blacks. A path loses one at most, and only
under a black root. -/
inductive Shrunk : Color → ℕ → RbTree α × Bool → Prop where
  | kept {c d : Color} {n : ℕ} {u : RbTree α} : Balanced d n u → (c = .black → d = .black) →
      Shrunk c n (u, false)
  | decreased {n : ℕ} {u : RbTree α} : Balanced .black n u → Shrunk .black (n + 1) (u, true)

theorem Shrunk.mirror (h : Shrunk c n p) : Shrunk c n (p.1.mirror, p.2) := by
  cases h with
  | kept h same => exact .kept h.mirror same
  | decreased h => exact .decreased h.mirror

theorem Shrunk.paint (h : Shrunk c n p) : ∃ m, Balanced .black m (p.1.paint .black) := by
  cases h with
  | kept h _ => exact h.paint
  | decreased h => exact h.paint

/-- A red root over a subtree that has lost a black. -/
theorem fixRightDeletion_red (hl : Balanced .black (n + 1) l) (hr : Balanced .black n r) :
    ∃ p, fixRightDeletion (node .red l x r) = some p ∧ Shrunk .red (n + 1) p := by
  cases hl with
  | @black cl cm _ bl br b hbl hbr =>
    cases hbr with
    | red hc hd => exact ⟨_, rfl, .kept (.red (.black hbl hc) (.black hd hr)) (by simp)⟩
    | leaf =>
      cases hbl with
      | leaf => exact ⟨_, rfl, .kept (.black (.red .leaf .leaf) hr) (by simp)⟩
      | red ha hb => exact ⟨_, rfl, .kept (.red (.black ha hb) (.black .leaf hr)) (by simp)⟩
    | black hc hd =>
      cases hbl with
      | black ha hb =>
        exact ⟨_, rfl, .kept (.black (.red (.black ha hb) (.black hc hd)) hr) (by simp)⟩
      | red ha hb =>
        exact ⟨_, rfl, .kept (.red (.black ha hb) (.black (.black hc hd) hr)) (by simp)⟩

/-- A black root whose other child is red. Its grandchildren are black. -/
theorem fixRightDeletion_redChild (hl : Balanced .red (n + 1) l) (hr : Balanced .black n r) :
    ∃ p, fixRightDeletion (node .black l x r) = some p ∧ Shrunk .black (n + 2) p := by
  cases hl with
  | @red _ bl br b hbl hbr =>
    cases hbr with
    | @black ccl ccr _ cl cr c hcl hcr =>
      cases hcr with
      | @red _ dl dr y hd he =>
        have fixed : fixRightDeletion
            (node .black (node .red bl b (node .black cl c (node .red dl y dr))) x r) =
            some (node .black (node .red bl b (node .black cl c dl)) y (node .black dr x r),
              false) := by
          simp [fixRightDeletion, isRed]
        exact ⟨_, fixed, .kept (.black (.red hbl (.black hcl hd)) (.black he hr)) id⟩
      | leaf =>
        cases hcl with
        | leaf => exact ⟨_, rfl, .kept (.black hbl (.black (.red .leaf .leaf) hr)) id⟩
        | red hd he =>
          exact ⟨_, rfl, .kept (.black (.red hbl (.black hd he)) (.black .leaf hr)) id⟩
      | black hd he =>
        cases hcl with
        | black hf hg =>
          exact ⟨_, rfl, .kept (.black hbl (.black (.red (.black hf hg) (.black hd he)) hr)) id⟩
        | red hf hg =>
          exact ⟨_, rfl, .kept (.black (.red hbl (.black hf hg)) (.black (.black hd he) hr)) id⟩

theorem fixRightDeletion_black (hl : Balanced c (n + 1) l) (hr : Balanced .black n r) :
    ∃ p, fixRightDeletion (node .black l x r) = some p ∧ Shrunk .black (n + 2) p := by
  cases c with
  | red => exact fixRightDeletion_redChild hl hr
  | black =>
    cases hl with
    | @black cl cm _ bl br b hbl hbr =>
      cases hbr with
      | red hc hd => exact ⟨_, rfl, .kept (.black (.black hbl hc) (.black hd hr)) id⟩
      | leaf =>
        cases hbl with
        | leaf => exact ⟨_, rfl, .decreased (.black (.red .leaf .leaf) hr)⟩
        | red ha hb => exact ⟨_, rfl, .kept (.black (.black ha hb) (.black .leaf hr)) id⟩
      | black hc hd =>
        cases hbl with
        | black ha hb =>
          exact ⟨_, rfl, .decreased (.black (.red (.black ha hb) (.black hc hd)) hr)⟩
        | red ha hb =>
          exact ⟨_, rfl, .kept (.black (.black ha hb) (.black (.black hc hd) hr)) id⟩

theorem fixLeftDeletion_red (hl : Balanced .black n l) (hr : Balanced .black (n + 1) r) :
    ∃ p, fixLeftDeletion (node .red l x r) = some p ∧ Shrunk .red (n + 1) p := by
  obtain ⟨p, fixed, shrunk⟩ := fixRightDeletion_red (x := x) hr.mirror hl.mirror
  exact ⟨(p.1.mirror, p.2), by simp [fixLeftDeletion, fixed], shrunk.mirror⟩

theorem fixLeftDeletion_black (hl : Balanced .black n l) (hr : Balanced d (n + 1) r) :
    ∃ p, fixLeftDeletion (node .black l x r) = some p ∧ Shrunk .black (n + 2) p := by
  obtain ⟨p, fixed, shrunk⟩ := fixRightDeletion_black (x := x) hr.mirror hl.mirror
  exact ⟨(p.1.mirror, p.2), by simp [fixLeftDeletion, fixed], shrunk.mirror⟩

/-- What the parent does when its right subtree has been shrunk. -/
theorem repairRight_red (hl : Balanced .black n l) (hp : Shrunk .black n p) :
    ∃ q, (if p.2 then fixRightDeletion (node .red l x p.1) else some (node .red l x p.1, false)) =
        some q ∧ Shrunk .red n q ∧ q.1.inorder = l.inorder ++ x :: p.1.inorder := by
  cases hp with
  | kept hu same =>
    cases same rfl
    exact ⟨_, rfl, .kept (.red hl hu) (by simp), rfl⟩
  | decreased hu =>
    obtain ⟨q, fixed, shrunk⟩ := fixRightDeletion_red (x := x) hl hu
    exact ⟨q, fixed, shrunk, inorder_fixRightDeletion fixed⟩

theorem repairRight_black (hl : Balanced d n l) (hp : Shrunk c n p) :
    ∃ q, (if p.2 then fixRightDeletion (node .black l x p.1)
        else some (node .black l x p.1, false)) = some q ∧
      Shrunk .black (n + 1) q ∧ q.1.inorder = l.inorder ++ x :: p.1.inorder := by
  cases hp with
  | kept hu _ => exact ⟨_, rfl, .kept (.black hl hu) id, rfl⟩
  | decreased hu =>
    obtain ⟨q, fixed, shrunk⟩ := fixRightDeletion_black (x := x) hl hu
    exact ⟨q, fixed, shrunk, inorder_fixRightDeletion fixed⟩

theorem repairLeft_red (hp : Shrunk .black n p) (hr : Balanced .black n r) :
    ∃ q, (if p.2 then fixLeftDeletion (node .red p.1 x r) else some (node .red p.1 x r, false)) =
        some q ∧ Shrunk .red n q ∧ q.1.inorder = p.1.inorder ++ x :: r.inorder := by
  cases hp with
  | kept hu same =>
    cases same rfl
    exact ⟨_, rfl, .kept (.red hu hr) (by simp), rfl⟩
  | decreased hu =>
    obtain ⟨q, fixed, shrunk⟩ := fixLeftDeletion_red (x := x) hu hr
    exact ⟨q, fixed, shrunk, inorder_fixLeftDeletion fixed⟩

theorem repairLeft_black (hp : Shrunk c n p) (hr : Balanced d n r) :
    ∃ q, (if p.2 then fixLeftDeletion (node .black p.1 x r)
        else some (node .black p.1 x r, false)) = some q ∧
      Shrunk .black (n + 1) q ∧ q.1.inorder = p.1.inorder ++ x :: r.inorder := by
  cases hp with
  | kept hu _ => exact ⟨_, rfl, .kept (.black hu hr) id, rfl⟩
  | decreased hu =>
    obtain ⟨q, fixed, shrunk⟩ := fixLeftDeletion_black (x := x) hu hr
    exact ⟨q, fixed, shrunk, inorder_fixLeftDeletion fixed⟩

theorem deleteRightmostLeaf_node (inner : r ≠ leaf) :
    deleteRightmostLeaf (node c l x r) = (deleteRightmostLeaf r).bind fun p =>
      (if p.2.2 then fixRightDeletion (node c l x p.1) else some (node c l x p.1, false)).map
        fun q => (q.1, p.2.1, q.2) := by
  cases r with
  | leaf => exact absurd rfl inner
  | node cr rl y rr =>
    rw [deleteRightmostLeaf]
    · apply bind_congr
      rintro ⟨u, z, decreased⟩
      cases decreased
      · rfl
      · cases fixed : fixRightDeletion (node c l x u) <;> simp [fixed]
    · simp

theorem deleteRightmostLeaf_shrunk (h : Balanced c n t) (inner : t ≠ leaf) :
    ∃ u y decreased, deleteRightmostLeaf t = some (u, y, decreased) ∧
      Shrunk c n (u, decreased) ∧ t.inorder = u.inorder ++ [y] := by
  induction h with
  | leaf => exact absurd rfl inner
  | @red n l r x hl hr _ ih =>
    by_cases bottom : r = leaf
    · subst bottom
      cases hr
      cases hl
      exact ⟨leaf, x, false, rfl, .kept .leaf (by simp), rfl⟩
    · obtain ⟨u, y, decreased, eq, shrunk, inorder⟩ := ih bottom
      obtain ⟨q, fixed, res, left⟩ := repairRight_red (x := x) hl shrunk
      refine ⟨q.1, y, q.2, ?_, res, by simp [left, inorder]⟩
      rw [deleteRightmostLeaf_node bottom, eq, Option.bind_some, fixed]
      rfl
  | @black cl cr n l r x hl hr _ ih =>
    by_cases bottom : r = leaf
    · subst bottom
      cases hr
      cases hl with
      | leaf => exact ⟨leaf, x, true, rfl, .decreased .leaf, rfl⟩
      | red ha hb => exact ⟨_, x, false, rfl, .kept (.black ha hb) id, by simp [RbTree.paint]⟩
    · obtain ⟨u, y, decreased, eq, shrunk, inorder⟩ := ih bottom
      obtain ⟨q, fixed, res, left⟩ := repairRight_black (x := x) hl shrunk
      refine ⟨q.1, y, q.2, ?_, res, by simp [left, inorder]⟩
      rw [deleteRightmostLeaf_node bottom, eq, Option.bind_some, fixed]
      rfl

end

/-! ## The node with a key -/

section
variable {κ : Type*} [LinearOrder κ] {key : α → κ}

/-- The elements in the order of their keys, each key once. -/
def SortedBy (key : α → κ) (l : List α) : Prop := l.Pairwise fun a b => key a < key b

theorem sortedBy_append_cons {l r : List α} {x : α} :
    SortedBy key (l ++ x :: r) ↔ SortedBy key l ∧ SortedBy key r ∧
      (∀ a ∈ l, key a < key x) ∧ ∀ b ∈ r, key x < key b := by
  simp only [SortedBy, List.pairwise_append, List.pairwise_cons, List.mem_cons, forall_eq_or_imp]
  constructor
  · rintro ⟨hl, ⟨hx, hr⟩, cross⟩
    exact ⟨hl, hr, fun a ha => (cross a ha).1, hx⟩
  · rintro ⟨hl, hr, left, right⟩
    exact ⟨hl, ⟨right, hr⟩, fun a ha => ⟨left a ha, fun b hb => (left a ha).trans (right b hb)⟩⟩

/-- Without the element of this key. -/
def without (key : α → κ) (k : κ) (l : List α) : List α := l.filter fun y => key y ≠ k

theorem without_eq_self {l : List α} {k : κ} (absent : ∀ y ∈ l, key y ≠ k) :
    without key k l = l := by
  apply List.filter_eq_self.mpr
  intro y hy
  exact decide_eq_true (absent y hy)

theorem without_append_cons {l r : List α} {x : α} {k : κ} :
    without key k (l ++ x :: r) =
      without key k l ++ if key x = k then without key k r else x :: without key k r := by
  unfold without
  rw [List.filter_append, List.filter_cons]
  by_cases same : key x = k <;> simp [same]

variable [DecidableEq α] {cmp : α → α → ℤ} {lower : α → α → Bool} {c d : Color} {n : ℕ}
  {t l r : RbTree α} {x e : α}

theorem deleteRecursive_before (compares : Comparator.Compares cmp key) (less : key e < key x) :
    deleteRecursive cmp lower e (node c l x r) = (deleteRecursive cmp lower e l).bind fun p =>
      if p.2 then fixLeftDeletion (node c p.1 x r) else some (node c p.1 x r, false) := by
  have before := (compares.lt e x).mpr less
  rw [deleteRecursive, if_pos (.inl before)]
  rfl

theorem deleteRecursive_behind (compares : Comparator.Compares cmp key) (more : key x < key e) :
    deleteRecursive cmp lower e (node c l x r) = (deleteRecursive cmp lower e r).bind fun p =>
      if p.2 then fixRightDeletion (node c l x p.1) else some (node c l x p.1, false) := by
  have behind := (compares.gt e x).mpr more
  rw [deleteRecursive, if_neg (by omega), if_pos (.inl behind)]
  rfl

/-- The node itself is cut out where it has no left child, and otherwise the rightmost node on its
left takes its place. -/
theorem deleteHere_shrunk (h : Balanced c n (node c l x r)) :
    ∃ p, deleteHere c r l = some p ∧ Shrunk c n p ∧ p.1.inorder = l.inorder ++ r.inorder := by
  by_cases bottom : l = leaf
  · subst bottom
    cases h with
    | red hl hr =>
      cases hl
      cases hr
      exact ⟨_, rfl, .kept .leaf (by simp), rfl⟩
    | black hl hr =>
      cases hl
      cases hr with
      | leaf => exact ⟨_, rfl, .decreased .leaf, rfl⟩
      | red ha hb => exact ⟨_, rfl, .kept (.black ha hb) id, rfl⟩
  · have eq : deleteHere c r l = (deleteRightmostLeaf l).bind fun p =>
        if p.2.2 then fixLeftDeletion (node c p.1 p.2.1 r)
        else some (node c p.1 p.2.1 r, false) := by
      cases l with
      | leaf => exact absurd rfl bottom
      | node => rfl
    rw [eq]
    cases h with
    | red hl hr =>
      obtain ⟨u, y, decreased, cut, shrunk, inorder⟩ := deleteRightmostLeaf_shrunk hl bottom
      obtain ⟨q, fixed, res, left⟩ := repairLeft_red (x := y) shrunk hr
      exact ⟨q, by rw [cut]; exact fixed, res, by simp [left, inorder]⟩
    | black hl hr =>
      obtain ⟨u, y, decreased, cut, shrunk, inorder⟩ := deleteRightmostLeaf_shrunk hl bottom
      obtain ⟨q, fixed, res, left⟩ := repairLeft_black (x := y) shrunk hr
      exact ⟨q, by rw [cut]; exact fixed, res, by simp [left, inorder]⟩

theorem deleteRecursive_here (compares : Comparator.Compares cmp key) (self : lower x x = false) :
    deleteRecursive cmp lower x (node c l x r) = deleteHere c r l := by
  have same : cmp x x = 0 := compares.eq_zero.mpr rfl
  rw [deleteRecursive]
  simp [same, self]

/-- No assertion fails for an element that is there. -/
theorem deleteRecursive_shrunk (compares : Comparator.Compares cmp key)
    (self : lower e e = false) (h : Balanced c n t) (sorted : SortedBy key t.inorder)
    (there : e ∈ t.inorder) :
    ∃ p, deleteRecursive cmp lower e t = some p ∧ Shrunk c n p ∧
      p.1.inorder = without key (key e) t.inorder := by
  have main (c : Color) (n : ℕ) (l r : RbTree α) (x : α)
      (h : Balanced c n (node c l x r)) (sorted : SortedBy key (l.inorder ++ x :: r.inorder))
      (there : e ∈ l.inorder ++ x :: r.inorder)
      (left : SortedBy key l.inorder → e ∈ l.inorder → key e < key x →
        ∃ p, deleteRecursive cmp lower e (node c l x r) = some p ∧ Shrunk c n p ∧
          p.1.inorder = without key (key e) l.inorder ++ x :: r.inorder)
      (right : SortedBy key r.inorder → e ∈ r.inorder → key x < key e →
        ∃ p, deleteRecursive cmp lower e (node c l x r) = some p ∧ Shrunk c n p ∧
          p.1.inorder = l.inorder ++ x :: without key (key e) r.inorder) :
      ∃ p, deleteRecursive cmp lower e (node c l x r) = some p ∧ Shrunk c n p ∧
        p.1.inorder = without key (key e) (l.inorder ++ x :: r.inorder) := by
    obtain ⟨hl, hr, below, above⟩ := sortedBy_append_cons.mp sorted
    rw [without_append_cons]
    rcases List.mem_append.mp there with mem | mem
    · obtain ⟨p, eq, shrunk, inorder⟩ := left hl mem (below e mem)
      have rest : without key (key e) r.inorder = r.inorder :=
        without_eq_self fun y hy => ((below e mem).trans (above y hy)).ne'
      exact ⟨p, eq, shrunk, by rw [inorder, if_neg (below e mem).ne', rest]⟩
    · rcases List.mem_cons.mp mem with rfl | mem
      · obtain ⟨p, eq, shrunk, inorder⟩ := deleteHere_shrunk h
        refine ⟨p, by rw [deleteRecursive_here compares self, eq], shrunk, ?_⟩
        rw [inorder, if_pos rfl, without_eq_self fun y hy => (below y hy).ne,
          without_eq_self fun y hy => (above y hy).ne']
      · obtain ⟨p, eq, shrunk, inorder⟩ := right hr mem (above e mem)
        have rest : without key (key e) l.inorder = l.inorder :=
          without_eq_self fun y hy => ((below y hy).trans (above e mem)).ne
        exact ⟨p, eq, shrunk, by rw [inorder, if_neg (above e mem).ne, rest]⟩
  induction h with
  | leaf => cases there
  | @red n l r x hl hr ihl ihr =>
    apply main _ _ _ _ _ (.red hl hr) sorted there
    · intro sorted mem less
      obtain ⟨p, eq, shrunk, inorder⟩ := ihl sorted mem
      obtain ⟨q, fixed, res, left⟩ := repairLeft_red (x := x) shrunk hr
      refine ⟨q, ?_, res, by rw [left, inorder]⟩
      rw [deleteRecursive_before compares less, eq]
      exact fixed
    · intro sorted mem more
      obtain ⟨p, eq, shrunk, inorder⟩ := ihr sorted mem
      obtain ⟨q, fixed, res, left⟩ := repairRight_red (x := x) hl shrunk
      refine ⟨q, ?_, res, by rw [left, inorder]⟩
      rw [deleteRecursive_behind compares more, eq]
      exact fixed
  | @black cl cr n l r x hl hr ihl ihr =>
    apply main _ _ _ _ _ (.black hl hr) sorted there
    · intro sorted mem less
      obtain ⟨p, eq, shrunk, inorder⟩ := ihl sorted mem
      obtain ⟨q, fixed, res, left⟩ := repairLeft_black (x := x) shrunk hr
      refine ⟨q, ?_, res, by rw [left, inorder]⟩
      rw [deleteRecursive_before compares less, eq]
      exact fixed
    · intro sorted mem more
      obtain ⟨p, eq, shrunk, inorder⟩ := ihr sorted mem
      obtain ⟨q, fixed, res, left⟩ := repairRight_black (x := x) hl shrunk
      refine ⟨q, ?_, res, by rw [left, inorder]⟩
      rw [deleteRecursive_behind compares more, eq]
      exact fixed

theorem delete_spec (compares : Comparator.Compares cmp key) (self : lower e e = false)
    (h : Balanced c n t) (sorted : SortedBy key t.inorder) (there : e ∈ t.inorder) :
    ∃ u m, delete cmp lower e t = some u ∧ Balanced .black m u ∧
      u.inorder = without key (key e) t.inorder := by
  obtain ⟨p, eq, shrunk, inorder⟩ := deleteRecursive_shrunk compares self h sorted there
  obtain ⟨m, balanced⟩ := shrunk.paint
  refine ⟨p.1.paint .black, m, by rw [delete, eq]; rfl, balanced, ?_⟩
  rw [inorder_paint, inorder]

end

end Yella.Sglib
