import Mathlib.Data.List.Nodup
import Mathlib.Data.Finset.Card
import Mathlib.Data.Finset.Range
import Yella.Lib.SortedList

/-!
# Linked lists in memory

Nodes with a value and a link, at addresses of a finite memory. A list is the address of its
first node, `none` for NULL, and a walk is defined if it ends and meets no node that has been
freed. `Chain` is what a list holds, node by node.
-/

namespace LinkedList

variable {α : Type} {κ : Type*}

structure Node (α : Type) where
  value : α
  next : Option Nat

structure Heap (α : Type) where
  node : Nat → Option (Node α)
  bound : Nat
  finite : ∀ p, bound ≤ p → node p = none

namespace Heap

variable (h : Heap α)

def setNext (p : Nat) (next : Option Nat) : Heap α where
  node q := if q = p then (h.node q).map (fun n => { n with next }) else h.node q
  bound := h.bound
  finite := by
    intro q hq
    simp [h.finite q hq]

def free (p : Nat) : Heap α where
  node q := if q = p then none else h.node q
  bound := h.bound
  finite := by
    intro q hq
    simp [h.finite q hq]

/-- The nodes from the first to the last. -/
def walkLoop : Nat → Option Nat → Option (List (Nat × α))
  | _, none => some []
  | 0, some _ => none
  | fuel + 1, some p => do
    let n ← h.node p
    let rest ← walkLoop fuel n.next
    some ((p, n.value) :: rest)

def walk (list : Option Nat) : Option (List (Nat × α)) := h.walkLoop h.bound list

/-- The link that leads to the first node at which to stop, and the address in it. A link is
the `next` field of a node, or the variable of the list (`none`). -/
def linkLoop (stop : Nat × α → Bool) : Nat → Option Nat → Option Nat →
    Option (Option Nat × Option Nat)
  | _, link, none => some (link, none)
  | 0, _, some _ => none
  | fuel + 1, link, some p => do
    let n ← h.node p
    if stop (p, n.value) then some (link, some p) else linkLoop stop fuel (some p) n.next

def linkTo (stop : Nat × α → Bool) (list : Option Nat) : Option (Option Nat × Option Nat) :=
  h.linkLoop stop h.bound none list

/-- Storing an address in a link. -/
def store (list link next : Option Nat) : Heap α × Option Nat :=
  match link with
  | none => (h, next)
  | some p => (h.setNext p next, list)

/-- `SGLIB_LIST_DELETE`, with its assertion that the node is in the list. -/
def delete (list : Option Nat) (elem : Nat) : Option (Heap α × Option Nat) := do
  let (link, found) ← h.linkTo (fun n => n.1 = elem) list
  let p ← found
  let n ← h.node p
  some (h.store list link n.next)

variable [LinearOrder κ] (key : α → κ)

/-- `SGLIB_SORTED_LIST_FIND_MEMBER`. -/
def findMember (list : Option Nat) (k : κ) : Option (Option (Nat × α)) := do
  let (_, found) ← h.linkTo (fun n => decide (k ≤ key n.2)) list
  match found with
  | none => some none
  | some p =>
    let n ← h.node p
    some (if key n.value = k then some (p, n.value) else none)

/-- `SGLIB_SORTED_LIST_ADD` -/
def add (list : Option Nat) (elem : Nat) : Option (Heap α × Option Nat) := do
  let e ← h.node elem
  let (link, found) ← h.linkTo (fun n => decide (key e.value ≤ key n.2)) list
  some ((h.setNext elem found).store list link (some elem))

end Heap

/-! ## Chains -/

inductive Chain (h : Heap α) : Option Nat → List (Nat × α) → Prop
  | nil : Chain h none []
  | cons {p : Nat} {v : α} {next : Option Nat} {rest : List (Nat × α)} :
      h.node p = some ⟨v, next⟩ → Chain h next rest → Chain h (some p) ((p, v) :: rest)

def addresses (l : List (Nat × α)) : List Nat := l.map Prod.fst

variable {h h' : Heap α} {list : Option Nat} {l m : List (Nat × α)}

theorem Chain.unique (hl : Chain h list l) (hm : Chain h list m) : l = m := by
  induction hl generalizing m with
  | nil => cases hm; rfl
  | cons hp _ ih =>
    cases hm with
    | cons hp' rest =>
      rw [hp, Option.some_inj, Node.mk.injEq] at hp'
      obtain ⟨rfl, rfl⟩ := hp'
      rw [ih rest]

/-- The first address of a chain. -/
theorem Chain.list_eq (hl : Chain h list l) : list = l.head?.map Prod.fst := by
  cases hl <;> rfl

theorem Chain.suffix (hl : Chain h list (l ++ m)) : Chain h (m.head?.map Prod.fst) m := by
  induction l generalizing list with
  | nil =>
    rw [List.nil_append] at hl
    rwa [← hl.list_eq]
  | cons n l ih =>
    cases hl with
    | cons _ rest => exact ih rest

/-- A chain ends, so it comes to no node twice. -/
theorem Chain.nodup (hl : Chain h list l) : (addresses l).Nodup := by
  induction hl with
  | nil => exact List.nodup_nil
  | @cons p v next rest hp hrest ih =>
    refine List.nodup_cons.mpr ⟨fun again => ?_, ih⟩
    obtain ⟨n, hn, hnp⟩ := List.mem_map.mp again
    obtain ⟨before, after, rfl⟩ := List.append_of_mem hn
    have inner : Chain h (some p) (n :: after) := by simpa [hnp] using hrest.suffix
    have := congrArg List.length (inner.unique (.cons hp hrest))
    simp at this
    omega

theorem Chain.node_some (hl : Chain h list l) {n : Nat × α} (hn : n ∈ l) :
    ∃ next, h.node n.1 = some ⟨n.2, next⟩ := by
  induction hl with
  | nil => cases hn
  | cons hp _ ih =>
    rcases List.mem_cons.mp hn with rfl | hn
    · exact ⟨_, hp⟩
    · exact ih hn

theorem Chain.length_le (hl : Chain h list l) : l.length ≤ h.bound := by
  have inside : ∀ p ∈ addresses l, p < h.bound := by
    intro p hp
    obtain ⟨n, hn, rfl⟩ := List.mem_map.mp hp
    obtain ⟨next, hnode⟩ := hl.node_some hn
    by_contra above
    rw [h.finite n.1 (Nat.le_of_not_lt above)] at hnode
    cases hnode
  have count := List.toFinset_card_of_nodup hl.nodup
  have : (addresses l).toFinset ⊆ Finset.range h.bound := by
    intro p hp
    exact Finset.mem_range.mpr (inside p (List.mem_toFinset.mp hp))
  have := Finset.card_le_card this
  rw [count, Finset.card_range, addresses, List.length_map] at this
  exact this

/-- A chain whose nodes are as they were. -/
theorem Chain.frame (hl : Chain h list l) (same : ∀ p ∈ addresses l, h'.node p = h.node p) :
    Chain h' list l := by
  induction hl with
  | nil => exact .nil
  | cons hp _ ih =>
    obtain ⟨first, rest⟩ := List.forall_mem_cons.mp same
    exact .cons (first.trans hp) (ih rest)

theorem setNext_of_ne {p q : Nat} {next : Option Nat} (hq : q ≠ p) :
    (h.setNext p next).node q = h.node q := if_neg hq

theorem free_of_ne {p q : Nat} (hq : q ≠ p) : (h.free p).node q = h.node q := if_neg hq

theorem walkLoop_eq (hl : Chain h list l) {fuel : Nat} (enough : l.length ≤ fuel) :
    h.walkLoop fuel list = some l := by
  induction hl generalizing fuel with
  | nil => cases fuel <;> rfl
  | cons hp _ ih =>
    cases fuel with
    | zero => simp at enough
    | succ fuel => simp [Heap.walkLoop, hp, ih (by simpa using enough)]

theorem walk_eq (hl : Chain h list l) : h.walk list = some l := walkLoop_eq hl hl.length_le

theorem linkLoop_eq (stop : Nat × α → Bool) (hl : Chain h list l) {fuel : Nat}
    (enough : l.length ≤ fuel) (link : Option Nat) :
    h.linkLoop stop fuel link list =
      some (((l.takeWhile (fun n => !stop n)).getLast?.map Prod.fst).or link,
        (l.dropWhile (fun n => !stop n)).head?.map Prod.fst) := by
  induction hl generalizing fuel link with
  | nil => cases fuel <;> rfl
  | @cons p v next rest hp _ ih =>
    cases fuel with
    | zero => simp at enough
    | succ fuel =>
      simp only [Heap.linkLoop, hp, Option.bind_eq_bind, Option.bind_some]
      by_cases hs : stop (p, v) = true
      · simp [hs]
      · rw [if_neg hs, ih (by simpa using enough)]
        simp only [hs, Bool.not_false, List.takeWhile_cons_of_pos, List.dropWhile_cons_of_pos]
        cases ht : rest.takeWhile (fun n => !stop n) <;> simp [List.getLast?_cons]

theorem linkTo_eq (stop : Nat × α → Bool) (hl : Chain h list l) :
    h.linkTo stop list =
      some ((l.takeWhile (fun n => !stop n)).getLast?.map Prod.fst,
        (l.dropWhile (fun n => !stop n)).head?.map Prod.fst) := by
  rw [Heap.linkTo, linkLoop_eq stop hl hl.length_le, Option.or_none]

/-! ## Operations -/

/-- Another rest of the list stored in the link behind the first part. -/
theorem Chain.store {next : Option Nat} {before after : List (Nat × α)}
    (hl : Chain h list (before ++ m)) (hnew : Chain h next after)
    (apart : ∀ p ∈ addresses after, p ∉ addresses before) :
    Chain (h.store list (before.getLast?.map Prod.fst) next).1
      (h.store list (before.getLast?.map Prod.fst) next).2 (before ++ after) := by
  have once := hl.nodup
  induction before generalizing list with
  | nil => exact hnew
  | cons n before ih =>
    obtain ⟨p, v⟩ := n
    rw [List.cons_append] at hl
    cases hl with
    | @cons _ _ link _ hp rest =>
      simp only [addresses, List.cons_append, List.map_cons, List.nodup_cons] at once
      have inner := ih rest (fun q hq hb => apart q hq (List.mem_cons_of_mem _ hb)) once.2
      cases before with
      | nil =>
        have frame : Chain (h.setNext p next) next after := by
          refine hnew.frame fun q hq => setNext_of_ne ?_
          rintro rfl
          exact apart q hq List.mem_cons_self
        exact .cons (by simp [Heap.store, Heap.setNext, hp]) frame
      | cons n before =>
        rw [List.getLast?_cons_cons]
        obtain ⟨last, hlast⟩ : ∃ last, (n :: before).getLast? = some last :=
          Option.ne_none_iff_exists'.mp (by simp)
        rw [hlast] at inner ⊢
        refine .cons (h := (h.store _ (some last.1) next).1) ?_ inner
        have : p ≠ last.1 := by
          rintro rfl
          exact once.1 (List.mem_map_of_mem
            (List.mem_append_left _ (List.mem_of_mem_getLast? hlast)))
        exact (setNext_of_ne this).trans hp

theorem store_frame {link next : Option Nat} {q : Nat} (hq : ∀ p, link = some p → q ≠ p) :
    (h.store list link next).1.node q = h.node q := by
  cases link with
  | none => rfl
  | some p => exact setNext_of_ne (hq p rfl)

theorem link_mem {before : List (Nat × α)} {p : Nat} (sub : before ⊆ l)
    (hp : before.getLast?.map Prod.fst = some p) : p ∈ addresses l := by
  obtain ⟨n, hn, rfl⟩ := Option.map_eq_some_iff.mp hp
  exact List.mem_map_of_mem (sub (List.mem_of_mem_getLast? hn))

/-- Deleting a node of the list leaves the other nodes in their order, and touches no node
outside the list. -/
theorem Chain.delete (hl : Chain h list l) {elem : Nat} (helem : elem ∈ addresses l) :
    ∃ h' list', h.delete list elem = some (h', list') ∧
      Chain h' list' (l.filter (fun n => n.1 ≠ elem)) ∧
      ∀ q, q ∉ addresses l → h'.node q = h.node q := by
  obtain ⟨⟨_, v⟩, hn, rfl⟩ := List.mem_map.mp helem
  obtain ⟨before, after, rfl⟩ := List.append_of_mem hn
  rename_i p
  have once := hl.nodup
  simp only [addresses, List.map_append, List.map_cons, List.nodup_append', List.nodup_cons,
    List.disjoint_cons_right] at once
  obtain ⟨-, ⟨notAfter, -⟩, notBefore, apart⟩ := once
  have passed : ∀ n ∈ before, (!decide (n.1 = p)) = true := by
    intro n hb
    simpa using fun he : n.1 = p => notBefore (he ▸ List.mem_map_of_mem hb)
  have found := linkTo_eq (fun n => decide (n.1 = p)) hl
  rw [List.takeWhile_append_of_pos passed, List.dropWhile_append_of_pos passed] at found
  simp only [decide_true, Bool.not_true, Bool.false_eq_true, not_false_eq_true,
    List.takeWhile_cons_of_neg, List.dropWhile_cons_of_neg, List.append_nil, List.head?_cons,
    Option.map_some] at found
  have kept : (before ++ (p, v) :: after).filter (fun n => n.1 ≠ p) = before ++ after := by
    have others (part : List (Nat × α)) (h : p ∉ part.map Prod.fst) :
        part.filter (fun n => n.1 ≠ p) = part := by
      apply List.filter_eq_self.mpr
      intro n hn
      simpa using fun he : n.1 = p => h (he ▸ List.mem_map_of_mem hn)
    rw [List.filter_append, List.filter_cons_of_neg (by simp), others before notBefore,
      others after notAfter]
  cases hl.suffix with
  | @cons _ _ next _ hp hafter =>
    have shorter := hl.store hafter fun q hq hb => apart hb hq
    rw [← kept] at shorter
    refine ⟨_, _, by simp [Heap.delete, found, hp], shorter, fun q hq => ?_⟩
    apply store_frame
    intro last hlast
    rintro rfl
    exact hq (link_mem (List.subset_append_left _ _) hlast)

section
variable [LinearOrder κ] (key : α → κ)

theorem Chain.find (hl : Chain h list l) (k : κ) :
    h.findMember key list k = some (SortedList.find (fun n => key n.2) k l) := by
  have first : SortedList.find (fun n : Nat × α => key n.2) k l =
      ((l.dropWhile (fun n => !decide (k ≤ key n.2))).head?).filter (fun n => key n.2 = k) := by
    clear hl
    induction l with
    | nil => rfl
    | cons n l ih =>
      by_cases below : key n.2 < k
      · simp [SortedList.find, below, ih]
      · simp only [SortedList.find, below, ↓reduceIte, not_lt.mp below, decide_true,
          Bool.not_true, Bool.false_eq_true, not_false_eq_true, List.dropWhile_cons_of_neg,
          List.head?_cons, Option.filter, decide_eq_true_eq]
  simp only [Heap.findMember, linkTo_eq _ hl, Option.bind_eq_bind, Option.bind_some, first]
  cases hd : l.dropWhile (fun n => !decide (k ≤ key n.2)) with
  | nil => rfl
  | cons n rest =>
    have inside : n ∈ l := List.dropWhile_subset _ (hd ▸ List.mem_cons_self)
    obtain ⟨next, hnode⟩ := hl.node_some inside
    simp only [List.head?_cons, Option.map_some, hnode, Option.bind_some, Option.filter,
      decide_eq_true_eq]

/-- Adding a node from outside puts it in front of the nodes with its key and the keys above. -/
theorem Chain.add (hl : Chain h list l) {elem : Nat} {e : Node α} (he : h.node elem = some e)
    (fresh : elem ∉ addresses l) :
    ∃ h' list', h.add key list elem = some (h', list') ∧
      Chain h' list' (SortedList.add (fun n => key n.2) (elem, e.value) l) ∧
      ∀ q, q ∉ addresses l → q ≠ elem → h'.node q = h.node q := by
  have found := linkTo_eq (fun n => decide (key e.value ≤ key n.2)) hl
  have placed : SortedList.add (fun n : Nat × α => key n.2) (elem, e.value) l =
      l.takeWhile (fun n => !decide (key e.value ≤ key n.2)) ++
        (elem, e.value) :: l.dropWhile (fun n => !decide (key e.value ≤ key n.2)) := by
    rw [SortedList.add, List.orderedInsert_eq_take_drop]
    simp only [decide_not]
  have whole := List.takeWhile_append_dropWhile (l := l)
    (p := fun n => !decide (key e.value ≤ key n.2))
  generalize l.takeWhile (fun n => !decide (key e.value ≤ key n.2)) = before at *
  generalize l.dropWhile (fun n => !decide (key e.value ≤ key n.2)) = after at *
  subst whole
  have once := hl.nodup
  simp only [addresses, List.map_append, List.nodup_append', List.mem_append, not_or] at once fresh
  have outside : ∀ part : List (Nat × α), elem ∉ part.map Prod.fst → ∀ q ∈ addresses part,
      (h.setNext elem (after.head?.map Prod.fst)).node q = h.node q := by
    intro part hpart q hq
    apply setNext_of_ne
    rintro rfl
    exact hpart hq
  have linked : Chain (h.setNext elem (after.head?.map Prod.fst)) (some elem)
      ((elem, e.value) :: after) :=
    .cons (by simp [Heap.setNext, he]) (hl.suffix.frame (outside after fresh.2))
  have before' : Chain (h.setNext elem (after.head?.map Prod.fst)) list (before ++ after) := by
    refine hl.frame (outside _ ?_)
    simpa using fresh
  have apart : ∀ q ∈ addresses ((elem, e.value) :: after), q ∉ addresses before :=
    List.forall_mem_cons.mpr ⟨fresh.1, fun q hq hb => once.2.2 hb hq⟩
  have longer := before'.store linked apart
  rw [← placed] at longer
  refine ⟨_, _, by simp [Heap.add, he, found], longer, fun q hq hne => ?_⟩
  rw [store_frame, setNext_of_ne hne]
  intro last hlast
  rintro rfl
  exact hq (link_mem (List.subset_append_left _ _) hlast)

end

end LinkedList
