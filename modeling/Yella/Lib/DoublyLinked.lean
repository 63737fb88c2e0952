import Yella.Lib.LinkedList

/-!
# Doubly linked lists in memory

Nodes with a value and links in both directions. A list is the address of any one of its nodes,
`none` for NULL. A step that reads or writes a node that is not there has no result.
-/

namespace DoublyLinked

open LinkedList (addresses)

variable {α : Type}

structure Node (α : Type) where
  value : α
  previous : Option Nat
  next : Option Nat
  deriving DecidableEq, Repr

structure Heap (α : Type) where
  node : Nat → Option (Node α)
  bound : Nat
  finite : ∀ p, bound ≤ p → node p = none

namespace Heap

def empty : Heap α := ⟨fun _ => none, 0, fun _ _ => rfl⟩

variable (h : Heap α)

def update (p : Nat) (f : Node α → Node α) : Heap α where
  node q := if q = p then (h.node q).map f else h.node q
  bound := h.bound
  finite := by
    intro q above
    simp [h.finite q above]

def free (p : Nat) : Heap α where
  node q := if q = p then none else h.node q
  bound := h.bound
  finite := by
    intro q above
    simp [h.finite q above]

/-- A node at an address that is not in use -/
def alloc (p : Nat) (n : Node α) : Heap α where
  node q := if q = p then some n else h.node q
  bound := max h.bound (p + 1)
  finite := by
    intro q above
    rw [if_neg (by omega), h.finite q (by omega)]

/-- `p->next = next`, unless `p` is NULL -/
def setNext (p next : Option Nat) : Option (Heap α) :=
  match p with
  | none => some h
  | some p => (h.node p).map fun _ => h.update p fun n => { n with next }

/-- `p->previous = previous`, unless `p` is NULL -/
def setPrevious (p previous : Option Nat) : Option (Heap α) :=
  match p with
  | none => some h
  | some p => (h.node p).map fun _ => h.update p fun n => { n with previous }

end Heap

/-! ## Segments -/

/-- Linked nodes between what is before and behind them -/
def Segment (h : Heap α) (previous : Option Nat) : List (Nat × α) → Option Nat → Prop
  | [], _ => True
  | (p, v) :: rest, next =>
    h.node p = some ⟨v, previous, (rest.head?.map Prod.fst).or next⟩ ∧
      Segment h (some p) rest next

/-- The address leads into the list, and all nodes of the list can be reached from it. -/
structure Holds (h : Heap α) (list : Option Nat) (l : List (Nat × α)) : Prop where
  linked : Segment h none l none
  inside : ∀ p, list = some p → p ∈ addresses l
  null : list = none → l = []

section
variable {h h' : Heap α} {previous next list : Option Nat} {l m a b : List (Nat × α)} {p q : Nat}
  {v : α}

theorem segment_append : Segment h previous (a ++ b) next ↔
    Segment h previous a ((b.head?.map Prod.fst).or next) ∧
      Segment h ((a.getLast?.map Prod.fst).or previous) b next := by
  induction a generalizing previous with
  | nil => simp [Segment]
  | cons n a ih =>
    obtain ⟨p, v⟩ := n
    have behind : (((a ++ b).head?.map Prod.fst).or next) =
        (a.head?.map Prod.fst).or ((b.head?.map Prod.fst).or next) := by
      cases a <;> simp
    have before : (((p, v) :: a).getLast?.map Prod.fst).or previous =
        (a.getLast?.map Prod.fst).or (some p) := by
      rw [List.getLast?_cons]
      cases a.getLast? <;> rfl
    rw [List.cons_append, Segment, Segment, ih, behind, before, and_assoc]

/-- Nodes that are as they were -/
theorem Segment.frame (hl : Segment h previous l next)
    (same : ∀ p ∈ addresses l, h'.node p = h.node p) : Segment h' previous l next := by
  induction l generalizing previous with
  | nil => trivial
  | cons n l ih =>
    obtain ⟨first, rest⟩ := List.forall_mem_cons.mp same
    exact ⟨first.trans hl.1, ih hl.2 rest⟩

theorem Segment.node (hl : Segment h previous (a ++ (p, v) :: b) next) :
    h.node p = some ⟨v, (a.getLast?.map Prod.fst).or previous,
      (b.head?.map Prod.fst).or next⟩ :=
  (segment_append.mp hl).2.1

/-- The links to the next nodes -/
def Heap.forward (h : Heap α) : LinkedList.Heap α where
  node p := (h.node p).map fun n => ⟨n.value, n.next⟩
  bound := h.bound
  finite := by
    intro p above
    rw [h.finite p above]
    rfl

theorem Segment.chain (hl : Segment h previous l none) :
    LinkedList.Chain h.forward (l.head?.map Prod.fst) l := by
  induction l generalizing previous with
  | nil => exact .nil
  | cons n l ih =>
    obtain ⟨first, rest⟩ := hl
    refine .cons ?_ (ih rest)
    show (h.node n.1).map _ = _
    rw [first, Option.or_none]
    rfl

theorem Segment.nodup (hl : Segment h previous l none) : (addresses l).Nodup := hl.chain.nodup

theorem Segment.length_le (hl : Segment h previous l none) : l.length ≤ h.bound :=
  hl.chain.length_le

/-! ## Writing a link -/

theorem node_update_of_ne {f : Node α → Node α} (other : q ≠ p) :
    (h.update p f).node q = h.node q := if_neg other

theorem isSome_update (p : Nat) (f : Node α → Node α) (q : Nat) :
    ((h.update p f).node q).isSome = (h.node q).isSome := by
  show (if q = p then (h.node q).map f else h.node q).isSome = _
  split
  · exact Option.isSome_map
  · rfl

/-- What a change of links keeps: which nodes there are, and the nodes outside of a list. -/
structure Relinked (h h' : Heap α) (l : List (Nat × α)) : Prop where
  there : ∀ q, (h'.node q).isSome = (h.node q).isSome
  others : ∀ q, q ∉ addresses l → h'.node q = h.node q
  bound : h'.bound = h.bound

theorem Relinked.refl (h : Heap α) (l : List (Nat × α)) : Relinked h h l :=
  ⟨fun _ => rfl, fun _ _ => rfl, rfl⟩

/-- The last node is linked to something else. -/
theorem Segment.setNext (hl : Segment h previous l next) (once : (addresses l).Nodup)
    (next' : Option Nat) : ∃ h', h.setNext (l.getLast?.map Prod.fst) next' = some h' ∧
      Segment h' previous l next' ∧ Relinked h h' l := by
  rcases List.eq_nil_or_concat l with rfl | ⟨a, ⟨p, v⟩, rfl⟩
  · exact ⟨h, rfl, trivial, Relinked.refl h _⟩
  · rw [List.concat_eq_append] at hl once ⊢
    rw [List.getLast?_concat, Option.map_some]
    obtain ⟨first, last⟩ := segment_append.mp hl
    have fresh : p ∉ addresses a := by
      rw [addresses, List.map_append] at once
      exact fun again => (List.nodup_append.mp once).2.2 p again p (by simp) rfl
    have written : h.setNext (some p) next' = some (h.update p fun n => { n with next := next' }) :=
      by rw [Heap.setNext, last.1]; rfl
    refine ⟨_, written, segment_append.mpr ⟨?_, ?_, trivial⟩, ?_⟩
    · exact first.frame fun q hq => node_update_of_ne fun same => fresh (same ▸ hq)
    · show (if p = p then (h.node p).map _ else _) = _
      rw [if_pos rfl, last.1]
      rfl
    · refine ⟨isSome_update p _, fun q hq => node_update_of_ne ?_, rfl⟩
      rintro rfl
      exact hq (by simp [addresses])

/-- The first node is linked back to something else. -/
theorem Segment.setPrevious (hl : Segment h previous l next) (once : (addresses l).Nodup)
    (previous' : Option Nat) : ∃ h', h.setPrevious (l.head?.map Prod.fst) previous' = some h' ∧
      Segment h' previous' l next ∧ Relinked h h' l := by
  cases l with
  | nil => exact ⟨h, rfl, trivial, Relinked.refl h _⟩
  | cons n l =>
    obtain ⟨p, v⟩ := n
    obtain ⟨first, rest⟩ := hl
    have fresh : p ∉ addresses l := (List.nodup_cons.mp once).1
    have written : h.setPrevious (some p) previous' =
        some (h.update p fun n => { n with previous := previous' }) := by
      rw [Heap.setPrevious, first]
      rfl
    refine ⟨_, written, ⟨?_, ?_⟩, ?_⟩
    · show (if p = p then (h.node p).map _ else _) = _
      rw [if_pos rfl, first]
      rfl
    · exact rest.frame fun q hq => node_update_of_ne fun same => fresh (same ▸ hq)
    · refine ⟨isSome_update p _, fun q hq => node_update_of_ne ?_, rfl⟩
      rintro rfl
      exact hq List.mem_cons_self

theorem setNext_some {n : Node α} (there : h.node p = some n) (x : Option Nat) :
    h.setNext (some p) x = some (h.update p fun n => { n with next := x }) := by
  rw [Heap.setNext, there]
  rfl

theorem setPrevious_some {n : Node α} (there : h.node p = some n) (x : Option Nat) :
    h.setPrevious (some p) x = some (h.update p fun n => { n with previous := x }) := by
  rw [Heap.setPrevious, there]
  rfl

theorem node_update_self {n : Node α} (there : h.node p = some n) (f : Node α → Node α) :
    (h.update p f).node p = some (f n) := by
  show (if p = p then (h.node p).map f else _) = _
  rw [if_pos rfl, there]
  rfl

/-! ## Lists -/

/-- Where the address leads to -/
theorem Holds.split (hl : Holds h (some p) l) : ∃ a v b, l = a ++ (p, v) :: b := by
  obtain ⟨n, there, rfl⟩ := List.mem_map.mp (hl.inside p rfl)
  obtain ⟨a, b, rfl⟩ := List.append_of_mem there
  exact ⟨a, n.2, b, rfl⟩

theorem holds_nil (h : Heap α) : Holds h none [] :=
  ⟨trivial, fun _ same => (Option.some_ne_none _ same.symm).elim, fun _ => rfl⟩

theorem Holds.frame (hl : Holds h list l) (same : ∀ p ∈ addresses l, h'.node p = h.node p) :
    Holds h' list l :=
  ⟨hl.linked.frame same, hl.inside, hl.null⟩

/-! ## Freed lists -/

theorem node_free_of_ne (other : q ≠ p) : (h.free p).node q = h.node q := if_neg other

/-- All nodes of the list are gone, and no others. -/
def Freed (h h' : Heap α) (l : List (Nat × α)) : Prop :=
  ∀ q, h'.node q = if q ∈ addresses l then none else h.node q

theorem Freed.cons {n : Nat × α} (freed : Freed (h.free n.1) h' l) : Freed h h' (n :: l) := by
  intro q
  show h'.node q = if q ∈ n.1 :: addresses l then none else h.node q
  rw [freed q]
  by_cases gone : q = n.1
  · subst gone
    rw [if_pos List.mem_cons_self]
    split
    · rfl
    · exact if_pos rfl
  · simp only [node_free_of_ne gone, List.mem_cons, gone, false_or]

end

end DoublyLinked
