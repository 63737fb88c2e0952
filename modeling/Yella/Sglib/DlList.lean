import Yella.Lib.DoublyLinked

/-!
# Doubly linked lists of sglib

What the macros of `sglib.h` for doubly linked lists do to the list in memory.
-/

namespace Yella.Sglib.DlList

open DoublyLinked
open LinkedList (addresses)

variable {α : Type}

section
variable (h : Heap α)

def firstLoop : Nat → Nat → Option Nat
  | 0, _ => none
  | fuel + 1, p => do
    let n ← h.node p
    match n.previous with
    | none => some p
    | some q => firstLoop fuel q

def lastLoop : Nat → Nat → Option Nat
  | 0, _ => none
  | fuel + 1, p => do
    let n ← h.node p
    match n.next with
    | none => some p
    | some q => lastLoop fuel q

/-- `SGLIB_DL_LIST_GET_FIRST` -/
def getFirst : Option Nat → Option (Option Nat)
  | none => some none
  | some p => (firstLoop h h.bound p).map some

/-- `SGLIB_DL_LIST_ADD_AFTER` at a place that is not NULL -/
def addAfter (place elem : Nat) : Option (Heap α) := do
  let n ← h.node place
  let h ← h.setNext (some elem) n.next
  let h ← h.setPrevious (some elem) (some place)
  let h ← h.setNext (some place) (some elem)
  let e ← h.node elem
  h.setPrevious e.next (some elem)

/-- `SGLIB_DL_LIST_CONCAT` -/
def concat (first second : Option Nat) : Option (Heap α × Option Nat) :=
  match first, second with
  | none, _ => some (h, second)
  | some p, none => some (h, some p)
  | some p, some elem => do
    let last ← lastLoop h h.bound p
    let h ← addAfter h last elem
    some (h, some p)

/-- `SGLIB_DL_LIST_DELETE` -/
def delete (list : Option Nat) (elem : Nat) : Option (Heap α × Option Nat) := do
  let n ← h.node elem
  let list := if list = some elem then n.previous.or n.next else list
  let h ← h.setPrevious n.next n.previous
  let n ← h.node elem
  let h ← h.setNext n.previous n.next
  some (h, list)

/-- What the iterator goes to next in each direction -/
structure Iterator where
  prevelem : Option Nat
  nextelem : Option Nat

/-- `it_next`, which reads the links of an element before it returns it -/
def itNext (it : Iterator) : Option (Iterator × Option Nat) :=
  match it.prevelem, it.nextelem with
  | some ce, nextelem => do
    let n ← h.node ce
    some (⟨n.previous, nextelem⟩, some ce)
  | none, some ce => do
    let n ← h.node ce
    some (⟨none, n.next⟩, some ce)
  | none, none => some (⟨none, none⟩, none)

def itInit (list : Option Nat) : Option (Iterator × Option Nat) := do
  let nextelem ←
    match list with
    | none => some none
    | some p => (h.node p).map Node.next
  itNext h ⟨list, nextelem⟩

/-- A loop over the list that frees each element, with their values in the order of the visits -/
def freeLoop (h : Heap α) : Nat → Iterator → Option Nat → Option (Heap α × List α)
  | _, _, none => some (h, [])
  | 0, _, some _ => none
  | fuel + 1, it, some p => do
    let n ← h.node p
    let h := h.free p
    let (it, cur) ← itNext h it
    let (h, values) ← freeLoop h fuel it cur
    some (h, n.value :: values)

def freeAll (list : Option Nat) : Option (Heap α × List α) := do
  let (it, cur) ← itInit h list
  freeLoop h h.bound it cur

end

section
variable {h h' : Heap α} {previous next list : Option Nat} {l m a b : List (Nat × α)} {p q : Nat}
  {v : α}

/-! ## Going to an end -/

theorem firstLoop_eq {h : Heap α} {a b : List (Nat × α)} {p fuel : Nat} {v : α}
    (hl : Segment h none (a ++ (p, v) :: b) next) (enough : a.length < fuel) :
    firstLoop h fuel p = some ((a.head?.map Prod.fst).getD p) := by
  induction a using List.reverseRecOn generalizing p v b fuel with
  | nil =>
    obtain ⟨fuel, rfl⟩ : ∃ k, fuel = k + 1 := ⟨fuel - 1, by omega⟩
    rw [firstLoop, hl.node]
    rfl
  | append_singleton a n ih =>
    obtain ⟨fuel, rfl⟩ : ∃ k, fuel = k + 1 := ⟨fuel - 1, by omega⟩
    have here := hl.node
    rw [List.getLast?_concat, Option.map_some, Option.some_or] at here
    rw [List.append_assoc, List.singleton_append] at hl
    rw [List.length_append, List.length_singleton] at enough
    have rest := ih (p := n.1) (v := n.2) hl (Nat.lt_of_succ_lt_succ enough)
    rw [firstLoop, here]
    show firstLoop h fuel n.1 = _
    rw [rest]
    cases a <;> rfl

theorem lastLoop_eq {h : Heap α} {b : List (Nat × α)} {p fuel : Nat} {v : α}
    (hl : Segment h previous ((p, v) :: b) none) (enough : b.length < fuel) :
    lastLoop h fuel p = some ((b.getLast?.map Prod.fst).getD p) := by
  induction b generalizing p v previous fuel with
  | nil =>
    obtain ⟨fuel, rfl⟩ : ∃ k, fuel = k + 1 := ⟨fuel - 1, by omega⟩
    rw [lastLoop, hl.1]
    rfl
  | cons n b ih =>
    obtain ⟨fuel, rfl⟩ : ∃ k, fuel = k + 1 := ⟨fuel - 1, by omega⟩
    have rest := ih hl.2 (Nat.lt_of_succ_lt_succ enough)
    rw [lastLoop, hl.1]
    show lastLoop h fuel n.1 = _
    rw [rest, List.getLast?_cons]
    cases b.getLast? <;> rfl

theorem getFirst_eq (hl : Holds h list l) : getFirst h list = some (l.head?.map Prod.fst) := by
  cases list with
  | none =>
    rw [hl.null rfl]
    rfl
  | some p =>
    obtain ⟨a, v, b, rfl⟩ := hl.split
    have enough := hl.linked.length_le
    rw [List.length_append, List.length_cons] at enough
    rw [getFirst, firstLoop_eq hl.linked (by omega)]
    cases a <;> rfl

/-! ## The operations -/

/-- A node is linked in behind the last one. -/
theorem addAfter_last {last elem : Nat} {w : α} {n : Node α}
    (hl : Segment h none (l ++ [(last, w)]) none) (fresh : elem ∉ addresses (l ++ [(last, w)]))
    (there : h.node elem = some n) :
    ∃ h', addAfter h last elem = some h' ∧
      Segment h' none (l ++ [(last, w)] ++ [(elem, n.value)]) none ∧
      h'.node elem = some ⟨n.value, some last, none⟩ ∧
      (∀ q, (h'.node q).isSome = (h.node q).isSome) ∧ h'.bound = h.bound ∧
      ∀ q, q ∉ addresses (l ++ [(last, w)]) → q ≠ elem → h'.node q = h.node q := by
  have other : last ≠ elem := by
    rintro rfl
    exact fresh (by simp [addresses])
  have once := hl.nodup
  -- The links of the new node are set first.
  obtain ⟨h₁, eq₁⟩ : ∃ h₁, h.update elem (fun n => { n with next := none }) = h₁ := ⟨_, rfl⟩
  obtain ⟨h₂, eq₂⟩ : ∃ h₂, h₁.update elem (fun n => { n with previous := some last }) = h₂ :=
    ⟨_, rfl⟩
  have same (q : Nat) (ne : q ≠ elem) : h₂.node q = h.node q := by
    rw [← eq₂, node_update_of_ne ne, ← eq₁, node_update_of_ne ne]
  have new₁ : h₁.node elem = some ⟨n.value, n.previous, none⟩ := by
    rw [← eq₁]
    exact node_update_self there _
  have new₂ : h₂.node elem = some ⟨n.value, some last, none⟩ := by
    rw [← eq₂]
    exact node_update_self new₁ _
  have kept : Segment h₂ none (l ++ [(last, w)]) none :=
    hl.frame fun q hq => same q fun eq => fresh (eq ▸ hq)
  obtain ⟨h₃, linked, seg, relinked⟩ := kept.setNext once (some elem)
  rw [List.getLast?_concat, Option.map_some] at linked
  have new₃ : h₃.node elem = some ⟨n.value, some last, none⟩ :=
    (relinked.others elem fresh).trans new₂
  refine ⟨h₃, ?_, segment_append.mpr ⟨seg, ?_, trivial⟩, new₃, fun q => ?_, ?_, fun q hq ne => ?_⟩
  · have place := hl.node
    rw [List.head?_nil, Option.map_none, Option.none_or] at place
    simp only [addAfter, place, Option.bind_eq_bind, Option.bind_some, setNext_some there, eq₁,
      setPrevious_some new₁, eq₂, linked, new₃]
    rfl
  · rw [List.getLast?_concat]
    exact new₃
  · rw [relinked.there, ← eq₂, isSome_update, ← eq₁, isSome_update]
  · rw [relinked.bound, ← eq₂, ← eq₁]
    rfl
  · rw [relinked.others q hq, same q ne]

/-- **Appending.** A list that is not empty keeps of a second one only the node that its address
leads to, so the second list is appended exactly if it has no other. -/
theorem concat_iff {second : Option Nat} (hl : Holds h list l) (hm : Holds h second m)
    (apart : (addresses l).Disjoint (addresses m)) :
    ∃ h' list', concat h list second = some (h', list') ∧
      (Holds h' list' (l ++ m) ↔ l = [] ∨ m.length ≤ 1) ∧ list' = list.or second ∧
      (∀ q, (h'.node q).isSome = (h.node q).isSome) ∧
      ∀ q, q ∉ addresses l → q ∉ addresses m → h'.node q = h.node q := by
  cases list with
  | none =>
    have nothing := hl.null rfl
    subst nothing
    exact ⟨h, second, rfl, iff_of_true hm (.inl rfl), rfl, fun _ => rfl, fun _ _ _ => rfl⟩
  | some p =>
    cases second with
    | none =>
      have nothing := hm.null rfl
      subst nothing
      refine ⟨h, some p, rfl, iff_of_true ?_ (.inr (Nat.zero_le _)), rfl, fun _ => rfl,
        fun _ _ _ => rfl⟩
      rwa [List.append_nil]
    | some elem =>
      obtain ⟨c, x, d, rfl⟩ := hm.split
      obtain ⟨l', ⟨last, w⟩, rfl⟩ : ∃ l' n, l = l' ++ [n] := by
        rcases List.eq_nil_or_concat l with rfl | ⟨l', n, rfl⟩
        · exact absurd (hl.inside p rfl) List.not_mem_nil
        · exact ⟨l', n, List.concat_eq_append⟩
      have fresh : elem ∉ addresses (l' ++ [(last, w)]) := fun mine =>
        apart mine (by simp [addresses])
      have found : lastLoop h h.bound p = some last := by
        obtain ⟨a, v, b, split⟩ := hl.split
        have whole := hl.linked
        have enough := whole.length_le
        rw [split] at whole enough
        rw [List.length_append, List.length_cons] at enough
        rw [lastLoop_eq (segment_append.mp whole).2 (by omega)]
        have ends := congrArg List.getLast? split
        rw [List.getLast?_concat, List.getLast?_append, List.getLast?_cons] at ends
        cases end_eq : b.getLast? with
        | none =>
          rw [end_eq] at ends
          cases ends
          rfl
        | some n =>
          rw [end_eq] at ends
          cases ends
          rfl
      obtain ⟨h', added, seg, new, there, -, others⟩ :=
        addAfter_last hl.linked fresh hm.linked.node
      have run : concat h (some p) (some elem) = some (h', some p) := by
        simp only [concat, found, added, Option.bind_eq_bind, Option.bind_some]
      have frame (q : Nat) (notL : q ∉ addresses (l' ++ [(last, w)]))
          (notM : q ∉ addresses (c ++ (elem, x) :: d)) : h'.node q = h.node q := by
        apply others q notL
        rintro rfl
        exact notM (by simp [addresses])
      refine ⟨h', some p, run, ⟨fun holds => ?_, ?_⟩, rfl, there, frame⟩
      · -- The new links of the node are those of the last node of a list.
        right
        have links := holds.linked
        rw [← List.append_assoc] at links
        have node := links.node
        rw [new] at node
        simp only [Option.some.injEq, Node.mk.injEq, true_and, Option.or_none] at node
        obtain ⟨before, behind⟩ := node
        have tail : d = [] := by
          cases d with
          | nil => rfl
          | cons n d => simp at behind
        have front : c = [] := by
          rcases List.eq_nil_or_concat c with rfl | ⟨c, n, rfl⟩
          · rfl
          · rw [List.concat_eq_append, ← List.append_assoc, List.getLast?_concat,
              Option.map_some, Option.some_inj] at before
            exact (apart (a := last) (by simp [addresses]) (by simp [addresses, before])).elim
        rw [tail, front]
        exact Nat.le_refl 1
      · rintro (none' | one)
        · simp at none'
        · rw [List.length_append, List.length_cons] at one
          have front : c = [] := List.eq_nil_of_length_eq_zero (by omega)
          have tail : d = [] := List.eq_nil_of_length_eq_zero (by omega)
          subst front
          subst tail
          exact ⟨seg, fun q same => by
            cases same
            rw [addresses, List.map_append]
            exact List.mem_append_left _ (hl.inside p rfl), fun same => by cases same⟩

/-- The neighbours of a node are linked to each other, and no other node is changed. -/
theorem delete_spec {elem : Nat} (hl : Holds h list (a ++ (elem, v) :: b)) :
    ∃ h' list', delete h list elem = some (h', list') ∧ Holds h' list' (a ++ b) ∧
      (∀ q, (h'.node q).isSome = (h.node q).isSome) ∧
      (∀ q, q ∉ addresses (a ++ b) → h'.node q = h.node q) ∧
      (a = [] → list = some elem → list' = b.head?.map Prod.fst) := by
  have once := hl.linked.nodup
  rw [addresses, List.map_append, List.map_cons] at once
  obtain ⟨onceA, onceB', apart⟩ := List.nodup_append.mp once
  obtain ⟨notB, onceB⟩ := List.nodup_cons.mp onceB'
  have notA : elem ∉ addresses a := fun there => apart elem there elem List.mem_cons_self rfl
  obtain ⟨segA, here, segB⟩ := segment_append.mp hl.linked
  simp only [Option.or_none] at here
  obtain ⟨h₁, back, segB₁, relinked₁⟩ := segB.setPrevious onceB (a.getLast?.map Prod.fst)
  have segA₁ := segA.frame fun q hq => relinked₁.others q fun hb =>
    apart q hq q (List.mem_cons_of_mem _ hb) rfl
  obtain ⟨h₂, forth, segA₂, relinked₂⟩ := segA₁.setNext onceA (b.head?.map Prod.fst)
  have segB₂ := segB₁.frame fun q hq => relinked₂.others q fun ha =>
    apart q ha q (List.mem_cons_of_mem _ hq) rfl
  have here₁ : h₁.node elem = h.node elem := relinked₁.others elem notB
  have run : delete h list elem = some (h₂, if list = some elem then
      (a.getLast?.map Prod.fst).or (b.head?.map Prod.fst) else list) := by
    simp only [delete, here, Option.bind_eq_bind, Option.bind_some, back, here₁, forth]
  refine ⟨h₂, _, run, ⟨?_, ?_, ?_⟩, fun q => ?_, fun q other => ?_, ?_⟩
  · refine segment_append.mpr ⟨?_, ?_⟩
    · rwa [Option.or_none]
    · rwa [Option.or_none]
  · intro p same
    rw [addresses, List.map_append, List.mem_append]
    split at same
    · rcases Option.or_eq_some_iff.mp same with last | ⟨-, first⟩
      · obtain ⟨n, there, rfl⟩ := Option.map_eq_some_iff.mp last
        exact .inl (List.mem_map_of_mem (List.mem_of_getLast? there))
      · obtain ⟨n, there, rfl⟩ := Option.map_eq_some_iff.mp first
        exact .inr (List.mem_map_of_mem (List.mem_of_mem_head? there))
    · rename_i other
      have inside := hl.inside p same
      rw [addresses, List.map_append, List.map_cons, List.mem_append, List.mem_cons] at inside
      rcases inside with there | rfl | there
      · exact .inl there
      · exact absurd same other
      · exact .inr there
  · intro none'
    split at none'
    · rw [Option.or_eq_none_iff, Option.map_eq_none_iff, Option.map_eq_none_iff,
        List.getLast?_eq_none_iff, List.head?_eq_none_iff] at none'
      rw [none'.1, none'.2]
      rfl
    · have empty := hl.null none'
      simp at empty
  · rw [relinked₂.there, relinked₁.there]
  · rw [addresses, List.map_append, List.mem_append, not_or] at other
    rw [relinked₂.others q other.1, relinked₁.others q other.2]
  · rintro rfl rfl
    rw [if_pos rfl]
    rfl

/-! ## Freeing all nodes -/

theorem itNext_back {n : Node α} (there : h.node p = some n) (x : Option Nat) :
    itNext h ⟨some p, x⟩ = some (⟨n.previous, x⟩, some p) := by
  simp only [itNext, there, Option.bind_eq_bind, Option.bind_some]

theorem itNext_forth {n : Node α} (there : h.node p = some n) :
    itNext h ⟨none, some p⟩ = some (⟨none, n.next⟩, some p) := by
  simp only [itNext, there, Option.bind_eq_bind, Option.bind_some]

theorem freeLoop_step {n : Node α} {it it' : Iterator} {cur : Option Nat} {fuel : Nat}
    {values : List α} (here : h.node p = some n) (next : itNext (h.free p) it = some (it', cur))
    (rest : freeLoop (h.free p) fuel it' cur = some (h', values)) :
    freeLoop h (fuel + 1) it (some p) = some (h', n.value :: values) := by
  simp only [freeLoop, here, next, rest, Option.bind_eq_bind, Option.bind_some]

/-- The visits behind the start -/
theorem freeLoop_forth {fuel : Nat} {n : Node α} (hb : Segment h previous b none)
    (once : (addresses b).Nodup) (here : h.node p = some n) (fresh : p ∉ addresses b)
    (enough : b.length ≤ fuel) :
    ∃ h', freeLoop h (fuel + 1) ⟨none, b.head?.map Prod.fst⟩ (some p) =
        some (h', n.value :: b.map Prod.snd) ∧ Freed h h' ((p, n.value) :: b) := by
  induction b generalizing h previous p n fuel with
  | nil =>
    refine ⟨h.free p, freeLoop_step here rfl ?_, Freed.cons fun q => ?_⟩
    · cases fuel <;> rfl
    · exact (if_neg List.not_mem_nil).symm
  | cons m b ih =>
    obtain ⟨k, w⟩ := m
    obtain ⟨fuel, rfl⟩ : ∃ j, fuel = j + 1 := ⟨fuel - 1, by
      rw [List.length_cons] at enough
      omega⟩
    obtain ⟨notIn, onceB⟩ := List.nodup_cons.mp once
    have other : k ≠ p := by
      rintro rfl
      exact fresh List.mem_cons_self
    have first : (h.free p).node k = some ⟨w, previous, b.head?.map Prod.fst⟩ := by
      rw [node_free_of_ne other, hb.1, Option.or_none]
    have rest : Segment (h.free p) (some k) b none := hb.2.frame fun q hq =>
      node_free_of_ne fun same => fresh (same ▸ List.mem_cons_of_mem _ hq)
    obtain ⟨h', run, freed⟩ := ih rest onceB first notIn (Nat.le_of_succ_le_succ enough)
    exact ⟨h', freeLoop_step here (itNext_forth first) run, freed.cons⟩

/-- The visits before the start, and then those behind it -/
theorem freeLoop_back {fuel : Nat} {n : Node α} (ha : Segment h none a next)
    (hb : Segment h previous b none) (once : (addresses (a ++ b)).Nodup)
    (here : h.node p = some n) (fresh : p ∉ addresses (a ++ b))
    (enough : a.length + b.length ≤ fuel) :
    ∃ h', freeLoop h (fuel + 1) ⟨a.getLast?.map Prod.fst, b.head?.map Prod.fst⟩ (some p) =
        some (h', n.value :: (a.reverse ++ b).map Prod.snd) ∧
      Freed h h' ((p, n.value) :: (a.reverse ++ b)) := by
  induction a using List.reverseRecOn generalizing h previous next p n fuel with
  | nil =>
    have enough : b.length ≤ fuel := by simpa using enough
    exact freeLoop_forth hb once here fresh enough
  | append_singleton a m ih =>
    obtain ⟨k, w⟩ := m
    obtain ⟨fuel, rfl⟩ : ∃ j, fuel = j + 1 := ⟨fuel - 1, by
      rw [List.length_append, List.length_singleton] at enough
      omega⟩
    have parts : addresses (a ++ [(k, w)] ++ b) = addresses a ++ k :: addresses b := by
      simp [addresses]
    have whole : addresses (a ++ b) = addresses a ++ addresses b := List.map_append
    rw [parts] at once fresh
    rw [List.mem_append, List.mem_cons, not_or, not_or] at fresh
    obtain ⟨notA, notK, notB⟩ := fresh
    obtain ⟨segA, last⟩ := segment_append.mp ha
    have first : (h.free p).node k = some ⟨w, a.getLast?.map Prod.fst, next⟩ := by
      rw [node_free_of_ne (Ne.symm notK)]
      simpa using last.1
    have segA' : Segment (h.free p) none a (some k) := segA.frame fun q hq =>
      node_free_of_ne fun same => notA (same ▸ hq)
    have segB' : Segment (h.free p) previous b none := hb.frame fun q hq =>
      node_free_of_ne fun same => notB (same ▸ hq)
    obtain ⟨fresh', once'⟩ := List.nodup_cons.mp (List.nodup_middle.mp once)
    rw [← whole] at fresh' once'
    rw [List.length_append, List.length_singleton] at enough
    have left : a.length + b.length ≤ fuel := by omega
    obtain ⟨h', run, freed⟩ := ih segA' segB' once' first fresh' left
    rw [List.getLast?_concat, Option.map_some, List.reverse_append, List.reverse_singleton,
      List.singleton_append]
    exact ⟨h', freeLoop_step here (itNext_back first _) run, freed.cons⟩

/-- **Freeing in a loop.** The loop reads no node that has been freed, visits each node once, from
the start back to the first one and then on from behind the start, and leaves none of them. -/
theorem freeAll_spec (hl : Holds h (some p) (a ++ (p, v) :: b)) :
    ∃ h', freeAll h (some p) = some (h', v :: (a.reverse ++ b).map Prod.snd) ∧
      Freed h h' (a ++ (p, v) :: b) := by
  have once := hl.linked.nodup
  have enough := hl.linked.length_le
  rw [List.length_append, List.length_cons] at enough
  obtain ⟨segA, here, segB⟩ := segment_append.mp hl.linked
  rw [Option.or_none, Option.or_none] at here
  rw [addresses, List.map_append, List.map_cons] at once
  have middle := List.nodup_cons.mp (List.nodup_middle.mp once)
  rw [← List.map_append] at middle
  obtain ⟨fuel, bound⟩ : ∃ fuel, h.bound = fuel + 1 := ⟨h.bound - 1, by omega⟩
  have left : a.length + b.length ≤ fuel := by omega
  obtain ⟨h', run, freed⟩ := freeLoop_back segA segB middle.2 here middle.1 left
  refine ⟨h', ?_, fun q => ?_⟩
  · rw [freeAll, itInit, here]
    simp only [Option.map_some, Option.bind_eq_bind, Option.bind_some, itNext_back here, bound, run]
  · have same : q ∈ addresses ((p, v) :: (a.reverse ++ b)) ↔
        q ∈ addresses (a ++ (p, v) :: b) := by
      simp [addresses, or_left_comm]
    rw [freed q, if_congr same rfl rfl]

theorem freeAll_nil (h : Heap α) : freeAll h none = some (h, []) := by
  cases bound : h.bound <;> simp [freeAll, itInit, itNext, freeLoop]

end

end Yella.Sglib.DlList
