import Yella.Lib.LinkedList
import Yella.Element.Element

/-!
# The difference of two elements in memory

`diff_elements` of `element.c` on the nodes and their links. `none` is a failed assertion or
undefined behaviour.
-/

namespace Yella

open LinkedList

abbrev AttrHeap := Heap Attribute

/-- `struct element` -/
structure LinkedElement where
  name : UStr
  attrs : Option Nat
  deriving DecidableEq

abbrev AttrNodes := List (Nat × Attribute)

/-- The test of the first loop. -/
def isSame (h : AttrHeap) (elem2 : LinkedElement) (attr : Attribute) : Option Bool := do
  let found ← h.findMember attrKey elem2.attrs (attrKey attr)
  match found with
  | none => some false
  | some (_, other) =>
    let rc ← compareAttributes attr other
    some (decide (rc = 0))

/-- The test of the second loop. -/
def isAbsent (h : AttrHeap) (elem1 : LinkedElement) (attr : Attribute) : Option Bool := do
  let found ← h.findMember attrKey elem1.attrs (attrKey attr)
  some found.isNone

/-- The nodes that a loop with this test pushes. -/
def pushed (test : Attribute → Option Bool) : AttrNodes → Option AttrNodes
  | [] => some []
  | an :: rest => do
    let passes ← test an.2
    let more ← pushed test rest
    some (if passes then an :: more else more)

/-- `destroy_attribute` frees what a deleted node points to, and nothing leads to the node any
more, so it is taken as freed with it. -/
def deleteNodes (h : AttrHeap) (attrs : Option Nat) : AttrNodes → Option (AttrHeap × Option Nat)
  | [] => some (h, attrs)
  | an :: rest => do
    let (h, attrs) ← h.delete attrs an.1
    deleteNodes (h.free an.1) attrs rest

def addNodes (h : AttrHeap) (attrs : Option Nat) : AttrNodes → Option (AttrHeap × Option Nat)
  | [] => some (h, attrs)
  | an :: rest => do
    let (h, attrs) ← h.add attrKey attrs an.1
    addNodes h attrs rest

def diffElements (h : AttrHeap) (elem1 elem2 : LinkedElement) :
    Option (AttrHeap × LinkedElement) :=
  if elem1.name = elem2.name then do
    let nodes1 ← h.walk elem1.attrs
    let toDelete1 ← pushed (isSame h elem2) nodes1
    let nodes2 ← h.walk elem2.attrs
    let toDelete2 ← pushed (isAbsent h elem1) nodes2
    let (h, attrs) ← deleteNodes h elem1.attrs toDelete1
    let (h, attrs) ← addNodes h attrs toDelete2
    some (h, { elem1 with attrs })
  else none

def freeNodes (h : AttrHeap) (nodes : AttrNodes) : AttrHeap :=
  nodes.foldl (fun h an => h.free an.1) h

def destroyElement (h : AttrHeap) (elem : LinkedElement) : Option AttrHeap := do
  let nodes ← h.walk elem.attrs
  some (freeNodes h nodes)

/-! ## What the loops push -/

def nodeKey (an : Nat × Attribute) : Nat := attrKey an.2

/-- Sorted by type without repeated types. -/
def TypesSorted (l : AttrNodes) : Prop := l.Pairwise (fun a b => nodeKey a < nodeKey b)

def sameIn (l2 : AttrNodes) (an : Nat × Attribute) : Bool :=
  (SortedList.find nodeKey (nodeKey an) l2).any (fun found =>
    compareAttributes an.2 found.2 = some 0)

def absentIn (l1 : AttrNodes) (an : Nat × Attribute) : Bool :=
  (SortedList.find nodeKey (nodeKey an) l1).isNone

/-- The nodes that stay in the first element. -/
def keptNodes (l1 l2 : AttrNodes) : AttrNodes := l1.filter (fun an => !sameIn l2 an)

/-- The nodes that the first element takes over. -/
def takenNodes (l1 l2 : AttrNodes) : AttrNodes := l2.filter (absentIn l1)

/-- Every comparison of attributes of one type is defined. -/
def ComparesTypes (l1 l2 : AttrNodes) : Prop :=
  ∀ an ∈ l1, ∀ found ∈ l2, an.2.type = found.2.type →
    ∃ rc, compareAttributes an.2 found.2 = some rc

section
variable {h h' : AttrHeap} {elem1 elem2 : LinkedElement} {attrs : Option Nat}
  {l l1 l2 : AttrNodes}

theorem TypesSorted.sorted (hs : TypesSorted l) : SortedList.Sorted nodeKey l :=
  hs.imp Nat.le_of_lt

theorem nodeKey_eq_iff {a b : Nat × Attribute} : nodeKey a = nodeKey b ↔ a.2.type = b.2.type :=
  AttributeType.toNat_inj

theorem TypesSorted.eq_of_key (hs : TypesSorted l) {a b : Nat × Attribute} (ha : a ∈ l)
    (hb : b ∈ l) (hk : nodeKey a = nodeKey b) : a = b := by
  have distinct : (l.map nodeKey).Nodup := List.pairwise_map.mpr (hs.imp Nat.ne_of_lt)
  exact List.inj_on_of_nodup_map distinct ha hb hk

/-- A search finds the node of its type. -/
theorem TypesSorted.find_iff (hs : TypesSorted l) {k : Nat} {an : Nat × Attribute} :
    SortedList.find nodeKey k l = some an ↔ an ∈ l ∧ nodeKey an = k := by
  constructor
  · exact SortedList.find_some nodeKey
  · rintro ⟨hm, rfl⟩
    cases hf : SortedList.find nodeKey (nodeKey an) l with
    | none => exact absurd rfl ((SortedList.find_none nodeKey hs.sorted).mp hf an hm)
    | some found =>
      obtain ⟨hm', hk⟩ := SortedList.find_some nodeKey hf
      rw [hs.eq_of_key hm' hm hk]

theorem sameIn_iff (hs : TypesSorted l2) {an : Nat × Attribute} : sameIn l2 an = true ↔
    ∃ found ∈ l2, found.2.type = an.2.type ∧ compareAttributes an.2 found.2 = some 0 := by
  simp only [sameIn, Option.any_eq_true, decide_eq_true_eq, hs.find_iff, nodeKey_eq_iff,
    and_assoc]

theorem mem_keptNodes (hs : TypesSorted l2) {an : Nat × Attribute} : an ∈ keptNodes l1 l2 ↔
    an ∈ l1 ∧ ∀ found ∈ l2, found.2.type = an.2.type →
      compareAttributes an.2 found.2 ≠ some 0 := by
  simp only [keptNodes, List.mem_filter, Bool.not_eq_true', ← Bool.not_eq_true, sameIn_iff hs,
    not_exists, not_and, ne_eq]

theorem mem_takenNodes (hs : TypesSorted l1) {an : Nat × Attribute} : an ∈ takenNodes l1 l2 ↔
    an ∈ l2 ∧ ∀ other ∈ l1, other.2.type ≠ an.2.type := by
  simp only [takenNodes, absentIn, List.mem_filter, Option.isNone_iff_eq_none,
    SortedList.find_none nodeKey hs.sorted, ne_eq, nodeKey_eq_iff]

theorem pushed_eq {test : Attribute → Option Bool} (passes : Nat × Attribute → Bool)
    (h : ∀ an ∈ l, test an.2 = some (passes an)) : pushed test l = some (l.filter passes) := by
  induction l with
  | nil => rfl
  | cons an l ih =>
    rw [List.forall_mem_cons] at h
    simp only [pushed, h.1, ih h.2, Option.bind_eq_bind, Option.bind_some, List.filter_cons]

theorem pushed_defined {test : Attribute → Option Bool} {out : AttrNodes}
    (h : pushed test l = some out) : ∀ an ∈ l, ∃ passes, test an.2 = some passes := by
  induction l generalizing out with
  | nil => simp
  | cons an l ih =>
    simp only [pushed, Option.bind_eq_bind, Option.bind_eq_some_iff] at h
    obtain ⟨passes, first, more, rest, -⟩ := h
    exact List.forall_mem_cons.mpr ⟨⟨passes, first⟩, ih rest⟩

theorem findMember_eq (hl : Chain h attrs l) (an : Nat × Attribute) :
    h.findMember attrKey attrs (attrKey an.2) =
      some (SortedList.find nodeKey (nodeKey an) l) := hl.find attrKey (nodeKey an)

theorem isAbsent_eq (hl : Chain h elem1.attrs l1) (an : Nat × Attribute) :
    isAbsent h elem1 an.2 = some (absentIn l1 an) := by
  rw [isAbsent, findMember_eq hl]
  rfl

theorem isSame_eq (hl : Chain h elem2.attrs l2) (hs : TypesSorted l2) {an : Nat × Attribute}
    (defined : ∀ found ∈ l2, an.2.type = found.2.type →
      ∃ rc, compareAttributes an.2 found.2 = some rc) :
    isSame h elem2 an.2 = some (sameIn l2 an) := by
  rw [isSame, findMember_eq hl, sameIn]
  cases hf : SortedList.find nodeKey (nodeKey an) l2 with
  | none => rfl
  | some found =>
    obtain ⟨hm, hk⟩ := hs.find_iff.mp hf
    obtain ⟨rc, hrc⟩ := defined found hm (nodeKey_eq_iff.mp hk.symm)
    simp [hrc]

theorem isSame_defined (hl : Chain h elem2.attrs l2) (hs : TypesSorted l2)
    {an found : Nat × Attribute} {same : Bool} (h : isSame h elem2 an.2 = some same)
    (hm : found ∈ l2) (ht : an.2.type = found.2.type) :
    ∃ rc, compareAttributes an.2 found.2 = some rc := by
  have hf : SortedList.find nodeKey (nodeKey an) l2 = some found :=
    hs.find_iff.mpr ⟨hm, nodeKey_eq_iff.mpr ht.symm⟩
  rw [isSame, findMember_eq hl] at h
  simp only [hf, Option.bind_eq_bind, Option.bind_some, Option.bind_eq_some_iff] at h
  obtain ⟨rc, hrc, -⟩ := h
  exact ⟨rc, hrc⟩

/-! ## Unlinking and linking -/

theorem deleteNodes_chain {ds : AttrNodes} (hl : Chain h attrs l) (inside : ∀ an ∈ ds, an ∈ l)
    (once : (addresses ds).Nodup) :
    ∃ h' attrs', deleteNodes h attrs ds = some (h', attrs') ∧
      Chain h' attrs' (l.filter (fun an => an.1 ∉ addresses ds)) ∧
      ∀ q, q ∉ addresses l → h'.node q = h.node q := by
  induction ds generalizing h attrs l with
  | nil => exact ⟨h, attrs, rfl, by simpa [addresses] using hl, fun _ _ => rfl⟩
  | cons d ds ih =>
    rw [List.forall_mem_cons] at inside
    obtain ⟨notLater, once⟩ := List.nodup_cons.mp once
    obtain ⟨h₁, attrs₁, hdel, chain₁, same₁⟩ := hl.delete (List.mem_map_of_mem inside.1)
    have gone : ∀ p ∈ addresses (l.filter (fun an => an.1 ≠ d.1)),
        (h₁.free d.1).node p = h₁.node p := by
      intro p hp
      obtain ⟨an, han, rfl⟩ := List.mem_map.mp hp
      exact free_of_ne (by simpa using (List.mem_filter.mp han).2)
    have others : ∀ an ∈ ds, an ∈ l.filter (fun an => an.1 ≠ d.1) := by
      intro an han
      refine List.mem_filter.mpr ⟨inside.2 an han, ?_⟩
      have : an.1 ≠ d.1 := fun he => notLater (he ▸ List.mem_map_of_mem han)
      simpa using this
    obtain ⟨h₂, attrs₂, hrest, chain₂, same₂⟩ := ih (chain₁.frame gone) others once
    refine ⟨h₂, attrs₂, by simp [deleteNodes, hdel, hrest], ?_, fun q hq => ?_⟩
    · rw [List.filter_filter] at chain₂
      have tests : (fun an : Nat × Attribute => decide (an.1 ∉ addresses ds) && decide (an.1 ≠ d.1))
          = fun an => decide (an.1 ∉ addresses (d :: ds)) := by
        funext an
        rw [← Bool.decide_and, decide_eq_decide, addresses, addresses, List.map_cons,
          List.mem_cons, not_or, and_comm]
      rwa [tests] at chain₂
    · have hd : q ≠ d.1 := fun he => hq (he ▸ List.mem_map_of_mem inside.1)
      rw [same₂ q, free_of_ne hd, same₁ q hq]
      exact fun hf => hq (List.map_subset _ (List.filter_subset_self l) hf)

theorem addNodes_chain {ts : AttrNodes} (hl : Chain h attrs l)
    (there : ∀ an ∈ ts, ∃ next, h.node an.1 = some ⟨an.2, next⟩)
    (once : (addresses ts).Nodup) (apart : ∀ q ∈ addresses ts, q ∉ addresses l) :
    ∃ h' attrs', addNodes h attrs ts = some (h', attrs') ∧
      Chain h' attrs' (ts.foldl (fun l an => SortedList.add nodeKey an l) l) ∧
      ∀ q, q ∉ addresses l → q ∉ addresses ts → h'.node q = h.node q := by
  induction ts generalizing h attrs l with
  | nil => exact ⟨h, attrs, rfl, hl, fun _ _ _ => rfl⟩
  | cons t ts ih =>
    rw [List.forall_mem_cons] at there
    obtain ⟨⟨next, node⟩, there⟩ := there
    obtain ⟨notLater, once⟩ := List.nodup_cons.mp once
    obtain ⟨fresh, apart⟩ := List.forall_mem_cons.mp apart
    obtain ⟨h₁, attrs₁, hadd, chain₁, same₁⟩ := hl.add attrKey node fresh
    have longer : ∀ q, q ∈ addresses (SortedList.add nodeKey t l) ↔ q = t.1 ∨ q ∈ addresses l := by
      intro q
      simp only [addresses, List.mem_map, SortedList.mem_add, exists_eq_or_imp, eq_comm (a := q)]
    have there₁ : ∀ an ∈ ts, ∃ next, h₁.node an.1 = some ⟨an.2, next⟩ := by
      intro an han
      have ha : an.1 ∈ addresses ts := List.mem_map_of_mem han
      rw [same₁ an.1 (apart an.1 ha) fun he => notLater (he ▸ ha)]
      exact there an han
    have apart₁ : ∀ q ∈ addresses ts, q ∉ addresses (SortedList.add nodeKey t l) := by
      intro q hq
      rw [longer, not_or]
      exact ⟨fun he => notLater (he ▸ hq), apart q hq⟩
    obtain ⟨h₂, attrs₂, hrest, chain₂, same₂⟩ := ih chain₁ there₁ once apart₁
    refine ⟨h₂, attrs₂, by simp [addNodes, hadd, hrest], chain₂, fun q hq hqt => ?_⟩
    obtain ⟨hne, hqt⟩ := not_or.mp (mt List.mem_cons.mpr hqt)
    rw [same₂ q (fun hin => ((longer q).mp hin).elim hne hq) hqt, same₁ q hq hne]

theorem freeNodes_of_not_mem {ns : AttrNodes} {q : Nat} (hq : q ∉ addresses ns) :
    (freeNodes h ns).node q = h.node q := by
  induction ns generalizing h with
  | nil => rfl
  | cons n ns ih =>
    obtain ⟨hne, hq⟩ := not_or.mp (mt List.mem_cons.mpr hq)
    exact (ih (h := h.free n.1) hq).trans (free_of_ne hne)

/-! ## The whole difference -/

/-- Deleting what is the same leaves what is kept. -/
theorem filter_not_same (once : (addresses l1).Nodup) :
    l1.filter (fun an => an.1 ∉ addresses (l1.filter (sameIn l2))) = keptNodes l1 l2 := by
  apply List.filter_congr
  intro an han
  have : an.1 ∈ addresses (l1.filter (sameIn l2)) ↔ sameIn l2 an = true := by
    constructor
    · intro h
      obtain ⟨other, ho, he⟩ := List.mem_map.mp h
      obtain ⟨hm, same⟩ := List.mem_filter.mp ho
      rwa [← List.inj_on_of_nodup_map once hm han he]
    · exact fun same => List.mem_map_of_mem (List.mem_filter.mpr ⟨han, same⟩)
  simp [this]

/-- Where the comparisons are defined, the first element keeps and takes over what it should,
and no other node is touched. -/
theorem diffElements_chain (named : elem1.name = elem2.name) (hl1 : Chain h elem1.attrs l1)
    (hl2 : Chain h elem2.attrs l2) (hs2 : TypesSorted l2)
    (apart : (addresses l1).Disjoint (addresses l2)) (defined : ComparesTypes l1 l2) :
    ∃ h' attrs', diffElements h elem1 elem2 = some (h', { elem1 with attrs := attrs' }) ∧
      Chain h' attrs' ((takenNodes l1 l2).foldl (fun l an => SortedList.add nodeKey an l)
        (keptNodes l1 l2)) ∧
      ∀ q, q ∉ addresses l1 → q ∉ addresses (takenNodes l1 l2) → h'.node q = h.node q := by
  have push1 : pushed (isSame h elem2) l1 = some (l1.filter (sameIn l2)) :=
    pushed_eq (sameIn l2) fun an han => isSame_eq hl2 hs2 (defined an han)
  have push2 : pushed (isAbsent h elem1) l2 = some (takenNodes l1 l2) :=
    pushed_eq (absentIn l1) fun an _ => isAbsent_eq hl1 an
  have sub {p : Nat × Attribute → Bool} {l : AttrNodes} :
      addresses (l.filter p) ⊆ addresses l := List.map_subset _ (List.filter_subset_self l)
  obtain ⟨h₁, attrs₁, hdel, chain₁, same₁⟩ := deleteNodes_chain hl1
    (fun an han => (List.mem_filter.mp han).1) (hl1.nodup.sublist (List.filter_sublist.map _))
  rw [filter_not_same hl1.nodup] at chain₁
  have there : ∀ an ∈ takenNodes l1 l2, ∃ next, h₁.node an.1 = some ⟨an.2, next⟩ := by
    intro an han
    obtain ⟨hm, -⟩ := List.mem_filter.mp han
    rw [same₁ an.1 fun h1 => apart h1 (List.mem_map_of_mem hm)]
    exact hl2.node_some hm
  obtain ⟨h₂, attrs₂, hadd, chain₂, same₂⟩ := addNodes_chain chain₁ there
    (hl2.nodup.sublist (List.filter_sublist.map _)) fun q hq hk => apart (sub hk) (sub hq)
  refine ⟨h₂, attrs₂, ?_, chain₂, fun q hq1 hqt => ?_⟩
  · simp [diffElements, named, walk_eq hl1, walk_eq hl2, push1, push2, hdel, hadd]
  · rw [same₂ q (fun hk => hq1 (sub hk)) hqt, same₁ q hq1]

theorem mem_foldl_add {ts : AttrNodes} {an : Nat × Attribute} :
    an ∈ ts.foldl (fun l an => SortedList.add nodeKey an l) l ↔ an ∈ ts ∨ an ∈ l := by
  induction ts generalizing l with
  | nil => simp
  | cons t ts ih => rw [List.foldl_cons, ih, SortedList.mem_add, List.mem_cons]; tauto

end

/-- A difference that is computed has made every comparison. -/
theorem diffElements_compares {h h' : AttrHeap} {elem1 elem2 elem1' : LinkedElement}
    {l1 l2 : AttrNodes} (hl1 : Chain h elem1.attrs l1) (hl2 : Chain h elem2.attrs l2)
    (hs2 : TypesSorted l2) (hdiff : diffElements h elem1 elem2 = some (h', elem1')) :
    ComparesTypes l1 l2 := by
  unfold diffElements at hdiff
  split at hdiff
  · simp only [walk_eq hl1, Option.bind_eq_bind, Option.bind_some, Option.bind_eq_some_iff] at hdiff
    obtain ⟨same, push, -⟩ := hdiff
    intro an han found hm ht
    obtain ⟨passes, hp⟩ := pushed_defined push an han
    exact isSame_defined hl2 hs2 hp hm ht
  · cases hdiff

/-- The first element ends with the difference, sorted by type; the list of the second is as it
was and shares no node with the first, so destroying it leaves the first intact. -/
def DiffsPurely (h : AttrHeap) (elem1 elem2 : LinkedElement) (l1 l2 : AttrNodes) : Prop :=
  ∃ h' elem1' l, diffElements h elem1 elem2 = some (h', elem1') ∧ elem1'.name = elem1.name ∧
    Chain h' elem1'.attrs l ∧ TypesSorted l ∧
    (∀ attr, attr ∈ l.map Prod.snd ↔
      (attr ∈ l1.map Prod.snd ∧ ∀ other ∈ l2.map Prod.snd, other.type = attr.type →
        compareAttributes attr other ≠ some 0) ∨
      (attr ∈ l2.map Prod.snd ∧ ∀ other ∈ l1.map Prod.snd, other.type ≠ attr.type)) ∧
    Chain h' elem2.attrs l2 ∧ (addresses l).Disjoint (addresses l2) ∧
    ∃ h'', destroyElement h' elem2 = some h'' ∧ Chain h'' elem1'.attrs l

/-- The second element has no type that the first lacks. -/
def NoTypeTaken (l1 l2 : AttrNodes) : Prop := ∀ an ∈ l2, ∃ other ∈ l1, other.2.type = an.2.type

/-- Two separate lists of one name. -/
structure Separate (h : AttrHeap) (elem1 elem2 : LinkedElement) (l1 l2 : AttrNodes) : Prop where
  named : elem1.name = elem2.name
  chain1 : Chain h elem1.attrs l1
  chain2 : Chain h elem2.attrs l2
  sorted1 : TypesSorted l1
  sorted2 : TypesSorted l2
  apart : (addresses l1).Disjoint (addresses l2)

theorem DiffsPurely.comparesTypes {h : AttrHeap} {elem1 elem2 : LinkedElement}
    {l1 l2 : AttrNodes} (pure : DiffsPurely h elem1 elem2 l1 l2)
    (sep : Separate h elem1 elem2 l1 l2) : ComparesTypes l1 l2 := by
  obtain ⟨h', elem1', l, hdiff, -⟩ := pure
  exact diffElements_compares sep.chain1 sep.chain2 sep.sorted2 hdiff

/-- A node that is taken over is in both lists. -/
theorem DiffsPurely.noTypeTaken {h : AttrHeap} {elem1 elem2 : LinkedElement}
    {l1 l2 : AttrNodes} (pure : DiffsPurely h elem1 elem2 l1 l2)
    (sep : Separate h elem1 elem2 l1 l2) : NoTypeTaken l1 l2 := by
  have defined := pure.comparesTypes sep
  obtain ⟨h', elem1', l, hdiff, -, chain, -, -, chain2, apart, -⟩ := pure
  intro an han
  by_contra missing
  have mine : an ∈ takenNodes l1 l2 :=
    (mem_takenNodes sep.sorted1).mpr ⟨han, fun other ho ht => missing ⟨other, ho, ht⟩⟩
  obtain ⟨h₁, attrs₁, hdiff₁, chain₁, -⟩ := diffElements_chain sep.named sep.chain1 sep.chain2
    sep.sorted2 sep.apart defined
  obtain ⟨rfl, rfl⟩ : h₁ = h' ∧ { elem1 with attrs := attrs₁ } = elem1' := by
    rw [hdiff] at hdiff₁
    simpa [eq_comm] using hdiff₁
  rw [chain.unique chain₁] at apart
  exact apart (List.mem_map_of_mem (mem_foldl_add.mpr (.inl mine))) (List.mem_map_of_mem han)

theorem mem_difference {h : AttrHeap} {elem1 elem2 : LinkedElement} {l1 l2 : AttrNodes}
    (sep : Separate h elem1 elem2 l1 l2) (covered : NoTypeTaken l1 l2) (attr : Attribute) :
    attr ∈ (keptNodes l1 l2).map Prod.snd ↔
      (attr ∈ l1.map Prod.snd ∧ ∀ other ∈ l2.map Prod.snd, other.type = attr.type →
        compareAttributes attr other ≠ some 0) ∨
      (attr ∈ l2.map Prod.snd ∧ ∀ other ∈ l1.map Prod.snd, other.type ≠ attr.type) := by
  simp only [List.forall_mem_map]
  constructor
  · intro hk
    obtain ⟨an, han, rfl⟩ := List.mem_map.mp hk
    obtain ⟨hm, differs⟩ := (mem_keptNodes sep.sorted2).mp han
    exact .inl ⟨List.mem_map_of_mem hm, differs⟩
  · rintro (⟨hm, differs⟩ | ⟨hm, missing⟩)
    · obtain ⟨an, han, rfl⟩ := List.mem_map.mp hm
      exact List.mem_map_of_mem ((mem_keptNodes sep.sorted2).mpr ⟨han, differs⟩)
    · obtain ⟨an, han, rfl⟩ := List.mem_map.mp hm
      obtain ⟨other, ho, ht⟩ := covered an han
      exact absurd ht (missing other ho)

/-- The difference is pure exactly if the comparisons are defined and nothing is taken over. -/
theorem diffsPurely_iff {h : AttrHeap} {elem1 elem2 : LinkedElement} {l1 l2 : AttrNodes}
    (sep : Separate h elem1 elem2 l1 l2) :
    DiffsPurely h elem1 elem2 l1 l2 ↔ ComparesTypes l1 l2 ∧ NoTypeTaken l1 l2 := by
  constructor
  · intro pure
    exact ⟨pure.comparesTypes sep, pure.noTypeTaken sep⟩
  · rintro ⟨defined, covered⟩
    have nothing : takenNodes l1 l2 = [] := by
      apply List.eq_nil_iff_forall_not_mem.mpr
      intro an han
      obtain ⟨hm, missing⟩ := (mem_takenNodes sep.sorted1).mp han
      obtain ⟨other, ho, ht⟩ := covered an hm
      exact missing other ho ht
    obtain ⟨h', attrs', hdiff, chain, same⟩ := diffElements_chain sep.named sep.chain1 sep.chain2
      sep.sorted2 sep.apart defined
    rw [nothing] at chain same
    have apart : (addresses (keptNodes l1 l2)).Disjoint (addresses l2) :=
      fun q hk hq => sep.apart (List.map_subset _ (List.filter_subset_self l1) hk) hq
    have second : Chain h' elem2.attrs l2 :=
      sep.chain2.frame fun q hq => same q (fun h1 => sep.apart h1 hq) List.not_mem_nil
    refine ⟨h', _, keptNodes l1 l2, hdiff, rfl, chain, sep.sorted1.filter _,
      mem_difference sep covered, second, apart, freeNodes h' l2,
      by simp [destroyElement, walk_eq second], ?_⟩
    exact chain.frame fun q hq => freeNodes_of_not_mem fun h2 => apart hq h2

/-- Nodes at the addresses 0, 1, and so on. -/
def heapOf (nodes : List (Node Attribute)) : AttrHeap where
  node p := nodes[p]?
  bound := nodes.length
  finite _ := List.getElem?_eq_none

def elementAt (p : Nat) : LinkedElement := ⟨[102], some p⟩

/-- A file that has become a symbolic link. -/
theorem diffsPurely_fileType :
    DiffsPurely (heapOf [⟨.fileType .symbolicLink, none⟩, ⟨.fileType .regular, none⟩])
      (elementAt 0) (elementAt 1) [(0, .fileType .symbolicLink)] [(1, .fileType .regular)] := by
  have sep : Separate (heapOf [⟨.fileType .symbolicLink, none⟩, ⟨.fileType .regular, none⟩])
      (elementAt 0) (elementAt 1) [(0, .fileType .symbolicLink)] [(1, .fileType .regular)] :=
    ⟨rfl, .cons rfl .nil, .cons rfl .nil, List.pairwise_singleton _ _,
      List.pairwise_singleton _ _, by simp [addresses]⟩
  refine (diffsPurely_iff sep).mpr ⟨?_, ?_⟩
  · intro an han found hf _
    obtain rfl := List.mem_singleton.mp han
    obtain rfl := List.mem_singleton.mp hf
    exact ⟨_, rfl⟩
  · simp [NoTypeTaken, Attribute.type]

/-- The stored element has a size, the new one does not. -/
def storedSize : AttrHeap :=
  heapOf [⟨.fileType .regular, none⟩, ⟨.fileType .regular, some 2⟩, ⟨.size 7, none⟩]

theorem taken_node_shared :
    Separate storedSize (elementAt 0) (elementAt 1) [(0, .fileType .regular)]
        [(1, .fileType .regular), (2, .size 7)] ∧
      ¬ DiffsPurely storedSize (elementAt 0) (elementAt 1) [(0, .fileType .regular)]
        [(1, .fileType .regular), (2, .size 7)] := by
  have sep : Separate storedSize (elementAt 0) (elementAt 1) [(0, .fileType .regular)]
      [(1, .fileType .regular), (2, .size 7)] := by
    refine ⟨rfl, .cons rfl .nil, .cons rfl (.cons rfl .nil), ?_, ?_, ?_⟩
    · exact List.pairwise_singleton _ _
    · exact List.pairwise_pair.mpr (by decide)
    · simp [addresses]
  refine ⟨sep, fun pure => ?_⟩
  obtain ⟨other, ho, ht⟩ := pure.noTypeTaken sep (2, .size 7) (by simp)
  obtain rfl := List.mem_singleton.mp ho
  cases ht

/-! ## The lists of attributes -/

theorem find_map_snd (k : Nat) (l : AttrNodes) :
    SortedList.find attrKey k (l.map Prod.snd) = (SortedList.find nodeKey k l).map Prod.snd := by
  induction l with
  | nil => rfl
  | cons an l ih =>
    simp only [List.map_cons, SortedList.find, ih, nodeKey]
    by_cases below : attrKey an.2 < k
    · simp [below]
    · by_cases here : attrKey an.2 = k <;> simp [below, here]

theorem diffTaken_eq (l1 l2 : AttrNodes) :
    diffTaken (l1.map Prod.snd) (l2.map Prod.snd) = (takenNodes l1 l2).map Prod.snd := by
  rw [diffTaken, List.filter_map, takenNodes]
  congr 2
  funext an
  simp [absentIn, find_map_snd, nodeKey]

theorem diffKept_eq {l1 l2 : AttrNodes} (hs2 : TypesSorted l2) (defined : ComparesTypes l1 l2) :
    diffKept (l2.map Prod.snd) (l1.map Prod.snd) = some ((keptNodes l1 l2).map Prod.snd) := by
  induction l1 with
  | nil => rfl
  | cons an l1 ih =>
    obtain ⟨first, rest⟩ := List.forall_mem_cons.mp defined
    simp only [List.map_cons, diffKept, ih rest, Option.bind_eq_bind, Option.bind_some,
      find_map_snd, keptNodes, List.filter_cons, sameIn, nodeKey]
    cases hf : SortedList.find nodeKey (attrKey an.2) l2 with
    | none => simp
    | some found =>
      obtain ⟨hm, hk⟩ := hs2.find_iff.mp hf
      obtain ⟨rc, hrc⟩ := first found hm (nodeKey_eq_iff.mp hk.symm)
      by_cases zero : rc = 0 <;> simp [hrc, zero]

end Yella
