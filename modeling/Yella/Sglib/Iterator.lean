import Yella.Sglib.Map

/-!
# The iterators of the trees

An iterator keeps the path to its node in an array of `SGLIB_MAX_TREE_DEEP` entries. The loops of
the agent take the default order, in which a node comes after its subtrees, and many of them free
each node as they go.
-/

namespace Yella.Sglib

open RedBlack RbTree

variable {α : Type*}

def sglibMaxTreeDeep : ℕ := 128

/-- An entry of the path: a node with its subtrees, and `pass`. -/
abbrev Frame (α : Type*) := RbTree α × ℕ

def leftTree : RbTree α → RbTree α
  | leaf => leaf
  | node _ l _ _ => l

def rightTree : RbTree α → RbTree α
  | leaf => leaf
  | node _ _ _ r => r

/-- The subtree that is next. -/
def childOf (frame : Frame α) : RbTree α :=
  if frame.2 = 0 then leftTree frame.1 else rightTree frame.1

/-- What an iteration does with the nodes. -/
inductive ItEvent (α : Type*) where
  /-- A pointer in the node is followed. -/
  | reads (elem : α)
  /-- The node is returned to the caller, who may free it. -/
  | returns (elem : α)
  deriving DecidableEq, Repr

/-- A round of the loop of `it_compute_current_elem` on a path with its last entry first. The
result is `none` where the array is too short. -/
def itRound (frame : Frame α) (path : List (Frame α)) : Option (List (Frame α)) :=
  if 2 ≤ frame.2 then some path
  else
    let up := (frame.1, frame.2 + 1) :: path
    match childOf frame with
    | leaf => some up
    | s => if up.length < sglibMaxTreeDeep then some ((s, 0) :: up) else none

def readsOf (frame : Frame α) : List (ItEvent α) :=
  if 2 ≤ frame.2 then [] else ((rootElem frame.1).map ItEvent.reads).toList

/-- The node that the loop stops at, if it stops here. -/
def stopsAt (order : ℕ) : List (Frame α) → Option α
  | [] => none
  | (t, pass) :: _ => if order = pass then rootElem t else none

/-- The rounds that a subtree takes. -/
def rounds : RbTree α → ℕ
  | leaf => 0
  | node _ l _ r => 3 + rounds l + rounds r

def roundsLeft (frame : Frame α) : ℕ :=
  match frame.2 with
  | 0 => 3 + rounds (leftTree frame.1) + rounds (rightTree frame.1)
  | 1 => 2 + rounds (rightTree frame.1)
  | _ => 1

def pathRounds (path : List (Frame α)) : ℕ := (path.map roundsLeft).sum

theorem rounds_eq {t : RbTree α} (inner : t ≠ leaf) : rounds t = roundsLeft (t, 0) := by
  cases t with
  | leaf => exact absurd rfl inner
  | node => rfl

theorem itRound_rounds {frame : Frame α} {path path' : List (Frame α)}
    (h : itRound frame path = some path') : pathRounds path' + 1 = pathRounds (frame :: path) := by
  obtain ⟨t, pass⟩ := frame
  unfold itRound childOf at h
  simp only at h
  split at h
  · obtain rfl := Option.some.inj h
    rename_i full
    obtain ⟨k, rfl⟩ : ∃ k, pass = k + 2 := ⟨pass - 2, by omega⟩
    simp [pathRounds, roundsLeft, Nat.add_comm]
  · have pass01 : pass = 0 ∨ pass = 1 := by omega
    split at h
    · rename_i child
      obtain rfl := Option.some.inj h
      rcases pass01 with rfl | rfl
      · simp only [if_true] at child
        simp only [pathRounds, List.map_cons, List.sum_cons, roundsLeft, child, rounds]
        omega
      · simp only [one_ne_zero, if_false] at child
        simp only [pathRounds, List.map_cons, List.sum_cons, roundsLeft, child, rounds]
        omega
    · rename_i child
      split at h
      · obtain rfl := Option.some.inj h
        rcases pass01 with rfl | rfl
        · simp only [if_true] at child ⊢
          have := rounds_eq child
          simp only [pathRounds, List.map_cons, List.sum_cons, roundsLeft] at this ⊢
          omega
        · simp only [one_ne_zero, if_false] at child ⊢
          have := rounds_eq child
          simp only [pathRounds, List.map_cons, List.sum_cons, roundsLeft] at this ⊢
          omega
      · cases h

/-- `it_compute_current_elem`: the new path, the current element and the nodes read. -/
def itComputeCurrentElem (order : ℕ) :
    List (Frame α) → Option (List (Frame α) × Option α × List (ItEvent α))
  | [] => some ([], none, [])
  | frame :: path =>
    match _h : itRound frame path with
    | none => none
    | some path' =>
      match stopsAt order path' with
      | some x => some (path', some x, readsOf frame)
      | none => (itComputeCurrentElem order path').map fun (path'', elem, reads) =>
          (path'', elem, readsOf frame ++ reads)
termination_by path => pathRounds path
decreasing_by
  have := itRound_rounds _h
  omega

theorem itComputeCurrentElem_rounds {order : ℕ} {path path' : List (Frame α)} {elem : Option α}
    {events : List (ItEvent α)}
    (h : itComputeCurrentElem order path = some (path', elem, events)) :
    pathRounds path' + (if elem.isSome then 1 else 0) ≤ pathRounds path := by
  fun_induction itComputeCurrentElem order path generalizing path' elem events with
  | case1 =>
    cases h
    exact Nat.le_refl _
  | case2 => cases h
  | case3 frame path up round x stop =>
    cases h
    have := itRound_rounds round
    simpa using this.le
  | case4 frame path up round stop ih =>
    obtain ⟨⟨path'', elem', reads⟩, rest, eq⟩ := Option.map_eq_some_iff.mp h
    cases eq
    have := itRound_rounds round
    have := ih rest
    omega

/-- `it_init` for one of the orders. -/
def itInit (order : ℕ) : RbTree α → Option (List (Frame α) × Option α × List (ItEvent α))
  | leaf => some ([], none, [])
  | t => if order = 0 then some ([(t, 0)], rootElem t, []) else itComputeCurrentElem order [(t, 0)]

/-- The loop of a caller: as long as there is a current element, it is handled and then
`it_next` is called. -/
def itLoop (order : ℕ) : List (Frame α) → Option α → Option (List (ItEvent α))
  | _, none => some []
  | path, some x =>
    match _h : itComputeCurrentElem order path with
    | none => none
    | some (path', elem, reads) =>
      (itLoop order path' elem).map fun events => .returns x :: reads ++ events
termination_by path elem => pathRounds path + if elem.isSome then 1 else 0
decreasing_by
  have := itComputeCurrentElem_rounds _h
  simp only [Option.isSome_some, if_true]
  omega

/-- `for (cur = it_init(&itor, tree); cur != NULL; cur = it_next(&itor))` -/
def forEach (order : ℕ) (t : RbTree α) : Option (List (ItEvent α)) :=
  (itInit order t).bind fun (path, elem, reads) =>
    (itLoop order path elem).map fun events => reads ++ events

/-! ## What is still to come -/

/-- The elements in one of the orders. -/
def traversal (order : ℕ) : RbTree α → List α
  | leaf => []
  | node _ l x r =>
    (if order = 0 then [x] else []) ++ traversal order l ++ (if order = 1 then [x] else []) ++
      traversal order r ++ if order = 2 then [x] else []

/-- What the last entry of the path will still return. -/
def comingOf (order : ℕ) : Frame α → List α
  | (node _ l x r, 0) =>
    traversal order l ++ (if order = 1 then [x] else []) ++ traversal order r ++
      if order = 2 then [x] else []
  | (node _ _ x r, 1) => traversal order r ++ if order = 2 then [x] else []
  | _ => []

/-- The other entries are at work on a child, and may return their node when it is done. -/
def comingAfter (order : ℕ) (frame : Frame α) : List α :=
  (if order = frame.2 then (rootElem frame.1).toList else []) ++ comingOf order frame

def coming (order : ℕ) : List (Frame α) → List α
  | [] => []
  | frame :: path => comingOf order frame ++ path.flatMap (comingAfter order)

/-- A path of nested nodes that all fit below a tree of this height. -/
def Nested (height : ℕ) : List (Frame α) → Prop
  | [] => True
  | frame :: path => frame.1 ≠ leaf ∧ path.length + frame.1.height ≤ height ∧ Nested height path

/-- The array is long enough for the path and for what may be pushed. -/
structure InArray (path : List (Frame α)) : Prop where
  nested : Nested sglibMaxTreeDeep path
  passes : ∀ frame ∈ path, frame.2 ≤ 2
  lower : ∀ frame ∈ path.tail, frame.2 ≠ 0

section
variable {order : ℕ} {t : RbTree α} {frame : Frame α} {path path' : List (Frame α)} {x : α}

theorem comingOf_child (inner : t ≠ leaf) {pass : ℕ} (more : pass < 2) :
    comingOf order (t, pass) =
      traversal order (childOf (t, pass)) ++ comingAfter order (t, pass + 1) := by
  cases t with
  | leaf => exact absurd rfl inner
  | node c l x r =>
    have pass01 : pass = 0 ∨ pass = 1 := by omega
    rcases pass01 with rfl | rfl
    · by_cases first : order = 1 <;>
        simp [comingOf, childOf, comingAfter, leftTree, rootElem, first]
    · by_cases second : order = 2 <;>
        simp [comingOf, childOf, comingAfter, rightTree, rootElem, second]

theorem traversal_eq (path : List (Frame α)) (inner : t ≠ leaf) :
    traversal order t = (stopsAt order ((t, 0) :: path)).toList ++ comingOf order (t, 0) := by
  cases t with
  | leaf => exact absurd rfl inner
  | node c l x r =>
    by_cases zero : order = 0 <;> simp [traversal, stopsAt, comingOf, rootElem, zero]

theorem comingAfter_eq (path : List (Frame α)) (frame : Frame α) :
    comingAfter order frame = (stopsAt order (frame :: path)).toList ++ comingOf order frame := by
  obtain ⟨t, pass⟩ := frame
  by_cases here : order = pass <;> simp [comingAfter, stopsAt, here]

theorem height_child (inner : childOf frame ≠ leaf) :
    0 < (childOf frame).height ∧ (childOf frame).height < frame.1.height := by
  obtain ⟨t, pass⟩ := frame
  have pos (s : RbTree α) (hs : s ≠ leaf) : 0 < s.height := by
    cases s with
    | leaf => exact absurd rfl hs
    | node => exact Nat.succ_pos _
  refine ⟨pos _ inner, ?_⟩
  cases t with
  | leaf => simp [childOf, leftTree, rightTree] at inner
  | node c l x r =>
    unfold childOf
    simp only [leftTree, rightTree, height]
    split <;> omega

/-- A round goes on: nothing is written past the array, and what is to come is what the loop may
stop at, and the rest. -/
theorem itRound_spec (order : ℕ) (h : InArray (frame :: path)) :
    ∃ path', itRound frame path = some path' ∧ InArray path' ∧
      coming order (frame :: path) = (stopsAt order path').toList ++ coming order path' := by
  obtain ⟨t, pass⟩ := frame
  obtain ⟨⟨inner, room, nested⟩, passes, lower⟩ := h
  have pass2 : pass ≤ 2 := passes _ List.mem_cons_self
  by_cases full : 2 ≤ pass
  · -- Both subtrees are done, and the entry below goes on.
    obtain rfl : pass = 2 := by omega
    refine ⟨path, rfl, ⟨nested, ?_, ?_⟩, ?_⟩
    · exact fun f hf => passes f (List.mem_cons_of_mem _ hf)
    · exact fun f hf => lower f (List.mem_of_mem_tail hf)
    · have done : comingOf order (t, 2) = [] := by cases t <;> rfl
      cases path with
      | nil => simp [coming, done, stopsAt]
      | cons below path =>
        rw [coming, done, List.nil_append, List.flatMap_cons, comingAfter_eq path, coming,
          List.append_assoc]
  · have up : InArray ((t, pass + 1) :: path) := by
      refine ⟨⟨inner, room, nested⟩, ?_, lower⟩
      rintro f hf
      rcases List.mem_cons.mp hf with rfl | hf
      · exact Nat.succ_le_of_lt (by omega)
      · exact passes f (List.mem_cons_of_mem _ hf)
    have goal (path' : List (Frame α)) (eq : itRound (t, pass) path = some path')
        (array : InArray path')
        (rest : traversal order (childOf (t, pass)) ++
          (comingAfter order (t, pass + 1) ++ path.flatMap (comingAfter order)) =
          (stopsAt order path').toList ++ coming order path') :
        ∃ path', itRound (t, pass) path = some path' ∧ InArray path' ∧
          coming order ((t, pass) :: path) =
            (stopsAt order path').toList ++ coming order path' := by
      refine ⟨path', eq, array, ?_⟩
      rw [coming, comingOf_child inner (by omega), List.append_assoc, rest]
    by_cases bottom : childOf (t, pass) = leaf
    · apply goal _ ?_ up
      · rw [bottom, traversal, List.nil_append, comingAfter_eq path, coming,
          List.append_assoc]
      · unfold itRound
        rw [if_neg full, bottom]
    · obtain ⟨pos, lowered⟩ := height_child bottom
      have short : ((t, pass + 1) :: path).length < sglibMaxTreeDeep := by
        simp only [List.length_cons]
        simp only at lowered room
        omega
      apply goal ((childOf (t, pass), 0) :: (t, pass + 1) :: path)
      · unfold itRound
        rw [if_neg full]
        cases child : childOf (t, pass) with
        | leaf => exact absurd child bottom
        | node => exact if_pos short
      · refine ⟨⟨bottom, ?_, up.nested⟩, ?_, ?_⟩
        · simp only [List.length_cons]
          simp only at lowered room
          omega
        · rintro f hf
          rcases List.mem_cons.mp hf with rfl | hf
          · exact Nat.zero_le 2
          · exact up.passes f hf
        · intro f hf
          rcases List.mem_cons.mp hf with rfl | hf
          · exact Nat.succ_ne_zero _
          · exact lower f hf
      · rw [traversal_eq ((t, pass + 1) :: path) bottom, coming, List.flatMap_cons,
          List.append_assoc]

/-! ## The loop -/

/-- The nodes that are returned, in their order. -/
def returned (events : List (ItEvent α)) : List α :=
  events.filterMap fun
    | .reads _ => none
    | .returns x => some x

@[simp] theorem returned_append (a b : List (ItEvent α)) :
    returned (a ++ b) = returned a ++ returned b := List.filterMap_append

@[simp] theorem returned_cons_returns (events : List (ItEvent α)) :
    returned (.returns x :: events) = x :: returned events := rfl

@[simp] theorem returned_cons_reads (events : List (ItEvent α)) :
    returned (.reads x :: events) = returned events := rfl

theorem mem_returned {events : List (ItEvent α)} : x ∈ returned events ↔ .returns x ∈ events := by
  unfold returned
  rw [List.mem_filterMap]
  constructor
  · rintro ⟨e, mem, eq⟩
    cases e with
    | reads => cases eq
    | returns y =>
      cases eq
      exact mem
  · exact fun mem => ⟨_, mem, rfl⟩

@[simp] theorem returned_readsOf (frame : Frame α) : returned (readsOf frame) = [] := by
  unfold readsOf
  split
  · rfl
  · cases rootElem frame.1 <;> rfl

/-- In the default order a node is read only as long as it is to come. -/
theorem mem_coming_of_reads (h : InArray (frame :: path)) (reads : .reads x ∈ readsOf frame) :
    x ∈ coming 2 (frame :: path) := by
  obtain ⟨t, pass⟩ := frame
  unfold readsOf at reads
  split at reads
  · cases reads
  · rename_i more
    simp only [not_le] at more
    cases t with
    | leaf => exact absurd rfl h.nested.1
    | node c l y r =>
      have eq : x = y := by simpa [rootElem] using reads
      subst eq
      have pass01 : pass = 0 ∨ pass = 1 := by omega
      rcases pass01 with rfl | rfl <;> simp [coming, comingOf]

/-- Each node that is read is returned later, or after these events. -/
def ReadsFirst : List (ItEvent α) → List α → Prop
  | [], _ => True
  | .reads x :: events, after => x ∈ returned events ++ after ∧ ReadsFirst events after
  | .returns _ :: events, after => ReadsFirst events after

theorem ReadsFirst.append {a b : List (ItEvent α)} {after : List α}
    (ha : ReadsFirst a (returned b ++ after)) (hb : ReadsFirst b after) :
    ReadsFirst (a ++ b) after := by
  induction a with
  | nil => exact hb
  | cons e a ih =>
    rw [List.cons_append]
    cases e with
    | reads x =>
      refine ⟨?_, ih ha.2⟩
      rw [returned_append, List.append_assoc]
      exact ha.1
    | returns x => exact ih ha

theorem ReadsFirst.later {pre post : List (ItEvent α)} {after : List α}
    (h : ReadsFirst (pre ++ .reads x :: post) after) : x ∈ returned post ++ after := by
  induction pre with
  | nil => exact h.1
  | cons e pre ih =>
    rw [List.cons_append] at h
    cases e with
    | reads y => exact ih h.2
    | returns y => exact ih h

theorem ReadsFirst.of_reads {events : List (ItEvent α)} {after : List α}
    (h : ∀ e ∈ events, ∃ x ∈ after, e = .reads x) : ReadsFirst events after := by
  induction events with
  | nil => trivial
  | cons e events ih =>
    obtain ⟨x, mem, rfl⟩ := h e List.mem_cons_self
    exact ⟨List.mem_append_right _ mem, ih fun e he => h e (List.mem_cons_of_mem _ he)⟩

/-- What is returned once is not read again. -/
theorem ReadsFirst.not_returned {pre post : List (ItEvent α)}
    (h : ReadsFirst (pre ++ .reads x :: post) [])
    (once : (returned (pre ++ .reads x :: post)).Nodup) : .returns x ∉ pre := by
  intro mem
  have later : x ∈ returned post := by simpa using h.later
  rw [returned_append, returned_cons_reads] at once
  exact List.disjoint_of_nodup_append once (mem_returned.mpr mem) later

theorem readsFirst_readsOf {after : List α} (h : InArray (frame :: path))
    (eq : coming 2 (frame :: path) = after) : ReadsFirst (readsOf frame) after := by
  apply ReadsFirst.of_reads
  intro e he
  have reads : ∃ x, e = .reads x := by
    unfold readsOf at he
    split at he
    · cases he
    · cases root : rootElem frame.1 with
      | none => simp [root] at he
      | some x => exact ⟨x, by simpa [root] using he⟩
  obtain ⟨x, rfl⟩ := reads
  exact ⟨x, eq ▸ mem_coming_of_reads h he, rfl⟩

theorem itComputeCurrentElem_spec (order : ℕ) (h : InArray path) :
    ∃ path' elem reads, itComputeCurrentElem order path = some (path', elem, reads) ∧
      InArray path' ∧ returned reads = [] ∧ (elem = none → path' = []) ∧
      coming order path = elem.toList ++ coming order path' ∧
      (order = 2 → ReadsFirst reads (coming order path)) := by
  fun_induction itComputeCurrentElem order path with
  | case1 => exact ⟨[], none, [], rfl, h, rfl, fun _ => rfl, rfl, fun _ => trivial⟩
  | case2 frame path round =>
    obtain ⟨path', eq, -⟩ := itRound_spec order h
    rw [round] at eq
    cases eq
  | case3 frame path up round x stop =>
    obtain ⟨path', eq, array, rest⟩ := itRound_spec order h
    cases round.symm.trans eq
    rw [stop] at rest
    refine ⟨up, some x, readsOf frame, rfl, array, returned_readsOf frame, by simp, rest, ?_⟩
    rintro rfl
    exact readsFirst_readsOf h rfl
  | case4 frame path up round stop ih =>
    obtain ⟨path', eq, array, rest⟩ := itRound_spec order h
    cases round.symm.trans eq
    rw [stop] at rest
    obtain ⟨path'', elem, reads, eq', array', none', ends, rest', first⟩ := ih array
    refine ⟨path'', elem, readsOf frame ++ reads, by rw [eq']; rfl, array', ?_, ends, ?_, ?_⟩
    · rw [returned_append, returned_readsOf, none', List.nil_append]
    · rw [rest, rest']
      rfl
    · rintro rfl
      apply ReadsFirst.append
      · rw [none', List.nil_append]
        exact readsFirst_readsOf h rfl
      · rw [rest]
        exact first rfl

theorem itLoop_spec (order : ℕ) {elem : Option α} (h : InArray path)
    (ends : elem = none → path = []) :
    ∃ events, itLoop order path elem = some events ∧
      returned events = elem.toList ++ coming order path ∧
      (order = 2 → ReadsFirst events []) := by
  fun_induction itLoop order path elem with
  | case1 path =>
    obtain rfl := ends rfl
    exact ⟨[], rfl, rfl, fun _ => trivial⟩
  | case2 path x eq =>
    obtain ⟨path', elem, reads, eq', -⟩ := itComputeCurrentElem_spec order h
    rw [eq] at eq'
    cases eq'
  | case3 path x path' elem reads eq ih =>
    obtain ⟨_, _, _, eq', array, none', ends', rest, first⟩ :=
      itComputeCurrentElem_spec order h
    cases eq.symm.trans eq'
    obtain ⟨events, eq'', ret, first'⟩ := ih array ends'
    refine ⟨.returns x :: reads ++ events, by rw [eq'']; rfl, ?_, ?_⟩
    · rw [List.cons_append, returned_cons_returns, returned_append, none', List.nil_append, ret,
        rest]
      rfl
    · rintro rfl
      apply ReadsFirst.append
      · rw [List.append_nil, ret, ← rest]
        exact first rfl
      · exact first' rfl

theorem itInit_spec (order : ℕ) (low : t.height ≤ sglibMaxTreeDeep) :
    ∃ path elem reads, itInit order t = some (path, elem, reads) ∧ InArray path ∧
      returned reads = [] ∧ (elem = none → path = []) ∧
      traversal order t = elem.toList ++ coming order path ∧
      (order = 2 → ReadsFirst reads (traversal order t)) := by
  cases t with
  | leaf =>
    exact ⟨[], none, [], rfl, ⟨trivial, by simp, by simp⟩, rfl, fun _ => rfl, rfl, fun _ => trivial⟩
  | node c l x r =>
    have inner : node c l x r ≠ leaf := by simp
    have array : InArray [(node c l x r, 0)] :=
      ⟨⟨inner, by simpa using low, trivial⟩, by simp, by simp⟩
    have all : traversal order (node c l x r) =
        (stopsAt order [(node c l x r, 0)]).toList ++ coming order [(node c l x r, 0)] := by
      rw [traversal_eq [] inner, coming, List.flatMap_nil, List.append_nil]
    by_cases zero : order = 0
    · subst zero
      exact ⟨[(node c l x r, 0)], some x, [], rfl, array, rfl, by simp, all, by simp⟩
    · have start : itInit order (node c l x r) =
          itComputeCurrentElem order [(node c l x r, 0)] := by
        simp only [itInit, if_neg zero]
      have first : traversal order (node c l x r) = coming order [(node c l x r, 0)] := by
        simpa [stopsAt, zero] using all
      rw [start, first]
      exact itComputeCurrentElem_spec order array

/-- The loop gets every node in its turn. -/
theorem forEach_spec (order : ℕ) (low : t.height ≤ sglibMaxTreeDeep) :
    ∃ events, forEach order t = some events ∧ returned events = traversal order t ∧
      (order = 2 → ReadsFirst events []) := by
  obtain ⟨path, elem, reads, start, array, none', ends, all, first⟩ := itInit_spec order low
  obtain ⟨events, eq, ret, first'⟩ := itLoop_spec order array ends
  refine ⟨reads ++ events, by simp [forEach, start, eq], ?_, ?_⟩
  · rw [returned_append, none', List.nil_append, ret, all]
  · rintro rfl
    apply ReadsFirst.append
    · rw [List.append_nil, ret, ← all]
      exact first rfl
    · exact first' rfl

end

/-! ## The trees of the agent -/

theorem traversal_perm {order : ℕ} (known : order ≤ 2) (t : RbTree α) :
    (traversal order t).Perm t.inorder := by
  induction t with
  | leaf => exact .refl _
  | node c l x r ihl ihr =>
    have orders : order = 0 ∨ order = 1 ∨ order = 2 := by omega
    rw [traversal, inorder_node]
    rcases orders with rfl | rfl | rfl
    · simpa using ((ihl.append ihr).cons x).trans List.perm_middle.symm
    · simpa using ihl.append (ihr.cons x)
    · have last : (traversal 2 r ++ [x]).Perm (x :: r.inorder) :=
        List.perm_append_comm.trans (ihr.cons x)
      simpa using ihl.append last

section
open Comparator

variable {κ : Type*} [LinearOrder κ] {key : α → κ} {cmp : α → α → ℤ} {lower : α → α → Bool}
  {t : RbTree α} {m : κ → Option α}

theorem Holds.height_le (h : Holds key t m) (small : t.size < 2 ^ 64) :
    t.height ≤ sglibMaxTreeDeep := by
  obtain ⟨n, balanced⟩ := h.balanced
  have bound : 2 ^ t.height ≤ 2 ^ 128 :=
    calc 2 ^ t.height ≤ (t.size + 1) * (t.size + 1) := balanced.pow_height_le
      _ ≤ 2 ^ 64 * 2 ^ 64 := Nat.mul_le_mul small small
      _ = 2 ^ 128 := by rw [← pow_add]
  exact (Nat.pow_le_pow_iff_right (by omega)).mp bound

theorem Holds.nodup (h : Holds key t m) : t.inorder.Nodup := by
  apply h.sorted.imp
  rintro a b less rfl
  exact lt_irrefl _ less

variable [DecidableEq α] {membs : List (Option α)}

theorem holds_of_runOps (compares : Compares cmp key) (self : ∀ a, lower a a = false)
    {ops : List (TreeOp α)} (run : runOps cmp lower leaf ops = some (t, membs)) :
    Holds key t (mapOps key (fun _ => none) ops).1 := by
  obtain ⟨u, eq, held⟩ := holds_leaf.runOps compares self ops
  cases run.symm.trans eq
  exact held

/-- **Iteration is complete.** In each order the loop ends without writing past the iterator's
arrays and gets every node that is bound, once, in that order. -/
theorem iteration_complete (compares : Compares cmp key) (self : ∀ a, lower a a = false)
    (ops : List (TreeOp α)) (run : runOps cmp lower leaf ops = some (t, membs))
    (small : t.size < 2 ^ 64) {order : ℕ} (known : order ≤ 2) :
    ∃ events, forEach order t = some events ∧ returned events = traversal order t ∧
      (returned events).Nodup ∧
      ∀ x, x ∈ returned events ↔ (mapOps key (fun _ => none) ops).1 (key x) = some x := by
  have held := holds_of_runOps compares self run
  obtain ⟨events, eq, ret, -⟩ := forEach_spec order (held.height_le small)
  have perm : (returned events).Perm t.inorder := ret ▸ traversal_perm known t
  refine ⟨events, eq, ret, perm.nodup_iff.mpr held.nodup, fun x => ?_⟩
  rw [perm.mem_iff, held.bound (key x) x]
  simp

theorem iteration_complete_names :
    ∃ t membs, runOps nameCompare (fun _ _ => false) leaf someOps = some (t, membs) ∧
      t.size = 4 ∧ ∃ events, forEach 1 t = some events ∧ returned events = traversal 1 t ∧
        (returned events).Nodup ∧ ∀ x, x ∈ returned events ↔
          (mapOps Subtype.val (fun _ => none) someOps).1 x.1 = some x := by
  obtain ⟨t, membs, run, four⟩ : ∃ t membs,
      runOps nameCompare (fun _ _ => false) leaf someOps = some (t, membs) ∧ t.size = 4 :=
    ⟨_, _, rfl, by decide⟩
  have small : t.size < 2 ^ 64 := by
    rw [four]
    decide
  exact ⟨t, membs, run, four,
    iteration_complete nameCompare_compares (fun _ => rfl) someOps run small (by decide)⟩

/-- **A loop may free the nodes as it goes.** In the default order no node is read after it has been
returned. -/
theorem freed_not_read (compares : Compares cmp key) (self : ∀ a, lower a a = false)
    (ops : List (TreeOp α)) (run : runOps cmp lower leaf ops = some (t, membs))
    (small : t.size < 2 ^ 64) :
    ∃ events, forEach 2 t = some events ∧
      ∀ pre x post, events = pre ++ .reads x :: post → .returns x ∉ pre := by
  have held := holds_of_runOps compares self run
  obtain ⟨events, eq, ret, first⟩ := forEach_spec 2 (held.height_le small)
  refine ⟨events, eq, ?_⟩
  rintro pre x post rfl
  apply (first rfl).not_returned
  rw [ret]
  exact (traversal_perm (Nat.le_refl 2) t).nodup_iff.mpr held.nodup

theorem freed_not_read_names :
    ∃ t membs, runOps nameCompare (fun _ _ => false) leaf someOps = some (t, membs) ∧
      t.size = 4 ∧ ∃ events, forEach 2 t = some events ∧
        ∀ pre x post, events = pre ++ .reads x :: post → .returns x ∉ pre := by
  obtain ⟨t, membs, run, four⟩ : ∃ t membs,
      runOps nameCompare (fun _ _ => false) leaf someOps = some (t, membs) ∧ t.size = 4 :=
    ⟨_, _, rfl, by decide⟩
  have small : t.size < 2 ^ 64 := by
    rw [four]
    decide
  exact ⟨t, membs, run, four,
    freed_not_read nameCompare_compares (fun _ => rfl) someOps run small⟩

end

end Yella.Sglib
