import Mathlib.Data.List.Perm.Basic
import Yella.Lib.Machine
import Yella.PtrVector.Refine

/-!
# Programs with vectors

The calls that a program makes, and what it makes of lists. Each vector has a number, and a
history of what has been stored in it and what has been passed to its destructor.
-/

namespace Yella

open PtrVector

variable {P D C : Type*}

/-- A call that changes one vector. -/
inductive VectorOp (P : Type*) where
  | pushBack (p : P)
  | pushFront (p : P)
  | eraseAt (off : UInt32)
  | popBack
  | popFront
  | clear

inductive VectorCall (P D C : Type*) where
  | create (destructor : Option D) (copier : C)
  | change (v : Nat) (op : VectorOp P)
  | assign (v other : Nat)
  | copy (v : Nat)
  | destroy (v : Nat)

namespace VectorOp

def stored : VectorOp P → List P
  | pushBack p | pushFront p => [p]
  | eraseAt _ | popBack | popFront | clear => []

def run (v : PtrVector P D C) : VectorOp P → Option (PtrVector P D C × List (D × P))
  | pushBack p => (v.pushBack p).map fun v => (v, [])
  | pushFront p => (v.pushFront p).map fun v => (v, [])
  | eraseAt off => v.eraseAt off
  | popBack => v.popBack
  | popFront => v.popFront
  | clear => v.clear

/-- The operation on a list. -/
def onList (l : List P) : VectorOp P → List P
  | pushBack p => l ++ [p]
  | pushFront p => p :: l
  | eraseAt off => l.eraseIdx off.toNat
  | popBack => l.dropLast
  | popFront => l.tail
  | clear => []

/-- What the operation takes out. -/
def removed (l : List P) : VectorOp P → List P
  | pushBack _ | pushFront _ => []
  | eraseAt off => l[off.toNat]?.toList
  | popBack => l.getLast?.toList
  | popFront => l.head?.toList
  | clear => l

/-- `popBack` cuts the last index to an `unsigned`. -/
def Short (size : Nat) : VectorOp P → Prop
  | popBack => size ≤ 2 ^ 32
  | pushBack _ | pushFront _ | eraseAt _ | popFront | clear => True

instance decidableShort (size : Nat) : (op : VectorOp P) → Decidable (op.Short size)
  | popBack => inferInstanceAs (Decidable (size ≤ 2 ^ 32))
  | pushBack _ | pushFront _ | eraseAt _ | popFront | clear => .isTrue trivial

theorem eraseIdx_perm (l : List P) (i : Nat) : l.Perm (l[i]?.toList ++ l.eraseIdx i) := by
  by_cases inside : i < l.length
  · rw [List.getElem?_eq_getElem inside]
    exact (List.getElem_cons_eraseIdx_perm inside).symm
  · rw [List.getElem?_eq_none (Nat.not_lt.mp inside),
      List.eraseIdx_of_length_le (Nat.not_lt.mp inside)]
    exact List.Perm.refl l

/-- Nothing is lost and nothing is taken out twice. -/
theorem onList_perm (l : List P) (op : VectorOp P) :
    (op.stored ++ l).Perm (op.removed l ++ op.onList l) := by
  cases op with
  | pushBack p => exact List.perm_append_comm
  | pushFront p => exact List.Perm.refl _
  | eraseAt off => exact eraseIdx_perm l off.toNat
  | popBack =>
    have last := eraseIdx_perm l (l.length - 1)
    rwa [← List.getLast?_eq_getElem?, List.eraseIdx_length_sub_one] at last
  | popFront => cases l <;> exact List.Perm.refl _
  | clear => exact (List.append_nil l).symm ▸ List.Perm.refl l

theorem run_refines {v : PtrVector P D C} {l : List P} (h : v.Holds l) {op : VectorOp P}
    (short : op.Short v.size) :
    ∃ v', op.run v = some (v', v.destructorCalls (op.removed l)) ∧ v'.Holds (op.onList l) ∧
      SameKind v v' := by
  cases op with
  | pushBack p =>
    obtain ⟨v', pushed, holds, same⟩ := h.pushBack p
    exact ⟨v', by rw [run, pushed, removed, destructorCalls, callsOf_nil]; rfl, holds, same⟩
  | pushFront p =>
    obtain ⟨v', pushed, holds, same⟩ := h.pushFront p
    exact ⟨v', by rw [run, pushed, removed, destructorCalls, callsOf_nil]; rfl, holds, same⟩
  | eraseAt off => exact h.eraseAt off
  | popBack => exact h.popBack (h.size ▸ short)
  | popFront => exact h.popFront
  | clear => exact h.clear

end VectorOp

/-! ## The vectors of a program -/

/-- The vectors that have not been destroyed, the calls of copiers so far, and for each vector
what has been stored and what has been passed to a destructor, each with the destructor. -/
structure VectorWorld (P D C : Type*) where
  vectors : Nat → Option (PtrVector P D C)
  created : Nat
  copied : Nat
  stored : Nat → List (D × P)
  destroyed : Nat → List (D × P)

namespace VectorWorld

def start : VectorWorld P D C := ⟨fun _ => none, 0, 0, fun _ => [], fun _ => []⟩

def put (w : VectorWorld P D C) (v : Nat) (vector : Option (PtrVector P D C))
    (stored calls : List (D × P)) : VectorWorld P D C :=
  { w with
    vectors := Function.update w.vectors v vector
    stored := Function.update w.stored v (w.stored v ++ stored)
    destroyed := Function.update w.destroyed v (w.destroyed v ++ calls) }

def putNew (w : VectorWorld P D C) (vector : PtrVector P D C) (stored : List (D × P)) :
    VectorWorld P D C :=
  { w.put w.created (some vector) stored [] with created := w.created + 1 }

def haveCopied (w : VectorWorld P D C) (n : Nat) : VectorWorld P D C :=
  { w with copied := w.copied + n }

section
variable (copied : C → Nat → Option P → P) (default : D × C)

/-- A call of a vector that there is not is not defined, nor is one that assigns a vector to
itself. -/
def next (w : VectorWorld P D C) : VectorCall P D C → Option (VectorWorld P D C)
  | .create destructor copier => some (w.putNew (create destructor copier) [])
  | .change v op =>
    (w.vectors v).bind fun vector =>
      (op.run vector).map fun (vector', calls) =>
        w.put v (some vector') (vector.destructorCalls op.stored) calls
  | .assign v other =>
    if v = other then none
    else
      (w.vectors v).bind fun vector => (w.vectors other).bind fun source =>
        (vector.assign copied source w.copied).map fun (vector', copies, calls) =>
          (w.put v (some vector') (vector'.destructorCalls copies) calls).haveCopied copies.length
  | .copy v =>
    (w.vectors v).bind fun vector =>
      (vector.copy copied default w.copied).map fun (result, copies) =>
        (w.putNew result (result.destructorCalls copies)).haveCopied copies.length
  | .destroy v =>
    (w.vectors v).bind fun vector =>
      vector.clear.map fun (_, calls) => w.put v none [] calls

def machine : Machine (VectorWorld P D C) (VectorCall P D C) where
  start := (· = .start)
  next := next copied default

end

def size (w : VectorWorld P D C) (v : Nat) : Nat := (w.vectors v).elim 0 PtrVector.size

/-- No call cuts an index or a size to an `unsigned` that it does not fit in. -/
def Short (w : VectorWorld P D C) : VectorCall P D C → Prop
  | .create _ _ | .destroy _ => True
  | .change v op => op.Short (w.size v)
  | .assign _ other => w.size other ≤ 2 ^ 32
  | .copy v => w.size v < 2 ^ 32

instance decidableShort (w : VectorWorld P D C) :
    (call : VectorCall P D C) → Decidable (w.Short call)
  | .create _ _ | .destroy _ => .isTrue trivial
  | .change v op => inferInstanceAs (Decidable (op.Short (w.size v)))
  | .assign _ other => inferInstanceAs (Decidable (w.size other ≤ 2 ^ 32))
  | .copy v => inferInstanceAs (Decidable (w.size v < 2 ^ 32))

end VectorWorld

/-! ## The same with lists -/

structure ListVector (P D C : Type*) where
  elements : List P
  destructor : Option D
  copier : C

structure ListWorld (P D C : Type*) where
  lists : Nat → Option (ListVector P D C)
  created : Nat
  copied : Nat

namespace ListWorld

def start : ListWorld P D C := ⟨fun _ => none, 0, 0⟩

def put (a : ListWorld P D C) (v : Nat) (list : Option (ListVector P D C)) : ListWorld P D C :=
  { a with lists := Function.update a.lists v list }

def putNew (a : ListWorld P D C) (list : ListVector P D C) : ListWorld P D C :=
  { a.put a.created (some list) with created := a.created + 1 }

def haveCopied (a : ListWorld P D C) (n : Nat) : ListWorld P D C :=
  { a with copied := a.copied + n }

section
variable (copied : C → Nat → Option P → P)

def next (a : ListWorld P D C) : VectorCall P D C → Option (ListWorld P D C)
  | .create destructor copier => some (a.putNew ⟨[], destructor, copier⟩)
  | .change v op =>
    (a.lists v).map fun list => a.put v (some { list with elements := op.onList list.elements })
  | .assign v other =>
    if v = other then none
    else
      (a.lists v).bind fun _ => (a.lists other).map fun source =>
        let elements := copies copied source.copier a.copied source.elements
        (a.put v (some { source with elements })).haveCopied elements.length
  | .copy v =>
    (a.lists v).map fun list =>
      let elements := copies copied list.copier a.copied list.elements
      (a.putNew { list with elements }).haveCopied elements.length
  | .destroy v => (a.lists v).map fun _ => a.put v none

def machine : Machine (ListWorld P D C) (VectorCall P D C) where
  start := (· = .start)
  next := next copied

end

/-- The calls of destructors that there will be when the vector is destroyed. -/
def live (a : ListWorld P D C) (v : Nat) : List (D × P) :=
  (a.lists v).elim [] fun list => callsOf list.destructor list.elements

end ListWorld

/-! ## Refinement -/

/-- What a program sees of a vector is the list. -/
structure PtrVector.Agrees (v : PtrVector P D C) (list : ListVector P D C) : Prop where
  size : v.size = list.elements.length
  elemAt : ∀ off, v.elemAt off = some list.elements[off.toNat]?
  data : ∀ i, i < v.size → v.data.read i = list.elements[i]?
  capacity : v.size ≤ v.capacity
  allocated : v.data.size = v.capacity
  destructor : v.destructor = list.destructor
  copier : v.copier = list.copier
  outside : ∀ off : UInt32, v.size ≤ off.toNat → v.eraseAt off = some (v, [])

structure PtrVector.Represents (v : PtrVector P D C) (list : ListVector P D C) : Prop where
  holds : v.Holds list.elements
  destructor : v.destructor = list.destructor
  copier : v.copier = list.copier

theorem PtrVector.Represents.agrees {v : PtrVector P D C} {list : ListVector P D C}
    (h : v.Represents list) : v.Agrees list where
  size := h.holds.size
  elemAt := h.holds.elemAt
  data _ inside := h.holds.data.read (h.holds.size ▸ inside)
  capacity := h.holds.size ▸ h.holds.length_le
  allocated := h.holds.capacity
  destructor := h.destructor
  copier := h.copier
  outside _ := eraseAt_outside

theorem PtrVector.SameKind.represents {v v' : PtrVector P D C} {l : List P} (h : SameKind v v')
    (holds : v'.Holds l) : v'.Represents ⟨l, v.destructor, v.copier⟩ :=
  ⟨holds, h.destructor, h.copier⟩

namespace VectorWorld

/-- Whatever has been stored in a vector has been passed to its destructor or will be when the
vector is destroyed, and no part of it twice. -/
def Accounted (w : VectorWorld P D C) (a : ListWorld P D C) : Prop :=
  ∀ v, (w.stored v).Perm (w.destroyed v ++ a.live v)

structure Simulates (w : VectorWorld P D C) (a : ListWorld P D C) : Prop where
  vectors : ∀ v, Option.Rel PtrVector.Represents (w.vectors v) (a.lists v)
  created : w.created = a.created
  copied : w.copied = a.copied
  fresh : ∀ v, a.created ≤ v → a.lists v = none
  accounted : w.Accounted a

variable {w : VectorWorld P D C} {a : ListWorld P D C}

theorem start_simulates : (start : VectorWorld P D C).Simulates .start where
  vectors _ := .none
  created := rfl
  copied := rfl
  fresh _ _ := rfl
  accounted _ := List.Perm.refl []

/-- Another vector and another list at the same place. -/
theorem Simulates.vectors_put (h : w.Simulates a) (v : Nat) {vector : Option (PtrVector P D C)}
    {list : Option (ListVector P D C)} (stored calls : List (D × P))
    (same : Option.Rel PtrVector.Represents vector list) (u : Nat) :
    Option.Rel PtrVector.Represents ((w.put v vector stored calls).vectors u)
      ((a.put v list).lists u) := by
  by_cases here : u = v
  · subst here
    simpa [VectorWorld.put, ListWorld.put] using same
  · simpa [VectorWorld.put, ListWorld.put, here] using h.vectors u

theorem Accounted.put (h : w.Accounted a) {v : Nat} (vector : Option (PtrVector P D C))
    {list : Option (ListVector P D C)} {stored calls : List (D × P)}
    (moved : (stored ++ a.live v).Perm (calls ++ (a.put v list).live v)) :
    (w.put v vector stored calls).Accounted (a.put v list) := by
  intro u
  by_cases here : u = v
  · subst here
    have after : (w.stored u ++ stored).Perm (w.destroyed u ++ calls ++ (a.put u list).live u) := by
      calc w.stored u ++ stored
        List.Perm _ (w.destroyed u ++ a.live u ++ stored) := (h u).append_right _
        List.Perm _ (w.destroyed u ++ (stored ++ a.live u)) := by
          rw [List.append_assoc]
          exact List.perm_append_comm.append_left _
        List.Perm _ (w.destroyed u ++ (calls ++ (a.put u list).live u)) := moved.append_left _
        _ = _ := (List.append_assoc _ _ _).symm
    simpa [VectorWorld.put] using after
  · simpa [VectorWorld.put, ListWorld.put, ListWorld.live, here] using h u

theorem Simulates.put (h : w.Simulates a) {v : Nat} {vector : Option (PtrVector P D C)}
    {list : Option (ListVector P D C)} {stored calls : List (D × P)} (old : v < a.created)
    (same : Option.Rel PtrVector.Represents vector list)
    (moved : (stored ++ a.live v).Perm (calls ++ (a.put v list).live v)) :
    (w.put v vector stored calls).Simulates (a.put v list) where
  vectors := h.vectors_put v stored calls same
  created := h.created
  copied := h.copied
  fresh u hu := by
    have other : u ≠ v := fun here => Nat.not_lt.mpr hu (here ▸ old)
    simpa [ListWorld.put, other] using h.fresh u hu
  accounted := h.accounted.put vector moved

theorem Simulates.putNew (h : w.Simulates a) {vector : PtrVector P D C} {list : ListVector P D C}
    (same : vector.Represents list) :
    (w.putNew vector (callsOf list.destructor list.elements)).Simulates (a.putNew list) where
  vectors := by
    have put := h.vectors_put a.created (callsOf list.destructor list.elements) [] (.some same)
    unfold VectorWorld.putNew
    rw [h.created]
    exact put
  created := congrArg (· + 1) h.created
  copied := h.copied
  fresh u hu := by
    have other : u ≠ a.created := Nat.ne_of_gt hu
    simpa [ListWorld.putNew, ListWorld.put, other] using h.fresh u (Nat.le_of_succ_le hu)
  accounted := by
    have none_yet : a.live a.created = [] := by
      rw [ListWorld.live, h.fresh _ (Nat.le_refl _)]
      rfl
    have moved : (callsOf list.destructor list.elements ++ a.live a.created).Perm
        ([] ++ (a.put a.created (some list)).live a.created) := by
      rw [none_yet, List.append_nil]
      simp [ListWorld.live, ListWorld.put]
    have put := h.accounted.put (some vector) moved
    unfold VectorWorld.putNew
    rw [h.created]
    exact put

theorem Simulates.haveCopied (h : w.Simulates a) (n : Nat) :
    (w.haveCopied n).Simulates (a.haveCopied n) :=
  ⟨h.vectors, h.created, congrArg (· + n) h.copied, h.fresh, h.accounted⟩

/-- The vector of a number, and its list. -/
theorem Simulates.at_number (h : w.Simulates a) (v : Nat) :
    (w.vectors v = none ∧ a.lists v = none) ∨ ∃ vector list, w.vectors v = some vector ∧
      a.lists v = some list ∧ vector.Represents list ∧ v < a.created := by
  have rel := h.vectors v
  cases list : a.lists v with
  | none =>
    rw [list] at rel
    generalize w.vectors v = x at rel ⊢
    cases rel
    exact .inl ⟨rfl, rfl⟩
  | some list' =>
    rw [list] at rel
    obtain ⟨vector, at_v, same⟩ := Loop.rel_some_right rel
    refine .inr ⟨vector, list', at_v, rfl, same, ?_⟩
    by_contra new
    rw [h.fresh v (Nat.not_lt.mp new)] at list
    cases list

/-! ## One call -/

theorem live_of_list {v : Nat} {list : ListVector P D C} (h : a.lists v = some list) :
    a.live v = callsOf list.destructor list.elements := by
  rw [ListWorld.live, h]
  rfl

theorem live_put (a : ListWorld P D C) (v : Nat) (list : ListVector P D C) :
    (a.put v (some list)).live v = callsOf list.destructor list.elements :=
  live_of_list (Function.update_self _ _ _)

section
variable (copied : C → Nat → Option P → P) (default : D × C)

theorem Simulates.change (h : w.Simulates a) {v : Nat} {op : VectorOp P}
    (short : op.Short (w.size v)) :
    Option.Rel Simulates (w.next copied default (.change v op)) (a.next copied (.change v op)) := by
  unfold VectorWorld.next ListWorld.next
  dsimp only
  rcases h.at_number v with ⟨gone, gone'⟩ | ⟨vector, list, here, here', same, old⟩
  · rw [gone, gone']
    exact .none
  · rw [VectorWorld.size, here] at short
    obtain ⟨vector', run, holds, kind⟩ := VectorOp.run_refines same.holds short
    rw [here, here', Option.bind_some, run]
    refine .some (h.put old (.some ?_) ?_)
    · have := kind.represents holds
      rwa [same.destructor, same.copier] at this
    · rw [live_put, live_of_list here', destructorCalls, destructorCalls, same.destructor,
        ← callsOf_append, ← callsOf_append]
      exact callsOf_perm _ (VectorOp.onList_perm _ op)

theorem Simulates.assign (h : w.Simulates a) {v other : Nat} (short : w.size other ≤ 2 ^ 32) :
    Option.Rel Simulates (w.next copied default (.assign v other))
      (a.next copied (.assign v other)) := by
  unfold VectorWorld.next ListWorld.next
  dsimp only
  split
  · exact .none
  · rcases h.at_number v with ⟨gone, gone'⟩ | ⟨vector, list, here, here', same, old⟩
    · rw [gone, gone']
      exact .none
    · rcases h.at_number other with ⟨gone, gone'⟩ | ⟨source, list₂, there, there', same₂, -⟩
      · rw [here, here', gone, gone']
        exact .none
      · rw [VectorWorld.size, there] at short
        obtain ⟨vector', assigned, holds, kind⟩ := same.holds.assign copied same₂.holds
          (same₂.holds.size ▸ short) w.copied
        rw [here, here', there, there', Option.bind_some, Option.bind_some, Option.bind_some,
          assigned]
        have represents := kind.represents holds
        rw [same₂.destructor, same₂.copier, h.copied] at represents
        rw [same₂.copier, h.copied]
        refine .some ((h.put old (.some represents) ?_).haveCopied _)
        rw [live_put, live_of_list here', destructorCalls, destructorCalls, same.destructor,
          represents.destructor]
        exact List.perm_append_comm

theorem Simulates.copy (h : w.Simulates a) {v : Nat} (short : w.size v < 2 ^ 32) :
    Option.Rel Simulates (w.next copied default (.copy v)) (a.next copied (.copy v)) := by
  unfold VectorWorld.next ListWorld.next
  dsimp only
  rcases h.at_number v with ⟨gone, gone'⟩ | ⟨vector, list, here, here', same, -⟩
  · rw [gone, gone']
    exact .none
  · rw [VectorWorld.size, here] at short
    obtain ⟨result, copy, holds, kind⟩ := same.holds.copy copied
      (same.holds.size ▸ short) default w.copied
    rw [here, here', Option.bind_some, copy]
    have represents := kind.represents holds
    rw [same.destructor, same.copier] at represents
    rw [same.copier, h.copied]
    rw [h.copied] at represents
    refine .some (Simulates.haveCopied ?_ _)
    rw [destructorCalls, represents.destructor]
    exact h.putNew represents

theorem Simulates.destroy (h : w.Simulates a) (v : Nat) :
    Option.Rel Simulates (w.next copied default (.destroy v)) (a.next copied (.destroy v)) := by
  unfold VectorWorld.next ListWorld.next
  dsimp only
  rcases h.at_number v with ⟨gone, gone'⟩ | ⟨vector, list, here, here', same, old⟩
  · rw [gone, gone']
    exact .none
  · obtain ⟨cleared, clear, -, -⟩ := same.holds.clear
    rw [here, here', Option.bind_some, clear]
    refine .some (h.put old .none ?_)
    rw [live_of_list here', destructorCalls, same.destructor]
    simp [ListWorld.live, ListWorld.put]

theorem Simulates.next (h : w.Simulates a) {call : VectorCall P D C} (short : w.Short call) :
    Option.Rel Simulates (w.next copied default call) (a.next copied call) := by
  cases call with
  | create destructor copier =>
    have new :
        Represents (create destructor copier) (⟨[], destructor, copier⟩ : ListVector P D C) :=
      ⟨create_holds destructor copier, rfl, rfl⟩
    have put := h.putNew new
    rw [callsOf_nil] at put
    exact .some put
  | change v op => exact h.change copied default short
  | assign v other => exact h.assign copied default short
  | copy v => exact h.copy copied default short
  | destroy v => exact h.destroy copied default v

/-- The program does with its vectors what it would do with lists. -/
theorem run_simulates {calls : List (VectorCall P D C)}
    (h : (machine copied default).Run Short calls w) :
    ∃ a, (ListWorld.machine copied).after .start calls = some a ∧ w.Simulates a := by
  refine h.history (fun calls w => ∃ a, (ListWorld.machine copied).after .start calls = some a ∧
    w.Simulates a) ?_ ?_
  · rintro w rfl
    exact ⟨.start, rfl, start_simulates⟩
  · rintro calls w call w' ⟨a, after, simulates⟩ short next
    have step := simulates.next copied default short
    rw [show w.next copied default call = some w' from next] at step
    obtain ⟨a', next', simulates'⟩ := Loop.rel_some_left step
    refine ⟨a', ?_, simulates'⟩
    rw [Machine.after_snoc, after]
    exact next'

end

end VectorWorld

/-- As long as no index or size is cut, a program with vectors does what it would do with lists,
each call has a result where the one on lists has, without an access outside of the allocated
data, and what has been stored is passed to the destructor once. -/
theorem vectors_refineLists (copied : C → Nat → Option P → P) (default : D × C)
    (calls : List (VectorCall P D C)) (w : VectorWorld P D C)
    (h : (VectorWorld.machine copied default).Run VectorWorld.Short calls w) :
    ∃ a, (ListWorld.machine copied).after .start calls = some a ∧
      (∀ v, Option.Rel PtrVector.Agrees (w.vectors v) (a.lists v)) ∧ w.Accounted a ∧
      ∀ call, w.Short call →
        ((w.next copied default call).isSome ↔ (a.next copied call).isSome) := by
  obtain ⟨a, after, simulates⟩ := VectorWorld.run_simulates copied default h
  refine ⟨a, after, fun v => ?_, simulates.accounted, fun call short => ?_⟩
  · rcases simulates.at_number v with ⟨gone, gone'⟩ | ⟨vector, list, here, here', same, -⟩
    · rw [gone, gone']
      exact .none
    · rw [here, here']
      exact .some same.agrees
  · have step := simulates.next copied default short
    generalize w.next copied default call = x at step ⊢
    generalize a.next copied call = y at step ⊢
    cases step with
    | none => exact Iff.rfl
    | some => exact iff_of_true rfl rfl

theorem vectors_refineLists_popped : ∃ w a,
    (VectorWorld.machine (fun _ n _ => n) ((), ())).after .start
      [.create (some ()) (), .change 0 (.pushBack 7), .copy 0, .change 0 .popBack] = some w ∧
    (ListWorld.machine fun _ n _ => n).after .start
      [.create (some ()) (), .change 0 (.pushBack 7), .copy 0, .change 0 .popBack] = some a ∧
    (∀ v, Option.Rel PtrVector.Agrees (w.vectors v) (a.lists v)) ∧ w.Accounted a := by
  have short : (VectorWorld.machine (fun _ n _ => n) ((), ())).AllowedAlong VectorWorld.Short .start
      [.create (some ()) (), .change 0 (.pushBack 7), .copy 0, .change 0 .popBack] := by
    decide
  have run := Machine.run_of_after (show (VectorWorld.machine _ _).start .start from rfl) short rfl
  obtain ⟨a, onLists, agrees, accounted, -⟩ := vectors_refineLists _ _ _ _ run
  exact ⟨_, a, rfl, onLists, agrees, accounted⟩

/-! ## Too long for an `unsigned` -/

/-- The counter of the loop never gets to the size. -/
theorem PtrVector.copyRounds_large {copied : C → Nat → Option P → P} {v : PtrVector P D C}
    (large : 2 ^ 32 ≤ v.size) (n fuel : Nat) (s : PtrVector P D C × List P × UInt32) :
    Loop.run (copyRound copied v n) fuel s = none := by
  induction fuel generalizing s with
  | zero => rfl
  | succ fuel ih =>
    obtain ⟨result, made, i⟩ := s
    have inside : i.toNat < v.size := Nat.lt_of_lt_of_le i.toNat_lt large
    unfold Loop.run
    simp only [copyRound, inside, ↓reduceIte]
    split
    · rfl
    · exact ih _
    · rename_i r ended
      obtain ⟨p, -, pushed⟩ := Option.bind_eq_some_iff.mp ended
      obtain ⟨_, -, next⟩ := Option.map_eq_some_iff.mp pushed
      cases next

/-- A vector of the numbers below `n`. -/
def numberCalls (n : Nat) : List (VectorCall Nat Unit Unit) :=
  .create (some ()) () :: (List.range n).map fun i => .change 0 (.pushBack i)

theorem numberCalls_succ (n : Nat) :
    numberCalls (n + 1) = numberCalls n ++ [.change 0 (.pushBack n)] := by
  unfold numberCalls
  rw [List.range_succ, List.map_append]
  rfl

theorem numbers_represented (copied : Unit → Nat → Option Nat → Nat) (n : Nat) :
    ∃ w a, (VectorWorld.machine copied ((), ())).Run Machine.Any (numberCalls n) w ∧
      (ListWorld.machine copied).after .start (numberCalls n) = some a ∧ w.Simulates a ∧
      a.lists 0 = some ⟨List.range n, some (), ()⟩ := by
  induction n with
  | zero =>
    have short : (VectorWorld.start : VectorWorld Nat Unit Unit).Short (.create (some ()) ()) :=
      trivial
    have step := VectorWorld.start_simulates.next copied ((), ()) short
    obtain ⟨w, next, simulates⟩ := Loop.rel_some_right step
    exact ⟨w, _, (Machine.Run.start rfl).step trivial next, rfl, simulates, rfl⟩
  | succ n ih =>
    obtain ⟨w, a, run, after, simulates, list⟩ := ih
    have short : w.Short (.change 0 (.pushBack n)) := trivial
    have step := simulates.next copied ((), ()) short
    have next : a.next copied (.change 0 (.pushBack n)) =
        some (a.put 0 (some ⟨List.range (n + 1), some (), ()⟩)) := by
      rw [ListWorld.next, list, List.range_succ]
      rfl
    rw [next] at step
    obtain ⟨w', next', simulates'⟩ := Loop.rel_some_right step
    rw [numberCalls_succ]
    have here : (a.put 0 (some ⟨List.range (n + 1), some (), ()⟩)).lists 0 =
        some ⟨List.range (n + 1), some (), ()⟩ := by
      simp [ListWorld.put]
    refine ⟨w', _, run.step trivial next', ?_, simulates', here⟩
    rw [Machine.after_snoc, after]
    exact next

/-- The last index is cut to that of the first element. -/
theorem PtrVector.Holds.popBack_cut {v : PtrVector P D C} {l : List P} (h : v.Holds l)
    (long : l.length = 2 ^ 32 + 1) :
    ∃ v' calls, v.popBack = some (v', calls) ∧ v'.Holds (l.eraseIdx 0) := by
  obtain ⟨v', erased, holds, -⟩ := h.eraseAt 0
  have last : UInt32.ofNat (l.length - 1) = 0 := by
    rw [long]
    rfl
  refine ⟨v', v.destructorCalls l[(0 : UInt32).toNat]?.toList, ?_, holds⟩
  unfold PtrVector.popBack
  rw [h.size, if_pos (by omega), last, erased]

theorem second_of_erased {n : Nat} (many : 1 < n) :
    ((List.range n).eraseIdx 0)[(0 : UInt32).toNat]? = some 1 := by
  rw [UInt32.toNat_zero, List.getElem?_eraseIdx, if_neg (by decide), List.getElem?_range many]

theorem first_of_dropLast {n : Nat} (many : 1 < n) :
    (List.range n).dropLast[(0 : UInt32).toNat]? = some 0 := by
  rw [UInt32.toNat_zero, List.getElem?_dropLast, List.length_range, if_pos (by omega),
    List.getElem?_range (by omega)]

/-- The last of 2 ^ 32 + 1 elements is to go, and the first one does. -/
theorem popBack_takesFirst : ∃ (calls : List (VectorCall Nat Unit Unit))
    (w : VectorWorld Nat Unit Unit) (a : ListWorld Nat Unit Unit),
    (VectorWorld.machine (fun _ _ p => p.getD 0) ((), ())).Run Machine.Any calls w ∧
      (ListWorld.machine fun _ _ p => p.getD 0).after .start calls = some a ∧
      ¬ ∀ v, Option.Rel PtrVector.Agrees (w.vectors v) (a.lists v) := by
  obtain ⟨n, long⟩ : ∃ n : Nat, n = 2 ^ 32 + 1 := ⟨_, rfl⟩
  obtain ⟨w, a, run, after, simulates, list⟩ := numbers_represented (fun _ _ p => p.getD 0) n
  obtain ⟨vector, here, same⟩ := Loop.rel_some_right (list ▸ simulates.vectors 0)
  obtain ⟨popped, calls, pop, holds⟩ := same.holds.popBack_cut (by rw [List.length_range, long])
  have next : w.next (fun _ _ p => p.getD 0) ((), ()) (.change 0 .popBack) =
      some (w.put 0 (some popped) (vector.destructorCalls []) calls) := by
    rw [VectorWorld.next, here, Option.bind_some, VectorOp.run, pop]
    rfl
  have next' : a.next (fun _ _ p => p.getD 0) (.change 0 .popBack) =
      some (a.put 0 (some ⟨(List.range n).dropLast, some (), ()⟩)) := by
    rw [ListWorld.next, list]
    rfl
  have popRun : (VectorWorld.machine (fun _ _ p => p.getD 0) ((), ())).Run Machine.Any
      (numberCalls n ++ [.change 0 .popBack])
      (w.put 0 (some popped) (vector.destructorCalls []) calls) := run.step trivial next
  refine ⟨_, _, a.put 0 (some ⟨(List.range n).dropLast, some (), ()⟩), popRun, ?_,
    fun agrees => ?_⟩
  · rw [Machine.after_snoc, after]
    exact next'
  · have both := agrees 0
    simp only [VectorWorld.put, ListWorld.put, Function.update_self] at both
    cases both with
    | some agree =>
      have read := agree.elemAt 0
      rw [holds.elemAt, second_of_erased (by omega), first_of_dropLast (by omega)] at read
      cases read

end Yella
