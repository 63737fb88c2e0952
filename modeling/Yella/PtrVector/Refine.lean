import Mathlib.Data.List.Basic
import Yella.PtrVector.Model

/-!
# Vectors as lists

What each function of `ptr_vector.c` does to the list of the elements.
-/

namespace Yella.PtrVector

variable {P D C : Type*} {v v' other : PtrVector P D C} {l m : List P} {p : P} {n : Nat}

/-- The data starts with these elements, and has the room that the capacity says. -/
structure Holds (v : PtrVector P D C) (l : List P) : Prop where
  size : v.size = l.length
  data : v.data.Holds l
  capacity : v.data.size = v.capacity
  large : 2 ≤ v.capacity

/-- The functions of the vector are the same. -/
structure SameKind (v v' : PtrVector P D C) : Prop where
  destructor : v'.destructor = v.destructor
  copier : v'.copier = v.copier

theorem SameKind.refl (v : PtrVector P D C) : SameKind v v := ⟨rfl, rfl⟩

theorem SameKind.trans {w : PtrVector P D C} (h : SameKind v v') (h' : SameKind v' w) :
    SameKind v w :=
  ⟨h'.destructor.trans h.destructor, h'.copier.trans h.copier⟩

theorem callsOf_nil (destructor : Option D) : callsOf destructor ([] : List P) = [] := by
  cases destructor <;> rfl

theorem callsOf_append (destructor : Option D) (ps qs : List P) :
    callsOf destructor (ps ++ qs) = callsOf destructor ps ++ callsOf destructor qs := by
  cases destructor with
  | none => rfl
  | some d => exact List.map_append

theorem callsOf_perm (destructor : Option D) {ps qs : List P} (h : ps.Perm qs) :
    (callsOf destructor ps).Perm (callsOf destructor qs) := by
  cases destructor with
  | none => exact List.Perm.refl []
  | some d => exact h.map _

theorem Holds.length_le (h : v.Holds l) : l.length ≤ v.capacity := by
  rw [← h.capacity]
  exact h.data.length_le

/-- The product is exact for small capacities, and for large ones the rounding takes away less
than the growth. -/
theorem lt_grownCapacity {capacity : Nat} (large : 2 ≤ capacity) :
    capacity < grownCapacity capacity := by
  unfold grownCapacity
  by_cases small : capacity < 2 ^ 51
  · rw [Rounding.toPrecision_of_dvd (p := 53) (k := 0) (n := capacity) (by simp) (by omega),
      Rounding.toPrecision_of_dvd (k := 0) (by simp) (by omega)]
    omega
  · have factor := Rounding.le_toPrecision (p := 53) (n := capacity) (by decide)
    have product := Rounding.le_toPrecision (p := 53) (n := 3 * Rounding.toPrecision 53 capacity)
      (by decide)
    omega

theorem create_holds (destructor : Option D) (copier : C) :
    (create destructor copier : PtrVector P D C).Holds [] where
  size := rfl
  data := Buffer.holds_nil _
  capacity := Buffer.size_malloc 20
  large := by
    show 2 ≤ 20
    decide

/-! ## Pushing -/

theorem Holds.makeRoom (h : v.Holds l) :
    v.makeRoom.Holds l ∧ SameKind v v.makeRoom ∧ l.length < v.makeRoom.data.size := by
  have more := lt_grownCapacity h.large
  have fits := h.length_le
  have len := h.size
  unfold PtrVector.makeRoom
  split
  · have data := h.data.realloc (n := grownCapacity v.capacity) (by omega)
    have size := Buffer.size_realloc v.data (grownCapacity v.capacity)
    exact ⟨⟨h.size, data, size, Nat.le_of_lt (Nat.lt_of_le_of_lt h.large more)⟩, ⟨rfl, rfl⟩,
      by dsimp only; omega⟩
  · rename_i room
    exact ⟨h, .refl v, by rw [h.capacity]; omega⟩

theorem Holds.pushBack (h : v.Holds l) (p : P) :
    ∃ v', v.pushBack p = some v' ∧ v'.Holds (l ++ [p]) ∧ SameKind v v' := by
  obtain ⟨roomy, same, room⟩ := h.makeRoom
  obtain ⟨data, written, holds, size⟩ := roomy.data.write_end room p
  unfold PtrVector.pushBack
  dsimp only
  rw [roomy.size, written]
  refine ⟨_, rfl, ⟨?_, holds, size.trans roomy.capacity, roomy.large⟩, same.destructor, same.copier⟩
  rw [List.length_append]
  rfl

theorem Holds.pushFront (h : v.Holds l) (p : P) :
    ∃ v', v.pushFront p = some v' ∧ v'.Holds (p :: l) ∧ SameKind v v' := by
  obtain ⟨roomy, same, room⟩ := h.makeRoom
  obtain ⟨moved, data, move, written, holds, size⟩ := roomy.data.shift room p
  unfold PtrVector.pushFront
  dsimp only
  rw [roomy.size, move, Option.bind_some, written]
  exact ⟨_, rfl, ⟨rfl, holds, size.trans roomy.capacity, roomy.large⟩, same.destructor, same.copier⟩

/-! ## Removing -/

theorem Holds.elemAt (h : v.Holds l) (off : UInt32) : v.elemAt off = some l[off.toNat]? := by
  unfold PtrVector.elemAt
  rw [h.size]
  split
  · rename_i inside
    rw [h.data.read inside, List.getElem?_eq_getElem inside]
    rfl
  · rename_i outside
    rw [List.getElem?_eq_none (Nat.not_lt.mp outside)]

/-- The element goes to the destructor, if the vector has one. -/
theorem Holds.read_destroyed (h : v.Holds l) {i : Nat} (inside : i < l.length) :
    ((if v.destructor.isSome then (v.data.read i).map fun p => [p] else some []).map
      v.destructorCalls) = some (v.destructorCalls l[i]?.toList) := by
  rw [h.data.read inside, List.getElem?_eq_getElem inside]
  unfold destructorCalls
  cases v.destructor with
  | none => rfl
  | some d => rfl

/-- The data after the move, and none is needed for the last element. -/
theorem Holds.closed (h : v.Holds l) {i : Nat} (inside : i < l.length) :
    ∃ data, (if 0 < l.length - 1 - i then v.data.move i (i + 1) (l.length - 1 - i)
      else some v.data) = some data ∧ data.Holds (l.eraseIdx i) ∧ data.size = v.data.size := by
  split
  · exact h.data.close inside
  · rename_i last
    exact ⟨v.data, rfl, h.data.eraseIdx_last (Nat.eq_zero_of_not_pos last), rfl⟩

theorem Holds.eraseAt (h : v.Holds l) (off : UInt32) :
    ∃ v', v.eraseAt off = some (v', v.destructorCalls l[off.toNat]?.toList) ∧
      v'.Holds (l.eraseIdx off.toNat) ∧ SameKind v v' := by
  unfold PtrVector.eraseAt
  rw [h.size]
  split
  · rename_i inside
    obtain ⟨ps, read, calls⟩ := Option.map_eq_some_iff.mp (h.read_destroyed inside)
    obtain ⟨data, moved, holds, size⟩ := h.closed inside
    rw [read, Option.bind_some]
    dsimp only
    rw [moved, ← calls]
    refine ⟨_, rfl, ⟨?_, holds, size.trans h.capacity, h.large⟩, rfl, rfl⟩
    rw [List.length_eraseIdx_of_lt inside]
  · rename_i outside
    rw [List.getElem?_eq_none (Nat.not_lt.mp outside),
      List.eraseIdx_of_length_le (Nat.not_lt.mp outside)]
    refine ⟨v, ?_, h, .refl v⟩
    rw [Option.toList_none, destructorCalls, callsOf_nil]

/-- Nothing changes when the index is out of range. -/
theorem eraseAt_outside {off : UInt32} (outside : v.size ≤ off.toNat) :
    v.eraseAt off = some (v, []) := if_neg (Nat.not_lt.mpr outside)

theorem Holds.popBack (h : v.Holds l) (small : l.length ≤ 2 ^ 32) :
    ∃ v', v.popBack = some (v', v.destructorCalls l.getLast?.toList) ∧ v'.Holds l.dropLast ∧
      SameKind v v' := by
  have off : (UInt32.ofNat (l.length - 1)).toNat = l.length - 1 :=
    UInt32.toNat_ofNat_of_lt' (show l.length - 1 < 2 ^ 32 by omega)
  have last := h.eraseAt (UInt32.ofNat (l.length - 1))
  rw [off, ← List.getLast?_eq_getElem?, List.eraseIdx_length_sub_one] at last
  unfold PtrVector.popBack
  rw [h.size]
  split
  · exact last
  · rename_i empty
    obtain rfl := List.eq_nil_of_length_eq_zero (Nat.eq_zero_of_not_pos empty)
    refine ⟨v, ?_, h, .refl v⟩
    rw [List.getLast?_nil, Option.toList_none, destructorCalls, callsOf_nil]

theorem Holds.popFront (h : v.Holds l) :
    ∃ v', v.popFront = some (v', v.destructorCalls l.head?.toList) ∧ v'.Holds l.tail ∧
      SameKind v v' := by
  have first := h.eraseAt 0
  rw [UInt32.toNat_zero, ← List.head?_eq_getElem?, List.eraseIdx_zero] at first
  unfold PtrVector.popFront
  rw [h.size]
  split
  · exact first
  · rename_i empty
    obtain rfl := List.eq_nil_of_length_eq_zero (Nat.eq_zero_of_not_pos empty)
    refine ⟨v, ?_, h, .refl v⟩
    rw [List.head?_nil, Option.toList_none, destructorCalls, callsOf_nil]

theorem Holds.clear (h : v.Holds l) :
    ∃ v', v.clear = some (v', v.destructorCalls l) ∧ v'.Holds [] ∧ SameKind v v' := by
  have calls : (if v.destructor.isSome then (List.range v.size).mapM v.data.read else some []).map
      v.destructorCalls = some (v.destructorCalls l) := by
    rw [h.size, h.data.mapM_read]
    unfold destructorCalls
    cases v.destructor <;> rfl
  obtain ⟨ps, read, calls⟩ := Option.map_eq_some_iff.mp calls
  unfold PtrVector.clear
  rw [read, ← calls]
  exact ⟨_, rfl, ⟨rfl, Buffer.holds_nil _, h.capacity, h.large⟩, rfl, rfl⟩

/-! ## Copying -/

section
variable (copied : C → Nat → Option P → P)

/-- What the calls of a copier from the `n`-th on give for these elements. -/
def copies (copier : C) (n : Nat) (l : List P) : List P :=
  l.mapIdx fun i p => copied copier (n + i) (some p)

theorem length_copies (copier : C) (n : Nat) (l : List P) :
    (copies copied copier n l).length = l.length := List.length_mapIdx

theorem copies_take_succ (copier : C) (n : Nat) {i : Nat} (inside : i < l.length) :
    copies copied copier n (l.take (i + 1)) =
      copies copied copier n (l.take i) ++ [copied copier (n + i) l[i]?] := by
  unfold copies
  rw [List.take_succ_eq_append_getElem inside, List.mapIdx_append, List.getElem?_eq_getElem inside]
  simp [Nat.min_eq_left (Nat.le_of_lt inside)]

theorem Holds.atCopy (h : v.Holds l) (n : Nat) (off : UInt32) :
    v.atCopy copied n off = some (copied v.copier n l[off.toNat]?) := by
  unfold PtrVector.atCopy
  rw [h.elemAt]
  rfl

/-- The loop of `assign`, after its first `k` rounds. -/
theorem Holds.assignRounds (h : other.Holds m) (small : m.length ≤ 2 ^ 32) (hv : v.Holds [])
    (n : Nat) {k : Nat} (hk : k ≤ m.length) :
    ∃ v', (List.range k).foldlM (assignRound copied other n) (v, []) =
        some (v', copies copied other.copier n (m.take k)) ∧
      v'.Holds (copies copied other.copier n (m.take k)) ∧ SameKind v v' := by
  induction k with
  | zero => exact ⟨v, rfl, hv, .refl v⟩
  | succ k ih =>
    obtain ⟨before, rounds, holds, same⟩ := ih (Nat.le_of_succ_le hk)
    obtain ⟨v', pushed, holds', same'⟩ := holds.pushBack (copied other.copier (n + k) m[k]?)
    refine ⟨v', ?_, copies_take_succ copied other.copier n hk ▸ holds', same.trans same'⟩
    have off : (UInt32.ofNat k).toNat = k :=
      UInt32.toNat_ofNat_of_lt' (show k < 2 ^ 32 by omega)
    have made : (copies copied other.copier n (m.take k)).length = k := by
      rw [length_copies, List.length_take_of_le (Nat.le_of_succ_le hk)]
    rw [List.range_succ, List.foldlM_append, rounds, copies_take_succ _ _ _ hk]
    simp [assignRound, h.atCopy, made, off, pushed]

theorem Holds.assign (h : v.Holds l) (hother : other.Holds m) (small : m.length ≤ 2 ^ 32)
    (n : Nat) :
    ∃ v', v.assign copied other n =
        some (v', copies copied other.copier n m, v.destructorCalls l) ∧
      v'.Holds (copies copied other.copier n m) ∧ SameKind other v' := by
  obtain ⟨cleared, clear, holds, -⟩ := h.clear
  have switched : Holds { cleared with destructor := other.destructor, copier := other.copier }
      ([] : List P) := ⟨holds.size, holds.data, holds.capacity, holds.large⟩
  obtain ⟨v', rounds, holds', same⟩ :=
    hother.assignRounds copied small switched n (Nat.le_refl _)
  rw [List.take_length] at rounds holds'
  refine ⟨v', ?_, holds', same.destructor, same.copier⟩
  unfold PtrVector.assign
  rw [clear, Option.bind_some]
  dsimp only
  rw [hother.size, rounds]
  rfl

/-- The loop of `copy` from its round `i` on. -/
theorem Holds.copyRounds (h : v.Holds l) (small : l.length < 2 ^ 32) (n : Nat)
    {result : PtrVector P D C} {i rounds : Nat} (hi : i + rounds = l.length)
    (hr : result.Holds (copies copied v.copier n (l.take i))) :
    ∃ v', Loop.run (copyRound copied v n) (rounds + 1)
        (result, copies copied v.copier n (l.take i), UInt32.ofNat i) =
        some (v', copies copied v.copier n l) ∧
      v'.Holds (copies copied v.copier n l) := by
  have off : (UInt32.ofNat i).toNat = i := UInt32.toNat_ofNat_of_lt' (show i < 2 ^ 32 by omega)
  induction rounds generalizing result i with
  | zero =>
    obtain rfl : i = l.length := hi
    rw [List.take_length] at hr ⊢
    refine ⟨result, ?_, hr⟩
    simp [Loop.run, copyRound, off, h.size]
  | succ rounds ih =>
    have inside : i < l.length := by omega
    have made : (copies copied v.copier n (l.take i)).length = i := by
      rw [length_copies, List.length_take_of_le (Nat.le_of_lt inside)]
    obtain ⟨next, pushed, holds, -⟩ := hr.pushBack (copied v.copier (n + i) l[i]?)
    rw [← copies_take_succ _ _ _ inside] at holds
    obtain ⟨v', rest, holds'⟩ := ih (i := i + 1) (by omega) holds
      (UInt32.toNat_ofNat_of_lt' (show i + 1 < 2 ^ 32 by omega))
    refine ⟨v', ?_, holds'⟩
    rw [copies_take_succ _ _ _ inside, UInt32.ofNat_add] at rest
    rw [Loop.run]
    simp only [copyRound, off, h.size, inside, ↓reduceIte, h.atCopy, made, Option.bind_some, pushed,
      Option.map_some]
    exact rest

theorem Holds.copy (h : v.Holds l) (small : l.length < 2 ^ 32) (default : D × C) (n : Nat) :
    ∃ v', v.copy copied default n = some (v', copies copied v.copier n l) ∧
      v'.Holds (copies copied v.copier n l) ∧ SameKind v v' := by
  obtain ⟨result, rounds, holds⟩ := h.copyRounds copied small n
    (Nat.zero_add l.length) (create_holds (some default.1) default.2)
  unfold PtrVector.copy
  rw [h.size]
  have rounds' : Loop.run (copyRound copied v n) (l.length + 1)
    (create (some default.1) default.2, [], 0) = some (result, copies copied v.copier n l) := rounds
  rw [rounds']
  exact ⟨_, rfl, ⟨holds.size, holds.data, holds.capacity, holds.large⟩, rfl, rfl⟩

end

end Yella.PtrVector
