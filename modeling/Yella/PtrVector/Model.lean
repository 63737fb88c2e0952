import Yella.Lib.Buffer
import Yella.Lib.Loop
import Yella.Lib.Rounding

/-!
# Vectors of pointers

`ptr_vector.c`. Elements, destructors and copiers (each with its user data) are of any types. A
result of `none` is an access outside of the allocated data, or a loop that has not ended within
the given rounds. What the debug build keeps to find leaks is left out.
-/

namespace Yella

/-- `yella_ptr_vector`. A destructor of `none` is NULL. -/
structure PtrVector (P D C : Type*) where
  data : Buffer P
  size : Nat
  capacity : Nat
  destructor : Option D
  copier : C

namespace PtrVector

variable {P D C : Type*}

/-- `capacity * 1.5`, a product of `double`s that is cut to a `size_t`. -/
def grownCapacity (capacity : Nat) : Nat :=
  Rounding.toPrecision 53 (3 * Rounding.toPrecision 53 capacity) / 2

/-- `yella_create_ptr_vector`, and the functions that set the destructor and the copier. -/
def create (destructor : Option D) (copier : C) : PtrVector P D C where
  data := Buffer.malloc 20
  size := 0
  capacity := 20
  destructor := destructor
  copier := copier

/-- The start of both functions that push. -/
def makeRoom (v : PtrVector P D C) : PtrVector P D C :=
  if v.size = v.capacity then
    let capacity := grownCapacity v.capacity
    { v with capacity, data := v.data.realloc capacity }
  else v

def pushBack (v : PtrVector P D C) (p : P) : Option (PtrVector P D C) :=
  let v := v.makeRoom
  (v.data.write v.size p).map fun data => { v with data, size := v.size + 1 }

def pushFront (v : PtrVector P D C) (p : P) : Option (PtrVector P D C) :=
  let v := v.makeRoom
  (v.data.move 1 0 v.size).bind fun data =>
    (data.write 0 p).map fun data => { v with data, size := v.size + 1 }

/-- The calls of a destructor for these elements. -/
def callsOf : Option D → List P → List (D × P)
  | none, _ => []
  | some d, ps => ps.map fun p => (d, p)

def destructorCalls (v : PtrVector P D C) (ps : List P) : List (D × P) := callsOf v.destructor ps

/-- `yella_erase_ptr_vector_at`, with the calls of the destructor. -/
def eraseAt (v : PtrVector P D C) (off : UInt32) : Option (PtrVector P D C × List (D × P)) :=
  if off.toNat < v.size then
    (if v.destructor.isSome then (v.data.read off.toNat).map fun p => [p] else some []).bind
      fun ps =>
    let size := v.size - 1
    let toMove := size - off.toNat
    (if 0 < toMove then v.data.move off.toNat (off.toNat + 1) toMove else some v.data).map
      fun data => ({ v with data, size }, v.destructorCalls ps)
  else some (v, [])

def popBack (v : PtrVector P D C) : Option (PtrVector P D C × List (D × P)) :=
  if 0 < v.size then v.eraseAt (UInt32.ofNat (v.size - 1)) else some (v, [])

def popFront (v : PtrVector P D C) : Option (PtrVector P D C × List (D × P)) :=
  if 0 < v.size then v.eraseAt 0 else some (v, [])

def clear (v : PtrVector P D C) : Option (PtrVector P D C × List (D × P)) :=
  (if v.destructor.isSome then (List.range v.size).mapM v.data.read else some []).map
    fun ps => ({ v with size := 0 }, v.destructorCalls ps)

/-- `yella_ptr_vector_at`, where `some none` is NULL. -/
def elemAt (v : PtrVector P D C) (off : UInt32) : Option (Option P) :=
  if off.toNat < v.size then (v.data.read off.toNat).map some else some none

section
variable (copied : C → Nat → Option P → P)

/-- `yella_ptr_vector_at_copy`, as the `n`-th call of a copier. -/
def atCopy (v : PtrVector P D C) (n : Nat) (off : UInt32) : Option P :=
  (v.elemAt off).map (copied v.copier n)

/-- A round of the loop of `yella_assign_ptr_vector`, with the copies that have been made. -/
def assignRound (other : PtrVector P D C) (n : Nat) (s : PtrVector P D C × List P) (i : Nat) :
    Option (PtrVector P D C × List P) :=
  (other.atCopy copied (n + s.2.length) (UInt32.ofNat i)).bind fun p =>
    (s.1.pushBack p).map fun v => (v, s.2 ++ [p])

/-- `yella_assign_ptr_vector`, with the copies that have been made and the calls of the
destructor. -/
def assign (v other : PtrVector P D C) (n : Nat) :
    Option (PtrVector P D C × List P × List (D × P)) :=
  v.clear.bind fun (v, calls) =>
    let v := { v with destructor := other.destructor, copier := other.copier }
    ((List.range other.size).foldlM (assignRound copied other n) (v, [])).map
      fun (v, copies) => (v, copies, calls)

/-- A round of the loop of `yella_copy_ptr_vector`, whose counter is an `unsigned`. -/
def copyRound (v : PtrVector P D C) (n : Nat) (s : PtrVector P D C × List P × UInt32) :
    Option ((PtrVector P D C × List P × UInt32) ⊕ (PtrVector P D C × List P)) :=
  let (result, copies, i) := s
  if i.toNat < v.size then
    (v.atCopy copied (n + copies.length) i).bind fun p =>
      (result.pushBack p).map fun result => .inl (result, copies ++ [p], i + 1)
  else some (.inr (result, copies))

/-- `yella_copy_ptr_vector`, with the copies that have been made. The new vector has the default
destructor and copier until the loop has ended. -/
def copy (v : PtrVector P D C) (default : D × C) (n : Nat) :
    Option (PtrVector P D C × List P) :=
  (Loop.run (copyRound copied v n) (v.size + 1) (create (some default.1) default.2, [], 0)).map
    fun (result, copies) =>
      ({ result with destructor := v.destructor, copier := v.copier }, copies)

end

end PtrVector

end Yella
