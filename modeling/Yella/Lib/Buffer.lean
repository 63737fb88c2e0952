import Mathlib.Data.List.Induction

/-!
# Allocated blocks

A block of memory with room for so many elements. Reads and writes are checked: there is no result
outside of the block, nor for a cell that has not been written.
-/

structure Buffer (α : Type*) where
  cells : List (Option α)
  deriving DecidableEq, Repr

namespace Buffer

variable {α : Type*}

def malloc (n : Nat) : Buffer α := ⟨List.replicate n none⟩

def size (b : Buffer α) : Nat := b.cells.length

def realloc (b : Buffer α) (n : Nat) : Buffer α :=
  ⟨b.cells.take n ++ List.replicate (n - b.size) none⟩

def read (b : Buffer α) (i : Nat) : Option α := (b.cells[i]?).join

def write (b : Buffer α) (i : Nat) (a : α) : Option (Buffer α) :=
  if i < b.size then some ⟨b.cells.set i (some a)⟩ else none

/-- `memmove` of `n` cells from `src` to `dst`. -/
def move (b : Buffer α) (dst src n : Nat) : Option (Buffer α) :=
  if dst + n ≤ b.size ∧ src + n ≤ b.size then
    some ⟨b.cells.take dst ++ (b.cells.drop src).take n ++ b.cells.drop (dst + n)⟩
  else none

/-- A copy of elements that lie elsewhere. -/
def writeAll (b : Buffer α) (i : Nat) (l : List α) : Option (Buffer α) :=
  if i + l.length ≤ b.size then
    some ⟨b.cells.take i ++ l.map some ++ b.cells.drop (i + l.length)⟩
  else none

/-- `memcpy` of the first `n` cells of another block. -/
def copy (b src : Buffer α) (n : Nat) : Option (Buffer α) :=
  if n ≤ b.size ∧ n ≤ src.size then some ⟨src.cells.take n ++ b.cells.drop n⟩ else none

/-- The block starts with these elements. -/
def Holds (b : Buffer α) (l : List α) : Prop := ∃ rest, b.cells = l.map some ++ rest

section
variable {b b' : Buffer α} {l m : List α} {a : α} {i n : Nat}

theorem size_malloc (n : Nat) : (malloc n : Buffer α).size = n := List.length_replicate

theorem size_realloc (b : Buffer α) (n : Nat) : (b.realloc n).size = n := by
  simp only [size, realloc, List.length_append, List.length_take, List.length_replicate]
  omega

theorem write_of_lt (inside : i < b.size) (a : α) :
    b.write i a = some ⟨b.cells.set i (some a)⟩ := if_pos inside

theorem size_write (h : b.write i a = some b') : b'.size = b.size := by
  unfold write at h
  split at h
  · obtain rfl := Option.some.inj h
    exact List.length_set
  · cases h

theorem size_move {dst src : Nat} (h : b.move dst src n = some b') : b'.size = b.size := by
  unfold move at h
  split at h
  · rename_i inside
    obtain rfl := Option.some.inj h
    simp only [size, List.length_append, List.length_take, List.length_drop] at inside ⊢
    omega
  · cases h

theorem holds_nil (b : Buffer α) : b.Holds [] := ⟨b.cells, rfl⟩

theorem Holds.length_le (h : b.Holds l) : l.length ≤ b.size := by
  obtain ⟨rest, eq⟩ := h
  rw [size, eq, List.length_append, List.length_map]
  exact Nat.le_add_right _ _

theorem Holds.left (h : b.Holds (l ++ m)) : b.Holds l := by
  obtain ⟨rest, eq⟩ := h
  exact ⟨m.map some ++ rest, by rw [eq, List.map_append, List.append_assoc]⟩

theorem Holds.realloc (h : b.Holds l) (room : l.length ≤ n) : (b.realloc n).Holds l := by
  obtain ⟨rest, eq⟩ := h
  refine ⟨rest.take (n - l.length) ++ List.replicate (n - b.size) none, ?_⟩
  rw [Buffer.realloc, eq, List.take_append, List.take_of_length_le (by simpa using room),
    List.length_map, List.append_assoc]

/-- The element at an index, if there is one. -/
theorem Holds.read (h : b.Holds l) (inside : i < l.length) : b.read i = l[i]? := by
  obtain ⟨rest, eq⟩ := h
  rw [Buffer.read, eq, List.getElem?_append_left (by simpa using inside), List.getElem?_map,
    List.getElem?_eq_getElem inside]
  rfl

theorem Holds.take (h : b.Holds l) : b.cells.take l.length = l.map some := by
  obtain ⟨rest, eq⟩ := h
  rw [eq, List.take_left' (List.length_map _)]

/-- The loop over the elements. -/
theorem Holds.mapM_read (h : b.Holds l) : (List.range l.length).mapM b.read = some l := by
  induction l using List.reverseRecOn with
  | nil => rfl
  | append_singleton l a ih =>
    have last : b.read l.length = some a := by
      rw [h.read (by simp), List.getElem?_concat_length]
    rw [List.length_append, List.length_singleton, List.range_succ, List.mapM_append, ih h.left]
    simp [last]

/-! ## At the end and at the start -/

theorem Holds.write_end (h : b.Holds l) (room : l.length < b.size) (a : α) :
    ∃ b', b.write l.length a = some b' ∧ b'.Holds (l ++ [a]) ∧ b'.size = b.size := by
  have written := write_of_lt room a
  refine ⟨_, written, ?_, size_write written⟩
  obtain ⟨rest, eq⟩ := h
  rw [size, eq, List.length_append, List.length_map] at room
  cases rest with
  | nil => exact absurd room (Nat.lt_irrefl _)
  | cons c rest =>
    refine ⟨rest, ?_⟩
    show b.cells.set l.length (some a) = _
    rw [eq, List.set_append_right _ _ (by simp)]
    simp

/-- The elements make room for one in front of them. -/
theorem Holds.shift (h : b.Holds l) (room : l.length < b.size) (a : α) :
    ∃ b' b'', b.move 1 0 l.length = some b' ∧ b'.write 0 a = some b'' ∧ b''.Holds (a :: l) ∧
      b''.size = b.size := by
  have moved : b.move 1 0 l.length =
      some ⟨b.cells.take 1 ++ (b.cells.drop 0).take l.length ++ b.cells.drop (1 + l.length)⟩ :=
    if_pos ⟨by omega, by omega⟩
  have size := size_move moved
  have written := write_of_lt (i := 0) (by rw [size]; omega) a
  refine ⟨_, _, moved, written, ⟨b.cells.drop (1 + l.length), ?_⟩, (size_write written).trans size⟩
  cases cells : b.cells with
  | nil =>
    rw [Buffer.size, cells] at room
    exact absurd room (Nat.not_lt_zero _)
  | cons c rest =>
    have here := h.take
    rw [cells] at here
    show (c :: ((c :: rest).take l.length ++ _)).set 0 (some a) = _
    rw [here]
    rfl

/-- A copy goes behind the elements in front of it. -/
theorem Holds.writeAll_end (h : b.Holds l) (room : l.length + m.length ≤ b.size) :
    ∃ b', b.writeAll l.length m = some b' ∧ b'.Holds (l ++ m) ∧ b'.size = b.size := by
  refine ⟨_, if_pos room, ⟨b.cells.drop (l.length + m.length), ?_⟩, ?_⟩
  · rw [h.take, List.map_append]
  · simp only [size, List.length_append, List.length_take, List.length_map,
      List.length_drop] at room ⊢
    omega

theorem Holds.copy {src : Buffer α} (h : src.Holds l) (room : l.length ≤ b.size) :
    ∃ b', b.copy src l.length = some b' ∧ b'.Holds l ∧ b'.size = b.size := by
  have len := h.length_le
  refine ⟨_, if_pos ⟨room, len⟩, ⟨b.cells.drop l.length, ?_⟩, ?_⟩
  · rw [h.take]
  · simp only [size, List.length_append, List.length_take, List.length_drop] at room len ⊢
    omega

/-- Elements from the middle are moved to the front. -/
theorem Holds.move_front {k : List α} (h : b.Holds (k ++ l)) :
    ∃ b', b.move 0 k.length l.length = some b' ∧ b'.Holds l ∧ b'.size = b.size := by
  have len := h.length_le
  rw [List.length_append] at len
  have moved : b.move 0 k.length l.length = some ⟨b.cells.take 0 ++
      (b.cells.drop k.length).take l.length ++ b.cells.drop (0 + l.length)⟩ :=
    if_pos ⟨by omega, by omega⟩
  refine ⟨_, moved, ⟨b.cells.drop (0 + l.length), ?_⟩, size_move moved⟩
  obtain ⟨rest, eq⟩ := h
  have middle : (b.cells.drop k.length).take l.length = l.map some := by
    rw [eq, List.map_append, List.append_assoc, List.drop_left' (List.length_map _),
      List.take_left' (List.length_map _)]
  rw [middle]
  rfl

/-! ## Without one of them -/

/-- The elements behind the one that goes are moved one cell to the front. -/
theorem Holds.close (h : b.Holds l) (inside : i < l.length) :
    ∃ b', b.move i (i + 1) (l.length - 1 - i) = some b' ∧ b'.Holds (l.eraseIdx i) ∧
      b'.size = b.size := by
  have len := h.length_le
  have moved : b.move i (i + 1) (l.length - 1 - i) = some ⟨b.cells.take i ++
      (b.cells.drop (i + 1)).take (l.length - 1 - i) ++ b.cells.drop (i + (l.length - 1 - i))⟩ :=
    if_pos ⟨by omega, by omega⟩
  refine ⟨_, moved, ⟨b.cells.drop (i + (l.length - 1 - i)), ?_⟩, size_move moved⟩
  obtain ⟨rest, eq⟩ := h
  have front : b.cells.take i = (l.take i).map some := by
    rw [eq, List.take_append_of_le_length (by simpa using Nat.le_of_lt inside), List.map_take]
  have behind : (b.cells.drop (i + 1)).take (l.length - 1 - i) = (l.drop (i + 1)).map some := by
    rw [eq, List.drop_append_of_le_length (by rwa [List.length_map]), ← List.map_drop,
      List.take_append_of_le_length (by simp; omega), List.take_of_length_le (by simp; omega)]
  rw [front, behind, List.eraseIdx_eq_take_drop_succ, List.map_append]

/-- The last element goes without a move. -/
theorem Holds.eraseIdx_last (h : b.Holds l) (last : l.length - 1 - i = 0) :
    b.Holds (l.eraseIdx i) := by
  have cut : l.drop (i + 1) = [] := List.drop_eq_nil_of_le (by omega)
  rw [List.eraseIdx_eq_take_drop_succ, cut, List.append_nil]
  apply Holds.left (m := l.drop i)
  rwa [List.take_append_drop]

end

end Buffer
