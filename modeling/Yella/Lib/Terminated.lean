import Mathlib.Data.List.DropRight

/-!
# Terminated arrays

An array whose last element is a terminator, and the loops that move an index over it. Each read
is checked: outside of the array it has no result.
-/

/-- The elements in front of the terminator `z`. -/
structure Terminated (α : Type*) (z : α) where
  text : List α
  plain : z ∉ text

namespace Terminated

variable {α : Type*} {z : α}

section
variable (s : Terminated α z)

def cells : List α := s.text ++ [z]

def read (i : Int) : Option α := if 0 ≤ i then s.cells[i.toNat]? else none

theorem inside_of_read {i : Int} {c : α} (h : s.read i = some c) :
    0 ≤ i ∧ i ≤ s.text.length := by
  unfold read at h
  split at h
  · obtain ⟨inside, -⟩ := List.getElem?_eq_some_iff.mp h
    simp only [cells, List.length_append, List.length_singleton] at inside
    omega
  · cases h

/-- A loop that goes on while the element is one of these. -/
def stepOver (p : α → Bool) (i : Nat) : Option Nat :=
  match _h : s.read i with
  | none => none
  | some c => if p c then stepOver p (i + 1) else some i
termination_by s.text.length + 1 - i
decreasing_by
  have := s.inside_of_read _h
  omega

/-- A loop that goes back while the element is one of these. It looks whether it is in front of
the array when it has read. -/
def stepBack (p : α → Bool) (i : Int) : Option Int :=
  match s.read i with
  | none => none
  | some c => if p c ∧ 0 ≤ i then stepBack p (i - 1) else some i
termination_by (i + 1).toNat

/-- The loop that looks first. -/
def stepBackWithin (p : α → Bool) (i : Int) : Option Int :=
  if 0 ≤ i then
    match s.read i with
    | none => none
    | some c => if p c then stepBackWithin p (i - 1) else some i
  else some i
termination_by (i + 1).toNat

/-- The first element from `i` on that is one of these, if it comes before the terminator. -/
def find [DecidableEq α] (p : α → Bool) (i : Nat) : Option (Option Nat) :=
  (s.stepOver (fun c => !p c && c ≠ z) i).bind fun j =>
    (s.read j).map fun c => if c = z then none else some j

/-- The elements from `i` on that are copied. -/
def copy (i : Nat) : Nat → Option (List α)
  | 0 => some []
  | n + 1 => (s.read i).bind fun c => (copy (i + 1) n).map (c :: ·)

end

section
variable {s : Terminated α z} {i j : Nat} {p : α → Bool}

theorem stepOver_inside (h : s.stepOver p i = some j) : i ≤ j ∧ j ≤ s.text.length := by
  fun_induction stepOver s p i with
  | case1 i none => cases h
  | case2 i c here hp ih =>
    have := ih h
    omega
  | case3 i c here hp =>
    obtain rfl := Option.some.inj h
    have := s.inside_of_read here
    omega

theorem find_inside [DecidableEq α] (h : s.find p i = some (some j)) :
    i ≤ j ∧ j < s.text.length := by
  obtain ⟨k, stepped, h⟩ := Option.bind_eq_some_iff.mp h
  obtain ⟨c, here, h⟩ := Option.map_eq_some_iff.mp h
  have range := stepOver_inside stepped
  split at h
  · cases h
  · rename_i ne
    obtain rfl := Option.some.inj h
    refine ⟨range.1, lt_of_le_of_ne range.2 ?_⟩
    rintro rfl
    apply ne
    simpa [read, cells, eq_comm] using here

end

/-- What is in front of the terminator from the index on. -/
structure At (s : Terminated α z) (i : Nat) (t : List α) : Prop where
  rest : s.text.drop i = t
  inside : i ≤ s.text.length

section
variable {s : Terminated α z} {i : Nat} {t u : List α} {c : α} {p : α → Bool}

theorem at_start (s : Terminated α z) : s.At 0 s.text := ⟨rfl, Nat.zero_le _⟩

theorem At.length (h : s.At i t) : i + t.length = s.text.length := by
  have inside := h.inside
  rw [← h.rest, List.length_drop]
  omega

theorem At.skip (h : s.At i (u ++ t)) : s.At (i + u.length) t := by
  have inside := h.length
  rw [List.length_append] at inside
  refine ⟨?_, by omega⟩
  rw [← List.drop_drop, h.rest, List.drop_left]

theorem At.next (h : s.At i (c :: t)) : s.At (i + 1) t := At.skip (u := [c]) h

theorem read_natCast (s : Terminated α z) (i : Nat) : s.read i = s.cells[i]? :=
  if_pos (Int.natCast_nonneg i)

theorem At.read_nil (h : s.At i []) : s.read i = some z := by
  have last := h.length
  rw [read_natCast, cells, List.getElem?_append_right (by simpa using Nat.le_of_eq last.symm)]
  rw [List.length_nil, Nat.add_zero] at last
  simp [last]

theorem At.read_cons (h : s.At i (c :: t)) : s.read i = some c := by
  have inside := h.length
  rw [List.length_cons] at inside
  rw [read_natCast, cells, List.getElem?_append_left (by omega), ← List.head?_drop, h.rest]
  rfl

theorem At.ne (h : s.At i (c :: t)) : c ≠ z := by
  rintro rfl
  apply s.plain
  have : c ∈ s.text.drop i := by
    rw [h.rest]
    exact List.mem_cons_self
  exact List.mem_of_mem_drop this

/-- Behind the terminator there is nothing. -/
theorem read_behind (s : Terminated α z) {i : Nat} (h : s.text.length < i) : s.read i = none := by
  rw [read_natCast, cells, List.getElem?_eq_none]
  rw [List.length_append, List.length_singleton]
  exact h

/-! ## Forward -/

theorem At.stepOver (h : s.At i t) (stops : p z = false) :
    s.stepOver p i = some (i + (t.takeWhile p).length) := by
  induction t generalizing i with
  | nil =>
    have here := h.read_nil
    unfold Terminated.stepOver
    split
    · rename_i none
      cases here.symm.trans none
    · rename_i c eq
      obtain rfl := Option.some.inj (here.symm.trans eq)
      simp [stops]
  | cons c t ih =>
    have here := h.read_cons
    unfold Terminated.stepOver
    split
    · rename_i none
      cases here.symm.trans none
    · rename_i d eq
      obtain rfl := Option.some.inj (here.symm.trans eq)
      by_cases hp : p c
      · rw [if_pos hp, ih h.next, List.takeWhile_cons_of_pos hp, List.length_cons]
        congr 1
        omega
      · rw [if_neg hp, List.takeWhile_cons_of_neg hp]
        rfl

theorem At.stepped (h : s.At i t) (p : α → Bool) :
    s.At (i + (t.takeWhile p).length) (t.dropWhile p) := by
  apply At.skip (u := t.takeWhile p)
  rw [List.takeWhile_append_dropWhile]
  exact h

theorem stepOver_start (s : Terminated α z) (stops : p z = false) :
    s.stepOver p 0 = some (s.text.takeWhile p).length := by
  rw [s.at_start.stepOver stops, Nat.zero_add]

/-- The loop that looks for the terminator. -/
theorem stepOver_terminator [DecidableEq α] (s : Terminated α z) :
    s.stepOver (fun c => c ≠ z) 0 = some s.text.length := by
  have whole : s.text.takeWhile (fun c => c ≠ z) = s.text := by
    rw [List.takeWhile_eq_self_iff]
    intro c hc
    have : c ≠ z := by
      rintro rfl
      exact s.plain hc
    simpa using this
  rw [stepOver_start s (by simp), whole]

theorem At.copy (h : s.At i t) {n : Nat} (inside : n ≤ t.length) :
    s.copy i n = some (t.take n) := by
  induction n generalizing i t with
  | zero => rfl
  | succ n ih =>
    cases t with
    | nil => exact absurd inside (Nat.not_succ_le_zero n)
    | cons c t =>
      have more := ih h.next (Nat.le_of_succ_le_succ inside)
      simp [Terminated.copy, h.read_cons, more]

theorem At.find_none [DecidableEq α] (h : s.At i t) (none : ∀ c ∈ t, p c = false) :
    s.find p i = some Option.none := by
  have all : t.takeWhile (fun c => !p c && c ≠ z) = t := by
    rw [List.takeWhile_eq_self_iff]
    intro c hc
    have : c ≠ z := by
      rintro rfl
      exact s.plain (List.mem_of_mem_drop (h.rest ▸ hc))
    simp [none c hc, this]
  have last : s.At (i + t.length) [] := At.skip (by rwa [List.append_nil])
  unfold find
  rw [h.stepOver (by simp), all, Option.bind_some, last.read_nil]
  simp

theorem At.find_some [DecidableEq α] (h : s.At i (u ++ c :: t)) (before : ∀ d ∈ u, p d = false)
    (here : p c = true) : s.find p i = some (some (i + u.length)) := by
  have run : (u ++ c :: t).takeWhile (fun c => !p c && c ≠ z) = u := by
    rw [List.takeWhile_append_of_pos, List.takeWhile_cons_of_neg (by simp [here]), List.append_nil]
    intro d hd
    have : d ≠ z := by
      rintro rfl
      exact s.plain (List.mem_of_mem_drop (h.rest ▸ List.mem_append_left _ hd))
    simp [before d hd, this]
  unfold find
  rw [h.stepOver (by simp), run, Option.bind_some, h.skip.read_cons]
  simp [h.skip.ne]

theorem At.find_cases [DecidableEq α] (h : s.At i t) (p : α → Bool) :
    (s.find p i = some none ∧ ∀ c ∈ t, p c = false) ∨
      ∃ u c v, t = u ++ c :: v ∧ (∀ d ∈ u, p d = false) ∧ p c = true ∧
        s.find p i = some (some (i + u.length)) := by
  cases found : t.find? p with
  | none =>
    have none : ∀ c ∈ t, p c = false := by simpa using found
    exact .inl ⟨h.find_none none, none⟩
  | some c =>
    obtain ⟨here, u, v, rfl, before⟩ := List.find?_eq_some_iff_append.mp found
    have before : ∀ d ∈ u, p d = false := by simpa using before
    exact .inr ⟨u, c, v, rfl, before, here, h.find_some before here⟩

/-! ## Back -/

theorem at_getElem (s : Terminated α z) {n : Nat} (inside : n < s.text.length) :
    s.At n (s.text[n] :: s.text.drop (n + 1)) :=
  ⟨List.drop_eq_getElem_cons inside, Nat.le_of_lt inside⟩

/-- The loop ends behind the last element that is not one of these. -/
theorem stepBackWithin_eq (inside : i ≤ s.text.length) :
    s.stepBackWithin p ((i : Int) - 1) =
      some ((((s.text.take i).rdropWhile p).length : Int) - 1) := by
  induction i with
  | zero =>
    unfold stepBackWithin
    rfl
  | succ i ih =>
    have last : s.text.take (i + 1) = s.text.take i ++ [s.text[i]] :=
      (List.take_append_getElem inside).symm
    have index : ((i + 1 : Nat) : Int) - 1 = i := by omega
    unfold stepBackWithin
    rw [index, if_pos (Int.natCast_nonneg i), (s.at_getElem inside).read_cons, last]
    dsimp only
    by_cases hp : p s.text[i]
    · rw [List.rdropWhile_concat_pos _ _ _ hp, if_pos hp]
      exact ih (by omega)
    · rw [List.rdropWhile_concat_neg _ _ _ hp, if_neg hp, List.length_append,
        List.length_take_of_le (by omega)]
      simp

/-- The loop that reads first ends there as well, but with no such element it reads what is in
front of the array. -/
theorem stepBack_eq (inside : i ≤ s.text.length) :
    s.stepBack p ((i : Int) - 1) =
      if (s.text.take i).rdropWhile p = [] then none
      else some ((((s.text.take i).rdropWhile p).length : Int) - 1) := by
  induction i with
  | zero =>
    unfold stepBack
    rfl
  | succ i ih =>
    have last : s.text.take (i + 1) = s.text.take i ++ [s.text[i]] :=
      (List.take_append_getElem inside).symm
    have index : ((i + 1 : Nat) : Int) - 1 = i := by omega
    unfold stepBack
    rw [index, (s.at_getElem inside).read_cons, last]
    dsimp only
    by_cases hp : p s.text[i]
    · rw [List.rdropWhile_concat_pos _ _ _ hp, if_pos ⟨hp, Int.natCast_nonneg i⟩]
      exact ih (by omega)
    · rw [List.rdropWhile_concat_neg _ _ _ hp, if_neg fun h => hp h.1,
        if_neg (List.concat_ne_nil _ _), List.length_append, List.length_take_of_le (by omega)]
      simp

end

end Terminated
