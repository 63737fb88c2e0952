import Mathlib.Data.Set.Finite.Basic
import Mathlib.Order.WellFounded
import Mathlib.Tactic.Ring

/-!
# Comparators

A comparator tells by the sign of a number which of two elements goes first. The difference of
two keys is one. Where the difference is cut to a machine word, so is one only on keys that
lie on one half of the circle of words.
-/

namespace Comparator

variable {α : Type*} {cmp cmp' : α → α → ℤ} {s : Set α}

/-- The comparator, asked about two elements of the set, orders them strictly and totally. -/
structure StrictTotalOn (cmp : α → α → ℤ) (s : Set α) : Prop where
  apart : ∀ a ∈ s, ∀ b ∈ s, a ≠ b → cmp a b ≠ 0
  antisymm : ∀ a ∈ s, ∀ b ∈ s, a ≠ b → (cmp a b < 0 ↔ 0 < cmp b a)
  trans : ∀ a ∈ s, ∀ b ∈ s, ∀ c ∈ s, a ≠ b → b ≠ c → cmp a b < 0 → cmp b c < 0 → cmp a c < 0

namespace StrictTotalOn

theorem of_subsingleton (one : s.Subsingleton) : StrictTotalOn cmp s where
  apart _ ha _ hb ne := absurd (one ha hb) ne
  antisymm _ ha _ hb ne := absurd (one ha hb) ne
  trans _ ha _ hb _ _ ne := absurd (one ha hb) ne

theorem congr (same : ∀ a ∈ s, ∀ b ∈ s, a ≠ b → cmp a b = cmp' a b) (h : StrictTotalOn cmp s) :
    StrictTotalOn cmp' s where
  apart a ha b hb ne := by
    rw [← same a ha b hb ne]
    exact h.apart a ha b hb ne
  antisymm a ha b hb ne := by
    rw [← same a ha b hb ne, ← same b hb a ha ne.symm]
    exact h.antisymm a ha b hb ne
  trans a ha b hb c hc ab bc first second := by
    rw [← same a ha b hb ab] at first
    rw [← same b hb c hc bc] at second
    have ac : a ≠ c := by
      rintro rfl
      have := (h.antisymm a ha b hb ab).mp first
      omega
    rw [← same a ha c hc ac]
    exact h.trans a ha b hb c hc ab bc first second

theorem mono {t : Set α} (sub : t ⊆ s) (h : StrictTotalOn cmp s) : StrictTotalOn cmp t where
  apart a ha b hb := h.apart a (sub ha) b (sub hb)
  antisymm a ha b hb := h.antisymm a (sub ha) b (sub hb)
  trans a ha b hb c hc := h.trans a (sub ha) b (sub hb) c (sub hc)

/-- Elements that stand for different ones of an ordered set are ordered like them. -/
theorem comap {β : Type*} {f : β → α} {t : Set β} (maps : Set.MapsTo f t s)
    (injective : Set.InjOn f t) (h : StrictTotalOn cmp s) :
    StrictTotalOn (fun a b => cmp (f a) (f b)) t where
  apart _ ha _ hb ne := h.apart _ (maps ha) _ (maps hb) (injective.ne ha hb ne)
  antisymm _ ha _ hb ne := h.antisymm _ (maps ha) _ (maps hb) (injective.ne ha hb ne)
  trans _ ha _ hb _ hc ab bc := h.trans _ (maps ha) _ (maps hb) _ (maps hc)
    (injective.ne ha hb ab) (injective.ne hb hc bc)

/-- A list in which each element goes before the later ones, and they behind it. -/
theorem of_pairwise {l : List α} (h : l.Pairwise fun a b => cmp a b < 0 ∧ 0 < cmp b a) :
    StrictTotalOn cmp {a | a ∈ l} := by
  have before {i j : ℕ} (hi : i < l.length) (hj : j < l.length) (less : i < j) :
      cmp l[i] l[j] < 0 ∧ 0 < cmp l[j] l[i] := List.pairwise_iff_getElem.mp h i j hi hj less
  have place {i j : ℕ} (hi : i < l.length) (hj : j < l.length) (ne : l[i] ≠ l[j]) :
      i < j ∨ j < i := by
    rcases Nat.lt_trichotomy i j with less | rfl | less
    · exact .inl less
    · exact absurd rfl ne
    · exact .inr less
  refine ⟨fun a ha b hb ne => ?_, fun a ha b hb ne => ?_, fun a ha b hb c hc ab bc => ?_⟩
  · obtain ⟨i, hi, rfl⟩ := List.getElem_of_mem ha
    obtain ⟨j, hj, rfl⟩ := List.getElem_of_mem hb
    rcases place hi hj ne with less | less
    · have := before hi hj less
      omega
    · have := before hj hi less
      omega
  · obtain ⟨i, hi, rfl⟩ := List.getElem_of_mem ha
    obtain ⟨j, hj, rfl⟩ := List.getElem_of_mem hb
    rcases place hi hj ne with less | less
    · have := before hi hj less
      omega
    · have := before hj hi less
      omega
  · obtain ⟨i, hi, rfl⟩ := List.getElem_of_mem ha
    obtain ⟨j, hj, rfl⟩ := List.getElem_of_mem hb
    obtain ⟨k, hk, rfl⟩ := List.getElem_of_mem hc
    intro first second
    have ij : i < j := by
      rcases place hi hj ab with less | less
      · exact less
      · have := before hj hi less
        omega
    have jk : j < k := by
      rcases place hj hk bc with less | less
      · exact less
      · have := before hk hj less
        omega
    exact (before hi hk (ij.trans jk)).1

theorem asymm (h : StrictTotalOn cmp s) {a b : α} (ha : a ∈ s) (hb : b ∈ s) (ne : a ≠ b)
    (first : cmp a b < 0) : ¬ cmp b a < 0 := by
  have := (h.antisymm a ha b hb ne).mp first
  omega

theorem lt_or_gt (h : StrictTotalOn cmp s) {a b : α} (ha : a ∈ s) (hb : b ∈ s) (ne : a ≠ b) :
    cmp a b < 0 ∨ cmp b a < 0 := by
  have apart := h.apart a ha b hb ne
  have swap := h.antisymm b hb a ha ne.symm
  omega

/-- A finite set has an element that goes before the others. -/
theorem exists_first (h : StrictTotalOn cmp s) (finite : s.Finite) (some : s.Nonempty) :
    ∃ m ∈ s, ∀ a ∈ s, a ≠ m → cmp m a < 0 := by
  let before (a b : s) : Prop := a ≠ b ∧ cmp a b < 0
  have : Finite s := finite
  have : IsTrans s before := by
    constructor
    rintro ⟨a, ha⟩ ⟨b, hb⟩ ⟨c, hc⟩ ⟨ab, first⟩ ⟨bc, second⟩
    have ab : a ≠ b := fun same => ab (Subtype.ext same)
    have bc : b ≠ c := fun same => bc (Subtype.ext same)
    refine ⟨?_, h.trans a ha b hb c hc ab bc first second⟩
    intro same
    obtain rfl : a = c := congrArg Subtype.val same
    exact h.asymm ha hb ab first second
  have : Std.Irrefl before := ⟨fun a loop => loop.1 rfl⟩
  have wf : WellFounded before := Finite.wellFounded_of_trans_of_irrefl before
  obtain ⟨x, hx⟩ := some
  obtain ⟨⟨m, hm⟩, -, least⟩ := wf.has_min Set.univ ⟨⟨x, hx⟩, trivial⟩
  refine ⟨m, hm, fun a ha ne => ?_⟩
  rcases h.lt_or_gt hm ha ne.symm with first | other
  · exact first
  · have ne' : (⟨a, ha⟩ : s) ≠ ⟨m, hm⟩ := fun same => ne (congrArg Subtype.val same)
    exact absurd ⟨ne', other⟩ (least ⟨a, ha⟩ trivial)

end StrictTotalOn

/-! ## Differences -/

/-- The difference of ranks, on elements of different rank. -/
theorem strictTotalOn_sub {rank : α → ℤ} (injective : Set.InjOn rank s) :
    StrictTotalOn (fun a b => rank a - rank b) s where
  apart a ha b hb ne zero := ne (injective ha hb (Int.sub_eq_zero.mp zero))
  antisymm a _ b _ _ := by omega
  trans a _ b _ c _ _ _ first second := by omega

/-- A signed word of which `h` is the first number that does not fit. -/
def wrap (h x : ℤ) : ℤ := (x + h) % (2 * h) - h

/-- The keys lie on one half of the circle. -/
def OnHalf (h : ℤ) (key : α → ℤ) (s : Set α) : Prop :=
  ∃ base, ∀ a ∈ s, (key a - base) % (2 * h) < h

/-- No two keys are the same word. -/
def WordsDiffer (h : ℤ) (key : α → ℤ) (s : Set α) : Prop :=
  Set.InjOn (fun a => key a % (2 * h)) s

section
variable {h x y : ℤ} {key : α → ℤ}

theorem wrap_of_range (lo : -h ≤ x) (hi : x < h) : wrap h x = x := by
  have : (x + h) % (2 * h) = x + h := Int.emod_eq_of_lt (by omega) (by omega)
  rw [wrap, this]
  ring

theorem wrap_eq_wrap_iff : wrap h x = wrap h y ↔ x % (2 * h) = y % (2 * h) := by
  unfold wrap
  rw [sub_left_inj]
  exact Int.emod_add_cancel_right h

theorem wrap_eq_zero_iff (pos : 0 < h) : wrap h x = 0 ↔ x % (2 * h) = 0 := by
  have zero : wrap h 0 = 0 := wrap_of_range (by omega) pos
  rw [← zero, wrap_eq_wrap_iff, zero, Int.zero_emod]

theorem wordsDiffer_of_strictTotalOn (pos : 0 < h)
    (total : StrictTotalOn (fun a b => wrap h (key a - key b)) s) : WordsDiffer h key s := by
  intro a ha b hb same
  by_contra ne
  apply total.apart a ha b hb ne
  rw [wrap_eq_zero_iff pos]
  exact Int.emod_eq_emod_iff_emod_sub_eq_zero.mp same

theorem onHalf_of_strictTotalOn (pos : 0 < h) (finite : s.Finite)
    (total : StrictTotalOn (fun a b => wrap h (key a - key b)) s) : OnHalf h key s := by
  rcases s.eq_empty_or_nonempty with rfl | some
  · exact ⟨0, fun a ha => ha.elim⟩
  obtain ⟨m, hm, first⟩ := total.exists_first finite some
  refine ⟨key m, fun a ha => ?_⟩
  by_cases same : a = m
  · rw [same, sub_self, Int.zero_emod]
    exact pos
  -- Half way round or further, the difference is negative in both directions.
  by_contra far
  have nonneg : 0 ≤ (key a - key m) % (2 * h) := Int.emod_nonneg _ (by omega)
  have below : (key a - key m) % (2 * h) < 2 * h := Int.emod_lt_of_pos _ (by omega)
  have back : wrap h (key a - key m) = (key a - key m) % (2 * h) - 2 * h := by
    rw [← wrap_of_range (h := h) (x := (key a - key m) % (2 * h) - 2 * h) (by omega) (by omega),
      wrap_eq_wrap_iff, Int.sub_emod_right, Int.emod_emod]
  apply total.asymm hm ha (Ne.symm same) (first a ha same)
  omega

/-- On half of the circle the cut difference is that of the distances from its start. -/
theorem strictTotalOn_of_onHalf (pos : 0 < h) (half : OnHalf h key s)
    (differ : WordsDiffer h key s) : StrictTotalOn (fun a b => wrap h (key a - key b)) s := by
  obtain ⟨base, near⟩ := half
  have nonneg (a : α) : 0 ≤ (key a - base) % (2 * h) := Int.emod_nonneg _ (by omega)
  have ranks : Set.InjOn (fun a => (key a - base) % (2 * h)) s := by
    intro a ha b hb same
    apply differ ha hb
    have sum := Int.add_emod_eq_add_emod_right base same
    simpa only [sub_add_cancel] using sum
  apply (strictTotalOn_sub ranks).congr
  intro a ha b hb _
  have lo := nonneg b
  have hi := near a ha
  have := near b hb
  have := nonneg a
  rw [← wrap_of_range (h := h) (x := (key a - base) % (2 * h) - (key b - base) % (2 * h))
    (by omega) (by omega), wrap_eq_wrap_iff, ← Int.sub_emod, sub_sub_sub_cancel_right]

/-- **A difference cut to a word** orders the elements exactly if their keys are different words
that lie on one half of the circle. -/
theorem strictTotalOn_wrap_iff (pos : 0 < h) (finite : s.Finite) :
    StrictTotalOn (fun a b => wrap h (key a - key b)) s ↔
      OnHalf h key s ∧ WordsDiffer h key s := by
  constructor
  · intro total
    exact ⟨onHalf_of_strictTotalOn pos finite total, wordsDiffer_of_strictTotalOn pos total⟩
  · rintro ⟨half, differ⟩
    exact strictTotalOn_of_onHalf pos half differ

end

/-! ## One key after the other -/

/-- The first comparison decides, and the second where the first finds no difference. -/
def andThen (first second : α → α → ℤ) (a b : α) : ℤ :=
  if first a b = 0 then second a b else first a b

/-- A set is ordered by its classes first exactly if each class is. -/
theorem strictTotalOn_andThen_iff {κ : Type*} {cls : α → κ} {rank : κ → ℤ}
    (injective : Function.Injective rank) :
    StrictTotalOn (andThen (fun a b => rank (cls a) - rank (cls b)) cmp) s ↔
      ∀ k, StrictTotalOn cmp {a ∈ s | cls a = k} := by
  have same {a b : α} (h : cls a = cls b) :
      andThen (fun a b => rank (cls a) - rank (cls b)) cmp a b = cmp a b := by
    rw [andThen, h, sub_self, if_pos rfl]
  have other {a b : α} (h : cls a ≠ cls b) :
      andThen (fun a b => rank (cls a) - rank (cls b)) cmp a b = rank (cls a) - rank (cls b) :=
    if_neg (sub_ne_zero.mpr (injective.ne h))
  constructor
  · intro total k
    apply (total.mono (Set.sep_subset s _)).congr
    rintro a ⟨-, ha⟩ b ⟨-, hb⟩ -
    exact same (ha.trans hb.symm)
  · intro total
    refine ⟨fun a ha b hb ne => ?_, fun a ha b hb ne => ?_, fun a ha b hb c hc ab bc => ?_⟩
    · by_cases h : cls a = cls b
      · rw [same h]
        exact (total (cls b)).apart a ⟨ha, h⟩ b ⟨hb, rfl⟩ ne
      · rw [other h]
        exact sub_ne_zero.mpr (injective.ne h)
    · by_cases h : cls a = cls b
      · rw [same h, same h.symm]
        exact (total (cls b)).antisymm a ⟨ha, h⟩ b ⟨hb, rfl⟩ ne
      · rw [other h, other (Ne.symm h)]
        omega
    · by_cases h : cls a = cls b
      · by_cases h' : cls b = cls c
        · rw [same h, same h', same (h.trans h')]
          exact (total (cls c)).trans a ⟨ha, h.trans h'⟩ b ⟨hb, h'⟩ c ⟨hc, rfl⟩ ab bc
        · rw [other h', other fun ac => h' (h.symm.trans ac), h]
          exact fun _ second => second
      · by_cases h' : cls b = cls c
        · rw [other h, other fun ac => h (ac.trans h'.symm), h']
          exact fun first _ => first
        · rw [other h, other h']
          intro first second
          have less : rank (cls a) < rank (cls c) := by omega
          rw [other (fun same => (ne_of_lt less) (congrArg rank same))]
          omega

/-! ## Sorting -/

def Ordered (cmp : α → α → ℤ) (l : List α) : Prop := l.Pairwise (fun a b => cmp a b < 0)

/-- What is known of a sorting routine. Nothing is promised about the order of the result when the
comparator is not an order of the elements. -/
structure Sorts (cmp : α → α → ℤ) (sort : List α → List α) : Prop where
  perm : ∀ l, (sort l).Perm l
  ordered : ∀ l, l.Nodup → StrictTotalOn cmp {a | a ∈ l} → Ordered cmp (sort l)

theorem ordered_append_cons {x : α} {l r : List α} :
    Ordered cmp (l ++ x :: r) ↔
      Ordered cmp l ∧ Ordered cmp r ∧ (∀ b ∈ r, cmp x b < 0) ∧
        ∀ a ∈ l, cmp a x < 0 ∧ ∀ b ∈ r, cmp a b < 0 := by
  simp only [Ordered, List.pairwise_append, List.pairwise_cons, List.mem_cons, forall_eq_or_imp]
  tauto

theorem Ordered.eq_of_perm {l m : List α} (total : StrictTotalOn cmp {a | a ∈ l})
    (hl : Ordered cmp l) (hm : Ordered cmp m) (perm : l.Perm m) : l = m := by
  unfold Ordered at hl hm
  apply List.Perm.eq_of_pairwise ?_ hl hm perm
  intro a b ha hb first second
  by_contra ne
  exact total.asymm ha (perm.mem_iff.mpr hb) ne first second

theorem Sorts.eq_of_perm {sort : List α → List α} {l m : List α} (sorts : Sorts cmp sort)
    (nodup : l.Nodup) (total : StrictTotalOn cmp {a | a ∈ l}) (perm : m.Perm l) :
    sort m = sort l := by
  have total' : StrictTotalOn cmp {a | a ∈ m} := total.mono fun a ha => perm.mem_iff.mp ha
  apply Ordered.eq_of_perm (total'.mono fun a ha => (sorts.perm m).mem_iff.mp ha)
  · exact sorts.ordered m (perm.nodup_iff.mpr nodup) total'
  · exact sorts.ordered l nodup total
  · exact ((sorts.perm m).trans perm).trans (sorts.perm l).symm

theorem exists_ordered {l : List α} (nodup : l.Nodup) (total : StrictTotalOn cmp {a | a ∈ l}) :
    ∃ m, m.Perm l ∧ Ordered cmp m := by
  classical
  induction hn : l.length generalizing l with
  | zero =>
    obtain rfl := List.length_eq_zero_iff.mp hn
    exact ⟨[], .nil, List.Pairwise.nil⟩
  | succ n ih =>
    have some : {a | a ∈ l}.Nonempty := List.exists_mem_of_length_pos (by omega)
    obtain ⟨x, hx, first⟩ := total.exists_first l.finite_toSet some
    have rest : ∀ a ∈ l.erase x, a ∈ l ∧ a ≠ x := fun a ha =>
      ⟨List.mem_of_mem_erase ha, fun same => nodup.not_mem_erase (same ▸ ha)⟩
    have short : (l.erase x).length = n := by
      rw [List.length_erase_of_mem hx]
      omega
    obtain ⟨m, perm, ordered⟩ :=
      ih (nodup.erase x) (total.mono fun a ha => (rest a ha).1) short
    refine ⟨x :: m, (perm.cons x).trans (List.perm_cons_erase hx).symm, ?_⟩
    apply List.pairwise_cons.mpr ⟨fun a ha => ?_, ordered⟩
    obtain ⟨mem, ne⟩ := rest a (perm.mem_iff.mp ha)
    exact first a mem ne

/-- **Sorting forgets the order of its input** exactly if the comparator is an order. -/
theorem sort_eq_of_perm_iff {l : List α} (nodup : l.Nodup) :
    (∀ sort, Sorts cmp sort → ∀ m, m.Perm l → sort m = sort l) ↔
      StrictTotalOn cmp {a | a ∈ l} := by
  classical
  constructor
  · intro alike
    by_contra none
    -- A routine that gives up on what it cannot order.
    let sort (m : List α) : List α :=
      if h : m.Nodup ∧ StrictTotalOn cmp {a | a ∈ m} then (exists_ordered h.1 h.2).choose else m
    have sorts : Sorts cmp sort := by
      constructor
      · intro m
        dsimp only [sort]
        split
        · rename_i h
          exact (exists_ordered h.1 h.2).choose_spec.1
        · exact .refl m
      · intro m hm total
        have h : m.Nodup ∧ StrictTotalOn cmp {a | a ∈ m} := ⟨hm, total⟩
        dsimp only [sort]
        rw [dif_pos h]
        exact (exists_ordered h.1 h.2).choose_spec.2
    have kept (m : List α) (perm : m.Perm l) : sort m = m := by
      apply dif_neg
      rintro ⟨-, total⟩
      exact none (total.mono fun a ha => perm.mem_iff.mpr ha)
    apply none
    rcases l with _ | ⟨a, _ | ⟨b, l⟩⟩
    · exact StrictTotalOn.of_subsingleton (by simp)
    · exact StrictTotalOn.of_subsingleton (by simp)
    · have swap : (b :: a :: l).Perm (a :: b :: l) := List.Perm.swap a b l
      have same := alike sort sorts (b :: a :: l) swap
      rw [kept _ swap, kept _ (.refl _)] at same
      have : b = a := (List.cons.inj same).1
      simp [this] at nodup
  · intro total sort sorts m perm
    exact sorts.eq_of_perm nodup total perm

/-! ## Comparators of a key -/

section
variable {κ : Type*} [LinearOrder κ] {key : α → κ} {a b : α}

/-- The sign tells the order of the keys. -/
structure Compares (cmp : α → α → ℤ) (key : α → κ) : Prop where
  lt : ∀ a b, cmp a b < 0 ↔ key a < key b
  gt : ∀ a b, 0 < cmp a b ↔ key b < key a

theorem Compares.eq_zero (h : Compares cmp key) : cmp a b = 0 ↔ key a = key b := by
  have lt := h.lt a b
  have gt := h.gt a b
  constructor
  · intro zero
    have before : ¬ key a < key b := fun less => by have := lt.mpr less; omega
    have behind : ¬ key b < key a := fun less => by have := gt.mpr less; omega
    exact le_antisymm (not_lt.mp behind) (not_lt.mp before)
  · intro same
    have before : ¬ cmp a b < 0 := fun less => (lt.mp less).ne same
    have behind : ¬ 0 < cmp a b := fun less => (gt.mp less).ne same.symm
    omega

end

end Comparator
