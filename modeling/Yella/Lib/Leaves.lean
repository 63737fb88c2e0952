import Mathlib.Data.List.Induction
import Yella.Lib.Fallible

/-!
# The last leaf

A graph whose nodes have nodes and leaves in an order, and the last leaf that is met below some
of them.
-/

namespace Leaves

variable {α β : Type*} (children : α → List (α ⊕ β))

/-- There is a leaf below. -/
inductive Has : α ⊕ β → Prop where
  | leaf (b : β) : Has (.inr b)
  | node {a : α} {part : α ⊕ β} : part ∈ children a → Has part → Has (.inl a)

/-- A leaf is below, and none is behind it. -/
inductive Last : α ⊕ β → β → Prop where
  | leaf (b : β) : Last (.inr b) b
  | node {a : α} {before after : List (α ⊕ β)} {part : α ⊕ β} {b : β} :
    children a = before ++ part :: after → Last part b → (∀ other ∈ after, ¬ Has children other) →
      Last (.inl a) b

/-- A member of the list gives a leaf, and there is none behind it. -/
def LastOf (gives : α ⊕ β → β → Prop) (parts : List (α ⊕ β)) (b : β) : Prop :=
  ∃ before part after, parts = before ++ part :: after ∧ gives part b ∧
    ∀ other ∈ after, ¬ Has children other

/-- The leaves below, unless they are deeper than `depth`. -/
def leaves : ℕ → α ⊕ β → Option (List β)
  | _, .inr b => some [b]
  | 0, .inl _ => none
  | depth + 1, .inl a => ((children a).mapM (leaves depth)).map List.flatten

variable {children} {gives : α ⊕ β → β → Prop} {a : α} {part : α ⊕ β} {parts : List (α ⊕ β)}
  {b : β} {depth : ℕ} {found : List β} {lists : List (List β)}

theorem last_inl_iff :
    Last children (.inl a) b ↔ LastOf children (Last children) (children a) b := by
  constructor
  · rintro (_ | ⟨split, last, none⟩)
    exact ⟨_, _, _, split, last, none⟩
  · rintro ⟨before, part, after, split, last, none⟩
    exact .node split last none

theorem has_inl_iff : Has children (.inl a) ↔ ∃ part ∈ children a, Has children part := by
  constructor
  · rintro (_ | ⟨mem, has⟩)
    exact ⟨_, mem, has⟩
  · rintro ⟨part, mem, has⟩
    exact .node mem has

@[simp] theorem has_inr : Has children (.inr b) := .leaf b

@[simp] theorem last_inr_iff {leaf : β} : Last children (.inr leaf) b ↔ leaf = b := by
  constructor
  · rintro ⟨⟩
    rfl
  · rintro rfl
    exact .leaf leaf

theorem Last.has (h : Last children part b) : Has children part := by
  induction h with
  | leaf b => exact .leaf b
  | node split _ _ ih => exact .node (by rw [split]; simp) ih

theorem lastOf_nil : ¬ LastOf children gives [] b := by
  rintro ⟨before, part, after, split, -⟩
  simp at split

theorem lastOf_concat : LastOf children gives (parts ++ [part]) b ↔
    gives part b ∨ ¬ Has children part ∧ LastOf children gives parts b := by
  constructor
  · rintro ⟨before, part', after, split, last, none⟩
    rcases List.eq_nil_or_concat after with rfl | ⟨after, other, rfl⟩
    · obtain ⟨-, same⟩ := List.append_inj' split rfl
      cases same
      exact .inl last
    · rw [List.concat_eq_append, ← List.cons_append, ← List.append_assoc] at split
      obtain ⟨rfl, same⟩ := List.append_inj' split rfl
      cases same
      refine .inr ⟨none part (by simp), before, part', after, rfl, last, ?_⟩
      intro other mem
      exact none other (by simp [mem])
  · rintro (last | ⟨empty, before, part', after, rfl, last, none⟩)
    · exact ⟨parts, part, [], rfl, last, by simp⟩
    · refine ⟨before, part', after ++ [part], by simp, last, ?_⟩
      intro other mem
      rcases List.mem_append.mp mem with mem | mem
      · exact none other mem
      · rw [List.mem_singleton.mp mem]
        exact empty

/-- A leaf in the list is behind all others, or the last is below a node of the list. -/
theorem lastOf_last_iff : LastOf children (Last children) parts b ↔
    LastOf children (fun part b => part = .inr b) parts b ∨
      (∀ c, ¬ LastOf children (fun part b => part = .inr b) parts c) ∧
        LastOf children (Last children) (parts.filter Sum.isLeft) b := by
  induction parts using List.reverseRecOn with
  | nil => simp [lastOf_nil]
  | append_singleton parts part ih =>
    simp only [lastOf_concat, List.filter_append]
    cases part with
    | inr leaf => simp
    | inl a =>
      rw [List.filter_singleton, Sum.isLeft_inl, cond_true, lastOf_concat, ih]
      by_cases has : Has children (.inl a)
      · simp [has]
      · have none : ¬ Last children (.inl a) b := fun last => has last.has
        simp [has, none]

/-! ## All leaves -/

theorem mapM_leaves_eq_nil_iff (h : parts.mapM (leaves children depth) = some lists)
    (each : ∀ part ∈ parts, ∀ found, leaves children depth part = some found →
      (found = [] ↔ ¬ Has children part)) :
    lists.flatten = [] ↔ ¬ ∃ part ∈ parts, Has children part := by
  rw [List.flatten_eq_nil_iff]
  push Not
  constructor
  · intro empty part mem
    obtain ⟨found, read⟩ := Option.isSome_iff_exists.mp
      (Fallible.mapM_isSome.mp (Option.isSome_of_eq_some h) part mem)
    exact (each part mem found read).mp (empty found ((Fallible.mem_mapM h found).mpr
      ⟨part, mem, read⟩))
  · intro none found hfound
    obtain ⟨part, mem, read⟩ := (Fallible.mem_mapM h found).mp hfound
    exact (each part mem found read).mpr (none part mem)

theorem leaves_eq_nil_iff (h : leaves children depth part = some found) :
    found = [] ↔ ¬ Has children part := by
  induction depth generalizing part found with
  | zero =>
    cases part with
    | inl a => cases h
    | inr b =>
      cases h
      simp
  | succ depth ih =>
    cases part with
    | inl a =>
      obtain ⟨lists, read, rfl⟩ := Option.map_eq_some_iff.mp h
      rw [has_inl_iff]
      exact mapM_leaves_eq_nil_iff read fun part _ found read => ih read
    | inr b =>
      cases h
      simp

theorem mapM_leaves_getLast (h : parts.mapM (leaves children depth) = some lists)
    (each : ∀ part ∈ parts, ∀ found, leaves children depth part = some found →
      (found.getLast? = some b ↔ Last children part b)) :
    lists.flatten.getLast? = some b ↔ LastOf children (Last children) parts b := by
  induction parts using List.reverseRecOn generalizing lists with
  | nil =>
    cases h
    simp [lastOf_nil]
  | append_singleton parts part ih =>
    simp only [List.mapM_append, List.mapM_cons, List.mapM_nil, Option.bind_eq_bind,
      Option.bind_eq_some_iff, Option.pure_def, Option.some.injEq] at h
    obtain ⟨lists, read, _, ⟨found, last, _, rfl, rfl⟩, rfl⟩ := h
    have before := ih read fun part mem => each part (List.mem_append_left _ mem)
    have here := each part (by simp) found last
    rw [List.flatten_append, List.getLast?_append, lastOf_concat, ← before, ← here,
      ← leaves_eq_nil_iff last]
    cases found.eq_nil_or_concat <;> simp_all

/-- The last of the leaves below is the last leaf. -/
theorem leaves_getLast (h : leaves children depth part = some found) :
    found.getLast? = some b ↔ Last children part b := by
  induction depth generalizing part found with
  | zero =>
    cases part with
    | inl a => cases h
    | inr leaf =>
      cases h
      simp
  | succ depth ih =>
    cases part with
    | inl a =>
      obtain ⟨lists, read, rfl⟩ := Option.map_eq_some_iff.mp h
      rw [last_inl_iff]
      exact mapM_leaves_getLast read fun part _ found read => ih read
    | inr leaf =>
      cases h
      simp

theorem lastOf_iff_getLast (h : parts.mapM (leaves children depth) = some lists) :
    LastOf children (Last children) parts b ↔ lists.flatten.getLast? = some b :=
  (mapM_leaves_getLast h fun _ _ _ read => leaves_getLast read).symm

end Leaves
