import Yella.Plugin.FileEvent
import Yella.Plugin.Monitor

/-!
# The config that a changed file belongs to

`event_source_file_name_matches_any` of `event_source.c`, over the red-black tree of the
specs. The iterator of `sglib.h` walks a tree in postorder unless it is told otherwise.
-/

namespace Yella

/-- The loop over the specs as they are walked. Both inner loops leave it with
`goto top_break`. -/
def fileNameMatchesAny (fname : UStr) : List EventSourceSpec → Option UStr
  | [] => none
  | spec :: specs =>
    if spec.excludes.any (Glob.fileNameMatches fname) then none
    else if spec.includes.any (Glob.fileNameMatches fname) then some spec.name
    else fileNameMatchesAny fname specs

def eventSourceFileNameMatchesAny (root : BinaryTree EventSourceSpec) (fname : UStr) :
    Option UStr :=
  fileNameMatchesAny fname (SortedList.postorder root)

def EventSourceSpec.Excludes (spec : EventSourceSpec) (fname : UStr) : Prop :=
  ∃ pattern ∈ spec.excludes, Glob.fileNameMatches fname pattern = true

/-- The spec by itself wants the events of the file. -/
def EventSourceSpec.Takes (spec : EventSourceSpec) (fname : UStr) : Prop :=
  (∃ pattern ∈ spec.includes, Glob.fileNameMatches fname pattern = true) ∧
    ¬ spec.Excludes fname

/-- A file is routed to a spec that takes it, if there is one. -/
def RoutedTo (specs : List EventSourceSpec) (fname : UStr) (result : Option UStr) : Prop :=
  (result.isSome ↔ ∃ spec ∈ specs, spec.Takes fname) ∧
    ∀ name, result = some name → ∃ spec ∈ specs, spec.Takes fname ∧ spec.name = name

/-- A spec that excludes the file is walked before the first one that takes it. -/
def Hidden (walk : List EventSourceSpec) (fname : UStr) : Prop :=
  ∃ before hider after, walk = before ++ hider :: after ∧ hider.Excludes fname ∧
    (∀ spec ∈ before, ¬ spec.Takes fname) ∧ ∃ spec ∈ after, spec.Takes fname

theorem excludes_any {spec : EventSourceSpec} {fname : UStr} :
    spec.excludes.any (Glob.fileNameMatches fname) = true ↔ spec.Excludes fname := by
  simp [EventSourceSpec.Excludes]

theorem hidden_cons_of_excludes {spec : EventSourceSpec} {rest : List EventSourceSpec}
    {fname : UStr} (excluded : spec.Excludes fname) (wanted : ∃ other ∈ rest, other.Takes fname) :
    Hidden (spec :: rest) fname :=
  ⟨[], spec, rest, rfl, excluded, by simp, wanted⟩

theorem hidden_cons {spec : EventSourceSpec} {rest : List EventSourceSpec} {fname : UStr}
    (kept : ¬ spec.Excludes fname) :
    Hidden (spec :: rest) fname ↔ ¬ spec.Takes fname ∧ Hidden rest fname := by
  constructor
  · rintro ⟨before, hider, after, walk, excluded, first, wanted⟩
    cases before with
    | nil =>
      rw [List.nil_append, List.cons.injEq] at walk
      exact absurd (walk.1 ▸ excluded) kept
    | cons other before =>
      rw [List.cons_append, List.cons.injEq] at walk
      obtain ⟨rfl, rfl⟩ := walk
      rw [List.forall_mem_cons] at first
      exact ⟨first.1, before, hider, after, rfl, excluded, first.2, wanted⟩
  · rintro ⟨skip, before, hider, after, rfl, excluded, first, wanted⟩
    exact ⟨spec :: before, hider, after, rfl, excluded, List.forall_mem_cons.mpr ⟨skip, first⟩,
      wanted⟩

theorem fileNameMatchesAny_takes {fname name : UStr} {walk : List EventSourceSpec}
    (h : fileNameMatchesAny fname walk = some name) :
    ∃ spec ∈ walk, spec.Takes fname ∧ spec.name = name := by
  induction walk with
  | nil => cases h
  | cons spec rest ih =>
    simp only [fileNameMatchesAny] at h
    split at h
    · cases h
    · rename_i kept
      split at h
      · rename_i included
        refine ⟨spec, List.mem_cons_self, ⟨List.any_eq_true.mp included, ?_⟩, Option.some_inj.mp h⟩
        rwa [excludes_any] at kept
      · obtain ⟨found, hf, taken⟩ := ih h
        exact ⟨found, List.mem_cons_of_mem _ hf, taken⟩

theorem fileNameMatchesAny_isSome_iff (fname : UStr) (walk : List EventSourceSpec) :
    (fileNameMatchesAny fname walk).isSome ↔
      (∃ spec ∈ walk, spec.Takes fname) ∧ ¬ Hidden walk fname := by
  induction walk with
  | nil => simp [fileNameMatchesAny]
  | cons spec rest ih =>
    simp only [fileNameMatchesAny, List.exists_mem_cons_iff]
    by_cases excluded : spec.Excludes fname
    · have lost : ¬ spec.Takes fname := fun h => h.2 excluded
      simp only [excludes_any.mpr excluded, ↓reduceIte, Option.isSome_none, Bool.false_eq_true,
        lost, false_or, false_iff, not_and, not_not]
      exact hidden_cons_of_excludes excluded
    · rw [if_neg (mt excludes_any.mp excluded), hidden_cons excluded]
      by_cases included : spec.includes.any (Glob.fileNameMatches fname) = true
      · have taken : spec.Takes fname := ⟨List.any_eq_true.mp included, excluded⟩
        simp [included, taken]
      · have skip : ¬ spec.Takes fname := fun h => included (List.any_eq_true.mpr h.1)
        simp [included, ih, skip]

/-- The file goes where it should unless a spec hides it from the ones behind. -/
theorem routedTo_iff_not_hidden {specs : SpecTree} {root : BinaryTree EventSourceSpec}
    (shape : specs.ShapedAs root) (fname : UStr) :
    RoutedTo specs.nodes fname (eventSourceFileNameMatchesAny root fname) ↔
      ¬ Hidden (SortedList.postorder root) fname := by
  have found := fileNameMatchesAny_isSome_iff fname (SortedList.postorder root)
  simp only [shape.mem_postorder] at found
  constructor
  · rintro ⟨whole, -⟩ hidden
    obtain ⟨before, hider, after, walk, excluded, first, spec, hs, taken⟩ := hidden
    have known : spec ∈ specs.nodes := by
      rw [← shape.mem_postorder, walk]
      exact List.mem_append_right _ (List.mem_cons_of_mem _ hs)
    exact (found.mp (whole.mpr ⟨spec, known, taken⟩)).2
      ⟨before, hider, after, walk, excluded, first, spec, hs, taken⟩
  · intro seen
    refine ⟨⟨fun h => (found.mp h).1, fun h => found.mpr ⟨h, seen⟩⟩, ?_⟩
    intro name h
    obtain ⟨spec, hs, taken⟩ := fileNameMatchesAny_takes h
    exact ⟨spec, shape.mem_postorder.mp hs, taken⟩

/-- `b` includes the file `f`, and `a` excludes it. -/
def hidingSpecs : SpecTree :=
  addOrReplaceEventSourceSpec
    (addOrReplaceEventSourceSpec .empty ⟨[98], [[102]], []⟩) ⟨[97], [[103]], [[102]]⟩

/-- The tree after both have been added. -/
def hidingShape : BinaryTree EventSourceSpec :=
  .node ⟨[98], [[102]], []⟩ (.node ⟨[97], [[103]], [[102]]⟩ .nil .nil) .nil

theorem hidingSpecs_shape : hidingSpecs.ShapedAs hidingShape := by
  show SortedList.inorder _ = _
  decide +kernel

theorem plain_f : Glob.fileNameMatches [102] [102] = true := plainName_matches_self (by decide)

theorem exclude_hides_match :
    hidingSpecs.Distinct ∧ hidingSpecs.ShapedAs hidingShape ∧
      ¬ RoutedTo hidingSpecs.nodes [102] (eventSourceFileNameMatchesAny hidingShape [102]) := by
  refine ⟨by show List.Nodup _; decide +kernel, hidingSpecs_shape, ?_⟩
  rintro ⟨whole, -⟩
  have lost : eventSourceFileNameMatchesAny hidingShape [102] = none := by
    simp [eventSourceFileNameMatchesAny, hidingShape, SortedList.postorder, fileNameMatchesAny,
      plain_f]
  rw [lost] at whole
  have wanted : (⟨[98], [[102]], []⟩ : EventSourceSpec) ∈ hidingSpecs.nodes := by decide +kernel
  have asked := whole.mpr ⟨_, wanted, ⟨[102], by simp, plain_f⟩, by simp [EventSourceSpec.Excludes]⟩
  exact absurd asked (by simp)

/-- The file `g` is routed to `a`, which is walked first. -/
theorem routedTo_first :
    hidingSpecs.ShapedAs hidingShape ∧
      RoutedTo hidingSpecs.nodes [103] (eventSourceFileNameMatchesAny hidingShape [103]) := by
  refine ⟨hidingSpecs_shape, (routedTo_iff_not_hidden hidingSpecs_shape [103]).mpr ?_⟩
  have other : Glob.fileNameMatches [103] [102] = false := by
    simp [Glob.fileNameMatches, Glob.fileNameMatchesImpl, star, backslash, question]
  have kept : ¬ (⟨[97], [[103]], [[102]]⟩ : EventSourceSpec).Excludes [103] := by
    simp [EventSourceSpec.Excludes, other]
  simp only [hidingShape, SortedList.postorder, List.append_nil, List.nil_append,
    List.cons_append, hidden_cons kept, not_and]
  intro skip
  exact absurd ⟨⟨[103], by simp, plainName_matches_self (by decide)⟩, kept⟩ skip

end Yella
