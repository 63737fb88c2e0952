import Mathlib.Tactic.IntervalCases
import Yella.Lib.Fallible
import Yella.Plugin.Cleanse

/-!
# What a request asks for

A request by its fields alone: the parts of the names, the numbers of the attribute types. The
plugin reads each request as it is meant.
-/

namespace Yella

/-- A name without the parts that are empty. -/
def withoutEmpty (name : UStr) : UStr :=
  dirSep :: [dirSep].intercalate ((name.splitOn dirSep).filter (· ≠ []))

/-- Names that are not absolute are left out. -/
def askedNames (utf : Utf) (names : Option (List (List UInt8))) : List UStr :=
  (((names.getD []).map utf.fromUtf8).filter (·.head? = some dirSep)).map withoutEmpty

/-- The values of `enum attr_type` of `file.fbs`, from 1 on. -/
def fbAttributeTypes : List AttributeType :=
  [.fileType, .sha256, .posixPermissions, .user, .group, .size, .accessTime, .metadataChangeTime,
    .modificationTime, .posixAcl]

def askedType (fb : UInt16) : Option AttributeType :=
  if fb = 0 then none else fbAttributeTypes[fb.toNat - 1]?

/-- None of the types if one is unknown. -/
def askedTypes (fbs : List UInt16) : List AttributeType :=
  if fbs.all fun fb => (askedType fb).isSome then fbs.filterMap askedType else []

/-- The config with its name, what is to be done with it, and whether it is to watch nothing. -/
def asked (utf : Utf) (pcl : Parcel) : Option MonitorRequest :=
  match pcl.payload.config with
  | some { action, name := some name } => some {
      cfg := {
        name := utf.fromUtf8 name
        recipient := pcl.sender
        includes := askedNames utf pcl.payload.includes
        excludes := askedNames utf pcl.payload.excludes
        attrTypes := askedTypes (pcl.payload.attrTypes.getD [])
        attrTypesFreed := !(pcl.payload.attrTypes.getD []).all fun fb => (askedType fb).isSome }
      act := action
      isEmpty := pcl.payload.includes.getD [] = [] }
  | _ => none

/-! ## Names -/

theorem not_mem_splitOn {name part : UStr} (h : part ∈ name.splitOn dirSep) : dirSep ∉ part := by
  induction name generalizing part with
  | nil =>
    rw [List.splitOn_nil] at h
    simp_all
  | cons c name ih =>
    rw [List.splitOn, List.splitOnP_cons_eq_if_modifyHead] at h
    by_cases sep : c = dirSep
    · rw [if_pos (by simpa using sep)] at h
      rcases List.mem_cons.mp h with rfl | h
      · simp
      · exact ih h
    · rw [if_neg (by simpa using sep)] at h
      change part ∈ (name.splitOn dirSep).modifyHead (List.cons c) at h
      cases parts : name.splitOn dirSep with
      | nil => simp [parts] at h
      | cons first rest =>
        rw [parts, List.modifyHead_cons] at h
        rcases List.mem_cons.mp h with rfl | h
        · have := ih (parts ▸ List.mem_cons_self)
          simp [this, Ne.symm sep]
        · exact ih (parts ▸ List.mem_cons_of_mem _ h)

theorem removeDuplicateDirSeps_part {part : UStr} (plain : dirSep ∉ part) (nonempty : part ≠ [])
    (flag : Bool) (rest : UStr) :
    removeDuplicateDirSeps flag (part ++ rest) = part ++ removeDuplicateDirSeps false rest := by
  induction part generalizing flag with
  | nil => exact absurd rfl nonempty
  | cons c part ih =>
    have other : c ≠ dirSep := fun same => plain (same ▸ List.mem_cons_self)
    rw [List.cons_append, removeDuplicateDirSeps_other other]
    cases part with
    | nil => rfl
    | cons d part =>
      rw [ih (fun there => plain (List.mem_cons_of_mem c there)) (by simp)]
      rfl

/-- One separator stays between two parts, and one may stay behind the last. -/
theorem removeDuplicateDirSeps_intercalate {parts : List UStr}
    (plain : ∀ part ∈ parts, dirSep ∉ part) :
    removeDuplicateDirSeps true ([dirSep].intercalate parts) =
        [dirSep].intercalate (parts.filter (· ≠ [])) ∨
      [dirSep].intercalate (parts.filter (· ≠ [])) ≠ [] ∧
      removeDuplicateDirSeps true ([dirSep].intercalate parts) =
        [dirSep].intercalate (parts.filter (· ≠ [])) ++ [dirSep] := by
  induction parts with
  | nil => exact .inl rfl
  | cons part parts ih =>
    obtain ⟨own, others⟩ := List.forall_mem_cons.mp plain
    cases parts with
    | nil =>
      left
      by_cases empty : part = []
      · subst empty
        rfl
      · have := removeDuplicateDirSeps_part own empty true []
        simpa [empty, removeDuplicateDirSeps] using this
    | cons next parts =>
      have rest := ih others
      rw [List.intercalate_cons_cons, List.append_assoc, List.singleton_append]
      by_cases empty : part = []
      · subst empty
        rw [List.filter_cons_of_neg (by simp), List.nil_append, removeDuplicateDirSeps, if_pos rfl,
          if_pos rfl]
        exact rest
      · rw [List.filter_cons_of_pos (by simpa using empty),
          removeDuplicateDirSeps_part own empty, removeDuplicateDirSeps, if_pos rfl,
          if_neg (by simp)]
        cases kept : (next :: parts).filter (· ≠ []) with
        | nil =>
          rw [kept] at rest
          have none := rest.resolve_right fun h => h.1 rfl
          right
          rw [none]
          exact ⟨by simpa using empty, by simp⟩
        | cons a l =>
          rw [kept] at rest
          rw [List.intercalate_cons_cons, List.append_assoc, List.singleton_append]
          rcases rest with same | ⟨-, same⟩
          · exact .inl (by rw [same])
          · exact .inr ⟨by simp, by rw [same, List.append_assoc, List.cons_append]⟩

theorem getLast?_intercalate {parts : List UStr} (plain : ∀ part ∈ parts, dirSep ∉ part)
    (nonempty : ∀ part ∈ parts, part ≠ []) :
    ([dirSep].intercalate parts).getLast? ≠ some dirSep := by
  induction parts with
  | nil => simp
  | cons part parts ih =>
    obtain ⟨own, others⟩ := List.forall_mem_cons.mp plain
    obtain ⟨filled, filled'⟩ := List.forall_mem_cons.mp nonempty
    cases parts with
    | nil =>
      rw [List.intercalate_singleton]
      exact fun last => own (List.mem_of_getLast? last)
    | cons next parts =>
      have more : [dirSep].intercalate (next :: parts) ≠ [] := by
        cases parts <;> simp [filled' next List.mem_cons_self]
      rw [List.intercalate_cons_cons, List.append_assoc, List.singleton_append,
        List.getLast?_append_of_ne_nil _ (by simp), List.getLast?_cons_of_ne_nil more]
      exact ih others filled'

theorem cleanseFileName_eq (utf : Utf) (utf8 : List UInt8) : cleanseFileName utf utf8 =
    if (utf.fromUtf8 utf8).head? = some dirSep then some (withoutEmpty (utf.fromUtf8 utf8))
    else none := by
  by_cases absolute : (utf.fromUtf8 utf8).head? = some dirSep
  · rw [if_pos absolute]
    obtain ⟨rest, name⟩ := List.head?_eq_some_iff.mp absolute
    have parts : (utf.fromUtf8 utf8).splitOn dirSep = [] :: rest.splitOn dirSep := by
      rw [name, List.splitOn, List.splitOnP_cons_eq_if_modifyHead, if_pos (by simp)]
      rfl
    have collapsed : removeDuplicateDirSeps false (utf.fromUtf8 utf8) =
        dirSep :: removeDuplicateDirSeps true ([dirSep].intercalate (rest.splitOn dirSep)) := by
      rw [name, List.intercalate_splitOn, removeDuplicateDirSeps, if_pos rfl, if_neg (by simp)]
    have ends := @getLast?_intercalate ((rest.splitOn dirSep).filter (· ≠ []))
      (fun part there => not_mem_splitOn (List.mem_of_mem_filter there))
      (fun part there => by simpa using List.of_mem_filter there)
    rw [withoutEmpty, parts, List.filter_cons_of_neg (by simp)]
    have cases := cleanseFileName_cases (by simpa [isFileNameAbsolute] using absolute) rfl
    rcases removeDuplicateDirSeps_intercalate (fun _ => not_mem_splitOn) with
      same | ⟨more, same⟩ <;> rw [collapsed, same] at cases
    · rcases cases with ⟨-, result⟩ | ⟨q, last, -⟩ | ⟨-, -, result⟩
      · exact result
      · -- no separator is left at the end
        rw [(List.cons.inj last).2] at ends
        exact absurd List.getLast?_concat ends
      · exact result
    · rcases cases with ⟨root, -⟩ | ⟨q, last, result⟩ | ⟨-, stays, -⟩
      · simp at root
      · rw [result, List.append_cancel_right (List.cons.inj last).2]
      · rw [← List.cons_append, List.getLast?_concat] at stays
        exact absurd rfl stays
  · rw [if_neg absolute, cleanseFileName]
    simp [isFileNameAbsolute, absolute]

theorem cleanseAll_eq (utf : Utf) (names : Option (List (List UInt8))) :
    cleanseAll utf names = askedNames utf names := by
  rw [cleanseAll, askedNames]
  induction names.getD [] with
  | nil => rfl
  | cons utf8 names ih =>
    rw [List.filterMap_cons, cleanseFileName_eq, ih, List.map_cons, List.filter_cons]
    by_cases absolute : (utf.fromUtf8 utf8).head? = some dirSep <;> simp [absolute]

/-! ## Attribute types -/

theorem fbToAttributeType_eq (fb : UInt16) : fbToAttributeType fb = askedType fb := by
  rw [askedType, fbToAttributeType]
  by_cases known : fb.toNat ≤ 10
  · have value : fb = UInt16.ofNat fb.toNat := by simp
    generalize fb.toNat = n at known value ⊢
    subst value
    interval_cases n <;> rfl
  · have positive : fb ≠ 0 := by
      rintro rfl
      simp at known
    have beyond : fbAttributeTypes.length ≤ fb.toNat - 1 := by
      show 10 ≤ fb.toNat - 1
      omega
    rw [if_neg positive, List.getElem?_eq_none beyond]
    split <;> first | rfl | omega

theorem processAttributes_eq (req : FbMonitorRequest) :
    processAttributes req = askedTypes (req.attrTypes.getD []) := by
  simp only [processAttributes, askedTypes, funext fbToAttributeType_eq, List.all_eq_true]
  generalize req.attrTypes.getD [] = types
  by_cases known : ∀ fb ∈ types, (askedType fb).isSome
  · rw [if_pos known]
    induction types with
    | nil => rfl
    | cons fb fbs ih =>
      obtain ⟨first, rest⟩ := List.forall_mem_cons.mp known
      obtain ⟨t, type⟩ := Option.isSome_iff_exists.mp first
      obtain ⟨ts, all⟩ := Option.isSome_iff_exists.mp (Fallible.mapM_isSome.mpr rest)
      have ih := ih rest
      rw [all, Option.getD_some] at ih
      rw [List.mapM_cons, type, all, List.filterMap_cons_some type, ← ih]
      rfl
  · rw [if_neg known, Fallible.mapM_eq_none]
    · rfl
    · simpa using known

theorem unknownAttrType_eq (req : FbMonitorRequest) : unknownAttrType req =
    !(req.attrTypes.getD []).all fun fb => (askedType fb).isSome := by
  rw [unknownAttrType, funext fbToAttributeType_eq, Bool.eq_iff_iff]
  simp

/-- The plugin reads what the request asks for. -/
theorem readRequest_eq (utf : Utf) (pcl : Parcel) : readRequest utf pcl = asked utf pcl := by
  have empty : includesEmpty pcl.payload = decide (pcl.payload.includes.getD [] = []) := by
    rw [includesEmpty]
    cases pcl.payload.includes <;> simp
  rw [readRequest, processPluginConfig, asked, cleanseAll_eq, cleanseAll_eq, processAttributes_eq,
    unknownAttrType_eq, empty]
  cases pcl.payload.config with
  | none => rfl
  | some config =>
    obtain ⟨action, name⟩ := config
    cases name <;> rfl

end Yella
