import Yella.Element.Exact
import Yella.Lib.Comparator

/-!
# Order of access control lists

`get_posix_acl` sorts the entries, since the system may list them in any order and
`compare_attributes` compares two lists entry by entry. The order is that of
`qsort_compare_posix_acl_entries`, which cuts the difference of two ids to an `int`.
-/

namespace Yella

open Comparator

/-- `none` when it reads an absent name. -/
def qsortComparePosixAclEntries (e₁ e₂ : PosixAclEntry) : Option Int :=
  if e₁.type.toInt - e₂.type.toInt = 0 then compareUserGroups e₁.usrGrp e₂.usrGrp
  else some (e₁.type.toInt - e₂.type.toInt)

/-- An entry as `acl_get_entry` gives it. The qualifier is read for users and groups. -/
structure ListedEntry where
  tag : PosixAclEntryType
  qualifier : UInt32
  permset : PosixPermission
  deriving DecidableEq, Repr

/-- `getUserName` and `getGroupName` give an empty name for an id that has none. -/
def resultEntry (getUserName getGroupName : UInt64 → UStr) (entry : ListedEntry) :
    PosixAclEntry where
  type := entry.tag
  usrGrp :=
    match entry.tag with
    | .user => ⟨entry.qualifier.toUInt64, some (getUserName entry.qualifier.toUInt64)⟩
    | .group => ⟨entry.qualifier.toUInt64, some (getGroupName entry.qualifier.toUInt64)⟩
    | _ => ⟨0, none⟩
  perm := entry.permset

/-- The list is `none` when the system has none for the file. -/
def getPosixAcl (qsort : List PosixAclEntry → List PosixAclEntry)
    (getUserName getGroupName : UInt64 → UStr) (acl : Option (List ListedEntry)) :
    Option (List PosixAclEntry) :=
  acl.map fun entries => qsort (entries.map (resultEntry getUserName getGroupName))

/-! ## The order of the entries -/

/-- The comparator where it has a result. -/
def aclOrder (e₁ e₂ : PosixAclEntry) : Int := (qsortComparePosixAclEntries e₁ e₂).getD 0

/-- The sorted list does not depend on the order of the entries. -/
structure OrderForgotten (l : List PosixAclEntry) : Prop where
  namesThere : ∀ e ∈ l, ∀ f ∈ l, e ≠ f → (qsortComparePosixAclEntries e f).isSome
  ordered : StrictTotalOn aclOrder {e | e ∈ l}
  alike : ∀ qsort, Sorts aclOrder qsort → ∀ m, m.Perm l → qsort m = qsort l

def PosixAclEntry.id (e : PosixAclEntry) : Int := e.usrGrp.id.toNat

/-- For each type, the ids of the entries are less than 2³¹ above some number, modulo 2³². -/
def IdsOnHalf (l : List PosixAclEntry) : Prop :=
  ∀ type, OnHalf 0x80000000 PosixAclEntry.id {e | e ∈ l ∧ e.type = type}

section
variable {l : List PosixAclEntry}
  (ids : ∀ e ∈ l, e.usrGrp.id.toNat < 0x100000000)
  (distinct : (l.map fun e => (e.type, e.usrGrp.id)).Nodup)
include ids distinct

/-- Entries of one type that differ have ids that are different words. -/
theorem wordsDiffer_ids (type : PosixAclEntryType) :
    WordsDiffer 0x80000000 PosixAclEntry.id {e | e ∈ l ∧ e.type = type} := by
  rintro e ⟨he, ht⟩ f ⟨hf, ht'⟩ same
  apply List.inj_on_of_nodup_map distinct he hf
  have lo := ids e he
  have hi := ids f hf
  have words : e.usrGrp.id.toNat = f.usrGrp.id.toNat := by
    dsimp only [PosixAclEntry.id] at same
    omega
  rw [ht, ht', UInt64.toNat_inj.mp words]

/-- The comparison ends at the ids. -/
theorem qsortCompare_eq {e f : PosixAclEntry} (he : e ∈ l) (hf : f ∈ l) (ne : e ≠ f) :
    qsortComparePosixAclEntries e f =
      some (andThen (fun e f => e.type.toInt - f.type.toInt)
        (fun e f => wrap 0x80000000 (e.id - f.id)) e f) := by
  unfold qsortComparePosixAclEntries andThen
  split
  · rename_i types
    have words : ¬ diffInt e.usrGrp.id.toNat f.usrGrp.id.toNat = 0 := by
      intro zero
      have := diffInt_eq_zero (ids e he) (ids f hf) zero
      apply ne
      apply List.inj_on_of_nodup_map distinct he hf
      rw [PosixAclEntryType.toInt_inj.mp types, UInt64.toNat_inj.mp this]
    rw [compareUserGroups, if_neg words]
    rfl
  · rfl

theorem strictTotalOn_aclOrder_iff :
    StrictTotalOn aclOrder {e | e ∈ l} ↔ IdsOnHalf l := by
  have eq : ∀ e ∈ l, ∀ f ∈ l, e ≠ f → aclOrder e f = andThen
      (fun e f => e.type.toInt - f.type.toInt) (fun e f => wrap 0x80000000 (e.id - f.id)) e f := by
    intro e he f hf ne
    rw [aclOrder, qsortCompare_eq ids distinct he hf ne]
    rfl
  have same : StrictTotalOn aclOrder {e | e ∈ l} ↔
      StrictTotalOn (andThen (fun e f => e.type.toInt - f.type.toInt)
        (fun e f => wrap 0x80000000 (e.id - f.id))) {e | e ∈ l} :=
    ⟨fun h => h.congr eq, fun h => h.congr fun e he f hf ne => (eq e he f hf ne).symm⟩
  have types : Function.Injective PosixAclEntryType.toInt :=
    fun s t h => PosixAclEntryType.toInt_inj.mp (Int.sub_eq_zero.mpr h)
  rw [same, strictTotalOn_andThen_iff types]
  apply forall_congr'
  intro type
  have finite : {e | e ∈ l ∧ e.type = type}.Finite := l.finite_toSet.subset fun e he => he.1
  exact (strictTotalOn_wrap_iff (by decide) finite).trans
    (and_iff_left (wordsDiffer_ids ids distinct type))

/-- **ACL order.** The order of the entries is forgotten exactly if the ids of each type are on one
half of the circle of 32-bit words. -/
theorem orderForgotten_iff : OrderForgotten l ↔ IdsOnHalf l := by
  constructor
  · intro forgotten
    exact (strictTotalOn_aclOrder_iff ids distinct).mp forgotten.ordered
  · intro half
    have total := (strictTotalOn_aclOrder_iff ids distinct).mpr half
    refine ⟨?_, total, ?_⟩
    · intro e he f hf ne
      rw [qsortCompare_eq ids distinct he hf ne]
      rfl
    · exact (sort_eq_of_perm_iff (List.Nodup.of_map _ distinct)).mpr total

end

theorem resultEntry_id_lt (getUserName getGroupName : UInt64 → UStr) (entry : ListedEntry) :
    (resultEntry getUserName getGroupName entry).usrGrp.id.toNat < 0x100000000 := by
  have small : entry.qualifier.toUInt64.toNat < 0x100000000 := by
    rw [UInt32.toNat_toUInt64]
    exact entry.qualifier.toNat_lt
  obtain ⟨tag, qualifier, permset⟩ := entry
  cases tag with
  | user | group => exact small
  | mask | userObj | groupObj | other =>
    show (0 : UInt64).toNat < 0x100000000
    decide

/-- Two listings of the same entries give the same attribute while the ids are near each other. -/
theorem getPosixAcl_of_perm {qsort : List PosixAclEntry → List PosixAclEntry}
    (sorts : Sorts aclOrder qsort) {getUserName getGroupName : UInt64 → UStr}
    {entries listed : List ListedEntry}
    (distinct : ((entries.map (resultEntry getUserName getGroupName)).map
      fun e => (e.type, e.usrGrp.id)).Nodup)
    (half : IdsOnHalf (entries.map (resultEntry getUserName getGroupName)))
    (perm : listed.Perm entries) :
    getPosixAcl qsort getUserName getGroupName (some listed) =
      getPosixAcl qsort getUserName getGroupName (some entries) := by
  have ids : ∀ e ∈ entries.map (resultEntry getUserName getGroupName),
      e.usrGrp.id.toNat < 0x100000000 := by
    intro e he
    obtain ⟨entry, -, rfl⟩ := List.mem_map.mp he
    exact resultEntry_id_lt getUserName getGroupName entry
  have total := (strictTotalOn_aclOrder_iff ids distinct).mpr half
  apply congrArg some
  exact sorts.eq_of_perm (List.Nodup.of_map _ distinct) total (perm.map _)

def userEntry (id : UInt64) : PosixAclEntry := ⟨.user, ⟨id, some [97]⟩, ⟨true, false, false⟩⟩

def userEntries (ids : List UInt64) : List PosixAclEntry := ids.map userEntry

theorem orderForgotten_users :
    ((∀ e ∈ userEntries [0, 1000], e.usrGrp.id.toNat < 0x100000000) ∧
      ((userEntries [0, 1000]).map fun e => (e.type, e.usrGrp.id)).Nodup) ∧
      OrderForgotten (userEntries [0, 1000]) := by
  have ids : ∀ e ∈ userEntries [0, 1000], e.usrGrp.id.toNat < 0x100000000 := by decide
  have distinct : ((userEntries [0, 1000]).map fun e => (e.type, e.usrGrp.id)).Nodup := by decide
  refine ⟨⟨ids, distinct⟩, ?_⟩
  apply (orderForgotten_iff ids distinct).mpr
  intro type
  refine ⟨0, ?_⟩
  rintro e ⟨he, -⟩
  have near : ∀ e ∈ userEntries [0, 1000], (e.id - 0) % (2 * 0x80000000) < 0x80000000 := by decide
  exact near e he

/-- Three users each of whom goes before the next, around the circle. -/
theorem not_orderForgotten_around :
    ((∀ e ∈ userEntries [0, 1500000000, 3000000000], e.usrGrp.id.toNat < 0x100000000) ∧
      ((userEntries [0, 1500000000, 3000000000]).map fun e => (e.type, e.usrGrp.id)).Nodup) ∧
      ¬ OrderForgotten (userEntries [0, 1500000000, 3000000000]) := by
  refine ⟨⟨by decide, by decide⟩, ?_⟩
  intro forgotten
  have first : aclOrder (userEntry 0) (userEntry 3000000000) < 0 :=
    forgotten.ordered.trans (userEntry 0) (by decide) (userEntry 1500000000) (by decide)
      (userEntry 3000000000) (by decide) (by decide) (by decide) (by decide) (by decide)
  exact absurd first (by decide)

end Yella
