import Yella.Element.Exact

/-!
# Attributes that compare equal

A comparison looks at a part of each value only. Still, values that compare equal to a third one
compare equal to each other.
-/

namespace Yella

theorem SameWord.euclid {a b c : ℕ} (first : SameWord a b) (second : SameWord c b) :
    SameWord a c :=
  Eq.trans first (Eq.symm second)

/-! ## Users, groups and entries -/

theorem compareUserGroups_zero_iff {l r : UserGroup} (hl : l.Terminated) (hr : r.Terminated) :
    compareUserGroups l r = some 0 ↔
      SameWord l.id.toNat r.id.toNat ∧ l.name ≠ none ∧ l.name = r.name := by
  unfold compareUserGroups
  split
  · rename_i zero
    rw [diffInt_eq_zero_iff] at zero
    cases named : l.name with
    | none => simp [strcmpNames]
    | some m =>
      cases named' : r.name with
      | none => simp [strcmpNames]
      | some n =>
        have same := uStrcmp_eq_zero_iff (hl m named) (hr n named')
        simp [strcmpNames, zero, same]
  · rename_i differs
    have apart : ¬ SameWord l.id.toNat r.id.toNat := mt diffInt_eq_zero_iff.mpr differs
    simp [differs, apart]

theorem compareUserGroups_euclid {l m r : UserGroup} (hl : l.Terminated) (hm : m.Terminated)
    (hr : r.Terminated) (first : compareUserGroups l m = some 0)
    (second : compareUserGroups r m = some 0) : compareUserGroups l r = some 0 := by
  rw [compareUserGroups_zero_iff hl hm] at first
  rw [compareUserGroups_zero_iff hr hm] at second
  rw [compareUserGroups_zero_iff hl hr]
  obtain ⟨word, named, same⟩ := first
  obtain ⟨word', -, same'⟩ := second
  exact ⟨word.euclid word', named, same.trans same'.symm⟩

theorem memcmp_zero_iff {as bs : List UInt8} (h : as.length = bs.length) :
    memcmp as bs as.length = some 0 ↔ as = bs := by
  obtain ⟨n, eq, zero⟩ := tells_memcmp_of_length h
  rw [eq, Option.some_inj]
  exact zero

theorem compareAclEntries_zero_iff {e f : PosixAclEntry} :
    compareAclEntries e f = some 0 ↔
      e.type = f.type ∧ compareUserGroups e.usrGrp f.usrGrp = some 0 ∧ e.perm = f.perm := by
  unfold compareAclEntries
  split
  · rename_i same
    have len : e.perm.bytes.length = f.perm.bytes.length := rfl
    have perms : memcmp e.perm.bytes f.perm.bytes 3 = some 0 ↔ e.perm = f.perm :=
      (memcmp_zero_iff len).trans PosixPermission.bytes_inj
    have type : e.type = f.type := PosixAclEntryType.toInt_inj.mp same
    split
    · rename_i zero
      rw [perms, zero]
      exact ⟨fun perm => ⟨type, rfl, perm⟩, fun all => all.2.2⟩
    · rename_i differs
      exact ⟨fun zero => absurd zero differs, fun all => absurd all.2.1 differs⟩
  · rename_i other
    have type : e.type ≠ f.type := fun same => other (PosixAclEntryType.toInt_inj.mpr same)
    exact ⟨fun zero => absurd (Option.some_inj.mp zero) other, fun all => absurd all.1 type⟩

theorem compareAclEntries_euclid {e f g : PosixAclEntry} (he : e.usrGrp.Terminated)
    (hf : f.usrGrp.Terminated) (hg : g.usrGrp.Terminated)
    (first : compareAclEntries e f = some 0) (second : compareAclEntries g f = some 0) :
    compareAclEntries e g = some 0 := by
  rw [compareAclEntries_zero_iff] at first second ⊢
  obtain ⟨type, groups, perm⟩ := first
  obtain ⟨type', groups', perm'⟩ := second
  exact ⟨type.trans type'.symm, compareUserGroups_euclid he hf hg groups groups',
    perm.trans perm'.symm⟩

/-! ## Lists of entries -/

/-- Where every entry can be compared, the last ones decide. -/
theorem compareAcls_zero_iff {l r : List PosixAclEntry} (rc : ℤ) (len : l.length = r.length)
    (hl : ∀ e ∈ l, e.Storable) (hr : ∀ e ∈ r, e.Storable) :
    compareAcls rc l r = some 0 ↔
      (l = [] → rc = 0) ∧
        ∀ e ∈ l.getLast?, ∀ f ∈ r.getLast?, compareAclEntries e f = some 0 := by
  induction l generalizing r rc with
  | nil => simp [compareAcls]
  | cons e l ih =>
    cases r with
    | nil => simp at len
    | cons f r =>
      rw [List.forall_mem_cons] at hl hr
      obtain ⟨c, compared⟩ := compareAclEntries_defined hl.1 hr.1
      have len' : l.length = r.length := by simpa using len
      rw [compareAcls, compared, Option.bind_eq_bind, Option.bind_some, ih c len' hl.2 hr.2]
      cases l with
      | nil =>
        have none' : r = [] := List.eq_nil_of_length_eq_zero len'.symm
        simp [none', compared]
      | cons e' l =>
        cases r with
        | nil => simp at len'
        | cons f' r => simp [List.getLast?_cons_cons]

theorem compareAcls_euclid {l m r : List PosixAclEntry} (len : l.length = m.length)
    (len' : r.length = m.length) (hl : ∀ e ∈ l, e.Storable ∧ e.usrGrp.Terminated)
    (hm : ∀ e ∈ m, e.Storable ∧ e.usrGrp.Terminated)
    (hr : ∀ e ∈ r, e.Storable ∧ e.usrGrp.Terminated) (first : compareAcls 0 l m = some 0)
    (second : compareAcls 0 r m = some 0) : compareAcls 0 l r = some 0 := by
  rw [compareAcls_zero_iff 0 len (fun e he => (hl e he).1) (fun e he => (hm e he).1)] at first
  rw [compareAcls_zero_iff 0 len' (fun e he => (hr e he).1) (fun e he => (hm e he).1)] at second
  rw [compareAcls_zero_iff 0 (len.trans len'.symm) (fun e he => (hl e he).1)
    (fun e he => (hr e he).1)]
  refine ⟨fun _ => rfl, fun e he f hf => ?_⟩
  have some : m ≠ [] := by
    rintro rfl
    rw [List.eq_nil_of_length_eq_zero len] at he
    cases he
  obtain ⟨g, hg⟩ := Option.ne_none_iff_exists'.mp (mt List.getLast?_eq_none_iff.mp some)
  apply compareAclEntries_euclid (hl e (List.mem_of_mem_getLast? he)).2
    (hm g (List.mem_of_mem_getLast? hg)).2 (hr f (List.mem_of_mem_getLast? hf)).2
  · exact first.2 e he g hg
  · exact second.2 f hf g hg

/-! ## Attributes -/

/-- What there is to say of every attribute of a stored element whose names are C strings. -/
structure Attribute.Proper (a : Attribute) : Prop where
  storable : a.Storable
  fits : a.Fits
  terminated : a.Terminated

theorem compareSha256_zero_iff {as bs : List UInt8} (ha : as.length < 0x100000000)
    (hb : bs.length < 0x100000000) :
    compareAttributes (.sha256 as) (.sha256 bs) = some 0 ↔ as = bs := by
  simp only [compareAttributes, diffInt_eq_zero_iff, sameWord_of_lt ha hb]
  split
  · rename_i len
    exact memcmp_zero_iff len
  · rename_i len
    constructor
    · intro zero
      exact absurd (diffInt_eq_zero ha hb (Option.some_inj.mp zero)) len
    · exact fun same => absurd (congrArg List.length same) len

theorem comparePosixAcl_zero_iff {l r : List PosixAclEntry} (hl : l.length < 0x100000000)
    (hr : r.length < 0x100000000) :
    compareAttributes (.posixAcl l) (.posixAcl r) = some 0 ↔
      l.length = r.length ∧ compareAcls 0 l r = some 0 := by
  simp only [compareAttributes, diffInt_eq_zero_iff, sameWord_of_lt hl hr]
  split
  · rename_i len
    exact ⟨fun zero => ⟨len, zero⟩, fun both => both.2⟩
  · rename_i len
    constructor
    · intro zero
      exact absurd (diffInt_eq_zero hl hr (Option.some_inj.mp zero)) len
    · exact fun both => absurd both.1 len

/-- **Equal comparisons compose.** -/
theorem compareAttributes_euclid {a b c : Attribute} (ha : a.Proper) (hb : b.Proper)
    (hc : c.Proper) (first : compareAttributes a b = some 0)
    (second : compareAttributes c b = some 0) : compareAttributes a c = some 0 := by
  have type := compareAttributes_type first
  have type' := compareAttributes_type second
  obtain ⟨sa, fa, ta⟩ := ha
  obtain ⟨sb, fb, tb⟩ := hb
  obtain ⟨sc, fc, tc⟩ := hc
  cases a <;> cases b <;> simp only [Attribute.type, reduceCtorEq] at type <;>
    cases c <;> simp only [Attribute.type, reduceCtorEq] at type'
  case fileType x y z =>
    simp only [compareAttributes, Option.some_inj] at first second ⊢
    omega
  case sha256 as bs cs =>
    rw [compareSha256_zero_iff fa fb] at first
    rw [compareSha256_zero_iff fc fb] at second
    rw [compareSha256_zero_iff fa fc]
    exact first.trans second.symm
  case posixPermissions p q r =>
    have len : p.bytes.length = q.bytes.length := rfl
    have len' : r.bytes.length = q.bytes.length := rfl
    have same : p.bytes = q.bytes := (memcmp_zero_iff len).mp first
    have same' : r.bytes = q.bytes := (memcmp_zero_iff len').mp second
    exact (memcmp_zero_iff (len.trans len'.symm)).mpr (same.trans same'.symm)
  case user l m r => exact compareUserGroups_euclid ta tb tc first second
  case group l m r => exact compareUserGroups_euclid ta tb tc first second
  case size | accessTime | metadataChangeTime | modificationTime =>
    simp only [compareAttributes, Option.some_inj, diffInt_eq_zero_iff] at first second ⊢
    exact first.euclid second
  case posixAcl l m r =>
    rw [comparePosixAcl_zero_iff fa fb] at first
    rw [comparePosixAcl_zero_iff fc fb] at second
    rw [comparePosixAcl_zero_iff fa fc]
    refine ⟨first.1.trans second.1.symm, ?_⟩
    apply compareAcls_euclid first.1 second.1 _ _ _ first.2 second.2
    · exact fun e he => ⟨sa e he, ta e he⟩
    · exact fun e he => ⟨sb e he, tb e he⟩
    · exact fun e he => ⟨sc e he, tc e he⟩

end Yella
