import Yella.Element.RoundTrip

/-!
# What a comparison says

A comparison of two storable elements is defined, an element compares equal to itself, and
elements that compare equal have the same attribute types.
-/

namespace Yella

/-- Array lengths below the 32-bit lengths of a stored buffer. -/
def Attribute.Fits : Attribute → Prop
  | .sha256 bytes => bytes.length < 0x100000000
  | .posixAcl entries => entries.length < 0x100000000
  | _ => True

/-- Every comparison of such an element is defined. -/
def Element.Comparable (e : Element) : Prop := ∀ a ∈ e.attrs, a.Storable ∧ a.Fits

theorem memcmp_self (bs : List UInt8) : memcmp bs bs bs.length = some 0 := by
  induction bs with
  | nil => rfl
  | cons b bs ih => simp [memcmp, ih]

theorem memcmp_defined {n : Nat} {as bs : List UInt8} (ha : n ≤ as.length) (hb : n ≤ bs.length) :
    ∃ rc, memcmp as bs n = some rc := by
  induction n generalizing as bs with
  | zero => exact ⟨0, by cases as <;> cases bs <;> rfl⟩
  | succ n ih =>
    cases as with
    | nil => simp at ha
    | cons a as =>
      cases bs with
      | nil => simp at hb
      | cons b bs =>
        simp only [memcmp]
        split
        · exact ih (by simpa using ha) (by simpa using hb)
        · exact ⟨_, rfl⟩

theorem uStrcmp_self (s : UStr) : uStrcmp s s = 0 := by
  induction s with
  | nil => rfl
  | cons c s ih => simp [uStrcmp, ih]

theorem diffInt_self (n : Nat) : diffInt n n = 0 := by simp [diffInt]

theorem diffInt_eq_zero {a b : Nat} (ha : a < 0x100000000) (hb : b < 0x100000000)
    (h : diffInt a b = 0) : a = b := by
  unfold diffInt toInt32 at h; omega

theorem compareUserGroups_self {g : UserGroup} (h : g.name ≠ none) :
    compareUserGroups g g = some 0 := by
  obtain ⟨id, name⟩ := g
  cases name with
  | none => exact absurd rfl h
  | some n => simp [compareUserGroups, diffInt_self, strcmpNames, uStrcmp_self]

theorem compareUserGroups_defined {g h : UserGroup} (hg : g.name ≠ none) (hh : h.name ≠ none) :
    ∃ rc, compareUserGroups g h = some rc := by
  obtain ⟨n, hn⟩ := Option.ne_none_iff_exists'.mp hg
  obtain ⟨m, hm⟩ := Option.ne_none_iff_exists'.mp hh
  unfold compareUserGroups
  split
  · exact ⟨_, by simp only [hn, hm]; rfl⟩
  · exact ⟨_, rfl⟩

theorem compareAclEntries_self {e : PosixAclEntry} (h : e.Storable) :
    compareAclEntries e e = some 0 := by
  simp [compareAclEntries, compareUserGroups_self h.2, memcmp, PosixPermission.bytes]

theorem compareAclEntries_defined {e f : PosixAclEntry} (he : e.Storable) (hf : f.Storable) :
    ∃ rc, compareAclEntries e f = some rc := by
  obtain ⟨rc, hrc⟩ := compareUserGroups_defined he.2 hf.2
  unfold compareAclEntries
  rw [hrc]
  split
  · split
    · exact memcmp_defined (by simp [PosixPermission.bytes]) (by simp [PosixPermission.bytes])
    · exact ⟨rc, rfl⟩
  · exact ⟨_, rfl⟩

theorem compareAcls_self {es : List PosixAclEntry} (h : ∀ e ∈ es, e.Storable) :
    compareAcls 0 es es = some 0 := by
  induction es with
  | nil => rfl
  | cons e es ih =>
    rw [List.forall_mem_cons] at h
    simp [compareAcls, compareAclEntries_self h.1, ih h.2]

theorem compareAcls_defined {l r : List PosixAclEntry} (rc : Int) (hlen : l.length = r.length)
    (hl : ∀ e ∈ l, e.Storable) (hr : ∀ e ∈ r, e.Storable) :
    ∃ rc', compareAcls rc l r = some rc' := by
  induction l generalizing r rc with
  | nil => exact ⟨rc, rfl⟩
  | cons e l ih =>
    cases r with
    | nil => simp at hlen
    | cons f r =>
      rw [List.forall_mem_cons] at hl hr
      obtain ⟨c, hc⟩ := compareAclEntries_defined hl.1 hr.1
      obtain ⟨c', hc'⟩ := ih c (by simpa using hlen) hl.2 hr.2
      exact ⟨c', by simp [compareAcls, hc, hc']⟩

theorem compareAttributes_self {a : Attribute} (h : a.Storable) :
    compareAttributes a a = some 0 := by
  cases a with
  | fileType t => simp [compareAttributes]
  | sha256 bs => simp [compareAttributes, diffInt_self, memcmp_self]
  | posixPermissions p => exact memcmp_self p.bytes
  | user g | group g => exact compareUserGroups_self h
  | size n | accessTime n | metadataChangeTime n | modificationTime n =>
    simp [compareAttributes, diffInt_self]
  | posixAcl es => simp [compareAttributes, diffInt_self, compareAcls_self h]

theorem compareAttributes_type_ne {a b : Attribute} (h : a.type ≠ b.type) :
    compareAttributes a b = some ((a.type.toNat : Int) - b.type.toNat) := by
  cases a <;> cases b <;> first | rfl | exact absurd rfl h

theorem compareAttributes_type {a b : Attribute} (h : compareAttributes a b = some 0) :
    a.type = b.type := by
  by_contra hne
  rw [compareAttributes_type_ne hne, Option.some_inj] at h
  exact hne (AttributeType.toNat_inj.mp (by omega))

theorem compareAttributes_defined {a b : Attribute} (ha : a.Storable ∧ a.Fits)
    (hb : b.Storable ∧ b.Fits) : ∃ rc, compareAttributes a b = some rc := by
  by_cases ht : a.type = b.type
  · cases a <;> cases b <;> simp only [Attribute.type, reduceCtorEq] at ht
    case fileType | size | accessTime | metadataChangeTime | modificationTime => exact ⟨_, rfl⟩
    case sha256 as bs =>
      simp only [compareAttributes]
      split
      · rename_i hd
        have : as.length = bs.length := diffInt_eq_zero ha.2 hb.2 hd
        exact memcmp_defined (Nat.le_refl _) (Nat.le_of_eq this)
      · exact ⟨_, rfl⟩
    case posixPermissions =>
      exact memcmp_defined (by simp [PosixPermissions.bytes, PosixPermission.bytes])
        (by simp [PosixPermissions.bytes, PosixPermission.bytes])
    case user | group => exact compareUserGroups_defined ha.1 hb.1
    case posixAcl l r =>
      simp only [compareAttributes]
      split
      · rename_i hd
        exact compareAcls_defined 0 (diffInt_eq_zero ha.2 hb.2 hd) ha.1 hb.1
      · exact ⟨_, rfl⟩
  · exact ⟨_, compareAttributes_type_ne ht⟩

/-! ## Elements -/

theorem compareAttributeLists_self {as : List Attribute} (h : ∀ a ∈ as, a.Storable) :
    compareAttributeLists as as = some 0 := by
  induction as with
  | nil => rfl
  | cons a as ih =>
    rw [List.forall_mem_cons] at h
    simp [compareAttributeLists, compareAttributes_self h.1, ih h.2]

theorem compareElementAttributes_self {e : Element} (h : e.Comparable) :
    compareElementAttributes e e = some 0 := by
  simp [compareElementAttributes, compareAttributeLists_self (fun a ha => (h a ha).1)]

theorem compareAttributeLists_defined {l r : List Attribute} (hlen : l.length = r.length)
    (hl : ∀ a ∈ l, a.Storable ∧ a.Fits) (hr : ∀ a ∈ r, a.Storable ∧ a.Fits) :
    ∃ rc, compareAttributeLists l r = some rc := by
  induction l generalizing r with
  | nil => exact ⟨0, rfl⟩
  | cons a l ih =>
    cases r with
    | nil => simp at hlen
    | cons b r =>
      rw [List.forall_mem_cons] at hl hr
      obtain ⟨c, hc⟩ := compareAttributes_defined hl.1 hr.1
      simp only [compareAttributeLists, hc]
      split
      · exact ih (by simpa using hlen) hl.2 hr.2
      · exact ⟨c, rfl⟩

theorem compareElementAttributes_defined {e f : Element} (he : e.Comparable)
    (hf : f.Comparable) : ∃ rc, compareElementAttributes e f = some rc := by
  unfold compareElementAttributes
  split
  · rename_i hlen
    exact compareAttributeLists_defined hlen he hf
  · exact ⟨_, rfl⟩

theorem compareAttributeLists_types {l r : List Attribute} (hlen : l.length = r.length)
    (h : compareAttributeLists l r = some 0) : l.map Attribute.type = r.map Attribute.type := by
  induction l generalizing r with
  | nil => cases r with
    | nil => rfl
    | cons b r => simp at hlen
  | cons a l ih =>
    cases r with
    | nil => simp at hlen
    | cons b r =>
      simp only [compareAttributeLists] at h
      split at h
      · rename_i hab
        simp [compareAttributes_type hab, ih (by simpa using hlen) h]
      · rename_i hne
        exact absurd h hne

theorem compareElementAttributes_types {e f : Element}
    (h : compareElementAttributes e f = some 0) :
    e.attrs.map Attribute.type = f.attrs.map Attribute.type := by
  unfold compareElementAttributes at h
  split at h
  · rename_i hlen
    exact compareAttributeLists_types hlen h
  · rename_i hlen
    rw [Option.some_inj] at h
    exact absurd (by omega) hlen

theorem diffKept_defined {attrs2 as : List Attribute}
    (h2 : ∀ a ∈ attrs2, a.Storable ∧ a.Fits) (h : ∀ a ∈ as, a.Storable ∧ a.Fits) :
    ∃ kept, diffKept attrs2 as = some kept := by
  induction as with
  | nil => exact ⟨[], rfl⟩
  | cons a as ih =>
    rw [List.forall_mem_cons] at h
    obtain ⟨rest, hrest⟩ := ih h.2
    simp only [diffKept, hrest, Option.bind_eq_bind, Option.bind_some]
    cases hf : SortedList.find attrKey (attrKey a) attrs2 with
    | none => exact ⟨_, rfl⟩
    | some found =>
      obtain ⟨rc, hrc⟩ := compareAttributes_defined h.1 (h2 found (SortedList.find_some _ hf).1)
      exact ⟨_, by simp [hrc]; rfl⟩

end Yella
