import Yella.Element.Pack
import Yella.Lib.Fallible

/-!
# Which elements read back unchanged

`pack_attribute` writes all six types of ACL entry, and a qualifier only for users and
groups. `create_attribute_from_table` reads the qualifier of every entry, so one entry of
another type makes the whole element unreadable. Attributes of one type come back in
reverse order.
-/

namespace Yella

/-- A user or group whose name is there. -/
def PosixAclEntry.Storable (e : PosixAclEntry) : Prop :=
  (e.type = .user ∨ e.type = .group) ∧ e.usrGrp.name ≠ none

def Attribute.Storable : Attribute → Prop
  | .user g => g.name ≠ none
  | .group g => g.name ≠ none
  | .posixAcl entries => ∀ e ∈ entries, e.Storable
  | _ => True

instance (e : PosixAclEntry) : Decidable e.Storable :=
  inferInstanceAs (Decidable ((e.type = .user ∨ e.type = .group) ∧ e.usrGrp.name ≠ none))

instance (a : Attribute) : Decidable a.Storable :=
  match a with
  | .user g => inferInstanceAs (Decidable (g.name ≠ none))
  | .group g => inferInstanceAs (Decidable (g.name ≠ none))
  | .posixAcl entries => inferInstanceAs (Decidable (∀ e ∈ entries, e.Storable))
  | .fileType _ | .sha256 _ | .posixPermissions _ | .size _ | .accessTime _
  | .metadataChangeTime _ | .modificationTime _ => .isTrue trivial

def Attribute.names : Attribute → List UStr
  | .user g => g.name.toList
  | .group g => g.name.toList
  | .posixAcl entries => entries.flatMap (fun e => e.usrGrp.name.toList)
  | _ => []

def Element.names (e : Element) : List UStr := e.attrs.flatMap Attribute.names

/-- The attributes of one type, in list order. -/
def Element.ofType (e : Element) (t : AttributeType) : List Attribute :=
  e.attrs.filter (fun a => a.type = t)

section
variable {utf : Utf}

/-! ## Permissions -/

theorem unpackPermission_packPermission (p : PosixPermission) :
    unpackPermission (packPermission p) = p := rfl

theorem unpackPermissionIfPresent_packPermissionIfSet (p : PosixPermission) :
    unpackPermissionIfPresent (packPermissionIfSet p) = p := by
  obtain ⟨r, w, x⟩ := p
  cases r <;> cases w <;> cases x <;> rfl

/-! ## Users, groups and ACL entries -/

theorem userGroup_reads_back {g : UserGroup} (hutf : utf.InverseOn g.name.toList)
    (h : g.name ≠ none) :
    ∃ fb, packUserGroup utf g = some fb ∧ unpackUserGroup utf (some fb) = some g := by
  obtain ⟨id, name⟩ := g
  cases name with
  | none => exact absurd rfl h
  | some n =>
    obtain ⟨u, hto, hfrom⟩ := hutf.back (s := n) (by simp)
    exact ⟨⟨id, some u⟩, by simp [packUserGroup, hto], by simp [unpackUserGroup, hfrom]⟩

theorem packUserGroup_none {g : UserGroup} (h : g.name = none) : packUserGroup utf g = none := by
  simp [packUserGroup, h]

/-- Packing an entry and reading it back. -/
def aclEntryBack (utf : Utf) (e : PosixAclEntry) : Option PosixAclEntry :=
  (packAclEntry utf e).bind (unpackAclEntry utf)

theorem aclEntryBack_storable {e : PosixAclEntry}
    (hutf : utf.InverseOn e.usrGrp.name.toList) (h : e.Storable) :
    aclEntryBack utf e = some e := by
  obtain ⟨fb, hp, hu⟩ := userGroup_reads_back hutf h.2
  obtain ⟨type, usrGrp, perm⟩ := e
  rcases h.1 with rfl | rfl <;>
    simp_all [aclEntryBack, packAclEntry, unpackAclEntry, aclEntryTypeToFb,
      unpackPermission_packPermission]

theorem aclEntryBack_not_storable {e : PosixAclEntry} (h : ¬ e.Storable) :
    aclEntryBack utf e = none := by
  by_cases ht : e.type = .user ∨ e.type = .group
  · have hn : e.usrGrp.name = none := by
      by_contra hn
      exact h ⟨ht, hn⟩
    simp [aclEntryBack, packAclEntry, ht, packUserGroup_none hn]
  · -- the entry is packed without a qualifier, and the reader wants one
    simp [aclEntryBack, packAclEntry, ht, unpackAclEntry, unpackUserGroup]

/-! ## Attributes -/

def attributeBack (utf : Utf) (a : Attribute) : Option Attribute :=
  (packAttribute utf a).bind (createAttributeFromTable utf)

theorem attributeBack_posixAcl (entries : List PosixAclEntry) :
    attributeBack utf (.posixAcl entries) =
      (entries.mapM (aclEntryBack utf)).map .posixAcl := by
  cases entries with
  | nil => rfl
  | cons e es =>
    show _ = (((e :: es).mapM (fun x => (packAclEntry utf x).bind (unpackAclEntry utf))).map _)
    rw [← Fallible.mapM_bind_mapM]
    simp only [attributeBack, packAttribute, List.length_cons, Nat.zero_lt_succ, ↓reduceIte,
      Option.bind_eq_bind]
    cases (e :: es).mapM (packAclEntry utf) <;> simp [createAttributeFromTable]

theorem attributeBack_storable {a : Attribute} (hutf : utf.InverseOn a.names) (h : a.Storable) :
    attributeBack utf a = some a := by
  cases a with
  | user g | group g =>
    obtain ⟨fb, hp, hu⟩ := userGroup_reads_back hutf h
    simp [attributeBack, packAttribute, createAttributeFromTable, hp, hu]
  | posixAcl entries =>
    rw [attributeBack_posixAcl, Fallible.mapM_eq_self]
    · rfl
    · intro e he
      refine aclEntryBack_storable (hutf.of_subset ?_) (h e he)
      exact fun n hn => List.mem_flatMap.mpr ⟨e, he, hn⟩
  | posixPermissions p =>
    simp [attributeBack, packAttribute, createAttributeFromTable,
      unpackPermissionIfPresent_packPermissionIfSet]
  | _ => simp [attributeBack, packAttribute, createAttributeFromTable]

theorem attributeBack_not_storable {a : Attribute} (h : ¬ a.Storable) :
    attributeBack utf a = none := by
  cases a with
  | user g | group g =>
    have hn : g.name = none := by
      by_contra hn
      exact h hn
    simp [attributeBack, packAttribute, packUserGroup_none hn]
  | posixAcl entries =>
    have : ∃ e ∈ entries, ¬ e.Storable := by simpa [Attribute.Storable] using h
    obtain ⟨e, he, hs⟩ := this
    rw [attributeBack_posixAcl, Fallible.mapM_eq_none ⟨e, he, aclEntryBack_not_storable hs⟩]
    rfl
  | _ => exact absurd trivial h

/-! ## Elements -/

theorem foldl_addElementAttribute_attrs (as : List Attribute) (e : Element) :
    (as.foldl addElementAttribute e).attrs =
      as.foldl (fun l a => SortedList.add attrKey a l) e.attrs := by
  induction as generalizing e with
  | nil => rfl
  | cons a as ih => simp [ih]

/-- The reader adds the attributes that come back one by one to an empty element. -/
theorem storeAndRead_eq (name : UStr) (e : Element) :
    storeAndRead utf name e = (e.attrs.mapM (attributeBack utf)).map
      (fun as => as.foldl addElementAttribute (createElement name)) := by
  unfold storeAndRead packElementAttributes packElementAttributesToVector
  split
  · rename_i hnil
    simp [hnil, createElementWithAttrs]
  · show _ = ((e.attrs.mapM (fun x => (packAttribute utf x).bind _)).map _)
    rw [← Fallible.mapM_bind_mapM]
    simp only [Option.bind_eq_bind]
    cases e.attrs.mapM (packAttribute utf) <;> simp [createElementWithAttrs, Option.map_eq_bind]

theorem ofType_eq_fibre (e : Element) (t : AttributeType) :
    e.ofType t = SortedList.fibre attrKey t.toNat e.attrs := by
  simp [Element.ofType, SortedList.fibre, attrKey, AttributeType.toNat_inj]

/-- The attributes of every type read the same in both directions. -/
theorem ofType_reverse_iff (e : Element) :
    (∀ t, (e.ofType t).reverse = e.ofType t) ↔
      ∀ k, (SortedList.fibre attrKey k e.attrs).reverse = SortedList.fibre attrKey k e.attrs := by
  constructor
  · intro h k
    cases hf : SortedList.fibre attrKey k e.attrs with
    | nil => rfl
    | cons a as =>
      have ha : a ∈ SortedList.fibre attrKey k e.attrs := by simp [hf]
      have hk : a.type.toNat = k := of_decide_eq_true (List.mem_filter.mp ha).2
      rw [← hf, ← hk, ← ofType_eq_fibre]
      exact h a.type
  · intro h t
    rw [ofType_eq_fibre]
    exact h t.toNat

theorem storeAndRead_of_storable {e : Element} (name : UStr) (hutf : utf.InverseOn e.names)
    (h : ∀ a ∈ e.attrs, a.Storable) :
    (storeAndRead utf name e).map Element.attrs = some e.attrs ↔
      ∀ t, (e.ofType t).reverse = e.ofType t := by
  have back : e.attrs.mapM (attributeBack utf) = some e.attrs := by
    apply Fallible.mapM_eq_self
    intro a ha
    refine attributeBack_storable (hutf.of_subset ?_) (h a ha)
    exact fun n hn => List.mem_flatMap.mpr ⟨a, ha, hn⟩
  rw [storeAndRead_eq, back, ofType_reverse_iff, ← SortedList.foldl_add_eq_iff attrKey e.sorted]
  simp [foldl_addElementAttribute_attrs]

/-- An element comes back with its attribute list exactly when every ACL entry is a user or
a group, the names are there, and the attributes of one type read the same in both
directions (as they do when there is one of each type). -/
theorem stored_reads_back_iff (name : UStr) (e : Element) (hutf : utf.InverseOn e.names) :
    (storeAndRead utf name e).map Element.attrs = some e.attrs ↔
      (∀ a ∈ e.attrs, a.Storable) ∧ ∀ t, (e.ofType t).reverse = e.ofType t := by
  by_cases h : ∀ a ∈ e.attrs, a.Storable
  · rw [storeAndRead_of_storable name hutf h]
    exact ⟨fun ht => ⟨h, ht⟩, fun ht => ht.2⟩
  · have : ∃ a ∈ e.attrs, ¬ a.Storable := by simpa using h
    obtain ⟨a, ha, hs⟩ := this
    rw [storeAndRead_eq, Fallible.mapM_eq_none ⟨a, ha, attributeBack_not_storable hs⟩]
    simp [h]

end

/-- `root` owns the file, and `adm` may read it by an ACL entry. -/
def sharedLog : Element :=
  addElementAttribute
    (addElementAttribute (createElement [47, 108])
      (.user { id := 0, name := some [114, 111, 111, 116] }))
    (.posixAcl [⟨.group, { id := 4, name := some [97, 100, 109] }, ⟨true, false, false⟩⟩])

theorem stored_reads_back_sharedLog :
    (storeAndRead asciiUtf [47, 108] sharedLog).map Element.attrs = some sharedLog.attrs := by
  refine (stored_reads_back_iff [47, 108] sharedLog (by decide)).mpr ⟨by decide, ?_⟩
  intro t; cases t <;> rfl

/-- A file with no more than its mode bits: `acl_get_file` lists the owner, the owning group
and the others. -/
def modeBits : Element :=
  addElementAttribute (createElement [47, 108])
    (.posixAcl [
      ⟨.userObj, { id := 0, name := none }, ⟨true, true, false⟩⟩,
      ⟨.groupObj, { id := 0, name := none }, ⟨true, false, false⟩⟩,
      ⟨.other, { id := 0, name := none }, ⟨true, false, false⟩⟩])

theorem modeBits_does_not_read_back :
    asciiUtf.InverseOn modeBits.names ∧
    storeAndRead asciiUtf [47, 108] modeBits = none ∧
    (storeAndRead asciiUtf [47, 108] modeBits).map Element.attrs ≠ some modeBits.attrs := by
  have none : storeAndRead asciiUtf [47, 108] modeBits = none := rfl
  exact ⟨by decide, none, by simp [none]⟩

end Yella
