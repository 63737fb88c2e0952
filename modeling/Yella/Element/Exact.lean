import Yella.Element.Compare

/-!
# Which changes a comparison sees

A comparison subtracts in 64 bits and returns the low 32, so values that lie a multiple of
2^32 apart compare equal. Signed subtraction wraps.
-/

namespace Yella

/-- The comparison is defined, and 0 for equal values only. -/
def Tells (rc : Option Int) (same : Prop) : Prop := ∃ n, rc = some n ∧ (n = 0 ↔ same)

theorem tells_some {n : Int} {same : Prop} : Tells (some n) same ↔ (n = 0 ↔ same) := by
  simp [Tells]

theorem not_tells_none {same : Prop} : ¬ Tells none same := by simp [Tells]

theorem tells_congr {rc : Option Int} {p q : Prop} (h : p ↔ q) : Tells rc p ↔ Tells rc q := by
  simp only [Tells, h]

/-- Equal in the low 32 bits. -/
def SameWord (a b : Nat) : Prop := a % 0x100000000 = b % 0x100000000

instance (a b : Nat) : Decidable (SameWord a b) := inferInstanceAs (Decidable (_ = _))

theorem diffInt_eq_zero_iff {a b : Nat} : diffInt a b = 0 ↔ SameWord a b := by
  unfold diffInt toInt32 SameWord
  omega

theorem sameWord_of_lt {a b : Nat} (ha : a < 0x100000000) (hb : b < 0x100000000) :
    SameWord a b ↔ a = b := by
  unfold SameWord
  omega

/-- `memcmp` over the length of the first array takes it for equal when it is a prefix of the
second, and reads on when the second is a prefix of it. -/
theorem tells_memcmp {as bs : List UInt8} :
    Tells (memcmp as bs as.length) (as = bs) ↔ (as <+: bs ∨ bs <+: as → as = bs) := by
  induction as generalizing bs with
  | nil => simp [memcmp, tells_some]
  | cons a as ih =>
    cases bs with
    | nil => simp [memcmp, not_tells_none]
    | cons b bs =>
      simp only [List.length_cons, memcmp, List.cons.injEq, List.cons_prefix_cons]
      by_cases hab : a = b
      · simpa [hab] using ih
      · have : a.toNat ≠ b.toNat := fun h => hab (UInt8.toNat.inj h)
        simp only [hab, ↓reduceIte, tells_some, false_and, iff_false, Ne.symm hab, or_self,
          false_imp_iff, iff_true]
        omega

theorem tells_memcmp_of_length {as bs : List UInt8} (h : as.length = bs.length) :
    Tells (memcmp as bs as.length) (as = bs) := by
  rw [tells_memcmp]
  rintro (hp | hp)
  · exact hp.eq_of_length h
  · exact (hp.eq_of_length h.symm).symm

theorem boolByte_inj {b c : Bool} :
    (if b then (1 : UInt8) else 0) = (if c then 1 else 0) ↔ b = c := by
  cases b <;> cases c <;> decide

theorem PosixPermission.bytes_inj {p q : PosixPermission} : p.bytes = q.bytes ↔ p = q := by
  obtain ⟨pr, pw, px⟩ := p
  obtain ⟨qr, qw, qx⟩ := q
  simp [PosixPermission.bytes, boolByte_inj]

theorem PosixPermissions.bytes_inj {p q : PosixPermissions} : p.bytes = q.bytes ↔ p = q := by
  obtain ⟨⟨_, _, _⟩, ⟨_, _, _⟩, ⟨_, _, _⟩, _, _, _⟩ := p
  obtain ⟨⟨_, _, _⟩, ⟨_, _, _⟩, ⟨_, _, _⟩, _, _, _⟩ := q
  simp [PosixPermissions.bytes, PosixPermission.bytes, boolByte_inj, and_assoc]

/-! ## Scalar attributes -/

/-- `lhs->value.integer - rhs->value.integer` of two `int`s. -/
def compareIntegers (a b : Int) : Int := toInt32 (a - b)

theorem compareIntegers_eq_zero_iff {a b : Int} (ha : -0x80000000 ≤ a ∧ a < 0x80000000)
    (hb : -0x80000000 ≤ b ∧ b < 0x80000000) : compareIntegers a b = 0 ↔ a = b := by
  unfold compareIntegers toInt32
  omega

/-- There is no unit 0 before the terminator. -/
def UserGroup.Terminated (g : UserGroup) : Prop := ∀ n, g.name = some n → 0 ∉ n

def Attribute.Terminated : Attribute → Prop
  | .user g | .group g => g.Terminated
  | .posixAcl es => ∀ e ∈ es, e.usrGrp.Terminated
  | _ => True

/-- Ids that agree in the low word lead to the comparison of the names. -/
def UserGroup.ToldFrom (l r : UserGroup) : Prop :=
  SameWord l.id.toNat r.id.toNat →
    l.name ≠ none ∧ r.name ≠ none ∧ (l.name = r.name → l.id = r.id)

/-- The narrowing of the difference to an `int` does not matter for these values. -/
def Attribute.ToldFrom : Attribute → Attribute → Prop
  | .sha256 a, .sha256 b => SameWord a.length b.length → a <+: b ∨ b <+: a → a = b
  | .user l, .user r | .group l, .group r => l.ToldFrom r
  | .size a, .size b | .accessTime a, .accessTime b
  | .metadataChangeTime a, .metadataChangeTime b | .modificationTime a, .modificationTime b =>
    SameWord a.toNat b.toNat → a = b
  | _, _ => True

theorem tells_compareUserGroups {l r : UserGroup} (hl : l.Terminated) (hr : r.Terminated) :
    Tells (compareUserGroups l r) (l = r) ↔ l.ToldFrom r := by
  obtain ⟨i, m⟩ := l
  obtain ⟨j, n⟩ := r
  simp only [compareUserGroups, diffInt_eq_zero_iff, UserGroup.ToldFrom, UserGroup.mk.injEq]
  by_cases hw : SameWord i.toNat j.toNat
  · rw [if_pos hw]
    cases m with
    | none => simp [strcmpNames, not_tells_none, hw]
    | some m =>
      cases n with
      | none => simp [strcmpNames, not_tells_none, hw]
      | some n =>
        have same := uStrcmp_eq_zero_iff (hl m rfl) (hr n rfl)
        simp [strcmpNames, tells_some, hw, same]
  · have differ : i ≠ j := fun h => hw (by rw [h]; rfl)
    simp [hw, tells_some, diffInt_eq_zero_iff, differ]

theorem tells_diffInt {α : Type} (word : α → Nat) {a b : α} :
    Tells (some (diffInt (word a) (word b))) (a = b) ↔
      (SameWord (word a) (word b) → a = b) := by
  rw [tells_some, diffInt_eq_zero_iff]
  exact ⟨fun h => h.mp, fun h => ⟨h, fun he => by rw [he]; rfl⟩⟩

theorem tells_sha256 {as bs : List UInt8} :
    Tells (compareAttributes (.sha256 as) (.sha256 bs)) (as = bs) ↔
      (SameWord as.length bs.length → as <+: bs ∨ bs <+: as → as = bs) := by
  simp only [compareAttributes, diffInt_eq_zero_iff]
  by_cases hw : SameWord as.length bs.length
  · simp only [hw, ↓reduceIte, tells_memcmp, true_imp_iff]
  · have differ : as ≠ bs := fun h => hw (by rw [h]; rfl)
    simp [hw, tells_some, diffInt_eq_zero_iff, differ]

theorem tells_of_type_ne {a b : Attribute} (h : a.type ≠ b.type) :
    Tells (compareAttributes a b) (a = b) := by
  have differ : a ≠ b := fun he => h (by rw [he])
  have codes : a.type.toNat ≠ b.type.toNat := fun he => h (AttributeType.toNat_inj.mp he)
  rw [compareAttributes_type_ne h, tells_some]
  simp only [differ, iff_false]
  omega

theorem toldFrom_of_type_ne {a b : Attribute} (h : a.type ≠ b.type) : a.ToldFrom b := by
  cases a <;> cases b <;> first | exact trivial | exact absurd rfl h

/-- A change of one of the nine scalar attributes is seen unless the narrowing hides it. -/
theorem tells_scalar_iff (a b : Attribute) (ha : a.type ≠ .posixAcl) (hb : b.type ≠ .posixAcl)
    (ta : a.Terminated) (tb : b.Terminated) :
    (Tells (compareAttributes a b) (a = b) ↔ a.ToldFrom b) ∧
      ∀ x y : Int, -0x80000000 ≤ x ∧ x < 0x80000000 → -0x80000000 ≤ y ∧ y < 0x80000000 →
        (compareIntegers x y = 0 ↔ x = y) := by
  refine ⟨?_, fun x y hx hy => compareIntegers_eq_zero_iff hx hy⟩
  by_cases ht : a.type = b.type
  · cases a <;> cases b <;> simp only [Attribute.type, reduceCtorEq, ne_eq, not_true] at ht ha hb
    case fileType x y =>
      simp only [Attribute.ToldFrom, iff_true, Attribute.fileType.injEq]
      cases x <;> cases y <;> simp [compareAttributes, tells_some, FileType.toInt]
    case sha256 x y =>
      simp only [Attribute.sha256.injEq]
      exact tells_sha256
    case posixPermissions p q =>
      have same : Tells (memcmp p.bytes q.bytes 12) (p.bytes = q.bytes) :=
        tells_memcmp_of_length rfl
      simp only [Attribute.ToldFrom, iff_true, Attribute.posixPermissions.injEq]
      exact (tells_congr PosixPermissions.bytes_inj).mp same
    case user l r =>
      simp only [Attribute.user.injEq]
      exact tells_compareUserGroups ta tb
    case group l r =>
      simp only [Attribute.group.injEq]
      exact tells_compareUserGroups ta tb
    case size m n =>
      simp only [Attribute.size.injEq]
      exact tells_diffInt UInt64.toNat
    case accessTime m n =>
      simp only [Attribute.accessTime.injEq]
      exact tells_diffInt UInt64.toNat
    case metadataChangeTime m n =>
      simp only [Attribute.metadataChangeTime.injEq]
      exact tells_diffInt UInt64.toNat
    case modificationTime m n =>
      simp only [Attribute.modificationTime.injEq]
      exact tells_diffInt UInt64.toNat
  · exact iff_of_true (tells_of_type_ne ht) (toldFrom_of_type_ne ht)

/-- A file that has shrunk by 2 GiB. -/
theorem tells_scalar_shrunk :
    Tells (compareAttributes (.size 0x200000000) (.size 0x180000000))
      (Attribute.size 0x200000000 = .size 0x180000000) := by
  refine (tells_scalar_iff (.size 0x200000000) (.size 0x180000000) (by decide) (by decide)
    trivial trivial).1.mpr ?_
  intro same
  exact absurd same (by decide)

theorem growth_unseen :
    compareAttributes (.size 0) (.size 0x100000000) = some 0 ∧
      ¬ Tells (compareAttributes (.size 0) (.size 0x100000000))
        (Attribute.size 0 = .size 0x100000000) := by
  have zero : compareAttributes (.size 0) (.size 0x100000000) = some 0 := by decide
  refine ⟨zero, ?_⟩
  rw [zero, tells_some]
  decide

/-! ## Access control lists -/

/-- An entry as `get_posix_acl` builds it. The id comes from a `uid_t` or a `gid_t`. -/
structure PosixAclEntry.Built (e : PosixAclEntry) : Prop where
  id_lt : e.usrGrp.id.toNat < 0x100000000
  other : e.type ≠ .user → e.type ≠ .group → e.usrGrp = ⟨0, none⟩
  terminated : e.usrGrp.Terminated

/-- The comparison does not get to a name that is absent. -/
def PosixAclEntry.NamesThere (e f : PosixAclEntry) : Prop :=
  e.type = f.type → e.usrGrp.id = f.usrGrp.id → e.usrGrp.name ≠ none ∧ f.usrGrp.name ≠ none

theorem PosixAclEntryType.toInt_inj {s t : PosixAclEntryType} : s.toInt - t.toInt = 0 ↔ s = t := by
  cases s <;> cases t <;> decide

theorem UserGroup.toldFrom_iff {l r : UserGroup} (hl : l.id.toNat < 0x100000000)
    (hr : r.id.toNat < 0x100000000) :
    l.ToldFrom r ↔ (l.id = r.id → l.name ≠ none ∧ r.name ≠ none) := by
  rw [UserGroup.ToldFrom, sameWord_of_lt hl hr, UInt64.toNat_inj]
  exact ⟨fun h he => ⟨(h he).1, (h he).2.1⟩, fun h he => ⟨(h he).1, (h he).2, fun _ => he⟩⟩

theorem compareUserGroups_eq_none {l r : UserGroup}
    (h : ¬ (l.id = r.id → l.name ≠ none ∧ r.name ≠ none)) : compareUserGroups l r = none := by
  obtain ⟨same, absent⟩ := Classical.not_imp.mp h
  rw [compareUserGroups, same, if_pos (diffInt_self _)]
  unfold strcmpNames
  split
  · rename_i hm hn
    exact absurd ⟨by simp [hm], by simp [hn]⟩ absent
  · rfl

theorem tells_compareAclEntries {e f : PosixAclEntry} (he : e.Built) (hf : f.Built)
    (names : e.NamesThere f) : Tells (compareAclEntries e f) (e = f) := by
  obtain ⟨s, g, p⟩ := e
  obtain ⟨t, h, q⟩ := f
  simp only [compareAclEntries, PosixAclEntryType.toInt_inj, PosixAclEntry.mk.injEq]
  by_cases ht : s = t
  · have groups : Tells (compareUserGroups g h) (g = h) :=
      (tells_compareUserGroups he.terminated hf.terminated).mpr
        ((UserGroup.toldFrom_iff he.id_lt hf.id_lt).mpr (names ht))
    obtain ⟨n, hn, zero⟩ := groups
    simp only [ht, ↓reduceIte, true_and, hn]
    by_cases hg : g = h
    · have perms : Tells (memcmp p.bytes q.bytes 3) (p.bytes = q.bytes) :=
        tells_memcmp_of_length rfl
      simpa only [zero.mpr hg, hg, true_and] using
        (tells_congr PosixPermission.bytes_inj).mp perms
    · have : n ≠ 0 := fun h0 => hg (zero.mp h0)
      simp only [hg, false_and]
      split
      · rename_i h0; exact absurd (Option.some_inj.mp h0) this
      · rw [tells_some]; simp [this]
  · have : s.toInt - t.toInt ≠ 0 := fun h => ht (PosixAclEntryType.toInt_inj.mp h)
    rw [if_neg ht, tells_some]
    simp [ht, this]

theorem compareAclEntries_namesThere {e f : PosixAclEntry} {n : Int}
    (h : compareAclEntries e f = some n) : e.NamesThere f := by
  intro ht
  by_contra absent
  rw [compareAclEntries, if_pos (PosixAclEntryType.toInt_inj.mpr ht),
    compareUserGroups_eq_none absent] at h
  cases h

/-- Every pair that is compared has the names that its comparison needs. -/
def AclNamesThere (l r : List PosixAclEntry) : Prop := ∀ p ∈ l.zip r, p.1.NamesThere p.2

/-- What the last round leaves in `rc`. -/
theorem compareAcls_last {l r : List PosixAclEntry} (hl : ∀ e ∈ l, e.Built)
    (hr : ∀ f ∈ r, f.Built) (long : l.length ≤ r.length) (names : AclNamesThere l r) (rc : Int) :
    Tells (compareAcls rc l r)
      ((l = [] → rc = 0) ∧ ∀ p ∈ (l.zip r).getLast?, p.1 = p.2) := by
  induction l generalizing r rc with
  | nil => simp [compareAcls, tells_some]
  | cons e l ih =>
    cases r with
    | nil => simp at long
    | cons f r =>
      rw [List.forall_mem_cons] at hl hr
      obtain ⟨first, others⟩ := List.forall_mem_cons.mp names
      obtain ⟨n, hn, zero⟩ := tells_compareAclEntries hl.1 hr.1 first
      have rest := ih hl.2 hr.2 (by simpa using long) others n
      simp only [compareAcls, hn, Option.bind_eq_bind, Option.bind_some]
      refine (tells_congr ?_).mp rest
      cases l with
      | nil => simp [zero]
      | cons e' l =>
        cases r with
        | nil => simp at long
        | cons f' r => simp

theorem compareAcls_some {l r : List PosixAclEntry} {rc n : Int}
    (h : compareAcls rc l r = some n) : l.length ≤ r.length ∧ AclNamesThere l r := by
  induction l generalizing r rc with
  | nil => exact ⟨by simp, by simp [AclNamesThere]⟩
  | cons e l ih =>
    cases r with
    | nil => simp [compareAcls] at h
    | cons f r =>
      simp only [compareAcls, Option.bind_eq_bind, Option.bind_eq_some_iff] at h
      obtain ⟨c, hc, h⟩ := h
      obtain ⟨long, names⟩ := ih h
      refine ⟨by simpa using long, List.forall_mem_cons.mpr ⟨?_, names⟩⟩
      exact compareAclEntries_namesThere hc

/-- The lists are not compared because of their lengths; or every name that is compared is
there and the last entries differ if anything does. -/
def AclSeen (l r : List PosixAclEntry) : Prop :=
  SameWord l.length r.length →
    l.length ≤ r.length ∧ AclNamesThere l r ∧ ((∀ p ∈ (l.zip r).getLast?, p.1 = p.2) → l = r)

theorem getLast?_zip_self {α : Type} {l : List α} : ∀ p ∈ (l.zip l).getLast?, p.1 = p.2 := by
  intro p hp
  obtain ⟨i, hi, rfl⟩ := List.getElem_of_mem (List.mem_of_mem_getLast? hp)
  simp

/-- Two lists are told apart exactly where no absent name is met and no difference but the
last matters. -/
theorem tells_acl_iff {l r : List PosixAclEntry} (hl : ∀ e ∈ l, e.Built)
    (hr : ∀ f ∈ r, f.Built) :
    Tells (compareAttributes (.posixAcl l) (.posixAcl r)) (l = r) ↔ AclSeen l r := by
  simp only [compareAttributes, diffInt_eq_zero_iff, AclSeen]
  by_cases hw : SameWord l.length r.length
  · simp only [hw, ↓reduceIte, true_imp_iff]
    constructor
    · rintro ⟨n, hn, zero⟩
      obtain ⟨long, names⟩ := compareAcls_some hn
      obtain ⟨n', hn', last⟩ := compareAcls_last hl hr long names 0
      obtain rfl : n = n' := by rw [hn] at hn'; exact Option.some_inj.mp hn'
      exact ⟨long, names, fun same => zero.mp (last.mpr ⟨fun _ => rfl, same⟩)⟩
    · rintro ⟨long, names, seen⟩
      refine (tells_congr ?_).mp (compareAcls_last hl hr long names 0)
      constructor
      · exact fun h => seen h.2
      · rintro rfl
        exact ⟨fun _ => rfl, getLast?_zip_self⟩
  · have differ : l ≠ r := fun h => hw (by rw [h]; rfl)
    simp [hw, tells_some, diffInt_eq_zero_iff, differ]

theorem built_named {t : PosixAclEntryType} {g : UserGroup} {p : PosixPermission}
    (id_lt : g.id.toNat < 0x100000000) (named : t = .user ∨ t = .group) (term : g.Terminated) :
    PosixAclEntry.Built ⟨t, g, p⟩ := by
  refine ⟨id_lt, fun hu hg => ?_, term⟩
  obtain rfl | rfl := named
  · exact absurd rfl hu
  · exact absurd rfl hg

theorem built_unnamed (t : PosixAclEntryType) (p : PosixPermission) :
    PosixAclEntry.Built ⟨t, ⟨0, none⟩, p⟩ :=
  ⟨by show (0 : UInt64).toNat < _; decide, fun _ _ => rfl, by simp [UserGroup.Terminated]⟩

def readOnly : PosixPermission := ⟨true, false, false⟩

def readWrite : PosixPermission := ⟨true, true, false⟩

/-- One entry, for another user. -/
theorem tells_acl_user :
    Tells (compareAttributes (.posixAcl [⟨.user, ⟨1, some [97]⟩, readOnly⟩])
        (.posixAcl [⟨.user, ⟨2, some [98]⟩, readOnly⟩]))
      ([(⟨.user, ⟨1, some [97]⟩, readOnly⟩ : PosixAclEntry)] =
        [⟨.user, ⟨2, some [98]⟩, readOnly⟩]) := by
  have plain (i : UInt64) (c : UChar) (hi : i.toNat < 0x100000000) (hc : 0 ≠ c) :
      ∀ e ∈ [(⟨.user, ⟨i, some [c]⟩, readOnly⟩ : PosixAclEntry)], e.Built := by
    rw [List.forall_mem_singleton]
    exact built_named hi (.inl rfl) (by simpa [UserGroup.Terminated] using hc)
  refine (tells_acl_iff (plain 1 97 (by decide) (by decide))
    (plain 2 98 (by decide) (by decide))).mpr fun _ => ⟨by decide, ?_, by decide⟩
  intro p hp _ same
  simp only [List.zip_cons_cons, List.zip_nil_right, List.mem_singleton] at hp
  subst hp
  exact absurd same (by decide)

/-- The list of a file without further entries. -/
def plainAcl (owner : PosixPermission) : List PosixAclEntry :=
  [⟨.userObj, ⟨0, none⟩, owner⟩, ⟨.groupObj, ⟨0, none⟩, readOnly⟩, ⟨.other, ⟨0, none⟩, readOnly⟩]

/-- The permissions of user 1 change, those of user 2 do not. -/
def aclOf (first : PosixPermission) : List PosixAclEntry :=
  [⟨.user, ⟨1, some [97]⟩, first⟩, ⟨.user, ⟨2, some [98]⟩, readOnly⟩]

theorem aclOf_built (first : PosixPermission) : ∀ e ∈ aclOf first, e.Built := by
  simp only [aclOf, List.forall_mem_cons]
  refine ⟨built_named ?_ (.inl rfl) ?_, built_named ?_ (.inl rfl) ?_, by simp⟩
  · decide
  · simp [UserGroup.Terminated]
  · decide
  · simp [UserGroup.Terminated]

theorem acl_unseen :
    (∀ e ∈ plainAcl readOnly, e.Built) ∧
      ¬ Tells (compareAttributes (.posixAcl (plainAcl readOnly)) (.posixAcl (plainAcl readOnly)))
        (plainAcl readOnly = plainAcl readOnly) ∧
      (∀ first, ∀ e ∈ aclOf first, e.Built) ∧
      ¬ Tells (compareAttributes (.posixAcl (aclOf readOnly)) (.posixAcl (aclOf readWrite)))
        (aclOf readOnly = aclOf readWrite) := by
  have absent : compareAttributes (.posixAcl (plainAcl readOnly))
      (.posixAcl (plainAcl readOnly)) = none := by decide
  have zero : compareAttributes (.posixAcl (aclOf readOnly)) (.posixAcl (aclOf readWrite)) =
      some 0 := by decide
  refine ⟨?_, by rw [absent]; exact not_tells_none, aclOf_built, ?_⟩
  · simp only [plainAcl, List.forall_mem_cons]
    exact ⟨built_unnamed _ _, built_unnamed _ _, built_unnamed _ _, by simp⟩
  · rw [zero, tells_some]
    decide

end Yella
