import Yella.CInt
import Yella.Text

/-!
# File attributes

`attribute.h` and `compare_attributes` of `attribute.c`. A tagged union is an inductive
type; a `UChar*` that may be NULL is an `Option UStr`.
-/

namespace Yella

inductive AttributeType where
  | fileType
  | sha256
  | posixPermissions
  | user
  | group
  | size
  | accessTime
  | metadataChangeTime
  | modificationTime
  | posixAcl
  deriving DecidableEq, Repr

/-- The value of the enumerator. -/
def AttributeType.toNat : AttributeType → Nat
  | fileType => 0
  | sha256 => 1
  | posixPermissions => 2
  | user => 3
  | group => 4
  | size => 5
  | accessTime => 6
  | metadataChangeTime => 7
  | modificationTime => 8
  | posixAcl => 9

theorem AttributeType.toNat_inj {a b : AttributeType} : a.toNat = b.toNat ↔ a = b := by
  cases a <;> cases b <;> decide

/-- `yella_file_type` -/
inductive FileType where
  | blockSpecial
  | characterSpecial
  | directory
  | fifo
  | symbolicLink
  | regular
  | socket
  | whiteout
  deriving DecidableEq, Repr

def FileType.toInt : FileType → Int
  | blockSpecial => 0
  | characterSpecial => 1
  | directory => 2
  | fifo => 3
  | symbolicLink => 4
  | regular => 5
  | socket => 6
  | whiteout => 7

structure PosixPermission where
  read : Bool
  write : Bool
  execute : Bool
  deriving DecidableEq, Repr

structure PosixPermissions where
  owner : PosixPermission
  group : PosixPermission
  other : PosixPermission
  setUid : Bool
  setGid : Bool
  sticky : Bool
  deriving DecidableEq, Repr

inductive PosixAclEntryType where
  | user
  | group
  | mask
  | userObj
  | groupObj
  | other
  deriving DecidableEq, Repr

def PosixAclEntryType.toInt : PosixAclEntryType → Int
  | user => 0
  | group => 1
  | mask => 2
  | userObj => 3
  | groupObj => 4
  | other => 5

structure UserGroup where
  id : UInt64
  name : Option UStr
  deriving DecidableEq, Repr

structure PosixAclEntry where
  type : PosixAclEntryType
  usrGrp : UserGroup
  perm : PosixPermission
  deriving DecidableEq, Repr

inductive Attribute where
  | fileType (integer : FileType)
  | sha256 (byteArray : List UInt8)
  | posixPermissions (psxPermissions : PosixPermissions)
  | user (usrGrp : UserGroup)
  | group (usrGrp : UserGroup)
  | size (size : UInt64)
  | accessTime (millisSinceEpoch : UInt64)
  | metadataChangeTime (millisSinceEpoch : UInt64)
  | modificationTime (millisSinceEpoch : UInt64)
  | posixAcl (posixAclEntries : List PosixAclEntry)
  deriving DecidableEq, Repr

def Attribute.type : Attribute → AttributeType
  | fileType _ => .fileType
  | sha256 _ => .sha256
  | posixPermissions _ => .posixPermissions
  | user _ => .user
  | group _ => .group
  | size _ => .size
  | accessTime _ => .accessTime
  | metadataChangeTime _ => .metadataChangeTime
  | modificationTime _ => .modificationTime
  | posixAcl _ => .posixAcl

/-! ## Comparison

A comparison is `none` when it reads through a NULL pointer or past the end of an array. -/

/-- `memcmp` of the first `n` bytes. -/
def memcmp : List UInt8 → List UInt8 → Nat → Option Int
  | _, _, 0 => some 0
  | a :: as, b :: bs, n + 1 =>
    if a = b then memcmp as bs n else some ((a.toNat : Int) - b.toNat)
  | _, _, _ + 1 => none

/-- `u_strcmp` of two pointers. -/
def strcmpNames : Option UStr → Option UStr → Option Int
  | some s, some t => some (uStrcmp s t)
  | _, _ => none

/-- The three `bool`s of the C structure as bytes. -/
def PosixPermission.bytes (p : PosixPermission) : List UInt8 :=
  [p.read, p.write, p.execute].map (fun b => if b then 1 else 0)

def PosixPermissions.bytes (p : PosixPermissions) : List UInt8 :=
  p.owner.bytes ++ p.group.bytes ++ p.other.bytes ++
    [p.setUid, p.setGid, p.sticky].map (fun b => if b then 1 else 0)

/-- `(int64_t)a - (int64_t)b` stored in the `int` called `rc`. -/
def diffInt (a b : Nat) : Int := toInt32 ((a : Int) - b)

def compareUserGroups (l r : UserGroup) : Option Int :=
  if diffInt l.id.toNat r.id.toNat = 0 then strcmpNames l.name r.name
  else some (diffInt l.id.toNat r.id.toNat)

def compareAclEntries (e₁ e₂ : PosixAclEntry) : Option Int :=
  if e₁.type.toInt - e₂.type.toInt = 0 then
    match compareUserGroups e₁.usrGrp e₂.usrGrp with
    | some 0 => memcmp e₁.perm.bytes e₂.perm.bytes 3
    | rc => rc
  else some (e₁.type.toInt - e₂.type.toInt)

/-- The loop over the entries. Each round overwrites `rc`. -/
def compareAcls (rc : Int) : List PosixAclEntry → List PosixAclEntry → Option Int
  | [], _ => some rc
  | _ :: _, [] => none
  | e₁ :: l, e₂ :: r => do
    let rc ← compareAclEntries e₁ e₂
    compareAcls rc l r

def compareAttributes (lhs rhs : Attribute) : Option Int :=
  match lhs, rhs with
  | .fileType a, .fileType b => some (a.toInt - b.toInt)
  | .sha256 a, .sha256 b =>
    if diffInt a.length b.length = 0 then memcmp a b a.length
    else some (diffInt a.length b.length)
  | .posixPermissions a, .posixPermissions b => memcmp a.bytes b.bytes 12
  | .user a, .user b => compareUserGroups a b
  | .group a, .group b => compareUserGroups a b
  | .size a, .size b => some (diffInt a.toNat b.toNat)
  | .accessTime a, .accessTime b => some (diffInt a.toNat b.toNat)
  | .metadataChangeTime a, .metadataChangeTime b => some (diffInt a.toNat b.toNat)
  | .modificationTime a, .modificationTime b => some (diffInt a.toNat b.toNat)
  | .posixAcl l, .posixAcl r =>
    if diffInt l.length r.length = 0 then compareAcls 0 l r
    else some (diffInt l.length r.length)
  | l, r => some ((l.type.toNat : Int) - r.type.toNat)

end Yella
