import Yella.Element.Element
import Yella.TextUtil

/-!
# Packing and unpacking of attributes

`pack_attribute` and `create_attribute_from_table` of `attribute.c` over the tables of
`file.fbs`. A table field that holds a table, a vector or a string is an `Option`; a scalar
field that is not added has its schema default. Reading a field of an absent table, converting
an absent string, or adding one that is not converted, is `none`: the program does not get past
it.
-/

namespace Yella

/-! ## The tables of `file.fbs` -/

/-- `enum attr_type` -/
inductive FbAttrType where
  | fileType
  | sha256
  | posixPermissions
  | user
  | group
  | size
  | accessTime
  | metadataChangeTime
  | modificationTime
  | posixAcl
  deriving DecidableEq, Repr

/-- `enum file_type` -/
inductive FbFileType where
  | blockSpecial
  | characterSpecial
  | directory
  | fifo
  | symbolicLink
  | regular
  | socket
  | whiteout
  deriving DecidableEq, Repr

/-- `enum posix_access_control_entry_type` -/
inductive FbPosixAclEntryType where
  | user
  | group
  | mask
  | userObj
  | groupObj
  | other
  deriving DecidableEq, Repr

structure FbPosixPermission where
  read : Bool := false
  write : Bool := false
  execute : Bool := false
  deriving DecidableEq, Repr

structure FbPosixPermissions where
  owner : Option FbPosixPermission := none
  group : Option FbPosixPermission := none
  other : Option FbPosixPermission := none
  setUid : Bool := false
  setGid : Bool := false
  sticky : Bool := false
  deriving DecidableEq, Repr

structure FbUserGroup where
  id : UInt64 := 0
  name : Option (List UInt8) := none
  deriving DecidableEq, Repr

structure FbPosixAclEntry where
  type : FbPosixAclEntryType := .user
  usrGrp : Option FbUserGroup := none
  permission : Option FbPosixPermission := none
  deriving DecidableEq, Repr

structure FbAttr where
  type : FbAttrType := .fileType
  bytes : Option (List UInt8) := none
  ftype : FbFileType := .regular
  psxPermissions : Option FbPosixPermissions := none
  usrGrp : Option FbUserGroup := none
  unsignedInt : UInt64 := 0
  millisecondsSinceEpoch : UInt64 := 0
  psxAcl : Option (List FbPosixAclEntry) := none
  deriving DecidableEq, Repr

/-- `table attr_array` of `db_attrs.fbs` -/
structure FbAttrArray where
  attrs : Option (List FbAttr) := none
  deriving DecidableEq, Repr

/-! ## Enumerators -/

def fileTypeToFb : FileType → FbFileType
  | .blockSpecial => .blockSpecial
  | .characterSpecial => .characterSpecial
  | .directory => .directory
  | .fifo => .fifo
  | .symbolicLink => .symbolicLink
  | .regular => .regular
  | .socket => .socket
  | .whiteout => .whiteout

def fbToFileType : FbFileType → FileType
  | .blockSpecial => .blockSpecial
  | .characterSpecial => .characterSpecial
  | .directory => .directory
  | .fifo => .fifo
  | .symbolicLink => .symbolicLink
  | .regular => .regular
  | .socket => .socket
  | .whiteout => .whiteout

@[simp] theorem fbToFileType_fileTypeToFb (t : FileType) : fbToFileType (fileTypeToFb t) = t := by
  cases t <;> rfl

def aclEntryTypeToFb : PosixAclEntryType → FbPosixAclEntryType
  | .user => .user
  | .group => .group
  | .mask => .mask
  | .userObj => .userObj
  | .groupObj => .groupObj
  | .other => .other

/-! ## The two directions

The UTF conversions of `text_util.c` are parameters. -/

section
variable (utf : Utf)

def packPermission (p : PosixPermission) : FbPosixPermission :=
  { read := p.read, write := p.write, execute := p.execute }

/-- A permission triple is added only when one of its bits is set. -/
def packPermissionIfSet (p : PosixPermission) : Option FbPosixPermission :=
  if p.read || p.write || p.execute then some (packPermission p) else none

def packUserGroup (g : UserGroup) : Option FbUserGroup := do
  let name ← g.name
  let utf8 ← utf.toUtf8 name
  some { id := g.id, name := some utf8 }

def packAclEntry (e : PosixAclEntry) : Option FbPosixAclEntry := do
  let usrGrp ← if e.type = .user ∨ e.type = .group then (packUserGroup utf e.usrGrp).map some
    else some none
  some { type := aclEntryTypeToFb e.type, usrGrp, permission := some (packPermission e.perm) }

def packAttribute (attr : Attribute) : Option FbAttr :=
  match attr with
  | .fileType integer => some { type := .fileType, ftype := fileTypeToFb integer }
  | .sha256 byteArray => some { type := .sha256, bytes := some byteArray }
  | .posixPermissions p =>
    some {
      type := .posixPermissions
      psxPermissions := some {
        owner := packPermissionIfSet p.owner
        group := packPermissionIfSet p.group
        other := packPermissionIfSet p.other
        setUid := p.setUid
        setGid := p.setGid
        sticky := p.sticky } }
  | .user g => do
    let usrGrp ← packUserGroup utf g
    some { type := .user, usrGrp := some usrGrp }
  | .group g => do
    let usrGrp ← packUserGroup utf g
    some { type := .group, usrGrp := some usrGrp }
  | .size n => some { type := .size, unsignedInt := n }
  | .accessTime t => some { type := .accessTime, millisecondsSinceEpoch := t }
  | .metadataChangeTime t => some { type := .metadataChangeTime, millisecondsSinceEpoch := t }
  | .modificationTime t => some { type := .modificationTime, millisecondsSinceEpoch := t }
  | .posixAcl entries => do
    let fbEntries ← entries.mapM (packAclEntry utf)
    some { type := .posixAcl, psxAcl := if entries.length > 0 then some fbEntries else none }

def unpackPermission (p : FbPosixPermission) : PosixPermission :=
  { read := p.read, write := p.write, execute := p.execute }

/-- An absent triple keeps the zeros of the `memset`. -/
def unpackPermissionIfPresent : Option FbPosixPermission → PosixPermission
  | some p => unpackPermission p
  | none => { read := false, write := false, execute := false }

def unpackUserGroup (g : Option FbUserGroup) : Option UserGroup := do
  let g ← g
  let name ← g.name
  some { id := g.id, name := some (utf.fromUtf8 name) }

def unpackAclEntry (e : FbPosixAclEntry) : Option PosixAclEntry := do
  let usrGrp ← unpackUserGroup utf e.usrGrp
  let permission ← e.permission
  some {
    type := if e.type = .user then .user else .group
    usrGrp
    perm := unpackPermission permission }

def createAttributeFromTable (tbl : FbAttr) : Option Attribute :=
  match tbl.type with
  | .fileType => some (.fileType (fbToFileType tbl.ftype))
  | .sha256 => some (.sha256 (tbl.bytes.getD []))
  | .posixPermissions => do
    let p ← tbl.psxPermissions
    some (.posixPermissions {
      owner := unpackPermissionIfPresent p.owner
      group := unpackPermissionIfPresent p.group
      other := unpackPermissionIfPresent p.other
      setUid := p.setUid
      setGid := p.setGid
      sticky := p.sticky })
  | .user => (unpackUserGroup utf tbl.usrGrp).map .user
  | .group => (unpackUserGroup utf tbl.usrGrp).map .group
  | .size => some (.size tbl.unsignedInt)
  | .accessTime => some (.accessTime tbl.millisecondsSinceEpoch)
  | .metadataChangeTime => some (.metadataChangeTime tbl.millisecondsSinceEpoch)
  | .modificationTime => some (.modificationTime tbl.millisecondsSinceEpoch)
  | .posixAcl => ((tbl.psxAcl.getD []).mapM (unpackAclEntry utf)).map .posixAcl

/-! ## Elements -/

def packElementAttributesToVector (elem : Element) : Option (List FbAttr) :=
  elem.attrs.mapM (packAttribute utf)

/-- The buffer, NULL for an element without attributes. -/
def packElementAttributes (elem : Element) : Option (Option FbAttrArray) :=
  if elem.attrs = [] then some none
  else do
    let attrs ← packElementAttributesToVector utf elem
    some (some { attrs := some attrs })

def createElementWithAttrs (name : UStr) (packedAttrs : Option FbAttrArray) : Option Element :=
  match packedAttrs with
  | none => some (createElement name)
  | some tbl => do
    let attrs ← (tbl.attrs.getD []).mapM (createAttributeFromTable utf)
    some (attrs.foldl addElementAttribute (createElement name))

/-- Storing the attributes and reading them back under a name. -/
def storeAndRead (name : UStr) (elem : Element) : Option Element := do
  let packed ← packElementAttributes utf elem
  createElementWithAttrs utf name packed

end

end Yella
