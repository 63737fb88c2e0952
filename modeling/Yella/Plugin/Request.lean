import Yella.FileName
import Yella.Parcel.Pack
import Yella.Plugin.Config

/-!
# Monitor requests

The functions of `file_plugin.c` that make a `config_node` of a `monitor_request`.
-/

namespace Yella

/-- `enum config_action` of `plugin.fbs`. The reader does not reject other values. -/
inductive ConfigAction where
  | addOrReplace
  | replaceAll
  | unknown
  deriving DecidableEq, Repr

/-- `table config` of `plugin.fbs` -/
structure FbPluginConfig where
  action : ConfigAction := .addOrReplace
  name : Option (List UInt8) := none
  deriving DecidableEq, Repr

/-- `table monitor_request` of `file.fbs` -/
structure FbMonitorRequest where
  config : Option FbPluginConfig := none
  includes : Option (List (List UInt8)) := none
  excludes : Option (List (List UInt8)) := none
  attrTypes : Option (List UInt16) := none
  deriving DecidableEq, Repr

/-- What the handler reads of a `yella_parcel`. -/
structure Parcel where
  sender : UStr
  type : UStr
  cmp : Compression
  payload : FbMonitorRequest
  deriving DecidableEq, Repr

/-! ## File names -/

section
variable (utf : Utf)

def cleanseFileName (utf8 : List UInt8) : Option UStr :=
  let utf16 := utf.fromUtf8 utf8
  if isFileNameAbsolute utf16 then
    let result := removeDuplicateDirSeps false utf16
    if result.length > 0 then
      if result.getLast? = some dirSep then some (udsrange result 0 (-2)) else some result
    else none
  else none

/-! ## The request -/

/-- The name and the action. Without a name the request is refused. -/
def processPluginConfig (req : FbMonitorRequest) : Option (UStr × ConfigAction) := do
  let fbCfg ← req.config
  let name ← fbCfg.name
  some (utf.fromUtf8 name, fbCfg.action)

/-- Names that cannot be cleansed are left out. -/
def cleanseAll (names : Option (List (List UInt8))) : List UStr :=
  (names.getD []).filterMap (cleanseFileName utf)

/-- `is_empty`, which counts the names before they are cleansed. -/
def includesEmpty (req : FbMonitorRequest) : Bool :=
  match req.includes with
  | some svec => svec.length = 0
  | none => true

/-- `fb_to_attribute_type`, for the values that `attr_type_is_known_value` accepts. -/
def fbToAttributeType (fb : UInt16) : Option AttributeType :=
  match fb.toNat with
  | 1 => some .fileType
  | 2 => some .sha256
  | 3 => some .posixPermissions
  | 4 => some .user
  | 5 => some .group
  | 6 => some .size
  | 7 => some .accessTime
  | 8 => some .metadataChangeTime
  | 9 => some .modificationTime
  | 10 => some .posixAcl
  | _ => none

/-- A value of the request is not an attribute type. The array of the node has been
allocated by then, and is freed. -/
def unknownAttrType (req : FbMonitorRequest) : Bool :=
  (req.attrTypes.getD []).any (fun fb => (fbToAttributeType fb).isNone)

/-- One unknown value, and none of the types is kept. -/
def processAttributes (req : FbMonitorRequest) : List AttributeType :=
  ((req.attrTypes.getD []).mapM fbToAttributeType).getD []

/-- The node, what to do with it, and whether there were no includes. -/
structure MonitorRequest where
  cfg : ConfigNode
  act : ConfigAction
  isEmpty : Bool
  deriving DecidableEq, Repr

/-- The part of `monitor_handler` before `install_config_node`. -/
def readRequest (pcl : Parcel) : Option MonitorRequest := do
  let (name, act) ← processPluginConfig utf pcl.payload
  some {
    cfg := {
      name
      recipient := pcl.sender
      includes := cleanseAll utf pcl.payload.includes
      excludes := cleanseAll utf pcl.payload.excludes
      attrTypes := processAttributes pcl.payload
      attrTypesFreed := unknownAttrType pcl.payload }
    act
    isEmpty := includesEmpty pcl.payload }

end

end Yella
