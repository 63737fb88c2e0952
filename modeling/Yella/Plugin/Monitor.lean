import Yella.Plugin.Request
import Yella.ReturnCode

/-!
# The monitor handler

`install_config_node` and `monitor_handler` of `file_plugin.c`, with the specs of
`event_source.c`. A result of `none` is a failed assertion, a second `free` or the use of a string
that was not converted.
-/

namespace Yella

structure EventSourceSpec where
  name : UStr
  includes : List UStr
  excludes : List UStr
  deriving DecidableEq, Repr

/-- The strings that are logged for a spec. -/
def EventSourceSpec.texts (spec : EventSourceSpec) : List UStr :=
  spec.name :: (spec.includes ++ spec.excludes)

abbrev SpecTree := SortedList.Tree EventSourceSpec.name

/-- The stores that a request touches. `inCapConfigs` is what the plugin advertises, `dbPool`
the names of the open state databases, `jobs` the queue, and `saved` the content of
`configs.flatb` where it can be read. -/
structure FilePlugin where
  inCapConfigs : List UStr
  configs : ConfigTree
  specs : SpecTree
  dbPool : List UStr
  jobs : List Job
  saved : Option (List ConfigNode)

def FilePlugin.start : FilePlugin where
  inCapConfigs := []
  configs := .empty
  specs := .empty
  dbPool := []
  jobs := []
  saved := none

inductive SaveResult where
  | written
  | notOpened
  | cutShort
  deriving DecidableEq, Repr

/-- What the program does not determine: the value of `erase_idx` where it is not set, and
how the writing of the file ends. -/
structure Chance where
  eraseIdx : Nat
  save : SaveResult

/-! ## Saving -/

/-- `table config` of `file_config.fbs` -/
structure FbFileConfig where
  name : Option (List UInt8) := none
  recipient : Option (List UInt8) := none
  includes : Option (List (List UInt8)) := none
  excludes : Option (List (List UInt8)) := none
  attributeTypes : Option (List UInt16) := none
  deriving DecidableEq, Repr

/-- `attribute_type_to_fb` -/
def attributeTypeToFb : AttributeType → UInt16
  | .fileType => 1
  | .sha256 => 2
  | .posixPermissions => 3
  | .user => 4
  | .group => 5
  | .size => 6
  | .accessTime => 7
  | .metadataChangeTime => 8
  | .modificationTime => 9
  | .posixAcl => 10

@[simp] theorem fbToAttributeType_attributeTypeToFb (atp : AttributeType) :
    fbToAttributeType (attributeTypeToFb atp) = some atp := by
  cases atp <;> rfl

section
variable (utf : Utf)

/-- A round of the loop of `save_configs`. -/
def packConfig (cur : ConfigNode) : Option FbFileConfig := do
  let name ← utf.toUtf8 cur.name
  let recipient ← utf.toUtf8 cur.recipient
  let includes ← cur.includes.mapM utf.toUtf8
  let excludes ← cur.excludes.mapM utf.toUtf8
  some {
    name := some name
    recipient := some recipient
    includes := some includes
    excludes := some excludes
    attributeTypes := some (cur.attrTypes.map attributeTypeToFb) }

/-- The tables are built before the file is opened. -/
def saveConfigs (fplg : FilePlugin) (result : SaveResult) : Option FilePlugin := do
  let _ ← fplg.configs.nodes.mapM (packConfig utf)
  some { fplg with
    saved :=
      match result with
      | .written => some fplg.configs.nodes
      | .notOpened => fplg.saved
      | .cutShort => none }

end

/-! ## Installing -/

def destroyConfigNode (cn : Option ConfigNode) : Option Unit :=
  if cn.any ConfigNode.attrTypesFreed then none else some ()

/-- `yella_erase_ptr_vector_at` takes an `unsigned`. -/
def eraseAt (configs : List UStr) (idx : Nat) : List UStr := configs.eraseIdx (idx % 0x100000000)

/-- The index that is erased from the advertised names is only set for a name that is
found. -/
def updateInCap (configs : List UStr) (name : UStr) (isEmpty : Bool) (eraseIdx : Nat) :
    List UStr :=
  match configs.findIdx? (· = name), isEmpty with
  | some i, true => eraseAt configs i
  | none, true => eraseAt configs eraseIdx
  | some _, false => configs
  | none, false => configs ++ [name]

/-- The job that runs over the whole of a new config. -/
def configJob (cfg : ConfigNode) : Job :=
  { createJob cfg.name cfg.recipient with
    includes := cfg.includes, excludes := cfg.excludes, attrTypes := cfg.attrTypes }

def configSpec (cfg : ConfigNode) : EventSourceSpec where
  name := cfg.name
  includes := cfg.includes
  excludes := cfg.excludes

@[simp] theorem configSpec_name (cfg : ConfigNode) : (configSpec cfg).name = cfg.name := rfl

def addOrReplaceEventSourceSpec (specs : SpecTree) (spec : EventSourceSpec) : SpecTree :=
  (specs.delete spec.name).add spec

/-- The strings of the spec are logged too, before they are saved with those of all nodes. -/
def installConfigNode (utf : Utf) (fplg : FilePlugin) (chance : Chance) (req : MonitorRequest) :
    Option FilePlugin := do
  let cfg := req.cfg
  let advertised := if req.act = .replaceAll then [] else fplg.inCapConfigs
  let advertised := updateInCap advertised cfg.name req.isEmpty chance.eraseIdx
  let _ ← destroyConfigNode (fplg.configs.find cfg.name)
  let configs := fplg.configs.delete cfg.name
  if req.isEmpty then
    let _ ← destroyConfigNode (some cfg)
    saveConfigs utf { fplg with
      inCapConfigs := advertised
      configs
      specs := fplg.specs.delete cfg.name
      dbPool := fplg.dbPool.filter (· ≠ cfg.name) } chance.save
  else
    saveConfigs utf { fplg with
      inCapConfigs := advertised
      configs := configs.add cfg
      specs := addOrReplaceEventSourceSpec fplg.specs (configSpec cfg)
      jobs := fplg.jobs ++ [configJob cfg] } chance.save

/-- `u"file.monitor_request"` -/
def monitorRequestType : UStr :=
  [102, 105, 108, 101, 46, 109, 111, 110, 105, 116, 111, 114, 95, 114, 101, 113, 117, 101, 115,
    116]

def monitorHandler (utf : Utf) (fplg : FilePlugin) (chance : Chance) (pcl : Parcel) :
    Option (FilePlugin × Rc) :=
  if pcl.type = monitorRequestType ∧ pcl.cmp = .none then
    match readRequest utf pcl with
    | none => some (fplg, .invalidFormat)
    | some req => (installConfigNode utf fplg chance req).map (·, .noError)
  else none

/-- Parcels handled one after the other. -/
def handleAll (utf : Utf) (fplg : FilePlugin) : List (Chance × Parcel) → Option FilePlugin
  | [] => some fplg
  | (chance, pcl) :: rest =>
    (monitorHandler utf fplg chance pcl).bind fun r => handleAll utf r.1 rest

end Yella
