import Yella.Lib.SortedList
import Yella.Job.RunJob

/-!
# Monitor configurations

`config_node` of `file_plugin.c`, the tree that holds them, and the job that a file event
leads to.
-/

namespace Yella

/-- `attrTypesFreed`: `attr_types` points to memory that has been freed, and
`attr_type_count` is 0. -/
structure ConfigNode where
  name : UStr
  recipient : UStr
  includes : List UStr
  excludes : List UStr
  attrTypes : List AttributeType
  attrTypesFreed : Bool
  deriving DecidableEq, Repr

abbrev ConfigTree := SortedList.Tree ConfigNode.name

def createJob (cfgName recipient : UStr) : Job where
  configName := cfgName
  recipient := recipient
  includes := []
  excludes := []
  attrTypes := []

/-- The job that is queued, if there is a config of that name. -/
def eventReceived (configs : ConfigTree) (configName fname : UStr) : Option Job :=
  (configs.find configName).map fun found =>
    let jb := createJob configName found.recipient
    { jb with includes := jb.includes ++ [fname], attrTypes := found.attrTypes }

end Yella
