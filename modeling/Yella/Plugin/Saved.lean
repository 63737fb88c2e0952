import Yella.Element.RoundTrip
import Yella.Plugin.ConfigMap

/-!
# The saved configurations

`save_configs`, `load_configs` and `plugin_start` of `file_plugin.c`. A flatbuffer is the
tables that were built into it. A result of `none` is a failed assertion or the reading of a
string that is not there.
-/

namespace Yella

/-- `configs.flatb`. A `foreign` file does not have the identifier of `file_config.fbs`. -/
inductive ConfigsFile where
  | missing
  | unreadable
  | foreign
  | configs (cfgs : Option (List FbFileConfig))
  deriving DecidableEq, Repr

section
variable (utf : Utf)

/-- What `save_configs` leaves when the file is written completely. -/
def savedFile (fplg : FilePlugin) : Option ConfigsFile :=
  (fplg.configs.nodes.mapM (packConfig utf)).map fun cfgs => .configs (some cfgs)

/-- A round of the loop of `load_configs`. A vector that is absent has no elements. -/
def unpackConfig (cfg : FbFileConfig) : Option ConfigNode := do
  let name ← cfg.name
  let recipient ← cfg.recipient
  let attrTypes ← (cfg.attributeTypes.getD []).mapM fbToAttributeType
  some {
    name := utf.fromUtf8 name
    recipient := utf.fromUtf8 recipient
    includes := (cfg.includes.getD []).map utf.fromUtf8
    excludes := (cfg.excludes.getD []).map utf.fromUtf8
    attrTypes
    attrTypesFreed := false }

/-- The specs of the event source, one replaced after the other. -/
def addOrReplaceEventSourceSpecs (specs : SpecTree) (especs : List EventSourceSpec) : SpecTree :=
  especs.foldl addOrReplaceEventSourceSpec specs

def ConfigsFile.cfgs : ConfigsFile → List FbFileConfig
  | .configs cfgs => cfgs.getD []
  | _ => []

/-- `specs_to_yaml`, as far as it can fail -/
def specsToYaml (especs : List EventSourceSpec) : Option Unit :=
  ((especs.flatMap EventSourceSpec.texts).mapM utf.toUtf8).map fun _ => ()

/-- The advertised names are left as they are. Where the logger permits INFO the specs are
logged. -/
def loadConfigs (permitsInfo : Bool) (fplg : FilePlugin) (file : ConfigsFile) :
    Option FilePlugin :=
  match file with
  | .configs _ => do
    let nodes ← file.cfgs.mapM (unpackConfig utf)
    let especs := nodes.map configSpec
    if permitsInfo then specsToYaml utf especs
    some { fplg with
      configs := fplg.configs.addAll nodes
      specs := addOrReplaceEventSourceSpecs fplg.specs especs
      saved := some nodes }
  | _ => some fplg

def pluginStart (permitsInfo : Bool) (file : ConfigsFile) : Option FilePlugin :=
  loadConfigs utf permitsInfo .start file

end

/-! ## Loading what was saved -/

/-- The node with an array of attribute types of its own. -/
def ConfigNode.intact (cn : ConfigNode) : ConfigNode := { cn with attrTypesFreed := false }

@[simp] theorem ConfigNode.intact_name (cn : ConfigNode) : cn.intact.name = cn.name := rfl

@[simp] theorem configSpec_intact (cn : ConfigNode) : configSpec cn.intact = configSpec cn := rfl

/-- The plugin that has started with these nodes. -/
def FilePlugin.loaded (nodes : List ConfigNode) : FilePlugin :=
  { FilePlugin.start with
    configs := SortedList.Tree.empty.addAll nodes
    specs := addOrReplaceEventSourceSpecs .empty (nodes.map configSpec)
    saved := some nodes }

section
variable {utf : Utf}

theorem pluginStart_configs {permitsInfo : Bool} {cfgs : Option (List FbFileConfig)}
    {fplg : FilePlugin} : pluginStart utf permitsInfo (.configs cfgs) = some fplg ↔
    ∃ nodes, (cfgs.getD []).mapM (unpackConfig utf) = some nodes ∧
      (permitsInfo = true → (specsToYaml utf (nodes.map configSpec)).isSome) ∧
      fplg = .loaded nodes := by
  simp only [pluginStart, loadConfigs, ConfigsFile.cfgs, Option.bind_eq_bind,
    Option.bind_eq_some_iff]
  refine exists_congr fun nodes => and_congr_right fun _ => ?_
  cases permitsInfo
  · exact ⟨fun h => ⟨by simp, (Option.some_inj.mp h).symm⟩, fun h => h.2 ▸ rfl⟩
  · cases specsToYaml utf (nodes.map configSpec) with
    | none => exact ⟨fun h => (by cases h), fun h => absurd (h.1 rfl) (by simp)⟩
    | some u => exact ⟨fun h => ⟨fun _ => rfl, (Option.some_inj.mp h).symm⟩, fun h => h.2 ▸ rfl⟩

theorem mapM_toUtf8 {l : List UStr} (h : utf.InverseOn l) :
    ∃ us, l.mapM utf.toUtf8 = some us ∧ us.map utf.fromUtf8 = l := by
  apply Option.map_eq_some_iff.mp
  rw [Fallible.map_mapM]
  exact Fallible.mapM_eq_self h

theorem unpackConfig_packConfig {cn : ConfigNode} (h : utf.InverseOn cn.strings) :
    (packConfig utf cn).bind (unpackConfig utf) = some cn.intact := by
  obtain ⟨name, toName, name'⟩ := h.back (s := cn.name) (by simp [ConfigNode.strings])
  obtain ⟨recipient, toRecipient, recipient'⟩ :=
    h.back (s := cn.recipient) (by simp [ConfigNode.strings])
  obtain ⟨includes, toIncludes, includes'⟩ := mapM_toUtf8
    (@Utf.InverseOn.of_subset utf cn.includes _ h fun s hs => by simp [ConfigNode.strings, hs])
  obtain ⟨excludes, toExcludes, excludes'⟩ := mapM_toUtf8
    (@Utf.InverseOn.of_subset utf cn.excludes _ h fun s hs => by simp [ConfigNode.strings, hs])
  have types : (cn.attrTypes.map attributeTypeToFb).mapM fbToAttributeType =
      some cn.attrTypes := by
    induction cn.attrTypes with
    | nil => rfl
    | cons t ts ih => simp [ih]
  simp only [packConfig, toName, toRecipient, toIncludes, toExcludes, unpackConfig,
    Option.getD_some, types, name', recipient', includes', excludes', Option.bind_eq_bind,
    Option.bind_some, ConfigNode.intact]

theorem mapM_unpackConfig {nodes : List ConfigNode}
    (h : utf.InverseOn (nodes.flatMap ConfigNode.strings)) :
    (nodes.mapM (packConfig utf)).bind (·.mapM (unpackConfig utf)) =
      some (nodes.map ConfigNode.intact) := by
  rw [Fallible.mapM_bind_mapM]
  apply Fallible.mapM_eq_map
  intro cn hcn
  exact unpackConfig_packConfig
    (h.of_subset fun s hs => List.mem_flatMap.mpr ⟨cn, hcn, hs⟩)

theorem texts_configSpec_subset (cn : ConfigNode) : (configSpec cn).texts ⊆ cn.strings := by
  intro s hs
  rcases List.mem_cons.mp hs with rfl | hs
  · exact List.mem_cons_self
  · exact List.mem_cons_of_mem _ (List.mem_cons_of_mem _ hs)

theorem specsToYaml_isSome {especs : List EventSourceSpec} :
    (specsToYaml utf especs).isSome ↔ ∀ spec ∈ especs, ∀ s ∈ spec.texts, utf.Converts s := by
  rw [specsToYaml, Option.isSome_map, Fallible.mapM_isSome]
  simp only [List.mem_flatMap, forall_exists_index, and_imp]
  exact ⟨fun h spec hspec s hs => h s spec hspec hs, fun h s spec hspec hs => h spec hspec s hs⟩

end

theorem map_name_intact (nodes : List ConfigNode) :
    (nodes.map ConfigNode.intact).map ConfigNode.name = nodes.map ConfigNode.name := by
  simp [Function.comp_def]

theorem map_name_configSpec (nodes : List ConfigNode) :
    (nodes.map configSpec).map EventSourceSpec.name = nodes.map ConfigNode.name := by
  simp [Function.comp_def]

/-- A plugin that starts after the configs were saved has the same ones, both in the config
tree and in the specs of the event source. -/
theorem saved_configs_loaded (utf : Utf) (permitsInfo : Bool) (fplg : FilePlugin)
    (distinct : (fplg.configs.nodes.map ConfigNode.name).Nodup)
    (inverse : utf.InverseOn (fplg.configs.nodes.flatMap ConfigNode.strings)) :
    ∃ file started, savedFile utf fplg = some file ∧
      pluginStart utf permitsInfo file = some started ∧
      started.configs.nodes = fplg.configs.nodes.map ConfigNode.intact ∧
      started.specs.nodes = fplg.configs.nodes.map configSpec := by
  obtain ⟨cfgs, packed, read⟩ := Option.bind_eq_some_iff.mp (mapM_unpackConfig inverse)
  have specs : (fplg.configs.nodes.map ConfigNode.intact).map configSpec =
      fplg.configs.nodes.map configSpec := by simp [Function.comp_def]
  have sorted : fplg.configs.nodes.Pairwise (fun a b => a.name ≤ b.name) := fplg.configs.sorted
  have logged : (specsToYaml utf (fplg.configs.nodes.map configSpec)).isSome := by
    rw [specsToYaml_isSome]
    intro spec hspec s hs
    obtain ⟨cn, hcn, rfl⟩ := List.mem_map.mp hspec
    obtain ⟨u, hu, -⟩ := inverse.back
      (List.mem_flatMap.mpr ⟨cn, hcn, texts_configSpec_subset cn hs⟩)
    rw [Utf.Converts, hu]
    rfl
  have started : pluginStart utf permitsInfo (.configs (some cfgs)) =
      some (.loaded (fplg.configs.nodes.map ConfigNode.intact)) :=
    pluginStart_configs.mpr ⟨_, read, fun _ => by rwa [specs], rfl⟩
  refine ⟨_, _, by rw [savedFile, packed]; rfl, started, ?_, ?_⟩
  · show (SortedList.Tree.empty.addAll _).nodes = _
    rw [SortedList.Tree.nodes_addAll]
    apply SortedList.foldl_add_of_nodup
    · exact List.pairwise_map.mpr sorted
    · rw [map_name_intact]
      exact distinct
  · show (addOrReplaceEventSourceSpecs .empty _).nodes = _
    rw [specs]
    apply SortedList.Tree.nodes_putAll_empty
    · exact List.pairwise_map.mpr sorted
    · rw [map_name_configSpec]
      exact distinct

/-- The configs `a`, which watches `/d` with two attribute types, and `b`, which has no
excludes and no attribute types. -/
def twoConfigs : FilePlugin :=
  let a : ConfigNode := {
    name := [97], recipient := [115], includes := [[47, 100]], excludes := [[47, 101]]
    attrTypes := [.sha256, .size], attrTypesFreed := false }
  let b : ConfigNode := {
    name := [98], recipient := [116], includes := [[47, 102]], excludes := []
    attrTypes := [], attrTypesFreed := false }
  { FilePlugin.start with configs := (SortedList.Tree.empty.add b).add a }

theorem saved_twoConfigs_loaded :
    (twoConfigs.configs.nodes.map ConfigNode.name).Nodup ∧
    asciiUtf.InverseOn (twoConfigs.configs.nodes.flatMap ConfigNode.strings) ∧
    ∃ file started, savedFile asciiUtf twoConfigs = some file ∧
      pluginStart asciiUtf true file = some started ∧
      started.configs.nodes = twoConfigs.configs.nodes.map ConfigNode.intact ∧
      started.specs.nodes = twoConfigs.configs.nodes.map configSpec := by
  have distinct : (twoConfigs.configs.nodes.map ConfigNode.name).Nodup := by decide
  have inverse : asciiUtf.InverseOn (twoConfigs.configs.nodes.flatMap ConfigNode.strings) := by
    decide
  exact ⟨distinct, inverse, saved_configs_loaded asciiUtf true twoConfigs distinct inverse⟩

end Yella
