import Yella.Lib.Fallible
import Yella.Lib.Prefixes
import Yella.Plugin.Asked
import Yella.Plugin.Monitor

/-!
# The configs as a map

A map from names to configs says what the requests are for. The config tree and the specs of
the event source follow it as long as no request asks for all other configs to be dropped
while there are some, no array of attribute types is freed twice, and the strings of every config
can be saved.
-/

namespace Yella

abbrev Bindings := UStr → Option ConfigNode

def Bindings.empty : Bindings := fun _ => none

/-- What a request is for. -/
def Bindings.apply (m : Bindings) (req : MonitorRequest) : Bindings :=
  let kept := if req.act = .replaceAll then Bindings.empty else m
  Function.update kept req.cfg.name (if req.isEmpty then none else some req.cfg)

/-- The parcels one after the other; a request without a name changes nothing. -/
def reference (utf : Utf) (reqs : List (Chance × Parcel)) : Bindings :=
  reqs.foldl (fun m r => ((asked utf r.2).map m.apply).getD m) .empty

/-- The tree of the plugin and that of the event source hold these configs and no others. -/
structure FilePlugin.Implements (fplg : FilePlugin) (m : Bindings) : Prop where
  configs : fplg.configs.Holds m
  specs : fplg.specs.Holds (fun n => (m n).map configSpec)

theorem start_implements : FilePlugin.start.Implements .empty where
  configs := SortedList.Tree.holds_empty
  specs := SortedList.Tree.holds_empty

/-- No other config is bound when all others are to be dropped. -/
def DropsNothing (m : Bindings) (req : MonitorRequest) : Prop :=
  req.act = .replaceAll → ∀ n, n ≠ req.cfg.name → m n = none

/-- The attribute types of the config that the request destroys have not been freed. -/
def DestroysIntact (m : Bindings) (req : MonitorRequest) : Prop :=
  (∀ cn ∈ m req.cfg.name, cn.attrTypesFreed = false) ∧
    (req.isEmpty = true → req.cfg.attrTypesFreed = false)

theorem apply_dropsNothing {m : Bindings} {req : MonitorRequest} (h : DropsNothing m req) :
    m.apply req = Function.update m req.cfg.name (if req.isEmpty then none else some req.cfg) := by
  funext n
  by_cases hn : n = req.cfg.name
  · simp [Bindings.apply, hn]
  · by_cases hact : req.act = .replaceAll
    · simp [Bindings.apply, hn, hact, Bindings.empty, h hact n hn]
    · simp [Bindings.apply, hn, hact]

/-! ## One request -/

/-- The strings that are written for a node. -/
def ConfigNode.strings (cn : ConfigNode) : List UStr :=
  cn.name :: cn.recipient :: (cn.includes ++ cn.excludes)

/-- The strings of all configs can be written. -/
def ConfigTree.Saves (utf : Utf) (configs : ConfigTree) : Prop :=
  ∀ cn ∈ configs.nodes, ∀ s ∈ cn.strings, utf.Converts s

/-- The configs with the one of the request. -/
def installedConfigs (configs : ConfigTree) (req : MonitorRequest) : ConfigTree :=
  if req.isEmpty then configs.delete req.cfg.name
  else (configs.delete req.cfg.name).add req.cfg

/-- The stores with the config of the request, before the configs are saved. -/
def FilePlugin.withRequest (fplg : FilePlugin) (chance : Chance) (req : MonitorRequest) :
    FilePlugin where
  inCapConfigs := updateInCap (if req.act = .replaceAll then [] else fplg.inCapConfigs)
    req.cfg.name req.isEmpty chance.eraseIdx
  configs := installedConfigs fplg.configs req
  specs :=
    if req.isEmpty then fplg.specs.delete req.cfg.name
    else addOrReplaceEventSourceSpec fplg.specs (configSpec req.cfg)
  dbPool := if req.isEmpty then fplg.dbPool.filter (· ≠ req.cfg.name) else fplg.dbPool
  jobs := if req.isEmpty then fplg.jobs else fplg.jobs ++ [configJob req.cfg]
  saved := fplg.saved

/-- The request frees nothing twice, and all configs can be saved then. -/
structure GetsThrough (utf : Utf) (fplg : FilePlugin) (req : MonitorRequest) : Prop where
  intact : DestroysIntact fplg.configs.find req
  saves : ConfigTree.Saves utf (installedConfigs fplg.configs req)

section
variable {utf : Utf} {fplg fplg' : FilePlugin} {m : Bindings} {req : MonitorRequest}
  {chance : Chance} {result : SaveResult}

theorem packConfig_isSome {cn : ConfigNode} :
    (packConfig utf cn).isSome ↔ ∀ s ∈ cn.strings, utf.Converts s := by
  have lists (l : List UStr) : (l.mapM utf.toUtf8).isSome ↔ ∀ s ∈ l, utf.Converts s :=
    Fallible.mapM_isSome
  rw [ConfigNode.strings, List.forall_mem_cons, List.forall_mem_cons, List.forall_mem_append,
    ← lists, ← lists, packConfig, Utf.Converts, Utf.Converts]
  cases utf.toUtf8 cn.name <;> cases utf.toUtf8 cn.recipient <;>
    cases cn.includes.mapM utf.toUtf8 <;> cases cn.excludes.mapM utf.toUtf8 <;> simp

/-- Only the file changes, and the program dies of strings that cannot be written. -/
theorem saveConfigs_cases (h : saveConfigs utf fplg result = some fplg') :
    ConfigTree.Saves utf fplg.configs ∧ ∃ saved, fplg' = { fplg with saved } := by
  simp only [saveConfigs, Option.bind_eq_bind, Option.bind_eq_some_iff] at h
  obtain ⟨cfgs, packed, h⟩ := h
  cases h
  have all := Fallible.mapM_isSome.mp (Option.isSome_iff_exists.mpr ⟨cfgs, packed⟩)
  exact ⟨fun cn hcn => packConfig_isSome.mp (all cn hcn), _, rfl⟩

theorem saveConfigs_defined (h : ConfigTree.Saves utf fplg.configs) :
    ∃ fplg', saveConfigs utf fplg result = some fplg' := by
  have all := Fallible.mapM_isSome.mpr fun cn hcn => packConfig_isSome.mpr (h cn hcn)
  obtain ⟨cfgs, packed⟩ := Option.isSome_iff_exists.mp all
  simp only [saveConfigs, packed]
  exact ⟨_, rfl⟩

theorem destroyConfigNode_eq_some {cn : Option ConfigNode} {u : Unit} :
    destroyConfigNode cn = some u ↔ ∀ c ∈ cn, c.attrTypesFreed = false := by
  cases cn <;> simp [destroyConfigNode]

/-- What the installation of a request does, and what it takes. -/
theorem installConfigNode_iff : installConfigNode utf fplg chance req = some fplg' ↔
    DestroysIntact fplg.configs.find req ∧
      saveConfigs utf (fplg.withRequest chance req) chance.save = some fplg' := by
  simp only [installConfigNode, Option.bind_eq_bind, Option.bind_eq_some_iff,
    destroyConfigNode_eq_some, DestroysIntact, FilePlugin.withRequest, installedConfigs]
  cases req.isEmpty
  · simp
  · simp [Option.bind_eq_some_iff, destroyConfigNode_eq_some, and_assoc]

theorem installConfigNode_cases (h : installConfigNode utf fplg chance req = some fplg') :
    GetsThrough utf fplg req ∧ ∃ saved, fplg' = { fplg.withRequest chance req with saved } := by
  obtain ⟨intact, h⟩ := installConfigNode_iff.mp h
  obtain ⟨saves, saved, rfl⟩ := saveConfigs_cases h
  exact ⟨⟨intact, saves⟩, saved, rfl⟩

/-- Only a second `free`, or a string that cannot be written, keeps a request from being
installed. -/
theorem installConfigNode_exists_iff :
    (∃ fplg', installConfigNode utf fplg chance req = some fplg') ↔
      GetsThrough utf fplg req := by
  constructor
  · rintro ⟨fplg', h⟩
    exact (installConfigNode_cases h).1
  · rintro ⟨intact, saves⟩
    obtain ⟨fplg', saved⟩ : ∃ fplg',
        saveConfigs utf (fplg.withRequest chance req) chance.save = some fplg' :=
      saveConfigs_defined saves
    exact ⟨fplg', installConfigNode_iff.mpr ⟨intact, saved⟩⟩

/-- The strings of the config that is added are all that is new to the file. -/
theorem saves_installedConfigs (h : ConfigTree.Saves utf fplg.configs) :
    ConfigTree.Saves utf (installedConfigs fplg.configs req) ↔
      (req.isEmpty = false → ∀ s ∈ req.cfg.strings, utf.Converts s) := by
  have kept : ∀ cn ∈ (fplg.configs.delete req.cfg.name).nodes, ∀ s ∈ cn.strings,
      utf.Converts s := fun cn hcn => h cn (SortedList.Tree.mem_of_mem_delete hcn)
  rw [installedConfigs]
  cases req.isEmpty
  · simp only [Bool.false_eq_true, ↓reduceIte, forall_const]
    constructor
    · intro all
      exact all req.cfg (SortedList.Tree.mem_nodes_add.mpr (.inl rfl))
    · intro own cn hcn
      rcases SortedList.Tree.mem_nodes_add.mp hcn with rfl | hcn
      · exact own
      · exact kept cn hcn
  · simp only [↓reduceIte, Bool.true_eq_false, false_implies, iff_true]
    exact kept

theorem find_eq (h : fplg.Implements m) : fplg.configs.find = m := funext h.configs.find

/-- Whatever the action, only the binding of the name changes. -/
theorem installConfigNode_implements (h : fplg.Implements m)
    (hi : installConfigNode utf fplg chance req = some fplg') :
    fplg'.Implements
      (Function.update m req.cfg.name (if req.isEmpty then none else some req.cfg)) := by
  have specs : ∀ cfg : Option ConfigNode,
      (fun n => (Function.update m req.cfg.name cfg n).map configSpec) =
        Function.update (fun n => (m n).map configSpec) req.cfg.name (cfg.map configSpec) := by
    intro cfg
    funext n
    by_cases hn : n = req.cfg.name <;> simp [hn]
  obtain ⟨-, saved, rfl⟩ := installConfigNode_cases hi
  cases he : req.isEmpty
  · constructor
    · simpa [FilePlugin.withRequest, installedConfigs, he] using h.configs.put req.cfg
    · rw [specs]
      simpa [FilePlugin.withRequest, addOrReplaceEventSourceSpec, he] using
        h.specs.put (configSpec req.cfg)
  · constructor
    · simpa [FilePlugin.withRequest, installedConfigs, he] using h.configs.delete req.cfg.name
    · rw [specs]
      simpa [FilePlugin.withRequest, he] using h.specs.delete req.cfg.name

/-- The strings of a config that is bound are those of the request. -/
def BindsSaved (utf : Utf) (req : MonitorRequest) : Prop :=
  req.isEmpty = false → ∀ s ∈ req.cfg.strings, utf.Converts s

/-- The plugin gets past a request, and still follows the map, exactly when the request drops
nothing, destroys no config whose attribute types are freed and binds one that can be saved. -/
theorem installConfigNode_follows (h : fplg.Implements m)
    (saves : ConfigTree.Saves utf fplg.configs) :
    (∃ fplg', installConfigNode utf fplg chance req = some fplg' ∧
      fplg'.Implements (m.apply req)) ↔
      DropsNothing m req ∧ DestroysIntact m req ∧ BindsSaved utf req := by
  have through : (∃ fplg', installConfigNode utf fplg chance req = some fplg') ↔
      DestroysIntact m req ∧ BindsSaved utf req := by
    rw [installConfigNode_exists_iff, ← find_eq h, BindsSaved, ← saves_installedConfigs saves]
    exact ⟨fun t => ⟨t.intact, t.saves⟩, fun t => ⟨t.1, t.2⟩⟩
  constructor
  · rintro ⟨fplg', hi, hm⟩
    refine ⟨fun hact n hn => ?_, through.mp ⟨fplg', hi⟩⟩
    have same := congrFun (hm.configs.unique (installConfigNode_implements h hi).configs) n
    simpa [Bindings.apply, hact, hn, Bindings.empty] using same.symm
  · rintro ⟨hdrop, hthrough⟩
    obtain ⟨fplg', hi⟩ := through.mpr hthrough
    refine ⟨fplg', hi, ?_⟩
    rw [apply_dropsNothing hdrop]
    exact installConfigNode_implements h hi

end

/-! ## Sequences of requests -/

/-- A parcel that `monitor_handler` is registered for, which is not compressed. -/
def Parcel.Expected (pcl : Parcel) : Prop :=
  pcl.type = monitorRequestType ∧ pcl.cmp = .none

/-- After each request the plugin holds the configs of the map. -/
def ConfigsAgree (utf : Utf) (reqs : List (Chance × Parcel)) : Prop :=
  ∀ pre post, reqs = pre ++ post →
    ∃ fplg, handleAll utf .start pre = some fplg ∧ fplg.Implements (reference utf pre)

/-- Each request drops nothing, destroys no config whose attribute types are freed, and binds only
what can be saved. -/
def RequestsKeep (utf : Utf) (reqs : List (Chance × Parcel)) : Prop :=
  ∀ pre r post, reqs = pre ++ r :: post → ∀ req ∈ asked utf r.2,
    DropsNothing (reference utf pre) req ∧ DestroysIntact (reference utf pre) req ∧
      BindsSaved utf req

section
variable {utf : Utf} {reqs : List (Chance × Parcel)} {r : Chance × Parcel}

theorem reference_snoc (utf : Utf) (reqs : List (Chance × Parcel)) (r : Chance × Parcel) :
    reference utf (reqs ++ [r]) = ((asked utf r.2).map
      (reference utf reqs).apply).getD (reference utf reqs) := by
  simp [reference]

theorem handleAll_snoc (fplg : FilePlugin) (reqs : List (Chance × Parcel))
    (r : Chance × Parcel) :
    handleAll utf fplg (reqs ++ [r]) = (handleAll utf fplg reqs).bind fun fplg' =>
      (monitorHandler utf fplg' r.1 r.2).map Prod.fst := by
  induction reqs generalizing fplg with
  | nil => simp [handleAll, Option.map_eq_bind]
  | cons q reqs ih =>
    simp only [List.cons_append, handleAll, ih, Option.bind_assoc]

/-- The handler changes nothing, or installs the node of the request. -/
theorem monitorHandler_cases {fplg fplg' : FilePlugin} (expected : r.2.Expected) :
    (monitorHandler utf fplg r.1 r.2).map Prod.fst = some fplg' ↔
      (readRequest utf r.2 = none ∧ fplg' = fplg) ∨
        ∃ req, readRequest utf r.2 = some req ∧
          installConfigNode utf fplg r.1 req = some fplg' := by
  simp only [monitorHandler, show _ ∧ _ from expected]
  cases readRequest utf r.2 with
  | none => simp [eq_comm]
  | some req => simp [Function.comp_def]

/-- What has been handled has been saved. -/
theorem handleAll_saves {fplg fplg' : FilePlugin} (h : ConfigTree.Saves utf fplg.configs)
    (expected : ∀ r ∈ reqs, r.2.Expected) (handled : handleAll utf fplg reqs = some fplg') :
    ConfigTree.Saves utf fplg'.configs := by
  induction reqs using List.reverseRecOn generalizing fplg' with
  | nil =>
    cases handled
    exact h
  | append_singleton reqs r ih =>
    rw [handleAll_snoc, Option.bind_eq_some_iff] at handled
    obtain ⟨before, hb, step⟩ := handled
    rcases (monitorHandler_cases (expected r (by simp))).mp step with ⟨-, rfl⟩ | ⟨req, -, hi⟩
    · exact ih (fun q hq => expected q (by simp [hq])) hb
    · obtain ⟨through, saved, rfl⟩ := installConfigNode_cases hi
      exact through.saves

/-- One more parcel. -/
theorem monitorHandler_follows {fplg : FilePlugin} {m : Bindings} (h : fplg.Implements m)
    (saves : ConfigTree.Saves utf fplg.configs) (expected : r.2.Expected) :
    (∃ fplg', (monitorHandler utf fplg r.1 r.2).map Prod.fst = some fplg' ∧
        fplg'.Implements (((asked utf r.2).map m.apply).getD m)) ↔
      ∀ req ∈ asked utf r.2, DropsNothing m req ∧ DestroysIntact m req ∧ BindsSaved utf req := by
  simp only [monitorHandler, show _ ∧ _ from expected, readRequest_eq]
  cases hr : asked utf r.2 with
  | none => simpa using h
  | some req => simpa [Function.comp_def] using installConfigNode_follows h saves

end

/-- The configs follow the map through a sequence of requests exactly when no request drops
another config, none destroys a config whose attribute types are freed, and each binds only what
can be saved. -/
theorem configs_agree_iff (utf : Utf) (reqs : List (Chance × Parcel))
    (expected : ∀ r ∈ reqs, r.2.Expected) : ConfigsAgree utf reqs ↔ RequestsKeep utf reqs := by
  apply Prefixes.throughout_iff_atEach
  · exact ⟨.start, rfl, start_implements⟩
  · rintro pre r hp ⟨fplg, hrun, himpl⟩
    have none : ConfigTree.Saves utf FilePlugin.start.configs := fun _ there => by cases there
    have saves := handleAll_saves none (fun q hq => expected q (hp.mem (by simp [hq]))) hrun
    rw [handleAll_snoc, hrun, Option.bind_some, reference_snoc]
    exact monitorHandler_follows himpl saves (expected r (hp.mem (by simp)))

/-- A request of the sender `s` to watch `/d`. -/
def watchRequest (name : List UInt8) (action : ConfigAction) : Chance × Parcel where
  fst := { eraseIdx := 0, save := .written }
  snd := {
    sender := [115]
    type := monitorRequestType
    cmp := .none
    payload := {
      config := some { action, name := some name }
      includes := some [[47, 100]]
      attrTypes := some [1, 2] } }

theorem configs_agree_watch_twice :
    ConfigsAgree asciiUtf [watchRequest [97] .addOrReplace, watchRequest [97] .replaceAll] := by
  refine (configs_agree_iff asciiUtf _ ?_).mpr ?_
  · intro r hr
    rcases List.mem_pair.mp hr with rfl | rfl <;> exact ⟨rfl, rfl⟩
  · have one : RequestsKeep asciiUtf ([] ++ [watchRequest [97] .addOrReplace]) :=
      Prefixes.atEach_snoc.mpr
        ⟨Prefixes.atEach_nil, by
          rintro req ⟨⟩
          exact ⟨nofun, ⟨nofun, nofun⟩, fun _ => by decide⟩⟩
    refine Prefixes.atEach_snoc.mpr ⟨one, ?_⟩
    rintro req ⟨⟩
    refine ⟨fun _ n hn => Function.update_of_ne hn _ _, ⟨?_, nofun⟩, fun _ => by decide⟩
    rintro cn ⟨⟩
    rfl

/-- `REPLACE_ALL` with the config `b` leaves the config `a` where it was. -/
theorem replaceAll_keeps_configs :
    ¬ ConfigsAgree asciiUtf [watchRequest [97] .addOrReplace, watchRequest [98] .replaceAll] := by
  intro h
  obtain ⟨fplg, hrun, himpl⟩ := h _ [] (List.append_nil _).symm
  have stays : ((handleAll asciiUtf .start
      [watchRequest [97] .addOrReplace, watchRequest [98] .replaceAll]).bind
        (·.configs.find [97])).isSome := rfl
  rw [hrun, Option.bind_some, himpl.configs.find] at stays
  cases stays

end Yella
