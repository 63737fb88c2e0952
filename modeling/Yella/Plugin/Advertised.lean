import Yella.Lib.Fallible
import Yella.Lib.Prefixes
import Yella.Plugin.Saved

/-!
# The advertised configurations

The names that a heartbeat reports for `file.monitor_request` against those of the config
tree. They are the same as long as the plugin starts without saved configs, the index that a
removal erases is that of its config, or none where the config is not there, and no request asks
for all other configs to be dropped while there are some.
-/

namespace Yella

/-- The names of the nodes of the config tree. -/
def FilePlugin.installed (fplg : FilePlugin) : List UStr := fplg.configs.nodes.map ConfigNode.name

/-- The advertised names are those of the nodes, each once. -/
structure FilePlugin.Advertises (fplg : FilePlugin) : Prop where
  once : fplg.inCapConfigs.Nodup
  names : ∀ n, n ∈ fplg.inCapConfigs ↔ n ∈ fplg.installed

/-- A request that removes a config that is not there. -/
def RemovesUnknown (fplg : FilePlugin) (req : MonitorRequest) : Prop :=
  req.isEmpty = true ∧ req.cfg.name ∉ fplg.installed

/-- The advertised names follow the tree over this request. -/
structure KeepsAdvertised (fplg : FilePlugin) (chance : Chance) (req : MonitorRequest) :
    Prop where
  dropsNone : req.act = .replaceAll → ∀ n ∈ fplg.installed, n = req.cfg.name
  outside : req.act ≠ .replaceAll → RemovesUnknown fplg req →
    fplg.inCapConfigs.length ≤ chance.eraseIdx % 0x100000000
  fits : req.act ≠ .replaceAll → req.isEmpty = true → req.cfg.name ∈ fplg.inCapConfigs →
    fplg.inCapConfigs.idxOf req.cfg.name < 0x100000000

/-! ## One update of the names -/

section
variable {names : List UStr} {name : UStr} {isEmpty : Bool} {idx : Nat}

theorem updateInCap_of_mem (h : name ∈ names) : updateInCap names name isEmpty idx =
    if isEmpty then eraseAt names (names.idxOf name) else names := by
  have same : (fun n => decide (n = name)) = (fun n : UStr => n == name) := by
    funext n
    by_cases hn : n = name <;> simp [hn]
  have found : names.findIdx? (· = name) = some (names.idxOf name) := by
    rw [List.findIdx?_eq_some_iff_findIdx_eq, same]
    exact ⟨List.idxOf_lt_length_of_mem h, rfl⟩
  simp only [updateInCap, found]
  cases isEmpty <;> rfl

theorem updateInCap_of_not_mem (h : name ∉ names) : updateInCap names name isEmpty idx =
    if isEmpty then eraseAt names idx else names ++ [name] := by
  have missing : names.findIdx? (· = name) = none := by
    rw [List.findIdx?_eq_none_iff]
    intro n hn
    have : n ≠ name := fun same => h (same ▸ hn)
    simpa using this
  simp only [updateInCap, missing]
  cases isEmpty <;> rfl

theorem eraseAt_idxOf (fits : names.idxOf name < 0x100000000) :
    eraseAt names (names.idxOf name) = names.erase name := by
  rw [eraseAt, Nat.mod_eq_of_lt fits]
  exact (List.erase_eq_eraseIdx_of_idxOf rfl).symm

/-- Only the name itself comes or goes, unless the erased index is one of another name. -/
theorem updateInCap_follows (name : UStr) (isEmpty : Bool) (idx : Nat) (once : names.Nodup)
    (outside : isEmpty = true → name ∉ names → names.length ≤ idx % 0x100000000)
    (fits : isEmpty = true → name ∈ names → names.idxOf name < 0x100000000) :
    (updateInCap names name isEmpty idx).Nodup ∧
      ∀ n, n ∈ updateInCap names name isEmpty idx ↔
        if n = name then isEmpty = false else n ∈ names := by
  by_cases h : name ∈ names
  · rw [updateInCap_of_mem h]
    cases isEmpty
    · refine ⟨once, fun n => ?_⟩
      by_cases hn : n = name <;> simp [hn, h]
    · rw [if_pos rfl, eraseAt_idxOf (fits rfl h)]
      refine ⟨once.erase name, fun n => ?_⟩
      rw [once.mem_erase_iff]
      by_cases hn : n = name <;> simp [hn]
  · rw [updateInCap_of_not_mem h]
    cases isEmpty
    · refine ⟨?_, fun n => ?_⟩
      · rw [if_neg (by simp), List.nodup_append]
        refine ⟨once, by simp, fun a ha b hb same => ?_⟩
        exact h (List.mem_singleton.mp hb ▸ same ▸ ha)
      · by_cases hn : n = name <;> simp [hn]
    · rw [if_pos rfl, eraseAt, List.eraseIdx_of_length_le (outside rfl h)]
      refine ⟨once, fun n => ?_⟩
      by_cases hn : n = name <;> simp [hn, h]

/-- The removal of a name that is not there takes another one out. -/
theorem updateInCap_erases (h : name ∉ names) (inside : idx % 0x100000000 < names.length)
    (once : names.Nodup) :
    ∃ n ∈ names, n ∉ updateInCap names name true idx := by
  refine ⟨names[idx % 0x100000000], List.getElem_mem inside, ?_⟩
  rw [updateInCap_of_not_mem h, if_pos rfl, eraseAt, List.mem_eraseIdx_iff_getElem]
  rintro ⟨i, hi, other, same⟩
  exact other ((List.Nodup.getElem_inj_iff once).mp same)

/-- The removal of a name that is far behind leaves it there. -/
theorem mem_updateInCap_of_far (h : name ∈ names) (far : 0x100000000 ≤ names.idxOf name) :
    name ∈ updateInCap names name true idx := by
  have inside := List.idxOf_lt_length_of_mem h
  rw [updateInCap_of_mem h, if_pos rfl, eraseAt, List.mem_eraseIdx_iff_getElem]
  have cut : names.idxOf name % 0x100000000 < 0x100000000 := Nat.mod_lt _ (by omega)
  exact ⟨names.idxOf name, inside, by omega, List.getElem_idxOf inside⟩

end

/-! ## One request -/

section
variable {utf : Utf} {fplg fplg' : FilePlugin} {m : Bindings} {req : MonitorRequest}
  {chance : Chance}

theorem installConfigNode_inCapConfigs (hi : installConfigNode utf fplg chance req = some fplg') :
    fplg'.inCapConfigs =
      updateInCap (if req.act = .replaceAll then [] else fplg.inCapConfigs) req.cfg.name
        req.isEmpty chance.eraseIdx := by
  obtain ⟨-, saved, rfl⟩ := installConfigNode_cases hi
  rfl

theorem mem_installed (h : fplg.Implements m) {n : UStr} :
    n ∈ fplg.installed ↔ (m n).isSome := h.configs.mem_iff

/-- Only the name of the request comes or goes. -/
theorem installConfigNode_installed (h : fplg.Implements m)
    (hi : installConfigNode utf fplg chance req = some fplg') (n : UStr) :
    n ∈ fplg'.installed ↔
      if n = req.cfg.name then req.isEmpty = false else n ∈ fplg.installed := by
  rw [mem_installed (installConfigNode_implements h hi), mem_installed h]
  by_cases hn : n = req.cfg.name
  · cases he : req.isEmpty <;> simp [hn]
  · simp [hn]

/-- The names follow exactly when the request keeps them. -/
theorem installConfigNode_advertises (h : fplg.Implements m) (adv : fplg.Advertises)
    (hi : installConfigNode utf fplg chance req = some fplg') :
    fplg'.Advertises ↔ KeepsAdvertised fplg chance req := by
  have names := installConfigNode_inCapConfigs hi
  have tree := installConfigNode_installed h hi
  by_cases hact : req.act = .replaceAll
  · rw [if_pos hact] at names
    have follows := updateInCap_follows req.cfg.name req.isEmpty chance.eraseIdx
      List.nodup_nil (by simp) (by simp)
    rw [← names] at follows
    constructor
    · intro adv'
      refine ⟨fun _ n hn => ?_, fun other => absurd hact other, fun other => absurd hact other⟩
      by_contra hne
      have := (adv'.names n).mpr ((tree n).mpr (by rwa [if_neg hne]))
      simp [(follows.2 n), hne] at this
    · intro keeps
      refine ⟨follows.1, fun n => ?_⟩
      rw [follows.2, tree]
      by_cases hn : n = req.cfg.name
      · simp [hn]
      · have : n ∉ fplg.installed := fun hm => hn (keeps.dropsNone hact n hm)
        simp [hn, this]
  · rw [if_neg hact] at names
    constructor
    · intro adv'
      refine ⟨fun act => absurd act hact, fun _ unknown => ?_, fun _ empty there => ?_⟩
      · by_contra inside
        have absent : req.cfg.name ∉ fplg.inCapConfigs := by
          rw [adv.names]
          exact unknown.2
        obtain ⟨n, hn, gone⟩ := updateInCap_erases absent (not_le.mp inside) adv.once
        rw [unknown.1] at names
        have other : n ≠ req.cfg.name := by
          rintro rfl
          exact absent hn
        rw [← names, adv'.names, tree, if_neg other] at gone
        exact gone ((adv.names n).mp hn)
      · by_contra far
        have stays : req.cfg.name ∈ updateInCap _ _ true chance.eraseIdx :=
          mem_updateInCap_of_far there (not_lt.mp far)
        rw [empty] at names
        rw [← names, adv'.names, tree, if_pos rfl, empty] at stays
        cases stays
    · intro keeps
      have follows := updateInCap_follows req.cfg.name req.isEmpty chance.eraseIdx adv.once
        (fun he hn => keeps.outside hact ⟨he, by rwa [← adv.names]⟩) (keeps.fits hact)
      rw [← names] at follows
      refine ⟨follows.1, fun n => ?_⟩
      rw [follows.2, tree, adv.names]

/-- A removal of an unknown config that keeps the names changes none of them. -/
theorem removesUnknown_unchanged (adv : fplg.Advertises)
    (keeps : KeepsAdvertised fplg chance req) (unknown : RemovesUnknown fplg req)
    (hi : installConfigNode utf fplg chance req = some fplg') :
    fplg'.inCapConfigs = fplg.inCapConfigs := by
  have absent : req.cfg.name ∉ fplg.inCapConfigs := by
    rw [adv.names]
    exact unknown.2
  rw [installConfigNode_inCapConfigs hi, unknown.1]
  by_cases hact : req.act = .replaceAll
  · have none : fplg.inCapConfigs = [] := by
      rw [List.eq_nil_iff_forall_not_mem]
      intro n hn
      have := keeps.dropsNone hact n ((adv.names n).mp hn)
      exact absent (this ▸ hn)
    rw [if_pos hact, updateInCap_of_not_mem (by simp), none]
    rfl
  · rw [if_neg hact, updateInCap_of_not_mem absent, if_pos rfl]
    exact List.eraseIdx_of_length_le (keeps.outside hact unknown)

end

/-! ## From the start of the plugin -/

/-- A table that `load_configs` can read: the strings are there, the attribute types are known,
and what is logged is converted. -/
structure FbFileConfig.Readable (utf : Utf) (permitsInfo : Bool) (cfg : FbFileConfig) : Prop where
  name : cfg.name.isSome
  recipient : cfg.recipient.isSome
  types : ∀ fb ∈ cfg.attributeTypes.getD [], (fbToAttributeType fb).isSome
  logged : permitsInfo = true →
    ∀ u ∈ cfg.name.toList ++ (cfg.includes.getD [] ++ cfg.excludes.getD []),
      utf.Converts (utf.fromUtf8 u)

/-- The plugin starts on a file and handles parcels. -/
def startAndHandle (utf : Utf) (permitsInfo : Bool) (file : ConfigsFile)
    (reqs : List (Chance × Parcel)) : Option FilePlugin :=
  (pluginStart utf permitsInfo file).bind (handleAll utf · reqs)

/-- The advertised names are those of the installed configs in every state, and the removal of
a config that is not there changes none of them. -/
structure AlwaysAdvertised (utf : Utf) (permitsInfo : Bool) (file : ConfigsFile)
    (reqs : List (Chance × Parcel)) : Prop where
  states : ∀ pre post, reqs = pre ++ post →
    ∀ fplg ∈ startAndHandle utf permitsInfo file pre, fplg.Advertises
  removals : ∀ pre r post, reqs = pre ++ r :: post →
    ∀ fplg ∈ startAndHandle utf permitsInfo file pre, ∀ req ∈ readRequest utf r.2,
      RemovesUnknown fplg req → ∀ fplg' ∈ startAndHandle utf permitsInfo file (pre ++ [r]),
        fplg'.inCapConfigs = fplg.inCapConfigs

/-- The request after these ones keeps the advertised names, if the plugin gets through it. -/
def KeptAfter (utf : Utf) (permitsInfo : Bool) (file : ConfigsFile) (pre : List (Chance × Parcel))
    (r : Chance × Parcel) : Prop :=
  ∀ fplg ∈ startAndHandle utf permitsInfo file pre, ∀ req ∈ readRequest utf r.2,
    GetsThrough utf fplg req → KeepsAdvertised fplg r.1 req

/-- The plugin starts without saved configs (or dies when it reads them), and each request
that it gets through keeps the advertised names. -/
structure RequestsKeepAdvertised (utf : Utf) (permitsInfo : Bool) (file : ConfigsFile)
    (reqs : List (Chance × Parcel)) : Prop where
  start : file.cfgs = [] ∨ ∃ cfg ∈ file.cfgs, ¬ cfg.Readable utf permitsInfo
  requests : ∀ pre r post, reqs = pre ++ r :: post → KeptAfter utf permitsInfo file pre r

section
variable {utf : Utf} {permitsInfo : Bool} {file : ConfigsFile} {reqs : List (Chance × Parcel)}
  {r : Chance × Parcel}

theorem unpackConfig_isSome {cfg : FbFileConfig} : (unpackConfig utf cfg).isSome ↔
    cfg.name.isSome ∧ cfg.recipient.isSome ∧
      ∀ fb ∈ cfg.attributeTypes.getD [], (fbToAttributeType fb).isSome := by
  rw [← Fallible.mapM_isSome, unpackConfig]
  cases cfg.name with
  | none => simp
  | some name =>
    cases cfg.recipient with
    | none => simp
    | some recipient =>
      cases (cfg.attributeTypes.getD []).mapM fbToAttributeType <;> simp

theorem texts_unpackConfig {cfg : FbFileConfig} {cn : ConfigNode}
    (h : unpackConfig utf cfg = some cn) : (configSpec cn).texts =
      (cfg.name.toList ++ (cfg.includes.getD [] ++ cfg.excludes.getD [])).map utf.fromUtf8 := by
  simp only [unpackConfig, Option.bind_eq_bind, Option.bind_eq_some_iff, Option.some.injEq] at h
  obtain ⟨name, named, recipient, -, types, -, rfl⟩ := h
  simp [configSpec, EventSourceSpec.texts, named]

theorem pluginStart_isSome : (pluginStart utf permitsInfo file).isSome ↔
    ∀ cfg ∈ file.cfgs, cfg.Readable utf permitsInfo := by
  cases file with
  | configs cfgs =>
    rw [Option.isSome_iff_exists]
    simp only [pluginStart_configs]
    constructor
    · rintro ⟨_, nodes, read, logged, -⟩ cfg hc
      have each := Fallible.mapM_isSome.mp (Option.isSome_iff_exists.mpr ⟨nodes, read⟩) cfg hc
      obtain ⟨name, recipient, types⟩ := unpackConfig_isSome.mp each
      refine ⟨name, recipient, types, fun permits u hu => ?_⟩
      obtain ⟨cn, unpacked⟩ := Option.isSome_iff_exists.mp each
      have own : cn ∈ nodes := (Fallible.mem_mapM read cn).mpr ⟨cfg, hc, unpacked⟩
      apply specsToYaml_isSome.mp (logged permits) (configSpec cn) (List.mem_map_of_mem own)
      rw [texts_unpackConfig unpacked]
      exact List.mem_map_of_mem hu
    · intro all
      have each := Fallible.mapM_isSome.mpr fun cfg hc =>
        (@unpackConfig_isSome utf cfg).mpr
          ⟨(all cfg hc).name, (all cfg hc).recipient, (all cfg hc).types⟩
      obtain ⟨nodes, read⟩ := Option.isSome_iff_exists.mp each
      refine ⟨_, nodes, read, fun permits => ?_, rfl⟩
      rw [specsToYaml_isSome, List.forall_mem_map]
      intro cn hcn str hstr
      obtain ⟨cfg, hc, unpacked⟩ := (Fallible.mem_mapM read cn).mp hcn
      rw [texts_unpackConfig unpacked] at hstr
      obtain ⟨u, hu, rfl⟩ := List.mem_map.mp hstr
      exact (all cfg hc).logged permits u hu
  | _ => simp [pluginStart, loadConfigs, ConfigsFile.cfgs]

theorem pluginStart_none_saved {fplg : FilePlugin}
    (h : pluginStart utf permitsInfo file = some fplg) (none : file.cfgs = []) :
    fplg.inCapConfigs = [] ∧ fplg.Implements .empty := by
  cases file with
  | configs cfgs =>
    obtain ⟨nodes, read, -, rfl⟩ := pluginStart_configs.mp h
    have noCfgs : cfgs.getD [] = [] := none
    rw [noCfgs] at read
    cases read
    exact ⟨rfl, SortedList.Tree.holds_empty, SortedList.Tree.holds_empty⟩
  | _ =>
    cases h
    exact ⟨rfl, start_implements⟩

/-- A plugin that starts advertises nothing, whatever it loads. -/
theorem pluginStart_advertises {fplg : FilePlugin}
    (h : pluginStart utf permitsInfo file = some fplg) : fplg.Advertises ↔ file.cfgs = [] := by
  constructor
  · intro adv
    cases file with
    | configs cfgs =>
      obtain ⟨nodes, read, -, rfl⟩ := pluginStart_configs.mp h
      have noNodes : nodes = [] := by
        rw [List.eq_nil_iff_forall_not_mem]
        intro cn hcn
        have : cn.name ∈ ([] : List UStr) :=
          (adv.names cn.name).mpr
            (List.mem_map_of_mem (SortedList.Tree.mem_nodes_addAll.mpr (.inl hcn)))
        cases this
      subst noNodes
      show cfgs.getD [] = []
      cases hc : cfgs.getD [] with
      | nil => rfl
      | cons cfg rest =>
        rw [hc, List.mapM_cons] at read
        cases hu : unpackConfig utf cfg with
        | none => simp [hu] at read
        | some cn => cases hm : rest.mapM (unpackConfig utf) <;> simp [hu, hm] at read
    | _ => rfl
  · intro none
    obtain ⟨names, impl⟩ := pluginStart_none_saved h none
    refine ⟨by simp [names], fun n => ?_⟩
    rw [names, mem_installed impl]
    simp [Bindings.empty]

theorem startAndHandle_snoc : startAndHandle utf permitsInfo file (reqs ++ [r]) =
    (startAndHandle utf permitsInfo file reqs).bind fun fplg =>
      (monitorHandler utf fplg r.1 r.2).map Prod.fst := by
  simp only [startAndHandle, handleAll_snoc, Option.bind_assoc]

/-- Both trees hold the same configs all along. -/
theorem startAndHandle_implements (none : file.cfgs = [])
    (expected : ∀ r ∈ reqs, r.2.Expected) {fplg : FilePlugin}
    (h : startAndHandle utf permitsInfo file reqs = some fplg) : ∃ m, fplg.Implements m := by
  induction reqs using List.reverseRecOn generalizing fplg with
  | nil =>
    rw [startAndHandle, Option.bind_eq_some_iff] at h
    obtain ⟨started, hs, hh⟩ := h
    cases hh
    exact ⟨_, (pluginStart_none_saved hs none).2⟩
  | append_singleton reqs r ih =>
    rw [startAndHandle_snoc, Option.bind_eq_some_iff] at h
    obtain ⟨before, hb, hstep⟩ := h
    obtain ⟨m, impl⟩ := ih (fun q hq => expected q (by simp [hq])) hb
    rcases (monitorHandler_cases (expected r (by simp))).mp hstep with
      ⟨-, rfl⟩ | ⟨req, -, hi⟩
    · exact ⟨m, impl⟩
    · exact ⟨_, installConfigNode_implements impl hi⟩

/-- One more parcel, from a state whose names are right. -/
theorem handled_advertises {fplg : FilePlugin} {m : Bindings} (impl : fplg.Implements m)
    (adv : fplg.Advertises) (expected : r.2.Expected) :
    (∀ fplg' ∈ (monitorHandler utf fplg r.1 r.2).map Prod.fst, fplg'.Advertises) ↔
      ∀ req ∈ readRequest utf r.2, GetsThrough utf fplg req →
        KeepsAdvertised fplg r.1 req := by
  constructor
  · intro after req hr through
    obtain ⟨fplg', hi⟩ : ∃ fplg', installConfigNode utf fplg r.1 req = some fplg' :=
      installConfigNode_exists_iff.mpr through
    have handled := (monitorHandler_cases expected).mpr (.inr ⟨req, hr, hi⟩)
    exact (installConfigNode_advertises impl adv hi).mp (after fplg' handled)
  · intro keeps fplg' hstep
    rcases (monitorHandler_cases expected).mp hstep with ⟨-, rfl⟩ | ⟨req, hr, hi⟩
    · exact adv
    · have through := (installConfigNode_cases hi).1
      exact (installConfigNode_advertises impl adv hi).mpr (keeps req hr through)

theorem states_iff_requests (none : file.cfgs = []) (expected : ∀ r ∈ reqs, r.2.Expected) :
    Prefixes.Throughout
        (fun pre => ∀ fplg ∈ startAndHandle utf permitsInfo file pre, fplg.Advertises) reqs ↔
      Prefixes.AtEach (KeptAfter utf permitsInfo file) reqs := by
  apply Prefixes.throughout_iff_atEach
  · intro fplg hs
    rw [Option.mem_def, startAndHandle, Option.bind_eq_some_iff] at hs
    obtain ⟨started, hs, hh⟩ := hs
    cases hh
    exact (pluginStart_advertises hs).mpr none
  · intro pre r hp adv
    have known : ∀ q ∈ pre, q.2.Expected := fun q hq => expected q (hp.mem (by simp [hq]))
    have step : ∀ fplg ∈ startAndHandle utf permitsInfo file pre,
        (∀ fplg' ∈ (monitorHandler utf fplg r.1 r.2).map Prod.fst, fplg'.Advertises) ↔
          ∀ req ∈ readRequest utf r.2, GetsThrough utf fplg req →
            KeepsAdvertised fplg r.1 req := by
      intro fplg hs
      obtain ⟨m, impl⟩ := startAndHandle_implements none known hs
      exact handled_advertises impl (adv fplg hs) (expected r (hp.mem (by simp)))
    rw [startAndHandle_snoc, KeptAfter]
    constructor
    · intro after fplg hs
      exact (step fplg hs).mp fun fplg' h' =>
        after fplg' (Option.bind_eq_some_iff.mpr ⟨fplg, hs, h'⟩)
    · intro keeps fplg' h'
      obtain ⟨fplg, hs, h'⟩ := Option.bind_eq_some_iff.mp h'
      exact (step fplg hs).mpr (keeps fplg hs) fplg' h'

end

/-- The advertised names are those of the installed configs in every state exactly when the
plugin starts without saved configs, no request drops another config, and `erase_idx` lies
outside the names when the config of a removal is not there. -/
theorem always_advertised_iff (utf : Utf) (permitsInfo : Bool) (file : ConfigsFile)
    (reqs : List (Chance × Parcel)) (expected : ∀ r ∈ reqs, r.2.Expected) :
    AlwaysAdvertised utf permitsInfo file reqs ↔
      RequestsKeepAdvertised utf permitsInfo file reqs := by
  cases hs : pluginStart utf permitsInfo file with
  | none =>
    have nothing : ∀ pre, startAndHandle utf permitsInfo file pre = none := by
      simp [startAndHandle, hs]
    have unread : ∃ cfg ∈ file.cfgs, ¬ cfg.Readable utf permitsInfo := by
      by_contra none
      have all : ∀ cfg ∈ file.cfgs, cfg.Readable utf permitsInfo := by
        intro cfg hc
        by_contra hu
        exact none ⟨cfg, hc, hu⟩
      have := (@pluginStart_isSome utf permitsInfo file).mpr all
      simp [hs] at this
    constructor
    · intro _
      refine ⟨.inr unread, fun pre r post he fplg hf => ?_⟩
      simp [nothing] at hf
    · intro _
      constructor
      · intro pre post he fplg hf
        simp [nothing] at hf
      · intro pre r post he fplg hf
        simp [nothing] at hf
  | some started =>
    have readable : ∀ cfg ∈ file.cfgs, cfg.Readable utf permitsInfo :=
      (@pluginStart_isSome utf permitsInfo file).mp (by simp [hs])
    constructor
    · intro always
      have first : startAndHandle utf permitsInfo file [] = some started := by
        rw [startAndHandle, hs]
        rfl
      have adv := always.states [] reqs rfl started first
      have none := (pluginStart_advertises hs).mp adv
      exact ⟨.inl none, (states_iff_requests none expected).mp always.states⟩
    · intro keeps
      have none : file.cfgs = [] := by
        rcases keeps.start with none | ⟨cfg, hc, unread⟩
        · exact none
        · exact absurd (readable cfg hc) unread
      have states := (states_iff_requests none expected).mpr keeps.requests
      refine ⟨states, fun pre r post he fplg hf req hr unknown fplg' hf' => ?_⟩
      have adv := states pre (r :: post) he fplg hf
      rw [Option.mem_def, startAndHandle_snoc, hf, Option.bind_some] at hf'
      have ex : r.2.Expected := expected r (by simp [he])
      rcases (monitorHandler_cases ex).mp hf' with ⟨-, rfl⟩ | ⟨req', hr', hi⟩
      · rfl
      · obtain rfl : req = req' := Option.some.inj (hr.symm.trans hr')
        have through := (installConfigNode_cases hi).1
        exact removesUnknown_unchanged adv (keeps.requests pre r post he fplg hf req hr through)
          unknown hi

/-- A request to stop watching, in whatever state `erase_idx` is. -/
def removeRequest (name : List UInt8) (eraseIdx : Nat) : Chance × Parcel where
  fst := { eraseIdx, save := .written }
  snd := {
    sender := [115]
    type := monitorRequestType
    cmp := .none
    payload := { config := some { name := some name } } }

theorem advertised_removal_outside :
    (∀ r ∈ [watchRequest [97] .addOrReplace, removeRequest [98] 1], r.2.Expected) ∧
    AlwaysAdvertised asciiUtf true .missing
      [watchRequest [97] .addOrReplace, removeRequest [98] 1] := by
  have expected : ∀ r ∈ [watchRequest [97] .addOrReplace, removeRequest [98] 1],
      r.2.Expected := by
    intro r hr
    rcases List.mem_pair.mp hr with rfl | rfl <;> exact ⟨rfl, rfl⟩
  have first : KeptAfter asciiUtf true .missing [] (watchRequest [97] .addOrReplace) := by
    rintro fplg ⟨⟩ req ⟨⟩ -
    constructor
    · intro act
      cases act
    · intro _ unknown
      cases unknown.1
    · intro _ _ there
      cases there
  have second : KeptAfter asciiUtf true .missing [watchRequest [97] .addOrReplace]
      (removeRequest [98] 1) := by
    rintro fplg ⟨⟩ req ⟨⟩ -
    constructor
    · intro act
      cases act
    · intro _ _
      decide
    · intro _ _ there
      revert there
      decide
  have both : Prefixes.AtEach (KeptAfter asciiUtf true .missing)
      ([] ++ [watchRequest [97] .addOrReplace] ++ [removeRequest [98] 1]) :=
    Prefixes.atEach_snoc.mpr ⟨Prefixes.atEach_snoc.mpr ⟨Prefixes.atEach_nil, first⟩, second⟩
  exact ⟨expected, (always_advertised_iff asciiUtf true .missing _ expected).mpr ⟨.inl rfl, both⟩⟩

/-- The removal of `b`, which is not there, takes `a` out of the advertised names; and `a` is
not advertised after a restart. -/
theorem removal_unadvertises :
    ¬ AlwaysAdvertised asciiUtf true .missing
      [watchRequest [97] .addOrReplace, removeRequest [98] 0] ∧
    ∃ saved file, handleAll asciiUtf .start [watchRequest [97] .addOrReplace] = some saved ∧
      savedFile asciiUtf saved = some file ∧ ¬ AlwaysAdvertised asciiUtf true file [] := by
  constructor
  · intro h
    have adv := h.states _ [] (List.append_nil _).symm _ rfl
    have : ([97] : UStr) ∈ ([] : List UStr) := (adv.names [97]).mpr (by decide)
    cases this
  · refine ⟨_, _, rfl, rfl, fun h => ?_⟩
    have adv := h.states [] [] rfl _ rfl
    have : ([97] : UStr) ∈ ([] : List UStr) := (adv.names [97]).mpr (by decide)
    cases this

end Yella
