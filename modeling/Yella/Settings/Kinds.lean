import Yella.Lib.Fallible
import Yella.Lib.Prefixes
import Yella.Settings.Model

/-!
# The kinds of settings

The types of the settings against what their unions hold, over any calls of the setters.
-/

namespace Yella

/-- The type is text-like exactly if the union holds a string that is there, and integer-like
exactly if it holds an integer. -/
def Setting.Tagged (strings : Cells UStr) (set : Setting) : Prop :=
  (set.type.isText = true ↔ ∃ text val, set.value = .text text ∧ strings.get text = some val) ∧
    (set.type.isText = false ↔ ∃ uint, set.value = .uint uint)

/-- The string of a union that holds one. -/
def SettingValue.text? : SettingValue → Option Nat
  | .text str => some str
  | .uint _ => none

def SettingValue.isText (value : SettingValue) : Bool := value.text?.isSome

/-- The string that a setting holds. -/
def textAt (sections : Sections) (place : UStr × UStr) : Option Nat :=
  (findSetting sections place).bind fun set => set.value.text?

/-- Each type fits the union, each string is that of one setting, and the readers use only what
was stored. -/
structure Settings.Interpreted (st : Settings) : Prop where
  tagged : ∀ place set, findSetting st.sections place = some set → set.Tagged st.strings
  owned : st.strings.Owned (textAt st.sections)
  gets : ∀ sct key type, (getValue st sct key type).isSome
  logs : (logSettings st).isSome
  destroys : (destroySettings st).isSome

/-- No call frees an integer, and after each the settings can be interpreted. -/
def KeepsKinds (icu : ByteSizeIcu) (calls : List SettingsCall) : Prop :=
  Prefixes.Throughout (fun done => ∃ st,
    (settingsMachine icu).after .initial done = some st ∧ st.Interpreted) calls

namespace SettingsCall

def place : SettingsCall → UStr × UStr
  | .setText sct key _ | .setDir sct key _ | .setUint sct key _ | .setByteSize sct key _ =>
    (sct, key)

def type : SettingsCall → SettingValueType
  | .setText .. => .text
  | .setDir .. => .dir
  | .setUint .. => .uint
  | .setByteSize .. => .byteSize

/-- A byte size that is refused, or is zero, is not stored. -/
def stores (icu : ByteSizeIcu) : SettingsCall → Bool
  | .setByteSize _ _ val => byteSizeValue icu val > 0
  | _ => true

/-- Where both store for one key, they store values of one kind. -/
def OneKind (icu : ByteSizeIcu) (c d : SettingsCall) : Prop :=
  c.stores icu → d.stores icu → c.place = d.place → c.type.isText = d.type.isText

end SettingsCall

/-- No key is set both to a text and to a number. -/
def CallsAgree (icu : ByteSizeIcu) (calls : List SettingsCall) : Prop :=
  ∀ c ∈ calls, ∀ d ∈ calls, c.OneKind icu d

section
variable {icu : ByteSizeIcu} {calls : List SettingsCall} {c d : SettingsCall}

theorem SettingsCall.OneKind.symm (h : c.OneKind icu d) : d.OneKind icu c := by
  intro hd hc same
  exact (h hc hd same.symm).symm

theorem callsAgree_snoc : CallsAgree icu (calls ++ [d]) ↔
    CallsAgree icu calls ∧ ∀ c ∈ calls, c.OneKind icu d := by
  constructor
  · intro h
    constructor
    · intro c hc e he
      exact h c (List.mem_append_left _ hc) e (List.mem_append_left _ he)
    · intro c hc
      exact h c (List.mem_append_left _ hc) d (by simp)
  · rintro ⟨agree, last⟩ c hc e he
    rw [List.mem_append, List.mem_singleton] at hc he
    rcases hc with hc | rfl
    · rcases he with he | rfl
      · exact agree c hc e he
      · exact last c hc
    · rcases he with he | rfl
      · exact (last e he).symm
      · intro _ _ _
        rfl

end

/-! ## What a call does -/

section
variable {sections : Sections} {sct key : UStr} {place : UStr × UStr} {value : SettingValue}
  {type : SettingValueType}

theorem find_addSection_isSome : ((addSection sections sct).find sct).isSome := by
  rw [addSection, OrderedSet.find_insert, if_pos rfl]
  rfl

theorem findSetting_addSection : findSetting (addSection sections sct) place =
    findSetting sections place := by
  rw [findSetting, findSetting, addSection, OrderedSet.find_insert]
  split
  · cases sections.find place.1 <;> rfl
  · rfl

theorem find_store {found : Section} (key' : UStr) :
    (found.store key value type).settings.find key' =
      if key' = key then some ⟨key, value, (found.settings.find key).elim type Setting.type⟩
      else found.settings.find key' := by
  unfold Section.store
  cases there : found.settings.find key with
  | none =>
    show (found.settings.insert _).find key' = _
    rw [OrderedSet.find_insert]
    split
    · rename_i here
      subst here
      rw [there]
      rfl
    · rfl
  | some set =>
    show (found.settings.modify key _ _).find key' = _
    rw [OrderedSet.find_modify]
    split
    · rename_i here
      subst here
      have hkey : set.key = key' := (OrderedSet.find_eq_some.mp there).2
      rw [there, ← hkey]
      rfl
    · rfl

/-- Only the setting of that section and key is new, and its type stays that of the first. -/
theorem findSetting_store :
    findSetting (storeSetting (addSection sections sct) sct key value type) =
      Function.update (findSetting sections) (sct, key)
        (some ⟨key, value, (findSetting sections (sct, key)).elim type Setting.type⟩) := by
  obtain ⟨found, hfound⟩ := Option.isSome_iff_exists.mp
    (@find_addSection_isSome sections sct)
  have here (key' : UStr) : findSetting sections (sct, key') = found.settings.find key' := by
    rw [← @findSetting_addSection _ sct, findSetting, hfound, Option.bind_some]
  funext place
  obtain ⟨sct', key'⟩ := place
  rw [findSetting, storeSetting, OrderedSet.find_modify]
  by_cases hsct : sct' = sct
  · subst hsct
    rw [if_pos rfl, hfound, Option.map_some, Option.bind_some, find_store, here]
    by_cases hkey : key' = key
    · subst hkey
      rw [if_pos rfl, Function.update_self]
    · rw [if_neg hkey, Function.update_of_ne (by simp [hkey]), here]
  · rw [if_neg hsct, Function.update_of_ne (by simp [hsct]), ← @findSetting_addSection _ sct,
      findSetting]

theorem textAt_store (sections : Sections) (sct key : UStr) (value : SettingValue)
    (type : SettingValueType) :
    textAt (storeSetting (addSection sections sct) sct key value type) =
      Function.update (textAt sections) (sct, key) value.text? := by
  funext place
  rw [textAt, findSetting_store]
  by_cases here : place = (sct, key)
  · subst here
    rw [Function.update_self, Function.update_self, Option.bind_some]
  · rw [Function.update_of_ne here, Function.update_of_ne here, textAt]

end

/-- The setting of the place is new, or has a new value. -/
def Settings.Stored (st : Settings) (place : UStr × UStr) (value : SettingValue)
    (type : SettingValueType) (st' : Settings) : Prop :=
  findSetting st'.sections = Function.update (findSetting st.sections) place
      (some ⟨place.2, value, (findSetting st.sections place).elim type Setting.type⟩) ∧
    textAt st'.sections = Function.update (textAt st.sections) place value.text?

section
variable {icu : ByteSizeIcu} {st st' : Settings} {call : SettingsCall}

theorem stored_store (sct key : UStr) (value : SettingValue) (type : SettingValueType)
    (strings : Cells UStr) : st.Stored (sct, key) value type
      ⟨storeSetting (addSection st.sections sct) sct key value type, strings⟩ :=
  ⟨findSetting_store, textAt_store st.sections sct key value type⟩

/-- What a call that stores a text or a number does. -/
inductive SettingsCall.Does (st : Settings) (call : SettingsCall) (st' : Settings) : Prop where
  | text (strings : Cells UStr) (val : UStr) : call.type.isText = true →
      freeFound st.strings (findSetting st.sections call.place) = some strings →
      st'.strings = strings.alloc val →
      st.Stored call.place (.text strings.next) call.type st' → Does st call st'
  | uint (uint : UInt64) : call.type.isText = false → st'.strings = st.strings →
      st.Stored call.place (.uint uint) call.type st' → Does st call st'

theorem setTextImpl_cases {sct key val : UStr} {type : SettingValueType} :
    setTextImpl st sct key val type = some st' ↔
      ∃ strings, freeFound st.strings (findSetting st.sections (sct, key)) = some strings ∧
        ⟨storeSetting (addSection st.sections sct) sct key (.text strings.next) type,
          strings.alloc val⟩ = st' := by
  simp only [setTextImpl, findSetting_addSection, Option.bind_eq_bind, Option.bind_eq_some_iff,
    Option.some.injEq]

theorem run_of_not_stores (h : call.stores icu = false) : call.run icu st = some st := by
  cases call with
  | setByteSize sct key val =>
    have none : ¬ byteSizeValue icu val > 0 := by simpa [SettingsCall.stores] using h
    simp only [SettingsCall.run, if_neg none]
  | setText | setDir | setUint => cases h

theorem run_does (h : call.stores icu = true) (run : call.run icu st = some st') :
    call.Does st st' := by
  cases call with
  | setText sct key val =>
    obtain ⟨strings, freed, rfl⟩ := setTextImpl_cases.mp run
    exact .text strings val rfl freed rfl (stored_store ..)
  | setDir sct key val =>
    obtain ⟨strings, freed, rfl⟩ := setTextImpl_cases.mp run
    exact .text strings (dirValue val) rfl freed rfl (stored_store ..)
  | setUint sct key val =>
    cases run
    exact .uint val rfl rfl (stored_store ..)
  | setByteSize sct key val =>
    have some : byteSizeValue icu val > 0 := by simpa [SettingsCall.stores] using h
    simp only [SettingsCall.run, if_pos some] at run
    cases run
    exact .uint (byteSizeValue icu val).toUInt64 rfl rfl (stored_store ..)

/-- A call is only undefined where it frees what is no string. -/
theorem run_isSome (h : call.type.isText = true →
    (freeFound st.strings (findSetting st.sections call.place)).isSome) :
    ∃ st', call.run icu st = some st' := by
  cases call with
  | setText sct key val =>
    obtain ⟨strings, freed⟩ := Option.isSome_iff_exists.mp (h rfl)
    exact ⟨_, setTextImpl_cases.mpr ⟨strings, freed, rfl⟩⟩
  | setDir sct key val =>
    obtain ⟨strings, freed⟩ := Option.isSome_iff_exists.mp (h rfl)
    exact ⟨_, setTextImpl_cases.mpr ⟨strings, freed, rfl⟩⟩
  | setUint sct key val => exact ⟨_, rfl⟩
  | setByteSize sct key val =>
    unfold SettingsCall.run
    dsimp only
    split
    · exact ⟨_, rfl⟩
    · exact ⟨_, rfl⟩

/-- Freeing the text of a place leaves it without one. -/
theorem freeFound_owned {place : UStr × UStr} {strings : Cells UStr}
    (owned : st.strings.Owned (textAt st.sections))
    (freed : freeFound st.strings (findSetting st.sections place) = some strings) :
    strings.Owned (Function.update (textAt st.sections) place none) := by
  cases found : findSetting st.sections place with
  | none =>
    have nothing : textAt st.sections place = none := by rw [textAt, found, Option.bind_none]
    rw [found] at freed
    cases freed
    rwa [← nothing, Function.update_eq_self]
  | some set =>
    rw [found] at freed
    cases hv : set.value with
    | text str =>
      have here : textAt st.sections place = some str := by
        rw [textAt, found, Option.bind_some, hv, SettingValue.text?]
      obtain ⟨strings', freed', owned'⟩ := owned.free here
      have : strings' = strings := by
        rw [freeFound, hv, udsfree, freed'] at freed
        exact Option.some_inj.mp freed
      rwa [← this]
    | uint uint =>
      have nothing : textAt st.sections place = none := by
        rw [textAt, found, Option.bind_some, hv, SettingValue.text?]
      rw [freeFound, hv, udsfree] at freed
      split at freed
      · cases freed
        rwa [← nothing, Function.update_eq_self]
      · cases freed

end

/-! ## The readers -/

/-- Each type is of the kind of its value. -/
def KindsFit (sections : Sections) : Prop :=
  ∀ place set, findSetting sections place = some set → set.type.isText = set.value.isText

section
variable {st : Settings} {set : Setting} {place : UStr × UStr}

theorem textAt_of_found (found : findSetting st.sections place = some set) :
    textAt st.sections place = set.value.text? := by
  rw [textAt, found, Option.bind_some]

theorem tagged_of_kind (owned : st.strings.Owned (textAt st.sections))
    (found : findSetting st.sections place = some set)
    (kind : set.type.isText = set.value.isText) : set.Tagged st.strings := by
  have here := textAt_of_found found
  cases hv : set.value with
  | text str =>
    rw [hv] at kind here
    obtain ⟨val, hval⟩ := Option.isSome_iff_exists.mp (owned.live place str here)
    constructor
    · exact iff_of_true kind ⟨str, val, hv, hval⟩
    · apply iff_of_false
      · rw [kind]
        exact Bool.noConfusion
      · rintro ⟨uint, h⟩
        rw [hv] at h
        cases h
  | uint uint =>
    rw [hv] at kind
    constructor
    · apply iff_of_false
      · rw [kind]
        exact Bool.noConfusion
      · rintro ⟨str, val, h, -⟩
        rw [hv] at h
        cases h
    · exact iff_of_true kind ⟨uint, hv⟩

theorem kind_of_tagged (tagged : set.Tagged st.strings) : set.type.isText = set.value.isText := by
  cases hv : set.value with
  | text str =>
    have notUint : ¬ set.type.isText = false := by
      intro h
      obtain ⟨uint, h⟩ := tagged.2.mp h
      rw [hv] at h
      cases h
    exact Bool.eq_true_of_not_eq_false notUint
  | uint uint => exact tagged.2.mpr ⟨uint, hv⟩

theorem readValue_isSome (tagged : set.Tagged st.strings) :
    (readValue st.strings set.type.isText set.value).isSome := by
  cases kind : set.type.isText with
  | true =>
    obtain ⟨str, val, hv, hval⟩ := tagged.1.mp kind
    rw [hv, readValue, hval]
    rfl
  | false =>
    obtain ⟨uint, hv⟩ := tagged.2.mp kind
    rw [hv]
    rfl

theorem findSetting_of_mem {sct : Section} (hsct : sct ∈ st.sections) (hset : set ∈ sct.settings) :
    findSetting st.sections (sct.key, set.key) = some set := by
  have found : st.sections.find sct.key = some sct := OrderedSet.find_eq_some.mpr ⟨hsct, rfl⟩
  rw [findSetting, found, Option.bind_some]
  exact OrderedSet.find_eq_some.mpr ⟨hset, rfl⟩

/-- The places in the order of the two loops of `yella_destroy_settings`. -/
def settingPlaces (sections : Sections) : List (UStr × UStr) :=
  sections.elems.flatMap fun sct => sct.settings.elems.map fun set => (sct.key, set.key)

theorem settingPlaces_nodup (sections : Sections) : (settingPlaces sections).Nodup := by
  have keys {α : Type} {key : α → UStr} (s : OrderedSet key) : (s.elems.map key).Nodup := s.distinct
  rw [settingPlaces, List.nodup_flatMap]
  constructor
  · intro sct _
    have pairs : (sct.settings.elems.map fun set => (sct.key, set.key)) =
        (sct.settings.elems.map Setting.key).map (Prod.mk sct.key) := by
      rw [List.map_map]
      rfl
    rw [pairs]
    exact (keys sct.settings).map (Prod.mk_right_injective sct.key)
  · apply (List.pairwise_map.mp (keys sections)).imp
    intro a b other place ha hb
    obtain ⟨_, -, rfl⟩ := List.mem_map.mp ha
    obtain ⟨_, -, same⟩ := List.mem_map.mp hb
    exact other (Prod.mk.inj same).1.symm

theorem textAt_of_not_mem_settingPlaces (absent : place ∉ settingPlaces st.sections) :
    textAt st.sections place = none := by
  have : findSetting st.sections place = none := by
    by_contra there
    obtain ⟨set, found⟩ := Option.ne_none_iff_exists'.mp there
    obtain ⟨sct, hsct, hset⟩ := Option.bind_eq_some_iff.mp found
    obtain ⟨hsct, keySct⟩ := OrderedSet.find_eq_some.mp hsct
    obtain ⟨hset, keySet⟩ := OrderedSet.find_eq_some.mp hset
    apply absent
    exact List.mem_flatMap.mpr ⟨sct, hsct, List.mem_map.mpr ⟨set, hset, Prod.ext keySct keySet⟩⟩
  rw [textAt, this, Option.bind_none]

/-- Of a setting whose type fits, exactly the string that it holds is freed. -/
theorem destroySetting_eq (kind : set.type.isText = set.value.isText)
    (found : findSetting st.sections place = some set) (strings : Cells UStr) :
    destroySetting strings set = Cells.release (textAt st.sections) strings place := by
  rw [Cells.release, textAt_of_found found, destroySetting, kind]
  cases set.value <;> rfl

theorem destroySettings_eq (kinds : KindsFit st.sections) :
    destroySettings st =
      (settingPlaces st.sections).foldlM (Cells.release (textAt st.sections)) st.strings := by
  rw [settingPlaces, Fallible.foldlM_flatMap, destroySettings]
  apply Fallible.foldlM_congr
  intro sct hsct strings
  rw [List.foldlM_map]
  apply Fallible.foldlM_congr
  intro set hset strings
  have found := findSetting_of_mem hsct hset
  exact destroySetting_eq (kinds _ _ found) found strings

/-- Each string is freed once. -/
theorem destroySettings_frees (owned : st.strings.Owned (textAt st.sections))
    (kinds : KindsFit st.sections) :
    ∃ strings, destroySettings st = some strings ∧ ∀ str, strings.get str = none := by
  rw [destroySettings_eq kinds]
  apply owned.releaseAll (settingPlaces_nodup st.sections)
  intro place absent
  exact textAt_of_not_mem_settingPlaces absent

theorem interpreted_of_kinds (owned : st.strings.Owned (textAt st.sections))
    (kinds : KindsFit st.sections) : st.Interpreted where
  tagged place set found := tagged_of_kind owned found (kinds place set found)
  owned := owned
  gets sct key type := by
    unfold getValue
    cases found : findSetting st.sections (sct, key) with
    | none => rfl
    | some set =>
      dsimp only
      split
      · rfl
      · rename_i same
        rw [not_not] at same
        rw [← same, Option.isSome_map]
        exact readValue_isSome (tagged_of_kind owned found (kinds _ set found))
  logs := by
    rw [logSettings, Fallible.mapM_isSome]
    intro sct hsct
    rw [Option.isSome_map, Fallible.mapM_isSome]
    intro set hset
    have found := findSetting_of_mem hsct hset
    rw [Option.isSome_map]
    exact readValue_isSome (tagged_of_kind owned found (kinds _ set found))
  destroys := by
    obtain ⟨strings, destroyed, -⟩ := destroySettings_frees owned kinds
    rw [destroyed]
    rfl

end

/-! ## Calls one after the other -/

/-- The settings after these calls: each is of the kind of a call that stored it. -/
structure SettingsFollow (icu : ByteSizeIcu) (done : List SettingsCall) (st : Settings) : Prop where
  owned : st.strings.Owned (textAt st.sections)
  kinds : KindsFit st.sections
  kept : ∀ c ∈ done, c.stores icu → ∃ set, findSetting st.sections c.place = some set ∧
    set.type.isText = c.type.isText
  called : ∀ place set, findSetting st.sections place = some set → ∃ c ∈ done, c.stores icu ∧
    c.place = place ∧ set.type.isText = c.type.isText

section
variable {icu : ByteSizeIcu} {done calls : List SettingsCall} {st st' : Settings}
  {call : SettingsCall}

theorem settingsFollow_initial : SettingsFollow icu [] .initial where
  owned := Cells.owned_empty
  kinds _ _ found := by cases found
  kept _ h := by cases h
  called _ _ found := by cases found

theorem SettingsFollow.interpreted (f : SettingsFollow icu done st) : st.Interpreted :=
  interpreted_of_kinds f.owned f.kinds

/-- A setting that is there is of the kind that the next call stores. -/
theorem SettingsFollow.kind_of_found (f : SettingsFollow icu done st)
    (one : ∀ c ∈ done, c.OneKind icu call)
    (stores : call.stores icu = true) {set : Setting}
    (found : findSetting st.sections call.place = some set) :
    set.type.isText = call.type.isText := by
  obtain ⟨c, hc, hstores, same, kind⟩ := f.called call.place set found
  exact kind.trans (one c hc hstores stores same)

theorem SettingsFollow.stored_kind (f : SettingsFollow icu done st)
    (one : ∀ c ∈ done, c.OneKind icu call)
    (stores : call.stores icu = true) :
    ((findSetting st.sections call.place).elim call.type Setting.type).isText =
      call.type.isText := by
  cases found : findSetting st.sections call.place with
  | none => rfl
  | some set => exact f.kind_of_found one stores found

theorem SettingsCall.Does.stored (does : call.Does st st') : ∃ value : SettingValue,
    value.isText = call.type.isText ∧ st.Stored call.place value call.type st' := by
  cases does with
  | text strings val kind freed alloc stored => exact ⟨.text strings.next, kind.symm, stored⟩
  | uint uint kind same stored => exact ⟨.uint uint, kind.symm, stored⟩

theorem SettingsFollow.owned_step (f : SettingsFollow icu done st)
    (one : ∀ c ∈ done, c.OneKind icu call)
    (stores : call.stores icu = true) (does : call.Does st st') :
    st'.strings.Owned (textAt st'.sections) := by
  cases does with
  | text strings val kind freed alloc stored =>
    have owned := (freeFound_owned f.owned freed).alloc (Function.update_self ..) val
    rw [Function.update_idem] at owned
    rw [alloc, stored.2]
    exact owned
  | uint uint kind same stored =>
    -- a number only takes the place of a number
    have nothing : textAt st.sections call.place = none := by
      cases found : findSetting st.sections call.place with
      | none => rw [textAt, found, Option.bind_none]
      | some set =>
        have value : set.value.isText = false := by
          rw [← f.kinds _ set found, f.kind_of_found one stores found, kind]
        rw [textAt_of_found found]
        exact Option.isSome_eq_false_iff.mp value |> Option.isNone_iff_eq_none.mp
    rw [same, stored.2, SettingValue.text?, ← nothing, Function.update_eq_self]
    exact f.owned

/-- What one call preserves that agrees with those before it. -/
theorem SettingsFollow.step (f : SettingsFollow icu done st) (one : ∀ c ∈ done, c.OneKind icu call)
    (stores : call.stores icu = true) (does : call.Does st st') :
    SettingsFollow icu (done ++ [call]) st' := by
  obtain ⟨value, kind, stored, -⟩ := does.stored
  have newKind := f.stored_kind one stores
  have found_iff (place : UStr × UStr) (other : place ≠ call.place) :
      findSetting st'.sections place = findSetting st.sections place := by
    rw [stored, Function.update_of_ne other]
  refine ⟨f.owned_step one stores does, ?_, ?_, ?_⟩
  · intro place set found
    by_cases here : place = call.place
    · subst here
      rw [stored, Function.update_self] at found
      cases found
      exact newKind.trans kind.symm
    · rw [found_iff place here] at found
      exact f.kinds place set found
  · intro c hc hstores
    by_cases here : c.place = call.place
    · rw [here, stored, Function.update_self]
      refine ⟨_, rfl, newKind.trans ?_⟩
      rcases List.mem_append.mp hc with hc | hc
      · exact (one c hc hstores stores here).symm
      · rw [List.mem_singleton.mp hc]
    · rw [found_iff c.place here]
      rcases List.mem_append.mp hc with hc | hc
      · exact f.kept c hc hstores
      · rw [List.mem_singleton.mp hc] at here
        exact absurd rfl here
  · intro place set found
    by_cases here : place = call.place
    · subst here
      rw [stored, Function.update_self] at found
      cases found
      exact ⟨call, by simp, stores, rfl, newKind⟩
    · rw [found_iff place here] at found
      obtain ⟨c, hc, rest⟩ := f.called place set found
      exact ⟨c, List.mem_append_left _ hc, rest⟩

theorem SettingsFollow.skip (f : SettingsFollow icu done st) (skipped : call.stores icu = false) :
    SettingsFollow icu (done ++ [call]) st where
  owned := f.owned
  kinds := f.kinds
  kept c hc hstores := by
    rcases List.mem_append.mp hc with hc | hc
    · exact f.kept c hc hstores
    · rw [List.mem_singleton.mp hc, skipped] at hstores
      cases hstores
  called place set found := by
    obtain ⟨c, hc, rest⟩ := f.called place set found
    exact ⟨c, List.mem_append_left _ hc, rest⟩

/-- A call that agrees with those before it goes through. -/
theorem SettingsFollow.runs (f : SettingsFollow icu done st)
    (one : ∀ c ∈ done, c.OneKind icu call) :
    ∃ st', call.run icu st = some st' ∧ SettingsFollow icu (done ++ [call]) st' := by
  cases stores : call.stores icu with
  | false => exact ⟨st, run_of_not_stores stores, f.skip stores⟩
  | true =>
    have run : ∃ st', call.run icu st = some st' := by
      apply run_isSome
      intro text
      cases found : findSetting st.sections call.place with
      | none => rfl
      | some set =>
        have tagged := tagged_of_kind f.owned found (f.kinds _ set found)
        have kind := (f.kind_of_found one stores found).trans text
        obtain ⟨str, val, hv, live⟩ := tagged.1.mp kind
        rw [freeFound, hv, udsfree, Cells.free_isSome, live]
        rfl
    obtain ⟨st', run⟩ := run
    exact ⟨st', run, f.step one stores (run_does stores run)⟩

/-- Where the types still fit after a call, it agreed with those before it. -/
theorem SettingsFollow.agrees (f : SettingsFollow icu done st) (run : call.run icu st = some st')
    (after : st'.Interpreted) : ∀ c ∈ done, c.OneKind icu call := by
  intro c hc hstores stores here
  obtain ⟨set, found, kind⟩ := f.kept c hc hstores
  obtain ⟨value, valueKind, stored, -⟩ := (run_does stores run).stored
  rw [← here, found] at stored
  have there : findSetting st'.sections c.place = some ⟨c.place.2, value, set.type⟩ := by
    rw [stored, Function.update_self]
    rfl
  have tag := kind_of_tagged (after.tagged _ _ there)
  rw [← kind, ← valueKind]
  exact tag

theorem settingsFollow_of_callsAgree (agree : CallsAgree icu calls) :
    ∃ st, (settingsMachine icu).after .initial calls = some st ∧ SettingsFollow icu calls st := by
  induction calls using List.reverseRecOn with
  | nil => exact ⟨.initial, rfl, settingsFollow_initial⟩
  | append_singleton calls call ih =>
    obtain ⟨agree, one⟩ := callsAgree_snoc.mp agree
    obtain ⟨st, after, f⟩ := ih agree
    obtain ⟨st', run, f'⟩ := f.runs one
    refine ⟨st', ?_, f'⟩
    rw [Machine.after_snoc, after]
    exact run

theorem keepsKinds_of_callsAgree (agree : CallsAgree icu calls) : KeepsKinds icu calls := by
  rintro done rest rfl
  have before : CallsAgree icu done := by
    intro c hc d hd
    exact agree c (List.mem_append_left _ hc) d (List.mem_append_left _ hd)
  obtain ⟨st, after, f⟩ := settingsFollow_of_callsAgree before
  exact ⟨st, after, f.interpreted⟩

/-- No setting is confused exactly if no key is set both to a text and to a number. -/
theorem keepsKinds_iff_callsAgree : KeepsKinds icu calls ↔ CallsAgree icu calls := by
  constructor
  · intro keeps
    induction calls using List.reverseRecOn with
    | nil =>
      intro c hc
      cases hc
    | append_singleton calls call ih =>
      obtain ⟨before, st', after, interpreted⟩ := Prefixes.throughout_snoc.mp keeps
      have agree := ih before
      obtain ⟨st, reached, f⟩ := settingsFollow_of_callsAgree agree
      rw [Machine.after_snoc, reached, Option.bind_some] at after
      exact callsAgree_snoc.mpr ⟨agree, f.agrees after interpreted⟩
  · exact keepsKinds_of_callsAgree

/-- A text and then a number for one key: the string is lost, and the number is read as one. -/
theorem text_then_uint_confused :
    ¬ KeepsKinds ⟨fun _ => false, fun _ => (0, 0, []), fun _ => none⟩
      [.setText [97] [98] [99], .setUint [97] [98] 5] := by
  intro keeps
  obtain ⟨st, after, interpreted⟩ := keeps _ [] (List.append_nil _).symm
  have unread (icu : ByteSizeIcu) : ((settingsMachine icu).after .initial
      [.setText [97] [98] [99], .setUint [97] [98] 5]).bind logSettings = none := rfl
  replace unread := unread ⟨fun _ => false, fun _ => (0, 0, []), fun _ => none⟩
  rw [after, Option.bind_some] at unread
  have logs := interpreted.logs
  rw [unread] at logs
  cases logs

/-! ## Settings of a file -/

section
variable {utf : Utf} {strtoull : List UInt8 → UInt64} {sct : UStr} {desc : SettingDesc}
  {scalar : List UInt8}

@[simp] theorem scalarCall_place :
    (scalarCall utf strtoull sct desc scalar).place = (sct, desc.key) := by
  unfold scalarCall
  split <;> rfl

@[simp] theorem scalarCall_type : (scalarCall utf strtoull sct desc scalar).type = desc.type := by
  unfold scalarCall
  split <;> rename_i type <;> exact type.symm

end

/-- Defaults, and then what a file gives for described keys, whatever it is: no setting is
confused where the defaults and the descriptions have one kind for each key. -/
theorem defaults_then_file_keepsKinds (utf : Utf) (strtoull : List UInt8 → UInt64) (sct : UStr)
    {isText : UStr × UStr → Bool} {defaults : List SettingsCall} {descs : List SettingDesc}
    (hdefaults : ∀ c ∈ defaults, c.type.isText = isText c.place)
    (hdescs : ∀ desc ∈ descs, desc.type.isText = isText (sct, desc.key))
    (scalars : List (SettingDesc × List UInt8)) (described : ∀ s ∈ scalars, s.1 ∈ descs) :
    KeepsKinds icu
      (defaults ++ scalars.map fun s => scalarCall utf strtoull sct s.1 s.2) := by
  apply keepsKinds_of_callsAgree
  have kind : ∀ c ∈ defaults ++ scalars.map (fun s => scalarCall utf strtoull sct s.1 s.2),
      c.type.isText = isText c.place := by
    intro c hc
    rcases List.mem_append.mp hc with hc | hc
    · exact hdefaults c hc
    · obtain ⟨s, hs, rfl⟩ := List.mem_map.mp hc
      rw [scalarCall_type, scalarCall_place]
      exact hdescs s.1 (described s hs)
  intro c hc d hd _ _ same
  rw [kind c hc, kind d hd, same]

end

end Yella
