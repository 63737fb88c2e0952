import Yella.Settings.Kinds

/-!
# Settings as a map

What the setters are for: a map from a section and a key to a type and a value. The value is that
of the last call that stores one, and the type that of the first.
-/

namespace Yella

abbrev SettingsMap := UStr × UStr → Option (SettingValueType × (UStr ⊕ UInt64))

/-- The value that a call stores. -/
def SettingsCall.value (icu : ByteSizeIcu) : SettingsCall → UStr ⊕ UInt64
  | .setText _ _ val => .inl val
  | .setDir _ _ val => .inl (dirValue val)
  | .setUint _ _ val => .inr val
  | .setByteSize _ _ val => .inr (byteSizeValue icu val).toUInt64

def SettingsMap.put (map : SettingsMap) (place : UStr × UStr) (type : SettingValueType)
    (value : UStr ⊕ UInt64) : SettingsMap :=
  Function.update map place (some ((map place).elim type Prod.fst, value))

def SettingsMap.call (icu : ByteSizeIcu) (map : SettingsMap) (call : SettingsCall) : SettingsMap :=
  if call.stores icu then map.put call.place call.type (call.value icu) else map

/-- The settings as they read. -/
def Settings.view (st : Settings) : SettingsMap := fun place =>
  (findSetting st.sections place).bind fun set =>
    (readValue st.strings set.value.isText set.value).map (set.type, ·)

section
variable {icu : ByteSizeIcu} {done calls : List SettingsCall} {st st' : Settings}
  {call : SettingsCall} {strings strings' : Cells UStr} {place : UStr × UStr} {set : Setting}

theorem readValue_uint (strings : Cells UStr) (uint : UInt64) :
    readValue strings (SettingValue.uint uint).isText (.uint uint) = some (.inr uint) := rfl

theorem readValue_text (strings : Cells UStr) (str : Nat) :
    readValue strings (SettingValue.text str).isText (.text str) =
      (strings.get str).map Sum.inl := rfl

/-- The other strings are where they were. -/
theorem freeFound_get (freed : freeFound strings (findSetting st.sections place) = some strings')
    {str : Nat} (other : textAt st.sections place ≠ some str) :
    strings'.get str = strings.get str := by
  cases found : findSetting st.sections place with
  | none =>
    rw [found] at freed
    cases freed
    rfl
  | some set =>
    rw [textAt_of_found found] at other
    rw [found, freeFound] at freed
    cases hv : set.value with
    | text str' =>
      rw [hv] at freed other
      rw [Cells.get_free freed, if_neg]
      rintro rfl
      exact other rfl
    | uint uint =>
      rw [hv, udsfree] at freed
      split at freed
      · cases freed
        rfl
      · cases freed

/-- The new value is read, and every other as before. -/
theorem view_stored {value : SettingValue} {read : UStr ⊕ UInt64} {type : SettingValueType}
    (stored : st.Stored place value type st')
    (new : readValue st'.strings value.isText value = some read)
    (kept : ∀ other str, other ≠ place → textAt st.sections other = some str →
      st'.strings.get str = st.strings.get str)
    (before : ∀ set, findSetting st.sections place = some set →
      (readValue st.strings set.value.isText set.value).isSome) :
    st'.view = st.view.put place type read := by
  funext other
  unfold SettingsMap.put
  by_cases here : other = place
  · subst here
    rw [Function.update_self, Settings.view, stored.1, Function.update_self, Option.bind_some,
      new, Settings.view]
    cases found : findSetting st.sections other with
    | none => rfl
    | some set =>
      obtain ⟨old, hold⟩ := Option.isSome_iff_exists.mp (before set found)
      rw [Option.bind_some, hold]
      rfl
  · rw [Function.update_of_ne here, Settings.view, stored.1, Function.update_of_ne here,
      Settings.view]
    cases found : findSetting st.sections other with
    | none => rfl
    | some set =>
      have same : readValue st'.strings set.value.isText set.value =
          readValue st.strings set.value.isText set.value := by
        cases hv : set.value with
        | text str =>
          have there : textAt st.sections other = some str := by
            rw [textAt_of_found found, hv]
            rfl
          rw [readValue_text, readValue_text, kept other str here there]
        | uint uint => rfl
      rw [Option.bind_some, Option.bind_some, same]

theorem SettingsFollow.read_isSome (f : SettingsFollow icu done st)
    (found : findSetting st.sections place = some set) :
    (readValue st.strings set.value.isText set.value).isSome := by
  have kind := f.kinds place set found
  rw [← kind]
  exact readValue_isSome (tagged_of_kind f.owned found kind)

theorem view_setTextImpl {sct key val : UStr} {type : SettingValueType}
    (f : SettingsFollow icu done st) (run : setTextImpl st sct key val type = some st') :
    st'.view = st.view.put (sct, key) type (.inl val) := by
  obtain ⟨strings, freed, rfl⟩ := setTextImpl_cases.mp run
  apply view_stored (stored_store ..)
  · rw [readValue_text, Cells.get_alloc, if_pos rfl]
    rfl
  · intro other str there text
    have live := f.owned.live other str text
    have apart : textAt st.sections (sct, key) ≠ some str := by
      intro here
      exact there (f.owned.unique other (sct, key) str text here)
    have same := freeFound_get freed apart
    have old : str ≠ strings.next := by
      rintro rfl
      rw [← same, Cells.get_next] at live
      cases live
    rw [Cells.get_alloc, if_neg old, same]
  · intro set found
    exact f.read_isSome found

theorem view_setUintImpl (f : SettingsFollow icu done st) (sct key : UStr) (val : UInt64)
    (type : SettingValueType) : (setUintImpl st sct key val type).view =
      st.view.put (sct, key) type (.inr val) := by
  apply view_stored (stored_store ..)
  · exact readValue_uint st.strings val
  · intro other str _ _
    rfl
  · intro set found
    exact f.read_isSome found

/-- The setters refine the map. -/
theorem SettingsFollow.view_run (f : SettingsFollow icu done st)
    (run : call.run icu st = some st') : st'.view = st.view.call icu call := by
  unfold SettingsMap.call
  cases call with
  | setText sct key val => exact view_setTextImpl f run
  | setDir sct key val => exact view_setTextImpl f run
  | setUint sct key val =>
    cases run
    exact view_setUintImpl f sct key val .uint
  | setByteSize sct key val =>
    by_cases some : byteSizeValue icu val > 0
    · have stores : SettingsCall.stores icu (.setByteSize sct key val) = true := by
        simpa [SettingsCall.stores] using some
      simp only [SettingsCall.run, if_pos some] at run
      cases run
      rw [if_pos stores]
      exact view_setUintImpl f sct key _ .byteSize
    · have skipped : ¬ SettingsCall.stores icu (.setByteSize sct key val) = true := by
        simpa [SettingsCall.stores] using some
      simp only [SettingsCall.run, if_neg some] at run
      cases run
      rw [if_neg skipped]

/-- A getter gives the value of the map where the type is that which is asked for. -/
theorem SettingsFollow.getValue_eq (f : SettingsFollow icu done st) (sct key : UStr)
    (type : SettingValueType) : getValue st sct key type =
      some ((st.view (sct, key)).bind fun shown =>
        if shown.1 = type then some shown.2 else none) := by
  rw [getValue, Settings.view]
  cases found : findSetting st.sections (sct, key) with
  | none => rfl
  | some set =>
    have kind := f.kinds _ set found
    obtain ⟨value, hvalue⟩ := Option.isSome_iff_exists.mp (f.read_isSome found)
    rw [Option.bind_some, hvalue, Option.map_some, Option.bind_some]
    dsimp only
    by_cases same : set.type = type
    · rw [if_neg (not_not.mpr same), if_pos same, ← same, kind, hvalue]
      rfl
    · rw [if_pos same, if_neg same]

/-- Further calls that agree with those before them. -/
theorem SettingsFollow.after (f : SettingsFollow icu done st)
    (agree : CallsAgree icu (done ++ calls)) :
    ∃ st', (settingsMachine icu).after st calls = some st' ∧
      SettingsFollow icu (done ++ calls) st' ∧
        st'.view = calls.foldl (SettingsMap.call icu) st.view := by
  induction calls generalizing done st with
  | nil => exact ⟨st, rfl, by rwa [List.append_nil], rfl⟩
  | cons call calls ih =>
    have split : done ++ call :: calls = done ++ [call] ++ calls := by
      rw [List.append_assoc, List.singleton_append]
    rw [split] at agree
    have one : ∀ c ∈ done, c.OneKind icu call := by
      intro c hc
      exact agree c (by simp [hc]) call (by simp)
    obtain ⟨next, run, f'⟩ := f.runs one
    obtain ⟨st', after, f'', view⟩ := ih f' agree
    refine ⟨st', ?_, split ▸ f'', ?_⟩
    · rw [Machine.after, show (settingsMachine icu).next st call = some next from run]
      exact after
    · rw [view, f.view_run run, List.foldl_cons]

end

/-! ## The last value -/

/-- The values that calls store at a place, in their order. -/
def storedValues (icu : ByteSizeIcu) (place : UStr × UStr) (calls : List SettingsCall) :
    List (UStr ⊕ UInt64) :=
  (calls.filter fun c => c.stores icu ∧ c.place = place).map (SettingsCall.value icu)

section
variable {icu : ByteSizeIcu} {calls : List SettingsCall} {place : UStr × UStr}
  {type : SettingValueType}

theorem storedValues_append (calls more : List SettingsCall) :
    storedValues icu place (calls ++ more) =
      storedValues icu place calls ++ storedValues icu place more := by
  rw [storedValues, List.filter_append, List.map_append]
  rfl

theorem storedValues_eq_nil (none : ∀ c ∈ calls, c.place ≠ place) :
    storedValues icu place calls = [] := by
  rw [storedValues, List.filter_eq_nil_iff.mpr]
  · rfl
  · intro c hc
    simp [none c hc]

/-- Calls of one type at a place leave the last value there. -/
theorem foldl_call_eq (map : SettingsMap)
    (typed : ∀ c ∈ calls, c.place = place → c.type = type) :
    calls.foldl (SettingsMap.call icu) map place =
      ((storedValues icu place calls).getLast?.map
        fun value => ((map place).elim type Prod.fst, value)).or (map place) := by
  induction calls using List.reverseRecOn with
  | nil => rfl
  | append_singleton calls c ih =>
    replace ih := ih fun d hd => typed d (List.mem_append_left _ hd)
    rw [List.foldl_append, List.foldl_cons, List.foldl_nil, storedValues_append,
      SettingsMap.call]
    by_cases stores : c.stores icu = true
    · rw [if_pos stores]
      by_cases here : c.place = place
      · have kind := typed c (by simp) here
        have last : storedValues icu place [c] = [c.value icu] := by
          simp [storedValues, stores, here]
        rw [SettingsMap.put, here, Function.update_self, ih, kind, last,
          List.getLast?_append_of_ne_nil _ (List.cons_ne_nil _ _)]
        cases (storedValues icu place calls).getLast? <;> rfl
      · have nothing : storedValues icu place [c] = [] := by
          simp [storedValues, here]
        rw [SettingsMap.put, Function.update_of_ne (Ne.symm here), nothing, List.append_nil, ih]
    · have nothing : storedValues icu place [c] = [] := by
        simp [storedValues, stores]
      rw [if_neg stores, nothing, List.append_nil, ih]

end

end Yella
