import Yella.Settings.View
import Yella.Settings.Yaml

/-!
# Settings that a section describes

Reading a document stores what its keys are described as, and only in the section.
-/

namespace Yella

namespace YamlReader

variable (reader : YamlReader) (doc : YamlDocument)

def keyText (node : Fin doc.size) : Option UStr :=
  match doc.node node with
  | .scalar value => some (reader.utf.fromUtf8 value)
  | _ => none

/-- Settings that the document leaves. -/
def Retrieves (icu : ByteSizeIcu) (st st' : Settings) : Prop :=
  ∃ depth calls, reader.retrieve doc depth = some calls ∧
    (settingsMachine icu).after st calls = some st'

/-- No described key has been set to a value of the other kind. -/
def Fits (icu : ByteSizeIcu) (before : List SettingsCall) : Prop :=
  ∀ c ∈ before, c.stores icu → c.place.1 = reader.sct →
    ∀ desc, reader.descs.find? (·.key = c.place.2) = some desc → c.type.isText = desc.type.isText

/-- Settings after any calls of that kind. -/
def Starts (icu : ByteSizeIcu) (st : Settings) : Prop :=
  ∃ before, CallsAgree icu before ∧ reader.Fits icu before ∧
    (settingsMachine icu).after .initial before = some st

section
variable {reader doc} {depth : Nat} {found : List SettingsCall}

theorem retrieve_mono {more : Nat} (le : depth ≤ more)
    (h : reader.retrieve doc depth = some found) : reader.retrieve doc more = some found := by
  unfold retrieve at h ⊢
  cases root : doc.root with
  | none =>
    rw [root] at h
    exact h
  | some root' =>
    rw [root] at h
    exact walk_mono le h

/-- What a pair is read for. -/
theorem pairCall_cases (reader : YamlReader) (doc : YamlDocument)
    (pr : Fin doc.size × Fin doc.size) :
    (reader.keyText doc pr.1 = some reader.sct ∧ reader.pairCall doc pr = some (pr.2, none)) ∨
      reader.keyText doc pr.1 ≠ some reader.sct ∧ (reader.pairCall doc pr = none ∨
        ∃ desc value, reader.pairCall doc pr = some (pr.2, some desc) ∧
          doc.node pr.2 = .scalar value ∧
            reader.descs.find? (·.key = desc.key) = some desc) := by
  unfold keyText pairCall
  cases doc.node pr.1 with
  | scalar keyNode =>
    dsimp only
    by_cases own : reader.utf.fromUtf8 keyNode = reader.sct
    · rw [if_pos own]
      exact .inl ⟨congrArg some own, rfl⟩
    · rw [if_neg own]
      refine .inr ⟨by simpa using own, ?_⟩
      cases found : reader.descs.find? (·.key = reader.utf.fromUtf8 keyNode) with
      | none => exact .inl rfl
      | some desc =>
        cases val : doc.node pr.2 with
        | scalar value =>
          have key : desc.key = reader.utf.fromUtf8 keyNode := by
            simpa using List.find?_some found
          exact .inr ⟨desc, value, rfl, rfl, by rw [key]; exact found⟩
        | mapping _ | sequence _ => exact .inl rfl
  | mapping _ | sequence _ => exact .inr ⟨by simp, .inl rfl⟩

end

/-! ## Calls for described keys -/

/-- The call stores what its key is first described as, in the section. -/
def Describes (reader : YamlReader) (c : SettingsCall) : Prop :=
  c.place.1 = reader.sct ∧
    ∃ desc, reader.descs.find? (·.key = c.place.2) = some desc ∧ c.type = desc.type

section
variable {reader doc} {depth : Nat} {icu : ByteSizeIcu} {node : Fin doc.size}
  {keyDesc : Option SettingDesc} {before found : List SettingsCall}

theorem described_of_mem_calls {call : Fin doc.size × Option SettingDesc}
    (h : call ∈ reader.calls doc node) :
    ∀ desc, call.2 = some desc → reader.descs.find? (·.key = desc.key) = some desc := by
  intro desc hdesc
  unfold calls at h
  cases hnode : doc.node node with
  | scalar _ =>
    rw [hnode] at h
    cases h
  | sequence items =>
    rw [hnode] at h
    obtain ⟨item, -, rfl⟩ := List.mem_map.mp h
    cases hdesc
  | mapping pairs =>
    rw [hnode] at h
    obtain ⟨pr, -, hpr⟩ := List.mem_filterMap.mp h
    obtain ⟨-, own⟩ | ⟨-, none | ⟨desc', value, beside, -, first⟩⟩ := pairCall_cases reader doc pr
    · cases own.symm.trans hpr
      cases hdesc
    · cases none.symm.trans hpr
    · cases beside.symm.trans hpr
      cases hdesc
      exact first

theorem describes_of_handleYamlNode
    (first : ∀ desc, keyDesc = some desc → reader.descs.find? (·.key = desc.key) = some desc)
    (h : reader.handleYamlNode doc depth node keyDesc = some found) :
    ∀ c ∈ found, reader.Describes c := by
  induction depth generalizing node keyDesc found with
  | zero => cases h
  | succ depth ih =>
    rw [handleYamlNode, walk_succ] at h
    obtain ⟨parts, hparts, rfl⟩ := Option.map_eq_some_iff.mp h
    intro c hc
    rcases List.mem_append.mp hc with hc | hc
    · unfold atScalar at hc
      cases hnode : doc.node node with
      | scalar value =>
        rw [hnode] at hc
        obtain ⟨desc, hdesc, rfl⟩ := List.mem_map.mp hc
        rw [Describes, setter, scalarCall_place, scalarCall_type]
        exact ⟨rfl, desc, first desc (Option.mem_toList.mp hdesc), rfl⟩
      | mapping _ | sequence _ =>
        rw [hnode] at hc
        cases hc
    · obtain ⟨call, hcall, part, hpart, hc⟩ := (Fallible.mem_flatten_mapM hparts c).mp hc
      exact ih (described_of_mem_calls hcall) hpart c hc

theorem describes_of_retrieve (h : reader.retrieve doc depth = some found) :
    ∀ c ∈ found, reader.Describes c := by
  unfold retrieve at h
  cases root : doc.root with
  | none =>
    rw [root] at h
    cases h
    intro c hc
    cases hc
  | some root' =>
    rw [root] at h
    exact describes_of_handleYamlNode (fun desc h => by cases h) h

/-- The call stores a value of the kind that its key is first described as. -/
def DescribesKind (reader : YamlReader) (c : SettingsCall) : Prop :=
  c.place.1 = reader.sct ∧ ∃ desc, reader.descs.find? (·.key = c.place.2) = some desc ∧
    c.type.isText = desc.type.isText

theorem Describes.kind {c : SettingsCall} (h : reader.Describes c) : reader.DescribesKind c := by
  obtain ⟨sct, desc, first, type⟩ := h
  exact ⟨sct, desc, first, by rw [type]⟩

theorem DescribesKind.agree {c d : SettingsCall} (hc : reader.DescribesKind c)
    (hd : reader.DescribesKind d) (same : c.place = d.place) : c.type.isText = d.type.isText := by
  obtain ⟨-, desc, first, type⟩ := hc
  obtain ⟨-, desc', first', type'⟩ := hd
  rw [same, first'] at first
  cases first
  rw [type, type']

/-- Calls for described keys agree with the calls before them. -/
theorem callsAgree_of_describes (agree : CallsAgree icu before) (fits : reader.Fits icu before)
    (described : ∀ c ∈ found, reader.DescribesKind c) : CallsAgree icu (before ++ found) := by
  have one : ∀ c ∈ before, ∀ d ∈ found, c.OneKind icu d := by
    intro c hc d hd stores _ same
    obtain ⟨sct, desc, first, type⟩ := described d hd
    rw [type]
    rw [← same] at sct first
    exact fits c hc stores sct desc first
  intro c hc d hd
  rcases List.mem_append.mp hc with hc | hc
  · rcases List.mem_append.mp hd with hd | hd
    · exact agree c hc d hd
    · exact one c hc d hd
  · rcases List.mem_append.mp hd with hd | hd
    · exact (one d hd c hc).symm
    · intro _ _ same
      exact (described c hc).agree (described d hd) same

end

/-! ## What reading leaves -/

section
variable {reader doc} {depth : Nat} {icu : ByteSizeIcu} {st : Settings} {found : List SettingsCall}

/-- What reading leaves, key by key: the last value, where there is one. -/
theorem starts_retrieves (starts : reader.Starts icu st)
    (h : reader.retrieve doc depth = some found) :
    ∃ st', (settingsMachine icu).after st found = some st' ∧
      (∀ key desc, reader.descs.find? (·.key = key) = some desc →
        ∀ type, getValue st' reader.sct key type =
          some ((((storedValues icu (reader.sct, key) found).getLast?.map fun value =>
            ((st.view (reader.sct, key)).elim desc.type Prod.fst, value)).or
              (st.view (reader.sct, key))).bind fun shown =>
                if shown.1 = type then some shown.2 else none)) ∧
      ∀ place, (∀ c ∈ found, c.place ≠ place) → ∀ type,
        getValue st' place.1 place.2 type = getValue st place.1 place.2 type := by
  obtain ⟨before, agree, fits, reached⟩ := starts
  have described := describes_of_retrieve h
  obtain ⟨st₀, reached₀, follows⟩ := settingsFollow_of_callsAgree agree
  cases reached.symm.trans reached₀
  obtain ⟨st', after, follows', view⟩ :=
    follows.after (callsAgree_of_describes agree fits fun c hc => (described c hc).kind)
  refine ⟨st', after, ?_, ?_⟩
  · intro key desc first type
    rw [follows'.getValue_eq, view, foldl_call_eq]
    intro c hc here
    obtain ⟨-, desc', first', type'⟩ := described c hc
    rw [here, first] at first'
    cases first'
    exact type'
  · intro place none type
    rw [follows'.getValue_eq, follows.getValue_eq, view,
      @foldl_call_eq icu found place type _ fun c hc here => absurd here (none c hc),
      storedValues_eq_nil none]
    rfl

theorem starts_initial (reader : YamlReader) (icu : ByteSizeIcu) :
    reader.Starts icu .initial := by
  refine ⟨[], ?_, ?_, rfl⟩
  · intro c hc
    cases hc
  · intro c hc
    cases hc

theorem retrieves_iff_ends (starts : reader.Starts icu st) :
    (∃ st', reader.Retrieves doc icu st st') ↔ ∃ depth, (reader.retrieve doc depth).isSome := by
  constructor
  · rintro ⟨st', depth, found, read, -⟩
    exact ⟨depth, by rw [read]; rfl⟩
  · rintro ⟨depth, ends⟩
    obtain ⟨found, read⟩ := Option.isSome_iff_exists.mp ends
    obtain ⟨st', after, -⟩ := starts_retrieves starts read
    exact ⟨st', depth, found, read, after⟩

/-- Nothing is changed in another section. -/
theorem retrieves_others {st' : Settings} (starts : reader.Starts icu st)
    (h : reader.Retrieves doc icu st st') {sct : UStr} (other : sct ≠ reader.sct) (key : UStr)
    (type : SettingValueType) : getValue st' sct key type = getValue st sct key type := by
  obtain ⟨depth, found, read, after⟩ := h
  obtain ⟨st₁, after₁, -, unchanged⟩ := starts_retrieves starts read
  cases after.symm.trans after₁
  apply unchanged (sct, key)
  intro c hc here
  apply other
  rw [← (describes_of_retrieve read c hc).1, here]

theorem place_of_not_described {key : UStr} (none : reader.descs.find? (·.key = key) = none)
    (described : ∀ c ∈ found, reader.Describes c) : ∀ c ∈ found, c.place ≠ (reader.sct, key) := by
  intro c hc here
  obtain ⟨-, desc, first, -⟩ := described c hc
  rw [here, none] at first
  cases first

variable (icu) in
/-- From no settings, each described key gets its last value. -/
theorem getValue_initial (read : reader.retrieve doc depth = some found) {key : UStr}
    {desc : SettingDesc} (first : reader.descs.find? (·.key = key) = some desc) : ∃ st',
    (settingsMachine icu).after .initial found = some st' ∧
      getValue st' reader.sct key desc.type =
        some (storedValues icu (reader.sct, key) found).getLast? := by
  obtain ⟨st', after, changed, -⟩ := starts_retrieves (starts_initial reader icu) read
  have absent : Settings.initial.view (reader.sct, key) = none := rfl
  refine ⟨st', after, ?_⟩
  rw [changed key desc first, absent, Option.or_none]
  cases (storedValues icu (reader.sct, key) found).getLast? with
  | none => rfl
  | some value => simp

end

end YamlReader

end Yella
