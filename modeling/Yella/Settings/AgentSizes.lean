import Mathlib.Data.Nat.ModEq
import Yella.Settings.ByteSize
import Yella.Settings.Described

/-!
# The sizes of the agent

`retrieve_agent_settings`: the defaults, and then what the file gives for the described keys.
-/

namespace Yella

/-- The code units of an ASCII string. -/
def ustr (s : String) : UStr := s.toList.map fun c => UInt16.ofNat c.toNat

def agentSection : UStr := ustr "agent"

def agentDescs : List SettingDesc :=
  [⟨ustr "data-dir", .dir⟩,
    ⟨ustr "plugin-dir", .dir⟩,
    ⟨ustr "spool-dir", .dir⟩,
    ⟨ustr "bin-dir", .dir⟩,
    ⟨ustr "max-spool-partitions", .uint⟩,
    ⟨ustr "max-spool-partition-size", .uint⟩,
    ⟨ustr "heartbeat-seconds", .uint⟩,
    ⟨ustr "router", .text⟩,
    ⟨ustr "start-connection-seconds", .uint⟩,
    ⟨ustr "max-message-size", .uint⟩,
    ⟨ustr "reconnect-timeout-seconds", .uint⟩,
    ⟨ustr "poll-milliseconds", .uint⟩,
    ⟨ustr "heartbeat-recipient", .text⟩]

def agentDefaults : List SettingsCall :=
  [.setUint agentSection (ustr "max-spool-partitions") 1000,
    .setByteSize agentSection (ustr "max-spool-partition-size") (ustr "2M"),
    .setUint agentSection (ustr "heartbeat-seconds") 30,
    .setUint agentSection (ustr "start-connection-seconds") 2,
    .setByteSize agentSection (ustr "max-message-size") (ustr "1M"),
    .setUint agentSection (ustr "reconnect-timeout-seconds") 5,
    .setUint agentSection (ustr "poll-milliseconds") 500,
    .setText agentSection (ustr "heartbeat-recipient") (ustr "yella.stethoscope")]

def agentReader (utf : Utf) : YamlReader := ⟨utf, strtoull, agentSection, agentDescs⟩

/-- `retrieve_agent_settings` -/
def AgentRetrieves (icu : ByteSizeIcu) (utf : Utf) (doc : YamlDocument) (st st' : Settings) :
    Prop :=
  ∃ depth found, (agentReader utf).retrieve doc depth = some found ∧
    (settingsMachine icu).after st (agentDefaults ++ found) = some st'

/-- The keys of sizes in bytes. -/
def sizeKeys : List UStr := [ustr "max-spool-partition-size", ustr "max-message-size"]

/-- The last scalar that the document gives for a key. -/
def Gives (reader : YamlReader) (doc : YamlDocument) (key : UStr) (value : List UInt8) : Prop :=
  ∃ root depth scalars, doc.root = some root ∧
    reader.walk doc Prod.mk depth root none = some scalars ∧
      (scalars.filter fun s => s.1.key = key).getLast?.map Prod.snd = some value

/-- The bytes of ASCII text. -/
def asciiBytes (t : UStr) : List UInt8 := t.map UInt16.toUInt8

/-- Settings in which the key is free, or is a size in bytes. -/
def SizeStarts (icu : ByteSizeIcu) (utf : Utf) (key : UStr) (st : Settings) : Prop :=
  (agentReader utf).Starts icu st ∧
    ∀ set, findSetting st.sections (agentSection, key) = some set → set.type = .byteSize

/-- The size is that of the text, as the setter takes it. -/
def MeansSame (icu : ByteSizeIcu) (utf : Utf) (doc : YamlDocument) (key t : UStr) : Prop :=
  ∀ st st₁ st' st₂, SizeStarts icu utf key st → AgentRetrieves icu utf doc st st₁ →
    SizeStarts icu utf key st' →
    (SettingsCall.setByteSize agentSection key t).run icu st' = some st₂ →
      getValue st₁ agentSection key .byteSize = getValue st₂ agentSection key .byteSize

/-- A number of bytes below `2 ^ 32`. -/
def InBytes (t : UStr) : Prop :=
  byteFactor ((t.dropWhile isDigit).map asciiLower) = some 1 ∧
    digitsValue (t.takeWhile isDigit) < 0x100000000

/-! ## The tables -/

section
variable {icu : ByteSizeIcu} {chars : IcuChars} {utf : Utf} {doc : YamlDocument} {key t : UStr}
  {st st₁ : Settings} {found : List SettingsCall} {value : List UInt8}

theorem agentDefaults_kinds (utf : Utf) :
    ∀ c ∈ agentDefaults, (agentReader utf).DescribesKind c := by
  have table : ∀ c ∈ agentDefaults, c.place.1 = agentSection ∧
      (agentDescs.find? (·.key = c.place.2)).map (·.type.isText) = some c.type.isText := by decide
  intro c hc
  obtain ⟨sct, kind⟩ := table c hc
  obtain ⟨desc, first, same⟩ := Option.map_eq_some_iff.mp kind
  exact ⟨sct, desc, first, same.symm⟩

theorem described_size (h : key ∈ sizeKeys) :
    agentDescs.find? (·.key = key) = some ⟨key, .uint⟩ := by
  have table : ∀ key ∈ sizeKeys, agentDescs.find? (·.key = key) = some ⟨key, .uint⟩ := by decide
  exact table key h

theorem default_size (h : key ∈ sizeKeys) : (∀ c ∈ agentDefaults,
    c.place = (agentSection, key) → c.type = .byteSize) ∧
      ∃ text n, .setByteSize agentSection key text ∈ agentDefaults ∧ 0 ∉ text ∧
        exactByteSize text = some n ∧ ¬ 0x100000000 ∣ n := by
  have types : ∀ key ∈ sizeKeys, ∀ c ∈ agentDefaults, c.place = (agentSection, key) →
      c.type = .byteSize := by decide
  refine ⟨types key h, ?_⟩
  unfold sizeKeys at h
  rcases List.mem_cons.mp h with rfl | h
  · exact ⟨ustr "2M", 2097152, by decide, by decide, by decide, by decide⟩
  · rw [List.mem_singleton.mp h]
    exact ⟨ustr "1M", 1048576, by decide, by decide, by decide, by decide⟩

/-- The default of a size is stored, whatever is there. -/
theorem default_stored (documented : icu.Documented chars) (h : key ∈ sizeKeys) :
    (storedValues icu (agentSection, key) agentDefaults).getLast?.isSome := by
  obtain ⟨-, text, n, listed, nonzero, exact, large⟩ := default_size h
  have stores : SettingsCall.stores icu (.setByteSize agentSection key text) = true := by
    have stored := storedByteSize_ofNat n
    rw [if_neg large] at stored
    simp only [SettingsCall.stores, byteSizeValue_eq documented nonzero,
      readByteSize_of_exact exact, Option.getD_some, decide_eq_true_eq]
    by_contra zero
    rw [storedByteSize, if_neg zero] at stored
    cases stored
  rw [List.getLast?_isSome, storedValues]
  apply List.ne_nil_of_mem
  apply List.mem_map_of_mem
  exact List.mem_filter.mpr ⟨listed, decide_eq_true ⟨stores, rfl⟩⟩

/-! ## The file -/

theorem retrieve_of_gives {reader : YamlReader} (gives : Gives reader doc key value) :
    ∃ depth, ∃ scalars : List (SettingDesc × List UInt8),
      reader.retrieve doc depth = some (scalars.map fun s => reader.setter s.1 s.2) ∧
      (scalars.filter fun s => s.1.key = key).getLast?.map Prod.snd = some value := by
  obtain ⟨root, depth, scalars, hroot, read, last⟩ := gives
  refine ⟨depth, scalars, ?_, last⟩
  have setters := @YamlReader.walk_map reader doc root none depth _ _ Prod.mk
    fun s => reader.setter s.1 s.2
  rw [read] at setters
  simp only [YamlReader.retrieve, hroot]
  exact setters

/-- Of a described number each scalar is stored. -/
theorem storedValues_scalars {scalars : List (SettingDesc × List UInt8)} (h : key ∈ sizeKeys)
    (described : ∀ c ∈ scalars.map fun s => (agentReader utf).setter s.1 s.2,
      (agentReader utf).Describes c) :
    storedValues icu (agentSection, key) (scalars.map fun s => (agentReader utf).setter s.1 s.2) =
      (scalars.filter fun s => s.1.key = key).map fun s => .inr (strtoull s.2) := by
  induction scalars with
  | nil => rfl
  | cons s scalars ih =>
    rw [List.map_cons, List.forall_mem_cons] at described
    have split : storedValues icu (agentSection, key)
        ((s :: scalars).map fun s => (agentReader utf).setter s.1 s.2) =
          storedValues icu (agentSection, key) [(agentReader utf).setter s.1 s.2] ++
            storedValues icu (agentSection, key)
              (scalars.map fun s => (agentReader utf).setter s.1 s.2) := storedValues_append [_] _
    have place : ((agentReader utf).setter s.1 s.2).place = (agentSection, s.1.key) :=
      scalarCall_place
    rw [split, ih described.2]
    by_cases here : s.1.key = key
    · obtain ⟨-, desc, first, type⟩ := described.1
      rw [place, here, show (agentReader utf).descs = agentDescs from rfl, described_size h]
        at first
      cases first
      have call : (agentReader utf).setter s.1 s.2 = .setUint agentSection key (strtoull s.2) := by
        rw [YamlReader.setter, scalarCall_type] at type
        rw [YamlReader.setter, scalarCall, type, here]
        rfl
      rw [call, List.filter_cons, if_pos (decide_eq_true here), List.map_cons]
      simp [storedValues, SettingsCall.stores, SettingsCall.place, SettingsCall.value]
    · have none : storedValues icu (agentSection, key) [(agentReader utf).setter s.1 s.2] = [] := by
        apply storedValues_eq_nil
        intro c hc
        rw [List.mem_singleton.mp hc, place]
        simpa using here
      rw [none, List.nil_append, List.filter_cons, decide_eq_false here,
        if_neg Bool.false_ne_true]

/-- The settings after the defaults and the file. -/
theorem agentRetrieves_view (starts : (agentReader utf).Starts icu st) {depth : Nat}
    (read : (agentReader utf).retrieve doc depth = some found) : ∃ st₁ done,
      (settingsMachine icu).after st (agentDefaults ++ found) = some st₁ ∧
        SettingsFollow icu done st₁ ∧
          st₁.view = found.foldl (SettingsMap.call icu)
            (agentDefaults.foldl (SettingsMap.call icu) st.view) := by
  obtain ⟨before, agree, fits, reached⟩ := starts
  obtain ⟨st₀, reached₀, follows⟩ := settingsFollow_of_callsAgree agree
  cases reached.symm.trans reached₀
  have kinds : ∀ c ∈ agentDefaults ++ found, (agentReader utf).DescribesKind c := by
    intro c hc
    rcases List.mem_append.mp hc with hc | hc
    · exact agentDefaults_kinds utf c hc
    · exact (YamlReader.describes_of_retrieve read c hc).kind
  obtain ⟨st₁, after, follows', view⟩ :=
    follows.after (YamlReader.callsAgree_of_describes agree fits kinds)
  exact ⟨st₁, _, after, follows', by rw [view, List.foldl_append]⟩

/-- What was a size stays one. -/
theorem view_type (sizes : SizeStarts icu utf key st) :
    (st.view (agentSection, key)).elim .byteSize Prod.fst = SettingValueType.byteSize := by
  rw [Settings.view]
  cases there : findSetting st.sections (agentSection, key) with
  | none => rfl
  | some set =>
    rw [Option.bind_some]
    cases readValue st.strings set.value.isText set.value with
    | none => rfl
    | some _ => exact sizes.2 set there

/-- The size is the number at the start of the last scalar. -/
theorem getValue_file (documented : icu.Documented chars) (h : key ∈ sizeKeys)
    (gives : Gives (agentReader utf) doc key value) (sizes : SizeStarts icu utf key st) : ∃ st₁,
      AgentRetrieves icu utf doc st st₁ ∧
        getValue st₁ agentSection key .byteSize = some (some (.inr (strtoull value))) := by
  obtain ⟨depth, scalars, read, last⟩ := retrieve_of_gives gives
  obtain ⟨st₁, done, after, follows, view⟩ := agentRetrieves_view sizes.1 read
  have described := YamlReader.describes_of_retrieve read
  have uint : ∀ c ∈ scalars.map (fun s => (agentReader utf).setter s.1 s.2),
      c.place = (agentSection, key) → c.type = .uint := by
    intro c hc here
    obtain ⟨-, desc, first, type⟩ := described c hc
    rw [here, show (agentReader utf).descs = agentDescs from rfl, described_size h] at first
    cases first
    exact type
  have size : ∃ old, agentDefaults.foldl (SettingsMap.call icu) st.view (agentSection, key) =
      some (.byteSize, old) := by
    obtain ⟨old, hold⟩ := Option.isSome_iff_exists.mp (default_stored documented h)
    refine ⟨old, ?_⟩
    rw [foldl_call_eq st.view (default_size h).1, hold, Option.map_some, view_type sizes,
      Option.some_or]
  have new : (storedValues icu (agentSection, key)
      (scalars.map fun s => (agentReader utf).setter s.1 s.2)).getLast? =
        some (.inr (strtoull value)) := by
    obtain ⟨s, hs, rfl⟩ := Option.map_eq_some_iff.mp last
    rw [storedValues_scalars h described, List.getLast?_map, hs]
    rfl
  obtain ⟨old, hold⟩ := size
  refine ⟨st₁, ⟨depth, _, read, after⟩, ?_⟩
  rw [follows.getValue_eq, view, foldl_call_eq _ uint, hold, new]
  rfl

/-! ## The setter -/

/-- The size is what the setter stores, or what was there. -/
theorem getValue_direct (size : key ∈ sizeKeys) (sizes : SizeStarts icu utf key st)
    (run : (SettingsCall.setByteSize agentSection key t).run icu st = some st₁) :
    getValue st₁ agentSection key .byteSize =
      some (((storedByteSize (byteSizeValue icu t)).map Sum.inr).or
        ((st.view (agentSection, key)).map Prod.snd)) := by
  have type := view_type sizes
  obtain ⟨before, agree, fits, reached⟩ := sizes.1
  obtain ⟨st₀, reached₀, follows⟩ := settingsFollow_of_callsAgree agree
  cases reached.symm.trans reached₀
  have kind : ∀ c ∈ [SettingsCall.setByteSize agentSection key t],
      (agentReader utf).DescribesKind c := by
    intro c hc
    rw [List.mem_singleton.mp hc]
    exact ⟨rfl, _, described_size size, rfl⟩
  obtain ⟨next, after, follows', view⟩ :=
    follows.after (YamlReader.callsAgree_of_describes agree fits kind)
  have here : (settingsMachine icu).next st (.setByteSize agentSection key t) = some st₁ := run
  rw [Machine.after, here] at after
  cases after
  rw [follows'.getValue_eq, view, List.foldl_cons, List.foldl_nil, SettingsMap.call,
    storedByteSize]
  by_cases stores : byteSizeValue icu t > 0
  · rw [if_pos (show SettingsCall.stores icu (.setByteSize agentSection key t) = true by
      simpa [SettingsCall.stores] using stores), if_pos stores]
    show some (Option.bind (SettingsMap.put st.view (agentSection, key) .byteSize _ _) _) = _
    rw [SettingsMap.put, Function.update_self, type]
    rfl
  · rw [if_neg (show ¬ SettingsCall.stores icu (.setByteSize agentSection key t) = true by
      simpa [SettingsCall.stores] using stores), if_neg stores]
    cases there : st.view (agentSection, key) with
    | none => rfl
    | some shown =>
      rw [there] at type
      rw [Option.bind_some, if_pos (show shown.1 = .byteSize from type)]
      rfl

theorem isDigitByte_of_isDigit {c : UChar} (h : isDigit c = true) :
    isDigitByte c.toUInt8 = true ∧ c.toUInt8.toNat = c.toNat := by
  have bounds := isDigit_bounds.mp h
  simp only [UInt16.le_iff_toNat_le] at bounds
  have value : c.toUInt8.toNat = c.toNat := by
    rw [UInt16.toNat_toUInt8]
    simp at bounds
    omega
  refine ⟨?_, value⟩
  rw [isDigitByte, decide_eq_true_iff, UInt8.le_iff_toNat_le, UInt8.le_iff_toNat_le, value]
  exact bounds

theorem not_isDigitByte_of_letter {c : UChar} (h : 65 ≤ c ∧ c ≤ 122) :
    isDigitByte c.toUInt8 = false := by
  simp only [UInt16.le_iff_toNat_le] at h
  rw [isDigitByte, decide_eq_false_iff_not, UInt8.le_iff_toNat_le, UInt8.le_iff_toNat_le,
    UInt16.toNat_toUInt8]
  simp at *
  omega

theorem digit_first {b : UInt8} (h : isDigitByte b = true) :
    isSpaceByte b = false ∧ b ≠ 43 ∧ b ≠ 45 := by
  rw [isDigitByte, decide_eq_true_iff] at h
  have apart (c : UInt8) (hc : c < 48) : b ≠ c := by
    rintro rfl
    exact absurd h.1 (UInt8.not_le.mpr hc)
  refine ⟨?_, apart 43 (by decide), apart 45 (by decide)⟩
  rw [isSpaceByte, decide_eq_false_iff_not]
  rintro (space | ⟨-, control⟩)
  · exact apart 32 (by decide) space
  · exact absurd (UInt8.le_trans h.1 control) (by decide)

/-- The number at the start of a size, which needs no more than 64 bits. -/
theorem strtoull_asciiBytes {n : Nat} (exact : exactByteSize t = some n) (pos : 0 < n)
    (fits : n < 0x10000000000000000) :
    strtoull (asciiBytes t) = UInt64.ofNat (digitsValue (t.takeWhile isDigit)) := by
  obtain ⟨digits, suffix, factor, rfl, take, -, nonempty, all, letters, -, rfl⟩ :=
    exactByteSize_parts exact
  have small : digitsValue digits < 0x10000000000000000 := by
    have : digitsValue digits ≤ digitsValue digits * factor :=
      Nat.le_mul_of_pos_right _ (Nat.pos_of_mul_pos_left pos)
    omega
  have bytes : (asciiBytes (digits ++ suffix)).takeWhile isDigitByte = asciiBytes digits := by
    rw [asciiBytes, List.map_append]
    apply (split_of_all _ _).1
    · intro b hb
      obtain ⟨c, hc, rfl⟩ := List.mem_map.mp hb
      exact (isDigitByte_of_isDigit (all c hc)).1
    · intro b hb
      obtain ⟨c, hc, rfl⟩ := List.mem_map.mp hb
      exact not_isDigitByte_of_letter (letters c hc)
  have number : (asciiBytes digits).foldl (fun n b => n * 10 + (b.toNat - 48)) 0 =
      digitsValue digits := by
    rw [asciiBytes, List.foldl_map, digitsValue]
    apply List.foldl_ext
    intro n c hc
    rw [(isDigitByte_of_isDigit (all c hc)).2]
  obtain ⟨c, rest, rfl⟩ := List.exists_cons_of_ne_nil nonempty
  -- the first byte is a digit, and so neither space nor sign
  have first := (isDigitByte_of_isDigit (all c List.mem_cons_self)).1
  obtain ⟨noSpace, noPlus, noMinus⟩ := digit_first first
  have start : (asciiBytes (c :: rest ++ suffix)).dropWhile isSpaceByte =
      asciiBytes (c :: rest ++ suffix) := by
    rw [asciiBytes, List.cons_append, List.map_cons, List.dropWhile_cons, noSpace,
      if_neg Bool.false_ne_true]
  have head : (asciiBytes (c :: rest ++ suffix)).head? = some c.toUInt8 := rfl
  have unsigned : ¬ (some c.toUInt8 = some 43 ∨ some c.toUInt8 = some (45 : UInt8)) := by
    rw [Option.some_inj, Option.some_inj]
    exact not_or.mpr ⟨noPlus, noMinus⟩
  simp only [strtoull, start, head, unsigned, if_false, bytes, number]
  rw [take, if_neg (Nat.not_le.mpr small), if_neg (not_or.mp unsigned).2]

/-- A factor does not leave a number as it is where it has nothing in common with the modulus when
it is one less. -/
theorem mul_mod_ne {d factor m : Nat} (pos : 0 < d) (small : d < m) (one : 1 ≤ factor)
    (prime : Nat.Coprime m (factor - 1)) : d * factor % m ≠ d := by
  intro same
  have multiple : m ∣ d * factor - d := by
    apply (Nat.modEq_iff_dvd' (Nat.le_mul_of_pos_right d one)).mp
    rw [Nat.ModEq, same, Nat.mod_eq_of_lt small]
  rw [← Nat.mul_sub_one] at multiple
  exact absurd (Nat.le_of_dvd pos (prime.dvd_of_dvd_mul_right multiple)) (Nat.not_le.mpr small)

/-- The other factors are even. -/
theorem coprime_of_byteFactor {suffix : UStr} {factor : Nat} (h : byteFactor suffix = some factor)
    (other : factor ≠ 1) : Nat.Coprime 0x100000000 (factor - 1) := by
  have all : ∀ s ∈ byteSuffixes, s.2 ≠ 1 → Nat.Coprime 0x100000000 (s.2 - 1) := by decide
  exact all _ (byteFactor_mem h) other

/-- In 32 bits no factor but one leaves a number as it is. -/
theorem same_number_iff {n : Nat} (exact : exactByteSize t = some n) (pos : 0 < n) :
    n % 0x100000000 = digitsValue (t.takeWhile isDigit) ↔ InBytes t := by
  obtain ⟨digits, suffix, factor, -, take, drop, -, -, -, found, rfl⟩ := exactByteSize_parts exact
  rw [InBytes, take, drop, found, Option.some_inj]
  constructor
  · intro same
    have small : digitsValue digits < 0x100000000 := by
      rw [← same]
      exact Nat.mod_lt _ (by decide)
    refine ⟨?_, small⟩
    by_contra other
    exact mul_mod_ne (Nat.pos_of_mul_pos_right pos) small (Nat.pos_of_mul_pos_left pos)
      (coprime_of_byteFactor found other) same
  · rintro ⟨rfl, small⟩
    rw [Nat.mul_one, Nat.mod_eq_of_lt small]

theorem agentRetrieves_unique {st₂ : Settings} (h : AgentRetrieves icu utf doc st st₁)
    (h' : AgentRetrieves icu utf doc st st₂) : st₁ = st₂ := by
  obtain ⟨depth, found, read, after⟩ := h
  obtain ⟨depth', found', read', after'⟩ := h'
  have more := YamlReader.retrieve_mono (le_max_left depth depth') read
  have more' := YamlReader.retrieve_mono (le_max_right depth depth') read'
  cases more.symm.trans more'
  exact Option.some_inj.mp (after.symm.trans after')

theorem nonzero_of_exact {n : Nat} (exact : exactByteSize t = some n) : 0 ∉ t := by
  obtain ⟨digits, suffix, factor, rfl, -, -, -, all, letters, -, -⟩ := exactByteSize_parts exact
  intro zero
  rcases List.mem_append.mp zero with zero | zero
  · exact absurd (all 0 zero) (by decide)
  · exact absurd (letters 0 zero).1 (by decide)

theorem sizeStarts_initial (icu : ByteSizeIcu) (utf : Utf) (key : UStr) :
    SizeStarts icu utf key .initial := by
  refine ⟨YamlReader.starts_initial _ icu, ?_⟩
  intro set found
  cases found

/-- What the setter stores of a size is the number at its start exactly if that is all of it. -/
theorem stored_eq_iff {n : Nat} (documented : icu.Documented chars)
    (exact : exactByteSize t = some n) (pos : 0 < n) (fits : n < 0x10000000000000000) :
    storedByteSize (byteSizeValue icu t) = some (strtoull (asciiBytes t)) ↔ InBytes t := by
  rw [byteSizeValue_eq documented (nonzero_of_exact exact), readByteSize_of_exact exact,
    Option.getD_some, storedByteSize_ofNat, strtoull_asciiBytes exact pos fits,
    ← same_number_iff exact pos]
  obtain ⟨digits, suffix, factor, rfl, take, -, -, -, -, -, rfl⟩ := exactByteSize_parts exact
  rw [take]
  have few : digitsValue digits ≤ digitsValue digits * factor :=
    Nat.le_mul_of_pos_right _ (Nat.pos_of_mul_pos_left pos)
  have some : 0 < digitsValue digits := Nat.pos_of_mul_pos_right pos
  split
  · rename_i zero
    simp only [reduceCtorEq, false_iff]
    omega
  · rw [Option.some_inj, ← UInt64.toNat_inj, UInt64.toNat_ofNat', UInt64.toNat_ofNat']
    omega

/-- From no settings the setter must store what the file gives. -/
theorem stored_of_meansSame (documented : icu.Documented chars) (size : key ∈ sizeKeys)
    (gives : Gives (agentReader utf) doc key value) (same : MeansSame icu utf doc key t) :
    storedByteSize (byteSizeValue icu t) = some (strtoull value) := by
  have starts := sizeStarts_initial icu utf key
  obtain ⟨st₁, retrieves, file⟩ := getValue_file documented size gives starts
  obtain ⟨st₂, run, -⟩ := run_setByteSize icu t .initial agentSection key
  have equal := same .initial st₁ .initial st₂ starts retrieves starts run
  have absent : (Settings.initial.view (agentSection, key)).map Prod.snd = none := rfl
  rw [file, getValue_direct size starts run, absent, Option.or_none, Option.some_inj] at equal
  obtain ⟨number, stored, same⟩ := Option.map_eq_some_iff.mp equal.symm
  rw [stored, Sum.inr.inj same]

end

/-- A size in the file means the same as in the code exactly if it is a number of bytes. -/
theorem meansSame_iff {icu : ByteSizeIcu} {chars : IcuChars} {utf : Utf} {doc : YamlDocument}
    {key t : UStr} {n : Nat} (documented : icu.Documented chars) (size : key ∈ sizeKeys)
    (valid : storableByteSize t = some n)
    (gives : Gives (agentReader utf) doc key (asciiBytes t)) :
    MeansSame icu utf doc key t ↔ InBytes t := by
  obtain ⟨exact, range⟩ := Option.filter_eq_some_iff.mp valid
  obtain ⟨pos, fits⟩ := of_decide_eq_true range
  rw [← stored_eq_iff documented exact pos fits]
  constructor
  · exact stored_of_meansSame documented size gives
  · intro stored st st₁ st' st₂ starts retrieves starts' run
    obtain ⟨st₁', retrieves', file⟩ := getValue_file documented size gives starts
    rw [agentRetrieves_unique retrieves retrieves', file, getValue_direct size starts' run, stored]
    rfl

/-! ## Documents with one size -/

/-- `agent: {max-message-size: …}` -/
def messageSize (value : List UInt8) : YamlDocument :=
  .oneValue (asciiBytes agentSection) (asciiBytes (ustr "max-message-size")) value

theorem gives_messageSize (value : List UInt8) :
    Gives (agentReader asciiUtf) (messageSize value) (ustr "max-message-size") value :=
  ⟨⟨0, Nat.succ_pos 4⟩, 3, [(⟨ustr "max-message-size", .uint⟩, value)], rfl, rfl, rfl⟩

theorem meansSame_number : MeansSame IcuChars.ascii.icu asciiUtf
    (messageSize (asciiBytes (ustr "65536"))) (ustr "max-message-size") (ustr "65536") := by
  have valid : storableByteSize (ustr "65536") = some 65536 := by decide
  apply (meansSame_iff IcuChars.ascii.documented_icu (by decide) valid (gives_messageSize _)).mpr
  constructor
  · decide
  · decide

/-- `4M` is four bytes. -/
theorem not_meansSame_megabytes : IcuChars.ascii.icu.Documented IcuChars.ascii ∧
    Gives (agentReader asciiUtf) (messageSize (asciiBytes (ustr "4M"))) (ustr "max-message-size")
      (asciiBytes (ustr "4M")) ∧
    storableByteSize (ustr "4M") = some 4194304 ∧
    ¬ MeansSame IcuChars.ascii.icu asciiUtf (messageSize (asciiBytes (ustr "4M")))
      (ustr "max-message-size") (ustr "4M") := by
  have documented := IcuChars.ascii.documented_icu
  have gives := gives_messageSize (asciiBytes (ustr "4M"))
  refine ⟨documented, gives, by decide, ?_⟩
  intro same
  have stored := stored_of_meansSame documented (by decide) gives same
  have megabytes : storedByteSize (byteSizeValue IcuChars.ascii.icu (ustr "4M")) =
      some 4194304 := by decide
  rw [megabytes, Option.some_inj] at stored
  exact absurd stored (by decide)

end Yella
