import Yella.Element.Pack
import Yella.FileName
import Yella.Lib.Cells
import Yella.Lib.Machine
import Yella.Lib.OrderedSet

/-!
# Settings

The setters and the readers of `settings.c`. The value of a setting is in a union beside a type.
A result of `none` is undefined: a member of the union is used that was not stored, or a string
that has been freed.
-/

namespace Yella

/-- `yella_setting_value_type` -/
inductive SettingValueType where
  | text
  | uint
  | dir
  | byteSize
  deriving DecidableEq, Repr

/-- The types of which the readers take the `text` of the union. -/
def SettingValueType.isText : SettingValueType → Bool
  | .text | .dir => true
  | .uint | .byteSize => false

/-- The union, by the member that was stored last. A text is the `uds` that was allocated. -/
inductive SettingValue where
  | text (text : Nat)
  | uint (uint : UInt64)
  deriving DecidableEq, Repr

structure Setting where
  key : UStr
  value : SettingValue
  type : SettingValueType
  deriving DecidableEq, Repr

structure Section where
  key : UStr
  settings : OrderedSet Setting.key

abbrev Sections := OrderedSet Section.key

/-- The static `sections`, and the strings that `udsnew` has allocated for values. -/
structure Settings where
  sections : Sections
  strings : Cells UStr

def Settings.initial : Settings where
  sections := .empty
  strings := .empty

/-- The setting of a section and a key. -/
def findSetting (sections : Sections) (place : UStr × UStr) : Option Setting :=
  (sections.find place.1).bind fun sct => sct.settings.find place.2

/-! ## Setters -/

/-- `udsfree` of the `text` of a union. Zero is NULL, and any other number is no string. -/
def udsfree (strings : Cells UStr) : SettingValue → Option (Cells UStr)
  | .text text => strings.free text
  | .uint uint => if uint = 0 then some strings else none

def addSection (sections : Sections) (sct : UStr) : Sections :=
  sections.insert { key := sct, settings := .empty }

/-- A type is only stored with a new setting. -/
def Section.store (sct : Section) (key : UStr) (value : SettingValue) (type : SettingValueType) :
    Section :=
  match sct.settings.find key with
  | none => { sct with settings := sct.settings.insert { key, value, type } }
  | some _ =>
    { sct with
      settings := sct.settings.modify key (fun found => { found with value }) fun _ => rfl }

theorem Section.store_key (sct : Section) (key : UStr) (value : SettingValue)
    (type : SettingValueType) : (sct.store key value type).key = sct.key := by
  unfold Section.store
  split <;> rfl

def storeSetting (sections : Sections) (sct key : UStr) (value : SettingValue)
    (type : SettingValueType) : Sections :=
  sections.modify sct (fun found => found.store key value type) fun found =>
    found.store_key key value type

/-- The text of a setting that is there is freed. -/
def freeFound (strings : Cells UStr) : Option Setting → Option (Cells UStr)
  | none => some strings
  | some found => udsfree strings found.value

def setTextImpl (st : Settings) (sct key val : UStr) (type : SettingValueType) :
    Option Settings := do
  let sections := addSection st.sections sct
  let strings ← freeFound st.strings (findSetting sections (sct, key))
  some {
    sections := storeSetting sections sct key (.text strings.next) type
    strings := strings.alloc val }

def setUintImpl (st : Settings) (sct key : UStr) (val : UInt64) (type : SettingValueType) :
    Settings :=
  { st with sections := storeSetting (addSection st.sections sct) sct key (.uint val) type }

/-- A directory ends with a separator. -/
def dirValue (val : UStr) : UStr :=
  let actual := removeDuplicateDirSeps false val
  if actual.length > 0 ∧ actual.getLast? ≠ some dirSep then actual ++ [dirSep] else actual

/-- What ICU does for a byte size: `u_isdigit`, the number of items that `u_sscanf_u` converts
with `%u%3S` and their values, and `u_strToLower`, unless it fails for want of room. -/
structure ByteSizeIcu where
  isDigit : UChar → Bool
  scan : UStr → Nat × UInt32 × UStr
  toLower : UStr → Option UStr

/-- The unit at an index of a string in `lower`, where the terminator is 0. -/
def unitAt (lower : UStr) (i : Nat) : UChar := (lower[i]?).getD 0

/-- The suffixes that are refused. The terminator is found in `bkmg` too. -/
def suffixInvalid (lower : UStr) : Bool :=
  lower.length > 2 ∨ (lower.length = 2 ∧ unitAt lower 1 ≠ 98) ∨
    (lower.length = 2 ∧ unitAt lower 0 = 98) ∨ unitAt lower 0 ∉ ([98, 107, 109, 103, 0] : UStr)

def suffixFactor (lower : UStr) : UInt32 :=
  if unitAt lower 0 = 107 then 1024
  else if unitAt lower 0 = 109 then 1024 * 1024
  else if unitAt lower 0 = 103 then 1024 * 1024 * 1024
  else 1

/-- `num` at the end of `yella_settings_set_byte_size`. -/
def byteSizeValue (icu : ByteSizeIcu) (val : UStr) : UInt32 :=
  if val.length = 0 ∨ icu.isDigit (unitAt val 0) = false then 0
  else
    let (len, num, suffix) := icu.scan val
    if len ≠ 1 ∧ len ≠ 2 then 0
    else if len = 2 then
      match icu.toLower suffix with
      -- an error, but the number is kept
      | none => num
      | some lower => if suffixInvalid lower then 0 else num * suffixFactor lower
    else num

/-- A call of one of the four setters. -/
inductive SettingsCall where
  | setText (sct key val : UStr)
  | setDir (sct key val : UStr)
  | setUint (sct key : UStr) (val : UInt64)
  | setByteSize (sct key val : UStr)
  deriving DecidableEq, Repr

def SettingsCall.run (icu : ByteSizeIcu) (st : Settings) : SettingsCall → Option Settings
  | .setText sct key val => setTextImpl st sct key val .text
  | .setDir sct key val => setTextImpl st sct key (dirValue val) .dir
  | .setUint sct key val => some (setUintImpl st sct key val .uint)
  | .setByteSize sct key val =>
    let num := byteSizeValue icu val
    if num > 0 then some (setUintImpl st sct key num.toUInt64 .byteSize) else some st

/-- `yella_setting_desc` -/
structure SettingDesc where
  key : UStr
  type : SettingValueType
  deriving DecidableEq, Repr

/-- The call of `handle_yaml_node` for the scalar of a described key. -/
def scalarCall (utf : Utf) (strtoull : List UInt8 → UInt64) (sct : UStr) (desc : SettingDesc)
    (scalar : List UInt8) : SettingsCall :=
  match desc.type with
  | .byteSize => .setByteSize sct desc.key (utf.fromUtf8 scalar)
  | .dir => .setDir sct desc.key (utf.fromUtf8 scalar)
  | .text => .setText sct desc.key (utf.fromUtf8 scalar)
  | .uint => .setUint sct desc.key (strtoull scalar)

/-- Any calls, from the start of the program on. -/
def settingsMachine (icu : ByteSizeIcu) : Machine Settings SettingsCall where
  start st := st = .initial
  next st call := call.run icu st

/-! ## Readers -/

/-- What is read where the type is text-like, or where it is not. -/
def readValue (strings : Cells UStr) (isText : Bool) (value : SettingValue) :
    Option (UStr ⊕ UInt64) :=
  match isText, value with
  | true, .text text => (strings.get text).map .inl
  | false, .uint uint => some (.inr uint)
  | _, _ => none

/-- The getters are this function at the four types. `some none` is NULL, for a section or a
setting that is not there or has another type. -/
def getValue (st : Settings) (sct key : UStr) (type : SettingValueType) :
    Option (Option (UStr ⊕ UInt64)) :=
  match findSetting st.sections (sct, key) with
  | none => some none
  | some found =>
    if found.type ≠ type then some none
    else (readValue st.strings type.isText found.value).map some

/-- The sections of `yella_log_settings`, each with its keys and values. -/
def logSettings (st : Settings) : Option (List (UStr × List (UStr × (UStr ⊕ UInt64)))) :=
  st.sections.elems.mapM fun sct =>
    (sct.settings.elems.mapM fun set =>
      (readValue st.strings set.type.isText set.value).map (set.key, ·)).map (sct.key, ·)

def destroySetting (strings : Cells UStr) (set : Setting) : Option (Cells UStr) :=
  if set.type.isText then udsfree strings set.value else some strings

/-- The strings that are left. -/
def destroySettings (st : Settings) : Option (Cells UStr) :=
  st.sections.elems.foldlM (fun strings sct => sct.settings.elems.foldlM destroySetting strings)
    st.strings

end Yella
