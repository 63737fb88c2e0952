import Yella.Parcel.Pack

/-!
# Parcels in the console

The constructor of `console/parcel.cpp`, which reads the same tables as `yella_unpack_parcel`.
-/

namespace Yella

structure ConsoleGroup where
  id : List UInt8
  disposition : GroupDisposition
  deriving DecidableEq, Repr

/-- `when` is the count of nanoseconds of the time point. A string keeps its bytes. -/
structure ConsoleParcel where
  when : Int64
  sender : List UInt8
  recipient : List UInt8
  type : List UInt8
  compression : Compression
  sequence : YellaSequence
  group : Option ConsoleGroup
  payload : List UInt8
  deriving DecidableEq

def cmpFromFb (fb : FbCompression) : Compression := if fb = .none then .none else .lz4

def gdisFromFb (fgd : FbGroupDisposition) : GroupDisposition :=
  if fgd = .more then .more else .end

/-- The argument of the exception, if the pointer is NULL. -/
def required {α : Type} (message : String) : Option α → Except String α
  | some x => .ok x
  | none => .error message

def consoleGroup : Option FbGroup → Except String (Option ConsoleGroup)
  | none => .ok none
  | some grp => do
    let id ← required "The parcel's group ID is not set" grp.id
    .ok (some { id, disposition := gdisFromFb grp.disposition })

/-- `system_clock::from_time_t`, for a clock that counts nanoseconds in 64 bits. A product that does
not fit is undefined, and wraps here. -/
def fromTimeT (time : UInt64) : Int64 := time.toInt64 * 1000000000

/-- `sequence_.major` is assigned twice, and `sequence_.minor` keeps the value `unset` of memory
that has not been initialized. -/
def consoleParcel (unset : UInt32) (fp : FbParcel) : Except String ConsoleParcel := do
  let sender ← required "The parcel's sender must be set" fp.sender
  let recipient ← required "The parcel's recipient must be set" fp.recipient
  let type ← required "The parcel's type must be set" fp.type
  let seq ← required "The parcel's sequence must be set" fp.seq
  let group ← consoleGroup fp.grp
  let payload ← required "The parcel's payload must be set" fp.payload
  .ok {
    when := fromTimeT fp.secondsSinceEpoch
    sender
    recipient
    type
    compression := cmpFromFb fp.cmp
    sequence := { major := seq.major, minor := unset }
    group
    payload }

/-! ## Agreement with the agent -/

/-- The console's group is the one of the agent. -/
def SameGroup (utf : Utf) (a : YellaGroup) (c : ConsoleGroup) : Prop :=
  a.identifier = utf.fromUtf8 c.id ∧ a.disposition = c.disposition

/-- The fields of both parcels, but for the minor sequence number. The agent counts the
milliseconds of the console's time in a double. -/
structure SameButMinor (utf : Utf) (a : YellaParcel) (c : ConsoleParcel) : Prop where
  time : a.time = .ofUInt64 (c.when.toUInt64 / 1000000)
  sender : a.sender = some (utf.fromUtf8 c.sender)
  recipient : a.recipient = some (utf.fromUtf8 c.recipient)
  type : a.type = utf.fromUtf8 c.type
  compression : a.cmp = c.compression
  major : a.seq.major = c.sequence.major
  group : Option.Rel (SameGroup utf) a.grp c.group
  payload : a.payload = c.payload

/-- Both decoders accept a buffer or none does, and then they read the same, whatever was in
the memory of the console's parcel. -/
def DecodersAgree (utf : Utf) (tbl : FbParcel) : Prop :=
  ∀ unset, ((∃ c, consoleParcel unset tbl = .ok c) ↔ ∃ a, unpackParcel utf tbl = some (some a)) ∧
    ∀ a c, unpackParcel utf tbl = some (some a) → consoleParcel unset tbl = .ok c →
      SameButMinor utf a c ∧ a.seq.minor = c.sequence.minor

section
variable {utf : Utf} {pcl : YellaParcel} {tbl : FbParcel} {unset : UInt32}

/-- What packing always adds, and what it adds only where it is there. -/
structure FbParcel.Packed (pcl : YellaParcel) (tbl : FbParcel) : Prop where
  seconds : tbl.secondsSinceEpoch = UInt64.ofNat ⌊pcl.time⌋₊ / 1000
  sender : ∃ sender, tbl.sender = some sender
  recipient : tbl.recipient.isSome = pcl.recipient.isSome
  type : ∃ type, tbl.type = some type
  seq : ∃ seq, tbl.seq = some seq
  cmp : tbl.cmp ≠ .unknown
  grp : ∀ g ∈ tbl.grp, ∃ id, g.id = some id
  payload : tbl.payload = if pcl.payload.length > 0 then some pcl.payload else none

theorem packRecipient_isSome {recipient : Option UStr} {packed : Option (List UInt8)}
    (h : packRecipient utf recipient = some packed) : packed.isSome = recipient.isSome := by
  cases recipient with
  | none =>
    cases h
    rfl
  | some r =>
    obtain ⟨_, -, rfl⟩ := Option.map_eq_some_iff.mp h
    rfl

theorem packGroupIfPresent_id {grp : Option YellaGroup} {packed : Option FbGroup}
    (h : packGroupIfPresent utf grp = some packed) : ∀ g ∈ packed, ∃ id, g.id = some id := by
  cases grp with
  | none =>
    cases h
    simp
  | some g =>
    obtain ⟨fb, hfb, rfl⟩ := Option.map_eq_some_iff.mp h
    simp only [packGroup, Option.bind_eq_bind, Option.bind_eq_some_iff, Option.some.injEq] at hfb
    obtain ⟨id, -, rfl⟩ := hfb
    rintro _ ⟨⟩
    exact ⟨id, rfl⟩

theorem packParcel_packed (h : packParcel utf pcl = some tbl) : tbl.Packed pcl := by
  simp only [packParcel, Option.bind_eq_bind, Option.bind_eq_some_iff, Option.some.injEq] at h
  obtain ⟨time, htime, -, -, sender, -, recipient, hrecipient, type, -, grp, hgrp, rfl⟩ := h
  constructor
  · rw [UDate.toUInt64, Option.ite_none_right_eq_some, Option.some_inj] at htime
    rw [← htime.2]
  · exact ⟨_, rfl⟩
  · exact packRecipient_isSome hrecipient
  · exact ⟨_, rfl⟩
  · exact ⟨_, rfl⟩
  · cases pcl.cmp <;> simp
  · exact packGroupIfPresent_id hgrp
  · rfl

theorem unpackGroupIfPresent_defined (utf : Utf) {grp : Option FbGroup}
    (h : ∀ g ∈ grp, ∃ id, g.id = some id) :
    ∃ g, unpackGroupIfPresent utf grp = some g := by
  cases grp with
  | none => exact ⟨none, rfl⟩
  | some g =>
    obtain ⟨id, hid⟩ := h g rfl
    exact ⟨_, by simp only [unpackGroupIfPresent, unpackGroup, hid]; rfl⟩

theorem unpackParcel_accepts (h : tbl.Packed pcl) :
    (∃ a, unpackParcel utf tbl = some (some a)) ↔ pcl.recipient.isSome := by
  obtain ⟨sender, hs⟩ := h.sender
  obtain ⟨type, ht⟩ := h.type
  obtain ⟨seq, hq⟩ := h.seq
  obtain ⟨grp, hg⟩ := unpackGroupIfPresent_defined utf h.grp
  rw [← h.recipient]
  cases hr : tbl.recipient with
  | none => simp [unpackParcel, hs, hr]
  | some recipient => simp [unpackParcel, hs, ht, hq, hg, hr]

/-! ### Exceptions -/

theorem except_bind_eq_ok {α β : Type} {x : Except String α} {f : α → Except String β} {b : β} :
    (x >>= f) = .ok b ↔ ∃ a, x = .ok a ∧ f a = .ok b := by
  cases x <;> simp [bind, Except.bind]

theorem required_eq_ok {α : Type} {message : String} {o : Option α} {x : α} :
    required message o = .ok x ↔ o = some x := by
  cases o <;> simp [required]

theorem consoleGroup_accepts {grp : Option FbGroup} (h : ∀ g ∈ grp, ∃ id, g.id = some id) :
    ∃ c, consoleGroup grp = .ok c := by
  cases grp with
  | none => exact ⟨none, rfl⟩
  | some g =>
    obtain ⟨id, hid⟩ := h g rfl
    exact ⟨_, by simp only [consoleGroup, hid]; rfl⟩

theorem consoleParcel_accepts (h : tbl.Packed pcl) :
    (∃ c, consoleParcel unset tbl = .ok c) ↔ pcl.recipient.isSome ∧ pcl.payload ≠ [] := by
  obtain ⟨sender, hs⟩ := h.sender
  obtain ⟨type, ht⟩ := h.type
  obtain ⟨seq, hq⟩ := h.seq
  obtain ⟨grp, hg⟩ := consoleGroup_accepts h.grp
  rw [← h.recipient]
  simp only [consoleParcel, except_bind_eq_ok, required_eq_ok, hs, ht, hq, hg, h.payload]
  cases tbl.recipient <;> cases pcl.payload <;> simp

theorem sameGroup_of_read {grp : Option FbGroup} {a : Option YellaGroup} {c : Option ConsoleGroup}
    (ha : unpackGroupIfPresent utf grp = some a) (hc : consoleGroup grp = .ok c) :
    Option.Rel (SameGroup utf) a c := by
  cases grp with
  | none =>
    cases ha
    cases hc
    exact .none
  | some g =>
    simp only [unpackGroupIfPresent, unpackGroup, Option.bind_eq_bind, Option.map_eq_some_iff,
      Option.bind_eq_some_iff, Option.some.injEq] at ha
    simp only [consoleGroup, except_bind_eq_ok, required_eq_ok, Except.ok.injEq] at hc
    obtain ⟨-, ⟨id, hid, rfl⟩, rfl⟩ := ha
    obtain ⟨id', hid', rfl⟩ := hc
    obtain rfl : id = id' := Option.some.inj (hid ▸ hid')
    exact .some ⟨rfl, rfl⟩

/-- The milliseconds of a time point that does not overflow. -/
theorem fromTimeT_milliseconds {time : UInt64} (small : time.toNat ≤ 9223372036) :
    (fromTimeT time).toUInt64 / 1000000 = time * 1000 := by
  have product : (fromTimeT time).toUInt64 = time * 1000000000 := rfl
  have nanos : time.toNat * 1000000000 % 2 ^ 64 = time.toNat * 1000000000 :=
    Nat.mod_eq_of_lt (by omega)
  have millis : time.toNat * 1000 % 2 ^ 64 = time.toNat * 1000 := Nat.mod_eq_of_lt (by omega)
  rw [product, ← UInt64.toNat_inj, UInt64.toNat_div, UInt64.toNat_mul, UInt64.toNat_mul]
  simp only [UInt64.reduceToNat, nanos, millis]
  omega

theorem FbParcel.Packed.seconds_le (h : tbl.Packed pcl) (inRange : pcl.time < 9223372037000) :
    tbl.secondsSinceEpoch.toNat ≤ 9223372036 := by
  have floor_lt : ⌊pcl.time⌋₊ < 9223372037000 :=
    (Nat.floor_lt' (by decide)).mpr (by exact_mod_cast inRange)
  rw [h.seconds, UInt64.toNat_div, UInt64.toNat_ofNat']
  simp only [UInt64.reduceToNat]
  omega

/-- What both read of one table. -/
theorem sameButMinor_of_read {a : YellaParcel} {c : ConsoleParcel} (known : tbl.cmp ≠ .unknown)
    (small : tbl.secondsSinceEpoch.toNat ≤ 9223372036)
    (ha : unpackParcel utf tbl = some (some a)) (hc : consoleParcel unset tbl = .ok c) :
    SameButMinor utf a c := by
  simp only [consoleParcel, except_bind_eq_ok, required_eq_ok, Except.ok.injEq] at hc
  obtain ⟨sender, hs, recipient, hr, type, ht, seq, hq, group, hg, payload, hp, rfl⟩ := hc
  simp only [unpackParcel, hs, hr, ht, hq, Option.bind_eq_bind, Option.bind_eq_some_iff,
    Option.some.injEq] at ha
  obtain ⟨grp, hgrp, rfl⟩ := ha
  constructor
  · rw [fromTimeT_milliseconds small]
  · rfl
  · rfl
  · rfl
  · cases hcmp : tbl.cmp with
    | none => rfl
    | lz4 => rfl
    | unknown => exact absurd hcmp known
  · rfl
  · exact sameGroup_of_read hgrp hg
  · rw [hp, Option.getD_some]

end

/-- Of the parcels that are packed the console does not accept those without a payload. Of the
others both decoders accept the same, and read the same in them, as long as the time has a time
point. -/
theorem decoders_agree_but_payload (utf : Utf) (unset : UInt32) (pcl : YellaParcel)
    (tbl : FbParcel) (packed : packParcel utf pcl = some tbl)
    (inRange : pcl.time < 9223372037000) :
    ((∃ c, consoleParcel unset tbl = .ok c) ↔
        (∃ a, unpackParcel utf tbl = some (some a)) ∧ pcl.payload ≠ []) ∧
      ∀ a c, unpackParcel utf tbl = some (some a) → consoleParcel unset tbl = .ok c →
        SameButMinor utf a c := by
  have h := packParcel_packed packed
  constructor
  · rw [consoleParcel_accepts h, unpackParcel_accepts h]
  · exact fun a c => sameButMinor_of_read h.cmp (h.seconds_le inRange)

/-- The table of a message of 1500 milliseconds. -/
def shortTable (payload : Option (List UInt8)) : FbParcel where
  secondsSinceEpoch := 1
  sender := some [115]
  recipient := some [114]
  type := some [116]
  cmp := .lz4
  seq := some { major := 75, minor := 57 }
  grp := some { id := some [103], disposition := .end }
  payload := payload

theorem packParcel_short (payload : List UInt8) :
    packParcel asciiUtf { shortParcel 1500 (some [114]) with payload } =
      some (shortTable (if payload.length > 0 then some payload else none)) := by
  have time : UDate.toUInt64 1500 = some 1500 := by
    rw [toUInt64_eq (by norm_num) (by norm_num), Nat.floor_ofNat]
    rfl
  simp only [packParcel, shortParcel, time]
  rfl

theorem decoders_agree_but_payload_short :
    ((∃ c, consoleParcel 0 (shortTable (some [1, 2, 3])) = .ok c) ↔
        (∃ a, unpackParcel asciiUtf (shortTable (some [1, 2, 3])) = some (some a)) ∧
          [1, 2, 3] ≠ ([] : List UInt8)) ∧
      ∀ a c, unpackParcel asciiUtf (shortTable (some [1, 2, 3])) = some (some a) →
        consoleParcel 0 (shortTable (some [1, 2, 3])) = .ok c → SameButMinor asciiUtf a c :=
  decoders_agree_but_payload asciiUtf 0 { shortParcel 1500 (some [114]) with payload := [1, 2, 3] }
    (shortTable (some [1, 2, 3])) (packParcel_short [1, 2, 3]) (by norm_num [shortParcel])

/-- A message without a payload is read by the agent only. -/
theorem console_refuses_empty_payload :
    ∃ tbl, packParcel asciiUtf { shortParcel 1500 (some [114]) with payload := [] } = some tbl ∧
      ¬ DecodersAgree asciiUtf tbl := by
  refine ⟨shortTable none, packParcel_short [], fun h => ?_⟩
  obtain ⟨c, hc⟩ := (h 0).1.mpr ⟨_, rfl⟩
  cases hc

end Yella
