import Mathlib.Algebra.Order.Floor.Semifield
import Mathlib.Data.Rat.Floor
import Yella.Lib.Rounding
import Yella.Element.RoundTrip

/-!
# Parcels

`parcel.c` over the tables of `parcel.fbs`. What two programs send each other is such a
parcel in a flat buffer.
-/

namespace Yella

/-! ## Times -/

/-- A count of milliseconds, the value of a double. -/
abbrev UDate := ℚ

/-- The conversion to `uint64_t`, which is undefined outside of its range. -/
def UDate.toUInt64 (t : UDate) : Option UInt64 :=
  if -1 < t ∧ t < 0x10000000000000000 then some (UInt64.ofNat ⌊t⌋₊) else none

def UDate.ofUInt64 (n : UInt64) : UDate := Rounding.toPrecision 53 n.toNat

/-! ## Parcels and their tables -/

inductive Compression where
  | none
  | lz4
  deriving DecidableEq, Repr

inductive GroupDisposition where
  | more
  | end
  deriving DecidableEq, Repr

structure YellaSequence where
  major : UInt32
  minor : UInt32
  deriving DecidableEq, Repr

structure YellaGroup where
  identifier : UStr
  disposition : GroupDisposition
  deriving DecidableEq, Repr

/-- `sender` and `recipient` may be NULL. -/
structure YellaParcel where
  time : UDate
  sender : Option UStr
  recipient : Option UStr
  type : UStr
  cmp : Compression
  seq : YellaSequence
  grp : Option YellaGroup
  payload : List UInt8
  deriving DecidableEq

/-- `enum compression` of `parcel.fbs`. The reader does not reject other values. -/
inductive FbCompression where
  | none
  | lz4
  | unknown
  deriving DecidableEq, Repr

/-- `enum group_disposition` of `parcel.fbs` -/
inductive FbGroupDisposition where
  | more
  | end
  | unknown
  deriving DecidableEq, Repr

structure FbSequence where
  major : UInt32 := 0
  minor : UInt32 := 0
  deriving DecidableEq, Repr

structure FbGroup where
  id : Option (List UInt8) := none
  disposition : FbGroupDisposition := .more
  deriving DecidableEq, Repr

structure FbParcel where
  secondsSinceEpoch : UInt64 := 0
  sender : Option (List UInt8) := none
  recipient : Option (List UInt8) := none
  type : Option (List UInt8) := none
  cmp : FbCompression := .none
  seq : Option FbSequence := none
  grp : Option FbGroup := none
  payload : Option (List UInt8) := none
  deriving DecidableEq, Repr

section
variable (utf : Utf)

def packGroup (grp : YellaGroup) : Option FbGroup := do
  let id ← utf.toUtf8 grp.identifier
  some { id := some id, disposition := if grp.disposition = .more then .more else .end }

def packGroupIfPresent : Option YellaGroup → Option (Option FbGroup)
  | some grp => (packGroup utf grp).map some
  | none => some none

def packRecipient : Option UStr → Option (Option (List UInt8))
  | some recipient => (utf.toUtf8 recipient).map some
  | none => some none

/-- The result `none` is undefined behaviour, also where a string is not converted. -/
def packParcel (pcl : YellaParcel) : Option FbParcel := do
  let time ← pcl.time.toUInt64
  let sender ← pcl.sender
  let sender ← utf.toUtf8 sender
  let recipient ← packRecipient utf pcl.recipient
  let type ← utf.toUtf8 pcl.type
  let grp ← packGroupIfPresent utf pcl.grp
  some {
    secondsSinceEpoch := time / 1000
    sender := some sender
    recipient
    type := some type
    cmp := if pcl.cmp = .lz4 then .lz4 else .none
    seq := some { major := pcl.seq.major, minor := pcl.seq.minor }
    grp
    payload := if pcl.payload.length > 0 then some pcl.payload else none }

def unpackGroup (grp : FbGroup) : Option YellaGroup := do
  let id ← grp.id
  some {
    identifier := utf.fromUtf8 id
    disposition := if grp.disposition = .more then .more else .end }

def unpackGroupIfPresent : Option FbGroup → Option (Option YellaGroup)
  | some grp => (unpackGroup utf grp).map some
  | none => some none

/-- The result `some none` is NULL; `none` is undefined behaviour. -/
def unpackParcel (tbl : FbParcel) : Option (Option YellaParcel) :=
  match tbl.sender, tbl.recipient, tbl.type, tbl.seq with
  | some sender, some recipient, some type, some seq => do
    let grp ← unpackGroupIfPresent utf tbl.grp
    some (some {
      time := .ofUInt64 (tbl.secondsSinceEpoch * 1000)
      sender := some (utf.fromUtf8 sender)
      recipient := some (utf.fromUtf8 recipient)
      type := utf.fromUtf8 type
      cmp := if tbl.cmp = .lz4 then .lz4 else .none
      seq := { major := seq.major, minor := seq.minor }
      grp
      payload := tbl.payload.getD [] })
  | _, _, _, _ => some none

end

/-! ## The round trip -/

/-- The milliseconds of the whole seconds that have passed. -/
def wholeSeconds (t : UDate) : Nat := ⌊t / 1000⌋₊ * 1000

/-- The strings that are converted. -/
def YellaParcel.strings (pcl : YellaParcel) : List UStr :=
  pcl.sender.toList ++ pcl.recipient.toList ++ [pcl.type] ++
    (pcl.grp.map YellaGroup.identifier).toList

/-- Packing and unpacking gives the same parcel, but with this time. -/
def RoundTripsAt (utf : Utf) (pcl : YellaParcel) (time : UDate) : Prop :=
  ∃ tbl, packParcel utf pcl = some tbl ∧
    unpackParcel utf tbl = some (some { pcl with time })

section
variable {utf : Utf} {t : UDate}

theorem toUInt64_eq (pos : 0 ≤ t) (fits : t < 0x10000000000000000) :
    t.toUInt64 = some (UInt64.ofNat ⌊t⌋₊) :=
  if_pos ⟨by linarith, fits⟩

theorem wholeSeconds_eq (t : UDate) : wholeSeconds t = ⌊t⌋₊ / 1000 * 1000 := by
  have seconds : ⌊t / 1000⌋₊ = ⌊t⌋₊ / 1000 := by exact_mod_cast Nat.floor_div_natCast t 1000
  rw [wholeSeconds, seconds]

theorem toNat_seconds (pos : 0 ≤ t) (fits : t < 0x10000000000000000) :
    (UInt64.ofNat ⌊t⌋₊ / 1000 * 1000).toNat = wholeSeconds t := by
  have floor_lt : ⌊t⌋₊ < 0x10000000000000000 := (Nat.floor_lt pos).mpr (by exact_mod_cast fits)
  rw [wholeSeconds_eq]
  simp only [UInt64.toNat_mul, UInt64.toNat_div, UInt64.toNat_ofNat', UInt64.reduceToNat]
  omega

/-- 1000 is 8 * 125, so that the milliseconds of whole seconds are exact in a double as long as
they have at most 56 binary digits. -/
theorem toPrecision_wholeSeconds (pos : 0 ≤ t) (small : t < 0x100000000000000) :
    Rounding.toPrecision 53 (wholeSeconds t) = wholeSeconds t := by
  have floor_lt : ⌊t⌋₊ < 0x100000000000000 := (Nat.floor_lt pos).mpr (by exact_mod_cast small)
  apply Rounding.toPrecision_of_dvd (k := 3)
  · exact Dvd.dvd.mul_left (by decide) _
  · rw [wholeSeconds_eq]
    omega

theorem unpackGroup_packGroup {grp : YellaGroup} (h : utf.InverseOn [grp.identifier]) :
    ∃ fb, packGroup utf grp = some fb ∧ unpackGroup utf fb = some grp := by
  obtain ⟨identifier, disposition⟩ := grp
  obtain ⟨id, to_id, back⟩ := h.back (s := identifier) (by simp)
  refine ⟨_, by simp only [packGroup, to_id]; rfl, ?_⟩
  cases disposition <;> simp [unpackGroup, back]

theorem unpackGroupIfPresent_packGroup (grp : Option YellaGroup)
    (h : utf.InverseOn (grp.map YellaGroup.identifier).toList) :
    ∃ fb, packGroupIfPresent utf grp = some fb ∧ unpackGroupIfPresent utf fb = some grp := by
  cases grp with
  | none => exact ⟨none, rfl, rfl⟩
  | some g =>
    obtain ⟨fb, packed, back⟩ := unpackGroup_packGroup h
    exact ⟨some fb, by simp [packGroupIfPresent, packed], by simp [unpackGroupIfPresent, back]⟩

theorem unpackParcel_packParcel (utf : Utf) (pcl : YellaParcel) (hs : pcl.sender.isSome)
    (hr : pcl.recipient.isSome) (pos : 0 ≤ pcl.time)
    (fits : pcl.time < 0x10000000000000000) (inverse : utf.InverseOn pcl.strings) :
    RoundTripsAt utf pcl (Rounding.toPrecision 53 (wholeSeconds pcl.time)) := by
  obtain ⟨time, _, _, type, cmp, seq, grp, payload⟩ := pcl
  obtain ⟨sender, rfl⟩ := Option.isSome_iff_exists.mp hs
  obtain ⟨recipient, rfl⟩ := Option.isSome_iff_exists.mp hr
  obtain ⟨_, to_sender, sender_back⟩ := inverse.back (s := sender) (by simp [YellaParcel.strings])
  obtain ⟨_, to_recipient, recipient_back⟩ :=
    inverse.back (s := recipient) (by simp [YellaParcel.strings])
  obtain ⟨_, to_type, type_back⟩ := inverse.back (s := type) (by simp [YellaParcel.strings])
  obtain ⟨_, to_grp, grp_back⟩ := unpackGroupIfPresent_packGroup grp
    (inverse.of_subset (List.subset_append_right _ _))
  refine ⟨_, by simp only [packParcel, packRecipient, toUInt64_eq pos fits, to_sender,
    to_recipient, to_type, to_grp, Option.bind_eq_bind, Option.bind_some, Option.map_some]; rfl, ?_⟩
  simp only [unpackParcel, grp_back, sender_back, recipient_back, type_back,
    UDate.ofUInt64, toNat_seconds pos fits, Option.bind_eq_bind, Option.bind_some]
  cases cmp <;> cases payload <;> rfl

end

/-- The round trip of a parcel that has a recipient. The time is rounded to a double at the end,
which changes nothing below 2 to the power of 56. -/
theorem parcel_round_trips (utf : Utf) (pcl : YellaParcel) (sender : pcl.sender.isSome)
    (recipient : pcl.recipient.isSome) (pos : 0 ≤ pcl.time)
    (fits : pcl.time < 0x10000000000000000) (inverse : utf.InverseOn pcl.strings) :
    RoundTripsAt utf pcl (Rounding.toPrecision 53 (wholeSeconds pcl.time)) ∧
      (pcl.time < 0x100000000000000 → RoundTripsAt utf pcl (wholeSeconds pcl.time)) := by
  have rounded := unpackParcel_packParcel utf pcl sender recipient pos fits inverse
  refine ⟨rounded, fun small => ?_⟩
  rwa [toPrecision_wholeSeconds pos small] at rounded

/-- The parcel of a short message from `s` to `r`, in its group `g`. -/
def shortParcel (time : UDate) (recipient : Option UStr) : YellaParcel where
  time := time
  sender := some [115]
  recipient := recipient
  type := [116]
  cmp := .lz4
  seq := { major := 75, minor := 57 }
  grp := some { identifier := [103], disposition := .end }
  payload := [1, 2, 3]

theorem parcel_round_trips_short :
    RoundTripsAt asciiUtf (shortParcel 1500 (some [114])) (wholeSeconds 1500) :=
  (parcel_round_trips asciiUtf (shortParcel 1500 (some [114])) rfl rfl (by norm_num [shortParcel])
    (by norm_num [shortParcel]) (by decide)).2 (by norm_num [shortParcel])

/-- Without a recipient there is no parcel afterwards, and the whole seconds of
2 to the power of 57 milliseconds are no double. -/
theorem parcel_round_trip_fails :
    ¬ RoundTripsAt asciiUtf (shortParcel 1500 none) (wholeSeconds 1500) ∧
    ¬ RoundTripsAt asciiUtf (shortParcel 144115188075855872 (some [114]))
      (wholeSeconds 144115188075855872) := by
  constructor
  · rintro ⟨tbl, packed, unpacked⟩
    simp only [packParcel, shortParcel, toUInt64_eq (show (0 : ℚ) ≤ 1500 by norm_num)
      (by norm_num)] at packed
    cases packed
    cases unpacked
  · rintro ⟨tbl, packed, unpacked⟩
    obtain ⟨tbl', packed', unpacked'⟩ := unpackParcel_packParcel asciiUtf
      (shortParcel 144115188075855872 (some [114])) rfl rfl (by norm_num [shortParcel])
      (by norm_num [shortParcel]) (by decide)
    obtain rfl : tbl = tbl' := Option.some.inj (packed ▸ packed')
    rw [unpacked] at unpacked'
    simp only [Option.some.injEq, YellaParcel.mk.injEq, and_true, shortParcel] at unpacked'
    have floor : wholeSeconds 144115188075855872 = 144115188075855000 := by
      rw [wholeSeconds_eq, Nat.floor_ofNat]
    rw [floor] at unpacked'
    have : (144115188075855000 : ℕ) = Rounding.toPrecision 53 144115188075855000 :=
      by exact_mod_cast unpacked'
    revert this
    decide

end Yella
