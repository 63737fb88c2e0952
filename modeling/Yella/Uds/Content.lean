import Yella.Uds.Model

/-!
# What a string holds

A string of `uds.c` stands for a list of units. Each function does to the list what its name
says, stays inside of the block and keeps the fields of the header large enough.
-/

namespace Yella.Uds

/-- The header and the block have room for this many units and the terminator. -/
structure Room (s : Uds) (n : ℕ) : Prop where
  short : s.type = .type5 → n < 32
  header : s.type ≠ .type5 →
    n ≤ s.alloc ∧ s.alloc < 2 ^ s.type.bits ∧ s.alloc + 1 ≤ s.buf.size
  block : n + 1 ≤ s.buf.size

structure Is (s : Uds) (l : UStr) : Prop where
  len : s.len = l.length
  holds : s.buf.Holds (l ++ [0])
  room : s.Room l.length

/-- Lengths that ICU can count, also after a string has been given more room. -/
def Moderate (n : ℕ) : Prop := n < 2 ^ 30

instance decidableModerate (n : ℕ) : Decidable (Moderate n) :=
  inferInstanceAs (Decidable (n < 2 ^ 30))

section
variable {s t : Uds} {l m : UStr} {n k : ℕ} {c : UChar}

theorem Room.mono (h : s.Room n) (le : k ≤ n) : s.Room k where
  short five := lt_of_le_of_lt le (h.short five)
  header other := ⟨le.trans (h.header other).1, (h.header other).2⟩
  block := by
    have := h.block
    omega

theorem Room.lt_bits (h : s.Room n) : n < 2 ^ s.type.bits := by
  by_cases five : s.type = .type5
  · have := h.short five
    rw [five, UdsType.bits]
    omega
  · obtain ⟨le, lt, -⟩ := h.header five
    omega

theorem Room.setlen (h : s.Room n) (k : ℕ) : (s.udssetlen k).Room n := ⟨h.short, h.header, h.block⟩

theorem len_udssetlen (h : s.Room n) : (s.udssetlen n).len = n := Nat.mod_eq_of_lt h.lt_bits

/-- The header and the room for a string do not depend on the units in the block. -/
theorem Room.withBuf (h : s.Room n) {buf : Buffer UChar} (size : buf.size = s.buf.size) :
    ({ s with buf } : Uds).Room n where
  short := h.short
  header := by
    rw [size]
    exact h.header
  block := by
    rw [size]
    exact h.block

theorem Room.put (h : s.Room n) (hold : s.buf.Holds l) (fits : l.length ≤ n) (c : UChar) :
    ∃ t, s.put l.length c = some t ∧ t.buf.Holds (l ++ [c]) ∧ t.Room n ∧ t.len = s.len ∧
      t.type = s.type ∧ t.alloc = s.alloc := by
  have block := h.block
  obtain ⟨buf, written, held, size⟩ := hold.write_end (by omega) c
  exact ⟨_, by rw [Uds.put, written]; rfl, held, h.withBuf size, rfl, rfl, rfl⟩

theorem Room.putAll (h : s.Room n) (hold : s.buf.Holds l) (fits : l.length + m.length ≤ n + 1)
    (counted : m.length < 2 ^ 31) :
    ∃ t, s.putAll l.length m = some t ∧ t.buf.Holds (l ++ m) ∧ t.Room n ∧ t.len = s.len ∧
      t.type = s.type ∧ t.alloc = s.alloc := by
  have block := h.block
  obtain ⟨buf, written, held, size⟩ := hold.writeAll_end (m := m) (by omega)
  have all : m.take (unitCount m.length) = m := by rw [unitCount_of_lt counted, List.take_length]
  exact ⟨_, by rw [Uds.putAll, all, written]; rfl, held, h.withBuf size, rfl, rfl, rfl⟩

theorem Room.is_setlen (h : s.Room l.length) (hold : s.buf.Holds (l ++ [0])) :
    (s.udssetlen l.length).Is l := ⟨len_udssetlen h, hold, h.setlen _⟩

theorem Is.content (h : s.Is l) : s.buf.Holds l := h.holds.left

theorem Is.alloc_ge (h : s.Is l) : l.length ≤ s.udsalloc := by
  unfold udsalloc
  split
  · rw [h.len]
  · rename_i other
    exact (h.room.header other).1

theorem Is.room_alloc (h : s.Is l) : s.Room s.udsalloc := by
  unfold udsalloc
  split
  · rw [h.len]
    exact h.room
  · rename_i other
    obtain ⟨-, lt, block⟩ := h.room.header other
    exact ⟨fun five => absurd five other, fun _ => ⟨Nat.le_refl _, lt, block⟩, block⟩

theorem Is.udsavail_eq (h : s.Is l) : s.udsavail = s.udsalloc - l.length := by
  have len := h.len
  by_cases five : s.type = .type5
  · simp [udsavail, Uds.room, udsalloc, five, len]
  · obtain ⟨le, lt, -⟩ := h.room.header five
    unfold udsavail Uds.room udsalloc
    rw [if_neg five, len]
    cases eq : s.type with
    | type5 => exact absurd eq five
    | type8 =>
      rw [eq, UdsType.bits] at lt
      simp only
      omega
    | type16 =>
      rw [eq, UdsType.bits] at lt
      simp only
      omega
    | type32 =>
      rw [eq, UdsType.bits] at lt
      simp only
      omega
    | type64 =>
      rw [eq, UdsType.bits] at lt
      simp only
      omega

/-! ## The types of header -/

theorem udsReqType_lt (h : n < 2 ^ 64) : n < 2 ^ (udsReqType n).bits := by
  unfold udsReqType
  split
  · simp only [UdsType.bits]
    omega
  · split
    · assumption
    · split
      · assumption
      · split <;> assumption

theorem udsReqType_type5 (h : udsReqType n = .type5) : n < 32 := by
  unfold udsReqType at h
  split at h
  · assumption
  · repeat' split at h
    all_goals cases h

theorem forAppend_ne (type : UdsType) : type.forAppend ≠ .type5 := by
  cases type <;> simp [UdsType.forAppend]

theorem forAppend_lt (h : n < 2 ^ 64) : n < 2 ^ (udsReqType n).forAppend.bits := by
  cases eq : udsReqType n with
  | type5 =>
    have := udsReqType_type5 eq
    simp only [UdsType.forAppend, UdsType.bits]
    omega
  | _ =>
    have := udsReqType_lt h
    rw [eq] at this
    exact this

/-! ## More room -/

/-- The units that are asked for when there is not enough room. -/
def roomFor (needed : ℕ) : ℕ :=
  if needed < udsMaxPrealloc then needed * 2 else needed + udsMaxPrealloc

theorem le_roomFor (n : ℕ) : n ≤ roomFor n := by
  unfold roomFor
  split <;> omega

theorem roomFor_lt (h : n < 2 ^ 30) : roomFor n < 2 ^ 31 := by
  unfold roomFor udsMaxPrealloc
  split <;> omega

/-- The units and the terminator are copied to a new block. -/
theorem Is.copied (h : s.Is l) (counted : l.length + 1 < 2 ^ 31) (fits : l.length ≤ n) :
    ∃ buf, (Buffer.malloc (n + 1)).copy s.buf (unitCount (l.length + 1)) = some buf ∧
      buf.Holds (l ++ [0]) ∧ buf.size = n + 1 := by
  have content : (l ++ [0]).length = l.length + 1 := by simp
  obtain ⟨buf, copied, hold, size⟩ := h.holds.copy (b := .malloc (n + 1)) (by
    rw [Buffer.size_malloc]
    omega)
  rw [content] at copied
  rw [Buffer.size_malloc] at size
  exact ⟨buf, by rw [unitCount_of_lt counted, copied], hold, size⟩

/-- The header of a string in a block with room for `n` units is told so. -/
theorem udssetalloc_is (other : s.type ≠ .type5) (fits : n < 2 ^ s.type.bits)
    (len : s.len = l.length) (hold : s.buf.Holds (l ++ [0])) (size : s.buf.size = n + 1)
    (le : l.length ≤ n) :
    (s.udssetalloc n).Is l ∧ (s.udssetalloc n).Room n ∧ (s.udssetalloc n).type = s.type ∧
      (s.udssetalloc n).udsalloc = n := by
  have told : s.udssetalloc n = ⟨s.type, s.len, n, s.buf⟩ := by
    rw [udssetalloc, if_neg other, Nat.mod_eq_of_lt fits]
  have room : (⟨s.type, s.len, n, s.buf⟩ : Uds).Room n :=
    ⟨fun five => absurd five other, fun _ => ⟨Nat.le_refl _, fits, size.ge⟩, size.ge⟩
  rw [told]
  exact ⟨⟨len, hold, room.mono le⟩, room, rfl, if_neg other⟩

/-- There is no room in a string of type 5, so it moves. -/
theorem udsMakeRoomFor_spec (h : s.Is l) (moderate : Moderate (l.length + k)) :
    ∃ t, s.udsMakeRoomFor k = some t ∧ t.Is l ∧ t.Room (l.length + k) ∧
      (0 < k → t.type ≠ .type5) ∧
      t.udsalloc = if l.length + k ≤ s.udsalloc then s.udsalloc else roomFor (l.length + k) := by
  unfold Moderate at moderate
  have ge := h.alloc_ge
  by_cases enough : l.length + k ≤ s.udsalloc
  · refine ⟨s, ?_, h, h.room_alloc.mono enough, fun some five => ?_, by rw [if_pos enough]⟩
    · rw [udsMakeRoomFor, if_pos]
      rw [h.udsavail_eq]
      omega
    · have len := h.len
      simp only [udsalloc, five, if_true] at enough
      omega
  · have short : ¬ k ≤ s.udsavail := by
      rw [h.udsavail_eq]
      omega
    have whole : (l.length + k) % 2 ^ 64 = l.length + k := Nat.mod_eq_of_lt (by omega)
    have more := le_roomFor (l.length + k)
    have small := roomFor_lt moderate
    have fits := forAppend_lt (n := roomFor (l.length + k)) (by omega)
    rw [udsMakeRoomFor, if_neg short, if_neg enough]
    simp only [udslen, h.len, whole]
    rw [← roomFor]
    generalize roomFor (l.length + k) = room at *
    by_cases same : s.type = (udsReqType room).forAppend
    · rw [if_pos same]
      have other : s.type ≠ .type5 := same ▸ forAppend_ne _
      have grown : udsRealloc s.buf (room + 1) = some (s.buf.realloc (room + 1)) :=
        if_pos (by omega)
      have hold : (s.buf.realloc (room + 1)).Holds (l ++ [0]) := by
        apply h.holds.realloc
        simp
        omega
      obtain ⟨is, roomy, type, alloc⟩ :=
        udssetalloc_is (s := { s with buf := s.buf.realloc (room + 1) }) other (same ▸ fits) h.len
          hold (Buffer.size_realloc _ _) (by omega)
      exact ⟨_, by rw [grown, ← h.len]; rfl, is, roomy.mono more,
        fun _ => ne_of_eq_of_ne type other, alloc⟩
    · rw [if_neg same]
      have other := forAppend_ne (udsReqType room)
      have given : udsMalloc (room + 1) = some (.malloc (room + 1)) := if_pos (by omega)
      obtain ⟨buf, copied, hold, size⟩ := h.copied (n := room) (by omega) (by omega)
      have len : l.length % 2 ^ (udsReqType room).forAppend.bits = l.length :=
        Nat.mod_eq_of_lt (by omega)
      obtain ⟨is, roomy, type, alloc⟩ :=
        udssetalloc_is (s := ({ s with type := (udsReqType room).forAppend, buf } : Uds).udssetlen
          l.length) other fits len hold size (by omega)
      refine ⟨_, ?_, is, roomy.mono more, fun _ => ne_of_eq_of_ne type other, alloc⟩
      rw [given, Option.bind_eq_bind, Option.bind_some, copied]
      rfl

/-! ## The functions -/

theorem Room.finish (h : s.Room l.length) (hold : s.buf.Holds l) :
    ∃ t, (s.udssetlen l.length).put l.length 0 = some t ∧ t.Is l ∧ t.type = s.type ∧
      t.alloc = s.alloc := by
  obtain ⟨t, written, held, room, len, type, alloc⟩ :=
    (h.setlen l.length).put hold (Nat.le_refl _) 0
  exact ⟨t, written, ⟨len.trans (len_udssetlen h), held, room⟩, type, alloc⟩

theorem Room.terminate (h : s.Room l.length) (hold : s.buf.Holds l) :
    ∃ t, s.put l.length 0 = some t ∧ (t.udssetlen l.length).Is l := by
  obtain ⟨t, written, held, room, -⟩ := h.put hold (Nat.le_refl _) 0
  exact ⟨t, written, room.is_setlen held⟩

theorem udsnewlen_spec (m : UStr) (moderate : Moderate l.length) :
    ∃ s, udsnewlen (some (l ++ m)) l.length = some s ∧ s.Is l := by
  unfold Moderate at moderate
  generalize eq : (if l.length = 0 then (udsReqType l.length).forAppend
    else udsReqType l.length) = type
  have fits : l.length < 2 ^ type.bits := by
    subst eq
    split
    · exact forAppend_lt (by omega)
    · exact udsReqType_lt (by omega)
  have short (five : type = .type5) : l.length < 32 := by
    subst five
    split at eq
    · exact absurd eq (forAppend_ne _)
    · exact udsReqType_type5 eq
  have given : udsMalloc (l.length + 1) = some (.malloc (l.length + 1)) := if_pos (by omega)
  have room : (⟨type, l.length, l.length, .malloc (l.length + 1)⟩ : Uds).Room l.length :=
    ⟨short, fun _ => ⟨Nat.le_refl _, fits, by rw [Buffer.size_malloc]⟩,
      by rw [Buffer.size_malloc]⟩
  obtain ⟨t, written, held, room, len, -⟩ :=
    room.putAll (m := l) (Buffer.holds_nil _) (by simp) (by omega)
  obtain ⟨u, ended, held, room, len', -⟩ := room.put held (by simp) 0
  refine ⟨u, ?_, len'.trans len, held, room⟩
  have count : unitCount l.length = l.length := unitCount_of_lt (by omega)
  simp only [udsnewlen, eq, given, Option.bind_eq_bind, Option.bind_some, reduceCtorEq, if_false,
    Nat.mod_eq_of_lt fits, count]
  rw [List.nil_append] at ended
  rw [List.length_nil] at written
  rw [if_pos (by simp), List.take_left, written, Option.bind_some, ended]

theorem udsempty_spec : ∃ s, udsempty = some s ∧ s.Is [] := by
  refine ⟨⟨.type8, 0, 0, ⟨[some 0]⟩⟩, rfl, rfl, ⟨[], rfl⟩, ?_, ?_, ?_⟩
  · simp
  · exact fun _ => ⟨Nat.le_refl _, by decide, by decide⟩
  · decide

theorem udscatlen_spec (h : s.Is l) (moderate : Moderate (l.length + m.length)) :
    ∃ t, s.udscatlen m = some t ∧ t.Is (l ++ m) ∧
      t.udsalloc = if l.length + m.length ≤ s.udsalloc then s.udsalloc
        else roomFor (l.length + m.length) := by
  obtain ⟨u, roomy, is, room, typed, alloc⟩ := udsMakeRoomFor_spec h moderate
  obtain ⟨v, written, held, room, -, type, alloc'⟩ :=
    room.putAll is.content (Nat.le_succ _) (by unfold Moderate at moderate; omega)
  rw [← List.length_append] at room
  obtain ⟨t, ended, is', type', alloc''⟩ := room.finish held
  refine ⟨t, ?_, is', ?_⟩
  · rw [udscatlen, roomy, udslen, h.len, Option.bind_eq_bind, Option.bind_some, written,
      Option.bind_some, ← List.length_append, ended]
  · rw [← alloc, udsalloc, udsalloc, type', type]
    split
    · -- Only nothing is appended without a move to a string of type 5.
      rename_i five
      have nothing : m.length = 0 := by
        by_contra some'
        exact typed (Nat.pos_of_ne_zero some') five
      rw [is'.len, is.len, List.length_append, nothing, Nat.add_zero]
    · rw [alloc'', alloc']

theorem udscpylen_spec (h : s.Is l) (moderate : Moderate (max l.length m.length)) :
    ∃ t, s.udscpylen m = some t ∧ t.Is m := by
  unfold Moderate at moderate
  have enough : ∃ u, s.roomToCopy m.length = some u ∧ u.Room m.length := by
    unfold roomToCopy
    split
    · have ge := h.alloc_ge
      have sum : l.length + (m.length - l.length) = m.length := by omega
      have small : Moderate (l.length + (m.length - l.length)) := by
        unfold Moderate
        omega
      obtain ⟨u, roomy, -, room, -⟩ := udsMakeRoomFor_spec h small
      exact ⟨u, by rw [udslen, h.len, roomy], sum ▸ room⟩
    · exact ⟨s, rfl, h.room_alloc.mono (by omega)⟩
  obtain ⟨u, roomy, room⟩ := enough
  obtain ⟨v, written, held, room, -⟩ :=
    room.putAll (m := m) (Buffer.holds_nil _) (by simp) (by omega)
  obtain ⟨t, ended, is⟩ := room.terminate held
  refine ⟨_, ?_, is⟩
  rw [List.length_nil] at written
  rw [udscpylen, roomy, Option.bind_eq_bind, Option.bind_some, written, Option.bind_some, ended]
  rfl

theorem udsgrowzero_spec (h : s.Is l) (moderate : Moderate (max l.length n)) :
    ∃ t, s.udsgrowzero n = some t ∧ t.Is (l ++ List.replicate (n - l.length) 0) := by
  unfold Moderate at moderate
  unfold udsgrowzero
  rw [udslen, h.len]
  by_cases le : n ≤ l.length
  · refine ⟨s, if_pos le, ?_⟩
    rwa [Nat.sub_eq_zero_of_le le, List.replicate_zero, List.append_nil]
  · rw [if_neg le]
    have sum : l.length + (n - l.length) = n := by omega
    have small : Moderate (l.length + (n - l.length)) := by
      unfold Moderate
      omega
    obtain ⟨u, roomy, is, room, -⟩ := udsMakeRoomFor_spec h small
    rw [sum] at room
    have zeros : (List.replicate (n - l.length + 1) 0 : UStr) =
        List.replicate (n - l.length) 0 ++ [0] := List.replicate_succ'
    obtain ⟨v, written, held, room, -⟩ := room.putAll (m := List.replicate (n - l.length + 1) 0)
      is.content (by rw [List.length_replicate]; omega) (by rw [List.length_replicate]; omega)
    rw [zeros, ← List.append_assoc] at held
    have len : (l ++ List.replicate (n - l.length) 0).length = n := by simp; omega
    have is' := (len.symm ▸ room).is_setlen held
    rw [len] at is'
    refine ⟨_, ?_, is'⟩
    rw [roomy, Option.bind_eq_bind, Option.bind_some, written]
    rfl

theorem udsclear_spec (h : s.Is l) : ∃ t, s.udsclear = some t ∧ t.Is [] := by
  have room : s.Room ([] : UStr).length := h.room.mono (Nat.zero_le _)
  obtain ⟨t, ended, is, -⟩ := room.finish (Buffer.holds_nil _)
  exact ⟨t, ended, is⟩

theorem udsdup_spec (h : s.Is l) (moderate : Moderate l.length) :
    ∃ t, s.udsdup = some t ∧ t.Is l := by
  have read : units s.buf (unitCount s.udslen) = some l := by
    unfold Moderate at moderate
    rw [units, udslen, h.len, unitCount_of_lt (by omega), h.content.mapM_read]
  obtain ⟨t, new, is⟩ := udsnewlen_spec (l := l) [] moderate
  rw [List.append_nil] at new
  refine ⟨t, ?_, is⟩
  rw [udsdup, read, udslen, h.len]
  exact new

/-- The search for the terminator, from behind these units on. -/
theorem uStrlen_spec {buf : Buffer UChar} (hold : buf.Holds (m ++ l ++ [0])) {fuel : ℕ}
    (enough : l.length < fuel) : uStrlen buf m.length fuel = some (l.takeWhile (· ≠ 0)).length := by
  induction l generalizing m fuel with
  | nil =>
    obtain ⟨fuel, rfl⟩ : ∃ k, fuel = k + 1 := ⟨fuel - 1, by simp at enough; omega⟩
    have here : buf.read m.length = some 0 := by
      rw [hold.read (by simp)]
      simp
    simp [uStrlen, here]
  | cons c l ih =>
    obtain ⟨fuel, rfl⟩ : ∃ k, fuel = k + 1 := ⟨fuel - 1, by simp at enough; omega⟩
    have here : buf.read m.length = some c := by
      rw [hold.read (by simp)]
      simp
    have next := ih (m := m ++ [c]) (by simpa using hold) (Nat.lt_of_succ_lt_succ enough)
    rw [List.length_append, List.length_singleton] at next
    by_cases zero : c = 0
    · simp [uStrlen, here, zero]
    · simp [uStrlen, here, zero, next]

theorem udsupdatelen_spec (h : s.Is l) (moderate : Moderate l.length) :
    ∃ t, s.udsupdatelen = some t ∧ t.Is (l.takeWhile (· ≠ 0)) := by
  have scan : uStrlen s.buf 0 s.buf.size = some (l.takeWhile (· ≠ 0)).length := by
    apply uStrlen_spec (m := []) h.holds
    have := h.room.block
    omega
  have le : (l.takeWhile (· ≠ 0)).length ≤ l.length := (List.takeWhile_sublist _).length_le
  refine ⟨s.udssetlen (l.takeWhile (· ≠ 0)).length, ?_, (h.room.mono le).is_setlen ?_⟩
  · unfold Moderate at moderate
    rw [udsupdatelen, scan, Option.bind_eq_bind, Option.bind_some, sizeOfLength_of_lt (by omega)]
  · -- The units that are kept are followed by a 0, be it the old terminator.
    have split : l.takeWhile (· ≠ 0) ++ l.dropWhile (· ≠ 0) = l := List.takeWhile_append_dropWhile
    cases rest : l.dropWhile (· ≠ 0) with
    | nil =>
      rw [rest, List.append_nil] at split
      rw [split]
      exact h.holds
    | cons c rest' =>
      have zero : c = 0 := by
        have := List.head?_dropWhile_not (fun c : UChar => c ≠ 0) l
        rw [rest] at this
        simpa using this
      rw [rest, zero] at split
      have hold := h.holds
      rw [← split] at hold
      apply Buffer.Holds.left (m := rest' ++ [0])
      simpa using hold

/-! ## Joining -/

theorem joinLoop_spec (sep : UStr) (h : s.Is l) {args : List UStr}
    (moderate : Moderate (l ++ sep.intercalate args).length) :
    ∃ t, joinLoop sep s args = some t ∧ t.Is (l ++ sep.intercalate args) := by
  induction args generalizing s l with
  | nil => exact ⟨s, rfl, by simpa using h⟩
  | cons arg args ih =>
    cases args with
    | nil =>
      rw [List.intercalate_singleton] at moderate ⊢
      obtain ⟨t, eq, is, -⟩ := udscatlen_spec h (by rwa [← List.length_append])
      exact ⟨t, eq, is⟩
    | cons next args =>
      have parts : l ++ sep.intercalate (arg :: next :: args) =
          l ++ arg ++ sep ++ sep.intercalate (next :: args) := by
        simp [List.intercalate]
      rw [parts] at moderate ⊢
      have whole := moderate
      simp only [Moderate, List.length_append] at moderate
      obtain ⟨u, eq, is, -⟩ := udscatlen_spec h (show Moderate (l.length + arg.length) by
        unfold Moderate
        omega)
      obtain ⟨v, eq', is', -⟩ := udscatlen_spec is (m := sep) (by
        unfold Moderate
        rw [List.length_append]
        omega)
      obtain ⟨t, rest, is''⟩ := ih is' whole
      refine ⟨t, ?_, is''⟩
      rw [joinLoop, eq, Option.bind_eq_bind, Option.bind_some, eq', Option.bind_some, rest]
      simp

/-- Strings are joined with the separator between them. -/
theorem udsjoinuds_spec (argv : List UStr) (sep : UStr)
    (moderate : Moderate (sep.intercalate argv).length) :
    ∃ t, udsjoinuds argv sep = some t ∧ t.Is (sep.intercalate argv) := by
  obtain ⟨s, empty, is⟩ := udsempty_spec
  obtain ⟨t, joined, is'⟩ := joinLoop_spec sep is moderate
  refine ⟨t, ?_, is'⟩
  rw [udsjoinuds, empty, Option.bind_eq_bind, Option.bind_some, joined]

end

end Yella.Uds
