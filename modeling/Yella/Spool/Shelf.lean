import Mathlib.Algebra.Ring.Nat
import Mathlib.Data.List.Perm.Basic
import Yella.Spool.Find

/-!
# The partitions in a directory

Partitions in the order of their positions, whatever they hold. What the functions of the spool
that go through the directory find there.
-/

namespace Yella

/-- The directory holds these partitions, in the order of their positions. -/
structure Shelf (disk : Disk) (ps : List (SpoolPos × Nat)) : Prop where
  dir : disk.dir = ps.map entryOf
  fits : ∀ p ∈ ps, p.1.Fits ∧ 0 < p.1.majorSeq
  spoolFile : ∀ p ∈ ps, isSpoolFile (disk.files p.2) = true
  order : ps.Pairwise (fun p q => p.1 < q.1)
  apart : ps.Pairwise (fun p q => p.2 ≠ q.2)
  fresh : ∀ p ∈ ps, p.2 < disk.next

/-- The bytes of these partitions. -/
def shelfSize (disk : Disk) (ps : List (SpoolPos × Nat)) : Nat :=
  (ps.map (fun p => (disk.files p.2).length)).sum

/-- The partitions that hold more than the id. -/
def filled (disk : Disk) (ps : List (SpoolPos × Nat)) : List (SpoolPos × Nat) :=
  ps.filter (fun p => (disk.files p.2).length ≠ headerSize)

/-- The position of the writer that starts after these partitions. -/
def newPos (ps : List (SpoolPos × Nat)) : SpoolPos :=
  match ps.getLast? with
  | none => ⟨1, 1⟩
  | some p => ⟨p.1.majorSeq + 1, 1⟩

/-! ## Single files -/

@[simp] theorem header_length : header.length = headerSize := by
  simp [header]

theorem remove_getD (d : Disk) (name : UStr) :
    (d.remove name).getD d = { d with dir := d.dir.filter (fun e => e.1 ≠ name) } := by
  cases h : d.lookup name with
  | some f => simp [Disk.remove, h]
  | none =>
    have absent : ∀ e ∈ d.dir, e.1 ≠ name := by
      simpa [Disk.lookup] using h
    have : d.dir.filter (fun e => e.1 ≠ name) = d.dir :=
      List.filter_eq_self.mpr fun e he => decide_eq_true (absent e he)
    simp only [Disk.remove, h, Option.map_none, Option.getD_none, this]

/-- Removing files one after the other. -/
theorem removeAll (es : List (UStr × Nat)) (disk : Disk) :
    es.foldl (fun d e => (d.remove e.1).getD d) disk =
      { disk with dir := disk.dir.filter (fun e => !(es.any (fun r => r.1 = e.1))) } := by
  induction es generalizing disk with
  | nil => simp
  | cons e es ih =>
    rw [List.foldl_cons, remove_getD, ih]
    simp only [List.filter_filter, List.any_cons]
    congr 1
    apply List.filter_congr
    intro r _
    by_cases h : e.1 = r.1
    · simp [h]
    · simp [h, Ne.symm h]

/-- A new partition, which only holds the id. -/
theorem incrementWriteSpoolPartition_eq {sp : Spool} {allow : Allowance} {pos : SpoolPos}
    (hpos : pos = { sp.writePos with minorSeq := sp.writePos.minorSeq + 1 })
    (fits : pos.minorSeq < 0x100000000) (fresh : sp.disk.lookup (spoolFileName pos) = none)
    (opens : allow.opens = true) (room : allow.grant headerSize = headerSize) :
    incrementWriteSpoolPartition sp allow = some ({ sp with
      writePos := pos
      disk := {
        dir := sp.disk.dir ++ [(spoolFileName pos, sp.disk.next)]
        files := Function.update sp.disk.files sp.disk.next header
        next := sp.disk.next + 1 }
      writef := some { file := sp.disk.next, off := headerSize, eof := false }
      writeFileName := some (spoolFileName pos)
      stats := { sp.stats with
        currentSize := sp.stats.currentSize + UInt64.ofNat headerSize
        filesCreated := sp.stats.filesCreated + 1 } }, allow.spend headerSize, true) := by
  have wrap : ({ sp.writePos with
      minorSeq := (sp.writePos.minorSeq + 1) % 0x100000000 } : SpoolPos) = pos := by
    rw [hpos] at fits ⊢
    rw [Nat.mod_eq_of_lt fits]
  have written : Disk.overwrite [] 0 (header.take headerSize) = header := by decide
  simp only [incrementWriteSpoolPartition, wrap, opens, ↓reduceIte, Disk.openWrite, fresh,
    writeOut, Option.bind_eq_bind, Option.bind_some, header_length, room, Disk.fwrite,
    Function.update_self, written, Function.update_idem, ne_eq, not_true_eq_false]
  simp

/-! ## Partitions without an event -/

section
variable {lo : ListingOrder} {disk : Disk} {ps : List (SpoolPos × Nat)} {m : SpoolPos × Nat}

/-- The partitions without an event have their own names. -/
theorem Listed.empty_name (h : Listed disk ps) (n : Nat) (hm : m ∈ ps) :
    (((lo.order n disk.dir).filter fun e =>
      isSpoolFile (disk.files e.2) && (disk.files e.2).length = headerSize).any
        (fun e => e.1 = spoolFileName m.1)) = decide ((disk.files m.2).length = headerSize) := by
  rw [Bool.eq_iff_iff, List.any_eq_true, decide_eq_true_eq]
  constructor
  · rintro ⟨e, he, hname⟩
    obtain ⟨he, hempty⟩ := List.mem_filter.mp he
    obtain ⟨p, hp, rfl⟩ := h.mem_order.mp he
    have hpos : p.1 = m.1 := (h.name_eq_iff hm hp).mp (of_decide_eq_true hname)
    obtain rfl : p = m := h.distinct p hp m hm hpos
    simp only [Bool.and_eq_true, decide_eq_true_eq] at hempty
    exact hempty.2
  · intro hlen
    refine ⟨entryOf m, List.mem_filter.mpr ⟨h.mem_order.mpr ⟨m, hm, rfl⟩, ?_⟩, by
      simp [entryOf]⟩
    rw [Bool.and_eq_true, decide_eq_true_eq]
    exact ⟨h.spoolFile m hm, hlen⟩

/-- What is left when they have been removed. -/
theorem Listed.removeEmpty (h : Listed disk ps) (n : Nat) :
    ((lo.order n disk.dir).filter fun e =>
      isSpoolFile (disk.files e.2) && (disk.files e.2).length = headerSize).foldl
        (fun d e => (d.remove e.1).getD d) disk =
      { disk with dir := (filled disk ps).map entryOf } := by
  have kept : disk.dir.filter (fun e => !(((lo.order n disk.dir).filter fun e =>
      isSpoolFile (disk.files e.2) && (disk.files e.2).length = headerSize).any
        (fun r => r.1 = e.1))) = (filled disk ps).map entryOf := by
    nth_rewrite 2 [h.dir]
    rw [filled, List.filter_map]
    refine congrArg _ (List.filter_congr fun p hp => ?_)
    rw [Function.comp_apply, entryOf, h.empty_name n hp]
    simp
  rw [removeAll, kept]

end

/-! ## Lists in order -/

section
variable {ps before after : List (SpoolPos × Nat)} {p m : SpoolPos × Nat}

theorem eq_of_pos_eq {α : Type} {pos : α → SpoolPos} {l : List α}
    (order : l.Pairwise (fun a b => pos a < pos b)) {a b : α} (ha : a ∈ l) (hb : b ∈ l)
    (heq : pos a = pos b) : a = b := by
  induction l with
  | nil => cases ha
  | cons c l ih =>
    obtain ⟨first, order⟩ := List.pairwise_cons.mp order
    obtain rfl | ha' := List.mem_cons.mp ha <;> obtain rfl | hb' := List.mem_cons.mp hb
    · rfl
    · exact absurd (heq ▸ first b hb') (SpoolPos.lt_irrefl _)
    · exact absurd (heq ▸ first a ha') (SpoolPos.lt_irrefl _)
    · exact ih order ha' hb'

/-- The other partitions, when one is removed by its name. -/
theorem filter_fst (order : (before ++ m :: after).Pairwise (fun p q => p.1 < q.1)) :
    (before ++ m :: after).filter (fun p => p.1 ≠ m.1) = before ++ after := by
  obtain ⟨-, horder, hbefore⟩ := List.pairwise_append.mp order
  have hafter := (List.pairwise_cons.mp horder).1
  have kept : ∀ qs : List (SpoolPos × Nat), (∀ q ∈ qs, q.1 ≠ m.1) →
      qs.filter (fun p => p.1 ≠ m.1) = qs := by
    intro qs hqs
    exact List.filter_eq_self.mpr fun q hq => decide_eq_true (hqs q hq)
  rw [List.filter_append, List.filter_cons_of_neg (by simp), kept before, kept after]
  · exact fun q hq heq => SpoolPos.lt_irrefl _ (heq ▸ hafter q hq)
  · exact fun q hq heq => SpoolPos.lt_irrefl _ (heq ▸ hbefore q hq m List.mem_cons_self)

/-- There is room for a later position. -/
theorem lt_last {pos next : SpoolPos} (h : pos < next) (fits : next.Fits) :
    pos < ⟨0xffffffff, 0xffffffff⟩ := by
  obtain ⟨major, minor⟩ := fits
  rw [SpoolPos.lt_def] at h ⊢
  simp only
  omega

theorem lt_of_last_lt (order : (before ++ [m]).Pairwise (fun p q => p.1 < q.1)) {pos : SpoolPos}
    (h : m.1 < pos) (hp : p ∈ before ++ [m]) : p.1 < pos := by
  obtain hp | hp := List.mem_append.mp hp
  · exact SpoolPos.lt_trans ((List.pairwise_append.mp order).2.2 p hp m (by simp)) h
  · rw [List.mem_singleton.mp hp]
    exact h

theorem newPos_snoc (before : List (SpoolPos × Nat)) (p : SpoolPos × Nat) :
    newPos (before ++ [p]) = ⟨p.1.majorSeq + 1, 1⟩ := by
  simp [newPos]

theorem newPos_minor (ps : List (SpoolPos × Nat)) : (newPos ps).minorSeq = 1 := by
  unfold newPos
  split <;> rfl

theorem newPos_major (ps : List (SpoolPos × Nat)) : 0 < (newPos ps).majorSeq := by
  unfold newPos
  split
  · exact Nat.one_pos
  · exact Nat.succ_pos _

theorem lt_newPos (order : ps.Pairwise (fun p q => p.1 < q.1)) (hp : p ∈ ps) :
    p.1 < newPos ps := by
  obtain rfl | ⟨before, w, rfl⟩ := List.eq_nil_or_concat ps
  · cases hp
  · rw [List.concat_eq_append] at hp order ⊢
    exact lt_of_last_lt order (newPos_snoc before w ▸ .inl (Nat.lt_succ_self _)) hp

end

namespace Shelf
variable {lo : ListingOrder} {disk : Disk} {sp : Spool} {ps qs before after : List (SpoolPos × Nat)}
  {p m : SpoolPos × Nat}

theorem listed (S : Shelf disk ps) : Listed disk ps where
  dir := S.dir
  fits p hp := (S.fits p hp).1
  spoolFile := S.spoolFile
  distinct _ hp _ hq := eq_of_pos_eq S.order hp hq

theorem sublist (S : Shelf disk ps) (sub : qs.Sublist ps) :
    Shelf { disk with dir := qs.map entryOf } qs where
  dir := rfl
  fits p hp := S.fits p (sub.subset hp)
  spoolFile p hp := S.spoolFile p (sub.subset hp)
  order := S.order.sublist sub
  apart := S.apart.sublist sub
  fresh p hp := S.fresh p (sub.subset hp)

theorem withFiles (S : Shelf disk ps) {files : Nat → Bytes}
    (spoolFile : ∀ p ∈ ps, isSpoolFile (files p.2) = true) : Shelf { disk with files } ps :=
  { S with spoolFile }

theorem onlyFilled (S : Shelf disk ps) :
    Shelf { disk with dir := (filled disk ps).map entryOf } (filled disk ps) :=
  S.sublist List.filter_sublist

theorem lookup (S : Shelf disk ps) (hm : m ∈ ps) :
    disk.lookup (spoolFileName m.1) = some m.2 := S.listed.lookup hm

theorem size (S : Shelf disk ps) (hm : m ∈ ps) :
    disk.size (spoolFileName m.1) = some (disk.files m.2).length := by
  rw [Disk.size, S.lookup hm]
  rfl

theorem lookup_none (S : Shelf disk ps) {pos : SpoolPos} (fits : pos.Fits)
    (later : ∀ p ∈ ps, p.1 < pos) : disk.lookup (spoolFileName pos) = none :=
  S.listed.lookup_none fits fun p hp heq => SpoolPos.lt_irrefl _ (heq ▸ later p hp)

theorem remove (S : Shelf disk (before ++ m :: after)) : disk.remove (spoolFileName m.1) =
    some { disk with dir := (before ++ after).map entryOf } := by
  rw [S.listed.remove (by simp), filter_fst S.order]

theorem bytes (S : Shelf disk ps) :
    (disk.dir.map (fun e => (disk.files e.2).length)).sum = shelfSize disk ps := by
  rw [S.dir, List.map_map]
  rfl

/-! ## Scans -/

theorem findOldest_none (S : Shelf sp.disk ps)
    (read : ∀ p ∈ ps, ¬ (p.1 < ⟨0xffffffff, 0xffffffff⟩ ∧ sp.readPos < p.1)) :
    findOldestFile lo sp =
      ({ sp with listings := sp.listings + 1 }, none, ⟨0xffffffff, 0xffffffff⟩) := by
  obtain ⟨same, -⟩ | ⟨m, hm, -, found, -⟩ := @Listed.findOldest_cases lo sp ps S.listed
  · exact same
  · exact absurd found (read m hm)

/-- The oldest partition after the reader's. -/
theorem findOldest_some (S : Shelf sp.disk (before ++ m :: after))
    (read : ∀ p ∈ before, ¬ sp.readPos < p.1) (next : sp.readPos < m.1)
    (bound : m.1 < ⟨0xffffffff, 0xffffffff⟩) :
    findOldestFile lo sp =
      ({ sp with listings := sp.listings + 1 }, some (spoolFileName m.1), m.1) := by
  apply S.listed.findOldest_some (by simp) next bound
  intro p hp ahead
  obtain hp | hp := List.mem_append.mp hp
  · exact absurd ahead (read p hp)
  · obtain rfl | hp := List.mem_cons.mp hp
    · exact SpoolPos.lt_irrefl _
    · have order := (List.pairwise_append.mp S.order).2.1
      exact SpoolPos.lt_asymm ((List.pairwise_cons.mp order).1 p hp)

theorem findNewest (S : Shelf sp.disk ps) :
    ∃ name pos, findNewestFile lo sp = ({ sp with listings := sp.listings + 1 }, name, pos) ∧
      ((name = none ∧ (newPos ps).majorSeq = 1) ∨
        ∃ n, name = some n ∧ (newPos ps).majorSeq = pos.majorSeq + 1) := by
  obtain rfl | ⟨before, w, hps⟩ := List.eq_nil_or_concat ps
  · obtain ⟨same, -⟩ | ⟨m, hm, -⟩ := @Listed.findNewest_cases lo sp [] S.listed
    · exact ⟨none, ⟨0, 0⟩, same, .inl ⟨rfl, rfl⟩⟩
    · cases hm
  · rw [List.concat_eq_append] at hps
    subst hps
    have hw : w ∈ before ++ [w] := by simp
    have newest : ∀ p ∈ before ++ [w], ¬ w.1 < p.1 := by
      intro p hp
      obtain hp | hp := List.mem_append.mp hp
      · exact SpoolPos.lt_asymm ((List.pairwise_append.mp S.order).2.2 p hp w (by simp))
      · rw [List.mem_singleton.mp hp]
        exact SpoolPos.lt_irrefl _
    have bound : (⟨0, 0⟩ : SpoolPos) < w.1 := .inl (S.fits w hw).2
    refine ⟨_, _, S.listed.findNewest_some hw bound newest, .inr ⟨_, rfl, ?_⟩⟩
    rw [newPos_snoc]

/-- The reader opens the oldest of the partitions after its position. -/
theorem incrementRead_eq (S : Shelf sp.disk (m :: after)) (next : sp.readPos < m.1)
    (bound : m.1 < ⟨0xffffffff, 0xffffffff⟩) :
    incrementReadSpoolPartition lo sp = some ({ sp with
      listings := sp.listings + 1
      readf := some { file := m.2, off := headerSize, eof := false }
      readFileName := some (spoolFileName m.1)
      readPos := m.1 }, true) := by
  let sq : Spool := { sp with readFileName := none, readf := none }
  have found := @findOldest_some lo sq [] after m S (by simp) next bound
  have lookup := S.lookup List.mem_cons_self
  simp only [sq] at found
  simp only [incrementReadSpoolPartition, found, Option.bind_eq_bind, Option.bind_some,
    Disk.openRead, lookup, Option.map_some, Stream.seek]

/-- Without a partition to open there is no result. -/
theorem incrementRead_none (S : Shelf sp.disk ps)
    (read : ∀ p ∈ ps, ¬ (p.1 < ⟨0xffffffff, 0xffffffff⟩ ∧ sp.readPos < p.1)) :
    incrementReadSpoolPartition lo sp = none := by
  have found := @findOldest_none lo { sp with readFileName := none, readf := none } ps S read
  simp only [incrementReadSpoolPartition, found]
  rfl

/-! ## Removing partitions -/

/-- The oldest partition after the reader's is culled. -/
theorem cull_eq (S : Shelf sp.disk (p :: m :: after)) (reader : sp.readPos = p.1)
    (bound : m.1 < ⟨0xffffffff, 0xffffffff⟩) :
    cull lo sp = some ({ sp with
      listings := sp.listings + 1
      disk := { sp.disk with dir := (p :: after).map entryOf }
      stats := { sp.stats with
        currentSize := sp.stats.currentSize - UInt64.ofNat (sp.disk.files m.2).length
        bytesCulled := sp.stats.bytesCulled + UInt64.ofNat (sp.disk.files m.2).length
        filesDestroyed := sp.stats.filesDestroyed + 1
        cullEvents := sp.stats.cullEvents + 1 } }, some (spoolFileName m.1)) := by
  have order := S.order
  rw [List.pairwise_cons] at order
  have found := @findOldest_some lo sp [p] after m S
    (by simp [reader, SpoolPos.lt_irrefl]) (reader ▸ order.1 m List.mem_cons_self) bound
  have size := S.size (List.mem_cons_of_mem p List.mem_cons_self)
  have remove := @Shelf.remove sp.disk [p] after m S
  rw [List.singleton_append] at remove
  simp only [cull, found, Option.bind_eq_bind, Option.bind_some, size, Option.getD_some, remove]

/-- Where only the reader's partition is left, nothing is found to be culled. -/
theorem cull_none (S : Shelf sp.disk [p]) (reader : sp.readPos = p.1) : cull lo sp = none := by
  have found := @findOldest_none lo sp [p] S (by simp [reader, SpoolPos.lt_irrefl])
  simp only [cull, found]
  rfl

theorem removeRead_eq (S : Shelf sp.disk (p :: after))
    (name : sp.readFileName = some (spoolFileName p.1)) :
    removeReadPartition sp = some { sp with
      disk := { sp.disk with dir := after.map entryOf }
      readf := none
      readFileName := none
      stats := { sp.stats with
        currentSize := sp.stats.currentSize - UInt64.ofNat (sp.disk.files p.2).length
        filesDestroyed := sp.stats.filesDestroyed + 1 } } := by
  have size := S.size List.mem_cons_self
  have remove := @Shelf.remove sp.disk [] after p S
  rw [List.nil_append] at remove
  simp only [removeReadPartition, name, Option.bind_eq_bind, Option.bind_some, size,
    Option.getD_some, remove]

/-! ## New partitions -/

/-- Only the id is written. -/
theorem create (S : Shelf disk ps) {pos : SpoolPos} (fits : pos.Fits ∧ 0 < pos.majorSeq)
    (later : ∀ p ∈ ps, p.1 < pos) :
    Shelf {
      dir := disk.dir ++ [(spoolFileName pos, disk.next)]
      files := Function.update disk.files disk.next header
      next := disk.next + 1 } (ps ++ [(pos, disk.next)]) where
  dir := by simp [S.dir, entryOf]
  fits p hp := by
    obtain hp | hp := List.mem_append.mp hp
    · exact S.fits p hp
    · rw [List.mem_singleton.mp hp]
      exact fits
  spoolFile p hp := by
    obtain hp | hp := List.mem_append.mp hp
    · simp only [Function.update_of_ne (Nat.ne_of_lt (S.fresh p hp))]
      exact S.spoolFile p hp
    · rw [List.mem_singleton.mp hp]
      simp only [Function.update_self]
      decide
  order := by
    rw [List.pairwise_append]
    refine ⟨S.order, by simp, fun p hp q hq => ?_⟩
    rw [List.mem_singleton.mp hq]
    exact later p hp
  apart := by
    rw [List.pairwise_append]
    refine ⟨S.apart, by simp, fun p hp q hq => ?_⟩
    rw [List.mem_singleton.mp hq]
    exact Nat.ne_of_lt (S.fresh p hp)
  fresh p hp := by
    obtain hp | hp := List.mem_append.mp hp
    · exact Nat.lt_succ_of_lt (S.fresh p hp)
    · rw [List.mem_singleton.mp hp]
      exact Nat.lt_succ_self _

/-! ## Opening -/

theorem sum_sizes (S : Shelf disk ps) (n : Nat) :
    (lo.order n disk.dir).foldl (fun size e =>
        if isSpoolFile (disk.files e.2) then size + UInt64.ofNat (disk.files e.2).length
        else size) 0 = UInt64.ofNat (shelfSize disk ps) := by
  have fold : ∀ (es : List (UStr × Nat)) (size : UInt64),
      (∀ e ∈ es, isSpoolFile (disk.files e.2) = true) →
      es.foldl (fun size e =>
        if isSpoolFile (disk.files e.2) then size + UInt64.ofNat (disk.files e.2).length
        else size) size =
      size + UInt64.ofNat (es.map (fun e => (disk.files e.2).length)).sum := by
    intro es
    induction es with
    | nil => simp
    | cons e es ih =>
      intro size h
      rw [List.forall_mem_cons] at h
      rw [List.foldl_cons, if_pos h.1, ih _ h.2]
      simp [UInt64.ofNat_add, UInt64.add_assoc]
  have valid : ∀ e ∈ lo.order n disk.dir, isSpoolFile (disk.files e.2) = true := by
    intro e he
    obtain ⟨p, hp, rfl⟩ := S.listed.mem_order.mp he
    exact S.spoolFile p hp
  rw [fold _ _ valid, ((lo.perm n disk.dir).map _).sum_nat, S.bytes, UInt64.zero_add]

theorem currentSpoolSize_eq (S : Shelf disk ps) (listings : Nat) :
    currentSpoolSize lo disk listings = ({ disk with dir := (filled disk ps).map entryOf },
      listings + 2, UInt64.ofNat (shelfSize disk (filled disk ps))) := by
  have S' := S.onlyFilled
  have sizes := @sum_sizes lo _ _ S' (listings + 1)
  simp only [currentSpoolSize, S.listed.removeEmpty]
  rw [sizes]
  rfl

theorem initWriter_eq (S : Shelf sp.disk ps) (fits : (newPos ps).majorSeq < 0x100000000) :
    initWriter lo sp = some ({ sp with
      listings := sp.listings + 1
      writePos := newPos ps
      disk := {
        dir := sp.disk.dir ++ [(spoolFileName (newPos ps), sp.disk.next)]
        files := Function.update sp.disk.files sp.disk.next header
        next := sp.disk.next + 1 }
      writef := some { file := sp.disk.next, off := headerSize, eof := false }
      writeFileName := some (spoolFileName (newPos ps))
      stats := { sp.stats with
        currentSize := sp.stats.currentSize + UInt64.ofNat headerSize
        filesCreated := sp.stats.filesCreated + 1 } }, true) := by
  obtain ⟨name, pos, found, newest⟩ := @findNewest lo sp ps S
  have minor := newPos_minor ps
  have lookup : sp.disk.lookup (spoolFileName (newPos ps)) = none :=
    S.lookup_none ⟨fits, by omega⟩ fun p hp => lt_newPos S.order hp
  let sq : Spool := { sp with
    listings := sp.listings + 1
    writef := none
    writePos := ⟨(newPos ps).majorSeq, 0⟩
    writeFileName := none }
  have hpos : newPos ps = { sq.writePos with minorSeq := sq.writePos.minorSeq + 1 } :=
    congrArg (SpoolPos.mk (newPos ps).majorSeq) minor
  have increment := @incrementWriteSpoolPartition_eq sq .full _ hpos (by simp [minor]) lookup
    rfl rfl
  have hinit : initWriter lo sp =
      (incrementWriteSpoolPartition sq .full).bind fun a => some (a.1, a.2.2) := by
    obtain ⟨rfl, h⟩ | ⟨n, rfl, h⟩ := newest
    · simp only [initWriter, found, sq, h]
      rfl
    · have : (pos.majorSeq + 1) % 0x100000000 = pos.majorSeq + 1 := Nat.mod_eq_of_lt (h ▸ fits)
      simp only [initWriter, found, sq, h, this]
      rfl
  rw [hinit, increment]
  rfl

end Shelf

/-- A spool as it is opened where these partitions hold events. -/
structure NewSpool (settings : SpoolSettings) (disk : Disk) (ps : List (SpoolPos × Nat))
    (sp : Spool) : Prop where
  stored : sp.disk = {
    dir := (ps ++ [(newPos ps, disk.next)]).map entryOf
    files := Function.update disk.files disk.next header
    next := disk.next + 1 }
  shelf : Shelf sp.disk (ps ++ [(newPos ps, disk.next)])
  writePos : sp.writePos = newPos ps
  writef : sp.writef = some { file := disk.next, off := headerSize, eof := false }
  writeFileName : sp.writeFileName = some (spoolFileName (newPos ps))
  reader : ∃ m after, ps ++ [(newPos ps, disk.next)] = m :: after ∧ sp.readPos = m.1 ∧
    sp.readf = some { file := m.2, off := headerSize, eof := false } ∧
    sp.readFileName = some (spoolFileName m.1)
  maxPartitionSize : sp.stats.maxPartitionSize = settings.maxSpoolPartitionSize
  maxPartitions : sp.stats.maxPartitions = settings.maxSpoolPartitions
  currentSize : sp.stats.currentSize =
    UInt64.ofNat (shelfSize disk ps) + UInt64.ofNat headerSize

theorem Shelf.createSpool_eq {lo : ListingOrder} {disk : Disk} {ps : List (SpoolPos × Nat)}
    (S : Shelf disk ps) (fits : (newPos (filled disk ps)).majorSeq < 0x100000000)
    (settings : SpoolSettings) (listings : Nat) :
    ∃ sp, createSpool lo settings disk listings = some (some sp) ∧
      NewSpool settings disk (filled disk ps) sp := by
  have S' := S.onlyFilled
  have minor := newPos_minor (filled disk ps)
  have created := S'.create ⟨⟨fits, by omega⟩, newPos_major _⟩ fun p hp => lt_newPos S'.order hp
  obtain ⟨m, after, hm⟩ : ∃ m after,
      filled disk ps ++ [(newPos (filled disk ps), disk.next)] = m :: after :=
    List.exists_cons_of_ne_nil (by simp)
  have first : m ∈ filled disk ps ++ [(newPos (filled disk ps), disk.next)] :=
    hm ▸ List.mem_cons_self
  have next : (⟨0, 0⟩ : SpoolPos) < m.1 := .inl (created.fits m first).2
  have bound : m.1 < ⟨0xffffffff, 0xffffffff⟩ := by
    have last : newPos (filled disk ps) < ⟨0xffffffff, 0xffffffff⟩ := by
      rw [SpoolPos.lt_def]
      simp only
      omega
    obtain hp | hp := List.mem_append.mp first
    · exact SpoolPos.lt_trans (lt_newPos S'.order hp) last
    · rw [List.mem_singleton.mp hp]
      exact last
  simp only [createSpool, S.currentSpoolSize_eq, Option.bind_eq_bind]
  rw [Shelf.initWriter_eq S' fits]
  simp only [Option.bind_some, Bool.not_true, Bool.false_eq_true, ↓reduceIte, initReader]
  rw [hm] at created
  rw [Shelf.incrementRead_eq created next bound]
  refine ⟨_, rfl, ?_, ?_, rfl, rfl, rfl, ⟨m, after, hm, rfl, rfl, rfl⟩, rfl, rfl, rfl⟩
  · simp [entryOf]
  · rw [hm]
    exact created

end Yella
