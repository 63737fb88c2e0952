import Yella.Lib.Scan
import Yella.Spool.Model

/-!
# What the scans of the directory find

The directory holds partitions with different positions. The scans find the newest one and
the oldest one after the reader, in whatever order the directory is listed.
-/

namespace Yella

/-! ## The order of positions -/

instance : LT SpoolPos where
  lt p q := p.majorSeq < q.majorSeq ∨ (p.majorSeq = q.majorSeq ∧ p.minorSeq < q.minorSeq)

theorem SpoolPos.lt_def {p q : SpoolPos} :
    p < q ↔ p.majorSeq < q.majorSeq ∨ (p.majorSeq = q.majorSeq ∧ p.minorSeq < q.minorSeq) :=
  Iff.rfl

instance (p q : SpoolPos) : Decidable (p < q) := decidable_of_iff _ SpoolPos.lt_def.symm

theorem SpoolPos.lt_trans {p q r : SpoolPos} (h : p < q) (h' : q < r) : p < r := by
  rw [SpoolPos.lt_def] at *; omega

theorem SpoolPos.lt_irrefl (p : SpoolPos) : ¬ p < p := by
  rw [SpoolPos.lt_def]; omega

theorem SpoolPos.lt_asymm {p q : SpoolPos} (h : p < q) : ¬ q < p := by
  rw [SpoolPos.lt_def] at *; omega

theorem SpoolPos.lt_of_ne {p q : SpoolPos} (h : p ≠ q) (h' : ¬ q < p) : p < q := by
  have : p.majorSeq ≠ q.majorSeq ∨ p.minorSeq ≠ q.minorSeq := by
    by_contra hne
    exact h (by cases p; cases q; simp_all)
  rw [SpoolPos.lt_def] at *
  omega

theorem cmpNewest_iff {p q : SpoolPos} : cmpNewest p q = true ↔ q < p := by
  simp only [cmpNewest, SpoolPos.lt_def, Bool.or_eq_true, Bool.and_eq_true, decide_eq_true_eq]
  omega

theorem cmpOldest_iff {r p q : SpoolPos} : cmpOldest r p q = true ↔ p < q ∧ r < p := by
  simp only [cmpOldest, SpoolPos.lt_def, Bool.or_eq_true, Bool.and_eq_true, decide_eq_true_eq]
  omega

/-! ## Partitions in the directory -/

/-- The entry of a partition. -/
def entryOf (p : SpoolPos × Nat) : UStr × Nat := (spoolFileName p.1, p.2)

/-- The directory holds these partitions. -/
structure Listed (disk : Disk) (ps : List (SpoolPos × Nat)) : Prop where
  dir : disk.dir = ps.map entryOf
  fits : ∀ p ∈ ps, p.1.Fits
  spoolFile : ∀ p ∈ ps, isSpoolFile (disk.files p.2) = true
  distinct : ∀ p ∈ ps, ∀ q ∈ ps, p.1 = q.1 → p = q

section
variable {lo : ListingOrder} {disk : Disk} {sp : Spool} {ps : List (SpoolPos × Nat)}
  {m : SpoolPos × Nat} {cmp : SpoolPos → SpoolPos → Bool} {start : SpoolPos}

theorem Listed.mem_order (h : Listed disk ps) {n : Nat} {e : UStr × Nat} :
    e ∈ lo.order n disk.dir ↔ ∃ p ∈ ps, entryOf p = e := by
  rw [(lo.perm n disk.dir).mem_iff, h.dir, List.mem_map]

theorem Listed.scan (h : Listed disk ps) {p : SpoolPos × Nat} (hp : p ∈ ps) :
    scanName (entryOf p).1 = some p.1 := scanName_spoolFileName (h.fits p hp)

theorem Listed.name_eq_iff (h : Listed disk ps) (hm : m ∈ ps) {p : SpoolPos × Nat}
    (hp : p ∈ ps) : (entryOf p).1 = spoolFileName m.1 ↔ p.1 = m.1 :=
  spoolFileName_inj (h.fits p hp) (h.fits m hm)

theorem Listed.lookup (h : Listed disk ps) (hm : m ∈ ps) :
    disk.lookup (spoolFileName m.1) = some m.2 := by
  rw [Disk.lookup, h.dir]
  cases hf : (ps.map entryOf).find? (fun e => e.1 = spoolFileName m.1) with
  | none =>
    have := List.find?_eq_none.mp hf (entryOf m) (List.mem_map_of_mem hm)
    exact absurd (decide_eq_true rfl) this
  | some e =>
    obtain ⟨p, hp, rfl⟩ := List.mem_map.mp (List.mem_of_find?_eq_some hf)
    have hname : (entryOf p).1 = spoolFileName m.1 := by simpa using List.find?_some hf
    have : p = m := h.distinct p hp m hm ((h.name_eq_iff hm hp).mp hname)
    rw [this]
    rfl

theorem Listed.lookup_none (h : Listed disk ps) {pos : SpoolPos} (fits : pos.Fits)
    (absent : ∀ p ∈ ps, p.1 ≠ pos) : disk.lookup (spoolFileName pos) = none := by
  simp only [Disk.lookup, h.dir, Option.map_eq_none_iff, List.find?_eq_none, List.mem_map,
    forall_exists_index, and_imp, forall_apply_eq_imp_iff₂, decide_eq_true_eq]
  intro p hp heq
  exact absent p hp ((spoolFileName_inj (h.fits p hp) fits).mp heq)

theorem Listed.remove (h : Listed disk ps) (hm : m ∈ ps) :
    disk.remove (spoolFileName m.1) =
      some { disk with dir := (ps.filter (fun p => p.1 ≠ m.1)).map entryOf } := by
  have kept : (ps.map entryOf).filter (fun e => e.1 ≠ spoolFileName m.1) =
      (ps.filter (fun p => p.1 ≠ m.1)).map entryOf := by
    rw [List.filter_map]
    congr 1
    apply List.filter_congr
    intro p hp
    simp [h.name_eq_iff hm hp]
  simp only [Disk.remove, h.lookup hm, Option.map_some, h.dir, kept]

/-- The scan over the entries is a scan over the positions they are named after. -/
theorem Listed.findFile_eq (h : Listed sp.disk ps) :
    (findFile lo sp cmp start).2 =
      (lo.order sp.listings sp.disk.dir).foldl
        (Scan.step cmp (fun e => (scanName e.1).getD ⟨0, 0⟩) Prod.fst) (none, start) := by
  apply List.foldl_ext _ _ _
  intro acc e he
  obtain ⟨p, hp, rfl⟩ := h.mem_order.mp he
  have valid : isSpoolFile (sp.disk.files (entryOf p).2) = true := h.spoolFile p hp
  simp [findStep, Scan.step, h.scan hp, valid]

/-- What a scan finds, of entries that are compared as in a strict order. -/
theorem Listed.findFile_cases (h : Listed sp.disk ps)
    (trans : ∀ p q r, cmp p q = true → cmp q r = true → cmp p r = true)
    (irrefl : ∀ p, cmp p p = false) :
    (findFile lo sp cmp start = ({ sp with listings := sp.listings + 1 }, none, start) ∧
      ∀ p ∈ ps, cmp p.1 start = false) ∨
    ∃ m ∈ ps, findFile lo sp cmp start =
        ({ sp with listings := sp.listings + 1 }, some (spoolFileName m.1), m.1) ∧
      cmp m.1 start = true ∧ ∀ p ∈ ps, cmp p.1 m.1 = false := by
  let key (e : UStr × Nat) : SpoolPos := (scanName e.1).getD ⟨0, 0⟩
  have at_key : ∀ p ∈ ps, key (entryOf p) = p.1 := by
    intro p hp
    simp only [key, h.scan hp, Option.getD_some]
  have listed : ∀ p ∈ ps, entryOf p ∈ lo.order sp.listings sp.disk.dir :=
    fun p hp => h.mem_order.mpr ⟨p, hp, rfl⟩
  have scan := @Scan.foldl_spec _ _ _ cmp key Prod.fst trans irrefl
    (lo.order sp.listings sp.disk.dir) (none, start)
  rw [← h.findFile_eq] at scan
  obtain ⟨same, fails⟩ | ⟨e, he, found, first, best⟩ := scan
  · refine .inl ⟨Prod.ext rfl same, fun p hp => ?_⟩
    rw [← at_key p hp]
    exact fails _ (listed p hp)
  · obtain ⟨m, hm, rfl⟩ := h.mem_order.mp he
    rw [at_key m hm] at found first best
    refine .inr ⟨m, hm, Prod.ext rfl found, first, fun p hp => ?_⟩
    rw [← at_key p hp]
    exact best _ (listed p hp)

theorem Listed.findNewest_cases (h : Listed sp.disk ps) :
    (findNewestFile lo sp = ({ sp with listings := sp.listings + 1 }, none, ⟨0, 0⟩) ∧
      ∀ p ∈ ps, ¬ ⟨0, 0⟩ < p.1) ∨
    ∃ m ∈ ps, findNewestFile lo sp =
        ({ sp with listings := sp.listings + 1 }, some (spoolFileName m.1), m.1) ∧
      ∀ p ∈ ps, ¬ m.1 < p.1 := by
  have cases := @Listed.findFile_cases lo sp ps cmpNewest ⟨0, 0⟩ h
    (fun p q r => by
      rw [cmpNewest_iff, cmpNewest_iff, cmpNewest_iff]
      exact fun hpq hqr => SpoolPos.lt_trans hqr hpq)
    (fun p => by
      rw [Bool.eq_false_iff, Ne, cmpNewest_iff]
      exact SpoolPos.lt_irrefl p)
  simp only [Bool.eq_false_iff, Ne, cmpNewest_iff] at cases
  obtain ⟨same, fails⟩ | ⟨m, hm, found, -, best⟩ := cases
  · exact .inl ⟨same, fails⟩
  · exact .inr ⟨m, hm, found, best⟩

theorem Listed.findOldest_cases (h : Listed sp.disk ps) :
    (findOldestFile lo sp =
        ({ sp with listings := sp.listings + 1 }, none, ⟨0xffffffff, 0xffffffff⟩) ∧
      ∀ p ∈ ps, ¬ (p.1 < ⟨0xffffffff, 0xffffffff⟩ ∧ sp.readPos < p.1)) ∨
    ∃ m ∈ ps, findOldestFile lo sp =
        ({ sp with listings := sp.listings + 1 }, some (spoolFileName m.1), m.1) ∧
      (m.1 < ⟨0xffffffff, 0xffffffff⟩ ∧ sp.readPos < m.1) ∧
        ∀ p ∈ ps, sp.readPos < p.1 → ¬ p.1 < m.1 := by
  have cases := @Listed.findFile_cases lo sp ps (cmpOldest sp.readPos) ⟨0xffffffff, 0xffffffff⟩ h
    (fun p q r => by
      rw [cmpOldest_iff, cmpOldest_iff, cmpOldest_iff]
      exact fun hpq hqr => ⟨SpoolPos.lt_trans hpq.1 hqr.1, hpq.2⟩)
    (fun p => by
      rw [Bool.eq_false_iff, Ne, cmpOldest_iff]
      exact fun hp => SpoolPos.lt_irrefl p hp.1)
  simp only [Bool.eq_false_iff, Ne, cmpOldest_iff] at cases
  obtain ⟨same, fails⟩ | ⟨m, hm, found, first, best⟩ := cases
  · exact .inl ⟨same, fails⟩
  · exact .inr ⟨m, hm, found, first, fun p hp after lt => best p hp ⟨lt, after⟩⟩

theorem Listed.findOldest_some (h : Listed sp.disk ps) (hm : m ∈ ps)
    (after : sp.readPos < m.1) (bound : m.1 < ⟨0xffffffff, 0xffffffff⟩)
    (oldest : ∀ p ∈ ps, sp.readPos < p.1 → ¬ p.1 < m.1) :
    findOldestFile lo sp =
      ({ sp with listings := sp.listings + 1 }, some (spoolFileName m.1), m.1) := by
  obtain ⟨-, fails⟩ | ⟨n, hn, found, ⟨-, ahead⟩, least⟩ := @Listed.findOldest_cases lo sp ps h
  · exact absurd ⟨bound, after⟩ (fails m hm)
  · have same : n.1 = m.1 := by
      by_contra ne
      exact oldest n hn ahead (SpoolPos.lt_of_ne ne (least m hm after))
    rw [found, same]

theorem Listed.findNewest_some (h : Listed sp.disk ps) (hm : m ∈ ps) (bound : ⟨0, 0⟩ < m.1)
    (newest : ∀ p ∈ ps, ¬ m.1 < p.1) :
    findNewestFile lo sp =
      ({ sp with listings := sp.listings + 1 }, some (spoolFileName m.1), m.1) := by
  obtain ⟨-, fails⟩ | ⟨n, hn, found, greatest⟩ := @Listed.findNewest_cases lo sp ps h
  · exact absurd bound (fails m hm)
  · have same : n.1 = m.1 := by
      by_contra ne
      exact greatest m hm (SpoolPos.lt_of_ne ne (newest n hn))
    rw [found, same]

end

end Yella
