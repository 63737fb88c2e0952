import Mathlib.Algebra.Ring.Nat
import Yella.Spool.Reading

/-!
# What a pop returns

The reader goes through the unread events in order, as long as its end-of-file indicator is
not left behind by a later push.
-/

namespace Yella
namespace Layout

/-- The end-of-file indicator is only set at the end of the partition. -/
def NotStale (L : Layout) : Prop :=
  L.eof = true → L.cur.todo = [] ∧ (L.tornRead = true ∨ L.cur.torn = [])

/-- The bytes of the partitions in the directory. -/
def size (L : Layout) : Nat := (L.segs.map (fun s => s.content.length)).sum

/-- The statistics have the size of the partitions. -/
def Counted (L : Layout) : Prop := L.currentSize = UInt64.ofNat L.size

/-- The partition at `pos` holds the event. -/
def Has (L : Layout) (pos : SpoolPos) (id : Nat) (parts : List Bytes) : Prop :=
  ∃ s ∈ L.all, s.pos = pos ∧ ∃ r ∈ s.done ++ s.todo, r.id = id ∧ r.parts = parts

/-- No partition ends with the beginning of an event. -/
def Whole (L : Layout) : Prop := ∀ s ∈ L.all, s.torn = []

/-- The torn events that the reader has not come to. -/
def tornAhead (L : Layout) : Nat :=
  (if L.cur.torn ≠ [] ∧ L.tornRead = false then 1 else 0) +
    L.rest.countP (fun s => s.torn ≠ [])

/-- The partitions in the directory that end with the beginning of an event. -/
def tornAll (L : Layout) : Nat := L.segs.countP (fun s => s.torn ≠ [])

/-- What reading leaves as it is. -/
structure Reads (L L' : Layout) : Prop where
  lost : L'.lost = L.lost
  has : ∀ pos id parts, L'.Has pos id parts → L.Has pos id parts
  counted : L.Counted → L'.Counted
  whole : L.Whole → L'.Whole
  torn : L'.tornAhead ≤ L.tornAhead
  tornAll : L'.tornAll ≤ L.tornAll
  size : L'.size ≤ L.size
  written : L'.writer.content.length = L.writer.content.length

section
variable {L L' M : Layout}

theorem Reads.refl (L : Layout) : Reads L L :=
  ⟨rfl, fun _ _ _ h => h, id, id, Nat.le_refl _, Nat.le_refl _, Nat.le_refl _, rfl⟩

theorem Reads.trans (h : Reads L M) (h' : Reads M L') : Reads L L' where
  lost := h'.lost.trans h.lost
  has := fun pos id parts hhas => h.has pos id parts (h'.has pos id parts hhas)
  counted := fun hc => h'.counted (h.counted hc)
  whole := fun hw => h'.whole (h.whole hw)
  torn := Nat.le_trans h'.torn h.torn
  tornAll := Nat.le_trans h'.tornAll h.tornAll
  size := Nat.le_trans h'.size h.size
  written := h'.written.trans h.written

theorem reads_eof (eof : Bool) : Reads L { L with eof } :=
  ⟨rfl, fun _ _ _ h => h, id, id, Nat.le_refl _, Nat.le_refl _, Nat.le_refl _, rfl⟩

theorem reads_torn : Reads L { L with tornRead := true, eof := true } := by
  refine ⟨rfl, fun _ _ _ h => h, id, id, ?_, Nat.le_refl _, Nat.le_refl _, rfl⟩
  simp [tornAhead]

theorem reads_leave (h : L.leave = some L') : Reads L L' := by
  obtain ⟨hrest, hall, _, _, htorn, _, _, _, hsize⟩ := leave_eq h
  have hsegs : L.segs = L.cur :: L'.segs := by simp [segs, hrest]
  have smaller : L.size = L.cur.content.length + L'.size := by simp [size, hsegs]
  constructor
  · unfold leave at h
    split at h
    · cases h
    · cases h; rfl
  · rintro pos id parts ⟨s, hs, hr⟩
    exact ⟨s, hall ▸ List.mem_cons_of_mem _ hs, hr⟩
  · intro hcounted
    rw [Counted, hsize, hcounted, smaller, UInt64.ofNat_add, UInt64.add_comm,
      UInt64.add_sub_cancel]
  · exact fun hw s hs => hw s (hall ▸ List.mem_cons_of_mem _ hs)
  · simp only [tornAhead, hrest, htorn, List.countP_cons, decide_eq_true_eq, and_true]
    omega
  · rw [tornAll, tornAll, hsegs]
    exact (List.sublist_cons_self _ _).countP_le
  · omega
  · rw [(leave_eq h).2.2.1]

theorem reads_take : Reads L L.take := by
  cases htodo : L.cur.todo with
  | nil =>
    have : L.take = L := by
      have : L.cur.take = L.cur := by unfold Segment.take; split <;> simp_all
      simp only [take, this]
    rw [this]
    exact .refl L
  | cons r todo =>
    obtain ⟨hd, ht, htorn⟩ := Segment.take_of_todo htodo
    have same : L.take.size = L.size := by
      have len : L.take.cur.content.length = L.cur.content.length :=
        Segment.take_content_length htodo
      simp only [size, segs, List.map_cons, len, show L.take.rest = L.rest from rfl]
    constructor
    · rfl
    · rintro pos id parts ⟨s, hs, hpos, q, hq, hid⟩
      obtain rfl | hs := List.mem_cons.mp hs
      · refine ⟨L.cur, cur_mem_all, by simpa [take] using hpos, ?_⟩
        rw [show (L.take.cur).done = L.cur.done ++ [r.visit] from hd,
          show (L.take.cur).todo = todo from ht] at hq
        simp only [List.append_assoc, List.singleton_append, List.mem_append, List.mem_cons] at hq
        obtain hq | rfl | hq := hq
        · exact ⟨q, by simp [hq], hid⟩
        · exact ⟨r, by simp [htodo], hid⟩
        · exact ⟨q, by simp [htodo, hq], hid⟩
      · exact ⟨s, List.mem_cons_of_mem _ hs, hpos, q, hq, hid⟩
    · exact fun hcounted => hcounted.trans (by rw [same])
    · intro hw s hs
      obtain rfl | hs := List.mem_cons.mp hs
      · exact htorn.trans (hw _ cur_mem_all)
      · exact hw s (List.mem_cons_of_mem _ hs)
    · rw [tornAhead, show L.take.cur.torn = L.cur.torn from htorn]
      exact Nat.le_refl _
    · simp only [tornAll, segs, List.countP_cons, show L.take.cur.torn = L.cur.torn from htorn,
        show L.take.rest = L.rest from rfl]
      exact Nat.le_refl _
    · exact Nat.le_of_eq same
    · have len : L.cur.take.content.length = L.cur.content.length :=
        Segment.take_content_length htodo
      simp only [writer, take]
      cases L.lost with
      | some w => rfl
      | none => cases L.rest.getLast? <;> simp [len]

/-- A round that goes on. -/
theorem round_next (h : L.round = some (.inl L')) :
    (L.atEnd = true ∧ L.compare > 0 ∧ L.leave = some L') ∨
      (L.atEnd = false ∧ L' = L.take ∧ ∃ r todo, L.cur.todo = r :: todo ∧ r.visited = true) := by
  unfold round at h
  split at h
  · rename_i hEnd
    split at h
    · rename_i hcompare
      refine .inl ⟨hEnd, hcompare, ?_⟩
      cases hleave : L.leave with
      | none => rw [hleave] at h; cases h
      | some M => rw [hleave] at h; cases h; rfl
    · cases h
  · rename_i hEnd
    split at h
    · rename_i r todo htodo
      split at h
      · rename_i hv
        cases h
        exact .inr ⟨by simpa using hEnd, rfl, r, todo, htodo, hv⟩
      · cases h
    · cases h

/-- A round that ends the loop. -/
theorem round_last {n : Nat} (h : L.round = some (.inr (n, L'))) :
    (L.atEnd = true ∧ ¬ L.compare > 0 ∧ n = 0 ∧ L' = { L with eof := true }) ∨
      (L.AtUnread ∧ n = L.count ∧ L' = L) := by
  unfold round at h
  split at h
  · rename_i hEnd
    split at h
    · cases hleave : L.leave with
      | none => rw [hleave] at h; cases h
      | some M => rw [hleave] at h; cases h
    · rename_i hcompare
      cases h
      exact .inl ⟨hEnd, hcompare, rfl, rfl⟩
  · rename_i hEnd
    split at h
    · rename_i r todo htodo
      split at h
      · cases h
      · rename_i hv
        cases h
        exact .inr ⟨⟨by simpa using hEnd, by simpa [htodo] using hv⟩, rfl, rfl⟩
    · rename_i htodo
      cases h
      exact .inr ⟨⟨by simpa using hEnd, by simp [htodo]⟩, rfl, rfl⟩

theorem NotStale.at_end (fresh : L.NotStale) (h : L.atEnd = true) :
    L.cur.todo = [] ∧ (L.tornRead = true ∨ L.cur.torn = []) := by
  cases hEof : L.eof with
  | true => exact fresh hEof
  | false => simpa [atEnd, hEof] using h

theorem unread_eq : L.unread = L.cur.todo.filter (fun r => !r.visited) ++
    (L.rest.flatMap Segment.todo).filter (fun r => !r.visited) := by
  simp [unread, segs]

theorem round_next_reads (h : L.round = some (.inl L')) : Reads L L' := by
  obtain ⟨_, _, hleave⟩ | ⟨_, rfl, _⟩ := round_next h
  · exact reads_leave hleave
  · exact reads_take

theorem round_next_unread (h : L.round = some (.inl L')) (fresh : L.NotStale) :
    L'.unread = L.unread ∧ L'.NotStale := by
  obtain ⟨hEnd, _, hleave⟩ | ⟨hEnd, rfl, r, todo, htodo, hv⟩ := round_next h
  · obtain ⟨hrest, _, _, _, _, heof, _⟩ := leave_eq hleave
    obtain ⟨todo, _⟩ := fresh.at_end hEnd
    refine ⟨?_, fun he => absurd he (by simp [heof])⟩
    rw [unread_eq (L := L), todo, hrest]
    simp [unread, segs]
  · obtain ⟨_, ht, _⟩ := Segment.take_of_todo htodo
    refine ⟨?_, fun he => absurd he ?_⟩
    · rw [unread_eq, unread_eq, show L.take.cur.todo = todo from ht, htodo,
        List.filter_cons_of_neg (by simp [hv])]
      rfl
    · simp only [atEnd, Bool.or_eq_false_iff] at hEnd
      simp [take, hEnd.1]

/-- How the loop of the reader ends. -/
structure Advanced (L : Layout) (a : Nat × Layout) : Prop where
  reads : Reads L a.2
  unread : a.2.unread = L.unread
  fresh : a.2.NotStale
  event : 0 < a.1 → a.2.AtUnread

theorem advanced (fresh : L.NotStale) {a : Nat × Layout} (h : Loop.Ends round L a) :
    Advanced L a := by
  refine h.invariant (fun M => Reads L M ∧ M.unread = L.unread ∧ M.NotStale) (Advanced L)
    ⟨.refl L, rfl, fresh⟩ ?_ ?_
  · rintro M N ⟨reads, unread, fresh⟩ hround
    obtain ⟨hunread, fresh'⟩ := round_next_unread hround fresh
    exact ⟨reads.trans (round_next_reads hround), hunread.trans unread, fresh'⟩
  · rintro M ⟨n, N⟩ ⟨reads, unread, fresh⟩ hround
    obtain ⟨hEnd, _, rfl, rfl⟩ | ⟨hunread, rfl, rfl⟩ := round_last hround
    · exact ⟨reads.trans (reads_eof true), unread, fun _ => fresh.at_end hEnd,
        fun h0 => absurd h0 (Nat.lt_irrefl 0)⟩
    · exact ⟨reads, unread, fresh, fun _ => hunread⟩

theorem readEvent_reads : Reads L L.readEvent.1 := by
  unfold readEvent
  split
  · exact reads_take
  · exact reads_torn

/-- The next event, or the beginning of one. -/
theorem readEvent_unread (h : L.AtUnread) :
    (∃ r, L.readEvent.2 = (.noError, r.parts) ∧ L.unread = r :: L.readEvent.1.unread ∧
        L.readEvent.1.NotStale) ∨
      (L.cur.torn ≠ [] ∧ L.tornRead = false ∧ L.readEvent.2 = (.readError, []) ∧
        L.readEvent.1 = { L with tornRead := true, eof := true } ∧ L.readEvent.1.NotStale) := by
  obtain ⟨middle, unread⟩ := h
  cases htodo : L.cur.todo with
  | nil =>
    have hread : L.readEvent = ({ L with tornRead := true, eof := true }, .readError, []) := by
      simp [readEvent, htodo]
    obtain ⟨torn, _, notRead, _⟩ := Represents.readOff_torn middle htodo
    rw [hread]
    exact .inr ⟨torn, notRead, rfl, rfl, fun _ => ⟨htodo, .inl rfl⟩⟩
  | cons r todo =>
    have hread : L.readEvent = (L.take, .noError, r.parts) := by simp [readEvent, htodo]
    obtain ⟨_, ht, _⟩ := Segment.take_of_todo htodo
    have hv : r.visited = false := unread r (by simp [htodo])
    rw [hread]
    refine .inl ⟨r, rfl, ?_, fun he => absurd he ?_⟩
    · rw [unread_eq, unread_eq, show L.take.cur.todo = todo from ht, htodo,
        List.filter_cons_of_pos (by simp [hv])]
      rfl
    · simp only [atEnd, Bool.or_eq_false_iff] at middle
      simp [take, middle.1]

/-- What a pop does to the unread events. -/
structure Pops (L L' : Layout) (rc : Rc) (parts : List Bytes) : Prop where
  reads : Reads L L'
  fresh : L'.NotStale
  unread : (rc = .noError ∧ ∃ r, L.unread = r :: L'.unread ∧ parts = r.parts) ∨
    (rc ≠ .noError ∧ L'.unread = L.unread)

theorem pop_pops {rounds : Nat} {rc : Rc} {parts : List Bytes}
    (h : L.pop rounds = some (L', rc, parts)) (fresh : L.NotStale) : Pops L L' rc parts := by
  unfold pop at h
  split at h
  · obtain ⟨⟨n, M⟩, hrun, hM⟩ := Option.map_eq_some_iff.mp h
    obtain ⟨reads, unread, fresh', event⟩ := advanced fresh ⟨rounds, hrun⟩
    simp only at hM reads unread fresh' event
    split at hM
    · rename_i hn
      have hL' : L' = M.readEvent.1 := by rw [hM]
      have hresult : M.readEvent.2 = (rc, parts) := by rw [hM]
      obtain ⟨r, hr, hunread, hfresh⟩ | ⟨_, _, hr, hL, hfresh⟩ := readEvent_unread (event hn)
      · rw [hr] at hresult
        cases hresult
        rw [hL']
        exact ⟨reads.trans readEvent_reads, hfresh, .inl ⟨rfl, r, unread ▸ hunread, rfl⟩⟩
      · rw [hr] at hresult
        cases hresult
        rw [hL']
        refine ⟨reads.trans readEvent_reads, hfresh, .inr ⟨by decide, ?_⟩⟩
        rw [hL]
        exact unread
    · cases hM
      refine ⟨reads, fresh', .inr ⟨?_, unread⟩⟩
      split <;> decide
  · cases h
    exact ⟨.refl L, fresh, .inr ⟨by decide, rfl⟩⟩

/-! ## A pop returns -/

theorem count_pos (h : L.atEnd = false) : 0 < L.count := by
  cases htodo : L.cur.todo with
  | nil =>
    obtain ⟨hne, _⟩ := Represents.readOff_torn h htodo
    obtain ⟨parts, _, _, wf, _, _, _, count⟩ := Represents.count_torn hne htodo
    rw [count]
    exact wf.1
  | cons r todo =>
    have count : L.count = r.parts.length := by simp [Layout.count, htodo]
    rw [count]
    exact r.wf.1

/-- The events and the partitions that are ahead of the reader. -/
def ahead (L : Layout) : Nat := (L.segs.map (fun s => s.todo.length + 1)).sum

theorem leave_ahead (h : L.leave = some L') : L'.ahead < L.ahead := by
  obtain ⟨hrest, _⟩ := leave_eq h
  simp only [ahead, segs, hrest, List.map_cons, List.sum_cons]
  omega

theorem take_ahead {r : Record} {todo : List Record} (h : L.cur.todo = r :: todo) :
    L.take.ahead < L.ahead := by
  obtain ⟨_, ht, _⟩ := Segment.take_of_todo h
  have len : L.take.cur.todo.length = todo.length := congrArg List.length ht
  simp only [ahead, segs, List.map_cons, List.sum_cons, len, h, List.length_cons,
    show L.take.rest = L.rest from rfl]
  omega

/-- Where the reader has a partition to go on to when it takes itself to be at the end. -/
def Safe (L : Layout) : Prop := L.atEnd = true → L.compare > 0 → L.rest ≠ []

/-- A property that holds in all rounds and lets the loop go on. -/
theorem advance_ends (P : Layout → Prop) (start : P L) (safe : ∀ M, P M → M.Safe)
    (next : ∀ M N, P M → M.round = some (.inl N) → P N) : ∃ a, Loop.Ends round L a := by
  obtain ⟨a, ha, _⟩ := @Loop.ends_of_measure _ _ round L ahead P (fun _ => True) start
      fun M hM => by
    cases hround : M.round with
    | none =>
      exfalso
      unfold round at hround
      split at hround
      · rename_i hEnd
        split at hround
        · rename_i hcompare
          have := safe M hM hEnd hcompare
          cases hrest : M.rest with
          | nil => exact this hrest
          | cons s rest => simp [leave, hrest] at hround
        · cases hround
      · split at hround <;> cases hround
    | some x =>
      cases x with
      | inl N =>
        refine .inl ⟨N, rfl, next M N hM hround, ?_⟩
        obtain ⟨_, _, hleave⟩ | ⟨_, rfl, r, todo, htodo, _⟩ := round_next hround
        · exact leave_ahead hleave
        · exact take_ahead htodo
      | inr r => exact .inr ⟨r, rfl, trivial⟩
  exact ⟨a, ha⟩

/-- With the writer's partition in the directory, the reader only goes on when there is a
later partition, unless its end-of-file indicator is stale there. -/
def Settled (L : Layout) : Prop := L.lost = none ∧ (L.rest = [] → L.NotStale)

theorem compare_at_writer (hlost : L.lost = none) (hrest : L.rest = [])
    (hoff : L.readOff = L.cur.content.length) : L.compare = 0 := by
  have hwriter : L.writer = L.cur := by simp [writer, hlost, hrest]
  simp [compare, hwriter, hoff, toInt32]

theorem Settled.safe (h : L.Settled) : L.Safe := by
  intro hEnd hcompare hrest
  have := compare_at_writer h.1 hrest (readOff_of_end ((h.2 hrest).at_end hEnd))
  omega

theorem Settled.next (h : L.Settled) (hround : L.round = some (.inl L')) : L'.Settled := by
  refine ⟨(round_next_reads hround).lost.trans h.1, fun _ => ?_⟩
  obtain ⟨_, _, hleave⟩ | ⟨hEnd, rfl, _⟩ := round_next hround
  · obtain ⟨_, _, _, _, _, heof, _⟩ := leave_eq hleave
    exact fun he => absurd he (by simp [heof])
  · simp only [atEnd, Bool.or_eq_false_iff] at hEnd
    exact fun he => absurd he (by simp [take, hEnd.1])

theorem advance_returns (h : L.Settled) : ∃ a, Loop.Ends round L a :=
  advance_ends Settled h (fun _ hM => hM.safe) (fun _ _ hM hround => hM.next hround)

theorem pop_returns (h : L.Settled) : ∃ rounds a, L.pop rounds = some a := by
  obtain ⟨a, rounds, hrun⟩ := advance_returns h
  refine ⟨rounds, ?_⟩
  unfold pop
  split
  · exact ⟨_, Option.map_eq_some_iff.mpr ⟨a, hrun, rfl⟩⟩
  · exact ⟨_, rfl⟩

theorem advance_reads {rounds n : Nat} (h : Loop.run round rounds L = some (n, L')) :
    Reads L L' := by
  refine Loop.Ends.invariant ⟨rounds, h⟩ (fun M => Reads L M) (fun a => Reads L a.2)
    (.refl L) (fun M N hM hround => hM.trans (round_next_reads hround)) ?_
  rintro M ⟨n, N⟩ hM hround
  obtain ⟨_, _, _, rfl⟩ | ⟨_, _, rfl⟩ := round_last hround
  · exact hM.trans (reads_eof true)
  · exact hM

theorem pop_reads {rounds : Nat} {a : Layout × Rc × List Bytes} (h : L.pop rounds = some a) :
    Reads L a.1 := by
  unfold pop at h
  split at h
  · obtain ⟨⟨n, M⟩, hrun, rfl⟩ := Option.map_eq_some_iff.mp h
    have reads := advance_reads hrun
    simp only
    split
    · exact reads.trans readEvent_reads
    · exact reads
  · cases h
    exact .refl L

/-- An event that is popped was in a partition. -/
theorem pop_has {rounds : Nat} {parts : List Bytes}
    (h : L.pop rounds = some (L', .noError, parts)) : ∃ pos id, L.Has pos id parts := by
  unfold pop at h
  split at h
  · obtain ⟨⟨n, M⟩, hrun, hM⟩ := Option.map_eq_some_iff.mp h
    simp only at hM
    split at hM
    · unfold readEvent at hM
      split at hM
      · rename_i r todo htodo
        cases hM
        exact ⟨M.cur.pos, r.id, (advance_reads hrun).has _ _ _
          ⟨M.cur, cur_mem_all, rfl, r, by simp [htodo], rfl, rfl⟩⟩
      · cases hM
    · have := congrArg (·.2.1) hM
      simp only [popNothing] at this
      split at this <;> cases this
  · cases h

/-! ## An unread event is returned -/

/-- The differences of the sequence numbers fit into an `int32_t`. -/
def MinorNear (L : Layout) : Prop :=
  ∀ s ∈ L.segs, s.pos.majorSeq = L.writer.pos.majorSeq →
    L.writer.pos.minorSeq - s.pos.minorSeq < 0x80000000

/-- The difference of the offsets in one partition fits into an `int`. -/
def OffNear (L : Layout) : Prop :=
  L.cur.pos = L.writer.pos → L.writer.content.length - L.readOff < 0x80000000

theorem writer_mem_rest (hlost : L.lost = none) (hrest : L.rest ≠ []) : L.writer ∈ L.rest := by
  rw [writer, hlost, List.getLast?_eq_some_getLast hrest]
  exact List.getLast_mem hrest

theorem compare_of_rest (V : L.Valid) (hlost : L.lost = none) (near : L.MinorNear)
    (hrest : L.rest ≠ []) : L.compare > 0 := by
  have after := V.after_cur (writer_mem_rest hlost hrest)
  have hcur := near L.cur cur_mem_segs
  rw [SpoolPos.lt_def] at after
  unfold compare
  split
  · exact Int.one_pos
  · rename_i hmajor
    have heq : L.writer.pos.majorSeq = L.cur.pos.majorSeq := by omega
    have hdiff := hcur heq.symm
    have small : toInt32 ((L.writer.pos.minorSeq : Int) - L.cur.pos.minorSeq) =
        (L.writer.pos.minorSeq : Int) - L.cur.pos.minorSeq :=
      toInt32_of_range (by omega) (by omega)
    simp only [if_pos heq, small]
    rw [if_neg (by omega)]
    omega

theorem compare_of_todo (V : L.Valid) (hlost : L.lost = none) (near : L.OffNear)
    (hrest : L.rest = []) (htodo : L.cur.todo ≠ []) : L.compare > 0 := by
  have hwriter : L.writer = L.cur := by simp [writer, hlost, hrest]
  obtain ⟨r, todo, htodo⟩ := List.exists_cons_of_ne_nil htodo
  have off := (take_readOff V htodo).1
  have len : L.readOff < L.cur.content.length := by
    rw [off, Segment.content_of_todo htodo]
    simp only [List.length_append, Record.bytes_length]
    omega
  have hdiff := near (by rw [hwriter])
  rw [hwriter] at hdiff
  have small : toInt32 ((L.cur.content.length : Int) - L.readOff) =
      (L.cur.content.length : Int) - L.readOff := toInt32_of_range (by omega) (by omega)
  simp only [compare, hwriter, gt_iff_lt, Nat.lt_irrefl, ↓reduceIte, Int.sub_self, toInt32_zero,
    small]
  omega

theorem rest_of_unread (hunread : L.unread ≠ []) (htodo : L.cur.todo = []) : L.rest ≠ [] := by
  intro hrest
  exact hunread (by simp [unread_eq, htodo, hrest])

theorem compare_of_unread (V : L.Valid) (hlost : L.lost = none) (minor : L.MinorNear)
    (off : L.OffNear) (hunread : L.unread ≠ []) : L.compare > 0 := by
  by_cases hrest : L.rest = []
  · exact compare_of_todo V hlost off hrest fun htodo => rest_of_unread hunread htodo hrest
  · exact compare_of_rest V hlost minor hrest

theorem MinorNear.next (near : L.MinorNear) (hround : L.round = some (.inl L')) :
    L'.MinorNear := by
  obtain ⟨_, _, hleave⟩ | ⟨_, rfl, r, todo, htodo, _⟩ := round_next hround
  · obtain ⟨hrest, _, hwriter, _⟩ := leave_eq hleave
    intro s hs
    rw [hwriter]
    exact near s (List.mem_cons_of_mem _ (hrest ▸ hs))
  · intro s hs
    rw [(take_writer htodo).1]
    obtain rfl | hs := List.mem_cons.mp hs
    · simpa [take] using near L.cur cur_mem_segs
    · exact near s (List.mem_cons_of_mem _ hs)

theorem Valid.next (V : L.Valid) (hround : L.round = some (.inl L')) : L'.Valid := by
  obtain ⟨_, _, hleave⟩ | ⟨_, rfl, _⟩ := round_next hround
  · exact V.leave hleave
  · exact V.take

/-- The loop does not give up while there is an unread event. -/
theorem advance_finds (V : L.Valid) (hlost : L.lost = none) (fresh : L.NotStale)
    (near : L.MinorNear) (hunread : L.unread ≠ []) {a : Nat × Layout}
    (h : Loop.Ends round L a) : 0 < a.1 := by
  refine h.invariant (fun M => M.Valid ∧ M.lost = none ∧ M.NotStale ∧ M.MinorNear ∧ M.unread ≠ [])
    (fun a => 0 < a.1) ⟨V, hlost, fresh, near, hunread⟩ ?_ ?_
  · rintro M N ⟨V, hlost, fresh, near, hunread⟩ hround
    obtain ⟨same, fresh'⟩ := round_next_unread hround fresh
    exact ⟨V.next hround, (round_next_reads hround).lost.trans hlost, fresh', near.next hround,
      same ▸ hunread⟩
  · rintro M ⟨n, N⟩ ⟨V, hlost, fresh, near, hunread⟩ hround
    obtain ⟨hEnd, hcompare, _, _⟩ | ⟨hat, rfl, rfl⟩ := round_last hround
    · have hrest := rest_of_unread hunread (fresh.at_end hEnd).1
      exact absurd (compare_of_rest V hlost near hrest) hcompare
    · exact count_pos hat.1

/-- A pop that fails to read an event gets over a torn one. -/
theorem pop_torn (fresh : L.NotStale) {rounds : Nat} {parts : List Bytes}
    (h : L.pop rounds = some (L', .readError, parts)) : L'.tornAhead < L.tornAhead := by
  unfold pop at h
  split at h
  · obtain ⟨⟨n, M⟩, hrun, hM⟩ := Option.map_eq_some_iff.mp h
    obtain ⟨reads, _, _, event⟩ := advanced fresh ⟨rounds, hrun⟩
    simp only at hM reads event
    split at hM
    · rename_i hn
      have hresult : M.readEvent.2 = (.readError, parts) := by rw [hM]
      obtain ⟨r, hr, _⟩ | ⟨torn, notRead, _, hL, _⟩ := readEvent_unread (event hn)
      · rw [hr] at hresult
        cases hresult
      · refine Nat.lt_of_lt_of_le ?_ reads.torn
        rw [show L' = M.readEvent.1 by rw [hM], hL]
        simp [tornAhead, torn, notRead]
    · have hresult := congrArg (fun a => a.2.1) hM
      simp only [popNothing] at hresult
      split at hresult <;> cases hresult
  · cases h

/-- A pop with an unread event ahead returns it, or comes to a torn event. -/
theorem pop_finds (V : L.Valid) (hlost : L.lost = none) (fresh : L.NotStale)
    (minor : L.MinorNear) (off : L.OffNear) (hunread : L.unread ≠ []) {rounds : Nat} {rc : Rc}
    {parts : List Bytes} (h : L.pop rounds = some (L', rc, parts)) :
    rc = .noError ∨ rc = .readError := by
  rw [pop, if_pos (compare_of_unread V hlost minor off hunread)] at h
  obtain ⟨⟨n, M⟩, hrun, hM⟩ := Option.map_eq_some_iff.mp h
  have hn : n > 0 := advance_finds V hlost fresh minor hunread ⟨rounds, hrun⟩
  obtain ⟨_, _, _, event⟩ := advanced fresh ⟨rounds, hrun⟩
  simp only [if_pos hn] at hM event
  have hresult : M.readEvent.2 = (rc, parts) := by rw [hM]
  obtain ⟨r, hr, _⟩ | ⟨_, _, hr, _⟩ := readEvent_unread (event hn)
  · rw [hr] at hresult
    cases hresult
    exact .inl rfl
  · rw [hr] at hresult
    cases hresult
    exact .inr rfl

end

end Layout
end Yella
