import Yella.Spool.Empty
import Yella.Spool.Fifo

/-!
# The spool of a session with an event

From the first push after the spool was opened until it is closed, the writer's partition is
larger than a new one, and the spool is not taken to be empty, read or not.
-/

namespace Yella

/-- An event was pushed since the spool was opened. -/
def pushedSinceOpened (trace : SpoolTrace) : Bool :=
  trace.foldl (fun pushed call => match call.1 with
    | .push _ _ => true
    | .pop _ => pushed
    | .restart _ => false) false

theorem pushedSinceOpened_snoc (trace : SpoolTrace) (op : SpoolOp) (out : SpoolOutcome) :
    pushedSinceOpened (trace ++ [(op, out)]) = match op with
      | .push _ _ => true
      | .pop _ => pushedSinceOpened trace
      | .restart _ => false := by
  rw [pushedSinceOpened, List.foldl_append]
  rfl

def SizedAllowed (sp : Spool) (op : SpoolOp) : Prop := KeptAllowed sp op ∧ SizeFits sp op

instance (sp : Spool) (op : SpoolOp) : Decidable (SizeFits sp op) :=
  match op with
  | .push _ _ => inferInstanceAs (Decidable (_ < _))
  | .pop _ => .isTrue trivial
  | .restart _ => inferInstanceAs (Decidable (_ < _))

instance (sp : Spool) (op : SpoolOp) : Decidable (SizedAllowed sp op) :=
  inferInstanceAs (Decidable (_ ∧ _))

/-- The size is counted, and an event of this session is in the writer's partition. -/
structure Filled (trace : SpoolTrace) (L : Layout) : Prop where
  unculled : Unculled trace L
  counted : L.Counted
  small : L.size < 0x10000000000000000
  written : pushedSinceOpened trace = true → headerSize < L.writer.content.length

section
variable {lo : ListingOrder} {trace : SpoolTrace} {L L' : Layout} {sp : Spool}

theorem add_written (r : Record) : headerSize < (L.add r).writer.content.length := by
  have hwriter : (L.add r).writer = Segment.add r L.writer :=
    (@Layout.mapWriter_eq L (Segment.add r)).2
  rw [hwriter, Segment.content_length]
  simp only [Segment.add, encodeAll_append, encodeAll_cons, encodeAll_nil, List.append_nil,
    List.length_append, Record.bytes_length]
  omega

theorem Filled.step (R : Represents L sp) (V : L.Valid) (inv : Filled trace L) {op : SpoolOp}
    {out : SpoolOutcome} (allowed : SizedAllowed sp op)
    (step : LayoutStep (storedEvents trace).length L op out L') :
    Filled (trace ++ [(op, out)]) L' := by
  obtain ⟨kept, sized⟩ := allowed
  obtain ⟨unculled, counted, small, written⟩ := inv
  have full : ∀ msgs allow, op = .push msgs allow → allow = .full := by
    rintro msgs allow rfl
    exact kept.1.2.1
  have sized := Layout.Sized.step ⟨counted, small⟩ R unculled.lost sized full step
  refine ⟨unculled.step R V kept step, sized.counted, sized.small, ?_⟩
  rw [pushedSinceOpened_snoc]
  cases step with
  | push wf _ _ h =>
    obtain ⟨rfl, _⟩ := push_unculled h ((R.culls _ wf).symm.trans kept.1.2.2)
    exact fun _ => add_written _
  | tear _ _ short => exact absurd kept.1.2.1 short
  | pop h =>
    rw [(Layout.pop_reads h).written]
    exact written
  | restart =>
    intro pushed
    cases pushed

/-- A spool with an event of this session is not taken to be empty. -/
theorem not_empty_since_push (run : SpoolRun lo SizedAllowed trace sp)
    (pushed : pushedSinceOpened trace = true) : spoolEmptyOfMessages sp = false := by
  obtain ⟨L, R, V, inv⟩ := run_invariant Filled
    (fun settings next => by
      obtain ⟨sized, -⟩ := Layout.Sized.opened settings next
      exact ⟨.start settings next, sized.counted, sized.small, fun pushed => by cases pushed⟩)
    (fun _ _ _ _ R V inv allowed => inv.unculled.fits R V allowed.1)
    (fun _ _ _ _ _ _ R V inv allowed step _ => inv.step R V allowed step) run
  have larger := Nat.lt_of_lt_of_le (inv.written pushed)
    (Layout.content_le_size (Layout.writer_mem_segs inv.unculled.lost))
  rw [Bool.eq_false_iff, Ne, Layout.Sized.empty_iff ⟨inv.counted, inv.small⟩ R]
  exact Nat.ne_of_gt larger

end

end Yella
