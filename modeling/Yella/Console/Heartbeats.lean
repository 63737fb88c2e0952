import Mathlib.Logic.Function.Basic
import Yella.Console.Kept
import Yella.Lib.Machine

/-!
# The console over its runs

`model.cpp`: the agents in memory and those in the database, over any heartbeats and restarts.
-/

namespace Yella

/-! ## The constraints of the database -/

namespace Tables

variable {t : Tables} {ag : ConsoleAgent} {id : CppString} {next : Nat} {caps : List Capability}

theorem ids_outRows : (outRows id next caps).map OutCapRow.id = List.range' next caps.length := by
  induction caps generalizing next with
  | nil => rfl
  | cons c caps ih => rw [outRows, List.map_cons, ih, List.length_cons, List.range'_succ]

theorem configRows_refs {r : ConfigRow} (h : r ∈ configRows next caps) :
    ∃ o ∈ outRows id next caps, o.id = r.outCapId := by
  induction caps generalizing next with
  | nil => cases h
  | cons c caps ih =>
    rcases List.mem_append.mp h with own | later
    · obtain ⟨name, -, rfl⟩ := List.mem_map.mp own
      exact ⟨_, List.mem_cons_self, rfl⟩
    · obtain ⟨o, ho, same⟩ := ih later
      exact ⟨o, List.mem_cons_of_mem _ ho, same⟩

/-- The rows of an agent that is there violate no constraint. -/
theorem Keyed.withAgent (h : t.Keyed) (there : ag.id ∈ t.ids) : (t.withAgent ag).Keyed where
  ids := h.ids
  addressRefs r hr := by
    rcases List.mem_append.mp hr with old | new
    · exact h.addressRefs r old
    · obtain ⟨_, -, rfl⟩ := List.mem_map.mp new
      exact there
  inCapRefs r hr := by
    rcases List.mem_append.mp hr with old | new
    · exact h.inCapRefs r old
    · obtain ⟨_, -, rfl⟩ := List.mem_map.mp new
      exact there
  outCapRefs r hr := by
    rcases List.mem_append.mp hr with old | new
    · exact h.outCapRefs r old
    · rw [(mem_outRows new).1]
      exact there
  outCapIds := by
    show ((t.outCaps ++ outRows ag.id t.next.outCap ag.outCaps.elems).map OutCapRow.id).Nodup
    rw [List.map_append, ids_outRows]
    apply List.nodup_append.mpr
    refine ⟨h.outCapIds, List.nodup_range', fun n old m new => ?_⟩
    obtain ⟨r, hr, rfl⟩ := List.mem_map.mp old
    have older := h.outCapNext r hr
    have later := (List.mem_range'_1.mp new).1
    omega
  outCapNext r hr := by
    show r.id < t.next.outCap + ag.outCaps.elems.length
    rcases List.mem_append.mp hr with old | new
    · exact Nat.lt_add_right _ (h.outCapNext r old)
    · have : r.id ∈ (outRows ag.id t.next.outCap ag.outCaps.elems).map OutCapRow.id :=
        List.mem_map_of_mem new
      rw [ids_outRows] at this
      exact (List.mem_range'_1.mp this).2
  configRefs r hr := by
    rcases List.mem_append.mp hr with old | new
    · obtain ⟨o, ho, same⟩ := h.configRefs r old
      exact ⟨o, List.mem_append_left _ ho, same⟩
    · obtain ⟨o, ho, same⟩ := configRows_refs new
      exact ⟨o, List.mem_append_right _ ho, same⟩

/-- A new row in `agent` -/
theorem Keyed.newAgent (h : t.Keyed) {row : AgentRow} (new : row.id ∉ t.ids) :
    ({ t with agents := t.agents ++ [row] } : Tables).Keyed := by
  have more (id : CppString) (old : id ∈ t.ids) :
      id ∈ ({ t with agents := t.agents ++ [row] } : Tables).ids := by
    show id ∈ (t.agents ++ [row]).map AgentRow.id
    rw [List.map_append]
    exact List.mem_append_left _ old
  refine ⟨?_, fun r hr => more _ (h.addressRefs r hr), fun r hr => more _ (h.inCapRefs r hr),
    fun r hr => more _ (h.outCapRefs r hr), h.outCapIds, h.outCapNext, h.configRefs⟩
  show ((t.agents ++ [row]).map AgentRow.id).Nodup
  rw [List.map_append]
  apply List.nodup_append.mpr
  refine ⟨h.ids, List.nodup_singleton _, fun id old other same => ?_⟩
  rintro rfl
  cases List.mem_singleton.mp same
  exact new old

theorem Keyed.cleared (h : t.Keyed) : (t.cleared ag).Keyed := by
  have ids : (t.cleared ag).ids = t.ids := ids_map_update t ag
  refine ⟨ids ▸ h.ids, ?_, ?_, ?_, ?_, ?_, ?_⟩
  · exact fun r hr => ids ▸ h.addressRefs r (List.mem_of_mem_filter hr)
  · exact fun r hr => ids ▸ h.inCapRefs r (List.mem_of_mem_filter hr)
  · exact fun r hr => ids ▸ h.outCapRefs r (List.mem_of_mem_filter hr)
  · exact h.outCapIds.sublist (List.filter_sublist.map _)
  · exact fun r hr => h.outCapNext r (List.mem_of_mem_filter hr)
  · intro r hr
    obtain ⟨o, ho, same⟩ := h.configRefs r (List.mem_of_mem_filter hr)
    refine ⟨o, List.mem_filter.mpr ⟨ho, ?_⟩, same⟩
    have free := List.of_mem_filter hr
    simp only [decide_eq_true_eq] at free ⊢
    exact fun mine => free ⟨o, ho, mine, same⟩

end Tables

/-! ## The console -/

/-- `agents_[ag.id()] = ag` -/
def setAgent (agents : CppString → Option ConsoleAgent) (ag : ConsoleAgent) :
    CppString → Option ConsoleAgent :=
  Function.update agents ag.id (some ag)

/-- The map of the model, and the database behind it. -/
structure Console where
  agents : CppString → Option ConsoleAgent
  db : Tables

namespace Console

/-- The constructor of the model -/
def connect (clocks : Clocks) (db : Tables) : Console where
  agents := (retrieveAgents db clocks).foldl setAgent fun _ => none
  db := db

/-- The slot of the model. There is no result if the database refuses what it is given. -/
def heartbeat (c : Console) (ag : ConsoleAgent) : Option Console :=
  match c.agents ag.id with
  | some found =>
    if found ≠ ag then
      (update c.db ag).map fun db => ⟨setAgent c.agents ag, db⟩
    else some c
  | none => (store c.db ag).map fun db => ⟨setAgent c.agents ag, db⟩

end Console

/-- A heartbeat that cannot be read ends the console, which is a `restart` once it is back. -/
inductive ConsoleEvent where
  | heartbeat (ag : ConsoleAgent)
  | restart

namespace ConsoleEvent

def next (clocks : Clocks) (c : Console) : ConsoleEvent → Option Console
  | heartbeat ag => c.heartbeat ag
  | restart => some (.connect clocks c.db)

/-- The sequences, if each heartbeat is written. -/
def serials (next : Serials) : ConsoleEvent → Serials
  | heartbeat ag => next.after ag
  | restart => next

/-- What is known of each agent: the one in memory, and the one that the database returns. -/
structure Known where
  memory : CppString → Option ConsoleAgent
  stored : CppString → Option ConsoleAgent

/-- What the events are for. Only an agent that has changed is written. -/
def result (clocks : Clocks) (k : Known) : ConsoleEvent → Known
  | heartbeat ag =>
    if k.memory ag.id = some ag then k
    else
      { memory := setAgent k.memory ag
        stored := setAgent k.stored (returned clocks ag) }
  | restart => { k with memory := k.stored }

end ConsoleEvent

/-- The database can take the agents of the events: their texts are valid, and there are ids for all
rows. -/
structure ConsoleEvent.Accepted (events : List ConsoleEvent) (next : Serials) : Prop where
  valid : ∀ ag, .heartbeat ag ∈ events → ag.Valid
  room : (events.foldl ConsoleEvent.serials next).Within

/-- A machine over the consoles on a consistent database -/
def consoleMachine (clocks : Clocks) : Machine Console ConsoleEvent where
  start c := ∃ db : Tables, db.Consistent ∧ c = .connect clocks db
  next := ConsoleEvent.next clocks

/-- The agents with this id in the database -/
def agentsWithId (clocks : Clocks) (t : Tables) (id : CppString) : List ConsoleAgent :=
  (retrieveAgents t clocks).filter (·.id = id)

/-- The memory and the database hold what is known. -/
structure Console.Is (clocks : Clocks) (c : Console) (k : ConsoleEvent.Known) : Prop where
  consistent : c.db.Consistent
  memory : c.agents = k.memory
  stored : ∀ id, agentsWithId clocks c.db id = (k.stored id).toList
  same : ∀ id, (k.memory id).isSome = (k.stored id).isSome

section
variable {clocks : Clocks} {t t' : Tables} {ag : ConsoleAgent} {id : CppString} {c : Console}
  {k : ConsoleEvent.Known}

theorem setAgent_self (agents : CppString → Option ConsoleAgent) :
    setAgent agents ag ag.id = some ag :=
  Function.update_self ..

theorem setAgent_of_ne (agents : CppString → Option ConsoleAgent) (other : id ≠ ag.id) :
    setAgent agents ag id = agents id :=
  Function.update_of_ne other ..

theorem agentsWithId_eq (clocks : Clocks) (t : Tables) (id : CppString) :
    agentsWithId clocks t id = (t.agents.filter (·.id = id)).map (retrieveAgent t clocks) := by
  rw [agentsWithId, retrieveAgents, List.filter_map]
  rfl

theorem mem_ids_iff (clocks : Clocks) : id ∈ t.ids ↔ agentsWithId clocks t id ≠ [] := by
  rw [agentsWithId_eq, ne_eq, List.map_eq_nil_iff, List.filter_eq_nil_iff]
  simp [Tables.ids]

/-- The agent's own row, and those of the others as they were -/
theorem agentsWithId_written
    (mine : t'.agents.filter (·.id = ag.id) = [ownRow ag])
    (own : retrieveAgent t' clocks (ownRow ag) = returned clocks ag)
    (rest : ∀ id ≠ ag.id, t'.agents.filter (·.id = id) = t.agents.filter (·.id = id))
    (others : ∀ r, r.id ≠ ag.id → retrieveAgent t' clocks r = retrieveAgent t clocks r) :
    agentsWithId clocks t' =
      Function.update (agentsWithId clocks t) ag.id [returned clocks ag] := by
  funext id
  by_cases same : id = ag.id
  · subst same
    rw [Function.update_self, agentsWithId_eq, mine, List.map_singleton, own]
  · rw [Function.update_of_ne same, agentsWithId_eq, agentsWithId_eq, rest id same]
    apply List.map_congr_left
    intro r hr
    have row : r.id = id := by simpa using List.of_mem_filter hr
    exact others r (row ▸ same)

theorem store_spec (clocks : Clocks) (h : t.Consistent) (valid : ag.Valid) (room : t.next.Room ag)
    (new : ag.id ∉ t.ids) :
    ∃ t', store t ag = some t' ∧ t'.Consistent ∧ t'.next = t.next.after ag ∧
      agentsWithId clocks t' =
        Function.update (agentsWithId clocks t) ag.id [returned clocks ag] := by
  have bare := Tables.bare_storeAgent h new
  have stored := (Tables.store_iff h valid new).mpr ⟨room, rfl⟩
  have keyed := (@Tables.Keyed.newAgent t h.toKeyed (ownRow ag) new).withAgent bare.there
  refine ⟨_, stored, ⟨keyed, h.texts.store stored, room⟩, rfl, ?_⟩
  apply agentsWithId_written
  · have fresh : ∀ r ∈ t.agents, r.id ≠ ag.id := by
      intro r hr same
      exact new (List.mem_map.mpr ⟨r, hr, same⟩)
    show (t.agents ++ [ownRow ag]).filter (·.id = ag.id) = [ownRow ag]
    rw [List.filter_append, Tables.filter_none fresh]
    simp [ownRow]
  · exact retrieveAgent_own bare
  · intro id other
    show (t.agents ++ [ownRow ag]).filter (·.id = id) = t.agents.filter (·.id = id)
    rw [List.filter_append]
    simp [ownRow, other.symm]
  · intro r other
    exact Tables.retrieveAgent_other clocks bare other

theorem update_spec (clocks : Clocks) (h : t.Consistent) (valid : ag.Valid)
    (room : t.next.Room ag) (old : ag.id ∈ t.ids) :
    ∃ t', update t ag = some t' ∧ t'.Consistent ∧ t'.next = t.next.after ag ∧
      agentsWithId clocks t' =
        Function.update (agentsWithId clocks t) ag.id [returned clocks ag] := by
  have bare := Tables.bare_cleared h old
  have updated := (Tables.update_iff h valid old).mpr ⟨room, rfl⟩
  have keyed := h.toKeyed.cleared.withAgent bare.there
  refine ⟨_, updated, ⟨keyed, h.texts.update updated, room⟩, rfl, ?_⟩
  apply agentsWithId_written
  · exact filter_update h.ids old
  · exact retrieveAgent_own bare
  · intro id other
    show (t.agents.map fun r => if r.id = ag.id then ownRow ag else r).filter (·.id = id) = _
    rw [List.filter_map]
    have kept : ∀ r ∈ t.agents, ((fun r : AgentRow => decide (r.id = id)) ∘
        fun r => if r.id = ag.id then ownRow ag else r) r = decide (r.id = id) := by
      intro r _
      by_cases same : r.id = ag.id
      · simp [same, ownRow]
      · simp [same]
    rw [List.filter_congr kept]
    conv_rhs => rw [← List.map_id (t.agents.filter _)]
    apply List.map_congr_left
    intro r hr
    have row : r.id = id := by simpa using List.of_mem_filter hr
    rw [if_neg (row ▸ other), id_eq]
  · intro r other
    rw [Tables.retrieveAgent_other clocks bare other, Tables.retrieveAgent_cleared clocks h other]

/-! ## What a step keeps -/

/-- The last agent of each id is the one that stays in the map. -/
theorem foldl_setAgent (l : List ConsoleAgent) (agents : CppString → Option ConsoleAgent)
    (id : CppString) :
    l.foldl setAgent agents id = ((l.filter (·.id = id)).getLast?).or (agents id) := by
  induction l generalizing agents with
  | nil => simp
  | cons ag l ih =>
    rw [List.foldl_cons, ih]
    by_cases same : ag.id = id
    · rw [List.filter_cons_of_pos (by simpa using same), List.getLast?_cons, ← same, setAgent_self]
      cases (l.filter (·.id = ag.id)).getLast? <;> rfl
    · rw [List.filter_cons_of_neg (by simpa using same), setAgent_of_ne _ (Ne.symm same)]

theorem getLast?_toList {α : Type} (o : Option α) : o.toList.getLast? = o := by
  cases o <;> rfl

/-- A console that connects knows what the database returns. -/
theorem Console.connect_is (consistent : t.Consistent) {stored : CppString → Option ConsoleAgent}
    (all : ∀ id, agentsWithId clocks t id = (stored id).toList) :
    (Console.connect clocks t).Is clocks ⟨stored, stored⟩ where
  consistent := consistent
  memory := by
    funext id
    have own := all id
    rw [agentsWithId] at own
    show (retrieveAgents t clocks).foldl setAgent (fun _ => none) id = stored id
    rw [foldl_setAgent, own, getLast?_toList, Option.or_none]
  stored := all
  same _ := rfl

theorem Console.Is.mem_ids_iff (h : c.Is clocks k) : id ∈ c.db.ids ↔ k.memory id ≠ none := by
  rw [Yella.mem_ids_iff clocks, h.stored, ← Option.isSome_iff_ne_none, h.same]
  simp [Option.isSome_iff_ne_none]

theorem Console.Is.written (h : c.Is clocks k) (consistent : t.Consistent)
    (all : agentsWithId clocks t =
      Function.update (agentsWithId clocks c.db) ag.id [returned clocks ag]) :
    (⟨setAgent c.agents ag, t⟩ : Console).Is clocks
      ⟨setAgent k.memory ag, setAgent k.stored (returned clocks ag)⟩ where
  consistent := consistent
  memory := by rw [h.memory]
  stored id := by
    show agentsWithId clocks t id = (setAgent k.stored (returned clocks ag) id).toList
    rw [all]
    by_cases own : id = (returned clocks ag).id
    · subst own
      rw [setAgent_self]
      exact Function.update_self ..
    · rw [setAgent_of_ne _ own, ← h.stored]
      exact Function.update_of_ne own ..
  same id := by
    show (setAgent k.memory ag id).isSome = (setAgent k.stored (returned clocks ag) id).isSome
    by_cases own : id = (returned clocks ag).id
    · subst own
      rw [setAgent_self, show (returned clocks ag).id = ag.id from rfl, setAgent_self]
      rfl
    · have other : id ≠ ag.id := own
      rw [setAgent_of_ne _ own, setAgent_of_ne _ other, h.same]

/-- Each id of one is at most that of the other. -/
structure Serials.Upto (next last : Serials) : Prop where
  ipAddress : next.ipAddress ≤ last.ipAddress
  inCap : next.inCap ≤ last.inCap
  outCap : next.outCap ≤ last.outCap
  config : next.config ≤ last.config

namespace Serials.Upto

variable {a b d : Serials}

theorem refl (a : Serials) : a.Upto a := ⟨le_refl _, le_refl _, le_refl _, le_refl _⟩

theorem trans (h : a.Upto b) (h' : b.Upto d) : a.Upto d :=
  ⟨h.ipAddress.trans h'.ipAddress, h.inCap.trans h'.inCap, h.outCap.trans h'.outCap,
    h.config.trans h'.config⟩

theorem within (h : a.Upto b) (within : b.Within) : a.Within :=
  ⟨h.ipAddress.trans within.ipAddress, h.inCap.trans within.inCap, h.outCap.trans within.outCap,
    h.config.trans within.config⟩

theorem after (h : a.Upto b) (ag : ConsoleAgent) : (a.after ag).Upto (b.after ag) :=
  ⟨Nat.add_le_add_right h.ipAddress _, Nat.add_le_add_right h.inCap _,
    Nat.add_le_add_right h.outCap _, Nat.add_le_add_right h.config _⟩

theorem self_after (a : Serials) (ag : ConsoleAgent) : a.Upto (a.after ag) :=
  ⟨Nat.le_add_right .., Nat.le_add_right .., Nat.le_add_right .., Nat.le_add_right ..⟩

theorem foldl (events : List ConsoleEvent) (a : Serials) :
    a.Upto (events.foldl ConsoleEvent.serials a) := by
  induction events generalizing a with
  | nil => exact refl a
  | cons e events ih =>
    refine trans ?_ (ih (e.serials a))
    cases e with
    | heartbeat ag => exact self_after a ag
    | restart => exact refl a

end Serials.Upto

/-- The database refuses nothing that it can take, and memory and tables change together. -/
theorem Console.Is.next (h : c.Is clocks k) (e : ConsoleEvent)
    (valid : ∀ ag, e = .heartbeat ag → ag.Valid) (room : (e.serials c.db.next).Within) :
    ∃ d, e.next clocks c = some d ∧ d.db.next.Upto (e.serials c.db.next) ∧
      d.Is clocks (e.result clocks k) := by
  cases e with
  | restart => exact ⟨_, rfl, .refl _, connect_is h.consistent h.stored⟩
  | heartbeat ag =>
    show ∃ d, c.heartbeat ag = some d ∧ _ ∧ d.Is clocks _
    have valid := valid ag rfl
    rw [Console.heartbeat, h.memory, ConsoleEvent.result]
    cases found : k.memory ag.id with
    | none =>
      have new : ag.id ∉ c.db.ids := fun there => h.mem_ids_iff.mp there found
      obtain ⟨t, stored, consistent, next, all⟩ := store_spec clocks h.consistent valid room new
      rw [if_neg (by simp)]
      exact ⟨_, by rw [stored]; rfl, next ▸ .refl _, h.memory ▸ h.written consistent all⟩
    | some old =>
      by_cases same : old = ag
      · subst same
        exact ⟨c, if_neg (not_not.mpr rfl), .self_after _ old, by rwa [if_pos rfl]⟩
      · have there : ag.id ∈ c.db.ids := h.mem_ids_iff.mpr (by simp [found])
        obtain ⟨t, updated, consistent, next, all⟩ :=
          update_spec clocks h.consistent valid room there
        rw [if_neg (by simpa using same)]
        refine ⟨_, ?_, next ▸ .refl _, h.memory ▸ h.written consistent all⟩
        show (if old ≠ ag then _ else _) = _
        rw [if_pos same, updated]
        rfl

/-! ## Over any events -/

theorem Serials.Upto.serials {a b : Serials} (h : a.Upto b) (events : List ConsoleEvent) :
    (events.foldl ConsoleEvent.serials a).Upto (events.foldl ConsoleEvent.serials b) := by
  induction events generalizing a b with
  | nil => exact h
  | cons e events ih =>
    cases e with
    | heartbeat ag => exact ih (h.after ag)
    | restart => exact ih h

theorem Console.Is.after (h : c.Is clocks k) (events : List ConsoleEvent)
    (accepted : ConsoleEvent.Accepted events c.db.next) :
    ∃ d, (consoleMachine clocks).after c events = some d ∧
      d.Is clocks (events.foldl (ConsoleEvent.result clocks) k) := by
  induction events generalizing c k with
  | nil => exact ⟨c, rfl, h⟩
  | cons e events ih =>
    obtain ⟨d, next, upto, is⟩ := h.next e
      (fun ag own => accepted.valid ag (own ▸ List.mem_cons_self))
      ((Serials.Upto.foldl events _).within accepted.room)
    obtain ⟨d', after, is'⟩ := ih is {
      valid := fun ag there => accepted.valid ag (List.mem_cons_of_mem e there)
      room := (upto.serials events).within accepted.room }
    have first : (consoleMachine clocks).next c e = some d := next
    exact ⟨d', by rw [Machine.after, first]; exact after, is'⟩

/-- What the database returns for each id when the console connects -/
def storedIn (clocks : Clocks) (t : Tables) (id : CppString) : Option ConsoleAgent :=
  (agentsWithId clocks t id).head?

theorem filter_id_of_nodup {rows : List AgentRow} (nodup : (rows.map AgentRow.id).Nodup)
    (id : CppString) : (rows.filter (·.id = id)).length ≤ 1 := by
  have keys : ((rows.filter (·.id = id)).map AgentRow.id).Nodup :=
    nodup.sublist (List.filter_sublist.map _)
  have all : (rows.filter (·.id = id)).map AgentRow.id =
      List.replicate (rows.filter (·.id = id)).length id := by
    apply List.eq_replicate_iff.mpr
    refine ⟨List.length_map _, fun other there => ?_⟩
    obtain ⟨r, hr, rfl⟩ := List.mem_map.mp there
    simpa using List.of_mem_filter hr
  rw [all] at keys
  exact List.nodup_replicate.mp keys

theorem agentsWithId_toList (clocks : Clocks) (consistent : t.Consistent) (id : CppString) :
    agentsWithId clocks t id = (storedIn clocks t id).toList := by
  have one := filter_id_of_nodup consistent.ids id
  rw [storedIn, agentsWithId_eq]
  cases rows : t.agents.filter (·.id = id) with
  | nil => rfl
  | cons r more =>
    rw [rows] at one
    have last : more = [] := List.eq_nil_of_length_eq_zero (by simpa using one)
    rw [last]
    rfl

/-- **Two maps are all there is.** Over any heartbeats that the database can take, and any restarts,
it refuses nothing; the memory and the tables hold for each id what the heartbeats say, the tables
after their round trip and only as often as the memory changes. -/
theorem console_refines_known (clocks : Clocks) (t : Tables) (consistent : t.Consistent)
    (events : List ConsoleEvent) (accepted : ConsoleEvent.Accepted events t.next) :
    ∃ c, (consoleMachine clocks).after (.connect clocks t) events = some c ∧
      c.Is clocks (events.foldl (ConsoleEvent.result clocks)
        ⟨storedIn clocks t, storedIn clocks t⟩) :=
  (Console.connect_is consistent (agentsWithId_toList clocks consistent)).after events accepted

theorem agentWith_valid : (agentWith [104] []).Valid := by
  unfold ConsoleAgent.Valid
  decide

theorem console_refines_known_restart :
    ∃ c, (consoleMachine (clocksAt ⟨3600, by decide⟩)).after
        (.connect (clocksAt ⟨3600, by decide⟩) emptyTables)
        [.heartbeat (agentWith [104] []), .restart, .heartbeat (agentWith [104] [])] = some c ∧
      c.Is (clocksAt ⟨3600, by decide⟩) ([.heartbeat (agentWith [104] []), .restart,
        .heartbeat (agentWith [104] [])].foldl (ConsoleEvent.result (clocksAt ⟨3600, by decide⟩))
          ⟨storedIn (clocksAt ⟨3600, by decide⟩) emptyTables,
            storedIn (clocksAt ⟨3600, by decide⟩) emptyTables⟩) :=
  console_refines_known (clocksAt ⟨3600, by decide⟩) emptyTables emptyTables_consistent
    [.heartbeat (agentWith [104] []), .restart, .heartbeat (agentWith [104] [])] {
      valid := by
        intro ag there
        have own : ag = agentWith [104] [] := by simpa using there
        exact own ▸ agentWith_valid
      room := ⟨by decide, by decide, by decide, by decide⟩ }

/-- The agent that each id has last reported -/
def ConsoleEvent.report (agents : CppString → Option ConsoleAgent) :
    ConsoleEvent → CppString → Option ConsoleAgent
  | heartbeat ag => setAgent agents ag
  | restart => agents

theorem foldl_result_storable (events : List ConsoleEvent)
    (storable : ∀ ag, .heartbeat ag ∈ events → Storable clocks ag)
    (agents : CppString → Option ConsoleAgent) :
    events.foldl (ConsoleEvent.result clocks) ⟨agents, agents⟩ =
      ⟨events.foldl ConsoleEvent.report agents, events.foldl ConsoleEvent.report agents⟩ := by
  induction events generalizing agents with
  | nil => rfl
  | cons e events ih =>
    have rest := ih fun ag hag => storable ag (List.mem_cons_of_mem _ hag)
    rw [List.foldl_cons, List.foldl_cons]
    cases e with
    | restart => exact rest agents
    | heartbeat ag =>
      have own := storable ag List.mem_cons_self
      rw [ConsoleEvent.result, ConsoleEvent.report, (returned_eq_iff own.texts).mpr own]
      by_cases known : agents ag.id = some ag
      · have same : setAgent agents ag = agents := by
          rw [setAgent, ← known]
          exact Function.update_eq_self ..
        rw [if_pos known, same]
        exact rest agents
      · rw [if_neg known]
        exact rest (setAgent agents ag)

/-- **What was last reported is what there is.** As long as the agents lose nothing in the database
and it has ids for their rows, the memory and the database both hold the last report of each agent,
and a restart changes neither. -/
theorem last_reports_kept (clocks : Clocks) (t : Tables) (consistent : t.Consistent)
    (events : List ConsoleEvent)
    (storable : ∀ ag, .heartbeat ag ∈ events → Storable clocks ag)
    (room : (events.foldl ConsoleEvent.serials t.next).Within) :
    ∃ c, (consoleMachine clocks).after (.connect clocks t) events = some c ∧
      c.agents = events.foldl ConsoleEvent.report (storedIn clocks t) ∧
      ∀ id, agentsWithId clocks c.db id =
        (events.foldl ConsoleEvent.report (storedIn clocks t) id).toList := by
  have start := Console.connect_is consistent (agentsWithId_toList clocks consistent)
  obtain ⟨c, after, is⟩ := start.after events ⟨fun ag there => (storable ag there).texts, room⟩
  rw [foldl_result_storable events storable] at is
  exact ⟨c, after, is.memory, is.stored⟩

theorem last_reports_kept_restart :
    ∃ c, (consoleMachine (clocksAt ⟨0, by decide⟩)).after
        (.connect (clocksAt ⟨0, by decide⟩) emptyTables)
        [.heartbeat (agentWith [104] []), .restart] = some c ∧
      c.agents = [.heartbeat (agentWith [104] []), .restart].foldl ConsoleEvent.report
        (storedIn (clocksAt ⟨0, by decide⟩) emptyTables) ∧
      ∀ id, agentsWithId (clocksAt ⟨0, by decide⟩) c.db id =
        ([.heartbeat (agentWith [104] []), .restart].foldl ConsoleEvent.report
          (storedIn (clocksAt ⟨0, by decide⟩) emptyTables) id).toList :=
  last_reports_kept (clocksAt ⟨0, by decide⟩) emptyTables emptyTables_consistent _ (by
    intro ag there
    have own : ag = agentWith [104] [] := by simpa using there
    subst own
    exact ⟨agentWith_valid, by decide, rfl⟩) ⟨by decide, by decide, by decide, by decide⟩

end

end Yella
