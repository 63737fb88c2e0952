import Yella.Agent.Heartbeat
import Yella.Lib.Machine
import Yella.Lib.SortedList

/-!
# The plugins of the agent

`load_plugins` of `agent.c`, and what the agent calls in the plugins until `yella_destroy_agent` has
closed them: the heartbeat thread asks for their status, and the router's thread hands them the
messages of their types.
-/

namespace Yella

/-- A file that can be opened: what `plugin_start` returns, if it is there, and whether the other
two functions are. -/
structure SharedObject where
  start : Option (Option YellaPlugin)
  status : Bool
  stop : Bool

inductive PluginCall where
  | opened
  | start
  | status
  | handle (type : UStr)
  | stop
  | close
  deriving DecidableEq

/-- An `in_handler`; `func` and `udata` are those of the object's plugin. -/
structure InHandlerNode where
  key : UStr
  object : ℕ

abbrev HandlerTree := SortedList.Tree InHandlerNode.key

/-- Where `yella_create_agent` and `yella_destroy_agent` are. -/
inductive HostPhase where
  | loading
  | running
  | heartbeatJoined
  | closing (rest : List ℕ)
  deriving DecidableEq

/-- The objects are numbered as they are opened. -/
structure PluginHost where
  opened : ℕ
  plugins : List (ℕ × YellaPlugin)
  inHandlers : HandlerTree
  calls : List (ℕ × PluginCall)
  phase : HostPhase
  /-- The plugins that the heartbeat thread has not come to, while it asks them -/
  asking : Option (List ℕ)
  /-- The object whose handler runs -/
  handling : Option ℕ

inductive HostEvent where
  /-- One round of `load_plugins`; a file that cannot be opened is `none`. -/
  | load (file : Option SharedObject)
  | create
  | beat
  | askStatus
  | sendHeartbeat
  | message (type : UStr)
  | handled
  | joinHeartbeat
  | destroyRouter
  | closePlugin

namespace PluginHost

def start : PluginHost := ⟨0, [], .empty, [], .loading, none, none⟩

/-- The rounds over the `in_caps` of a plugin -/
def register (object : ℕ) (handlers : HandlerTree) (cap : PluginInCap) : HandlerTree :=
  if (handlers.find cap.name).isNone then handlers.add ⟨cap.name, object⟩
  else handlers.modify cap.name (fun node => { node with object := object }) fun _ => rfl

/-- A new object that is not kept -/
def refuse (s : PluginHost) (calls : List PluginCall) : PluginHost :=
  { s with opened := s.opened + 1, calls := s.calls ++ calls.map (s.opened, ·) }

def accept (s : PluginHost) (plugin : YellaPlugin) : PluginHost :=
  { s with
    opened := s.opened + 1
    plugins := s.plugins ++ [(s.opened, plugin)]
    inHandlers := plugin.inCaps.foldl (register s.opened) s.inHandlers
    calls := s.calls ++ [(s.opened, .opened), (s.opened, .start)] }

def loadPlugin (s : PluginHost) : Option SharedObject → PluginHost
  | none => s
  | some so =>
    match so.start with
    | none => s.refuse [.opened, .close]
    | some none => s.refuse [.opened, .start, .close]
    | some (some plugin) =>
      if so.status && so.stop then s.accept plugin else s.refuse [.opened, .start, .close]

/-- The callback of the router is set and its thread runs. -/
def receives (s : PluginHost) : Bool := s.phase = .running || s.phase = .heartbeatJoined

def next (s : PluginHost) : HostEvent → Option PluginHost
  | .load file => if s.phase = .loading then some (s.loadPlugin file) else none
  | .create => if s.phase = .loading then some { s with phase := .running } else none
  | .beat =>
    if s.phase = .running ∧ s.asking = none then
      some { s with asking := some (s.plugins.map Prod.fst) }
    else none
  | .askStatus =>
    match s.asking with
    | some (k :: rest) => some { s with calls := s.calls ++ [(k, .status)], asking := some rest }
    | _ => none
  | .sendHeartbeat => if s.asking = some [] then some { s with asking := none } else none
  | .message type =>
    if s.receives ∧ s.handling = none then
      match s.inHandlers.find type with
      | none => some s
      | some node => some { s with
          calls := s.calls ++ [(node.object, .handle type)]
          handling := some node.object }
    else none
  | .handled => if s.handling.isSome then some { s with handling := none } else none
  | .joinHeartbeat =>
    if s.phase = .running ∧ s.asking = none then some { s with phase := .heartbeatJoined } else none
  | .destroyRouter =>
    if s.phase = .heartbeatJoined ∧ s.handling = none then some { s with
        inHandlers := .empty
        phase := .closing (s.plugins.map Prod.fst) }
    else none
  | .closePlugin =>
    match s.phase with
    | .closing (k :: rest) => some { s with
        calls := s.calls ++ [(k, .stop), (k, .close)]
        phase := .closing rest }
    | _ => none

/-- The plugins that have not been closed -/
def held (s : PluginHost) : List ℕ :=
  match s.phase with
  | .closing rest => rest
  | _ => s.plugins.map Prod.fst

end PluginHost

def pluginHost : Machine PluginHost HostEvent where
  start s := s = .start
  next := PluginHost.next

/-! ## The calls of one object -/

def callsOf (k : ℕ) (calls : List (ℕ × PluginCall)) : List PluginCall :=
  (calls.filter fun call => call.1 = k).map Prod.snd

def PluginCall.Uses (c : PluginCall) : Prop := c = .status ∨ ∃ type, c = .handle type

/-- Opened, started and used -/
def Serves (calls : List PluginCall) : Prop :=
  ∃ uses, (∀ c ∈ uses, PluginCall.Uses c) ∧ calls = .opened :: .start :: uses

/-- What is done with an object from its opening to its closing -/
inductive Complete : List PluginCall → Prop
  | noStart : Complete [.opened, .close]
  | refused : Complete [.opened, .start, .close]
  | served {calls : List PluginCall} : Serves calls → Complete (calls ++ [.stop, .close])

section
variable {k k' : ℕ} {calls : List (ℕ × PluginCall)} {c : PluginCall} {cs : List PluginCall}

theorem callsOf_same (k : ℕ) (calls : List (ℕ × PluginCall)) (cs : List PluginCall) :
    callsOf k (calls ++ cs.map (k, ·)) = callsOf k calls ++ cs := by
  unfold callsOf
  rw [List.filter_append, List.map_append, List.append_cancel_left_eq]
  induction cs with
  | nil => rfl
  | cons c cs ih => simp [ih]

theorem callsOf_other (other : k' ≠ k) :
    callsOf k (calls ++ cs.map (k', ·)) = callsOf k calls := by
  unfold callsOf
  rw [List.filter_append, List.map_append, List.append_right_eq_self]
  simp [other]

theorem Serves.use (h : Serves cs) (uses : c.Uses) : Serves (cs ++ [c]) := by
  obtain ⟨before, all, rfl⟩ := h
  refine ⟨before ++ [c], ?_, rfl⟩
  intro d hd
  rcases List.mem_append.mp hd with old | new
  · exact all d old
  · cases List.mem_singleton.mp new
    exact uses

end

/-! ## Handlers -/

/-- The plugin that was loaded last of those that take messages of the type -/
def lastTaking (plugins : List (ℕ × YellaPlugin)) (type : UStr) : Option ℕ :=
  (plugins.reverse.find? fun p => type ∈ p.2.inCaps.map PluginInCap.name).map Prod.fst

section
variable {handlers : HandlerTree} {object : ℕ} {type : UStr}

theorem find_register (cap : PluginInCap) :
    (PluginHost.register object handlers cap).find type =
      if type = cap.name then some ⟨type, object⟩ else handlers.find type := by
  unfold PluginHost.register
  split
  · rw [SortedList.Tree.find_add]
    by_cases own : type = cap.name <;> simp [own]
  · rename_i known
    rw [SortedList.Tree.find_modify]
    by_cases own : type = cap.name
    · subst own
      obtain ⟨node, found⟩ :=
        Option.ne_none_iff_exists'.mp (mt Option.isNone_iff_eq_none.mpr known)
      obtain ⟨_, key⟩ := SortedList.find_some InHandlerNode.key found
      rw [if_pos rfl, if_pos rfl, found, Option.map_some, key]
    · rw [if_neg own, if_neg own]

theorem find_registerAll (caps : List PluginInCap) :
    (caps.foldl (PluginHost.register object) handlers).find type =
      if type ∈ caps.map PluginInCap.name then some ⟨type, object⟩ else handlers.find type := by
  induction caps generalizing handlers with
  | nil => rfl
  | cons cap caps ih =>
    rw [List.foldl_cons, ih, find_register, List.map_cons]
    by_cases own : type = cap.name <;> by_cases later : type ∈ caps.map PluginInCap.name <;>
      simp [own, later]

theorem lastTaking_snoc (plugins : List (ℕ × YellaPlugin)) (plugin : YellaPlugin) :
    lastTaking (plugins ++ [(object, plugin)]) type =
      if type ∈ plugin.inCaps.map PluginInCap.name then some object
      else lastTaking plugins type := by
  unfold lastTaking
  rw [List.reverse_concat, List.find?_cons]
  split
  · rename_i takes
    rw [if_pos (of_decide_eq_true takes), Option.map_some]
  · rename_i other
    rw [if_neg (of_decide_eq_false other)]

theorem lastTaking_mem {plugins : List (ℕ × YellaPlugin)}
    (h : lastTaking plugins type = some object) : object ∈ plugins.map Prod.fst := by
  obtain ⟨p, found, rfl⟩ := Option.map_eq_some_iff.mp h
  exact List.mem_map_of_mem (List.mem_reverse.mp (List.mem_of_find?_eq_some found))

end

/-! ## The invariant -/

def HostPhase.closes : HostPhase → Bool
  | .closing _ => true
  | _ => false

structure HostInvariant (s : PluginHost) : Prop where
  unopened : ∀ k, s.opened ≤ k → callsOf k s.calls = []
  bounded : ∀ k ∈ s.held, k < s.opened
  distinct : s.held.Nodup
  serves : ∀ k ∈ s.held, Serves (callsOf k s.calls)
  complete : ∀ k < s.opened, k ∉ s.held → Complete (callsOf k s.calls)
  asked : ∀ rest, s.asking = some rest → s.phase = .running ∧ ∀ k ∈ rest, k ∈ s.held
  handlers : s.phase.closes = false → ∀ type,
    s.inHandlers.find type = (lastTaking s.plugins type).map fun k => ⟨type, k⟩

section
variable {s t : PluginHost} {k : ℕ} {c : PluginCall} {cs : List PluginCall} {e : HostEvent}
  {events : List HostEvent}

theorem held_of_not_closes (open' : s.phase.closes = false) : s.held = s.plugins.map Prod.fst := by
  unfold PluginHost.held
  split
  · rename_i closing
    rw [closing] at open'
    cases open'
  · rfl

theorem hostInvariant_start : HostInvariant .start where
  unopened _ _ := rfl
  bounded _ there := absurd there List.not_mem_nil
  distinct := List.nodup_nil
  serves _ there := absurd there List.not_mem_nil
  complete _ below := absurd below (Nat.not_lt_zero _)
  asked _ asks := by cases asks
  handlers _ _ := rfl

/-- The calls after one of a plugin that is held -/
theorem HostInvariant.use (inv : HostInvariant s) (there : k ∈ s.held) (uses : c.Uses) :
    (∀ i, s.opened ≤ i → callsOf i (s.calls ++ [(k, c)]) = []) ∧
      (∀ i ∈ s.held, Serves (callsOf i (s.calls ++ [(k, c)]))) ∧
      ∀ i < s.opened, i ∉ s.held → Complete (callsOf i (s.calls ++ [(k, c)])) := by
  have other {i : ℕ} (other : k ≠ i) : callsOf i (s.calls ++ [(k, c)]) = callsOf i s.calls :=
    @callsOf_other i k s.calls [c] other
  refine ⟨fun i unopened => ?_, fun i held => ?_, fun i below gone => ?_⟩
  · have below := inv.bounded k there
    rw [other (by omega)]
    exact inv.unopened i unopened
  · by_cases own : k = i
    · subst own
      show Serves (callsOf k (s.calls ++ [c].map (k, ·)))
      rw [callsOf_same]
      exact (inv.serves k there).use uses
    · rw [other own]
      exact inv.serves i held
  · have ne : k ≠ i := fun same => gone (same ▸ there)
    rw [other ne]
    exact inv.complete i below gone

/-- A new object leaves the calls of the others. -/
theorem HostInvariant.others (inv : HostInvariant s) (cs : List PluginCall) :
    callsOf s.opened (s.calls ++ cs.map (s.opened, ·)) = cs ∧
      ∀ i, i ≠ s.opened → callsOf i (s.calls ++ cs.map (s.opened, ·)) = callsOf i s.calls := by
  refine ⟨?_, fun i ne => callsOf_other ne.symm⟩
  rw [callsOf_same, inv.unopened s.opened le_rfl, List.nil_append]

theorem HostInvariant.refuse (inv : HostInvariant s) (complete : Complete cs) :
    HostInvariant (s.refuse cs) := by
  obtain ⟨own, others⟩ := inv.others cs
  refine ⟨fun k unopened => ?_, fun k there => ?_, inv.distinct, fun k there => ?_,
    fun k below gone => ?_, inv.asked, inv.handlers⟩
  · have later : s.opened + 1 ≤ k := unopened
    rw [PluginHost.refuse, others k (by omega)]
    exact inv.unopened k (by omega)
  · exact Nat.lt_succ_of_lt (inv.bounded k there)
  · have below := inv.bounded k there
    rw [PluginHost.refuse, others k (by omega)]
    exact inv.serves k there
  · rw [PluginHost.refuse]
    by_cases new : k = s.opened
    · subst new
      rw [own]
      exact complete
    · rw [others k new]
      have below : k < s.opened + 1 := below
      exact inv.complete k (by omega) gone

theorem HostInvariant.accept (inv : HostInvariant s) (loading : s.phase = .loading)
    (plugin : YellaPlugin) : HostInvariant (s.accept plugin) := by
  obtain ⟨own, others⟩ := inv.others [.opened, .start]
  have open' : s.phase.closes = false := by rw [loading]; rfl
  have before := held_of_not_closes open'
  have held : (s.accept plugin).held = s.held ++ [s.opened] := by
    rw [before]
    unfold PluginHost.held PluginHost.accept
    simp [loading]
  have calls : (s.accept plugin).calls = s.calls ++ [.opened, .start].map (s.opened, ·) := rfl
  refine ⟨fun k unopened => ?_, fun k there => ?_, ?_, fun k there => ?_, fun k below gone => ?_,
    fun rest asks => ?_, fun _ type => ?_⟩
  · have later : s.opened + 1 ≤ k := unopened
    rw [calls, others k (by omega)]
    exact inv.unopened k (by omega)
  · rw [held, List.mem_append, List.mem_singleton] at there
    show k < s.opened + 1
    rcases there with old | rfl
    · exact Nat.lt_succ_of_lt (inv.bounded k old)
    · exact Nat.lt_succ_self _
  · rw [held, List.nodup_append]
    refine ⟨inv.distinct, List.nodup_singleton _, fun k old j new => ?_⟩
    cases List.mem_singleton.mp new
    exact Nat.ne_of_lt (inv.bounded k old)
  · rw [held, List.mem_append, List.mem_singleton] at there
    rw [calls]
    rcases there with old | rfl
    · rw [others k (Nat.ne_of_lt (inv.bounded k old))]
      exact inv.serves k old
    · rw [own]
      exact ⟨[], by simp, rfl⟩
  · rw [held, List.mem_append, List.mem_singleton, not_or] at gone
    have below : k < s.opened + 1 := below
    rw [calls, others k gone.2]
    exact inv.complete k (by omega) gone.1
  · have running := (inv.asked rest asks).1
    rw [loading] at running
    cases running
  · show (plugin.inCaps.foldl (PluginHost.register s.opened) s.inHandlers).find type =
      (lastTaking (s.plugins ++ [(s.opened, plugin)]) type).map fun k => ⟨type, k⟩
    rw [find_registerAll, lastTaking_snoc, inv.handlers open' type]
    split <;> rfl

theorem HostInvariant.load (inv : HostInvariant s) (loading : s.phase = .loading)
    (file : Option SharedObject) : HostInvariant (s.loadPlugin file) := by
  unfold PluginHost.loadPlugin
  split
  · exact inv
  · split
    · exact inv.refuse .noStart
    · exact inv.refuse .refused
    · split
      · exact inv.accept loading _
      · exact inv.refuse .refused

/-- A plugin is stopped and its object closed. -/
theorem HostInvariant.close {rest : List ℕ} (inv : HostInvariant s)
    (closing : s.phase = .closing (k :: rest)) :
    HostInvariant { s with
      calls := s.calls ++ [(k, .stop), (k, .close)]
      phase := .closing rest } := by
  have held : s.held = k :: rest := by rw [PluginHost.held, closing]
  have distinct := inv.distinct
  rw [held, List.nodup_cons] at distinct
  have there : k ∈ s.held := by rw [held]; exact List.mem_cons_self
  have below := inv.bounded k there
  have later {i : ℕ} (mem : i ∈ rest) : i ∈ s.held := by
    rw [held]
    exact List.mem_cons_of_mem _ mem
  have others {i : ℕ} (ne : k ≠ i) :
      callsOf i (s.calls ++ [(k, .stop), (k, .close)]) = callsOf i s.calls :=
    @callsOf_other i k s.calls [.stop, .close] ne
  refine ⟨fun i unopened => ?_, fun i mem => inv.bounded i (later mem), distinct.2, fun i mem => ?_,
    fun i below' gone => ?_, fun asked asks => ?_, nofun⟩
  · have unopened : s.opened ≤ i := unopened
    rw [others (by omega)]
    exact inv.unopened i unopened
  · have ne : k ≠ i := fun same => distinct.1 (same ▸ mem)
    rw [others ne]
    exact inv.serves i (later mem)
  · by_cases own : k = i
    · subst own
      show Complete (callsOf k (s.calls ++ [.stop, .close].map (k, ·)))
      rw [callsOf_same]
      exact .served (inv.serves k there)
    · rw [others own]
      apply inv.complete i below'
      rw [held, List.mem_cons, not_or]
      exact ⟨Ne.symm own, gone⟩
  · have running := (inv.asked asked asks).1
    rw [closing] at running
    cases running

/-- What the steps between the calls change does not matter. -/
theorem HostInvariant.of_eq (inv : HostInvariant s) (opened : t.opened = s.opened)
    (held : t.held = s.held) (calls : t.calls = s.calls)
    (asked : ∀ rest, t.asking = some rest → t.phase = .running ∧ ∀ k ∈ rest, k ∈ t.held)
    (handlers : t.phase.closes = false → ∀ type,
      t.inHandlers.find type = (lastTaking t.plugins type).map fun k => ⟨type, k⟩) :
    HostInvariant t where
  unopened := by rw [opened, calls]; exact inv.unopened
  bounded := by rw [opened, held]; exact inv.bounded
  distinct := by rw [held]; exact inv.distinct
  serves := by rw [held, calls]; exact inv.serves
  complete := by rw [opened, held, calls]; exact inv.complete
  asked := asked
  handlers := handlers

theorem host_step (inv : HostInvariant s) (next : pluginHost.next s e = some t) :
    HostInvariant t := by
  simp only [pluginHost] at next
  cases e with
  | load file =>
    obtain ⟨loading, eq⟩ := Option.ite_none_right_eq_some.mp next
    cases eq
    exact inv.load loading file
  | create =>
    obtain ⟨loading, eq⟩ := Option.ite_none_right_eq_some.mp next
    cases eq
    have open' : s.phase.closes = false := by rw [loading]; rfl
    have held := held_of_not_closes open'
    refine inv.of_eq rfl held.symm rfl (fun rest asks => ?_) fun _ => inv.handlers open'
    have running := (inv.asked rest asks).1
    rw [loading] at running
    cases running
  | beat =>
    obtain ⟨⟨running, -⟩, eq⟩ := Option.ite_none_right_eq_some.mp next
    cases eq
    have open' : s.phase.closes = false := by rw [running]; rfl
    have held := held_of_not_closes open'
    refine inv.of_eq rfl rfl rfl (fun rest asks => ?_) inv.handlers
    cases asks
    exact ⟨running, fun k hk => held.symm ▸ hk⟩
  | askStatus =>
    simp only [PluginHost.next] at next
    split at next
    · rename_i k rest asking
      cases next
      obtain ⟨running, there⟩ := inv.asked _ asking
      obtain ⟨first, others⟩ := List.forall_mem_cons.mp there
      obtain ⟨unopened, serves, complete⟩ := inv.use first (.inl rfl : PluginCall.Uses .status)
      refine ⟨unopened, inv.bounded, inv.distinct, serves, complete, fun rest' asks => ?_,
        inv.handlers⟩
      cases asks
      exact ⟨running, others⟩
    · cases next
  | sendHeartbeat =>
    obtain ⟨-, eq⟩ := Option.ite_none_right_eq_some.mp next
    cases eq
    exact inv.of_eq rfl rfl rfl nofun inv.handlers
  | message type =>
    obtain ⟨⟨receives, -⟩, result⟩ := Option.ite_none_right_eq_some.mp next
    have open' : s.phase.closes = false := by
      rcases Bool.or_eq_true_iff.mp receives with here | here <;>
        rw [of_decide_eq_true here] <;> rfl
    cases found : s.inHandlers.find type with
    | none =>
      rw [found] at result
      cases result
      exact inv
    | some node =>
      rw [found] at result
      cases result
      rw [inv.handlers open' type] at found
      obtain ⟨k, last, rfl⟩ := Option.map_eq_some_iff.mp found
      have there : k ∈ s.held := by
        rw [held_of_not_closes open']
        exact lastTaking_mem last
      obtain ⟨unopened, serves, complete⟩ :=
        inv.use there (.inr ⟨type, rfl⟩ : PluginCall.Uses (.handle type))
      exact ⟨unopened, inv.bounded, inv.distinct, serves, complete, inv.asked, inv.handlers⟩
  | handled =>
    obtain ⟨-, eq⟩ := Option.ite_none_right_eq_some.mp next
    cases eq
    exact inv.of_eq rfl rfl rfl inv.asked inv.handlers
  | joinHeartbeat =>
    obtain ⟨⟨running, idle⟩, eq⟩ := Option.ite_none_right_eq_some.mp next
    cases eq
    have open' : s.phase.closes = false := by rw [running]; rfl
    refine inv.of_eq rfl (held_of_not_closes open').symm rfl (fun rest asks => ?_)
      fun _ => inv.handlers open'
    cases idle.symm.trans asks
  | destroyRouter =>
    obtain ⟨⟨joined, -⟩, eq⟩ := Option.ite_none_right_eq_some.mp next
    cases eq
    have open' : s.phase.closes = false := by rw [joined]; rfl
    refine inv.of_eq rfl (held_of_not_closes open').symm rfl (fun rest asks => ?_) nofun
    have running := (inv.asked rest asks).1
    rw [joined] at running
    cases running
  | closePlugin =>
    simp only [PluginHost.next] at next
    split at next
    · rename_i k rest closing
      cases next
      exact inv.close closing
    · cases next

/-- **Plugins are used between their start and their stop only.** In any run, whatever is in the
plugin directory and however heartbeats and messages take turns with the shutdown: every object that
has been opened is still held, and has been started and then only been asked and handed messages; or
its calls are complete, and it was closed once. While messages are received, one goes to the plugin
that was loaded last of those that take its type. -/
theorem plugins_used_while_held (run : pluginHost.Run Machine.Any events s) :
    (∀ k < s.opened, k ∈ s.held ∧ Serves (callsOf k s.calls) ∨
      k ∉ s.held ∧ Complete (callsOf k s.calls)) ∧
      (s.phase.closes = false → ∀ type,
        (s.inHandlers.find type).map InHandlerNode.object = lastTaking s.plugins type) := by
  have inv : HostInvariant s := by
    apply run.invariant
    · rintro s rfl
      exact hostInvariant_start
    · exact fun s e t inv _ next => host_step inv next
  constructor
  · intro k below
    by_cases there : k ∈ s.held
    · exact .inl ⟨there, inv.serves k there⟩
    · exact .inr ⟨there, inv.complete k below there⟩
  · intro open' type
    rw [inv.handlers open' type, Option.map_map]
    exact Option.map_id'

end

/-- One plugin is loaded, another file has no `plugin_start`; then a heartbeat, a message and the
shutdown. -/
def wholeLife : List HostEvent :=
  [.load (some ⟨some (some ⟨[⟨[97], 1, []⟩], []⟩), true, true⟩), .load (some ⟨none, true, true⟩),
    .create, .beat, .askStatus, .sendHeartbeat, .message [97], .handled, .joinHeartbeat,
    .destroyRouter, .closePlugin]

theorem plugins_used_while_held_wholeLife :
    ∃ s, pluginHost.Run Machine.Any wholeLife s ∧ s.opened = 2 ∧ s.held = [] ∧
      (∀ k < s.opened, k ∈ s.held ∧ Serves (callsOf k s.calls) ∨
        k ∉ s.held ∧ Complete (callsOf k s.calls)) ∧
      (s.phase.closes = false → ∀ type,
        (s.inHandlers.find type).map InHandlerNode.object = lastTaking s.plugins type) := by
  obtain ⟨s, after, opened, held⟩ : ∃ s, pluginHost.after .start wholeLife = some s ∧
      s.opened = 2 ∧ s.held = [] := ⟨_, rfl, rfl, rfl⟩
  have run : pluginHost.Run Machine.Any wholeLife s := Machine.reached_of_after rfl after
  exact ⟨s, run, opened, held, plugins_used_while_held run⟩

end Yella
