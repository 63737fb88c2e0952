import Yella.Plugin.StateDbPool

/-!
# The pool as it is kept

The functions of `state_db_pool.c` over a tree and a count that nothing ties together, with the
ways that `create_state_db` of `state_db.c` can fail. A result of `none` is a read through a
NULL pointer.
-/

namespace Yella.DbPool

/-- `state_db`: the file of its connection, the statements prepared, and the name, which is NULL
until it is set. -/
structure Handle where
  file : Option UStr
  stmts : Nat
  name : Option UStr
  deriving DecidableEq

/-- What `create_state_db` stops at. -/
inductive CreateFailure where
  | open16
  | createTable
  | prepare (stmt : Fin 4)
  deriving DecidableEq

/-- `name` is the string that `db` owns. -/
structure Node where
  name : UStr
  db : Handle
  timeLastUsed : Int
  deriving DecidableEq

structure Pool where
  nodes : SortedList.Tree Node.name
  count : Nat

structure State where
  pool : Pool
  files : DbFiles

def Node.use (now : Int) (node : Node) : Node := { node with timeLastUsed := now }

def Pool.names (pool : Pool) : List UStr := pool.nodes.nodes.map Node.name

/-- `calloc` -/
def Handle.zero : Handle where
  file := none
  stmts := 0
  name := none

section
variable (naming : DbNaming)

/-- The length of the name is taken first. -/
def createDbName (configName : Option UStr) : Option UStr :=
  configName.map (Yella.createDbName naming)

def destroyStateDb (files : DbFiles) (st : Handle) : StateDbRemovalAction → Option DbFiles
  | .keep => some files
  | .remove => (createDbName naming st.name).map fun file => Function.update files file none

/-- The first component is what is returned. -/
def createStateDb (files : DbFiles) (configName : UStr) (failure : Option CreateFailure) :
    Option (Option Handle × DbFiles) :=
  let st := Handle.zero
  if failure = some .open16 then (destroyStateDb naming files st .remove).map (none, ·)
  else
    let st := { st with file := some (Yella.createDbName naming configName) }
    if failure = some .createTable then (destroyStateDb naming files st .remove).map (none, ·)
    else
      let files := Yella.createStateDb naming files configName
      match failure with
      | some (.prepare stmt) =>
        (destroyStateDb naming files { st with stmts := stmt } .remove).map (none, ·)
      | _ => some (some { st with stmts := 4, name := some configName }, files)

/-- The loop over the nodes in the order of the iterator. -/
def oldestFrom : Option Node → List Node → Option Node
  | oldest, [] => oldest
  | none, node :: nodes => oldestFrom (some node) nodes
  | some oldest, node :: nodes =>
    oldestFrom (some (if node.timeLastUsed < oldest.timeLastUsed then node else oldest)) nodes

/-- What happens to the oldest node when `maxDbs` databases are open. -/
def evict (maxDbs : Nat) (order : List Node) (s : State) : Option State :=
  if maxDbs ≤ s.pool.count then
    match oldestFrom none order with
    | none => some s
    | some oldest =>
      (destroyStateDb naming s.files oldest.db .keep).map fun files =>
        { pool := { nodes := s.pool.nodes.delete oldest.name, count := s.pool.count - 1 }, files }
  else some s

/-- A name that is not open, once there is room. -/
def openStateDb (name : UStr) (now : Int) (failure : Option CreateFailure) (s : State) :
    Option (Option Handle × State) := do
  let created ← createStateDb naming s.files name failure
  match created.1 with
  | none => some (none, { s with files := created.2 })
  | some db =>
    let nodeName ← db.name
    some (some db, {
      pool := {
        nodes := s.pool.nodes.add { name := nodeName, db, timeLastUsed := now }
        count := s.pool.count + 1 }
      files := created.2 })

def getStateDbFromPool (maxDbs : Nat) (name : UStr) (now : Int) (order : List Node)
    (failure : Option CreateFailure) (s : State) : Option (Option Handle × State) :=
  match s.pool.nodes.find name with
  | some found =>
    some (some found.db, { s with
      pool := { s.pool with nodes := s.pool.nodes.modify name (.use now) fun _ => rfl } })
  | none => (evict naming maxDbs order s).bind (openStateDb naming name now failure)

def removeStateDbFromPool (name : UStr) (s : State) : Option State :=
  match s.pool.nodes.find name with
  | some removed =>
    (destroyStateDb naming s.files removed.db .remove).map fun files =>
      { pool := { nodes := s.pool.nodes.delete name, count := s.pool.count - 1 }, files }
  | none => some s

/-- A call, with what the clock reads and the nodes in the order of the iterator. -/
inductive Call where
  | get (name : UStr) (now : Int) (order : List Node)
  | remove (name : UStr)

def createStateDbPool : Pool where
  nodes := .empty
  count := 0

/-- Calls for which `create_state_db` succeeds, on a new pool over any files. -/
def machine (maxDbs : Nat) : Machine State Call where
  start s := s.pool = createStateDbPool
  next s
    | .get name now order =>
      if order.Perm s.pool.nodes.nodes then
        (getStateDbFromPool naming maxDbs name now order none s).map Prod.snd
      else none
    | .remove name => removeStateDbFromPool naming name s

end

/-! ## The cache -/

/-- The tree and the count belong together, and there are not too many nodes. -/
structure Pool.Sound (maxDbs : Nat) (pool : Pool) : Prop where
  counted : pool.count = pool.nodes.nodes.length
  distinct : pool.nodes.Distinct
  named : ∀ node ∈ pool.nodes.nodes, node.db.name = some node.name
  bounded : pool.count ≤ maxDbs

/-- The nodes that the second pool has no more. -/
def evictedNodes (before after : Pool) : List Node :=
  before.nodes.nodes.filter fun node => node.name ∉ after.names

/-- What a call of `get_state_db_from_pool` does to the pool. -/
structure GetsLru (before after : Pool) (name : UStr) (db : Handle) : Prop where
  kept : ∃ node ∈ after.nodes.nodes, node.name = name ∧ node.db = db
  hit : name ∈ before.names → evictedNodes before after = []
  evicts : evictedNodes before after ≠ [] → ∃ oldest, evictedNodes before after = [oldest] ∧
    ∀ node ∈ before.nodes.nodes, oldest.timeLastUsed ≤ node.timeLastUsed

theorem oldestFrom_spec (oldest : Node) (order : List Node) :
    ∃ node ∈ oldest :: order, oldestFrom (some oldest) order = some node ∧
      ∀ other ∈ oldest :: order, node.timeLastUsed ≤ other.timeLastUsed := by
  induction order generalizing oldest with
  | nil => exact ⟨oldest, List.mem_singleton.mpr rfl, rfl, by simp⟩
  | cons next order ih =>
    obtain ⟨node, hmem, hnode, least⟩ :=
      ih (if next.timeLastUsed < oldest.timeLastUsed then next else oldest)
    refine ⟨node, ?_, hnode, ?_⟩
    · split at hmem <;> simp only [List.mem_cons] at hmem ⊢ <;> tauto
    · rw [List.forall_mem_cons] at least
      rw [List.forall_mem_cons, List.forall_mem_cons]
      have first := least.1
      split at first
      · exact ⟨by omega, first, least.2⟩
      · exact ⟨first, by omega, least.2⟩

/-- With a node in the tree, the scan finds one of those used the longest time ago. -/
theorem exists_oldest {order nodes : List Node} (perm : order.Perm nodes) (occupied : nodes ≠ []) :
    ∃ oldest ∈ nodes, oldestFrom none order = some oldest ∧
      ∀ node ∈ nodes, oldest.timeLastUsed ≤ node.timeLastUsed := by
  cases order with
  | nil => exact absurd perm.nil_eq.symm occupied
  | cons first order =>
    obtain ⟨oldest, hmem, hold, least⟩ := oldestFrom_spec first order
    exact ⟨oldest, perm.mem_iff.mp hmem, hold, fun node hn => least node (perm.mem_iff.mpr hn)⟩

section
variable {naming : DbNaming} {maxDbs : Nat} {s s' : State} {name : UStr} {now : Int}
  {order : List Node}

/-- The handle of a database that could be opened. -/
def opened (naming : DbNaming) (name : UStr) : Handle where
  file := some (Yella.createDbName naming name)
  stmts := 4
  name := some name

/-- What `get_state_db_from_pool` can do when a database can be opened: it finds the name open,
or opens it where there is room, or in the place of a node used the longest time ago. -/
theorem get_cases (name : UStr) (now : Int) (hmax : 1 ≤ maxDbs) (sound : s.pool.Sound maxDbs)
    (perm : order.Perm s.pool.nodes.nodes) :
    (∃ found ∈ s.pool.nodes.nodes, found.name = name ∧
      getStateDbFromPool naming maxDbs name now order none s = some (some found.db, { s with
        pool := { s.pool with nodes := s.pool.nodes.modify name (.use now) fun _ => rfl } })) ∨
    name ∉ s.pool.names ∧ (
      (s.pool.count < maxDbs ∧
        getStateDbFromPool naming maxDbs name now order none s = some (some (opened naming name), {
          pool := {
            nodes := s.pool.nodes.add ⟨name, opened naming name, now⟩
            count := s.pool.count + 1 }
          files := Yella.createStateDb naming s.files name })) ∨
      ∃ oldest ∈ s.pool.nodes.nodes, maxDbs ≤ s.pool.count ∧ oldestFrom none order = some oldest ∧
        (∀ node ∈ s.pool.nodes.nodes, oldest.timeLastUsed ≤ node.timeLastUsed) ∧
        getStateDbFromPool naming maxDbs name now order none s = some (some (opened naming name), {
          pool := {
            nodes := (s.pool.nodes.delete oldest.name).add ⟨name, opened naming name, now⟩
            count := s.pool.count - 1 + 1 }
          files := Yella.createStateDb naming s.files name })) := by
  unfold getStateDbFromPool
  cases hfind : s.pool.nodes.find name with
  | some found =>
    obtain ⟨hmem, hname⟩ := SortedList.find_some _ hfind
    exact .inl ⟨found, hmem, hname, rfl⟩
  | none =>
    refine .inr ⟨SortedList.Tree.find_eq_none.mp hfind, ?_⟩
    simp only
    by_cases full : maxDbs ≤ s.pool.count
    · have occupied : s.pool.nodes.nodes ≠ [] := by
        rintro empty
        have := sound.counted
        rw [empty, List.length_nil] at this
        omega
      obtain ⟨oldest, hmem, hold, least⟩ := exists_oldest perm occupied
      refine .inr ⟨oldest, hmem, full, hold, least, ?_⟩
      rw [evict, if_pos full, hold]
      rfl
    · refine .inl ⟨Nat.lt_of_not_le full, ?_⟩
      rw [evict, if_neg full]
      rfl

/-! ## What the steps preserve -/

theorem sound_createStateDbPool (maxDbs : Nat) : createStateDbPool.Sound maxDbs where
  counted := rfl
  distinct := List.nodup_nil
  named _ h := by cases h
  bounded := Nat.zero_le _

theorem names_touch (pool : Pool) (name : UStr) (now : Int) :
    Pool.names { pool with nodes := pool.nodes.modify name (.use now) fun _ => rfl } =
      pool.names :=
  SortedList.map_key_modify Node.name (f := .use now) (fun _ => rfl) pool.nodes.nodes

theorem Pool.Sound.touch {pool : Pool} (sound : pool.Sound maxDbs) :
    Pool.Sound maxDbs { pool with nodes := pool.nodes.modify name (.use now) fun _ => rfl } where
  counted := by
    have := congrArg List.length (names_touch pool name now)
    simpa [Pool.names, sound.counted] using this.symm
  distinct := sound.distinct.modify name (.use now) fun _ => rfl
  named := by
    intro node hn
    obtain ⟨kept, -⟩ | ⟨old, kept, -, rfl⟩ :=
      (SortedList.mem_modify_of_nodup Node.name sound.distinct).mp hn
    · exact sound.named node kept
    · exact sound.named old kept
  bounded := sound.bounded

theorem Pool.Sound.take {pool : Pool} (sound : pool.Sound maxDbs) {node : Node}
    (hn : node ∈ pool.nodes.nodes) :
    Pool.Sound maxDbs { nodes := pool.nodes.delete node.name, count := pool.count - 1 } where
  counted := by rw [SortedList.Tree.length_delete hn, sound.counted]
  distinct := sound.distinct.delete node.name
  named other ho := sound.named other (sound.distinct.mem_delete.mp ho).1
  bounded := (Nat.sub_le _ _).trans sound.bounded

theorem Pool.Sound.put {pool : Pool} (sound : pool.Sound maxDbs) (closed : name ∉ pool.names)
    (room : pool.count < maxDbs) :
    Pool.Sound maxDbs {
      nodes := pool.nodes.add ⟨name, opened naming name, now⟩
      count := pool.count + 1 } where
  counted := by rw [SortedList.Tree.length_add, sound.counted]
  distinct := sound.distinct.add closed
  named := by
    intro node hn
    obtain rfl | hn := SortedList.Tree.mem_nodes_add.mp hn
    · rfl
    · exact sound.named node hn
  bounded := room

theorem not_mem_names_delete {pool : Pool} {other : UStr} (closed : name ∉ pool.names) :
    name ∉ (pool.nodes.delete other).nodes.map Node.name := by
  intro h
  exact closed (List.eraseP_sublist.map Node.name |>.subset h)

theorem get_sound (name : UStr) (now : Int) (hmax : 1 ≤ maxDbs) (sound : s.pool.Sound maxDbs)
    (perm : order.Perm s.pool.nodes.nodes) :
    ∃ db s', getStateDbFromPool naming maxDbs name now order none s = some (some db, s') ∧
      s'.pool.Sound maxDbs := by
  obtain ⟨found, -, -, hget⟩ | ⟨closed, ⟨room, hget⟩ | ⟨oldest, hmem, -, -, -, hget⟩⟩ :=
    get_cases name now hmax sound perm
  · exact ⟨_, _, hget, sound.touch⟩
  · exact ⟨_, _, hget, sound.put closed room⟩
  · refine ⟨_, _, hget, (sound.take hmem).put (not_mem_names_delete closed) ?_⟩
    have := sound.bounded
    show s.pool.count - 1 < maxDbs
    omega

theorem evictedNodes_eq_nil {before after : Pool} (h : before.names ⊆ after.names) :
    evictedNodes before after = [] := by
  rw [evictedNodes, List.filter_eq_nil_iff]
  intro node hn
  simpa using h (List.mem_map_of_mem hn)

/-- Only the node that was deleted is missing. -/
theorem evictedNodes_replace {before : Pool} (distinct : before.nodes.Distinct) {oldest node : Node}
    {count : Nat} (hmem : oldest ∈ before.nodes.nodes) (closed : node.name ∉ before.names) :
    evictedNodes before { nodes := (before.nodes.delete oldest.name).add node, count } =
      [oldest] := by
  have nodup : before.nodes.nodes.Nodup := List.Nodup.of_map Node.name distinct
  have gone : ∀ other ∈ before.nodes.nodes,
      (other.name ∉ Pool.names { nodes := (before.nodes.delete oldest.name).add node, count } ↔
        other = oldest) := by
    intro other ho
    constructor
    · intro missing
      have same : other.name = oldest.name := by
        by_contra differs
        exact missing (List.mem_map_of_mem (SortedList.Tree.mem_nodes_add.mpr
          (.inr (distinct.mem_delete.mpr ⟨ho, differs⟩))))
      exact List.inj_on_of_nodup_map distinct ho hmem same
    · rintro rfl there
      obtain ⟨kept, hk, same⟩ := List.mem_map.mp there
      obtain rfl | hk := SortedList.Tree.mem_nodes_add.mp hk
      · exact closed (same ▸ List.mem_map_of_mem ho)
      · exact (distinct.mem_delete.mp hk).2 same
  rw [evictedNodes, List.filter_congr (q := fun other => decide (other = oldest))
    fun other ho => decide_eq_decide.mpr (gone other ho)]
  simp only [List.filter_eq, List.count_eq_one_of_mem nodup hmem, List.replicate_one]

theorem get_getsLru (hmax : 1 ≤ maxDbs) (sound : s.pool.Sound maxDbs)
    (perm : order.Perm s.pool.nodes.nodes) {db : Handle}
    (h : getStateDbFromPool naming maxDbs name now order none s = some (some db, s')) :
    GetsLru s.pool s'.pool name db := by
  obtain ⟨found, hmem, hname, hget⟩ | ⟨closed, ⟨room, hget⟩ | ⟨oldest, hmem, -, -, least, hget⟩⟩ :=
    get_cases name now hmax sound perm
  · rw [h, Option.some_inj, Prod.mk.injEq, Option.some_inj] at hget
    obtain ⟨rfl, rfl⟩ := hget
    have names : evictedNodes s.pool { s.pool with
        nodes := s.pool.nodes.modify name (.use now) fun _ => rfl } = [] := by
      apply evictedNodes_eq_nil
      rw [names_touch]
      exact List.Subset.refl _
    refine ⟨⟨found.use now, ?_, hname, rfl⟩, fun _ => names, fun some => absurd names some⟩
    exact (SortedList.mem_modify_of_nodup Node.name sound.distinct).mpr
      (.inr ⟨found, hmem, hname, rfl⟩)
  · rw [h, Option.some_inj, Prod.mk.injEq, Option.some_inj] at hget
    obtain ⟨rfl, rfl⟩ := hget
    have names : evictedNodes s.pool {
        nodes := s.pool.nodes.add ⟨name, opened naming name, now⟩
        count := s.pool.count + 1 } = [] := by
      apply evictedNodes_eq_nil
      intro other ho
      obtain ⟨node, hn, rfl⟩ := List.mem_map.mp ho
      exact List.mem_map_of_mem (SortedList.Tree.mem_nodes_add.mpr (.inr hn))
    exact ⟨⟨_, SortedList.Tree.mem_nodes_add.mpr (.inl rfl), rfl, rfl⟩, fun _ => names,
      fun some => absurd names some⟩
  · rw [h, Option.some_inj, Prod.mk.injEq, Option.some_inj] at hget
    obtain ⟨rfl, rfl⟩ := hget
    exact ⟨⟨_, SortedList.Tree.mem_nodes_add.mpr (.inl rfl), rfl, rfl⟩,
      fun there => absurd there closed,
      fun _ => ⟨oldest, evictedNodes_replace sound.distinct hmem closed, least⟩⟩

theorem remove_sound (sound : s.pool.Sound maxDbs) (name : UStr) :
    ∃ s', removeStateDbFromPool naming name s = some s' ∧ s'.pool.Sound maxDbs := by
  unfold removeStateDbFromPool
  cases hfind : s.pool.nodes.find name with
  | none => exact ⟨s, rfl, sound⟩
  | some removed =>
    obtain ⟨hmem, rfl⟩ := SortedList.find_some _ hfind
    simp only [destroyStateDb, createDbName, sound.named removed hmem, Option.map_some]
    exact ⟨_, rfl, sound.take hmem⟩

/-- The pool is sound, a call of `remove` leaves it so, and one of `get` treats it as a bounded
cache. -/
structure BoundedLru (naming : DbNaming) (maxDbs : Nat) (s : State) : Prop where
  sound : s.pool.Sound maxDbs
  remove : ∀ name, ∃ s', removeStateDbFromPool naming name s = some s' ∧ s'.pool.Sound maxDbs
  get : ∀ name now order, order.Perm s.pool.nodes.nodes →
    ∃ db s', getStateDbFromPool naming maxDbs name now order none s = some (some db, s') ∧
      s'.pool.Sound maxDbs ∧ GetsLru s.pool s'.pool name db

theorem run_sound (hmax : 1 ≤ maxDbs) {calls : List Call}
    (h : (machine naming maxDbs).Run Machine.Any calls s) : s.pool.Sound maxDbs := by
  apply h.invariant (fun s => s.pool.Sound maxDbs)
  · intro s (empty : s.pool = createStateDbPool)
    rw [empty]
    exact sound_createStateDbPool maxDbs
  · intro s call t sound _ next
    cases call with
    | get name now order =>
      simp only [machine, Option.ite_none_right_eq_some, Option.map_eq_some_iff] at next
      obtain ⟨perm, result, hresult, rfl⟩ := next
      obtain ⟨db, s', hget, after⟩ := get_sound name now hmax sound perm
      rw [hresult, Option.some_inj] at hget
      exact hget ▸ after
    | remove name =>
      obtain ⟨s', hremove, after⟩ := @remove_sound naming _ _ sound name
      rw [show removeStateDbFromPool naming name s = some t from next, Option.some_inj] at hremove
      exact hremove ▸ after

/-- In every run, for any names, clocks and orders of iteration. -/
theorem run_boundedLru (hmax : 1 ≤ maxDbs) {calls : List Call}
    (h : (machine naming maxDbs).Run Machine.Any calls s) : BoundedLru naming maxDbs s := by
  have sound := run_sound hmax h
  refine ⟨sound, remove_sound sound, ?_⟩
  intro name now order perm
  obtain ⟨db, s', hget, after⟩ := get_sound name now hmax sound perm
  exact ⟨db, s', hget, after, get_getsLru hmax sound perm hget⟩

end

def plainNaming : DbNaming where
  dataDir := []
  sha1 _ := []

def newPool : State where
  pool := createStateDbPool
  files _ := none

/-- `a` is open, in a pool for one database. -/
theorem boundedLru_one : ∃ s, (machine plainNaming 1).after newPool [.get [97] 5 []] = some s ∧
    BoundedLru plainNaming 1 s := by
  have start : (machine plainNaming 1).start newPool := rfl
  have possible : ((machine plainNaming 1).after newPool [.get [97] 5 []]).isSome := rfl
  obtain ⟨s, hs⟩ := Option.isSome_iff_exists.mp possible
  exact ⟨s, hs, run_boundedLru (by decide) (Machine.reached_of_after start hs)⟩

/-! ## The pool that carries its invariants

Where the databases can be opened, the pool is the one of `StateDbPool`. -/

/-- A node without what its connection keeps to itself. -/
def Node.shadow (node : Node) : StateDbNode where
  name := node.name
  file := node.db.file.getD []
  timeLastUsed := node.timeLastUsed

@[simp] theorem Node.shadow_name (node : Node) : node.shadow.name = node.name := rfl

theorem Node.shadow_use (now : Int) (node : Node) :
    (node.use now).shadow = node.shadow.use now := rfl

theorem shadow_add (node : Node) (nodes : List Node) :
    (SortedList.add Node.name node nodes).map Node.shadow =
      SortedList.add StateDbNode.name node.shadow (nodes.map Node.shadow) :=
  SortedList.map_add Node.shadow_name node nodes

theorem shadow_delete (name : UStr) (nodes : List Node) :
    (SortedList.delete Node.name name nodes).map Node.shadow =
      SortedList.delete StateDbNode.name name (nodes.map Node.shadow) :=
  SortedList.map_delete Node.shadow_name name nodes

theorem shadow_touch (name : UStr) (now : Int) (nodes : List Node) :
    (SortedList.modify Node.name name (.use now) nodes).map Node.shadow =
      SortedList.modify StateDbNode.name name (.use now) (nodes.map Node.shadow) :=
  SortedList.map_modify Node.shadow_name name (Node.shadow_use now) nodes

structure State.Refines (s : State) (t : PoolState) : Prop where
  nodes : t.pool.nodes.nodes = s.pool.nodes.nodes.map Node.shadow
  files : t.files = s.files

theorem oldestFrom_shadow (oldest : Option Node) (order : List Node) :
    Yella.oldestFrom (oldest.map Node.shadow) (order.map Node.shadow) =
      (oldestFrom oldest order).map Node.shadow := by
  induction order generalizing oldest with
  | nil => cases oldest <;> rfl
  | cons node order ih =>
    cases oldest with
    | none => exact ih (some node)
    | some oldest =>
      rw [List.map_cons, oldestFrom, ← ih, Option.map_some, Option.map_some, Yella.oldestFrom]
      have times (n : Node) : n.shadow.timeLastUsed = n.timeLastUsed := rfl
      rw [times, times, apply_ite Node.shadow]

section
variable {naming : DbNaming} {maxDbs : Nat} {s s' : State} {t : PoolState} {name : UStr} {now : Int}
  {order : List Node}

theorem State.Refines.names (refines : s.Refines t) : t.pool.names = s.pool.names := by
  rw [StateDbPool.names, refines.nodes, List.map_map]
  rfl

theorem State.Refines.count (refines : s.Refines t) (sound : s.pool.Sound maxDbs) :
    t.pool.count = s.pool.count := by
  rw [t.pool.counted, refines.nodes, List.length_map, sound.counted]

theorem evict_of_room {pool : StateDbPool} {nodes : List StateDbNode} (room : pool.count < maxDbs) :
    pool.evict maxDbs nodes = pool := by
  rw [StateDbPool.evict, StateDbPool.evicted, if_neg (Nat.not_le_of_lt room)]

theorem nodes_evict_of_full {pool : StateDbPool} {nodes : List StateDbNode} {oldest : StateDbNode}
    (full : maxDbs ≤ pool.count) (hold : Yella.oldestFrom none nodes = some oldest)
    (there : oldest ∈ pool.nodes.nodes) :
    (pool.evict maxDbs nodes).nodes = pool.nodes.delete oldest.name := by
  rw [StateDbPool.evict, StateDbPool.evicted, if_pos full, hold]
  dsimp only
  rw [dif_pos there]
  rfl

theorem get_refines (hmax : 1 ≤ maxDbs) (sound : s.pool.Sound maxDbs) (refines : s.Refines t)
    (perm : order.Perm s.pool.nodes.nodes) {db : Handle}
    (h : getStateDbFromPool naming maxDbs name now order none s = some (some db, s')) :
    s'.Refines (t.getStateDbFromPool naming maxDbs name now (order.map Node.shadow)) := by
  obtain ⟨found, hmem, rfl, hget⟩ | ⟨closed, rest⟩ :=
    @get_cases naming maxDbs s order name now hmax sound perm
  · have there : found.name ∈ t.pool.names := refines.names ▸ List.mem_map_of_mem hmem
    rw [h, Option.some_inj, Prod.mk.injEq] at hget
    rw [hget.2, get_open there]
    refine ⟨?_, refines.files⟩
    show SortedList.modify _ _ _ t.pool.nodes.nodes = _
    rw [refines.nodes]
    exact (shadow_touch found.name now _).symm
  · have absent : name ∉ t.pool.names := refines.names ▸ closed
    have count := refines.count sound
    rw [get_closed absent]
    obtain ⟨room, hget⟩ | ⟨oldest, hmem, full, hold, -, hget⟩ := rest
    · rw [h, Option.some_inj, Prod.mk.injEq] at hget
      rw [hget.2]
      refine ⟨?_, congrArg (Yella.createStateDb naming · name) refines.files⟩
      show SortedList.add _ _ (t.pool.evict maxDbs _).nodes.nodes = _
      rw [evict_of_room (count ▸ room), refines.nodes]
      exact (shadow_add ⟨name, opened naming name, now⟩ _).symm
    · have shadow : Yella.oldestFrom none (order.map Node.shadow) = some oldest.shadow := by
        rw [← Option.map_none, oldestFrom_shadow, hold, Option.map_some]
      have there : oldest.shadow ∈ t.pool.nodes.nodes := by
        rw [refines.nodes]
        exact List.mem_map_of_mem hmem
      rw [h, Option.some_inj, Prod.mk.injEq] at hget
      rw [hget.2]
      refine ⟨?_, congrArg (Yella.createStateDb naming · name) refines.files⟩
      show SortedList.add _ _ (t.pool.evict maxDbs _).nodes.nodes = _
      rw [nodes_evict_of_full (count ▸ full) shadow there]
      show SortedList.add _ _ (SortedList.delete _ _ t.pool.nodes.nodes) = _
      rw [refines.nodes, Node.shadow_name, ← shadow_delete]
      exact (shadow_add ⟨name, opened naming name, now⟩ _).symm

theorem remove_refines (sound : s.pool.Sound maxDbs) (refines : s.Refines t)
    (h : removeStateDbFromPool naming name s = some s') :
    s'.Refines (t.removeStateDbFromPool naming name) := by
  by_cases there : name ∈ s.pool.names
  · obtain ⟨node, hmem, hname, hremove⟩ := remove_open naming (refines.names ▸ there)
    rw [removeStateDbFromPool] at h
    cases hfind : s.pool.nodes.find name with
    | none => exact absurd there (SortedList.Tree.find_eq_none.mp hfind)
    | some removed =>
      obtain ⟨hn, hkey⟩ := SortedList.find_some _ hfind
      simp only [hfind, destroyStateDb, createDbName, sound.named removed hn, Option.map_some,
        Option.some_inj] at h
      rw [hremove, ← h, hkey]
      refine ⟨?_, by rw [refines.files]⟩
      show SortedList.delete _ node.name t.pool.nodes.nodes = _
      rw [hname, refines.nodes]
      exact (shadow_delete name _).symm
  · rw [removeStateDbFromPool, SortedList.Tree.find_eq_none.mpr there] at h
    obtain rfl := Option.some_inj.mp h
    rw [remove_closed (refines.names ▸ there)]
    exact refines

/-- The call of the pool that carries its invariants. -/
def Call.event : Call → PoolEvent
  | .get name now order => .get name now (order.map Node.shadow)
  | .remove name => .remove name

theorem next_refines (utf : Utf) (hmax : 1 ≤ maxDbs) (sound : s.pool.Sound maxDbs)
    (refines : s.Refines t) {call : Call} (h : (machine naming maxDbs).next s call = some s') :
    ∃ t', poolNext utf naming maxDbs t call.event = some t' ∧ s'.Refines t' := by
  cases call with
  | get name now order =>
    simp only [machine, Option.ite_none_right_eq_some, Option.map_eq_some_iff] at h
    obtain ⟨perm, ⟨db, after⟩, hget, rfl⟩ := h
    obtain ⟨found, s₁, hfound, -⟩ := @get_sound naming maxDbs s order name now hmax sound perm
    obtain rfl : some found = db := by
      rw [hget, Option.some_inj, Prod.mk.injEq] at hfound
      exact hfound.1.symm
    have shadows : (order.map Node.shadow).Perm t.pool.nodes.nodes := by
      rw [refines.nodes]
      exact perm.map Node.shadow
    exact ⟨_, if_pos shadows, get_refines hmax sound refines perm hget⟩
  | remove name => exact ⟨_, rfl, remove_refines sound refines h⟩

/-- Each run on new files is one of the pool that carries its invariants, so that its databases
have the contents that are shown of that one. -/
theorem run_refines (utf : Utf) (hmax : 1 ≤ maxDbs) {calls : List Call}
    (h : (machine naming maxDbs).after newPool calls = some s) :
    ∃ t, (poolMachine utf naming maxDbs).after .start (calls.map Call.event) = some t ∧
      s.Refines t := by
  induction calls using List.reverseRecOn generalizing s with
  | nil =>
    obtain rfl := Option.some_inj.mp h
    exact ⟨.start, rfl, rfl, rfl⟩
  | append_singleton calls call ih =>
    rw [Machine.after_snoc] at h
    obtain ⟨s₀, before, next⟩ := Option.bind_eq_some_iff.mp h
    obtain ⟨t₀, after, refines⟩ := ih before
    have start : (machine naming maxDbs).start newPool := rfl
    have sound := run_sound hmax (Machine.reached_of_after start before)
    obtain ⟨t, step, refines⟩ := next_refines utf hmax sound refines next
    refine ⟨t, ?_, refines⟩
    rw [List.map_append, List.map_singleton, Machine.after_snoc, after]
    exact step

end

/-! ## A database that cannot be opened -/

section
variable {naming : DbNaming} {maxDbs : Nat} {s : State} {name : UStr} {now : Int}
  {order : List Node} {failure : CreateFailure}

/-- NULL is returned, the tree and the count belong together, and each file is as before. -/
def FailsCleanly (naming : DbNaming) (maxDbs : Nat) (name : UStr) (now : Int) (order : List Node)
    (failure : CreateFailure) (s : State) : Prop :=
  ∃ s', getStateDbFromPool naming maxDbs name now order (some failure) s = some (none, s') ∧
    s'.pool.count = s'.pool.nodes.nodes.length ∧ s'.pool.nodes.Distinct ∧
    ∀ file db, s.files file = some db → s'.files file = some db

/-- Every exit hands a state without a name to `destroy_state_db`, for the file to be removed. -/
theorem createStateDb_failure (files : DbFiles) :
    createStateDb naming files name (some failure) = none := by
  cases failure <;> rfl

/-- Each failure reads through the NULL name, whatever the pool holds. -/
theorem failure_not_clean (closed : name ∉ s.pool.names) :
    ¬ FailsCleanly naming maxDbs name now order failure s := by
  rintro ⟨s', hget, -⟩
  have absent : s.pool.nodes.find name = none := SortedList.Tree.find_eq_none.mpr closed
  rw [getStateDbFromPool, absent] at hget
  obtain ⟨t, -, hopen⟩ := Option.bind_eq_some_iff.mp hget
  rw [openStateDb, createStateDb_failure] at hopen
  cases hopen

end

/-- `a` has been scanned before, and its database cannot be opened now. -/
def scannedBefore : State where
  pool := createStateDbPool
  files file := if file = Yella.createDbName plainNaming [97] then some .empty else none

theorem prepare_failure_not_clean :
    ¬ FailsCleanly plainNaming 1 [97] 5 [] (.prepare 3) scannedBefore :=
  failure_not_clean (by decide)

theorem open16_failure_not_clean :
    ¬ FailsCleanly plainNaming 1 [97] 5 [] .open16 scannedBefore := by
  rintro ⟨s', hget, -⟩
  cases hget

end Yella.DbPool
