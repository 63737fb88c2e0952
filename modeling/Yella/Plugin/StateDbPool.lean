import Mathlib.Data.List.Perm.Basic
import Yella.Lib.Machine
import Yella.Plugin.Config
import Yella.Job.ProcessElement

/-!
# The pool of state databases

`state_db_pool.c` and the files below it. At most a given number of databases is open. The
rows are in the files, which are still there after a database has been closed.
-/

namespace Yella

/-! ## Files -/

/-- `.sqlite` -/
def sqliteSuffix : UStr := [46, 115, 113, 108, 105, 116, 101]

/-- The setting `data-dir`, and `EVP_Digest` with `EVP_sha1`. -/
structure DbNaming where
  dataDir : UStr
  sha1 : UStr → List UInt8

def createDbName (naming : DbNaming) (configName : UStr) : UStr :=
  let dir := naming.dataDir
  let dir := if dir ≠ [] ∧ dir.getLast? ≠ some dirSep then dir ++ [dirSep] else dir
  dir ++ (naming.sha1 configName).flatMap hexByte ++ sqliteSuffix

/-- Names with different digests have different files. -/
theorem createDbName_injOn {naming : DbNaming} {names : Set UStr}
    (inj : Set.InjOn naming.sha1 names) : Set.InjOn (createDbName naming) names := by
  intro a ha b hb h
  apply inj ha hb
  apply flatMap_hexByte_inj
  simpa [createDbName] using h

/-! ## The pool -/

/-- `file` is where the connection of `db` leads. -/
structure StateDbNode where
  name : UStr
  file : UStr
  timeLastUsed : Int
  deriving DecidableEq

abbrev StateDbTree := SortedList.Tree StateDbNode.name

structure StateDbPool where
  nodes : StateDbTree
  count : Nat
  counted : count = nodes.nodes.length
  distinct : nodes.Distinct

inductive StateDbRemovalAction where
  | keep
  | remove
  deriving DecidableEq

abbrev DbFiles := UStr → Option StateDb

/-- `CREATE TABLE IF NOT EXISTS`, in a new file if there is none. -/
def createStateDb (naming : DbNaming) (files : DbFiles) (configName : UStr) : DbFiles :=
  let file := createDbName naming configName
  Function.update files file (some ((files file).getD .empty))

def destroyStateDb (naming : DbNaming) (files : DbFiles) (node : StateDbNode) :
    StateDbRemovalAction → DbFiles
  | .keep => files
  | .remove => Function.update files (createDbName naming node.name) none

/-- The loop over the nodes in the order of the iterator. -/
def oldestFrom : Option StateDbNode → List StateDbNode → Option StateDbNode
  | oldest, [] => oldest
  | none, node :: nodes => oldestFrom (some node) nodes
  | some oldest, node :: nodes =>
    oldestFrom (some (if node.timeLastUsed < oldest.timeLastUsed then node else oldest)) nodes

def StateDbNode.use (now : Int) (node : StateDbNode) : StateDbNode :=
  { node with timeLastUsed := now }

namespace StateDbPool

def createStateDbPool : StateDbPool where
  nodes := .empty
  count := 0
  counted := rfl
  distinct := List.nodup_nil

/-- The config names with an open database. -/
def names (pool : StateDbPool) : List UStr := pool.nodes.nodes.map (·.name)

/-- `sglib_state_db_node_delete` and `--count`, of a node in the tree. -/
def take (pool : StateDbPool) (node : StateDbNode) (h : node ∈ pool.nodes.nodes) : StateDbPool where
  nodes := pool.nodes.delete node.name
  count := pool.count - 1
  counted := by rw [pool.counted, SortedList.Tree.length_delete h]
  distinct := pool.distinct.delete node.name

/-- `sglib_state_db_node_add` and `++count`, with no node of that name in the tree. -/
def put (pool : StateDbPool) (node : StateDbNode) (h : node.name ∉ pool.names) : StateDbPool where
  nodes := pool.nodes.add node
  count := pool.count + 1
  counted := by rw [pool.counted, SortedList.Tree.length_add]
  distinct := pool.distinct.add h

def touch (pool : StateDbPool) (name : UStr) (now : Int) : StateDbPool where
  nodes := pool.nodes.modify name (.use now) fun _ => rfl
  count := pool.count
  counted := by
    have := congrArg List.length (SortedList.map_key_modify StateDbNode.name (k := name)
      (f := .use now) (fun _ => rfl) pool.nodes.nodes)
    simpa [SortedList.Tree.modify, pool.counted] using this.symm
  distinct := pool.distinct.modify name (.use now) fun _ => rfl

/-- The node that gives way when `maxDbs` databases are open. -/
def evicted (pool : StateDbPool) (maxDbs : Nat) (order : List StateDbNode) : Option StateDbNode :=
  if maxDbs ≤ pool.count then oldestFrom none order else none

def evict (pool : StateDbPool) (maxDbs : Nat) (order : List StateDbNode) : StateDbPool :=
  match pool.evicted maxDbs order with
  | some oldest => if h : oldest ∈ pool.nodes.nodes then pool.take oldest h else pool
  | none => pool

section
variable {pool : StateDbPool} {node other : StateDbNode} {name : UStr}

theorem mem_take (h : node ∈ pool.nodes.nodes) :
    other ∈ (pool.take node h).nodes.nodes ↔ other ∈ pool.nodes.nodes ∧ other.name ≠ node.name :=
  pool.distinct.mem_delete

theorem mem_put (h : node.name ∉ pool.names) :
    other ∈ (pool.put node h).nodes.nodes ↔ other = node ∨ other ∈ pool.nodes.nodes :=
  SortedList.Tree.mem_nodes_add

theorem mem_touch {now : Int} (h : other ∈ (pool.touch name now).nodes.nodes) :
    ∃ node ∈ pool.nodes.nodes, other.name = node.name ∧ other.file = node.file := by
  obtain ⟨hn, -⟩ | ⟨node, hn, -, rfl⟩ :=
    (SortedList.mem_modify_of_nodup StateDbNode.name pool.distinct).mp h
  · exact ⟨other, hn, rfl, rfl⟩
  · exact ⟨node, hn, rfl, rfl⟩

theorem names_touch {now : Int} : (pool.touch name now).names = pool.names :=
  SortedList.map_key_modify StateDbNode.name (f := .use now) (fun _ => rfl) pool.nodes.nodes

theorem mem_evict {maxDbs : Nat} {order : List StateDbNode}
    (h : node ∈ (pool.evict maxDbs order).nodes.nodes) : node ∈ pool.nodes.nodes := by
  unfold evict at h
  split at h
  · split at h
    · exact ((mem_take _).mp h).1
    · exact h
  · exact h

theorem not_mem_names_evict (maxDbs : Nat) (order : List StateDbNode) (h : name ∉ pool.names) :
    name ∉ (pool.evict maxDbs order).names := by
  intro there
  obtain ⟨node, hn, rfl⟩ := List.mem_map.mp there
  exact h (List.mem_map_of_mem (mem_evict hn))

end

end StateDbPool

/-! ## Operations -/

structure PoolState where
  pool : StateDbPool
  files : DbFiles

namespace PoolState

def start : PoolState := ⟨.createStateDbPool, fun _ => none⟩

section
variable (naming : DbNaming) (s : PoolState)

/-- The nodes that give way are closed with `STATE_DB_ACTION_KEEP`. -/
def getStateDbFromPool (maxDbs : Nat) (name : UStr) (now : Int) (order : List StateDbNode) :
    PoolState :=
  if h : name ∈ s.pool.names then { s with pool := s.pool.touch name now }
  else
    let files := match s.pool.evicted maxDbs order with
      | some oldest => destroyStateDb naming s.files oldest .keep
      | none => s.files
    { files := createStateDb naming files name
      pool := (s.pool.evict maxDbs order).put
        { name, file := createDbName naming name, timeLastUsed := now }
        (StateDbPool.not_mem_names_evict maxDbs order h) }

def removeStateDbFromPool (name : UStr) : PoolState :=
  match h : s.pool.nodes.find name with
  | some removed =>
    { files := destroyStateDb naming s.files removed .remove
      pool := s.pool.take removed (SortedList.find_some _ h).1 }
  | none => s

/-- `destroy_state_db_pool`, then `create_state_db_pool`. -/
def restart : PoolState where
  files :=
    s.pool.nodes.nodes.foldl (fun files node => destroyStateDb naming files node .keep) s.files
  pool := .createStateDbPool

/-- A statement on the open database of this name. -/
def execute (name : UStr) (stmt : StateDb → Option StateDb) : Option PoolState := do
  let node ← s.pool.nodes.find name
  let db ← s.files node.file
  let db' ← stmt db
  some { s with files := Function.update s.files node.file (some db') }

end

end PoolState

/-- The nodes of `get` are the ones of the tree in the order of its iterator, which depends on
the shape of the tree. -/
inductive PoolEvent where
  | get (name : UStr) (now : Int) (order : List StateDbNode)
  | remove (name : UStr)
  | restart
  | insert (name : UStr) (elem : Element)
  | update (name : UStr) (elem : Element)
  | delete (name : UStr) (elemName : UStr)

/-- `name` is unique in the table `state`. -/
def insertUnique (utf : Utf) (elem : Element) (db : StateDb) : Option StateDb :=
  if (db.rows elem.name).isNone then insertIntoStateDb utf db elem else none

def poolNext (utf : Utf) (naming : DbNaming) (maxDbs : Nat) (s : PoolState) :
    PoolEvent → Option PoolState
  | .get name now order =>
    if order.Perm s.pool.nodes.nodes then some (s.getStateDbFromPool naming maxDbs name now order)
    else none
  | .remove name => some (s.removeStateDbFromPool naming name)
  | .restart => some (s.restart naming)
  | .insert name elem => s.execute name (insertUnique utf elem)
  | .update name elem => s.execute name fun db => updateIntoStateDb utf db elem
  | .delete name elemName => s.execute name fun db => some (deleteFromStateDb db elemName)

def poolMachine (utf : Utf) (naming : DbNaming) (maxDbs : Nat) : Machine PoolState PoolEvent where
  start s := s = .start
  next := poolNext utf naming maxDbs

/-! ## The map -/

def PoolEvent.configName : PoolEvent → Option UStr
  | .get name _ _ | .remove name | .insert name _ | .update name _ | .delete name _ => some name
  | .restart => none

/-- What an event does to the contents by config name. -/
def referenceDbNext (utf : Utf) (m : UStr → StateDb) : PoolEvent → UStr → StateDb
  | .get _ _ _ | .restart => m
  | .remove name => Function.update m name .empty
  | .insert name elem =>
    Function.update m name ((insertIntoStateDb utf (m name) elem).getD (m name))
  | .update name elem =>
    Function.update m name ((updateIntoStateDb utf (m name) elem).getD (m name))
  | .delete name elemName => Function.update m name (deleteFromStateDb (m name) elemName)

def referenceDbs (utf : Utf) (events : List PoolEvent) : UStr → StateDb :=
  events.foldl (referenceDbNext utf) fun _ => .empty

/-- Every open database has the contents that the map has for its config. -/
def ContentsAgree (s : PoolState) (m : UStr → StateDb) : Prop :=
  ∀ node ∈ s.pool.nodes.nodes, s.files node.file = some (m node.name)

/-- What a new connection to the file of a config would show. -/
def PoolState.stored (naming : DbNaming) (s : PoolState) (name : UStr) : StateDb :=
  (s.files (createDbName naming name)).getD .empty

/-- A removal finds the database open, or there is nothing in its file. -/
def RemovalReaches (naming : DbNaming) (s : PoolState) : PoolEvent → Prop
  | .remove name => name ∈ s.pool.names ∨ s.stored naming name = .empty
  | _ => True

/-! ## Steps -/

/-- The connections lead to the files of the configs. -/
structure PoolState.Linked (naming : DbNaming) (names : Set UStr) (s : PoolState) : Prop where
  named : ∀ node ∈ s.pool.nodes.nodes, node.name ∈ names
  file : ∀ node ∈ s.pool.nodes.nodes, node.file = createDbName naming node.name
  there : ∀ node ∈ s.pool.nodes.nodes, (s.files node.file).isSome

theorem linked_start {naming : DbNaming} {names : Set UStr} :
    PoolState.start.Linked naming names where
  named _ h := by cases h
  file _ h := by cases h
  there _ h := by cases h

section
variable {utf : Utf} {naming : DbNaming} {names : Set UStr} {maxDbs : Nat} {s s' : PoolState}
  {name : UStr} {m : UStr → StateDb}

theorem PoolState.Linked.contents (h : s.Linked naming names) {node : StateDbNode}
    (hn : node ∈ s.pool.nodes.nodes) : s.files node.file = some (s.stored naming node.name) := by
  obtain ⟨db, hdb⟩ := Option.isSome_iff_exists.mp (h.there node hn)
  rw [PoolState.stored, ← h.file node hn, hdb, Option.getD_some]

theorem PoolState.Linked.contentsAgree_iff (h : s.Linked naming names) :
    ContentsAgree s m ↔ ∀ name ∈ s.pool.names, s.stored naming name = m name := by
  constructor
  · intro agree name open_
    obtain ⟨node, hn, rfl⟩ := List.mem_map.mp open_
    have same := agree node hn
    rw [h.contents hn] at same
    exact Option.some.inj same
  · intro same node hn
    rw [h.contents hn, same node.name (List.mem_map_of_mem hn)]

section
variable {now : Int} {order : List StateDbNode}

theorem get_open (h : name ∈ s.pool.names) :
    s.getStateDbFromPool naming maxDbs name now order =
      { s with pool := s.pool.touch name now } :=
  dif_pos h

theorem get_closed (h : name ∉ s.pool.names) :
    s.getStateDbFromPool naming maxDbs name now order =
      { files := createStateDb naming s.files name
        pool := (s.pool.evict maxDbs order).put
          { name, file := createDbName naming name, timeLastUsed := now }
          (StateDbPool.not_mem_names_evict maxDbs order h) } := by
  rw [PoolState.getStateDbFromPool, dif_neg h]
  cases s.pool.evicted maxDbs order <;> rfl

/-- Closing and opening change nothing in the files. -/
theorem mem_get_closed (h : name ∉ s.pool.names) {node : StateDbNode}
    (hn : node ∈ (s.getStateDbFromPool naming maxDbs name now order).pool.nodes.nodes) :
    node = { name, file := createDbName naming name, timeLastUsed := now } ∨
      node ∈ s.pool.nodes.nodes := by
  rw [get_closed h] at hn
  exact ((StateDbPool.mem_put (StateDbPool.not_mem_names_evict maxDbs order h)).mp hn).imp_right
    StateDbPool.mem_evict

theorem stored_get (s : PoolState) :
    (s.getStateDbFromPool naming maxDbs name now order).stored naming = s.stored naming := by
  by_cases h : name ∈ s.pool.names
  · rw [get_open h]
    rfl
  · rw [get_closed h]
    funext n
    by_cases same : createDbName naming n = createDbName naming name
    · simp [PoolState.stored, createStateDb, same]
    · simp [PoolState.stored, createStateDb, same]

theorem name_mem_get (s : PoolState) :
    name ∈ (s.getStateDbFromPool naming maxDbs name now order).pool.names := by
  by_cases h : name ∈ s.pool.names
  · rw [get_open h]
    show name ∈ (s.pool.touch name now).names
    rwa [StateDbPool.names_touch]
  · rw [get_closed h]
    have free := StateDbPool.not_mem_names_evict maxDbs order h
    exact List.mem_map.mpr ⟨_, (StateDbPool.mem_put free).mpr (.inl rfl), rfl⟩

theorem linked_touch (h : s.Linked naming names) :
    PoolState.Linked naming names { s with pool := s.pool.touch name now } where
  named node hn := by
    obtain ⟨old, hold, same, -⟩ := StateDbPool.mem_touch hn
    exact same ▸ h.named old hold
  file node hn := by
    obtain ⟨old, hold, same, file⟩ := StateDbPool.mem_touch hn
    rw [file, same, h.file old hold]
  there node hn := by
    obtain ⟨old, hold, -, file⟩ := StateDbPool.mem_touch hn
    exact file ▸ h.there old hold

theorem createStateDb_there (files : DbFiles) {file : UStr}
    (h : file = createDbName naming name ∨ (files file).isSome) :
    (createStateDb naming files name file).isSome := by
  by_cases same : file = createDbName naming name
  · simp [createStateDb, same]
  · rw [createStateDb, Function.update_of_ne same]
    exact h.resolve_left same

theorem linked_get (h : s.Linked naming names) (hn : name ∈ names) :
    (s.getStateDbFromPool naming maxDbs name now order).Linked naming names := by
  by_cases there : name ∈ s.pool.names
  · rw [get_open there]
    exact linked_touch h
  · constructor
    · intro node hm
      obtain rfl | hm := mem_get_closed there hm
      · exact hn
      · exact h.named node hm
    · intro node hm
      obtain rfl | hm := mem_get_closed there hm
      · rfl
      · exact h.file node hm
    · intro node hm
      rw [get_closed there]
      obtain rfl | hm := mem_get_closed there hm
      · exact createStateDb_there s.files (.inl rfl)
      · exact createStateDb_there s.files (.inr (h.there node hm))

end

theorem restart_files (s : PoolState) : (s.restart naming).files = s.files := by
  have (nodes : List StateDbNode) (files : DbFiles) :
      nodes.foldl (fun files node => destroyStateDb naming files node .keep) files = files := by
    induction nodes with
    | nil => rfl
    | cons _ _ ih => exact ih
  exact this _ s.files

theorem stored_restart (s : PoolState) :
    (s.restart naming).stored naming = s.stored naming := by
  funext name
  rw [PoolState.stored, restart_files, PoolState.stored]

theorem linked_restart (s : PoolState) : (s.restart naming).Linked naming names where
  named _ h := by cases h
  file _ h := by cases h
  there _ h := by cases h

/-! ### Removal -/

theorem remove_closed (h : name ∉ s.pool.names) : s.removeStateDbFromPool naming name = s := by
  unfold PoolState.removeStateDbFromPool
  split
  · rename_i found
    rw [SortedList.Tree.find_eq_none.mpr h] at found
    cases found
  · rfl

/-- The files are those without the one of the removed config. -/
theorem remove_open (naming : DbNaming) (h : name ∈ s.pool.names) :
    ∃ node, ∃ hn : node ∈ s.pool.nodes.nodes, node.name = name ∧
      s.removeStateDbFromPool naming name =
        { files := Function.update s.files (createDbName naming name) none
          pool := s.pool.take node hn } := by
  unfold PoolState.removeStateDbFromPool
  split
  · rename_i node found
    obtain ⟨hn, rfl⟩ := SortedList.find_some _ found
    exact ⟨node, hn, rfl, rfl⟩
  · rename_i found
    exact absurd h (SortedList.Tree.find_eq_none.mp found)

theorem stored_update {files : DbFiles} {pool : StateDbPool} {found : Option StateDb}
    (inj : Set.InjOn naming.sha1 names) (hn : name ∈ names) {other : UStr} (ho : other ∈ names) :
    PoolState.stored naming
        { files := Function.update files (createDbName naming name) found, pool } other =
      Function.update (PoolState.stored naming { files, pool }) name (found.getD .empty) other := by
  by_cases same : other = name
  · subst same
    simp [PoolState.stored]
  · have : createDbName naming other ≠ createDbName naming name :=
      fun h => same (createDbName_injOn inj ho hn h)
    simp [PoolState.stored, same, this]

theorem linked_remove (inj : Set.InjOn naming.sha1 names) (h : s.Linked naming names)
    (hn : name ∈ names) : (s.removeStateDbFromPool naming name).Linked naming names := by
  by_cases there : name ∈ s.pool.names
  · obtain ⟨node, hm, rfl, removed⟩ := remove_open naming there
    rw [removed]
    constructor
    · exact fun other ho => h.named other ((StateDbPool.mem_take hm).mp ho).1
    · exact fun other ho => h.file other ((StateDbPool.mem_take hm).mp ho).1
    · intro other ho
      obtain ⟨ho, differs⟩ := (StateDbPool.mem_take hm).mp ho
      have : other.file ≠ createDbName naming node.name := by
        rw [h.file other ho]
        exact fun same => differs (createDbName_injOn inj (h.named other ho) hn same)
      simpa [this] using h.there other ho
  · rw [remove_closed there]
    exact h

/-! ### Statements -/

/-- A statement that succeeds runs on what the file of the config holds. -/
theorem execute_cases (h : s.Linked naming names) {stmt : StateDb → Option StateDb}
    (done : s.execute name stmt = some s') :
    name ∈ names ∧ ∃ db, stmt (s.stored naming name) = some db ∧
      s' = { s with files := Function.update s.files (createDbName naming name) (some db) } := by
  simp only [PoolState.execute, Option.bind_eq_bind, Option.bind_eq_some_iff,
    Option.some.injEq] at done
  obtain ⟨node, found, db, hdb, db', hdb', rfl⟩ := done
  obtain ⟨hn, rfl⟩ := SortedList.find_some _ found
  rw [h.contents hn, Option.some.injEq] at hdb
  rw [h.file node hn, hdb]
  exact ⟨h.named node hn, db', hdb', rfl⟩

theorem linked_execute (h : s.Linked naming names) {stmt : StateDb → Option StateDb}
    (done : s.execute name stmt = some s') : s'.Linked naming names := by
  obtain ⟨-, db, -, rfl⟩ := execute_cases h done
  refine ⟨h.named, h.file, fun node hn => ?_⟩
  by_cases same : node.file = createDbName naming name
  · simp [same]
  · simpa [same] using h.there node hn

theorem stored_execute (inj : Set.InjOn naming.sha1 names) (h : s.Linked naming names)
    {stmt : StateDb → Option StateDb} (done : s.execute name stmt = some s') {db : StateDb}
    (hdb : stmt (s.stored naming name) = some db) {other : UStr} (ho : other ∈ names) :
    s'.stored naming other = Function.update (s.stored naming) name db other := by
  obtain ⟨hn, db', hdb', rfl⟩ := execute_cases h done
  obtain rfl : db = db' := Option.some.inj (hdb ▸ hdb')
  exact stored_update inj hn ho

/-! ## Runs -/

theorem linked_next (inj : Set.InjOn naming.sha1 names) (h : s.Linked naming names) {e : PoolEvent}
    (named : ∀ name ∈ e.configName, name ∈ names)
    (next : poolNext utf naming maxDbs s e = some s') : s'.Linked naming names := by
  cases e with
  | get name now order =>
    simp only [poolNext, Option.ite_none_right_eq_some, Option.some.injEq] at next
    exact next.2 ▸ linked_get h (named name rfl)
  | remove name =>
    cases next
    exact linked_remove inj h (named name rfl)
  | restart =>
    cases next
    exact linked_restart s
  | insert name elem => exact linked_execute h next
  | update name elem => exact linked_execute h next
  | delete name elemName => exact linked_execute h next

/-- The files follow the map, but for a removal that finds nothing open. -/
theorem stored_next (inj : Set.InjOn naming.sha1 names) (h : s.Linked naming names) {e : PoolEvent}
    (named : ∀ name ∈ e.configName, name ∈ names)
    (next : poolNext utf naming maxDbs s e = some s')
    (open_ : ∀ name, e = .remove name → name ∈ s.pool.names) {other : UStr} (ho : other ∈ names) :
    s'.stored naming other = referenceDbNext utf (s.stored naming) e other := by
  cases e with
  | get name now order =>
    simp only [poolNext, Option.ite_none_right_eq_some, Option.some.injEq] at next
    rw [← next.2, stored_get]
    rfl
  | remove name =>
    cases next
    obtain ⟨node, hm, rfl, removed⟩ := remove_open naming (open_ name rfl)
    rw [removed]
    exact stored_update inj (named _ rfl) ho
  | restart =>
    cases next
    rw [stored_restart]
    rfl
  | insert name elem =>
    obtain ⟨-, db, hdb, -⟩ := execute_cases h next
    have packed : insertIntoStateDb utf (s.stored naming name) elem = some db := by
      unfold insertUnique at hdb
      split at hdb
      · exact hdb
      · cases hdb
    rw [stored_execute inj h next hdb ho, referenceDbNext, packed, Option.getD_some]
  | update name elem =>
    obtain ⟨-, db, hdb, -⟩ := execute_cases h next
    rw [stored_execute inj h next hdb ho, referenceDbNext, hdb, Option.getD_some]
  | delete name elemName => exact stored_execute inj h next rfl ho

theorem referenceDbNext_congr {m m' : UStr → StateDb} {e : PoolEvent}
    (named : ∀ name ∈ e.configName, name ∈ names) (same : ∀ name ∈ names, m name = m' name)
    {other : UStr} (ho : other ∈ names) :
    referenceDbNext utf m e other = referenceDbNext utf m' e other := by
  cases e with
  | get name now order => exact same other ho
  | restart => exact same other ho
  | remove name | insert name elem | update name elem | delete name elem =>
    by_cases here : other = name
    · subst here
      simp [referenceDbNext, same other ho]
    · simp [referenceDbNext, here, same other ho]

/-- What is in the files is what the map has. -/
def Follows (naming : DbNaming) (names : Set UStr) (s : PoolState) (m : UStr → StateDb) : Prop :=
  ∀ name ∈ names, s.stored naming name = m name

/-- A step keeps the files with the map exactly when it is no removal that misses its file. -/
theorem follows_next (inj : Set.InjOn naming.sha1 names) (h : s.Linked naming names)
    (follows : Follows naming names s m) {e : PoolEvent}
    (named : ∀ name ∈ e.configName, name ∈ names)
    (next : poolNext utf naming maxDbs s e = some s') :
    Follows naming names s' (referenceDbNext utf m e) ↔ RemovalReaches naming s e := by
  by_cases open_ : ∀ name, e = .remove name → name ∈ s.pool.names
  · have reaches : RemovalReaches naming s e := by
      cases e with
      | remove name => exact .inl (open_ name rfl)
      | get _ _ _ | restart | insert _ _ | update _ _ | delete _ _ => trivial
    refine iff_of_true (fun other ho => ?_) reaches
    rw [stored_next inj h named next open_ ho]
    exact referenceDbNext_congr named follows ho
  · push Not at open_
    obtain ⟨name, rfl, closed⟩ := open_
    cases next
    rw [remove_closed closed]
    simp only [RemovalReaches, closed, false_or]
    constructor
    · intro same
      simpa [referenceDbNext] using same name (named name rfl)
    · intro nothing other ho
      by_cases here : other = name
      · subst here
        simpa [referenceDbNext] using nothing
      · simpa [referenceDbNext, here] using follows other ho

/-- The map is followed when every open database shows it, now and after one more `get`. -/
theorem follows_iff (h : s.Linked naming names) :
    (ContentsAgree s m ∧ ∀ name ∈ names, ∀ now order,
      ∀ s' ∈ poolNext utf naming maxDbs s (.get name now order), ContentsAgree s' m) ↔
      Follows naming names s m := by
  constructor
  · rintro ⟨-, shown⟩ name hn
    have agree := shown name hn 0 s.pool.nodes.nodes _ (if_pos (List.Perm.refl _))
    rw [(linked_get h hn).contentsAgree_iff, stored_get] at agree
    exact agree name (name_mem_get s)
  · intro follows
    constructor
    · rw [h.contentsAgree_iff]
      intro name there
      obtain ⟨node, hm, rfl⟩ := List.mem_map.mp there
      exact follows node.name (h.named node hm)
    · intro name hn now order s' next
      simp only [poolNext, Option.mem_def, Option.ite_none_right_eq_some, Option.some.injEq] at next
      obtain ⟨-, rfl⟩ := next
      have linked : (s.getStateDbFromPool naming maxDbs name now order).Linked naming names :=
        linked_get h hn
      rw [linked.contentsAgree_iff, stored_get]
      intro other ho
      obtain ⟨node, hm, rfl⟩ := List.mem_map.mp ho
      exact follows node.name (linked.named node hm)

end

/-- The open databases show what the map has after these events. -/
def AgreesAfter (utf : Utf) (naming : DbNaming) (maxDbs : Nat) (events : List PoolEvent) : Prop :=
  ∀ s ∈ (poolMachine utf naming maxDbs).after .start events,
    ContentsAgree s (referenceDbs utf events)

/-- They do after each event, and when a database is then returned by one more `get`. -/
def BehavesAsMap (utf : Utf) (naming : DbNaming) (maxDbs : Nat) (names : Set UStr) :
    List PoolEvent → Prop :=
  Prefixes.Throughout fun events =>
    AgreesAfter utf naming maxDbs events ∧
      ∀ name ∈ names, ∀ now order,
        AgreesAfter utf naming maxDbs (events ++ [.get name now order])

/-- Each removal finds the database open, or there is nothing in its file. -/
def RemovalsReach (utf : Utf) (naming : DbNaming) (maxDbs : Nat) : List PoolEvent → Prop :=
  (poolMachine utf naming maxDbs).AllowedAlong (RemovalReaches naming) .start

section
variable {utf : Utf} {naming : DbNaming} {maxDbs : Nat} {names : Set UStr}
  {events : List PoolEvent}

theorem referenceDbs_snoc (events : List PoolEvent) (e : PoolEvent) :
    referenceDbs utf (events ++ [e]) = referenceDbNext utf (referenceDbs utf events) e := by
  simp [referenceDbs]

theorem linked_after (inj : Set.InjOn naming.sha1 names)
    (named : ∀ e ∈ events, ∀ name ∈ e.configName, name ∈ names) {s : PoolState}
    (after : (poolMachine utf naming maxDbs).after .start events = some s) :
    s.Linked naming names := by
  induction events using List.reverseRecOn generalizing s with
  | nil =>
    cases after
    exact linked_start
  | append_singleton events e ih =>
    rw [Machine.after_snoc, Option.bind_eq_some_iff] at after
    obtain ⟨t, before, next⟩ := after
    have ht := ih (fun d hd => named d (List.mem_append_left _ hd)) before
    exact linked_next inj ht (named e (by simp)) next

/-- What is shown after these events and after one more `get`, in terms of the files. -/
theorem shown_iff_follows (inj : Set.InjOn naming.sha1 names)
    (named : ∀ e ∈ events, ∀ name ∈ e.configName, name ∈ names) :
    (AgreesAfter utf naming maxDbs events ∧ ∀ name ∈ names, ∀ now order,
        AgreesAfter utf naming maxDbs (events ++ [.get name now order])) ↔
      ∀ s ∈ (poolMachine utf naming maxDbs).after .start events,
        Follows naming names s (referenceDbs utf events) := by
  simp only [AgreesAfter, Machine.after_snoc, referenceDbs_snoc, referenceDbNext]
  cases after : (poolMachine utf naming maxDbs).after .start events with
  | none => simp
  | some s =>
    have linked := linked_after inj named after
    simpa [poolMachine] using follows_iff linked

end

/-- The pool behaves as a map of databases exactly as long as no removal misses the file of a
database that is closed. -/
theorem pool_behaves_as_map (utf : Utf) (naming : DbNaming) (maxDbs : Nat) (names : Set UStr)
    (inj : Set.InjOn naming.sha1 names) (events : List PoolEvent)
    (named : ∀ e ∈ events, ∀ name ∈ e.configName, name ∈ names) :
    BehavesAsMap utf naming maxDbs names events ↔ RemovalsReach utf naming maxDbs events := by
  rw [RemovalsReach, Machine.allowedAlong_iff_atEach]
  apply Prefixes.throughout_iff_atEach
  · rw [shown_iff_follows inj (by simp)]
    rintro s ⟨⟩ name -
    rfl
  · intro pre e hp before
    have named_pre : ∀ d ∈ pre, ∀ name ∈ d.configName, name ∈ names :=
      fun d hd => named d (hp.mem (List.mem_append_left _ hd))
    have named_e : ∀ name ∈ e.configName, name ∈ names := named e (hp.mem (by simp))
    have named_snoc : ∀ d ∈ pre ++ [e], ∀ name ∈ d.configName, name ∈ names :=
      fun d hd => named d (hp.mem hd)
    rw [shown_iff_follows inj named_pre] at before
    rw [shown_iff_follows inj named_snoc, Machine.after_snoc, referenceDbs_snoc]
    cases after : (poolMachine utf naming maxDbs).after .start pre with
    | none => simp
    | some s =>
      have linked := linked_after inj named_pre after
      have follows := before s after
      cases next : (poolMachine utf naming maxDbs).next s e with
      | none =>
        cases e with
        | remove name => cases next
        | get _ _ _ | restart | insert _ _ | update _ _ | delete _ _ => simp [RemovalReaches, next]
      | some t => simpa [next] using follows_next inj linked follows named_e next

/-! ### Two configs and one open database -/

/-- A digest that differs for the configs `a` and `b`. -/
def plainNaming : DbNaming where
  dataDir := [47, 100]
  sha1 name := name.map UInt16.toUInt8

def plainNode (name : UStr) (timeLastUsed : Int) : StateDbNode :=
  { name, file := createDbName plainNaming name, timeLastUsed }

theorem plainNaming_injOn : Set.InjOn plainNaming.sha1 {[97], [98]} := by
  rintro a (rfl | rfl) b (rfl | rfl) h
  · rfl
  · cases h
  · cases h
  · rfl

/-- The database of `a` gets a row and gives way to that of `b`. -/
def evictedFirst : List PoolEvent :=
  [.get [97] 0 [], .insert [97] (createElement [120]), .get [98] 1 [plainNode [97] 0]]

/-- The row is still there when `a` is back. -/
theorem pool_behaves_as_map_evicted :
    BehavesAsMap asciiUtf plainNaming 1 {[97], [98]}
      (evictedFirst ++ [.get [97] 2 [plainNode [98] 1], .remove [97]]) := by
  refine (pool_behaves_as_map asciiUtf plainNaming 1 {[97], [98]} plainNaming_injOn _ ?_).mpr ?_
  · decide
  · refine ⟨trivial, ?_⟩
    rintro _ ⟨⟩
    refine ⟨trivial, ?_⟩
    rintro _ ⟨⟩
    refine ⟨trivial, ?_⟩
    rintro _ ⟨⟩
    refine ⟨trivial, ?_⟩
    rintro _ ⟨⟩
    exact ⟨.inl (List.mem_singleton.mpr rfl), fun _ _ => trivial⟩

/-- Once `a` has been closed for `b`, its removal leaves the file, and the next `get` of it
returns the old row. -/
theorem removal_misses_closed :
    ¬ BehavesAsMap asciiUtf plainNaming 1 {[97], [98]}
      (evictedFirst ++ [.remove [97], .get [97] 2 [plainNode [98] 1]]) := by
  intro h
  have agree := (h _ [] (List.append_nil _).symm).1
  obtain ⟨s, after, there, row⟩ : ∃ s, (poolMachine asciiUtf plainNaming 1).after .start
      (evictedFirst ++ [.remove [97], .get [97] 2 [plainNode [98] 1]]) = some s ∧
      plainNode [97] 2 ∈ s.pool.nodes.nodes ∧
      ((s.files (plainNode [97] 2).file).bind (·.rows [120])).isSome :=
    ⟨_, rfl, List.mem_singleton.mpr rfl, rfl⟩
  rw [agree s after _ there] at row
  cases row

end Yella
