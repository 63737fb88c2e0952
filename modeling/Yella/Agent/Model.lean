import Yella.Plugin.Accumulator
import Yella.Plugin.Threads
import Yella.Router.Drain

/-!
# The agent

`agent.c` with the router and the file plugin, the only one that is built: all of their threads,
one step after the other in any order, while the agent runs and while `yella_destroy_agent`
takes it down. The heartbeat has a sender of its own and is not modelled.
-/

namespace Yella

/-- What `yella_destroy_agent` does next, from `stoppingMonitor` on in `plugin_stop`. -/
inductive MainThread where
  | running
  | joiningHeartbeat
  | destroyingSenders
  | stoppingRouter
  | joiningSocketWorker
  | joiningSpooler
  | freeingRouter
  | terminatingContext
  | stoppingMonitor
  | joiningWatcher
  | stoppingQueue
  | joiningRunner
  | destroyingPool
  | stoppingAccumulator
  | joiningAccumulator
  | done
  deriving DecidableEq

namespace MainThread

/-- `destroy_router` has not come to the mutex of the router. -/
def routerLives : MainThread → Bool
  | running | joiningHeartbeat | destroyingSenders | stoppingRouter | joiningSocketWorker
  | joiningSpooler | freeingRouter => true
  | _ => false

/-- The plugins are stopped after the router has been destroyed. -/
def stopsPlugin (main : MainThread) : Bool := !main.routerLives && main != .terminatingContext

def socketWorkerRuns : MainThread → Bool
  | running | joiningHeartbeat | destroyingSenders | stoppingRouter | joiningSocketWorker => true
  | _ => false

/-- `should_stop` of the job queue. -/
def queueStops : MainThread → Bool
  | joiningRunner | destroyingPool | stoppingAccumulator | joiningAccumulator | done => true
  | _ => false

end MainThread

/-- The `plugin_sender` of the accumulator's thread, which is the only one to call
`send_plugin_message`. -/
inductive PluginSender where
  | missing
  | live
  | destroyed
  deriving DecidableEq

/-- A step of `send_plugin_message`: whether what it uses has been destroyed, whether the plugin
is being stopped, and whether the message is lost in it. -/
structure SendUse where
  senderLives : Bool
  routerLives : Bool
  stopping : Bool
  lost : Bool
  deriving DecidableEq

structure Agent where
  main : MainThread
  plugin : PluginThreads
  acc : Accumulator
  sender : PluginSender
  rtr : Router
  uses : List SendUse

/-- The thread of the accumulator is the router's sender 0. -/
def accumulatorSender : Nat := 0

namespace Agent

/-- What `send_plugin_message` uses lives. -/
def canSend (s : Agent) : Bool := s.sender != .destroyed && s.main.routerLives

def use (s : Agent) (lost : Bool) : SendUse where
  senderLives := s.sender != .destroyed
  routerLives := s.main.routerLives
  stopping := s.main.stopsPlugin
  lost := lost

/-- The thread of the accumulator is in `send_router_message`. -/
def calling (s : Agent) : Bool := s.rtr.calls accumulatorSender != .idle

end Agent

/-- The message that the runner's next element adds. -/
def PluginThreads.nextMessage (utf : Utf) (s : PluginThreads) : Option Message :=
  match s.runner with
  | .running jb (call :: _) =>
    (processElement utf jb call.name call.elem (s.dbs jb.configName)).bind Prod.snd
  | _ => none

/-- `main` is the next step of `yella_destroy_agent`. -/
inductive AgentEvent where
  | main
  | message (e : MessageEvent)
  | watcher (e : WatcherEvent)
  | runner (e : RunnerEvent)
  | accumulator (e : AccumulatorEvent)
  | router (e : RouterEvent)

/-- What the code outside of the agent does, and the settings. -/
structure Surroundings where
  utf : Utf
  maxDbs : Nat
  bufferSize : List Message → Nat
  maxMsgSz : Nat
  /-- The packed parcel of `send_plugin_message`. -/
  pack : StatesParcel → Bytes
  lo : ListingOrder
  ready : Bool

section
variable (w : Surroundings)

/-- The call of `send_plugin_message` up to `send_router_message`. -/
def sendPluginMessage (s : Agent) (parcel : StatesParcel) : Option Agent :=
  if s.canSend then
    -- a missing sender is created
    (routerNext w.lo w.ready s.rtr (.call accumulatorSender (pluginMessage (w.pack parcel)))).map
      fun rtr => { s with sender := .live, rtr, uses := s.uses ++ [s.use false] }
  else some { s with uses := s.uses ++ [s.use true] }

def mainNext (s : Agent) : Option Agent :=
  match s.main with
  | .running => some { s with main := .joiningHeartbeat }
  | .joiningHeartbeat => some { s with main := .destroyingSenders }
  | .destroyingSenders =>
    some { s with
      main := .stoppingRouter
      sender := if s.sender = .missing then .missing else .destroyed }
  | .stoppingRouter =>
    (routerNext w.lo w.ready s.rtr .stop).map fun rtr =>
      { s with main := .joiningSocketWorker, rtr }
  | .joiningSocketWorker =>
    match s.plugin.message with
    | .idle => some { s with main := .joiningSpooler }
    | _ => none
  | .joiningSpooler =>
    if s.rtr.spooler = .ended then some { s with main := .freeingRouter } else none
  -- the condition and the mutex are destroyed first
  | .freeingRouter => some { s with main := .terminatingContext }
  | .terminatingContext =>
    -- `zmq_ctx_term` waits until the sockets are closed
    if s.sender = .live then none else some { s with main := .stoppingMonitor }
  | .stoppingMonitor =>
    some { s with
      main := .joiningWatcher
      plugin := { s.plugin with stopRequested := s.plugin.watcher.isRunning } }
  | .joiningWatcher =>
    if s.plugin.watcher.joinable then
      some { s with
        main := .stoppingQueue
        plugin := { s.plugin with
          watcher := .absent
          stopRequested := false
          fplg := { s.plugin.fplg with specs := .empty } } }
    else none
  | .stoppingQueue => some { s with main := .joiningRunner }
  | .joiningRunner =>
    match s.plugin.runner with
    | .idle =>
      some { s with
        main := .destroyingPool
        plugin := { s.plugin with fplg := { s.plugin.fplg with jobs := [] } } }
    | _ => none
  | .destroyingPool =>
    some { s with
      main := .stoppingAccumulator
      plugin := { s.plugin with fplg := { s.plugin.fplg with dbPool := [] } } }
  | .stoppingAccumulator =>
    (accumulatorNext w.utf w.bufferSize w.maxMsgSz s.acc .stop).map fun (acc, _) =>
      { s with main := .joiningAccumulator, acc }
  | .joiningAccumulator =>
    match s.acc.worker with
    | .ended => some { s with main := .done }
    | _ => none
  | .done => none

/-- The message goes to the accumulator when its guard is free. -/
def addElementMessage (s : Agent) : Option Accumulator :=
  match s.plugin.nextMessage w.utf with
  | some msg => (accumulatorNext w.utf w.bufferSize w.maxMsgSz s.acc (.add msg)).map Prod.fst
  | none => some s.acc

def agentRunnerNext (s : Agent) (e : RunnerEvent) : Option Agent := do
  let plugin ← runnerNext w.utf w.maxDbs s.plugin e
  match e with
  | .popJob => if s.main.queueStops then none else some { s with plugin }
  | .element => do
    let acc ← addElementMessage w s
    some { s with plugin, acc }
  | _ => some { s with plugin }

/-- While it is in `send_router_message` the thread of the accumulator does nothing else. -/
def agentAccumulatorNext (s : Agent) (e : AccumulatorEvent) : Option Agent :=
  match e with
  | .add _ => none
  | .stop => none
  | _ =>
    if s.calling then none
    else do
      let (acc, parcel) ← accumulatorNext w.utf w.bufferSize w.maxMsgSz s.acc e
      match parcel with
      | some parcel => sendPluginMessage w { s with acc } parcel
      | none => some { s with acc }

/-- A step of the call in the thread of the accumulator. -/
def sendRouterStep (s : Agent) (e : RouterEvent) : Option Agent :=
  (routerNext w.lo w.ready s.rtr e).map fun rtr =>
    let lost := rtr.calls accumulatorSender = .idle ∧ rtr.accepted.length = s.rtr.accepted.length
    { s with rtr, uses := s.uses ++ [s.use (decide lost)] }

/-- The threads that take these steps: the accumulator's, the socket worker and the thread of
`spool_main`. -/
def agentRouterNext (s : Agent) (e : RouterEvent) : Option Agent :=
  match e with
  | .readState i | .choose i | .push i _ | .send i _ =>
    if i = accumulatorSender then sendRouterStep w s e else none
  | .monitor _ | .outgoing _ =>
    if s.main.socketWorkerRuns then
      (routerNext w.lo w.ready s.rtr e).map fun rtr => { s with rtr }
    else none
  | .wake | .check | .pop _ _ | .sendPopped _ =>
    (routerNext w.lo w.ready s.rtr e).map fun rtr => { s with rtr }
  | .call _ _ | .stop | .restart _ => none

def agentNext (s : Agent) : AgentEvent → Option Agent
  | .main => mainNext w s
  | .message e =>
    if s.main.socketWorkerRuns then
      (messageNext w.utf s.plugin e).map fun plugin => { s with plugin }
    else none
  | .watcher e => (watcherNext s.plugin e).map fun plugin => { s with plugin }
  | .runner e => agentRunnerNext w s e
  | .accumulator e => agentAccumulatorNext w s e
  | .router e => agentRouterNext w s e

/-- `yella_create_agent`, with what the plugin and the spool find on disk. -/
def agentMachine : Machine Agent AgentEvent where
  start s := ∃ plugin rtr, (filePlugin w.utf w.maxDbs).start plugin ∧
    (∃ settings disk listings sp,
      createSpool w.lo settings disk listings = some (some sp) ∧ rtr = .created sp) ∧
    s = {
      main := .running, plugin, acc := createAccumulator, sender := .missing, rtr, uses := [] }
  next := agentNext w

end

end Yella
