import Mand.Msg.Encode
import Mand.Notify.Events
import Mand.Notify.Levels
import Mand.Signal.Emit

/-! # The server with its queues and its actions

The store, the sessions, the notification slots and the scheduled actions together. A step is a request,
what happens to a connection, or `notify_prepare_cb`; it leaves a list of what was scheduled, called and
sent. -/
namespace Mand.Signal
open Mand.Store Mand.Index Mand.Msg Mand.Server Mand.Notify Mand.Action Mand.Bytes
set_option autoImplicit false

/-- What the server is built with: the data model and its hooks, the actions, the memory for messages and
the AVPs of notifications. -/
structure Host where
  env : Env
  actions : ℕ → Option DmAction
  talloc : Talloc
  events : EventEnv
  schema_eq : events.schema = env.schema

structure System where
  server : State
  /-- `ctx->notify_slot` -/
  notifySlot : ℕ → ℤ
  notifier : Notifier
  chain : List ExecNode

/-- A message to a client: `rpc_event_broadcast` for a node, or `dmconfig_notify_cb` with the items that it
took out of the queue. -/
inductive Packet
  | event (n : ExecNode) (req : Dm2Request)
  | notify (items : List NotifyItem) (req : Dm2Request)

inductive Entry
  /-- a node was put into the tree of actions -/
  | scheduled (n : ExecNode)
  | called (c : Action.Call)
  | sent (key : ℕ) (p : Packet)

/-! ## Signals -/

/-- The notifier after a call. -/
def deliver (n : Notifier) : Signal → Notifier
  | .notify slot sel value type => notifySel n slot sel value type
  | .action _ _ _ => n

def deliverAll (n : Notifier) (sigs : List Signal) : Notifier := sigs.foldl deliver n

/-- The tree of actions after some calls, and the nodes that are new in it. -/
def scheduleAll (table : ℕ → Option DmAction) : List Signal → List ExecNode → Option (List ExecNode × List Entry)
  | [], chain => some (chain, [])
  | .notify _ _ _ _ :: sigs, chain => scheduleAll table sigs chain
  | .action action sel type :: sigs, chain => do
    let chain' ← actionSel table chain action sel type
    let (c, out) ← scheduleAll table sigs chain'
    some (c, (chain'.filter (· ∉ chain)).map .scheduled ++ out)

/-- The calls that an operation has made. -/
def emit (host : Host) (s : System) (sigs : List Signal) : Option (System × List Entry) := do
  let (chain, out) ← scheduleAll host.actions sigs s.chain
  some ({ s with notifier := deliverAll s.notifier sigs, chain := chain }, out)

/-! ## Actions -/

/-- `CMD_CLIENT_EVENT_BROADCAST`. -/
def cmdClientEventBroadcast : UInt32 := 1001

/-- `AVP_EVENT_TYPE`. -/
def avpEventType : UInt32 := 1021

/-- `rpc_event_broadcast` up to the queue of the connection. -/
def eventRequest (A : Talloc) (path : List ℕ) (type : ActionType) : Option Dm2Request :=
  match buildPacket A cmdClientEventBroadcast cmdFlagRequest appId 0 0
      (.avp avpPath vpTravelping (octets path)
        (.avp avpEventType vpTravelping (be 4 type.code.toNat) .nil)) with
  | some (.ok, req) => some req
  | _ => none

/-- `dm_event_broadcast`. -/
def eventBroadcast (host : Host) (ctxs : List Ctx) (n : ExecNode) : List Entry :=
  match dmSel2name host.env.schema n.sel maxParamNameLen with
  | none => []
  | some path => ctxs.flatMap fun c =>
      (eventRequest host.talloc path n.type).toList.map fun req => .sent c.key (.event n req)

/-- A call of `exec_actions`, with what it sends. -/
def callEntries (host : Host) (ctxs : List Ctx) (c : Action.Call) : List Entry :=
  match c with
  | .event n => .called c :: eventBroadcast host ctxs n
  | _ => [.called c]

def preEntries (host : Host) (chain : List ExecNode) : List Entry :=
  (execActionsPre host.actions chain).map .called

def actionEntries (host : Host) (ctxs : List Ctx) (chain : List ExecNode) : List Entry :=
  (execActions host.actions chain).flatMap (callEntries host ctxs)

/-! ## Notifications -/

/-- The body of the loop of `exec_pending_notifications`. -/
def flushSlot (host : Host) (s : Notifier × List Entry) (i : ℕ) : Option (Notifier × List Entry) :=
  let (n, out) := s
  if n.hasCb i = false ∨ (n.queue i).isEmpty = true then some s
  else if i = 0 then some ({ n with queue := Function.update n.queue 0 [] }, out)
  else do
    let key ← n.slots.data i
    let (queue, req) ← dmconfigNotifyCb host.talloc (putEvent host.talloc host.events) (n.queue i)
    let items := (n.queue i).filter fun x => x.level = activeNotify
    some ({ n with queue := Function.update n.queue i queue }, out ++ req.toList.map fun r => .sent key (.notify items r))

/-- `exec_pending_notifications`. -/
def flush (host : Host) (n : Notifier) : Option (Notifier × List Entry) :=
  if n.pending = false then some (n, [])
  else do
    let (n, out) ← Run.run (flushSlot host) (n, []) (List.range 16)
    some ({ n with pending := false }, out)

/-! ## Requests -/

/-- `ctx->notify_slot ? : -1`. -/
def writerSlot (s : System) (key : ℕ) : ℤ := if s.notifySlot key = 0 then -1 else s.notifySlot key

/-- What `end_session` does with the slot of the context. -/
def releaseSlot (host : Host) (s : System) (key : ℕ) : Option System :=
  if s.notifySlot key = 0 then some s
  else do
    let (n, st) ← freeSlotIn host.env.schema s.notifier (s.notifySlot key) s.server.store
    some { s with notifier := n, server := { s.server with store := st } }

/-- The end of `rpc_db_commit` and of `end_session`. -/
def runActions (host : Host) (s : System) : Option (System × List Entry) := do
  let (n, out) ← flush host s.notifier
  some ({ s with notifier := n, chain := [] }, actionEntries host s.server.ctxs s.chain ++ out)

/-- `end_session`. -/
def closeSession (host : Host) (s : System) (c : Ctx) : Option (System × List Entry) := do
  let s ← releaseSlot host s c.key
  let server ← endSession s.server c
  let (s', out) ← runActions host { s with server := server }
  some (s', preEntries host s.chain ++ out)

/-- `rpc_db_commit`. -/
def commitChanges (host : Host) (s : System) (c : Ctx) (order : List Selector) : Option (System × List Entry) :=
  if c.id ≠ s.server.cfgSessionId then some (s, [])
  else do
    let (r, cache) ← cacheValidate host.env s.server.store s.server.cache
    if r = 0 then some ({ s with server := { s.server with cache := cache } }, [])
    else if order.Perm (cache.map CacheItem.sb) then do
      let (st, sigs) ← cacheApply host.env (writerSlot s c.key) s.server.store (order.filterMap (cacheFind cache))
      let (s1, out) ← emit host { s with server := { s.server with store := st, cache := [] } } sigs
      let (s2, out') ← runActions host s1
      some (s2, preEntries host s.chain ++ out ++ out')
    else none

/-- `request_cb` ends the session of a set that ran out of memory. -/
def setValues (host : Host) (s : System) (c : Ctx) (values : List (Selector × Avp)) : Option (System × List Entry) := do
  let ((rc, st, cache), sigs) ← dbSet host.env (writerSlot s c.key) c.flags values s.server.store s.server.cache
  let (s, out) ← emit host { s with server := { s.server with store := st, cache := cache } } sigs
  if rc = .errAlloc then do
    let (s, out') ← closeSession host s c
    some (s, out ++ out')
  else some (s, out)

/-- `rpc_subscribe_notify`. -/
def subscribe (s : System) (key : ℕ) : Option System :=
  if s.notifySlot key ≠ 0 then some s
  else do
    let (slot, n) ← allocNotifySlot s.notifier key
    some { s with notifier := n, notifySlot := Function.update s.notifySlot key slot }

/-- A slot that can be written to; what the others read and write is not in the table of the slots. -/
def slotNumber (s : System) (key : ℕ) : Option ℕ :=
  if 0 ≤ s.notifySlot key ∧ s.notifySlot key < 16 then some (s.notifySlot key).toNat else none

/-! ## Steps -/

inductive SysEvent
  | server (ev : Event)
  | subscribe (key : ℕ)
  | unsubscribe (key : ℕ)
  | param (key notify : ℕ) (path : List Selector)
  | recursive (key notify : ℕ) (path : Selector)
  | passive (key : ℕ) (answer : Dm2Request)
  /-- `notify_prepare_cb`, before the event loop waits -/
  | prepare

/-- A request to the server. -/
def serverStep (host : Host) (s : System) : Event → Option (System × List Entry)
  | .set key values => do
    let c ← s.server.ctx key
    setValues host s c values
  | .addInstance key sel id => do
    let _ ← s.server.ctx key
    let ((_, st), sigs) ← addInstanceBySelector host.env.schema s.server.store sel (id % 2 ^ 16)
    emit host { s with server := { s.server with store := st } } sigs
  | .delInstance key sel => do
    let _ ← s.server.ctx key
    let ((_, st), sigs) ← delTableBySelector host.env.schema s.server.store sel
    emit host { s with server := { s.server with store := st } } sigs
  | .commit key order => do
    let c ← s.server.ctx key
    commitChanges host s c order
  | .endSession key => do
    let c ← s.server.ctx key
    closeSession host s c
  | .accept => do
    let (_, server) ← Server.step host.env s.server .accept
    some ({ s with server := server, notifySlot := Function.update s.notifySlot s.server.freshKey 0 }, [])
  | ev => do
    let (_, server) ← Server.step host.env s.server ev
    some ({ s with server := server }, [])

/-- One step. -/
def sysStep (host : Host) (s : System) : SysEvent → Option (System × List Entry)
  | .server ev => serverStep host s ev
  | .subscribe key => do
    let _ ← s.server.ctx key
    let s ← subscribe s key
    some (s, [])
  | .unsubscribe key => do
    let _ ← s.server.ctx key
    let s ← releaseSlot host s key
    some (s, [])
  | .param key notify path => do
    let _ ← s.server.ctx key
    let slot ← slotNumber s key
    let (_, st) ← rpcParamNotify host.env.schema slot notify path s.server.store
    some ({ s with server := { s.server with store := st } }, [])
  | .recursive key notify path => do
    let _ ← s.server.ctx key
    let slot ← slotNumber s key
    let (_, st) ← rpcRecursiveParamNotify host.env.schema slot notify path s.server.store
    some ({ s with server := { s.server with store := st } }, [])
  | .passive key answer => do
    let _ ← s.server.ctx key
    let slot ← slotNumber s key
    if slot = 0 then some (s, [])
    else do
      let (_, n, _) ← getPassiveNotifications (putEvent host.talloc host.events) s.notifier slot answer
      some ({ s with notifier := n }, [])
  | .prepare =>
    if s.server.cfgSessionId = 0 then do
      let (n, out) ← flush host s.notifier
      some ({ s with notifier := n }, out)
    else some (s, [])

/-- A step with everything that went before it. -/
def logStep (host : Host) (x : System × List Entry) (ev : SysEvent) : Option (System × List Entry) := do
  let (s, out) ← sysStep host x.1 ev
  some (s, x.2 ++ out)

/-- The server before the first connection. -/
def System.init (host : Host) : Option System := do
  let server ← Server.init host.env
  some ⟨server, fun _ => 0, Notifier.init, []⟩

end Mand.Signal
