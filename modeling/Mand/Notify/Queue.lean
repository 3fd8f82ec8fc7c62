import Mand.Lib.Keyed
import Mand.Lib.Run
import Mand.Index.Order
import Mand.Msg.Packet
import Mand.Server.Slots
import Mand.Store.Heap

/-! # Queues of notifications

`notify_sel` and `exec_pending_notifications` of `dm_notify.c` and `build_notify_events` of
`dm_dmconfig.c`. A queue is the list of its items in the order of the tree. -/
namespace Mand.Notify
open Mand.Store Mand.Msg Mand.Server
set_option autoImplicit false

/-- `enum notify_type`. -/
inductive NotifyType
  | add
  | change
  | del
  deriving DecidableEq, Repr

def passiveNotify : ℕ := 1

def activeNotify : ℕ := 2

/-- `struct notify_item`. -/
structure NotifyItem where
  level : ℕ
  sb : Selector
  type : NotifyType
  value : DmValue

/-- `notify_compare`. -/
def notifyCompare (a b : NotifyItem) : ℤ := dmSelcmp a.sb b.sb dmSelectorLen

/-- The static variables of `dm_notify.c`. -/
structure Notifier where
  slots : Slots
  queue : ℕ → List NotifyItem
  pending : Bool

/-- Slot 0 has the callback `dm_notify`, an allocated one `dmconfig_notify_cb`. -/
def Notifier.hasCb (n : Notifier) (i : ℕ) : Bool := i = 0 ∨ (n.slots.data i).isSome = true

/-- The two bits of a slot. -/
def levelOf (ntfy i : ℕ) : ℕ := ntfy / 4 ^ i % 4

/-- An item that is found keeps its selector. -/
def NotifyItem.over (item old : NotifyItem) : NotifyItem := { item with sb := old.sb }

def findItem (queue : List NotifyItem) (item : NotifyItem) : Option NotifyItem :=
  Keyed.find notifyCompare item queue

def putItem (queue : List NotifyItem) (item : NotifyItem) : List NotifyItem :=
  Keyed.upsert notifyCompare NotifyItem.over item queue

/-- The loop of `notify_sel` comes to slot `i` with a level and does not skip it. -/
def served (slot : ℤ) (ntfy i : ℕ) : Bool := i < 16 ∧ (i : ℤ) ≠ slot ∧ levelOf ntfy i ≠ 0

/-- `notify_sel`. -/
def notifySel (n : Notifier) (slot : ℤ) (sel : Selector) (value : DmValue) (type : NotifyType) : Notifier :=
  if value.notify = 0 then n
  else
    let item := fun i => NotifyItem.mk (levelOf value.notify i) sel type value
    { n with
      queue := fun i => if served slot value.notify i = true then putItem (n.queue i) (item i) else n.queue i
      pending := n.pending || (List.range 16).any fun i =>
        served slot value.notify i && (findItem (n.queue i) (item i)).isNone }

/-- `notify`. -/
def notify (n : Notifier) (slot : ℤ) (sel : Selector) (id : ℕ) (value : DmValue) (type : NotifyType) : Notifier :=
  if value.notify = 0 then n else notifySel n slot (dmSelcat sel id) value type

/-! ## Delivery -/

section Deliver
variable (A : Talloc) (put : NotifyItem → Dm2Request → Call)

/-- `build_notify_events`, where `put` writes one item: the items that are left, and the request. -/
def buildNotifyEvents (level : ℕ) : List NotifyItem → Dm2Request → Option (Rc × List NotifyItem × Dm2Request)
  | [], req => some (.ok, [], req)
  | item :: queue, req =>
    if item.level ≠ level then do
      let (rc, queue, req) ← buildNotifyEvents level queue req
      some (rc, item :: queue, req)
    else
      match put item req with
      | none => none
      | some (.ok, req) => buildNotifyEvents level queue req
      | some (rc, req) => some (rc, item :: queue, req)

/-- `CMD_CLIENT_ACTIVE_NOTIFY`. -/
def cmdClientActiveNotify : UInt32 := 1000

/-- `APP_ID`. -/
def appId : UInt32 := 16777217

/-- `CMD_FLAG_REQUEST`. -/
def cmdFlagRequest : UInt8 := 0x80

/-- `dmconfig_notify_cb`: the items that are left, and the request that is enqueued. -/
def dmconfigNotifyCb (queue : List NotifyItem) : Option (List NotifyItem × Option Dm2Request) := do
  match ← dmNewPacket A cmdClientActiveNotify cmdFlagRequest appId 0 0 with
  | (.ok, req) =>
    match ← buildNotifyEvents put activeNotify queue req with
    | (.ok, queue, req) =>
      match ← dmFinalizePacket req with
      | (.ok, req) => some (queue, some req)
      | _ => some (queue, none)
    | (_, queue, _) => some (queue, none)
  | _ => some (queue, none)

/-- The body of the loop of `exec_pending_notifications`, with the requests that go to each context. -/
def execSlot (s : Notifier × List (ℕ × Dm2Request)) (i : ℕ) : Option (Notifier × List (ℕ × Dm2Request)) :=
  let (n, out) := s
  if n.hasCb i = false ∨ (n.queue i).isEmpty = true then some s
  else if i = 0 then
    -- `dm_notify` clears the queue
    some ({ n with queue := Function.update n.queue 0 [] }, out)
  else do
    let key ← n.slots.data i
    let (queue, req) ← dmconfigNotifyCb A put (n.queue i)
    some ({ n with queue := Function.update n.queue i queue }, out ++ req.toList.map fun r => (key, r))

/-- `exec_pending_notifications`. -/
def execPendingNotifications (n : Notifier) : Option (Notifier × List (ℕ × Dm2Request)) :=
  if n.pending = false then some (n, [])
  else do
    let (n, out) ← Run.run (execSlot A put) (n, []) (List.range 16)
    some ({ n with pending := false }, out)

/-- `rpc_get_passive_notifications` on the queue of a slot. -/
def getPassiveNotifications (n : Notifier) (slot : ℕ) (answer : Dm2Request) : Option (Rc × Notifier × Dm2Request) := do
  let (rc, queue, answer) ← buildNotifyEvents put passiveNotify (n.queue slot) answer
  some (rc, { n with queue := Function.update n.queue slot queue }, answer)

end Deliver

/-! ## Slots -/

/-- `alloc_slot`. -/
def allocNotifySlot (n : Notifier) (data : ℕ) : Option (ℤ × Notifier) := do
  let (slot, t) ← allocSlot n.slots data
  some (slot, { n with slots := t })

/-- `free_slot`, less what it does in the store. -/
def freeNotifySlot (n : Notifier) (slot : ℤ) : Notifier :=
  if slot < 1 ∨ 15 < slot then n
  else if n.slots.map.getLsbD slot.toNat = false then n
  else ⟨freeSlot n.slots slot, Function.update n.queue slot.toNat [], n.pending⟩

def Notifier.init : Notifier := ⟨⟨1, 1, fun _ => none⟩, fun _ => [], false⟩

end Mand.Notify
