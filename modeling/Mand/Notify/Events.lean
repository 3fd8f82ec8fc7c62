import Mand.Msg.Short
import Mand.Notify.Queue
import Mand.Save.Serialize
import Mand.Store.Resolve

/-! # Notifications on the wire

What `build_notify_events` writes for an item, `dm_add_avp` included, and the two requests that carry
items: the one of `dmconfig_notify_cb` and the answer of `rpc_get_passive_notifications`. -/
namespace Mand.Notify
open Mand.Store Mand.Msg Mand.Server Mand.Index Mand.Bytes
set_option autoImplicit false

/-! ## Codes -/

/-- `VP_TRAVELPING`. -/
def vpTravelping : UInt32 := 18681

def avpPath : UInt32 := 1000
def avpCounter : UInt32 := 1004
def avpEnum : UInt32 := 1006
def avpString : UInt32 := 1007
def avpAddress : UInt32 := 1008
def avpBool : UInt32 := 1009
def avpDate : UInt32 := 1010
def avpRc : UInt32 := 1012
def avpNotifyType : UInt32 := 1014
def avpUnknown : UInt32 := 1015
def avpAbsticks : UInt32 := 1016
def avpRelticks : UInt32 := 1017
def avpBinary : UInt32 := 1019
def avpContainer : UInt32 := 1025
def avpTable : UInt32 := 1030
def avpInt32 : UInt32 := 2204
def avpUint32 : UInt32 := 2205
def avpInt64 : UInt32 := 2206
def avpUint64 : UInt32 := 2207
def avpTicks : UInt32 := 2208
def avpType : UInt32 := 2209

/-- `avp_type_map`. -/
def avpTypeMap : DmType → UInt32
  | .enum => avpEnum
  | .counter => avpCounter
  | .int => avpInt32
  | .uint => avpUint32
  | .int64 => avpInt64
  | .uint64 => avpUint64
  | .str => avpString
  | .binary => avpBinary
  | .base64 => avpBinary
  | .ipaddr4 => avpAddress
  | .ipaddr6 => avpAddress
  | .bool => avpBool
  | .date => avpDate
  | .selector => avpPath
  | .ticks => avpTicks
  | _ => avpUnknown

/-! ## Values -/

/-- The schema, `ticks2realtime`, and the AVPs that `dm_add_array_avp` writes for the rows of an array,
whose walk ends at level 16. -/
structure EventEnv where
  schema : Schema
  realtime : ℤ → ℤ
  array : DmElement → DmValue → Avps
  array_depth : ∀ e v, (array e v).depth ≤ 8

theorem nil_depth_le (_ : DmElement) (_ : DmValue) : Avps.nil.depth ≤ 8 := Nat.zero_le 8

def octets (l : List ℕ) : List UInt8 := l.map UInt8.ofNat

/-- A number in `w` bytes. -/
def intBytes (w : ℕ) (n : ℤ) : List UInt8 := be w (n % 256 ^ w).toNat

def avp (code : UInt32) (data : List UInt8) : Avps := .avp code vpTravelping data .nil

/-- The string or the block in a value; a null pointer counts as an empty one. -/
def valueOctets : Value → List UInt8
  | .str s => octets (s.getD [])
  | .binary b => octets (b.getD [])
  | .ip4 b => octets b
  | .ip6 b => octets b
  | _ => []

def valueNumber : Value → ℤ
  | .bool n => n
  | v => Index.Value.number v

/-- `TIME_SINCE_EPOCH`. -/
def timeSinceEpoch : ℤ := 2208988800

/-- `dm_add_avp` with `st_type` `T_ELEMENT`. Codes of errors that are no `RC_` codes count as
`RC_ERR_MISC`. -/
def addAvp (env : EventEnv) (e : DmElement) (val : DmValue) : Except Rc Avps :=
  let v := leafValue (some val.content)
  match e.type with
  | .enum => .ok (avp avpEnum (octets (Save.int2enum e.enums (valueNumber v))))
  | .counter => .ok (avp avpCounter (intBytes 4 (valueNumber v)))
  | .int => .ok (avp avpInt32 (intBytes 4 (valueNumber v)))
  | .uint => .ok (avp avpUint32 (intBytes 4 (valueNumber v)))
  | .int64 => .ok (avp avpInt64 (intBytes 8 (valueNumber v)))
  | .uint64 => .ok (avp avpUint64 (intBytes 8 (valueNumber v)))
  | .str => .ok (avp avpString (valueOctets v))
  | .binary => .ok (avp avpBinary (valueOctets v))
  | .base64 => .ok (avp avpBinary (valueOctets v))
  | .ipaddr4 => .ok (avp avpAddress (be 2 1 ++ valueOctets v))
  | .ipaddr6 => .ok (avp avpAddress (be 2 2 ++ valueOctets v))
  | .bool => .ok (avp avpBool (intBytes 1 (valueNumber v)))
  | .date =>
    -- `dm_add_time`
    if 0xFFFFFFFF < valueNumber v + timeSinceEpoch then .error .errMisc
    else .ok (avp avpDate (intBytes 4 (valueNumber v + timeSinceEpoch)))
  | .selector =>
    match v with
    | .selector (some sel) =>
      match dmSel2name env.schema sel maxParamNameLen with
      | none => .error .errMisc
      | some name => .ok (avp avpPath (octets name))
    | _ => .ok (avp avpPath [])
  | .ticks =>
    if e.flags.datetime = true then .ok (avp avpAbsticks (intBytes 8 (env.realtime (valueNumber v))))
    else .ok (avp avpRelticks (intBytes 8 (valueNumber v)))
  | .token => .ok (avp avpType (intBytes 4 avpTable.toNat))
  | .object => if e.flags.array = true then .ok (env.array e val) else .error .errInvalidAvpType
  | _ => .error .errInvalidAvpType

/-! ## Items -/

/-- The type of a notification and its path. -/
def eventHead (n : ℕ) (path : List ℕ) (rest : Avps) : Avps :=
  .avp avpNotifyType vpTravelping (be 4 n) (.avp avpPath vpTravelping (octets path) rest)

/-- What goes into the container of an item, and the error that ends it. -/
def eventBody (env : EventEnv) (item : NotifyItem) (path : List ℕ) : Avps × Option Rc :=
  match item.type with
  | .add => (eventHead 3 path .nil, none)
  | .del => (eventHead 2 path .nil, none)
  | .change =>
    match env.schema.element (selIds item.sb) with
    | none => (.nil, some .errMisc)
    | some (_, e) =>
      let type := fun rest => eventHead 1 path (.avp avpType vpTravelping (be 4 (avpTypeMap e.type).toNat) rest)
      match addAvp env e item.value with
      | .ok val => (type val, none)
      | .error rc => (type .nil, some rc)

/-- `if ((rc = dm_add_object(notify) != RC_OK)) return rc`: the code is 1 whatever the error is. -/
def anyError : Call → Call
  | some (.ok, req) => some (.ok, req)
  | some (_, req) => some (.errMisc, req)
  | none => none

/-- The body of the loop of `build_notify_events`. -/
def putEvent (A : Talloc) (env : EventEnv) (item : NotifyItem) (req : Dm2Request) : Call :=
  match dmSel2name env.schema item.sb maxParamNameLen with
  | none => some (.errAlloc, req)
  | some path =>
    (anyError (dmNewGroup A req avpContainer vpTravelping)).andThen fun req =>
      (putAvps A req (eventBody env item path).1).andThen fun req =>
        match (eventBody env item path).2 with
        | some rc => some (rc, req)
        | none => dmFinalizeGroup req

/-! ## Requests -/

/-- The request with the code of `dm_finalize_packet`, unless `dm_enqueue` finds no memory. -/
def enqueue (granted : Bool) (rc : Rc) (req : Dm2Request) : Option (Rc × Dm2Request) :=
  if granted = true then some (rc, req) else none

/-- `dmconfig_notify_cb` up to the queue of the connection. -/
def activeRequest (A : Talloc) (env : EventEnv) (granted : Bool) (queue : List NotifyItem) :
    Option (List NotifyItem × Option (Rc × Dm2Request)) := do
  let (queue, req) ← dmconfigNotifyCb A (putEvent A env) queue
  some (queue, req.bind (enqueue granted .ok))

/-- `CMD_GET_PASSIVE_NOTIFICATIONS`. -/
def cmdGetPassiveNotifications : UInt32 := 334

/-- The codes of `RC`. -/
def rcCode : Rc → ℕ
  | .ok => 0
  | .errConnection => 0x8001
  | .errMisc => 0x8002
  | .errAlloc => 0x8003
  | .errInvalidAvpLength => 0x8004
  | .errAvpMisformed => 0x8005
  | .errAvpEnd => 0x8006
  | .errInvalidSessionId => 0x8007
  | .errRequiresCfgSession => 0x8008
  | .errCannotOpenCfgSession => 0x8009
  | .errCannotSubscribeNotify => 0x800A
  | .errRequiresNotify => 0x800B
  | .errInvalidAvpType => 0x800F
  | .errValueNotFound => 0x8010

/-- `rpc_dmconfig_switch` and `request_cb` around `rpc_get_passive_notifications`. Without memory the
session is shut down; any other error goes out in an answer, finalized or not. -/
def passiveRequest (A : Talloc) (env : EventEnv) (hopid endid : UInt32) (granted : Bool) (queue : List NotifyItem) :
    Option (List NotifyItem × Option (Rc × Dm2Request)) := do
  match ← dmNewPacket A cmdGetPassiveNotifications 0 appId hopid endid with
  | (.ok, req) =>
    let pos := req.pos + 12
    match ← dmPutAvp A req avpRc vpTravelping (some (be 4 (rcCode .ok))) 4 with
    | (.ok, req) => do
      let (rc, queue, req) ← buildNotifyEvents (putEvent A env) passiveNotify queue req
      if rc = .errAlloc then some (queue, none)
      else do
        let packet ← poke req.packet pos (be 4 (rcCode rc))
        let (code, req) ← dmFinalizePacket { req with packet := packet }
        some (queue, enqueue granted code req)
    | _ => some (queue, none)
  | _ => some (queue, none)

end Mand.Notify
