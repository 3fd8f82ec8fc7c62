import Mand.Msg.Short
import Mand.Rpc.Agree

/-! # Replies

`rpc_dmconfig_switch` and `request_cb`: the packet that goes out for a request, whatever the implementation
functions append to it and return. -/
namespace Mand.Rpc
open Mand.Bytes Mand.Msg Mand.Store Mand.Notify
set_option autoImplicit false

/-! ## Implementation functions -/

/-- A call of the encoder on the answer. A null pointer comes with length zero; with any other length
`dm_put_avp` only returns an error. -/
inductive EncOp
  | put (code vendorId : UInt32) (data : Option Mem)
  | newGroup (code vendorId : UInt32)
  | finalizeGroup
  deriving DecidableEq, Repr

def EncOp.call (A : Talloc) (req : Dm2Request) : EncOp → Call
  | .put code vendorId data => dmPutAvp A req code vendorId data (data.getD []).length
  | .newGroup code vendorId => dmNewGroup A req code vendorId
  | .finalizeGroup => dmFinalizeGroup req

/-- The answer after the calls of an implementation function, which may go on after an error. -/
def runOps (A : Talloc) : List EncOp → Dm2Request → Option Dm2Request
  | [], req => some req
  | op :: ops, req => (op.call A req).bind fun x => runOps A ops x.2

/-- What the implementation functions do: the calls on the answer and the return code. -/
abbrev Impl := Invocation → List EncOp × UInt32

/-! ## The switch -/

def Command.all : List Command :=
  [.startsession, .switchsession, .endsession, .sessioninfo, .cfgsessioninfo, .subscribeNotify, .unsubscribeNotify,
    .paramNotify, .recursiveParamNotify, .getPassiveNotifications, .dbAddinstance, .dbDelinstance, .dbSet, .dbGet,
    .dbList, .dbRetrieveEnums, .dbDump, .dbSave, .dbCommit, .dbCancel, .dbFindinstance, .registerRole, .systemRestart,
    .systemShutdown, .firmwareDownload, .firmwareCommit, .setBootOrder]

def Command.ofCode (code : UInt32) : Option Command := Command.all.find? fun c => c.code = code

def rcWord (rc : Rc) : UInt32 := UInt32.ofNat (rcCode rc)

/-- `DMC_REQUEST`. -/
structure DmcRequest where
  hop2hop : UInt32
  end2end : UInt32
  code : UInt32

section Switch
variable (A : Talloc) (S : Schema) (impl : Impl)

/-- A skeleton: what it does with the answer, and its return code. -/
def Command.serve (c : Command) (obj : Dm2AvpGrp) : Except Stop (List EncOp × UInt32) :=
  match c.skel A S obj with
  | .error s => .error s
  | .ok (.error rc, _) => .ok ([], rcWord rc)
  | .ok (.ok inv, _) => .ok (impl inv)

/-- The second `switch` of `rpc_dmconfig_switch`. -/
def callSkel (code : UInt32) (obj : Dm2AvpGrp) : Except Stop (List EncOp × UInt32) :=
  match Command.ofCode code with
  | some c => c.serve A S impl obj
  | none => .ok ([], rcWord .errConnection)

/-- The value of `rc` behind that `switch`: three cases do not assign it. -/
def assigned (code rc : UInt32) : UInt32 :=
  match Command.ofCode code with
  | some .firmwareDownload => rcWord .ok
  | some .firmwareCommit => rcWord .ok
  | some .setBootOrder => rcWord .ok
  | _ => rc

/-- `sizeof(DM2_REQUEST)`. -/
def sizeofDm2Request : ℕ := 272

def dmNewRequest (code : UInt32) (flags : UInt8) (hopid endid : UInt32) : Option (Option Dm2Request) :=
  if A.grants sizeofDm2Request = true then
    match dmNewPacket A code flags appId hopid endid with
    | none => none
    | some (.ok, req) => some (some req)
    | some _ => some none
  else some none

/-- `dm_put_uint32_at_pos` of the return code and `dm_finalize_packet`. -/
def fillIn (pos : ℕ) (rc : UInt32) (answer : Dm2Request) : Call := do
  let packet ← poke answer.packet pos (be 4 rc.toNat)
  dmFinalizePacket { answer with packet := packet }

/-- The end of the switch. -/
def finish (pos : ℕ) (rc : UInt32) (answer : Dm2Request) : Except Stop (UInt32 × Option Dm2Request) :=
  if rc = rcWord .errAlloc then .ok (rc, some answer)
  else match fillIn pos rc answer with
    | none => .error .fault
    | some (rc, answer) => .ok (rcWord rc, some answer)

/-- The switch from the second one on, with the return code at `pos` of the answer. -/
def answerWith (code : UInt32) (obj : Dm2AvpGrp) (pos : ℕ) (answer : Dm2Request) :
    Except Stop (UInt32 × Option Dm2Request) :=
  match callSkel A S impl code obj with
  | .error s => .error s
  | .ok (ops, rc) =>
    match runOps A ops answer with
    | none => .error .fault
    | some answer => finish pos (assigned code rc) answer

/-- `rpc_dmconfig_switch`: its return code and `*answer`. -/
def rpcDmconfigSwitch (req : DmcRequest) (obj : Dm2AvpGrp) : Except Stop (UInt32 × Option Dm2Request) :=
  if req.code = Command.code .endsession then
    match Command.serve A S impl .endsession obj with
    | .error s => .error s
    | .ok (_, rc) => .ok (rc, none)
  else match dmNewRequest A req.code 0 req.hop2hop req.end2end with
    | none => .error .fault
    | some none => .ok (rcWord .errAlloc, none)
    | some (some answer) =>
      -- `dm_add_uint32_get_pos`
      match dmPutAvp A answer avpRc vpTravelping (some (be 4 (rcCode .ok))) 4 with
      | none => .error .fault
      | some (.ok, answer') => answerWith A S impl req.code obj (answer.pos + 12) answer'
      | some (rc, answer) => .ok (rcWord rc, some answer)

/-- `request_cb`: the answer that is handed to `dm_enqueue`. -/
def requestCb (req : DmcRequest) (obj : Dm2AvpGrp) : Except Stop (Option Dm2Request) :=
  match rpcDmconfigSwitch A S impl req obj with
  | .error s => .error s
  | .ok (rc, answer) => if rc = rcWord .errAlloc then .ok none else .ok answer

end Switch

/-! ## Complete replies -/

/-- The length in the header is that of the content, and the first AVP is `AVP_RC` with this value. -/
def Complete (answer : Dm2Request) (rc : UInt32) : Prop :=
  dmPacketLength answer.packet = some answer.pos ∧
    ∃ grp grp', dmInitPacket answer.packet = some grp ∧ dmExpectUint32 avpRc grp = .ok (.ok rc, grp')

/-- **Reply code fidelity.** The reply to a request is complete and carries the return code of the skeleton. -/
def Fidelity (A : Talloc) (S : Schema) (impl : Impl) (req : DmcRequest) (obj : Dm2AvpGrp) (rc : UInt32) : Prop :=
  ∃ answer, requestCb A S impl req obj = .ok (some answer) ∧ Complete answer rc

/-! ## What the implementation functions may do -/

/-- The bytes that a call appends. -/
def EncOp.size : EncOp → ℕ
  | .put _ vendorId data => pad32 (headLen vendorId + (data.getD []).length)
  | .newGroup _ vendorId => headLen vendorId
  | .finalizeGroup => 0

def contentSize (ops : List EncOp) : ℕ := (ops.map EncOp.size).sum

/-- The bytes that a call wants to have behind the position. -/
def EncOp.need : EncOp → ℕ
  | .put _ _ data => (data.getD []).length + 12
  | .newGroup _ _ => 12
  | .finalizeGroup => 0

/-- The allocator grants every block that the content needs from `pos` on. -/
def Granted (A : Talloc) : ℕ → List EncOp → Prop
  | _, [] => True
  | pos, op :: ops =>
    ((pos + dmBlockAlloc - 1) / dmBlockAlloc ≠ (pos + dmBlockAlloc - 1 + op.need) / dmBlockAlloc →
      A.grants ((pos + dmBlockAlloc - 1 + op.need) / dmBlockAlloc * dmBlockAlloc) = true) ∧
    Granted A (pos + op.size) ops

/-- How many groups are open after a call; there is no room for a sixteenth level. -/
def EncOp.nest (level : ℕ) : EncOp → Option ℕ
  | .put _ _ _ => some level
  | .newGroup _ _ => if level + 1 < grpEntries then some (level + 1) else none
  | .finalizeGroup => some (level - 1)

def nesting (level : ℕ) (ops : List EncOp) : Option ℕ := ops.foldlM EncOp.nest level

/-- Where the content of an answer begins: behind the header and the return code. -/
def answerFront : ℕ := 36

end Mand.Rpc
