import Mand.Rpc.Skel

/-! # The stubs

`dm_dmconfig_rpc_stub.c`: the packet that the client builds for a request, and the call of the server that the
request stands for. -/
namespace Mand.Rpc
open Mand.Bytes Mand.Msg Mand.Store Mand.Notify
set_option autoImplicit false

/-! ## Arguments -/

/-- What a `const char *` points to. -/
abbrev CString := { s : List UInt8 // (0 : UInt8) ∉ s }

/-- `AVP_ARRAY` of `VP_TRAVELPING`. -/
def Dm2Avp.isArray (avp : Dm2Avp) : Prop := avp.vendorId = vpTravelping ∧ avp.code = avpArray

/-- The value of a `struct rpc_db_set_path_value`. The `data` of an array points to further values, of which
only the AVPs count. -/
inductive SetValue
  | raw (avp : Dm2Avp) (plain : ¬avp.isArray)
  | array (items : List Dm2Avp)

/-- A request with the arguments of its stub. -/
inductive Request
  | startsession (flags : UInt32) (timeout : Int32)
  | switchsession (flags : UInt32) (timeout : Int32)
  | endsession
  | sessioninfo
  | cfgsessioninfo
  | subscribeNotify
  | unsubscribeNotify
  | paramNotify (notify : UInt32) (paths : List CString)
  | recursiveParamNotify (notify : UInt32) (path : CString)
  | getPassiveNotifications
  | dbAddinstance (path : CString) (id : UInt16)
  | dbDelinstance (path : CString)
  | dbSet (values : List (CString × SetValue))
  | dbGet (paths : List CString)
  | dbList (level : Int32) (path : CString)
  | dbRetrieveEnum (path : CString)
  | dbDump (path : CString)
  | dbSave
  | dbCommit
  | dbCancel
  | dbFindinstance (path name : CString) (search : Dm2Avp)
  | registerRole (role : CString)
  | systemRestart
  | systemShutdown
  | firmwareDownload (address : CString) (credentialstype : UInt8) (credential installTarget : CString)
      (timeframe : UInt32) (retryCount : UInt8) (retryInterval retryIntervalIncrement : UInt32)
  | firmwareCommit (jobId : Int32)
  | setBootOrder (bootOrder : List CString)

def Request.command : Request → Command
  | .startsession .. => .startsession
  | .switchsession .. => .switchsession
  | .endsession => .endsession
  | .sessioninfo => .sessioninfo
  | .cfgsessioninfo => .cfgsessioninfo
  | .subscribeNotify => .subscribeNotify
  | .unsubscribeNotify => .unsubscribeNotify
  | .paramNotify .. => .paramNotify
  | .recursiveParamNotify .. => .recursiveParamNotify
  | .getPassiveNotifications => .getPassiveNotifications
  | .dbAddinstance .. => .dbAddinstance
  | .dbDelinstance .. => .dbDelinstance
  | .dbSet .. => .dbSet
  | .dbGet .. => .dbGet
  | .dbList .. => .dbList
  | .dbRetrieveEnum .. => .dbRetrieveEnums
  | .dbDump .. => .dbDump
  | .dbSave => .dbSave
  | .dbCommit => .dbCommit
  | .dbCancel => .dbCancel
  | .dbFindinstance .. => .dbFindinstance
  | .registerRole .. => .registerRole
  | .systemRestart => .systemRestart
  | .systemShutdown => .systemShutdown
  | .firmwareDownload .. => .firmwareDownload
  | .firmwareCommit .. => .firmwareCommit
  | .setBootOrder .. => .setBootOrder

/-! ## Packets -/

/-- `dm_add_raw`. -/
def addRaw (avp : Dm2Avp) (rest : Avps) : Avps := .avp avp.code avp.vendorId avp.data rest

/-- `dm_add_string`. -/
def addString (code : UInt32) (s : CString) (rest : Avps) : Avps := .avp code vpTravelping s.val rest

def addUint8 (code : UInt32) (n : UInt8) (rest : Avps) : Avps := .avp code vpTravelping (be 1 n.toNat) rest

def addUint16 (code : UInt32) (n : UInt16) (rest : Avps) : Avps := .avp code vpTravelping (be 2 n.toNat) rest

def addUint32 (code : UInt32) (n : UInt32) (rest : Avps) : Avps := .avp code vpTravelping (be 4 n.toNat) rest

def addInt32 (code : UInt32) (n : Int32) (rest : Avps) : Avps := .avp code vpTravelping (be 4 n.toUInt32.toNat) rest

/-- `dm_add_object` up to `dm_finalize_group`. -/
def addObject (content rest : Avps) : Avps := .group avpContainer vpTravelping content rest

def addStrings (code : UInt32) (l : List CString) : Avps := l.foldr (addString code) .nil

def addItems (items : List Dm2Avp) : Avps := items.foldr addRaw .nil

def SetValue.add : SetValue → Avps
  | .raw avp _ => addRaw avp .nil
  | .array items => .group avpArray vpTravelping (addItems items) .nil

/-- The body of the loop of `rpc_db_set_async`. -/
def addPathValue (v : CString × SetValue) (rest : Avps) : Avps := addObject (addString avpPath v.1 v.2.add) rest

/-- The AVPs of a request. `dm_add_uint8` and `dm_add_uint16` take the low bits of a wider argument. -/
def Request.avps : Request → Avps
  | .startsession flags timeout => addUint32 avpUint32 flags (addInt32 avpInt32 timeout .nil)
  | .switchsession flags timeout => addUint32 avpUint32 flags (addInt32 avpInt32 timeout .nil)
  | .paramNotify notify paths => addUint8 avpNotifyLevel notify.toUInt8 (addObject (addStrings avpPath paths) .nil)
  | .recursiveParamNotify notify path => addUint8 avpNotifyLevel notify.toUInt8 (addString avpPath path .nil)
  | .dbAddinstance path id => addString avpPath path (addUint16 avpUint16 id .nil)
  | .dbDelinstance path => addString avpPath path .nil
  | .dbSet values => values.foldr addPathValue .nil
  | .dbGet paths => addStrings avpPath paths
  | .dbList level path => addUint16 avpUint16 level.toUInt32.toUInt16 (addString avpPath path .nil)
  | .dbRetrieveEnum path => addString avpPath path .nil
  | .dbDump path => addString avpPath path .nil
  | .dbFindinstance path name search => addString avpPath path (addString avpPath name (addRaw search .nil))
  | .registerRole role => addString avpString role .nil
  | .firmwareDownload address credentialstype credential installTarget timeframe retryCount retryInterval
      retryIntervalIncrement =>
    addString avpString address <| addUint8 avpUint8 credentialstype <| addString avpString credential <|
      addString avpString installTarget <| addUint32 avpUint32 timeframe <| addUint8 avpUint8 retryCount <|
      addUint32 avpUint32 retryInterval <| addUint32 avpUint32 retryIntervalIncrement .nil
  | .firmwareCommit jobId => addInt32 avpInt32 jobId .nil
  | .setBootOrder bootOrder => addStrings avpString bootOrder
  | .endsession | .sessioninfo | .cfgsessioninfo | .subscribeNotify | .unsubscribeNotify
  | .getPassiveNotifications | .dbSave | .dbCommit | .dbCancel | .systemRestart | .systemShutdown => .nil

/-- The packet that a `rpc_*_async` hands to `dm_enqueue_request`. -/
def stub (A : Talloc) (r : Request) : Call := buildPacket A r.command.code cmdFlagRequest appId 0 0 r.avps

/-! ## Calls -/

/-- The selector of a path argument. -/
def CString.sel (S : Schema) (path : CString) : Option Selector := dmName2sel S (path.val.map UInt8.toNat)

/-- A value as the implementation gets it: an array is one AVP that holds the AVPs of its items. -/
def SetValue.avp : SetValue → Dm2Avp
  | .raw avp _ => avp
  | .array items => ⟨avpArray, vpTravelping, wire (addItems items)⟩

/-- The call that a request stands for, with every path replaced by its selector. -/
def Request.invocation (S : Schema) : Request → Option Invocation
  | .startsession flags timeout => some (.startsession flags timeout)
  | .switchsession flags timeout => some (.switchsession flags timeout)
  | .endsession => some .endsession
  | .sessioninfo => some .sessioninfo
  | .cfgsessioninfo => some .cfgsessioninfo
  | .subscribeNotify => some .subscribeNotify
  | .unsubscribeNotify => some .unsubscribeNotify
  | .paramNotify notify paths => (paths.mapM (CString.sel S)).map (.paramNotify notify)
  | .recursiveParamNotify notify path => (CString.sel S path).map (.recursiveParamNotify notify)
  | .getPassiveNotifications => some .getPassiveNotifications
  | .dbAddinstance path id => (CString.sel S path).map (.dbAddinstance · id)
  | .dbDelinstance path => (CString.sel S path).map .dbDelinstance
  | .dbSet values => (values.mapM fun v => (CString.sel S v.1).map (·, v.2.avp)).map .dbSet
  | .dbGet paths => (paths.mapM (CString.sel S)).map .dbGet
  | .dbList level path => (CString.sel S path).map (.dbList level)
  | .dbRetrieveEnum path => (CString.sel S path).map .dbRetrieveEnum
  | .dbDump path => some (.dbDump path.val)
  | .dbSave => some .dbSave
  | .dbCommit => some .dbCommit
  | .dbCancel => some .dbCancel
  | .dbFindinstance path name search => (CString.sel S path).map (.dbFindinstance · name.val search)
  | .registerRole role => some (.registerRole role.val)
  | .systemRestart => some .systemRestart
  | .systemShutdown => some .systemShutdown
  | .firmwareDownload address credentialstype credential installTarget timeframe retryCount retryInterval
      retryIntervalIncrement =>
    some (.firmwareDownload address.val credentialstype credential.val installTarget.val timeframe retryCount
      retryInterval retryIntervalIncrement)
  | .firmwareCommit jobId => some (.firmwareCommit jobId)
  | .setBootOrder bootOrder => some (.setBootOrder (bootOrder.map Subtype.val))

/-- The loop of `dmconfig_set_array_cb` over the items of an array. -/
def arrayItems : ℕ → List Dm2Avp → Expect (List Dm2Avp)
  | 0, _ => fun _ => .error .fuel
  | n + 1, acc => fun grp =>
    if atEnd grp = true then .ok (.ok acc, grp)
    else (dmExpectValue >>= fun a => arrayItems n (acc ++ [a])) grp

/-- The items that the implementation finds in an array. -/
def readArray (avp : Dm2Avp) : Option (List Dm2Avp) :=
  match arrayItems (avp.data.length + 1) [] (dmInitAvpgrp avp.data avp.data.length) with
  | .ok (.ok items, _) => some items
  | _ => none

/-- Every array of a request reaches the implementation item by item. -/
def Request.ArraysRead : Request → Prop
  | .dbSet values => ∀ v ∈ values, ∀ items, v.2 = .array items → readArray v.2.avp = some items
  | _ => True

/-- At least one path, or one pair of a path and a value, where there is a list of them. -/
def Request.Accepted : Request → Prop
  | .paramNotify _ paths => paths ≠ []
  | .dbSet values => values ≠ []
  | .dbGet paths => paths ≠ []
  | .setBootOrder bootOrder => bootOrder ≠ []
  | _ => True

/-- **Stub and skeleton agree.** The skeleton reads the packet of the stub and calls the implementation with the
arguments of the stub. -/
def Agreed (A : Talloc) (S : Schema) (r : Request) : Prop :=
  ∃ req grp inv grp', stub A r = some (.ok, req) ∧ dmInitPacket req.packet = some grp ∧
    r.command.skel A S grp = .ok (.ok inv, grp') ∧ r.invocation S = some inv ∧ r.ArraysRead

end Mand.Rpc
