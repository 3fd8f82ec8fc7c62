import Mand.Rpc.Expect

/-! # The skeletons

`dm_dmconfig_rpc_skel.c`: how the server reads the arguments of a request, and which function it calls with
them. -/
namespace Mand.Rpc
open Mand.Bytes Mand.Msg Mand.Store Mand.Notify
set_option autoImplicit false

/-- A call of an implementation function, with all its arguments. -/
inductive Invocation
  | startsession (flags : UInt32) (timeout : Int32)
  | switchsession (flags : UInt32) (timeout : Int32)
  | endsession
  | sessioninfo
  | cfgsessioninfo
  | subscribeNotify
  | unsubscribeNotify
  | paramNotify (notify : UInt32) (path : List Selector)
  | recursiveParamNotify (notify : UInt32) (path : Selector)
  | getPassiveNotifications
  | dbAddinstance (path : Selector) (id : UInt16)
  | dbDelinstance (path : Selector)
  | dbSet (values : List (Selector × Dm2Avp))
  | dbGet (values : List Selector)
  | dbList (level : Int32) (path : Selector)
  | dbRetrieveEnum (path : Selector)
  | dbDump (path : List UInt8)
  | dbSave
  | dbCommit
  | dbCancel
  | dbFindinstance (path : Selector) (name : List UInt8) (search : Dm2Avp)
  | registerRole (role : List UInt8)
  | systemRestart
  | systemShutdown
  | firmwareDownload (address : List UInt8) (credentialstype : UInt8) (credential installTarget : List UInt8)
      (timeframe : UInt32) (retryCount : UInt8) (retryInterval retryIntervalIncrement : UInt32)
  | firmwareCommit (jobId : Int32)
  | setBootOrder (bootOrder : List (List UInt8))
  deriving DecidableEq

section Skeletons
variable (A : Talloc) (S : Schema)

/-- The skeletons of requests without arguments. -/
def emptySkel (inv : Invocation) : Expect Invocation := do
  dmExpectEnd
  return inv

def startsessionSkel : Expect Invocation := do
  let flags ← dmExpectUint32 avpUint32
  let timeout ← dmExpectInt32 avpInt32
  dmExpectEnd
  return .startsession flags timeout

def switchsessionSkel : Expect Invocation := do
  let flags ← dmExpectUint32 avpUint32
  let timeout ← dmExpectInt32 avpInt32
  dmExpectEnd
  return .switchsession flags timeout

/-- The loop reads from `grp` and looks for the end of `obj`. -/
def paramNotifySkel : Expect Invocation := do
  let notify ← dmExpectUint8 avpNotifyLevel
  let grp ← dmExpectObject
  dmExpectEnd
  let path ← fun obj =>
    inGroup grp (listLoop A 32 (dmExpectPath A S avpPath) (fun _ => atEnd obj) (grp.size + 1) []) obj
  return .paramNotify notify.toUInt32 path

def recursiveParamNotifySkel : Expect Invocation := do
  let notify ← dmExpectUint8 avpNotifyLevel
  let path ← dmExpectPath A S avpPath
  dmExpectEnd
  return .recursiveParamNotify notify.toUInt32 path

/-- Without `dm_expect_end`, as is `dbDelinstanceSkel`. -/
def dbAddinstanceSkel : Expect Invocation := do
  let path ← dmExpectPath A S avpPath
  let id ← dmExpectUint16 avpUint16
  return .dbAddinstance path id

def dbDelinstanceSkel : Expect Invocation := do
  let path ← dmExpectPath A S avpPath
  return .dbDelinstance path

/-- The body of the loop of `rpc_db_set_skel`. -/
def pathValue : Expect (Selector × Dm2Avp) := do
  let grp ← dmExpectObject
  inGroup grp do
    let path ← dmExpectPath A S avpPath
    let value ← dmExpectValue
    dmExpectEnd
    return (path, value)

def dbSetSkel : Expect Invocation := do
  let values ← fun obj => listLoop A 56 (pathValue A S) atEnd (obj.size + 1) [] obj
  return .dbSet values

def dbGetSkel : Expect Invocation := do
  let values ← fun obj => listLoop A 32 (dmExpectPath A S avpPath) atEnd (obj.size + 1) [] obj
  return .dbGet values

def dbListSkel : Expect Invocation := do
  let level ← dmExpectUint16 avpUint16
  let path ← dmExpectPath A S avpPath
  dmExpectEnd
  return .dbList level.toUInt32.toInt32 path

def dbRetrieveEnumSkel : Expect Invocation := do
  let path ← dmExpectPath A S avpPath
  dmExpectEnd
  return .dbRetrieveEnum path

def dbDumpSkel : Expect Invocation := do
  let path ← dmExpectString A avpPath
  dmExpectEnd
  return .dbDump path

def dbFindinstanceSkel : Expect Invocation := do
  let path ← dmExpectPath A S avpPath
  let name ← dmExpectBin avpPath
  let value ← dmExpectValue
  dmExpectEnd
  return .dbFindinstance path name value

def registerRoleSkel : Expect Invocation := do
  let role ← dmExpectString A avpString
  dmExpectEnd
  return .registerRole role

def firmwareDownloadSkel : Expect Invocation := do
  let address ← dmExpectString A avpString
  let credentialstype ← dmExpectUint8 avpUint8
  let credential ← dmExpectString A avpString
  let installTarget ← dmExpectString A avpString
  let timeframe ← dmExpectUint32 avpUint32
  let retryCount ← dmExpectUint8 avpUint8
  let retryInterval ← dmExpectUint32 avpUint32
  let retryIntervalIncrement ← dmExpectUint32 avpUint32
  dmExpectEnd
  return .firmwareDownload address credentialstype credential installTarget timeframe retryCount retryInterval
    retryIntervalIncrement

def firmwareCommitSkel : Expect Invocation := do
  let jobId ← dmExpectInt32 avpInt32
  dmExpectEnd
  return .firmwareCommit jobId

def setBootOrderSkel : Expect Invocation := do
  let bootOrder ← fun obj => listLoop A 8 (dmExpectString A avpString) atEnd (obj.size + 1) [] obj
  return .setBootOrder bootOrder

end Skeletons

/-! ## Commands -/

/-- The `CMD_*` codes that the switch knows. -/
inductive Command
  | startsession
  | switchsession
  | endsession
  | sessioninfo
  | cfgsessioninfo
  | subscribeNotify
  | unsubscribeNotify
  | paramNotify
  | recursiveParamNotify
  | getPassiveNotifications
  | dbAddinstance
  | dbDelinstance
  | dbSet
  | dbGet
  | dbList
  | dbRetrieveEnums
  | dbDump
  | dbSave
  | dbCommit
  | dbCancel
  | dbFindinstance
  | registerRole
  | systemRestart
  | systemShutdown
  | firmwareDownload
  | firmwareCommit
  | setBootOrder
  deriving DecidableEq, Repr

def Command.code : Command → UInt32
  | .startsession => 320
  | .switchsession => 322
  | .endsession => 321
  | .sessioninfo => 323
  | .cfgsessioninfo => 324
  | .subscribeNotify => 330
  | .unsubscribeNotify => 331
  | .paramNotify => 332
  | .recursiveParamNotify => 333
  | .getPassiveNotifications => 334
  | .dbAddinstance => 305
  | .dbDelinstance => 306
  | .dbSet => 300
  | .dbGet => 301
  | .dbList => 302
  | .dbRetrieveEnums => 303
  | .dbDump => 304
  | .dbSave => 309
  | .dbCommit => 307
  | .dbCancel => 308
  | .dbFindinstance => 310
  | .registerRole => 350
  | .systemRestart => 400
  | .systemShutdown => 401
  | .firmwareDownload => 2000
  | .firmwareCommit => 2001
  | .setBootOrder => 2002

/-- The skeleton of a command. -/
def Command.skel (A : Talloc) (S : Schema) : Command → Expect Invocation
  | .startsession => startsessionSkel
  | .switchsession => switchsessionSkel
  | .endsession => emptySkel .endsession
  | .sessioninfo => emptySkel .sessioninfo
  | .cfgsessioninfo => emptySkel .cfgsessioninfo
  | .subscribeNotify => emptySkel .subscribeNotify
  | .unsubscribeNotify => emptySkel .unsubscribeNotify
  | .paramNotify => paramNotifySkel A S
  | .recursiveParamNotify => recursiveParamNotifySkel A S
  | .getPassiveNotifications => emptySkel .getPassiveNotifications
  | .dbAddinstance => dbAddinstanceSkel A S
  | .dbDelinstance => dbDelinstanceSkel A S
  | .dbSet => dbSetSkel A S
  | .dbGet => dbGetSkel A S
  | .dbList => dbListSkel A S
  | .dbRetrieveEnums => dbRetrieveEnumSkel A S
  | .dbDump => dbDumpSkel A
  | .dbSave => emptySkel .dbSave
  | .dbCommit => emptySkel .dbCommit
  | .dbCancel => emptySkel .dbCancel
  | .dbFindinstance => dbFindinstanceSkel A S
  | .registerRole => registerRoleSkel A
  | .systemRestart => emptySkel .systemRestart
  | .systemShutdown => emptySkel .systemShutdown
  | .firmwareDownload => firmwareDownloadSkel A
  | .firmwareCommit => firmwareCommitSkel
  | .setBootOrder => setBootOrderSkel A

end Mand.Rpc
