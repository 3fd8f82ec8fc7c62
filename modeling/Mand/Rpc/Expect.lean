import Mand.Notify.Events
import Mand.Store.Names

/-! # Typed reads from a group

The `dm_expect_*` functions of `dmconfig.c` over `dm_expect_avp`. A read ends with a value or a code, unless
it leaves the memory or a loop runs out of fuel. -/
namespace Mand.Rpc
open Mand.Bytes Mand.Msg Mand.Store Mand.Notify
set_option autoImplicit false

/-! ## Codes -/

def avpNotifyLevel : UInt32 := 1022
def avpInstance : UInt32 := 1031
def avpObject : UInt32 := 1032
def avpElement : UInt32 := 1033
def avpName : UInt32 := 1034
def avpArray : UInt32 := 1035
def avpUint8 : UInt32 := 2201
def avpUint16 : UInt32 := 2203

/-! ## Reads -/

/-- Why a read does not return. -/
inductive Stop
  /-- it would touch a byte outside an allocation -/
  | fault
  | fuel
  deriving DecidableEq, Repr

/-- A read from a group: its return code or its result, and the group afterwards. -/
def Expect (α : Type) := Dm2AvpGrp → Except Stop (Except Rc α × Dm2AvpGrp)

/-- Go on after a read that returned `RC_OK`. -/
def Expect.bind {α β : Type} (x : Expect α) (f : α → Expect β) : Expect β := fun grp =>
  match x grp with
  | .error s => .error s
  | .ok (.error rc, grp) => .ok (.error rc, grp)
  | .ok (.ok a, grp) => f a grp

instance : Monad Expect where
  pure a := fun grp => .ok (.ok a, grp)
  bind := Expect.bind

/-- Return a code. -/
def fail {α : Type} (rc : Rc) : Expect α := fun grp => .ok (.error rc, grp)

/-- A call of the message library. -/
def call {α : Type} (f : Dm2AvpGrp → Option (Except Rc α × Dm2AvpGrp)) : Expect α := fun grp =>
  match f grp with
  | none => .error .fault
  | some x => .ok x

/-- `struct dm2_avp`: an AVP with its payload. -/
structure Dm2Avp where
  code : UInt32
  vendorId : UInt32
  data : List UInt8
  deriving DecidableEq, Repr

/-- The payload that a reference stands for. -/
def payload (avp : AvpRef) : Expect (List UInt8) := fun grp =>
  match peek grp.data avp.off avp.len with
  | none => .error .fault
  | some data => .ok (.ok data, grp)

/-- `dm_expect_value`. -/
def dmExpectValue : Expect Dm2Avp := do
  let avp ← call dmExpectAvp
  let data ← payload avp
  return ⟨avp.code, avp.vendorId, data⟩

/-- `dm_expect_raw` and `dm_expect_bin`, with the vendor of all codes. -/
def dmExpectBin (code : UInt32) : Expect (List UInt8) := do
  let avp ← call fun grp => dmExpectRaw grp code vpTravelping
  payload avp

/-- `dm_expect_object`. -/
def dmExpectObject : Expect Dm2AvpGrp := call fun grp => dmExpectGroup grp avpContainer vpTravelping

/-- `dm_expect_end`. -/
def dmExpectEnd : Expect Unit := fun grp =>
  match dmExpectGroupEnd grp with
  | .ok => .ok (.ok (), grp)
  | rc => .ok (.error rc, grp)

/-- Read from a group of its own. -/
def inGroup {α : Type} (obj : Dm2AvpGrp) (x : Expect α) : Expect α := fun grp =>
  match x obj with
  | .error s => .error s
  | .ok (r, _) => .ok (r, grp)

/-- A C string: the bytes before the first zero. -/
def cString (data : List UInt8) : List UInt8 := data.takeWhile (· ≠ 0)

/-- `dm_expect_string_type`. -/
def dmExpectString (A : Talloc) (code : UInt32) : Expect (List UInt8) := do
  let data ← dmExpectBin code
  if A.grants ((cString data).length + 1) = true then return cString data else fail .errAlloc

/-- The reads of numbers: any error and any other size is `RC_ERR_MISC`. -/
def dmExpectNumber (code : UInt32) (size : ℕ) : Expect ℕ := fun grp =>
  match dmExpectBin code grp with
  | .error s => .error s
  | .ok (.error _, grp) => .ok (.error .errMisc, grp)
  | .ok (.ok data, grp) => if data.length = size then .ok (.ok (ofBe data), grp) else .ok (.error .errMisc, grp)

/-- `dm_expect_uint8_type`. -/
def dmExpectUint8 (code : UInt32) : Expect UInt8 := do return UInt8.ofNat (← dmExpectNumber code 1)

/-- `dm_expect_uint16_type`. -/
def dmExpectUint16 (code : UInt32) : Expect UInt16 := do return UInt16.ofNat (← dmExpectNumber code 2)

/-- `dm_expect_uint32_type`. -/
def dmExpectUint32 (code : UInt32) : Expect UInt32 := do return UInt32.ofNat (← dmExpectNumber code 4)

/-- `dm_expect_int32_type`. -/
def dmExpectInt32 (code : UInt32) : Expect Int32 := do return (UInt32.ofNat (← dmExpectNumber code 4)).toInt32

/-- `dm_expect_path_type`. -/
def dmExpectPath (A : Talloc) (S : Schema) (code : UInt32) : Expect Selector := do
  let s ← dmExpectString A code
  match dmName2sel S (s.map UInt8.toNat) with
  | some sel => return sel
  | none => fail .errMisc

/-- The loops of the skeletons: read up to the first error, or until `stop` says that the end is reached. A
block of sixteen entries is allocated for every sixteenth one. -/
def listLoop {α : Type} (A : Talloc) (width : ℕ) (item : Expect α) (stop : Dm2AvpGrp → Bool) :
    ℕ → List α → Expect (List α)
  | 0, _ => fun _ => .error .fuel
  | n + 1, acc => fun grp =>
    if acc.length % 16 = 0 ∧ A.grants ((acc.length + 16) * width) = false then .ok (.error .errAlloc, grp)
    else match item grp with
      | .error s => .error s
      | .ok (.error rc, grp) => .ok (.error rc, grp)
      | .ok (.ok a, grp) =>
        if stop grp = true then .ok (.ok (acc ++ [a]), grp) else listLoop A width item stop n (acc ++ [a]) grp

/-- `dm_expect_end(obj) == RC_OK`. -/
def atEnd (grp : Dm2AvpGrp) : Bool := dmExpectGroupEnd grp = .ok

end Mand.Rpc
