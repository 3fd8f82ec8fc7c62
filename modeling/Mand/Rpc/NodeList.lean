import Mand.Rpc.Bounds

/-! # Reading the answer to a list request

`decode_node_list` of `dmctrl.c`: groups for tables, instances and objects, down to elements and arrays. A path
grows by the name of every group on the way. -/
namespace Mand.Rpc
open Mand.Bytes Mand.Msg Mand.Store Mand.Notify
set_option autoImplicit false

/-- A call of the callback of `decode_node_list`. -/
structure Report where
  path : List UInt8
  value : Dm2Avp
  deriving DecidableEq, Repr

/-- `printf("%d", id)`. -/
def decimalBytes (n : ℕ) : List UInt8 := octets (Decimal.decimal n)

/-- The name that begins a group, with what else is read before the path is built. -/
def nodeName (A : Talloc) (code : UInt32) : Expect (List UInt8) :=
  if code = avpTable ∨ code = avpObject then dmExpectString A avpName
  else if code = avpInstance then do
    let id ← dmExpectUint16 avpName
    return decimalBytes id.toNat
  else do
    let name ← dmExpectString A avpName
    let _ ← dmExpectUint32 avpType
    return name

/-- `talloc_asprintf(container.ctx, "%s.%s", prefix, name)`. -/
def nodePath (A : Talloc) (pre : List UInt8) (code : UInt32) : Expect (List UInt8) := do
  let name ← nodeName A code
  if A.grants (pre.length + name.length + 2) = true then return pre ++ [46] ++ name else fail .errAlloc

/-- What a call of `decode_node_list` returns: its code, the group, and the calls of the callback. -/
abbrev NodeResult := Except Stop (Rc × Dm2AvpGrp × List Report)

/-- `while (decode_node_list(..) == RC_OK)`. -/
def nodeLoop (node : Dm2AvpGrp → NodeResult) : ℕ → Dm2AvpGrp → Except Stop (List Report)
  | 0, _ => .error .fuel
  | n + 1, grp =>
    match node grp with
    | .error s => .error s
    | .ok (rc, grp, out) => if rc = .ok then (nodeLoop node n grp).map (out ++ ·) else .ok out

/-- The loop over the values of an array. -/
def arrayLoop (path : List UInt8) : ℕ → Dm2AvpGrp → Except Stop (Rc × List Report)
  | 0, _ => .error .fuel
  | n + 1, grp =>
    if atEnd grp = true then .ok (.ok, [])
    else match dmExpectValue grp with
      | .error s => .error s
      | .ok (.error rc, _) => .ok (rc, [])
      | .ok (.ok value, grp) => (arrayLoop path n grp).map fun (rc, out) => (rc, ⟨path, value⟩ :: out)

/-- What stands in a group behind its name. -/
def nodeBody (node : List UInt8 → Dm2AvpGrp → NodeResult) (n : ℕ) (code : UInt32) (path : List UInt8)
    (container : Dm2AvpGrp) : Except Stop (Rc × List Report) :=
  if code = avpElement then
    match dmExpectValue container with
    | .error s => .error s
    | .ok (.error rc, _) => .ok (rc, [])
    | .ok (.ok value, _) => .ok (.ok, [⟨path, value⟩])
  else if code = avpArray then arrayLoop path n container
  else (nodeLoop (node path) n container).map fun out => (.ok, out)

/-- The codes of the groups that `decode_node_list` knows. -/
def nodeCode (code : UInt32) : Bool :=
  code = avpTable ∨ code = avpInstance ∨ code = avpObject ∨ code = avpElement ∨ code = avpArray

def decodeNodeList (A : Talloc) : ℕ → List UInt8 → Dm2AvpGrp → NodeResult
  | 0, _, _ => .error .fuel
  | n + 1, pre, grp =>
    match call dmExpectAvp grp with
    | .error s => .error s
    | .ok (.error rc, grp) => .ok (rc, grp, [])
    | .ok (.ok avp, grp) =>
      if avp.vendorId ≠ vpTravelping ∨ nodeCode avp.code = false then .ok (.errMisc, grp, [])
      else match nodePath A pre avp.code (dmInitAvpgrp (grp.data.drop avp.off) avp.len) with
        | .error s => .error s
        | .ok (.error rc, _) => .ok (rc, grp, [])
        | .ok (.ok path, container) =>
          (nodeBody (decodeNodeList A n) n avp.code path container).map fun (rc, out) => (rc, grp, out)

end Mand.Rpc
