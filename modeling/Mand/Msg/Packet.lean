import Mand.Lib.Bytes

/-! # The AVP message library

The encoder and decoder of `dmmsg.c` and the group functions of `dmconfig.c`. A request is built
in one buffer that grows by whole blocks; every open group has its own start and position. A call
answers `none` when it would touch a byte outside an allocation, and a return code otherwise. -/
namespace Mand.Msg
open Mand.Bytes
set_option autoImplicit false

/-! ## Return codes, allocator, sizes -/

/-- The `RC_*` codes of the library. -/
inductive Rc
  | ok
  | errConnection
  | errMisc
  | errAlloc
  | errInvalidAvpLength
  | errAvpMisformed
  | errAvpEnd
  | errInvalidSessionId
  | errRequiresCfgSession
  | errCannotOpenCfgSession
  | errCannotSubscribeNotify
  | errRequiresNotify
  | errInvalidAvpType
  | errValueNotFound
  deriving DecidableEq, Repr

/-- What the allocator decides: whether a request of so many bytes is granted, and which bytes
fresh memory holds at each offset. -/
structure Talloc where
  grants : ℕ → Bool
  fresh : ℕ → UInt8

/-- `talloc_realloc_size` to `n` bytes, the old contents kept. -/
def Talloc.realloc (A : Talloc) (m : Mem) (n : ℕ) : Mem :=
  m.take n ++ (List.range (n - m.length)).map (fun i => A.fresh (m.length + i))

/-- `DM_BLOCK_ALLOC`. -/
def dmBlockAlloc : ℕ := 2048

/-- `sizeof(struct dm_packet)`. -/
def sizeofDmPacket : ℕ := 20

/-- `AVP_FLAG_VENDOR`. -/
def avpFlagVendor : UInt8 := 0x80

/-- `PAD32`. -/
def pad32 (x : ℕ) : ℕ := (x + 3) / 4 * 4

/-- `size_t` arithmetic. -/
def sizeT (x : ℕ) : ℕ := x % 2 ^ 64

/-! ## The encoder -/

/-- One entry of `DM2_REQUEST.grp`. -/
structure GrpPos where
  start : ℕ
  pos : ℕ
  deriving DecidableEq, Repr

/-- `DM2_REQUEST`. A null `packet` is the empty allocation: every access to it is a fault. -/
structure Dm2Request where
  grp : ℕ → GrpPos
  level : ℕ
  packet : Mem

/-- `req->grp[req->level].pos`. -/
def Dm2Request.pos (req : Dm2Request) : ℕ := (req.grp req.level).pos

def Dm2Request.setGrp (req : Dm2Request) (l : ℕ) (g : GrpPos) : Dm2Request :=
  { req with grp := Function.update req.grp l g }

/-- `req->grp[req->level].pos += n`. -/
def Dm2Request.advance (req : Dm2Request) (n : ℕ) : Dm2Request :=
  req.setGrp req.level { start := (req.grp req.level).start, pos := req.pos + n }

/-- The entries `DM2_REQUEST.grp` has. -/
def grpEntries : ℕ := 16

/-- A call on a request: its return code and the request afterwards, or a fault. -/
abbrev Call := Option (Rc × Dm2Request)

/-- Go on with `f` after a call that returned `RC_OK`. -/
def Call.andThen (x : Call) (f : Dm2Request → Call) : Call :=
  match x with
  | some (.ok, req) => f req
  | some (rc, req) => some (rc, req)
  | none => none

def dmNewPacket (A : Talloc) (code : UInt32) (flags : UInt8) (appid hopid endid : UInt32) : Call :=
  let req : Dm2Request := { grp := fun _ => ⟨0, 0⟩, level := 0, packet := [] }
  if A.grants dmBlockAlloc = true then do
    let pkt := List.replicate dmBlockAlloc (0 : UInt8)
    let pkt ← poke pkt 0 [1]
    let pkt ← poke pkt 5 (be 3 code.toNat)
    let pkt ← poke pkt 4 [flags]
    let pkt ← poke pkt 1 (be 3 sizeofDmPacket)
    let pkt ← poke pkt 8 (be 4 appid.toNat)
    let pkt ← poke pkt 12 (be 4 hopid.toNat)
    let pkt ← poke pkt 16 (be 4 endid.toNat)
    some (.ok, { req with packet := pkt }.setGrp 0 ⟨sizeofDmPacket, sizeofDmPacket⟩)
  else some (.errAlloc, req)

def dmPacketEnsureSpace (A : Talloc) (req : Dm2Request) (len : ℕ) : Call :=
  let have_ := (req.pos + dmBlockAlloc - 1) / dmBlockAlloc
  let want := (req.pos + dmBlockAlloc - 1 + len) / dmBlockAlloc
  if have_ = want then some (.ok, req)
  else if A.grants (want * dmBlockAlloc) = true then do
    let packet := A.realloc req.packet (want * dmBlockAlloc)
    let packet ← poke packet (have_ * dmBlockAlloc)
      (List.replicate ((want - have_) * dmBlockAlloc) 0)
    some (.ok, { req with packet := packet })
  else some (.errAlloc, { req with packet := [] })

/-- The vendor flag and the vendor id of the AVP at `pos`, if it has one. -/
def storeVendor (m : Mem) (pos : ℕ) (vendorId : UInt32) : Option Mem :=
  if vendorId ≠ 0 then do
    let flags ← m[pos + 4]?
    let m ← poke m (pos + 4) [flags ||| avpFlagVendor]
    poke m (pos + 8) (be 4 vendorId.toNat)
  else some m

/-- `if (data) memcpy(d, data, len)`. -/
def copyPayload (m : Mem) (d : ℕ) (data : Option Mem) (len : ℕ) : Option Mem :=
  match data with
  | some bytes => if len ≤ bytes.length then poke m d (bytes.take len) else none
  | none => some m

/-- The stores of `dm_put_avp` into the packet, at the current position. -/
def storeAvp (m : Mem) (pos : ℕ) (code vendorId : UInt32) (data : Option Mem) (len : ℕ) :
    Option Mem := do
  let m ← poke m pos (be 4 code.toNat)
  let m ← storeVendor m pos vendorId
  let m ← copyPayload m (if vendorId ≠ 0 then pos + 12 else pos + 8) data len
  poke m (pos + 5) (be 3 (if vendorId ≠ 0 then len + 12 else len + 8))

def dmPutAvp (A : Talloc) (req : Dm2Request) (code vendorId : UInt32) (data : Option Mem)
    (len : ℕ) : Call :=
  if len ≠ 0 ∧ data = none then some (.errAvpMisformed, req)
  else (dmPacketEnsureSpace A req (len + 12)).andThen fun req => do
    let m ← storeAvp req.packet req.pos code vendorId data len
    let avpLen := if vendorId ≠ 0 then len + 12 else len + 8
    some (.ok, { req with packet := m }.advance (pad32 avpLen))

def dmNewGroup (A : Talloc) (req : Dm2Request) (code vendorId : UInt32) : Call :=
  if req.level + 1 < grpEntries then
    let req := req.setGrp (req.level + 1) ⟨req.pos, req.pos⟩
    dmPutAvp A { req with level := req.level + 1 } code vendorId none 0
  else none

def dmFinalizeGroup (req : Dm2Request) : Call :=
  if req.level = 0 then some (.errAvpMisformed, req)
  else do
    let start := (req.grp req.level).start
    let avpLen := req.pos - start
    let packet ← poke req.packet (start + 5) (be 3 avpLen)
    some (.ok, { req with packet := packet, level := req.level - 1 }.advance (pad32 avpLen))

def dmFinalizePacket (req : Dm2Request) : Call :=
  if req.level ≠ 0 then some (.errAvpMisformed, req)
  else do
    let packet ← poke req.packet 1 (be 3 (req.grp 0).pos)
    some (.ok, { req with packet := packet })

/-! ## The decoder -/

/-- `DM2_AVPGRP`: the memory from `data` on, the size of the group and the read position. -/
structure Dm2AvpGrp where
  data : Mem
  size : ℕ
  pos : ℕ
  deriving DecidableEq, Repr

/-- What `dm_expect_avp` hands out: the payload is `len` bytes at offset `off` of the group. -/
structure AvpRef where
  code : UInt32
  vendorId : UInt32
  off : ℕ
  len : ℕ
  deriving DecidableEq, Repr

/-- `ntohl` of four bytes in memory. -/
def ntohl (bytes : List UInt8) : UInt32 := UInt32.ofNat (ofBe bytes)

def dmInitAvpgrp (data : Mem) (size : ℕ) : Dm2AvpGrp := { data := data, size := size, pos := 0 }

/-- `dm_packet_length`. -/
def dmPacketLength (packet : Mem) : Option ℕ := (peek packet 1 3).map ofBe

def dmInitPacket (packet : Mem) : Option Dm2AvpGrp := do
  let length ← dmPacketLength packet
  some (dmInitAvpgrp (packet.drop sizeofDmPacket) (sizeT (length + 2 ^ 64 - sizeofDmPacket)))

def dmExpectAvp (grp : Dm2AvpGrp) : Option (Except Rc AvpRef × Dm2AvpGrp) :=
  if grp.size ≤ grp.pos then some (.error .errAvpEnd, grp)
  else do
    let avpLen ← (peek grp.data (grp.pos + 5) 3).map ofBe
    let flags ← grp.data[grp.pos + 4]?
    let vendor := flags &&& avpFlagVendor ≠ 0
    let padded := pad32 avpLen
    if avpLen < 8 ∨ (vendor ∧ avpLen < 12) ∨ grp.size < sizeT (grp.pos + padded) then
      some (.error .errInvalidAvpLength, grp)
    else do
      let code ← (peek grp.data grp.pos 4).map ntohl
      let next := { grp with pos := sizeT (grp.pos + padded) }
      if vendor then do
        let vendorId ← (peek grp.data (grp.pos + 8) 4).map ntohl
        some (.ok ⟨code, vendorId, grp.pos + 12, avpLen - 8 - 4⟩, next)
      else some (.ok ⟨code, 0, grp.pos + 8, avpLen - 8⟩, next)

def dmExpectRaw (grp : Dm2AvpGrp) (expCode expVendorId : UInt32) :
    Option (Except Rc AvpRef × Dm2AvpGrp) := do
  let (r, grp) ← dmExpectAvp grp
  match r with
  | .error _ => some (.error .errMisc, grp)
  | .ok avp =>
    if avp.code ≠ expCode ∨ avp.vendorId ≠ expVendorId then some (.error .errMisc, grp)
    else some (.ok avp, grp)

def dmExpectGroup (grp : Dm2AvpGrp) (expCode expVendorId : UInt32) :
    Option (Except Rc Dm2AvpGrp × Dm2AvpGrp) := do
  let (r, grp) ← dmExpectRaw grp expCode expVendorId
  match r with
  | .error rc => some (.error rc, grp)
  | .ok avp => some (.ok (dmInitAvpgrp (grp.data.drop avp.off) avp.len), grp)

def dmExpectGroupEnd (grp : Dm2AvpGrp) : Rc :=
  if grp.pos = grp.size then .ok else .errAvpMisformed

end Mand.Msg
