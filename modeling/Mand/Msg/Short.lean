import Mand.Msg.Encode

/-! # When memory is short

A call of the encoder either does what it does with all the memory it asks for, or it fails with
`RC_ERR_ALLOC`. -/
namespace Mand.Msg
open Mand.Bytes
set_option autoImplicit false

/-- The allocator if nothing is refused. -/
def Talloc.granting (A : Talloc) : Talloc := { A with grants := fun _ => true }

theorem Talloc.granting_grants (A : Talloc) (n : ℕ) : A.granting.grants n = true := rfl

/-- The call answers as `y` does, or memory is refused. -/
def Short (x y : Call) : Prop := x = y ∨ ∃ req, x = some (.errAlloc, req)

theorem Short.andThen {x y : Call} {f g : Dm2Request → Call} (h : Short x y) (hfg : ∀ req, Short (f req) (g req)) :
    Short (x.andThen f) (y.andThen g) := by
  rcases h with rfl | ⟨req, rfl⟩
  · cases x with
    | none => exact .inl rfl
    | some p =>
      obtain ⟨rc, req⟩ := p
      cases rc with
      | ok => exact hfg req
      | _ => exact .inl rfl
  · exact .inr ⟨req, rfl⟩

theorem dmPacketEnsureSpace_short (A : Talloc) (req : Dm2Request) (len : ℕ) :
    Short (dmPacketEnsureSpace A req len) (dmPacketEnsureSpace A.granting req len) := by
  unfold dmPacketEnsureSpace
  simp only
  split
  · exact .inl rfl
  by_cases hg : A.grants ((req.pos + dmBlockAlloc - 1 + len) / dmBlockAlloc * dmBlockAlloc) = true
  · rw [if_pos hg]
    exact .inl rfl
  · rw [if_neg hg]
    exact .inr ⟨_, rfl⟩

theorem dmPutAvp_short (A : Talloc) (req : Dm2Request) (code vendorId : UInt32) (data : Option Mem) (len : ℕ) :
    Short (dmPutAvp A req code vendorId data len) (dmPutAvp A.granting req code vendorId data len) := by
  unfold dmPutAvp
  split
  · exact .inl rfl
  · exact (dmPacketEnsureSpace_short A req (len + 12)).andThen fun _ => .inl rfl

theorem dmNewGroup_short (A : Talloc) (req : Dm2Request) (code vendorId : UInt32) :
    Short (dmNewGroup A req code vendorId) (dmNewGroup A.granting req code vendorId) := by
  unfold dmNewGroup
  split
  · exact dmPutAvp_short A _ code vendorId none 0
  · exact .inl rfl

theorem putAvps_short (A : Talloc) (avps : Avps) (req : Dm2Request) :
    Short (putAvps A req avps) (putAvps A.granting req avps) := by
  induction avps generalizing req with
  | nil => exact .inl rfl
  | avp code vendorId data rest ih => exact (dmPutAvp_short A req code vendorId (some data) data.length).andThen ih
  | group code vendorId content rest ih1 ih2 =>
    exact (dmNewGroup_short A req code vendorId).andThen fun req =>
      (ih1 req).andThen fun req => Short.andThen (.inl rfl) ih2

/-- A list of AVPs is appended, or memory is refused. -/
theorem putAvps_cases (A : Talloc) (avps : Avps) (req : Dm2Request) (pre : List UInt8) (h : Filled req pre)
    (hdepth : req.level + avps.depth < grpEntries) :
    (∃ req', putAvps A req avps = some (.ok, req') ∧ Filled req' (pre ++ wire avps) ∧ SameGroups req req') ∨
      ∃ req', putAvps A req avps = some (.errAlloc, req') := by
  obtain ⟨req', hput, hfill, hsame⟩ := putAvps_filled A.granting (fun _ => rfl) avps req pre h hdepth
  rcases putAvps_short A avps req with heq | hshort
  · exact .inl ⟨req', heq.trans hput, hfill, hsame⟩
  · exact .inr hshort

/-- A new packet, or memory is refused. -/
theorem dmNewPacket_cases (A : Talloc) (code : UInt32) (flags : UInt8) (appid hopid endid : UInt32) :
    (∃ req, dmNewPacket A code flags appid hopid endid = some (.ok, req) ∧
      Filled req (packetHead code flags appid hopid endid sizeofDmPacket) ∧ req.level = 0) ∨
      ∃ req, dmNewPacket A code flags appid hopid endid = some (.errAlloc, req) := by
  by_cases hg : A.grants dmBlockAlloc = true
  · obtain ⟨req, hnew, hfill, hlevel⟩ := dmNewPacket_filled A.granting (fun _ => rfl) code flags appid hopid endid
    refine .inl ⟨req, ?_, hfill, hlevel⟩
    rw [← hnew]
    simp only [dmNewPacket, hg, A.granting_grants]
  · refine .inr ⟨{ grp := fun _ => ⟨0, 0⟩, level := 0, packet := [] }, ?_⟩
    unfold dmNewPacket
    simp only
    rw [if_neg hg]

end Mand.Msg
