import Mand.Msg.Encode

/-! # Decoding what was encoded

The decoder walks a packet along a shape: which AVPs are groups, and the code and vendor id each
group is expected to have. On the bytes of a tree it hands out the tree. -/
namespace Mand.Msg
open Mand.Bytes
set_option autoImplicit false

/-! ## Decoding along a shape -/

/-- What a reader of a message knows beforehand: the order of payloads and groups. -/
inductive Shape
  | nil
  | avp (rest : Shape)
  | group (code vendorId : UInt32) (content rest : Shape)
  deriving DecidableEq, Repr

def Avps.shape : Avps → Shape
  | .nil => .nil
  | .avp _ _ _ rest => .avp rest.shape
  | .group code vendorId content rest => .group code vendorId content.shape rest.shape

/-- Decode a group to its end. The answer is `none` when any call faults or returns an error. -/
def expectAvps : Shape → Dm2AvpGrp → Option Avps
  | .nil, grp => if dmExpectGroupEnd grp = .ok then some .nil else none
  | .avp rest, grp =>
    match dmExpectAvp grp with
    | some (.ok avp, grp) => do
      let data ← peek grp.data avp.off avp.len
      let rest ← expectAvps rest grp
      some (.avp avp.code avp.vendorId data rest)
    | _ => none
  | .group code vendorId content rest, grp =>
    match dmExpectGroup grp code vendorId with
    | some (.ok obj, grp) => do
      let content ← expectAvps content obj
      let rest ← expectAvps rest grp
      some (.group code vendorId content rest)
    | _ => none

/-! ## One AVP -/

theorem ntohl_be (x : UInt32) : ntohl (be 4 x.toNat) = x := by
  have h := x.toNat_lt
  rw [ntohl, ofBe_be_of_lt 4 x.toNat (by omega)]
  exact UInt32.ofNat_toNat

theorem vendorFlag_ne_zero (vendorId : UInt32) :
    vendorFlag vendorId &&& avpFlagVendor ≠ 0 ↔ vendorId ≠ 0 := by
  unfold vendorFlag
  split_ifs with h
  · simp [h, avpFlagVendor]
  · simp [h]

/-- The header fields of an AVP, wherever it stands in the memory. -/
theorem dmExpectAvp_head (grp : Dm2AvpGrp) (front body back : List UInt8) (code vendorId : UInt32)
    (hdata : grp.data =
      front ++ avpHead code vendorId (headLen vendorId + body.length) ++ body ++ back)
    (hpos : grp.pos = front.length) (hlen : headLen vendorId + body.length < 2 ^ 24)
    (hsize : front.length + pad32 (headLen vendorId + body.length) ≤ grp.size)
    (hmax : grp.size < 2 ^ 64) :
    dmExpectAvp grp = some (.ok ⟨code, vendorId, front.length + headLen vendorId, body.length⟩,
      { grp with pos := front.length + pad32 (headLen vendorId + body.length) }) := by
  have h8 := eight_le_headLen vendorId
  have hpad := le_pad32 (headLen vendorId + body.length)
  have hlen3 : (peek grp.data (grp.pos + 5) 3).map ofBe = some (headLen vendorId + body.length) := by
    have h0 := peek_middle grp.data (front ++ be 4 code.toNat ++ [vendorFlag vendorId])
      (be 3 (headLen vendorId + body.length)) (vendorBytes vendorId ++ body ++ back)
      (grp.pos + 5) 3 (by rw [hdata]; simp only [avpHead, List.append_assoc]) (by simp [hpos])
      (by simp)
    rw [h0, Option.map_some, ofBe_be_of_lt 3 _ (by omega)]
  have hflag : grp.data[grp.pos + 4]? = some (vendorFlag vendorId) := by
    have h0 : grp.data = (front ++ be 4 code.toNat) ++ (vendorFlag vendorId ::
        (be 3 (headLen vendorId + body.length) ++ vendorBytes vendorId ++ body ++ back)) := by
      rw [hdata]
      simp [avpHead]
    rw [h0, List.getElem?_append_right (by simp [hpos]), hpos]
    simp
  have hcode : (peek grp.data grp.pos 4).map ntohl = some code := by
    have h0 := peek_middle grp.data front (be 4 code.toNat) ([vendorFlag vendorId] ++
      be 3 (headLen vendorId + body.length) ++ vendorBytes vendorId ++ body ++ back) grp.pos 4
      (by rw [hdata]; simp only [avpHead, List.append_assoc]) hpos (by simp)
    rw [h0, Option.map_some, ntohl_be]
  have hadd : sizeT (grp.pos + pad32 (headLen vendorId + body.length)) =
      front.length + pad32 (headLen vendorId + body.length) := by
    rw [hpos, sizeT, Nat.mod_eq_of_lt (by omega)]
  have hguard : ¬(headLen vendorId + body.length < 8 ∨
      (vendorFlag vendorId &&& avpFlagVendor ≠ 0 ∧ headLen vendorId + body.length < 12) ∨
      grp.size < front.length + pad32 (headLen vendorId + body.length)) := by
    rw [vendorFlag_ne_zero]
    rintro (h1 | ⟨h1, h2⟩ | h1)
    · omega
    · rw [headLen, if_pos h1] at h2
      omega
    · omega
  rw [dmExpectAvp, if_neg (by omega)]
  simp only [hlen3, hflag, hcode, hadd, Option.bind_eq_bind, Option.bind_some, if_neg hguard]
  by_cases hv : vendorId = 0
  · rw [if_neg (by rw [vendorFlag_ne_zero]; exact not_not.mpr hv)]
    simp [hv, headLen, hpos]
  · have hvid : (peek grp.data (grp.pos + 8) 4).map ntohl = some vendorId := by
      have h0 := peek_middle grp.data (front ++ be 4 code.toNat ++ [vendorFlag vendorId] ++
        be 3 (headLen vendorId + body.length)) (be 4 vendorId.toNat) (body ++ back) (grp.pos + 8) 4
        (by rw [hdata]; simp only [avpHead, vendorBytes, if_pos hv, List.append_assoc])
        (by simp [hpos]) (by simp)
      rw [h0, Option.map_some, ntohl_be]
    rw [if_pos ((vendorFlag_ne_zero vendorId).mpr hv), hvid, Option.bind_some]
    simp only [headLen, if_pos hv, hpos]
    congr 4
    omega

theorem dmExpectAvp_code {grp grp' : Dm2AvpGrp} {avp : AvpRef} (h : dmExpectAvp grp = some (.ok avp, grp')) :
    (peek grp.data grp.pos 4).map ntohl = some avp.code := by
  unfold dmExpectAvp at h
  split at h
  · cases h
  simp only [Option.bind_eq_bind, Option.bind_eq_some_iff] at h
  obtain ⟨avpLen, -, flags, -, h⟩ := h
  split at h
  · cases h
  obtain ⟨code, hcode, h⟩ := Option.bind_eq_some_iff.mp h
  split at h
  · obtain ⟨vendorId, -, h⟩ := Option.bind_eq_some_iff.mp h
    cases h
    exact hcode
  · cases h
    exact hcode

/-! ## A group -/

/-- **Decoding a tree.** On the bytes of a tree, up to the end of the group, the walk hands out the
tree; every nested group ends where `dm_expect_group_end` looks for its end. -/
theorem expectAvps_wire (avps : Avps) (grp : Dm2AvpGrp) (front back : List UInt8)
    (hdata : grp.data = front ++ wire avps ++ back) (hpos : grp.pos = front.length)
    (hsize : grp.size = front.length + (wire avps).length) (hmax : grp.size < 2 ^ 24) :
    expectAvps avps.shape grp = some avps := by
  induction avps generalizing grp front back with
  | nil =>
    have hend : dmExpectGroupEnd grp = .ok := by
      rw [dmExpectGroupEnd, if_pos]
      rw [hpos, hsize]
      rfl
    simp only [Avps.shape, expectAvps, hend, if_true]
  | avp code vendorId data rest ih =>
    have hw := avpBytes_length code vendorId data
    rw [wire, List.length_append, hw] at hsize
    have hpad := le_pad32 (headLen vendorId + data.length)
    have havp := dmExpectAvp_head grp front data
      (List.replicate (pad32 (headLen vendorId + data.length) - (headLen vendorId + data.length)) 0
        ++ wire rest ++ back) code vendorId
      (by rw [hdata, wire, avpBytes]; simp only [List.append_assoc]) hpos (by omega) (by omega)
      (by omega)
    have hpeek : peek grp.data (front.length + headLen vendorId) data.length = some data :=
      peek_middle grp.data (front ++ avpHead code vendorId (headLen vendorId + data.length)) data
        (List.replicate (pad32 (headLen vendorId + data.length) - (headLen vendorId + data.length))
          0 ++ wire rest ++ back) _ _ (by rw [hdata, wire, avpBytes]; simp only [List.append_assoc]) (by simp) rfl
    have hrest := ih { grp with pos := front.length + pad32 (headLen vendorId + data.length) }
      (front ++ avpBytes code vendorId data) back
      (by rw [hdata, wire]; simp only [List.append_assoc]) (by rw [List.length_append, hw])
      (by rw [List.length_append, hw]; simp only; omega) hmax
    simp only [Avps.shape, expectAvps, havp, hpeek, hrest, Option.bind_eq_bind, Option.bind_some]
  | group code vendorId content rest ih1 ih2 =>
    rw [wire, List.length_append, List.length_append, avpHead_length] at hsize
    have hpad := pad32_of_dvd _ (Nat.dvd_add (four_dvd_headLen vendorId) (four_dvd_wire content))
    have havp := dmExpectAvp_head grp front (wire content) (wire rest ++ back) code vendorId
      (by rw [hdata, wire]; simp only [List.append_assoc]) hpos (by omega) (by omega) (by omega)
    rw [hpad] at havp
    have hdrop : grp.data.drop (front.length + headLen vendorId) =
        [] ++ wire content ++ (wire rest ++ back) := by
      have h0 : grp.data = (front ++ avpHead code vendorId (headLen vendorId +
          (wire content).length)) ++ (wire content ++ (wire rest ++ back)) := by
        rw [hdata, wire]
        simp only [List.append_assoc]
      rw [h0, List.drop_left' (by simp), List.nil_append]
    have hgroup : dmExpectGroup grp code vendorId =
        some (.ok (dmInitAvpgrp (grp.data.drop (front.length + headLen vendorId))
          (wire content).length),
          { grp with pos := front.length + (headLen vendorId + (wire content).length) }) := by
      simp only [dmExpectGroup, dmExpectRaw, havp, Option.bind_eq_bind, Option.bind_some,
        ne_eq, not_true, or_self, if_false]
    have hcontent := ih1 (dmInitAvpgrp (grp.data.drop (front.length + headLen vendorId))
      (wire content).length) [] _ hdrop rfl (by simp [dmInitAvpgrp])
      (by simp only [dmInitAvpgrp]; omega)
    have hrest := ih2 { grp with
        pos := front.length + (headLen vendorId + (wire content).length) }
      (front ++ avpHead code vendorId (headLen vendorId + (wire content).length) ++ wire content)
      back (by rw [hdata, wire]; simp only [List.append_assoc]) (by simp)
      (by simp only [List.length_append, avpHead_length]; omega) hmax
    simp only [Avps.shape, expectAvps, hgroup, hcontent, hrest, Option.bind_eq_bind,
      Option.bind_some]

/-! ## A packet -/

/-- **AVP tree round trip.** Every tree of at most fifteen nested groups can be built, and a packet
shorter than `2 ^ 24` bytes decodes to the tree it was built from. -/
theorem packet_round_trip (A : Talloc) (hA : ∀ n, A.grants n = true) (code : UInt32)
    (flags : UInt8) (appid hopid endid : UInt32) (avps : Avps) (hdepth : avps.depth ≤ 15) :
    ∃ req, buildPacket A code flags appid hopid endid avps = some (.ok, req) ∧
      ((req.grp 0).pos < 2 ^ 24 →
        (dmInitPacket req.packet).bind (expectAvps avps.shape) = some avps) := by
  obtain ⟨req, n, hbuild, hpos, hpkt⟩ :=
    buildPacket_eq A hA code flags appid hopid endid avps hdepth
  refine ⟨req, hbuild, ?_⟩
  intro hlt
  have hlength : dmPacketLength req.packet = some (req.grp 0).pos := by
    have h0 := peek_middle req.packet [1] (be 3 (req.grp 0).pos) ([flags] ++ be 3 code.toNat ++
      be 4 appid.toNat ++ be 4 hopid.toNat ++ be 4 endid.toNat ++ wire avps ++
      List.replicate n 0) 1 3 (by rw [hpkt]; simp only [packetHead, List.append_assoc]) rfl (by simp)
    rw [dmPacketLength, h0, Option.map_some, ofBe_be_of_lt 3 _ (by omega)]
  have hsize : sizeT ((req.grp 0).pos + 2 ^ 64 - sizeofDmPacket) = (wire avps).length := by
    rw [hpos] at hlt ⊢
    unfold sizeT sizeofDmPacket at *
    omega
  have hdrop : req.packet.drop sizeofDmPacket = [] ++ wire avps ++ List.replicate n 0 := by
    rw [hpkt, List.append_assoc, List.drop_left' (packetHead_length _ _ _ _ _ _),
      List.nil_append]
  have hinit : dmInitPacket req.packet =
      some (dmInitAvpgrp (req.packet.drop sizeofDmPacket) (wire avps).length) := by
    rw [dmInitPacket, hlength, Option.bind_eq_bind, Option.bind_some, hsize]
  rw [hinit, Option.bind_some]
  exact expectAvps_wire avps _ [] _ hdrop rfl (by simp [dmInitAvpgrp])
    (by simp only [dmInitAvpgrp]; omega)

/-- A payload without vendor beside a group that holds an empty AVP and an empty group. -/
def sampleAvps : Avps :=
  .avp 263 0 [1, 2, 3, 4, 5]
    (.group 1024 18681 (.avp 1025 18681 [] (.group 7 0 .nil .nil)) (.avp 8 0 [255] .nil))

theorem packet_round_trip_sample :
    ∃ req, buildPacket ⟨fun _ => true, fun _ => 0xAA⟩ 257 0x80 1 2 3 sampleAvps = some (.ok, req) ∧
      (req.grp 0).pos < 2 ^ 24 ∧
      (dmInitPacket req.packet).bind (expectAvps sampleAvps.shape) = some sampleAvps := by
  obtain ⟨req, hbuild, hdecode⟩ :=
    packet_round_trip ⟨fun _ => true, fun _ => 0xAA⟩ (fun _ => rfl) 257 0x80 1 2 3 sampleAvps
      (by decide)
  obtain ⟨req', n, hbuild', hpos, -⟩ :=
    buildPacket_eq ⟨fun _ => true, fun _ => 0xAA⟩ (fun _ => rfl) 257 0x80 1 2 3 sampleAvps
      (by decide)
  have hreq : req = req' := by
    rw [hbuild] at hbuild'
    exact congrArg Prod.snd (Option.some.inj hbuild')
  have hlt : (req.grp 0).pos < 2 ^ 24 := by
    rw [hreq, hpos]
    decide
  exact ⟨req, hbuild, hlt, hdecode hlt⟩

end Mand.Msg
