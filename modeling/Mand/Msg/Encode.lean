import Mand.Msg.Packet
import Mathlib.Tactic.SplitIfs

/-! # What the encoder writes

An AVP tree, the byte string it stands for, and the proof that the encoder calls leave exactly
these bytes in the packet, followed by zeros up to the end of the allocation. -/
namespace Mand.Msg
open Mand.Bytes
set_option autoImplicit false

/-! ## AVP trees -/

/-- A list of AVPs in order. A group holds such a list in place of a payload. -/
inductive Avps
  | nil
  | avp (code vendorId : UInt32) (data : List UInt8) (rest : Avps)
  | group (code vendorId : UInt32) (content rest : Avps)
  deriving DecidableEq, Repr

/-- How many groups are open at once at the deepest point. -/
def Avps.depth : Avps → ℕ
  | .nil => 0
  | .avp _ _ _ rest => rest.depth
  | .group _ _ content rest => max (content.depth + 1) rest.depth

/-- Put a list of AVPs into an open request, group by group. -/
def putAvps (A : Talloc) (req : Dm2Request) : Avps → Call
  | .nil => some (.ok, req)
  | .avp code vendorId data rest =>
    (dmPutAvp A req code vendorId (some data) data.length).andThen fun req => putAvps A req rest
  | .group code vendorId content rest =>
    (dmNewGroup A req code vendorId).andThen fun req =>
      (putAvps A req content).andThen fun req =>
        (dmFinalizeGroup req).andThen fun req => putAvps A req rest

/-- A whole packet: header, AVPs, final length. -/
def buildPacket (A : Talloc) (code : UInt32) (flags : UInt8) (appid hopid endid : UInt32)
    (avps : Avps) : Call :=
  (dmNewPacket A code flags appid hopid endid).andThen fun req =>
    (putAvps A req avps).andThen dmFinalizePacket

/-! ## The bytes of a tree -/

/-- The length of an AVP header. -/
def headLen (vendorId : UInt32) : ℕ := if vendorId ≠ 0 then 12 else 8

/-- The flags of a header. -/
def vendorFlag (vendorId : UInt32) : UInt8 := if vendorId ≠ 0 then avpFlagVendor else 0

/-- The part of a header behind the length field. -/
def vendorBytes (vendorId : UInt32) : List UInt8 :=
  if vendorId ≠ 0 then be 4 vendorId.toNat else []

/-- The header of an AVP whose length field is `len`. -/
def avpHead (code vendorId : UInt32) (len : ℕ) : List UInt8 :=
  be 4 code.toNat ++ [vendorFlag vendorId] ++ be 3 len ++ vendorBytes vendorId

@[simp] theorem avpHead_length (code vendorId : UInt32) (len : ℕ) :
    (avpHead code vendorId len).length = headLen vendorId := by
  unfold avpHead headLen vendorBytes
  split_ifs <;> simp

/-- One AVP on the wire, padded to a multiple of four. -/
def avpBytes (code vendorId : UInt32) (data : List UInt8) : List UInt8 :=
  avpHead code vendorId (headLen vendorId + data.length) ++ data ++
    List.replicate (pad32 (headLen vendorId + data.length) - (headLen vendorId + data.length)) 0

/-- The bytes of a list of AVPs. -/
def wire : Avps → List UInt8
  | .nil => []
  | .avp code vendorId data rest => avpBytes code vendorId data ++ wire rest
  | .group code vendorId content rest =>
    avpHead code vendorId (headLen vendorId + (wire content).length) ++ wire content ++ wire rest

theorem le_pad32 (n : ℕ) : n ≤ pad32 n := by
  unfold pad32
  omega

theorem pad32_lt (n : ℕ) : pad32 n < n + 4 := by
  unfold pad32
  omega

theorem four_dvd_pad32 (n : ℕ) : 4 ∣ pad32 n := Dvd.intro_left _ rfl

theorem pad32_of_dvd (n : ℕ) (h : 4 ∣ n) : pad32 n = n := by
  unfold pad32
  omega

theorem four_dvd_headLen (vendorId : UInt32) : 4 ∣ headLen vendorId := by
  unfold headLen
  split_ifs <;> decide

theorem headLen_le (vendorId : UInt32) : headLen vendorId ≤ 12 := by
  unfold headLen
  split_ifs <;> decide

theorem eight_le_headLen (vendorId : UInt32) : 8 ≤ headLen vendorId := by
  unfold headLen
  split_ifs <;> decide

theorem avpBytes_length (code vendorId : UInt32) (data : List UInt8) :
    (avpBytes code vendorId data).length = pad32 (headLen vendorId + data.length) := by
  have h := le_pad32 (headLen vendorId + data.length)
  simp only [avpBytes, List.length_append, avpHead_length, List.length_replicate]
  omega

theorem four_dvd_wire (avps : Avps) : 4 ∣ (wire avps).length := by
  induction avps with
  | nil => exact dvd_zero 4
  | avp code vendorId data rest ih =>
    rw [wire, List.length_append, avpBytes_length]
    exact Nat.dvd_add (four_dvd_pad32 _) ih
  | group code vendorId content rest ih1 ih2 =>
    rw [wire, List.length_append, List.length_append, avpHead_length]
    exact Nat.dvd_add (Nat.dvd_add (four_dvd_headLen vendorId) ih1) ih2

/-! ## The stores of one AVP -/

/-- The flag is set in a zero byte; the three bytes of the length stay zero for now. -/
theorem storeVendor_zeros (pre : List UInt8) (n pos : ℕ) (vendorId : UInt32)
    (hpos : pos + 4 = pre.length) (h : headLen vendorId ≤ n + 4) :
    storeVendor (pre ++ List.replicate n 0) pos vendorId =
      some (pre ++ [vendorFlag vendorId] ++ [0, 0, 0] ++ vendorBytes vendorId ++
        List.replicate (n + 4 - headLen vendorId) 0) := by
  have hz : pre ++ List.replicate n (0 : UInt8) =
      pre ++ [0] ++ [0, 0, 0] ++ List.replicate (n - 4) 0 := by
    have h8 := eight_le_headLen vendorId
    have h0 := append_zeros_split pre n 4 (by omega)
    simpa [List.replicate] using h0
  by_cases hv : vendorId = 0
  · subst hv
    rw [storeVendor, if_neg (not_not.mpr rfl), hz]
    simp [vendorFlag, vendorBytes, headLen]
  · have hn : 8 ≤ n := by
      rw [headLen, if_pos hv] at h
      omega
    have hflag : (pre ++ List.replicate n (0 : UInt8))[pos + 4]? = some 0 := by
      rw [hz, hpos]
      simp
    have h1 : poke (pre ++ List.replicate n 0) (pos + 4) [(0 : UInt8) ||| avpFlagVendor] =
        some (pre ++ [avpFlagVendor] ++ [0, 0, 0] ++ List.replicate (n - 4) 0) := by
      have h0 := poke_middle _ pre [0] ([0, 0, 0] ++ List.replicate (n - 4) 0)
        [(0 : UInt8) ||| avpFlagVendor] (pos + 4) (by simpa only [List.append_assoc] using hz)
        hpos rfl
      simpa [avpFlagVendor] using h0
    have h2 := poke_zeros (pre ++ [avpFlagVendor] ++ [0, 0, 0]) (be 4 vendorId.toNat) (n - 4)
      (pos + 8) (by simp; omega) (by rw [be_length]; omega)
    have hrest : n - 4 - (be 4 vendorId.toNat).length = n + 4 - headLen vendorId := by
      rw [be_length, headLen, if_pos hv]
      omega
    rw [storeVendor, if_pos hv, hflag, Option.bind_eq_bind, Option.bind_some, h1]
    rw [Option.bind_eq_bind, Option.bind_some, h2, hrest, vendorFlag, if_pos hv, vendorBytes,
      if_pos hv]

theorem copyPayload_zeros (pre : List UInt8) (n d : ℕ) (data : Option Mem) (hd : d = pre.length)
    (h : (data.getD []).length ≤ n) :
    copyPayload (pre ++ List.replicate n 0) d data (data.getD []).length =
      some (pre ++ data.getD [] ++ List.replicate (n - (data.getD []).length) 0) := by
  cases data with
  | none => simp [copyPayload]
  | some bytes =>
    simp only [Option.getD_some] at h ⊢
    rw [copyPayload, if_pos le_rfl, List.take_length, poke_zeros _ bytes n d hd h]

/-- The header fields and the payload land in the zeros behind `pre`, in the order of the wire. -/
theorem storeAvp_zeros (pre : List UInt8) (n : ℕ) (code vendorId : UInt32) (data : Option Mem)
    (h : headLen vendorId + (data.getD []).length ≤ n) :
    storeAvp (pre ++ List.replicate n 0) pre.length code vendorId data (data.getD []).length =
      some (pre ++ avpHead code vendorId (headLen vendorId + (data.getD []).length) ++
        data.getD [] ++ List.replicate (n - headLen vendorId - (data.getD []).length) 0) := by
  have h8 := eight_le_headLen vendorId
  have h1 := poke_zeros pre (be 4 code.toNat) n pre.length rfl (by rw [be_length]; omega)
  have h2 := storeVendor_zeros (pre ++ be 4 code.toNat) (n - 4) pre.length vendorId (by simp)
    (by omega)
  have h3 := copyPayload_zeros (pre ++ be 4 code.toNat ++ [vendorFlag vendorId] ++ [0, 0, 0] ++
    vendorBytes vendorId) (n - 4 + 4 - headLen vendorId)
    (if vendorId ≠ 0 then pre.length + 12 else pre.length + 8) data
    (by unfold vendorBytes; split_ifs <;> simp) (by omega)
  have h4 := poke_middle _ (pre ++ be 4 code.toNat ++ [vendorFlag vendorId]) [0, 0, 0]
    (vendorBytes vendorId ++ data.getD [] ++
      List.replicate (n - 4 + 4 - headLen vendorId - (data.getD []).length) 0)
    (be 3 (if vendorId ≠ 0 then (data.getD []).length + 12 else (data.getD []).length + 8))
    (pre.length + 5) rfl (by simp) (by simp)
  have hlen : (if vendorId ≠ 0 then (data.getD []).length + 12 else (data.getD []).length + 8) =
      headLen vendorId + (data.getD []).length := by
    unfold headLen
    split_ifs <;> omega
  rw [be_length] at h1
  simp only [storeAvp, Option.bind_eq_bind, h1, h2, h3, Option.bind_some]
  simp only [List.append_assoc] at h4 ⊢
  rw [h4, hlen, Nat.sub_add_cancel (by omega)]
  simp only [avpHead, List.append_assoc]

/-- The same with the padding, which is already there. -/
theorem storeAvp_avpBytes (pre : List UInt8) (n : ℕ) (code vendorId : UInt32) (data : Option Mem)
    (h : pad32 (headLen vendorId + (data.getD []).length) ≤ n) :
    storeAvp (pre ++ List.replicate n 0) pre.length code vendorId data (data.getD []).length =
      some (pre ++ avpBytes code vendorId (data.getD []) ++
        List.replicate (n - pad32 (headLen vendorId + (data.getD []).length)) 0) := by
  have hpad := le_pad32 (headLen vendorId + (data.getD []).length)
  have hrest := append_zeros_split (pre ++ avpHead code vendorId
    (headLen vendorId + (data.getD []).length) ++ data.getD [])
    (n - headLen vendorId - (data.getD []).length) (pad32 (headLen vendorId +
    (data.getD []).length) - (headLen vendorId + (data.getD []).length)) (by omega)
  rw [storeAvp_zeros pre n code vendorId data (by omega), hrest, avpBytes]
  simp only [List.append_assoc]
  congr 6
  omega

/-! ## Requests under construction -/

/-- The request holds `pre` up to the current position and zeros behind it, up to the end of the
block of that position at least. -/
structure Filled (req : Dm2Request) (pre : List UInt8) : Prop where
  zeros : ∃ n, req.packet = pre ++ List.replicate n 0
  pos_eq : req.pos = pre.length
  aligned : 4 ∣ pre.length
  blocks : (req.pos + dmBlockAlloc - 1) / dmBlockAlloc * dmBlockAlloc ≤ req.packet.length

/-- Nothing but the position of the innermost open group has changed. -/
structure SameGroups (req req' : Dm2Request) : Prop where
  level_eq : req'.level = req.level
  start_eq : (req'.grp req.level).start = (req.grp req.level).start
  below : ∀ l < req.level, req'.grp l = req.grp l

theorem SameGroups.refl (req : Dm2Request) : SameGroups req req := ⟨rfl, rfl, fun _ _ => rfl⟩

theorem SameGroups.trans {r1 r2 r3 : Dm2Request} (h12 : SameGroups r1 r2)
    (h23 : SameGroups r2 r3) : SameGroups r1 r3 := by
  have hl := h12.level_eq
  refine ⟨h23.level_eq.trans hl, ?_, ?_⟩
  · rw [← h12.start_eq, ← hl]
    exact h23.start_eq
  · intro l hlt
    rw [h23.below l (by omega), h12.below l hlt]

theorem advance_pos (req : Dm2Request) (n : ℕ) : (req.advance n).pos = req.pos + n := by
  simp [Dm2Request.advance, Dm2Request.setGrp, Dm2Request.pos]

theorem advance_sameGroups (req : Dm2Request) (m : Mem) (n : ℕ) :
    SameGroups req (Dm2Request.advance { req with packet := m } n) := by
  refine ⟨rfl, ?_, ?_⟩
  · simp [Dm2Request.advance, Dm2Request.setGrp]
  · intro l hl
    simp [Dm2Request.advance, Dm2Request.setGrp, Function.update_of_ne (Nat.ne_of_lt hl)]

/-- Bytes written over the zeros are counted to the front when the position moves behind them. -/
theorem filled_advance (req : Dm2Request) (pre bs : List UInt8) (n : ℕ)
    (hpos : req.pos = pre.length) (hpre : 4 ∣ pre.length) (hbs : 4 ∣ bs.length)
    (hn : (pre.length + bs.length + dmBlockAlloc - 1) / dmBlockAlloc * dmBlockAlloc ≤
      pre.length + bs.length + n) :
    Filled (Dm2Request.advance { req with packet := pre ++ bs ++ List.replicate n 0 } bs.length)
      (pre ++ bs) := by
  have hp : (Dm2Request.advance { req with packet := pre ++ bs ++ List.replicate n 0 }
      bs.length).pos = pre.length + bs.length := by
    rw [advance_pos, ← hpos]
    rfl
  refine ⟨⟨n, rfl⟩, ?_, ?_, ?_⟩
  · rw [hp, List.length_append]
  · rw [List.length_append]
    exact Nat.dvd_add hpre hbs
  · rw [hp]
    simpa [Dm2Request.advance, Dm2Request.setGrp, Nat.add_assoc] using hn

/-- A reallocation loses nothing in front of the position and leaves zeros behind it. -/
theorem realloc_zeros (A : Talloc) (pre : List UInt8) (n a b : ℕ) (hpre : pre.length ≤ a)
    (ha : a ≤ (pre ++ List.replicate n (0 : UInt8)).length) (hab : a ≤ b) :
    poke (A.realloc (pre ++ List.replicate n 0) b) a (List.replicate (b - a) 0) =
      some (pre ++ List.replicate (b - pre.length) 0) := by
  have htake : ∀ k, pre.length ≤ k → k ≤ pre.length + n →
      (pre ++ List.replicate n (0 : UInt8)).take k = pre ++ List.replicate (k - pre.length) 0 := by
    intro k h1 h2
    rw [List.take_append, List.take_of_length_le h1, List.take_replicate, Nat.min_eq_left (by omega)]
  have hlen : (A.realloc (pre ++ List.replicate n 0) b).length = b := by
    simp only [Talloc.realloc, List.length_append, List.length_take, List.length_map,
      List.length_range, List.length_replicate]
    omega
  have hfront : (A.realloc (pre ++ List.replicate n 0) b).take a =
      pre ++ List.replicate (a - pre.length) 0 := by
    simp only [List.length_append, List.length_replicate] at ha
    rw [Talloc.realloc, List.take_append_of_le_length (by simp; omega), List.take_take,
      Nat.min_eq_left hab, htake a hpre ha]
  rw [poke, if_pos (by rw [hlen, List.length_replicate]; omega), hfront, List.length_replicate,
    Nat.add_sub_cancel' hab, List.drop_of_length_le (by omega), List.append_nil, List.append_assoc,
    List.replicate_append_replicate]
  congr 3
  omega

theorem dmPacketEnsureSpace_filled (A : Talloc) (hA : ∀ n, A.grants n = true) (req : Dm2Request)
    (pre : List UInt8) (len : ℕ) (h : Filled req pre) :
    ∃ n, dmPacketEnsureSpace A req len =
        some (.ok, { req with packet := pre ++ List.replicate n 0 }) ∧
      (req.pos + dmBlockAlloc - 1 + len) / dmBlockAlloc * dmBlockAlloc ≤ pre.length + n := by
  obtain ⟨n, hn⟩ := h.zeros
  have hblocks := h.blocks
  have hpos := h.pos_eq
  unfold dmPacketEnsureSpace
  by_cases hw : (req.pos + dmBlockAlloc - 1) / dmBlockAlloc =
      (req.pos + dmBlockAlloc - 1 + len) / dmBlockAlloc
  · refine ⟨n, ?_, ?_⟩
    · rw [if_pos hw, ← hn]
    · rw [← hw]
      rw [hn, List.length_append, List.length_replicate] at hblocks
      exact hblocks
  · have hle : (req.pos + dmBlockAlloc - 1) / dmBlockAlloc ≤
        (req.pos + dmBlockAlloc - 1 + len) / dmBlockAlloc := Nat.div_le_div_right (by omega)
    have h0 := realloc_zeros A pre n ((req.pos + dmBlockAlloc - 1) / dmBlockAlloc * dmBlockAlloc)
      ((req.pos + dmBlockAlloc - 1 + len) / dmBlockAlloc * dmBlockAlloc)
      (by rw [← hpos]; unfold dmBlockAlloc; omega) (by rw [← hn]; exact hblocks)
      (Nat.mul_le_mul_right _ hle)
    rw [← Nat.sub_mul, ← hn] at h0
    refine ⟨(req.pos + dmBlockAlloc - 1 + len) / dmBlockAlloc * dmBlockAlloc - pre.length, ?_, ?_⟩
    · simp only [hw, if_false, hA, if_true, h0, Option.bind_eq_bind, Option.bind_some]
    · omega

/-- **One AVP.** The bytes of the AVP are appended and only the position moves. -/
theorem dmPutAvp_filled (A : Talloc) (hA : ∀ n, A.grants n = true) (req : Dm2Request)
    (pre : List UInt8) (code vendorId : UInt32) (data : Option Mem) (h : Filled req pre) :
    ∃ req', dmPutAvp A req code vendorId data (data.getD []).length = some (.ok, req') ∧
      Filled req' (pre ++ avpBytes code vendorId (data.getD [])) ∧ SameGroups req req' := by
  obtain ⟨n, hspace, hn⟩ := dmPacketEnsureSpace_filled A hA req pre ((data.getD []).length + 12) h
  have hpos := h.pos_eq
  have h12 := headLen_le vendorId
  have hal := h.aligned
  have hroom : pad32 (headLen vendorId + (data.getD []).length) ≤ n ∧
      (pre.length + pad32 (headLen vendorId + (data.getD []).length) + dmBlockAlloc - 1) /
        dmBlockAlloc * dmBlockAlloc ≤ pre.length + n := by
    have h1 := pad32_lt (headLen vendorId + (data.getD []).length)
    have h2 := four_dvd_pad32 (headLen vendorId + (data.getD []).length)
    rw [hpos] at hn
    unfold dmBlockAlloc at hn ⊢
    omega
  have hstore := storeAvp_avpBytes pre n code vendorId data hroom.1
  have hlen : (if vendorId ≠ 0 then (data.getD []).length + 12 else (data.getD []).length + 8) =
      headLen vendorId + (data.getD []).length := by
    unfold headLen
    split_ifs <;> omega
  have hargs : ¬((data.getD []).length ≠ 0 ∧ data = none) := by
    rintro ⟨h1, rfl⟩
    exact h1 rfl
  have hp : Dm2Request.pos { req with packet := pre ++ List.replicate n 0 } = pre.length := hpos
  have hbs := avpBytes_length code vendorId (data.getD [])
  refine ⟨_, ?_, filled_advance req pre (avpBytes code vendorId (data.getD []))
    (n - pad32 (headLen vendorId + (data.getD []).length)) hpos hal ?_ ?_, ?_⟩
  · rw [dmPutAvp, if_neg hargs, hspace]
    simp only [Call.andThen]
    rw [hp, hstore, Option.bind_eq_bind, Option.bind_some, hlen, hbs]
  · rw [hbs]
    exact four_dvd_pad32 _
  · rw [hbs, Nat.add_assoc pre.length _ (n - _), Nat.add_sub_cancel' hroom.1]
    exact hroom.2
  · exact advance_sameGroups req _ _

/-! ## Groups -/

theorem dmNewGroup_filled (A : Talloc) (hA : ∀ n, A.grants n = true) (req : Dm2Request)
    (pre : List UInt8) (code vendorId : UInt32) (h : Filled req pre)
    (hlevel : req.level + 1 < grpEntries) :
    ∃ req', dmNewGroup A req code vendorId = some (.ok, req') ∧
      Filled req' (pre ++ avpHead code vendorId (headLen vendorId)) ∧
      req'.level = req.level + 1 ∧ (req'.grp (req.level + 1)).start = pre.length ∧
      ∀ l ≤ req.level, req'.grp l = req.grp l := by
  have hopen : Filled { req.setGrp (req.level + 1) ⟨req.pos, req.pos⟩ with
      level := req.level + 1 } pre := by
    have hp : Dm2Request.pos { req.setGrp (req.level + 1) ⟨req.pos, req.pos⟩ with
        level := req.level + 1 } = req.pos := by
      simp [Dm2Request.pos, Dm2Request.setGrp]
    exact ⟨h.zeros, by rw [hp]; exact h.pos_eq, h.aligned, by rw [hp]; exact h.blocks⟩
  obtain ⟨req', hput, hfill, hsame⟩ := dmPutAvp_filled A hA _ pre code vendorId none hopen
  have hbytes : avpBytes code vendorId [] = avpHead code vendorId (headLen vendorId) := by
    have hpad := pad32_of_dvd _ (four_dvd_headLen vendorId)
    simp [avpBytes, hpad]
  refine ⟨req', ?_, ?_, hsame.level_eq, ?_, ?_⟩
  · rw [dmNewGroup, if_pos hlevel]
    exact hput
  · rw [← hbytes]
    exact hfill
  · rw [hsame.start_eq]
    simp [Dm2Request.setGrp, h.pos_eq]
  · intro l hl
    rw [hsame.below l (by show l < req.level + 1; omega)]
    simp [Dm2Request.setGrp, Function.update_of_ne (Nat.ne_of_lt (Nat.lt_succ_of_le hl))]

/-- Closing a group patches its length; the enclosing level goes on behind the group. -/
theorem dmFinalizeGroup_filled (req : Dm2Request) (pre body : List UInt8) (l : ℕ)
    (code vendorId : UInt32) (h : Filled req (pre ++ avpHead code vendorId (headLen vendorId) ++ body))
    (hlevel : req.level = l + 1) (hstart : (req.grp (l + 1)).start = pre.length)
    (hbelow : (req.grp l).pos = pre.length) (hpre : 4 ∣ pre.length) (hbody : 4 ∣ body.length) :
    ∃ req', dmFinalizeGroup req = some (.ok, req') ∧
      Filled req' (pre ++ (avpHead code vendorId (headLen vendorId + body.length) ++ body)) ∧
      req'.level = l ∧ (req'.grp l).start = (req.grp l).start ∧
      ∀ k < l, req'.grp k = req.grp k := by
  obtain ⟨n, hn⟩ := h.zeros
  have hblocks := h.blocks
  have h4 := four_dvd_headLen vendorId
  have hlen : req.pos - pre.length = headLen vendorId + body.length := by
    rw [h.pos_eq]
    simp only [List.length_append, avpHead_length]
    omega
  have hpad : pad32 (headLen vendorId + body.length) =
      (avpHead code vendorId (headLen vendorId + body.length) ++ body).length := by
    rw [pad32_of_dvd _ (Nat.dvd_add h4 hbody), List.length_append, avpHead_length]
  have hpoke : poke req.packet (pre.length + 5) (be 3 (headLen vendorId + body.length)) =
      some (pre ++ (avpHead code vendorId (headLen vendorId + body.length) ++ body) ++
        List.replicate n 0) := by
    have h0 := poke_middle req.packet (pre ++ be 4 code.toNat ++ [vendorFlag vendorId])
      (be 3 (headLen vendorId)) (vendorBytes vendorId ++ body ++ List.replicate n 0)
      (be 3 (headLen vendorId + body.length)) (pre.length + 5)
      (by rw [hn]; simp only [avpHead, List.append_assoc]) (by simp) (by simp)
    simpa only [avpHead, List.append_assoc] using h0
  refine ⟨_, ?_, filled_advance { req with level := l } pre
    (avpHead code vendorId (headLen vendorId + body.length) ++ body) n hbelow hpre ?_ ?_, rfl,
    ?_, ?_⟩
  · rw [dmFinalizeGroup, if_neg (by omega)]
    simp only [hlevel, hstart, hlen, hpoke, Option.bind_eq_bind, Option.bind_some,
      Nat.add_sub_cancel, hpad]
  · rw [← hpad]
    exact four_dvd_pad32 _
  · rw [h.pos_eq, hn] at hblocks
    simp only [List.length_append, avpHead_length, List.length_replicate] at hblocks ⊢
    simpa only [Nat.add_assoc] using hblocks
  · simp [Dm2Request.advance, Dm2Request.setGrp]
  · intro k hk
    simp [Dm2Request.advance, Dm2Request.setGrp, Function.update_of_ne (Nat.ne_of_lt hk)]

/-- **A list of AVPs.** While the groups fit, the calls succeed and append the bytes of the tree. -/
theorem putAvps_filled (A : Talloc) (hA : ∀ n, A.grants n = true) (avps : Avps) (req : Dm2Request)
    (pre : List UInt8) (h : Filled req pre) (hdepth : req.level + avps.depth < grpEntries) :
    ∃ req', putAvps A req avps = some (.ok, req') ∧ Filled req' (pre ++ wire avps) ∧
      SameGroups req req' := by
  induction avps generalizing req pre with
  | nil => exact ⟨req, rfl, by rwa [wire, List.append_nil], SameGroups.refl req⟩
  | avp code vendorId data rest ih =>
    obtain ⟨r1, hput, hfill, hsame⟩ := dmPutAvp_filled A hA req pre code vendorId (some data) h
    obtain ⟨r2, hrest, hfill2, hsame2⟩ := ih r1 _ hfill (by rw [hsame.level_eq]; exact hdepth)
    rw [Option.getD_some] at hput hfill2
    refine ⟨r2, ?_, ?_, hsame.trans hsame2⟩
    · rw [putAvps, hput]
      exact hrest
    · rwa [wire, ← List.append_assoc]
  | group code vendorId content rest ih1 ih2 =>
    rw [Avps.depth] at hdepth
    obtain ⟨r1, hnew, hfill1, hlevel1, hstart1, hbelow1⟩ :=
      dmNewGroup_filled A hA req pre code vendorId h (by omega)
    obtain ⟨r2, hcontent, hfill2, hsame2⟩ := ih1 r1 _ hfill1 (by omega)
    have hlevel2 : r2.level = req.level + 1 := hsame2.level_eq.trans hlevel1
    have hkeep : ∀ l ≤ req.level, r2.grp l = req.grp l := by
      intro l hl
      rw [hsame2.below l (by omega), hbelow1 l hl]
    have hstart2 : (r2.grp (req.level + 1)).start = pre.length := by
      rw [← hstart1, ← hlevel1]
      exact hsame2.start_eq
    obtain ⟨r3, hfin, hfill3, hlevel3, hstart3, hbelow3⟩ :=
      dmFinalizeGroup_filled r2 pre (wire content) req.level code vendorId hfill2 hlevel2 hstart2
        (by rw [hkeep _ le_rfl]; exact h.pos_eq) h.aligned (four_dvd_wire content)
    have hsame3 : SameGroups req r3 := by
      refine ⟨hlevel3, ?_, ?_⟩
      · rw [hstart3, hkeep _ le_rfl]
      · intro l hl
        rw [hbelow3 l hl, hkeep l (Nat.le_of_lt hl)]
    obtain ⟨r4, hrest, hfill4, hsame4⟩ := ih2 r3 _ hfill3 (by omega)
    refine ⟨r4, ?_, ?_, hsame3.trans hsame4⟩
    · rw [putAvps, hnew]
      simp only [Call.andThen]
      rw [hcontent]
      simp only
      rw [hfin]
      exact hrest
    · rw [wire]
      simpa only [List.append_assoc] using hfill4

/-! ## Whole packets -/

/-- The header of a packet whose length field is `len`. -/
def packetHead (code : UInt32) (flags : UInt8) (appid hopid endid : UInt32) (len : ℕ) :
    List UInt8 :=
  [1] ++ be 3 len ++ [flags] ++ be 3 code.toNat ++ be 4 appid.toNat ++ be 4 hopid.toNat ++
    be 4 endid.toNat

theorem packetHead_length (code : UInt32) (flags : UInt8) (appid hopid endid : UInt32) (len : ℕ) :
    (packetHead code flags appid hopid endid len).length = sizeofDmPacket := by
  simp [packetHead, sizeofDmPacket]

/-- The header fields land in the first bytes of the first block. -/
theorem dmNewPacket_eq (A : Talloc) (hA : ∀ n, A.grants n = true) (code : UInt32)
    (flags : UInt8) (appid hopid endid : UInt32) :
    dmNewPacket A code flags appid hopid endid = some (.ok, Dm2Request.setGrp
      { grp := fun _ => ⟨0, 0⟩, level := 0,
        packet := packetHead code flags appid hopid endid sizeofDmPacket ++
          List.replicate 2028 0 } 0 ⟨sizeofDmPacket, sizeofDmPacket⟩) := by
  have hz : List.replicate dmBlockAlloc (0 : UInt8) =
      [] ++ [0] ++ ([0, 0, 0] ++ [0] ++ [0, 0, 0] ++ List.replicate 2040 0) := rfl
  -- One fact per store, in the order of the source.
  have h1 := poke_middle _ _ _ _ [1] 0 hz rfl rfl
  have h2 := poke_middle _ ([1] ++ [0, 0, 0] ++ [0]) [0, 0, 0] (List.replicate 2040 0)
    (be 3 code.toNat) 5 rfl rfl rfl
  have h3 := poke_middle _ ([1] ++ [0, 0, 0]) [0] (be 3 code.toNat ++ List.replicate 2040 0)
    [flags] 4 rfl rfl rfl
  have h4 := poke_middle _ [1] [0, 0, 0] ([flags] ++ be 3 code.toNat ++ List.replicate 2040 0)
    (be 3 sizeofDmPacket) 1 rfl rfl rfl
  have h5 := poke_zeros ([1] ++ be 3 sizeofDmPacket ++ [flags] ++ be 3 code.toNat)
    (be 4 appid.toNat) 2040 8 rfl (by simp)
  have h6 := poke_zeros ([1] ++ be 3 sizeofDmPacket ++ [flags] ++ be 3 code.toNat ++
    be 4 appid.toNat) (be 4 hopid.toNat) 2036 12 rfl (by simp)
  have h7 := poke_zeros ([1] ++ be 3 sizeofDmPacket ++ [flags] ++ be 3 code.toNat ++
    be 4 appid.toNat ++ be 4 hopid.toNat) (be 4 endid.toNat) 2032 16 rfl (by simp)
  simp only [be_length, List.append_assoc, List.nil_append] at h1 h2 h3 h4 h5 h6 h7
  simp only [dmNewPacket, hA, if_true, Option.bind_eq_bind, Option.bind_some, h1, h2, h3, h4, h5,
    h6, h7, packetHead, List.append_assoc]

theorem dmNewPacket_filled (A : Talloc) (hA : ∀ n, A.grants n = true) (code : UInt32)
    (flags : UInt8) (appid hopid endid : UInt32) :
    ∃ req, dmNewPacket A code flags appid hopid endid = some (.ok, req) ∧
      Filled req (packetHead code flags appid hopid endid sizeofDmPacket) ∧ req.level = 0 := by
  have hlen := packetHead_length code flags appid hopid endid sizeofDmPacket
  refine ⟨_, dmNewPacket_eq A hA code flags appid hopid endid, ⟨⟨2028, rfl⟩, ?_, ?_, ?_⟩, rfl⟩
  · rw [hlen]
    simp only [Dm2Request.pos, Dm2Request.setGrp, Function.update_self]
  · rw [hlen]
    decide
  · have hpos : (sizeofDmPacket + dmBlockAlloc - 1) / dmBlockAlloc * dmBlockAlloc ≤
        sizeofDmPacket + 2028 := by decide
    simp only [Dm2Request.pos, Dm2Request.setGrp, Function.update_self, List.length_append, hlen,
      List.length_replicate]
    exact hpos

/-- **The packet.** Building a tree of at most fifteen nested groups succeeds, and the packet is
its header with the final length, the bytes of the tree and zeros. -/
theorem buildPacket_eq (A : Talloc) (hA : ∀ n, A.grants n = true) (code : UInt32) (flags : UInt8)
    (appid hopid endid : UInt32) (avps : Avps) (hdepth : avps.depth ≤ 15) :
    ∃ req n, buildPacket A code flags appid hopid endid avps = some (.ok, req) ∧
      (req.grp 0).pos = sizeofDmPacket + (wire avps).length ∧
      req.packet = packetHead code flags appid hopid endid (req.grp 0).pos ++ wire avps ++
        List.replicate n 0 := by
  obtain ⟨r1, hnew, hfill1, hlevel1⟩ := dmNewPacket_filled A hA code flags appid hopid endid
  obtain ⟨r2, hput, hfill2, hsame⟩ := putAvps_filled A hA avps r1 _ hfill1
    (by rw [hlevel1, Nat.zero_add]; exact Nat.lt_succ_of_le hdepth)
  have hlevel2 : r2.level = 0 := hsame.level_eq.trans hlevel1
  obtain ⟨n, hn⟩ := hfill2.zeros
  have hpos : (r2.grp 0).pos = sizeofDmPacket + (wire avps).length := by
    have h0 := hfill2.pos_eq
    rw [List.length_append, packetHead_length] at h0
    rw [← h0, Dm2Request.pos, hlevel2]
  have hpoke := poke_middle r2.packet [1] (be 3 sizeofDmPacket) ([flags] ++ be 3 code.toNat ++
    be 4 appid.toNat ++ be 4 hopid.toNat ++ be 4 endid.toNat ++ wire avps ++ List.replicate n 0)
    (be 3 (r2.grp 0).pos) 1 (by rw [hn]; simp only [packetHead, List.append_assoc]) rfl (by simp)
  have hfin : dmFinalizePacket r2 = some (.ok, { r2 with
      packet := packetHead code flags appid hopid endid (r2.grp 0).pos ++ wire avps ++
        List.replicate n 0 }) := by
    rw [dmFinalizePacket, if_neg (not_not.mpr hlevel2), hpoke, Option.bind_eq_bind,
      Option.bind_some]
    simp only [packetHead, List.append_assoc]
  refine ⟨{ r2 with
    packet := packetHead code flags appid hopid endid (r2.grp 0).pos ++ wire avps ++
      List.replicate n 0 }, n, ?_, hpos, rfl⟩
  rw [buildPacket, hnew]
  simp only [Call.andThen]
  rw [hput]
  exact hfin

end Mand.Msg
