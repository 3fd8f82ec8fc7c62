import Mand.Msg.Short
import Mand.Lib.Run

/-! # The buffer of a request

The allocation of a packet is not stored: `dm_packet_ensure_space` counts it again from the position. The calls of
the encoder, in any order, and what they leave behind the position. -/
namespace Mand.Msg
open Mand.Bytes
set_option autoImplicit false

/-! ## Calls -/

/-- `dm_add_uint32`. -/
def dmAddUint32 (A : Talloc) (req : Dm2Request) (code vendorId value : UInt32) : Call :=
  dmPutAvp A req code vendorId (some (be 4 value.toNat)) 4

/-- The position that `dm_add_uint32_get_pos` hands out. -/
def uint32Pos (req : Dm2Request) (vendorId : UInt32) : ℕ :=
  if vendorId ≠ 0 then req.pos + 8 + 4 else req.pos + 8

/-- `dm_put_uint32_at_pos`. -/
def dmPutUint32AtPos (req : Dm2Request) (pos : ℕ) (value : UInt32) : Option Dm2Request := do
  let packet ← poke req.packet pos (be 4 value.toNat)
  some { req with packet := packet }

/-- A call of the encoder. Data is as long as the call says, or longer; a word is put at one of the positions that
were handed out. -/
inductive EncCall
  | putAvp (code vendorId : UInt32) (data : Option Mem) (len : ℕ) (fits : ∀ bytes ∈ data, len ≤ bytes.length)
  | addUint32GetPos (code vendorId value : UInt32)
  | newGroup (code vendorId : UInt32)
  | finalizeGroup
  | putUint32AtPos (i : ℕ) (value : UInt32)

/-- A request, and the positions that its user remembers. -/
structure Encoder where
  req : Dm2Request
  marks : List ℕ

/-- The request after a call. -/
def Encoder.after (s : Encoder) (call : Call) (marks : List ℕ) : Option (Rc × Encoder) :=
  call.map fun r => (r.1, ⟨r.2, s.marks ++ marks⟩)

def encStep (A : Talloc) (s : Encoder) : EncCall → Option (Rc × Encoder)
  | .putAvp code vendorId data len _ => s.after (dmPutAvp A s.req code vendorId data len) []
  | .addUint32GetPos code vendorId value =>
    s.after (dmAddUint32 A s.req code vendorId value) [uint32Pos s.req vendorId]
  | .newGroup code vendorId => s.after (dmNewGroup A s.req code vendorId) []
  | .finalizeGroup => s.after (dmFinalizeGroup s.req) []
  | .putUint32AtPos i value =>
    match s.marks[i]? with
    | some pos => (dmPutUint32AtPos s.req pos value).map fun req => (.ok, ⟨req, s.marks⟩)
    | none => some (.ok, s)

/-- A step whose allocation, if it makes one, succeeds. -/
def encGranted (A : Talloc) (s : Encoder) (call : EncCall) : Option Encoder :=
  match encStep A s call with
  | some (rc, s') => if rc = .errAlloc then none else some s'
  | none => none

/-- The depth after a call. -/
def EncCall.level (l : ℕ) : EncCall → ℕ
  | .newGroup _ _ => l + 1
  | .finalizeGroup => l - 1
  | _ => l

/-- No more than 15 groups are open at once. -/
def Nested (calls : List EncCall) : Prop := ∀ pre, pre <+: calls → pre.foldl EncCall.level 0 ≤ 15

/-- The bytes from the position to the end of the allocation. -/
def Encoder.Zeros (s : Encoder) : Prop :=
  s.req.pos ≤ s.req.packet.length ∧ ∀ k, s.req.pos ≤ k → k < s.req.packet.length → s.req.packet[k]? = some 0

/-- What a call stores in front of the position: the length of the group that it closes, or a word. -/
def EncCall.Patches (s : Encoder) (k : ℕ) : EncCall → Prop
  | .finalizeGroup => (s.req.grp s.req.level).start + 5 ≤ k ∧ k < (s.req.grp s.req.level).start + 8
  | .putUint32AtPos i _ => ∃ p, s.marks[i]? = some p ∧ p ≤ k ∧ k < p + 4
  | _ => False

theorem Short.after {x y : Call} (h : Short x y) (s : Encoder) (marks : List ℕ) :
    s.after x marks = s.after y marks ∨ ∃ s', s.after x marks = some (.errAlloc, s') := by
  rcases h with rfl | ⟨req, rfl⟩
  · exact .inl rfl
  · exact .inr ⟨_, rfl⟩

/-- A call does what it does with all the memory it asks for, or memory is refused. -/
theorem encStep_short (A : Talloc) (s : Encoder) (call : EncCall) :
    encStep A s call = encStep A.granting s call ∨ ∃ s', encStep A s call = some (.errAlloc, s') := by
  cases call with
  | putAvp code vendorId data len fits => exact (dmPutAvp_short A s.req code vendorId data len).after s _
  | addUint32GetPos code vendorId value => exact (dmPutAvp_short A s.req code vendorId _ 4).after s _
  | newGroup code vendorId => exact (dmNewGroup_short A s.req code vendorId).after s _
  | finalizeGroup => exact .inl rfl
  | putUint32AtPos i value => exact .inl rfl

/-! ## The invariant -/

/-- The request is filled up to the position. Each open group starts at the position of the one around it, with a
header; the words that are remembered are in front of the position. -/
structure Sound (s : Encoder) : Prop where
  filled : ∃ pre, Filled s.req pre
  groups : ∀ l < s.req.level, (s.req.grp (l + 1)).start = (s.req.grp l).pos ∧ 4 ∣ (s.req.grp l).pos ∧
    (s.req.grp l).pos + 8 ≤ (s.req.grp (l + 1)).pos
  marks : ∀ p ∈ s.marks, p + 4 ≤ s.req.pos

theorem Filled.zeros_behind {s : Encoder} {pre : List UInt8} (h : Filled s.req pre) : s.Zeros := by
  obtain ⟨n, hn⟩ := h.zeros
  have hpos := h.pos_eq
  unfold Encoder.Zeros
  rw [hn, List.length_append, List.length_replicate]
  refine ⟨by omega, ?_⟩
  intro k hk hlt
  rw [List.getElem?_append_right (by omega), List.getElem?_replicate, if_pos (by omega)]

/-- Bytes are added at the position of the innermost group. -/
theorem Sound.append {s : Encoder} {req' : Dm2Request} {pre bs : List UInt8} {marks : List ℕ} (h : Sound s)
    (hpre : Filled s.req pre) (hfill : Filled req' (pre ++ bs)) (hsame : SameGroups s.req req')
    (hmarks : ∀ p ∈ marks, p + 4 ≤ req'.pos) : Sound ⟨req', s.marks ++ marks⟩ := by
  have hpos : s.req.pos ≤ req'.pos := by
    rw [hpre.pos_eq, hfill.pos_eq, List.length_append]
    omega
  refine ⟨⟨_, hfill⟩, ?_, ?_⟩
  · intro l hl
    have hl : l < s.req.level := by rwa [← hsame.level_eq]
    have hbelow := hsame.below l hl
    obtain ⟨h1, h2, h3⟩ := h.groups l hl
    dsimp only
    rw [hbelow]
    by_cases hlast : l + 1 = s.req.level
    · rw [hlast] at h1 h3 ⊢
      refine ⟨hsame.start_eq.trans h1, h2, ?_⟩
      have hp : (req'.grp s.req.level).pos = req'.pos := by
        unfold Dm2Request.pos
        rw [hsame.level_eq]
      rw [hp]
      exact h3.trans hpos
    · rw [hsame.below (l + 1) (by omega)]
      exact ⟨h1, h2, h3⟩
  · intro p hp
    rcases List.mem_append.mp hp with hp | hp
    · exact (h.marks p hp).trans hpos
    · exact hmarks p hp

/-- Bytes in front of the position are overwritten. -/
theorem Filled.patch {req : Dm2Request} {pre : List UInt8} (h : Filled req pre) (p : ℕ) (bs : List UInt8)
    (hp : p + bs.length ≤ req.pos) : ∃ pre' m, poke req.packet p bs = some m ∧
      Filled { req with packet := m } pre' ∧ pre'.length = pre.length := by
  obtain ⟨n, hn⟩ := h.zeros
  rw [h.pos_eq] at hp
  obtain ⟨pre', hpoke, -, hlen⟩ := poke_front pre bs n p hp
  have hpos : Dm2Request.pos { req with packet := pre' ++ List.replicate n 0 } = req.pos := rfl
  refine ⟨pre', _, by rw [hn]; exact hpoke, ⟨⟨n, rfl⟩, ?_, ?_, ?_⟩, hlen⟩
  · rw [hpos, hlen]
    exact h.pos_eq
  · rw [hlen]
    exact h.aligned
  · have hblocks := h.blocks
    rw [hn] at hblocks
    rw [hpos]
    simpa only [List.length_append, hlen] using hblocks

/-- What a call keeps. -/
def Kept (s : Encoder) (call : EncCall) (s' : Encoder) : Prop :=
  ∀ k < s.req.pos, ¬call.Patches s k → s'.req.packet[k]? = s.req.packet[k]?

theorem Filled.kept {req req' : Dm2Request} {pre bs : List UInt8} (h : Filled req pre) (h' : Filled req' (pre ++ bs))
    (k : ℕ) (hk : k < req.pos) : req'.packet[k]? = req.packet[k]? := by
  obtain ⟨n, hn⟩ := h.zeros
  obtain ⟨n', hn'⟩ := h'.zeros
  rw [h.pos_eq] at hk
  rw [hn, hn', List.append_assoc, List.getElem?_append_left hk, List.getElem?_append_left hk]

/-! ## One call -/

section Step
variable {A : Talloc} {s : Encoder}

/-- What is to be shown of a call. -/
def Safe (A : Talloc) (s : Encoder) (call : EncCall) : Prop :=
  ∃ rc s', encStep A s call = some (rc, s') ∧ rc ≠ .errAlloc ∧ Sound s' ∧ s'.req.level = call.level s.req.level ∧
    Kept s call s'

theorem dmPutAvp_take (req : Dm2Request) (code vendorId : UInt32) (bytes : Mem) (len : ℕ) (h : len ≤ bytes.length) :
    dmPutAvp A req code vendorId (some bytes) len = dmPutAvp A req code vendorId (some (bytes.take len)) len := by
  have hcopy : ∀ m d, copyPayload m d (some bytes) len = copyPayload m d (some (bytes.take len)) len := by
    intro m d
    have htake : len ≤ (bytes.take len).length := by
      rw [List.length_take]
      omega
    simp only [copyPayload, if_pos h, if_pos htake, List.take_take, Nat.min_self]
  simp only [dmPutAvp, storeAvp, hcopy, reduceCtorEq]

/-- An AVP is appended, if it has its data. -/
theorem dmPutAvp_cases (hA : ∀ n, A.grants n = true) {req : Dm2Request} {pre : List UInt8} (hpre : Filled req pre)
    (code vendorId : UInt32) (data : Option Mem) (len : ℕ) (fits : ∀ bytes ∈ data, len ≤ bytes.length) :
    (∃ bs req', bs.length = len ∧ dmPutAvp A req code vendorId data len = some (.ok, req') ∧
      Filled req' (pre ++ avpBytes code vendorId bs) ∧ SameGroups req req') ∨
      dmPutAvp A req code vendorId data len = some (.errAvpMisformed, req) := by
  cases data with
  | none =>
    by_cases hlen : len = 0
    · obtain ⟨req', hput, hfill, hsame⟩ := dmPutAvp_filled A hA req pre code vendorId none hpre
      rw [hlen]
      exact .inl ⟨[], req', rfl, hput, hfill, hsame⟩
    · refine .inr ?_
      rw [dmPutAvp, if_pos ⟨hlen, rfl⟩]
  | some bytes =>
    have hfit := fits bytes rfl
    have hlen : (bytes.take len).length = len := by rw [List.length_take, Nat.min_eq_left hfit]
    obtain ⟨req', hput, hfill, hsame⟩ := dmPutAvp_filled A hA req pre code vendorId (some (bytes.take len)) hpre
    rw [Option.getD_some, hlen] at hput
    exact .inl ⟨bytes.take len, req', hlen, (dmPutAvp_take req code vendorId bytes len hfit).trans hput, hfill, hsame⟩

theorem dmPutAvp_safe (hA : ∀ n, A.grants n = true) (h : Sound s) (code vendorId : UInt32) (data : Option Mem) (len : ℕ)
    (fits : ∀ bytes ∈ data, len ≤ bytes.length) : Safe A s (.putAvp code vendorId data len fits) := by
  obtain ⟨pre, hpre⟩ := h.filled
  rcases dmPutAvp_cases hA hpre code vendorId data len fits with ⟨bs, req', -, hput, hfill, hsame⟩ | hput
  · refine ⟨.ok, ⟨req', s.marks ++ []⟩, ?_, nofun, h.append hpre hfill hsame (fun p hp => absurd hp List.not_mem_nil),
      hsame.level_eq, fun k hk _ => hpre.kept hfill k hk⟩
    show s.after (dmPutAvp A s.req code vendorId data len) [] = _
    rw [hput]
    rfl
  · refine ⟨.errAvpMisformed, ⟨s.req, s.marks ++ []⟩, ?_, nofun, ?_, rfl, fun k _ _ => rfl⟩
    · show s.after (dmPutAvp A s.req code vendorId data len) [] = _
      rw [hput]
      rfl
    · rw [List.append_nil]
      exact h

theorem dmAddUint32GetPos_safe (hA : ∀ n, A.grants n = true) (h : Sound s) (code vendorId value : UInt32) :
    Safe A s (.addUint32GetPos code vendorId value) := by
  obtain ⟨pre, hpre⟩ := h.filled
  obtain ⟨req', hput, hfill, hsame⟩ := dmPutAvp_filled A hA s.req pre code vendorId (some (be 4 value.toNat)) hpre
  refine ⟨.ok, ⟨req', s.marks ++ [uint32Pos s.req vendorId]⟩, ?_, nofun, h.append hpre hfill hsame ?_, hsame.level_eq,
    fun k hk _ => hpre.kept hfill k hk⟩
  · show s.after (dmAddUint32 A s.req code vendorId value) _ = _
    rw [Option.getD_some, be_length] at hput
    rw [dmAddUint32, hput]
    rfl
  · -- the word ends where the AVP does
    intro p hp
    rw [List.mem_singleton] at hp
    have hlen := le_pad32 (headLen vendorId + 4)
    rw [hfill.pos_eq, List.length_append, avpBytes_length, Option.getD_some, be_length, hp, ← hpre.pos_eq]
    unfold uint32Pos
    unfold headLen at hlen ⊢
    split_ifs at hlen ⊢ <;> omega

theorem dmNewGroup_safe (hA : ∀ n, A.grants n = true) (h : Sound s) (code vendorId : UInt32) (hlevel : s.req.level < 15) :
    Safe A s (.newGroup code vendorId) := by
  obtain ⟨pre, hpre⟩ := h.filled
  obtain ⟨req', hnew, hfill, hlevel', hstart, hbelow⟩ :=
    dmNewGroup_filled A hA s.req pre code vendorId hpre (Nat.succ_lt_succ hlevel)
  have hhead := eight_le_headLen vendorId
  have hpos : req'.pos = s.req.pos + headLen vendorId := by
    rw [hfill.pos_eq, List.length_append, avpHead_length, hpre.pos_eq]
  refine ⟨.ok, ⟨req', s.marks ++ []⟩, ?_, nofun, ⟨⟨_, hfill⟩, ?_, ?_⟩, hlevel', fun k hk _ => hpre.kept hfill k hk⟩
  · show s.after (dmNewGroup A s.req code vendorId) [] = _
    rw [hnew]
    rfl
  · intro l hl
    dsimp only at hl ⊢
    rw [hlevel'] at hl
    by_cases hlast : l = s.req.level
    · subst hlast
      have hp : (req'.grp (s.req.level + 1)).pos = req'.pos := by
        unfold Dm2Request.pos
        rw [hlevel']
      have hq : (s.req.grp s.req.level).pos = s.req.pos := rfl
      rw [hbelow _ le_rfl, hstart, hp, hpos, hq, hpre.pos_eq]
      exact ⟨rfl, hpre.aligned, by omega⟩
    · rw [hbelow l (by omega), hbelow (l + 1) (by omega)]
      exact h.groups l (by omega)
  · intro p hp
    rw [List.append_nil] at hp
    have := h.marks p hp
    dsimp only
    omega

theorem dmPutUint32AtPos_safe (h : Sound s) (i : ℕ) (value : UInt32) : Safe A s (.putUint32AtPos i value) := by
  obtain ⟨pre, hpre⟩ := h.filled
  cases hi : s.marks[i]? with
  | none =>
    refine ⟨.ok, s, ?_, nofun, h, rfl, fun k _ _ => rfl⟩
    simp only [encStep, hi]
  | some p =>
    have hp := h.marks p (List.mem_of_getElem? hi)
    obtain ⟨pre', m, hpoke, hfill, hlen⟩ := hpre.patch p (be 4 value.toNat) (by rw [be_length]; exact hp)
    refine ⟨.ok, ⟨{ s.req with packet := m }, s.marks⟩, ?_, nofun, ⟨⟨pre', hfill⟩, h.groups, h.marks⟩, rfl, ?_⟩
    · simp only [encStep, hi, dmPutUint32AtPos, hpoke, Option.bind_eq_bind, Option.bind_some, Option.map_some]
    · intro k hk hno
      refine getElem?_poke hpoke ?_
      by_contra hin
      rw [be_length] at hin
      exact hno ⟨p, hi, by omega, by omega⟩

/-- The innermost group is closed: its length is stored and the group around it goes on where it ends. -/
theorem dmFinalizeGroup_closes (h : Sound s) {l : ℕ} (hl : s.req.level = l + 1) :
    ∃ req', dmFinalizeGroup s.req = some (.ok, req') ∧ req'.level = l ∧ req'.pos = s.req.pos ∧
      (∀ k < l, req'.grp k = s.req.grp k) ∧ (req'.grp l).start = (s.req.grp l).start ∧
      poke s.req.packet ((s.req.grp (l + 1)).start + 5) (be 3 (s.req.pos - (s.req.grp (l + 1)).start)) =
        some req'.packet ∧ ∃ pre, Filled req' pre := by
  obtain ⟨pre, hpre⟩ := h.filled
  obtain ⟨hstart, haligned, hroom⟩ := h.groups l (by omega)
  have hpos : (s.req.grp (l + 1)).pos = s.req.pos := by
    unfold Dm2Request.pos
    rw [hl]
  rw [hpos] at hroom
  obtain ⟨pre', m, hpoke, hfill, hlen⟩ := hpre.patch ((s.req.grp (l + 1)).start + 5)
    (be 3 (s.req.pos - (s.req.grp (l + 1)).start)) (by rw [be_length]; omega)
  have hnext : (s.req.grp l).pos + pad32 (s.req.pos - (s.req.grp (l + 1)).start) = s.req.pos := by
    have h4 := hpre.aligned
    rw [← hpre.pos_eq] at h4
    rw [hstart, pad32_of_dvd _ (Nat.dvd_sub h4 haligned)]
    omega
  have hpos' : Dm2Request.pos (Dm2Request.advance { s.req with packet := m, level := l }
      (pad32 (s.req.pos - (s.req.grp (l + 1)).start))) = s.req.pos := by
    rw [advance_pos]
    exact hnext
  refine ⟨Dm2Request.advance { s.req with packet := m, level := l }
    (pad32 (s.req.pos - (s.req.grp (l + 1)).start)), ?_, rfl, hpos', ?_, ?_, hpoke, pre', hfill.zeros, ?_,
    hfill.aligned, ?_⟩
  · rw [dmFinalizeGroup, if_neg (by omega), hl]
    simp only [hpoke, Option.bind_eq_bind, Option.bind_some, Nat.add_sub_cancel]
  · intro k hk
    simp [Dm2Request.advance, Dm2Request.setGrp, Function.update_of_ne (Nat.ne_of_lt hk)]
  · simp [Dm2Request.advance, Dm2Request.setGrp]
  · rw [hpos']
    exact hfill.pos_eq
  · rw [hpos']
    exact hfill.blocks

theorem dmFinalizeGroup_safe (h : Sound s) : Safe A s .finalizeGroup := by
  by_cases hlevel : s.req.level = 0
  · refine ⟨.errAvpMisformed, ⟨s.req, s.marks ++ []⟩, ?_, by decide, ?_, ?_, fun k _ _ => rfl⟩
    · show s.after (dmFinalizeGroup s.req) [] = _
      rw [dmFinalizeGroup, if_pos hlevel]
      rfl
    · rw [List.append_nil]
      exact h
    · show s.req.level = s.req.level - 1
      omega
  obtain ⟨l, hl⟩ : ∃ l, s.req.level = l + 1 := ⟨s.req.level - 1, by omega⟩
  obtain ⟨req', hfin, hlevel', hpos', hbelow, hstart', hpoke, hfill⟩ := dmFinalizeGroup_closes h hl
  refine ⟨.ok, ⟨req', s.marks ++ []⟩, ?_, by decide, ⟨hfill, ?_, ?_⟩, ?_, ?_⟩
  · show s.after (dmFinalizeGroup s.req) [] = _
    rw [hfin]
    rfl
  · intro k hk
    dsimp only at hk ⊢
    rw [hlevel'] at hk
    obtain ⟨h1, h2, h3⟩ := h.groups k (by omega)
    rw [hbelow k hk]
    by_cases hlast : k + 1 = l
    · have hp : (req'.grp l).pos = req'.pos := by
        unfold Dm2Request.pos
        rw [hlevel']
      obtain ⟨hstart, -, hroom⟩ := h.groups l (by omega)
      have hq : (s.req.grp (l + 1)).pos = s.req.pos := by
        unfold Dm2Request.pos
        rw [hl]
      rw [hlast] at h1 h3 ⊢
      rw [hstart', hp, hpos', ← hq]
      exact ⟨h1, h2, by omega⟩
    · rw [hbelow (k + 1) (by omega)]
      exact ⟨h1, h2, h3⟩
  · intro p hp
    rw [List.append_nil] at hp
    dsimp only
    rw [hpos']
    exact h.marks p hp
  · show req'.level = s.req.level - 1
    omega
  · intro k hk hno
    refine getElem?_poke hpoke ?_
    by_contra hin
    rw [be_length] at hin
    apply hno
    show (s.req.grp s.req.level).start + 5 ≤ k ∧ k < (s.req.grp s.req.level).start + 8
    rw [hl]
    omega

theorem encStep_safe (hA : ∀ n, A.grants n = true) (h : Sound s) (call : EncCall) (hlevel : call.level s.req.level ≤ 15) :
    Safe A s call := by
  cases call with
  | putAvp code vendorId data len fits => exact dmPutAvp_safe hA h code vendorId data len fits
  | addUint32GetPos code vendorId value => exact dmAddUint32GetPos_safe hA h code vendorId value
  | newGroup code vendorId => exact dmNewGroup_safe hA h code vendorId hlevel
  | finalizeGroup => exact dmFinalizeGroup_safe h
  | putUint32AtPos i value => exact dmPutUint32AtPos_safe h i value

/-- The same where memory may be refused. -/
theorem encStep_cases (h : Sound s) (call : EncCall) (hlevel : call.level s.req.level ≤ 15) :
    Safe A s call ∨ ∃ s', encStep A s call = some (.errAlloc, s') := by
  rcases encStep_short A s call with heq | hshort
  · obtain ⟨rc, s', hstep, hsafe⟩ := encStep_safe (A := A.granting) (fun _ => rfl) h call hlevel
    exact .inl ⟨rc, s', heq.trans hstep, hsafe⟩
  · exact .inr hshort

end Step

/-! ## Runs -/

section Run
variable {A : Talloc} {code : UInt32} {flags : UInt8} {appid hopid endid : UInt32} {req : Dm2Request}
  {calls : List EncCall}

theorem dmNewPacket_sound (h : dmNewPacket A code flags appid hopid endid = some (.ok, req)) :
    Sound ⟨req, []⟩ ∧ req.level = 0 ∧ req.pos = sizeofDmPacket := by
  rcases dmNewPacket_cases A code flags appid hopid endid with ⟨r, hr, hfill, hlevel⟩ | ⟨r, hr⟩
  · rw [h] at hr
    cases hr
    refine ⟨⟨⟨_, hfill⟩, ?_, fun p hp => absurd hp List.not_mem_nil⟩, hlevel, ?_⟩
    · intro l hl
      dsimp only at hl
      omega
    · rw [hfill.pos_eq, packetHead_length]
  · rw [h] at hr
    cases hr

theorem Nested.level (hnest : Nested calls) {pre : List EncCall} {call : EncCall} (hpre : pre ++ [call] <+: calls) :
    call.level (pre.foldl EncCall.level 0) ≤ 15 := by
  have h := hnest _ hpre
  rwa [List.foldl_append] at h

/-- Every state of a run is sound. -/
theorem run_sound (hnew : dmNewPacket A code flags appid hopid endid = some (.ok, req)) (hnest : Nested calls)
    {pre : List EncCall} (hpre : pre <+: calls) {s : Encoder} (h : Run.run (encGranted A) ⟨req, []⟩ pre = some s) :
    Sound s ∧ s.req.level = pre.foldl EncCall.level 0 := by
  induction pre using List.reverseRecOn generalizing s with
  | nil =>
    cases h
    obtain ⟨hsound, hlevel, -⟩ := dmNewPacket_sound hnew
    exact ⟨hsound, hlevel⟩
  | append_singleton pre call ih =>
    obtain ⟨s0, h0, hstep⟩ := Run.run_snoc.mp h
    obtain ⟨hsound, hlevel⟩ := ih ((List.prefix_append pre [call]).trans hpre) h0
    have hcall := hnest.level hpre
    rw [← hlevel] at hcall
    unfold encGranted at hstep
    rcases @encStep_cases A s0 hsound call hcall with ⟨rc, s', hs', -, hsound', hlevel', -⟩ | ⟨s', hs'⟩
    · rw [hs'] at hstep
      dsimp only at hstep
      split at hstep
      · cases hstep
      cases hstep
      refine ⟨hsound', ?_⟩
      rw [hlevel', hlevel, List.foldl_append]
      rfl
    · rw [hs'] at hstep
      cases hstep

/-- Nothing but memory that is refused ends a run. -/
theorem run_total (hA : ∀ n, A.grants n = true) (hnew : dmNewPacket A code flags appid hopid endid = some (.ok, req))
    (hnest : Nested calls) {pre : List EncCall} (hpre : pre <+: calls) :
    ∃ s, Run.run (encGranted A) ⟨req, []⟩ pre = some s := by
  induction pre using List.reverseRecOn with
  | nil => exact ⟨_, rfl⟩
  | append_singleton pre call ih =>
    have hpre0 := (List.prefix_append pre [call]).trans hpre
    obtain ⟨s, hs⟩ := ih hpre0
    obtain ⟨hsound, hlevel⟩ := run_sound hnew hnest hpre0 hs
    have hcall := hnest.level hpre
    rw [← hlevel] at hcall
    obtain ⟨rc, s', hstep, hrc, -⟩ := encStep_safe hA hsound call hcall
    refine ⟨s', Run.run_snoc.mpr ⟨s, hs, ?_⟩⟩
    unfold encGranted
    rw [hstep]
    exact if_neg hrc

/-- The encoder stays inside its buffer, keeps what is written and finds zeros behind the position. -/
theorem encoder_safe (A : Talloc) (code : UInt32) (flags : UInt8) (appid hopid endid : UInt32) (req : Dm2Request)
    (hnew : dmNewPacket A code flags appid hopid endid = some (.ok, req)) (calls : List EncCall) (hnest : Nested calls)
    (pre : List EncCall) (hpre : pre <+: calls) (s : Encoder) (h : Run.run (encGranted A) ⟨req, []⟩ pre = some s) :
    s.Zeros ∧ ∀ call, pre ++ [call] <+: calls →
      ∃ rc s', encStep A s call = some (rc, s') ∧ (rc ≠ .errAlloc → Kept s call s') := by
  obtain ⟨hsound, hlevel⟩ := run_sound hnew hnest hpre h
  obtain ⟨bs, hfill⟩ := hsound.filled
  refine ⟨hfill.zeros_behind, ?_⟩
  intro call hcall
  have hnext := hnest.level hcall
  rw [← hlevel] at hnext
  rcases @encStep_cases A s hsound call hnext with ⟨rc, s', hs', -, -, -, hkept⟩ | ⟨s', hs'⟩
  · exact ⟨rc, s', hs', fun _ => hkept⟩
  · exact ⟨.errAlloc, s', hs', fun hne => absurd rfl hne⟩

end Run

/-- A group with some bytes and a word that is put later. -/
def sampleCalls : List EncCall :=
  [.newGroup 1 0, .putAvp 2 9 (some [1, 2, 3]) 3 (by simp), .addUint32GetPos 3 0 5, .putUint32AtPos 0 7, .finalizeGroup]

theorem encoder_safe_sample : ∃ req s, dmNewPacket ⟨fun _ => true, fun _ => 0⟩ 1 0 2 3 4 = some (.ok, req) ∧
    Run.run (encGranted ⟨fun _ => true, fun _ => 0⟩) ⟨req, []⟩ (sampleCalls.take 4) = some s ∧ s.Zeros ∧
    ∃ rc s', encStep ⟨fun _ => true, fun _ => 0⟩ s .finalizeGroup = some (rc, s') ∧
      (rc ≠ .errAlloc → Kept s .finalizeGroup s') := by
  have hnew := dmNewPacket_eq ⟨fun _ => true, fun _ => 0⟩ (fun _ => rfl) 1 0 2 3 4
  have hnest : Nested sampleCalls := by
    intro pre hpre
    have hle : ∀ (cs : List EncCall) l, cs.foldl EncCall.level l ≤ l + cs.length := by
      intro cs
      induction cs with
      | nil => exact fun l => le_rfl
      | cons c cs ih =>
        intro l
        have := ih (c.level l)
        have hc : c.level l ≤ l + 1 := by cases c <;> simp only [EncCall.level] <;> omega
        rw [List.foldl_cons, List.length_cons]
        omega
    have h := hle pre 0
    have hlen : pre.length ≤ 5 := hpre.length_le
    omega
  obtain ⟨s, hs⟩ := run_total (fun _ => rfl) hnew hnest (List.take_prefix 4 sampleCalls)
  obtain ⟨hzeros, hcall⟩ := encoder_safe _ 1 0 2 3 4 _ hnew sampleCalls hnest _ (List.take_prefix 4 _) s hs
  exact ⟨_, s, hnew, hs, hzeros, hcall .finalizeGroup (List.prefix_refl _)⟩

end Mand.Msg
