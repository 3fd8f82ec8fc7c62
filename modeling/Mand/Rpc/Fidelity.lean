import Mand.Rpc.Bounds
import Mand.Rpc.Reply

/-! # Reply codes

An answer under construction, from the return code at its front to the packet that is enqueued. While the
allocator grants what is asked for, the front stays as it is; after a refusal it is lost. -/
namespace Mand.Rpc
open Mand.Bytes Mand.Msg Mand.Store Mand.Notify
set_option autoImplicit false

variable {A : Talloc} {req req' : Dm2Request} {pre : List UInt8}

/-! ## Answers under construction -/

/-- The answer holds `pre`, with the front of an answer in it, and every open group begins where the one around
it stands. -/
structure Open (req : Dm2Request) (pre : List UInt8) : Prop where
  filled : Filled req pre
  front : answerFront ≤ pre.length
  chain : ∀ l < req.level, (req.grp l).pos = (req.grp (l + 1)).start ∧ 4 ∣ (req.grp l).pos ∧
    answerFront ≤ (req.grp l).pos ∧ (req.grp l).pos + 8 ≤ (req.grp (l + 1)).pos

/-- The packet was dropped. A new one begins with what the fresh memory holds. -/
structure Lost (A : Talloc) (req : Dm2Request) : Prop where
  bytes : req.packet = [] ∨ peek req.packet sizeofDmPacket 4 = some ((List.range 4).map fun i => A.fresh (sizeofDmPacket + i))
  far : ∀ l ≤ req.level, answerFront ≤ (req.grp l).pos
  starts : ∀ l < req.level, answerFront ≤ (req.grp (l + 1)).start

theorem Open.lost (h : Open req pre) (A : Talloc) : Lost A { req with packet := [] } := by
  refine ⟨.inl rfl, fun l hl => ?_, fun l hl => ?_⟩
  · rcases Nat.lt_or_eq_of_le hl with hlt | rfl
    · exact (h.chain l hlt).2.2.1
    · exact h.front.trans_eq h.filled.pos_eq.symm
  · obtain ⟨heq, -, hfar, -⟩ := h.chain l hl
    exact hfar.trans_eq heq

/-! ## Memory -/

theorem dmPacketEnsureSpace_granted (len : ℕ) (h : (req.pos + dmBlockAlloc - 1) / dmBlockAlloc ≠
      (req.pos + dmBlockAlloc - 1 + len) / dmBlockAlloc →
    A.grants ((req.pos + dmBlockAlloc - 1 + len) / dmBlockAlloc * dmBlockAlloc) = true) :
    dmPacketEnsureSpace A req len = dmPacketEnsureSpace A.granting req len := by
  unfold dmPacketEnsureSpace
  simp only
  split
  · rfl
  · rename_i hne
    rw [if_pos (h hne), if_pos (A.granting_grants _)]
    rfl

theorem dmPacketEnsureSpace_refused (len : ℕ) (h : ¬((req.pos + dmBlockAlloc - 1) / dmBlockAlloc ≠
      (req.pos + dmBlockAlloc - 1 + len) / dmBlockAlloc →
    A.grants ((req.pos + dmBlockAlloc - 1 + len) / dmBlockAlloc * dmBlockAlloc) = true)) :
    dmPacketEnsureSpace A req len = some (.errAlloc, { req with packet := [] }) := by
  obtain ⟨hne, hno⟩ := Classical.not_imp.mp h
  unfold dmPacketEnsureSpace
  simp only
  rw [if_neg hne, if_neg hno]

theorem dmPutAvp_null (data : Option Mem) :
    ¬((data.getD []).length ≠ 0 ∧ data = none) := by
  rintro ⟨h, rfl⟩
  exact h rfl

theorem dmPutAvp_granted (code vendorId : UInt32) (data : Option Mem)
    (h : (req.pos + dmBlockAlloc - 1) / dmBlockAlloc ≠
      (req.pos + dmBlockAlloc - 1 + ((data.getD []).length + 12)) / dmBlockAlloc →
      A.grants ((req.pos + dmBlockAlloc - 1 + ((data.getD []).length + 12)) / dmBlockAlloc * dmBlockAlloc) = true) :
    dmPutAvp A req code vendorId data (data.getD []).length =
      dmPutAvp A.granting req code vendorId data (data.getD []).length := by
  unfold dmPutAvp
  rw [dmPacketEnsureSpace_granted _ h]

theorem dmPutAvp_refused (code vendorId : UInt32) (data : Option Mem)
    (h : ¬((req.pos + dmBlockAlloc - 1) / dmBlockAlloc ≠
      (req.pos + dmBlockAlloc - 1 + ((data.getD []).length + 12)) / dmBlockAlloc →
      A.grants ((req.pos + dmBlockAlloc - 1 + ((data.getD []).length + 12)) / dmBlockAlloc * dmBlockAlloc) = true)) :
    dmPutAvp A req code vendorId data (data.getD []).length = some (.errAlloc, { req with packet := [] }) := by
  unfold dmPutAvp
  rw [if_neg (dmPutAvp_null data), dmPacketEnsureSpace_refused _ h]
  rfl

/-! ## Calls on an open answer -/

/-- What a call leaves of an open answer. -/
structure Grown (op : EncOp) (req : Dm2Request) (pre : List UInt8) (req' : Dm2Request) (pre' : List UInt8) : Prop where
  opened : Open req' pre'
  length_eq : pre'.length = pre.length + op.size
  front_eq : pre'.take answerFront = pre.take answerFront
  nest_eq : op.nest req.level = some req'.level

theorem put_grown (hopen : Open req pre) (code vendorId : UInt32) (data : Option Mem) :
    ∃ req' pre', dmPutAvp A.granting req code vendorId data (data.getD []).length = some (.ok, req') ∧
      Grown (.put code vendorId data) req pre req' pre' := by
  obtain ⟨req', hput, hfill, hsame⟩ := dmPutAvp_filled A.granting (fun _ => rfl) req pre code vendorId data hopen.filled
  have hlen := avpBytes_length code vendorId (data.getD [])
  refine ⟨req', _, hput, ⟨hfill, ?_, ?_⟩, ?_, ?_, ?_⟩
  · have hfront := hopen.front
    rw [List.length_append]
    omega
  · intro l hl
    rw [hsame.level_eq] at hl
    obtain ⟨heq, hdvd, hfar, hpos⟩ := hopen.chain l hl
    rw [hsame.below l hl]
    rcases Nat.lt_or_eq_of_le hl with hlt | heq'
    · rw [hsame.below (l + 1) hlt]
      exact ⟨heq, hdvd, hfar, hpos⟩
    · -- the innermost group has grown
      have hstart : (req'.grp (l + 1)).start = (req.grp (l + 1)).start := by
        rw [show l + 1 = req.level from heq', hsame.start_eq]
      have hpos1 : (req'.grp (l + 1)).pos = pre.length + (avpBytes code vendorId (data.getD [])).length := by
        have h0 := hfill.pos_eq
        rw [Dm2Request.pos, hsame.level_eq, List.length_append] at h0
        rw [show l + 1 = req.level from heq', h0]
      have hpos0 : (req.grp (l + 1)).pos = pre.length := by
        have h0 := hopen.filled.pos_eq
        rw [Dm2Request.pos] at h0
        rw [show l + 1 = req.level from heq', h0]
      exact ⟨heq.trans hstart.symm, hdvd, hfar, by omega⟩
  · rw [List.length_append, hlen, EncOp.size]
  · exact List.take_append_of_le_length hopen.front
  · rw [EncOp.nest, hsame.level_eq]

theorem newGroup_grown (hopen : Open req pre) (code vendorId : UInt32) (hlevel : req.level + 1 < grpEntries) :
    ∃ req' pre', dmNewGroup A.granting req code vendorId = some (.ok, req') ∧
      Grown (.newGroup code vendorId) req pre req' pre' := by
  obtain ⟨req', hnew, hfill, hlev, hstart, hsame⟩ :=
    dmNewGroup_filled A.granting (fun _ => rfl) req pre code vendorId hopen.filled hlevel
  have hfront := hopen.front
  have h8 := eight_le_headLen vendorId
  have hpos : (req.grp req.level).pos = pre.length := hopen.filled.pos_eq
  have hpos' : (req'.grp (req.level + 1)).pos = pre.length + headLen vendorId := by
    have h0 := hfill.pos_eq
    rw [Dm2Request.pos, hlev, List.length_append, avpHead_length] at h0
    exact h0
  refine ⟨req', _, hnew, ⟨hfill, ?_, ?_⟩, ?_, ?_, ?_⟩
  · rw [List.length_append]
    omega
  · intro l hl
    rw [hlev] at hl
    rw [hsame l (Nat.le_of_lt_succ hl)]
    rcases Nat.lt_or_eq_of_le (Nat.le_of_lt_succ hl) with hlt | rfl
    · rw [hsame (l + 1) hlt]
      exact hopen.chain l hlt
    · exact ⟨hpos.trans hstart.symm, hpos ▸ hopen.filled.aligned, hpos ▸ hfront, by omega⟩
  · rw [List.length_append, avpHead_length, EncOp.size]
  · exact List.take_append_of_le_length hfront
  · rw [EncOp.nest, if_pos hlevel, hlev]

/-- A write into the part of a buffer that is not zeros. -/
theorem poke_front (pre mid : List UInt8) (n pos : ℕ) (h : pos + mid.length ≤ pre.length) :
    poke (pre ++ List.replicate n 0) pos mid =
      some (pre.take pos ++ mid ++ pre.drop (pos + mid.length) ++ List.replicate n 0) := by
  have hsplit : pre ++ List.replicate n (0 : UInt8) = pre.take pos ++ (pre.drop pos).take mid.length ++
      (pre.drop (pos + mid.length) ++ List.replicate n 0) := by
    have h1 : (pre.drop pos).take mid.length ++ pre.drop (pos + mid.length) = pre.drop pos := by
      rw [← List.drop_drop, List.take_append_drop]
    rw [← List.append_assoc, List.append_assoc (pre.take pos), h1, List.take_append_drop]
  rw [poke_middle _ _ _ _ mid pos hsplit (by rw [List.length_take]; omega)
    (by rw [List.length_take, List.length_drop]; omega)]
  simp only [List.append_assoc]

/-- Closing a group patches three bytes behind the front; the group around it goes on at the same position. -/
theorem finalizeGroup_grown (hopen : Open req pre) :
    ∃ rc req' pre', dmFinalizeGroup req = some (rc, req') ∧ rc ≠ .errAlloc ∧ Grown .finalizeGroup req pre req' pre' := by
  by_cases h0 : req.level = 0
  · refine ⟨.errAvpMisformed, req, pre, ?_, by decide, hopen, rfl, rfl, ?_⟩
    · rw [dmFinalizeGroup, if_pos h0]
    · rw [EncOp.nest, h0]
  obtain ⟨k, hk⟩ : ∃ k, req.level = k + 1 := ⟨req.level - 1, by omega⟩
  obtain ⟨hstart, hdvd, hfar, hpos8⟩ := hopen.chain k (by omega)
  obtain ⟨n, hn⟩ := hopen.filled.zeros
  have hpos : req.pos = pre.length := hopen.filled.pos_eq
  have hposk : (req.grp (k + 1)).pos = pre.length := by
    rw [← hpos, Dm2Request.pos, hk]
  have hal := hopen.filled.aligned
  have hblocks := hopen.filled.blocks
  let mid := be 3 (pre.length - (req.grp k).pos)
  let pre' := pre.take ((req.grp k).pos + 5) ++ mid ++ pre.drop ((req.grp k).pos + 5 + mid.length)
  let req' := Dm2Request.advance { req with packet := pre' ++ List.replicate n 0, level := k }
    (pre.length - (req.grp k).pos)
  have hlen : pre'.length = pre.length := by
    simp only [pre', mid, List.length_append, List.length_take, be_length, List.length_drop]
    omega
  have hcall : dmFinalizeGroup req = some (.ok, req') := by
    have hpad : pad32 (pre.length - (req.grp k).pos) = pre.length - (req.grp k).pos :=
      pad32_of_dvd _ (Nat.dvd_sub hal hdvd)
    have hpoke := poke_front pre mid n ((req.grp k).pos + 5) (by simp only [mid, be_length]; omega)
    rw [dmFinalizeGroup, if_neg h0]
    simp only [hpos, hk, ← hstart, Nat.add_sub_cancel, hn, mid] at hpoke ⊢
    rw [hpoke, Option.bind_eq_bind, Option.bind_some, hpad]
  have hpos' : req'.pos = pre.length := by
    rw [advance_pos]
    show (req.grp k).pos + (pre.length - (req.grp k).pos) = pre.length
    omega
  have hbelow : ∀ l < k, req'.grp l = req.grp l := by
    intro l hl
    simp [req', Dm2Request.advance, Dm2Request.setGrp, Function.update_of_ne (Nat.ne_of_lt hl)]
  have hgrpk : (req'.grp k).start = (req.grp k).start ∧ (req'.grp k).pos = pre.length := by
    refine ⟨?_, hpos'⟩
    simp [req', Dm2Request.advance, Dm2Request.setGrp]
  refine ⟨.ok, req', pre', hcall, by decide, ⟨⟨⟨n, rfl⟩, hpos'.trans hlen.symm, hlen ▸ hal, ?_⟩, hlen ▸ hopen.front, ?_⟩,
    hlen, ?_, ?_⟩
  · rw [hpos'] at *
    rw [hpos, hn] at hblocks
    show _ ≤ (pre' ++ List.replicate n 0).length
    rw [List.length_append, hlen, ← List.length_append]
    exact hblocks
  · intro l hl
    have hl' : l < k := hl
    obtain ⟨heq, hd, hf, hp⟩ := hopen.chain l (by omega)
    rw [hbelow l hl']
    rcases Nat.lt_or_eq_of_le (Nat.succ_le_of_lt hl') with hlt | heq'
    · rw [hbelow (l + 1) hlt]
      exact ⟨heq, hd, hf, hp⟩
    · rw [← heq'] at hgrpk hpos8 hposk
      refine ⟨heq.trans hgrpk.1.symm, hd, hf, ?_⟩
      rw [hgrpk.2, ← hposk]
      exact hp.trans ((Nat.le_add_right _ 8).trans hpos8)
  · simp only [pre']
    rw [List.append_assoc, List.take_append_of_le_length (by rw [List.length_take]; omega), List.take_take]
    congr 1
    omega
  · rw [EncOp.nest, hk]
    rfl

/-- A request with a further group opened at its position. -/
def deeper (req : Dm2Request) : Dm2Request :=
  { req.setGrp (req.level + 1) ⟨req.pos, req.pos⟩ with level := req.level + 1 }

theorem deeper_pos (req : Dm2Request) : (deeper req).pos = req.pos := by
  simp [deeper, Dm2Request.pos, Dm2Request.setGrp]

theorem dmNewGroup_deeper (code vendorId : UInt32) (h : req.level + 1 < grpEntries) :
    dmNewGroup A req code vendorId = dmPutAvp A (deeper req) code vendorId none ((none : Option Mem).getD []).length := by
  rw [dmNewGroup, if_pos h]
  rfl

theorem Lost.deeper (h : Lost A req) : Lost A (deeper req) := by
  have hpos : answerFront ≤ req.pos := h.far req.level le_rfl
  refine ⟨h.bytes, fun l hle => ?_, fun l hlt => ?_⟩
  · rcases Nat.lt_or_eq_of_le hle with hlt | rfl
    · have hne : l ≠ req.level + 1 := Nat.ne_of_lt hlt
      simpa [Rpc.deeper, Dm2Request.setGrp, Function.update_of_ne hne] using h.far l (Nat.le_of_lt_succ hlt)
    · simpa [Rpc.deeper, Dm2Request.setGrp] using hpos
  · rcases Nat.lt_or_eq_of_le (Nat.le_of_lt_succ hlt) with hlt' | rfl
    · have hne : l + 1 ≠ req.level + 1 := by omega
      simpa [Rpc.deeper, Dm2Request.setGrp, Function.update_of_ne hne] using h.starts l hlt'
    · simpa [Rpc.deeper, Dm2Request.setGrp] using hpos

/-- The block that a call needs at `pos` is granted. -/
def EncOp.Granted (A : Talloc) (pos : ℕ) (op : EncOp) : Prop :=
  (pos + dmBlockAlloc - 1) / dmBlockAlloc ≠ (pos + dmBlockAlloc - 1 + op.need) / dmBlockAlloc →
    A.grants ((pos + dmBlockAlloc - 1 + op.need) / dmBlockAlloc * dmBlockAlloc) = true

/-- **One call.** It appends to the answer, or it loses the answer for want of memory, or it faults because there
is no further level. -/
theorem EncOp.call_cases (hopen : Open req pre) (op : EncOp) :
    (∃ rc req' pre', op.call A req = some (rc, req') ∧ Grown op req pre req' pre' ∧ op.Granted A pre.length) ∨
    (∃ rc req', op.call A req = some (rc, req') ∧ Lost A req' ∧ ¬op.Granted A pre.length) ∨
    (op.call A req = none ∧ op.nest req.level = none) := by
  have hpos := hopen.filled.pos_eq
  cases op with
  | put code vendorId data =>
    by_cases hg : EncOp.Granted A pre.length (.put code vendorId data)
    · obtain ⟨req', pre', hput, hgrown⟩ := put_grown (A := A) hopen code vendorId data
      refine .inl ⟨.ok, req', pre', ?_, hgrown, hg⟩
      rw [EncOp.call, dmPutAvp_granted code vendorId data (by rw [hpos]; exact hg), hput]
    · refine .inr (.inl ⟨_, _, dmPutAvp_refused code vendorId data (by rw [hpos]; exact hg), hopen.lost A, hg⟩)
  | newGroup code vendorId =>
    by_cases hlevel : req.level + 1 < grpEntries
    · have hp : (deeper req).pos = pre.length := (deeper_pos req).trans hpos
      by_cases hg : EncOp.Granted A pre.length (.newGroup code vendorId)
      · obtain ⟨req', pre', hnew, hgrown⟩ := newGroup_grown (A := A) hopen code vendorId hlevel
        refine .inl ⟨.ok, req', pre', ?_, hgrown, hg⟩
        rw [dmNewGroup_deeper code vendorId hlevel] at hnew
        rw [EncOp.call, dmNewGroup_deeper code vendorId hlevel, ← hnew]
        exact dmPutAvp_granted code vendorId none (by rw [hp]; exact hg)
      · refine .inr (.inl ⟨.errAlloc, _, ?_, (hopen.lost A).deeper, hg⟩)
        rw [EncOp.call, dmNewGroup_deeper code vendorId hlevel]
        exact dmPutAvp_refused code vendorId none (by rw [hp]; exact hg)
    · refine .inr (.inr ⟨?_, ?_⟩)
      · rw [EncOp.call, dmNewGroup, if_neg hlevel]
      · rw [EncOp.nest, if_neg hlevel]
  | finalizeGroup =>
    obtain ⟨rc, req', pre', hcall, -, hgrown⟩ := finalizeGroup_grown hopen
    exact .inl ⟨rc, req', pre', hcall, hgrown, fun hne => absurd rfl hne⟩

/-! ## Calls on a lost answer -/

theorem storeVendor_peek {m m' : Mem} {pos k n : ℕ} {vendorId : UInt32} (h : storeVendor m pos vendorId = some m')
    (hk : k + n ≤ pos) : peek m' k n = peek m k n := by
  unfold storeVendor at h
  split at h
  · simp only [Option.bind_eq_bind, Option.bind_eq_some_iff] at h
    obtain ⟨flags, -, m1, h1, h2⟩ := h
    rw [peek_poke h2 (.inl (by omega)), peek_poke h1 (.inl (by omega))]
  · cases h
    rfl

theorem copyPayload_peek {m m' : Mem} {d k n len : ℕ} {data : Option Mem} (h : copyPayload m d data len = some m')
    (hk : k + n ≤ d) : peek m' k n = peek m k n := by
  unfold copyPayload at h
  split at h
  · split at h
    · exact peek_poke h (.inl hk)
    · cases h
  · cases h
    rfl

/-- An AVP is not stored in a null packet, and nothing in front of it changes. -/
theorem storeAvp_peek {m m' : Mem} {pos k n len : ℕ} {code vendorId : UInt32} {data : Option Mem}
    (h : storeAvp m pos code vendorId data len = some m') (hk : k + n ≤ pos) :
    m ≠ [] ∧ peek m' k n = peek m k n := by
  simp only [storeAvp, Option.bind_eq_bind, Option.bind_eq_some_iff] at h
  obtain ⟨m1, h1, m2, h2, m3, h3, h4⟩ := h
  refine ⟨?_, ?_⟩
  · rintro rfl
    have hle := (poke_length h1).1
    simp at hle
  · have hd : k + n ≤ if vendorId ≠ 0 then pos + 12 else pos + 8 := by
      split <;> omega
    rw [peek_poke h4 (.inl (by omega)), copyPayload_peek h3 hd, storeVendor_peek h2 hk, peek_poke h1 (.inl hk)]

theorem realloc_peek_nil (A : Talloc) {n k w : ℕ} (h : k + w ≤ n) :
    peek (A.realloc [] n) k w = some ((List.range w).map fun i => A.fresh (k + i)) := by
  have hlen : (A.realloc [] n).length = n := by simp [Talloc.realloc]
  rw [peek_some _ _ _ (h.trans_eq hlen.symm)]
  congr 1
  refine List.ext_getElem? fun i => ?_
  by_cases hi : i < w
  · have hki : k + i < n := by omega
    simp [Talloc.realloc, hi, hki]
  · simp [hi]

theorem realloc_peek (A : Talloc) {m bs : List UInt8} {n k w : ℕ} (hm : peek m k w = some bs) (h : k + w ≤ n) :
    peek (A.realloc m n) k w = some bs := by
  obtain ⟨hle, rfl, -⟩ := peek_eq_some hm
  have hlen : k + w ≤ (A.realloc m n).length := by
    simp only [Talloc.realloc, List.length_append, List.length_take, List.length_map, List.length_range]
    omega
  rw [peek_some _ _ _ hlen]
  congr 1
  refine List.ext_getElem? fun i => ?_
  by_cases hi : i < w
  · rw [List.getElem?_take_of_lt hi, List.getElem?_take_of_lt hi, List.getElem?_drop, List.getElem?_drop, Talloc.realloc,
      List.getElem?_append_left (by rw [List.length_take]; omega), List.getElem?_take_of_lt (by omega)]
  · rw [List.getElem?_take_eq_none (by omega), List.getElem?_take_eq_none (by omega)]

theorem Lost.ensureSpace {rc : Rc} {len : ℕ} (h : Lost A req) (hcall : dmPacketEnsureSpace A req len = some (rc, req')) :
    Lost A req' ∧ req'.grp = req.grp ∧ req'.level = req.level := by
  have hpos : answerFront ≤ req.pos := h.far req.level le_rfl
  unfold dmPacketEnsureSpace at hcall
  simp only at hcall
  split at hcall
  · cases hcall
    exact ⟨h, rfl, rfl⟩
  rename_i hne
  split at hcall
  · simp only [Option.bind_eq_bind, Option.bind_eq_some_iff] at hcall
    obtain ⟨packet, hpoke, hcall⟩ := hcall
    cases hcall
    refine ⟨⟨.inr ?_, h.far, h.starts⟩, rfl, rfl⟩
    unfold answerFront at hpos
    -- the cleared part is behind the first block
    rw [peek_poke hpoke (.inl (by unfold sizeofDmPacket dmBlockAlloc; omega))]
    have hblock : sizeofDmPacket + 4 ≤ (req.pos + dmBlockAlloc - 1 + len) / dmBlockAlloc * dmBlockAlloc := by
      unfold sizeofDmPacket dmBlockAlloc at *
      omega
    rcases h.bytes with hnil | hpeek
    · rw [hnil]
      exact realloc_peek_nil A hblock
    · exact realloc_peek A hpeek hblock
  · cases hcall
    exact ⟨⟨.inl rfl, h.far, h.starts⟩, rfl, rfl⟩

/-- A packet that was changed behind the front, with a position that has moved on. -/
theorem Lost.moved (h : Lost A req) {m : Mem} (n : ℕ) (hnil : req.packet ≠ [])
    (hpeek : peek m sizeofDmPacket 4 = peek req.packet sizeofDmPacket 4) :
    Lost A (Dm2Request.advance { req with packet := m } n) := by
  have hsame := advance_sameGroups req m n
  have hpos : answerFront ≤ req.pos := h.far req.level le_rfl
  refine ⟨.inr ?_, fun l hle => ?_, fun l hlt => ?_⟩
  · show peek m sizeofDmPacket 4 = _
    rw [hpeek]
    exact h.bytes.resolve_left hnil
  · rcases Nat.lt_or_eq_of_le hle with hlt | rfl
    · rw [hsame.below l hlt]
      exact h.far l hle
    · refine hpos.trans ?_
      show req.pos ≤ (Dm2Request.advance { req with packet := m } n).pos
      rw [advance_pos]
      exact Nat.le_add_right _ _
  · have hlt' : l < req.level := hlt
    rcases Nat.lt_or_eq_of_le (Nat.succ_le_of_lt hlt') with hlt2 | heq
    · rw [hsame.below (l + 1) hlt2]
      exact h.starts l hlt'
    · rw [show l + 1 = req.level from heq, hsame.start_eq, ← heq]
      exact h.starts l hlt'

theorem Lost.putAvp {rc : Rc} {code vendorId : UInt32} {data : Option Mem} (h : Lost A req)
    (hcall : dmPutAvp A req code vendorId data (data.getD []).length = some (rc, req')) : Lost A req' := by
  rw [dmPutAvp, if_neg (dmPutAvp_null data)] at hcall
  cases hspace : dmPacketEnsureSpace A req ((data.getD []).length + 12) with
  | none =>
    rw [hspace] at hcall
    cases hcall
  | some x =>
    obtain ⟨rc1, req1⟩ := x
    obtain ⟨hlost, -, -⟩ := h.ensureSpace hspace
    rw [hspace] at hcall
    cases rc1 with
    | ok =>
      simp only [Call.andThen, Option.bind_eq_bind, Option.bind_eq_some_iff] at hcall
      obtain ⟨m, hm, hcall⟩ := hcall
      cases hcall
      have hpos : answerFront ≤ req1.pos := hlost.far req1.level le_rfl
      unfold answerFront at hpos
      obtain ⟨hnil, hpeek⟩ := storeAvp_peek (k := sizeofDmPacket) (n := 4) hm (by unfold sizeofDmPacket; omega)
      exact hlost.moved _ hnil hpeek
    | _ =>
      cases hcall
      exact hlost

theorem Lost.finalizeGroup {rc : Rc} (h : Lost A req) (hcall : dmFinalizeGroup req = some (rc, req')) : Lost A req' := by
  unfold dmFinalizeGroup at hcall
  split at hcall
  · cases hcall
    exact h
  rename_i h0
  simp only [Option.bind_eq_bind, Option.bind_eq_some_iff] at hcall
  obtain ⟨packet, hpoke, hcall⟩ := hcall
  cases hcall
  obtain ⟨k, hk⟩ : ∃ k, req.level = k + 1 := ⟨req.level - 1, by omega⟩
  have hstart := h.starts k (by omega)
  unfold answerFront at hstart
  have hnil : req.packet ≠ [] := by
    intro hnil
    have hle := (poke_length hpoke).1
    rw [hnil] at hle
    simp at hle
  have hup : Lost A { req with level := req.level - 1 } :=
    ⟨h.bytes, fun l hle => h.far l (hle.trans (Nat.sub_le _ _)), fun l hlt => h.starts l (lt_of_lt_of_le hlt (Nat.sub_le _ _))⟩
  refine hup.moved _ hnil (peek_poke hpoke (.inl ?_))
  rw [hk]
  unfold sizeofDmPacket
  omega

/-- A lost answer stays lost. -/
theorem Lost.call {rc : Rc} (h : Lost A req) (op : EncOp) (hcall : op.call A req = some (rc, req')) : Lost A req' := by
  cases op with
  | put code vendorId data => exact h.putAvp hcall
  | newGroup code vendorId =>
    rw [EncOp.call] at hcall
    by_cases hlevel : req.level + 1 < grpEntries
    · rw [dmNewGroup_deeper code vendorId hlevel] at hcall
      exact h.deeper.putAvp hcall
    · rw [dmNewGroup, if_neg hlevel] at hcall
      cases hcall
  | finalizeGroup => exact h.finalizeGroup hcall

theorem Lost.runOps (h : Lost A req) (ops : List EncOp) (hrun : Rpc.runOps A ops req = some req') : Lost A req' := by
  induction ops generalizing req with
  | nil =>
    cases hrun
    exact h
  | cons op ops ih =>
    rw [Rpc.runOps, Option.bind_eq_some_iff] at hrun
    obtain ⟨⟨rc, req1⟩, hcall, hrun⟩ := hrun
    exact ih (h.call op hcall) hrun

/-! ## All calls -/

/-- What the calls leave of an open answer. -/
structure Built (ops : List EncOp) (req : Dm2Request) (pre : List UInt8) (req' : Dm2Request) (pre' : List UInt8) : Prop where
  opened : Open req' pre'
  length_eq : pre'.length = pre.length + contentSize ops
  front_eq : pre'.take answerFront = pre.take answerFront
  nesting_eq : nesting req.level ops = some req'.level

/-- **All calls.** The answer is built with all memory and levels granted, or it is lost. -/
theorem runOps_cases (hopen : Open req pre) (ops : List EncOp) :
    (∃ req' pre', runOps A ops req = some req' ∧ Built ops req pre req' pre' ∧ Granted A pre.length ops) ∨
      ((∀ req', runOps A ops req = some req' → Lost A req') ∧
        ¬(Granted A pre.length ops ∧ ∃ d, nesting req.level ops = some d)) := by
  induction ops generalizing req pre with
  | nil => exact .inl ⟨req, pre, rfl, ⟨hopen, rfl, rfl, rfl⟩, trivial⟩
  | cons op ops ih =>
    rcases EncOp.call_cases (A := A) hopen op with ⟨rc, req1, pre1, hcall, hgrown, hg⟩ |
      ⟨rc, req1, hcall, hlost, hg⟩ | ⟨hcall, hnest⟩
    · have hrun : runOps A (op :: ops) req = runOps A ops req1 := by
        rw [runOps, hcall]
        rfl
      have hnest : nesting req.level (op :: ops) = nesting req1.level ops := by
        rw [nesting, List.foldlM_cons, hgrown.nest_eq]
        rfl
      have hgranted : Granted A pre.length (op :: ops) ↔ Granted A pre1.length ops := by
        rw [Granted, ← hgrown.length_eq]
        exact and_iff_right hg
      rw [hrun, hnest, hgranted]
      rcases ih hgrown.opened with ⟨req2, pre2, hrun2, hbuilt, hg2⟩ | hlost
      · refine .inl ⟨req2, pre2, hrun2, ⟨hbuilt.opened, ?_, hbuilt.front_eq.trans hgrown.front_eq, ?_⟩, hg2⟩
        · rw [hbuilt.length_eq, hgrown.length_eq, contentSize, contentSize, List.map_cons, List.sum_cons, Nat.add_assoc]
        · rw [hnest]
          exact hbuilt.nesting_eq
      · exact .inr hlost
    · refine .inr ⟨fun req' hrun => ?_, fun h => hg h.1.1⟩
      rw [runOps, hcall] at hrun
      exact hlost.runOps ops hrun
    · refine .inr ⟨fun req' hrun => ?_, ?_⟩
      · rw [runOps, hcall] at hrun
        cases hrun
      · rintro ⟨-, d, hd⟩
        rw [nesting, List.foldlM_cons, hnest] at hd
        cases hd

/-! ## The packet that goes out -/

theorem dmExpectRaw_code {grp grp' : Dm2AvpGrp} {avp : AvpRef} {code vendorId : UInt32}
    (h : dmExpectRaw grp code vendorId = some (.ok avp, grp')) : (peek grp.data grp.pos 4).map ntohl = some code := by
  unfold dmExpectRaw at h
  obtain ⟨⟨r, g⟩, hr, h⟩ := Option.bind_eq_some_iff.mp h
  cases r with
  | error rc => cases h
  | ok avp' =>
    simp only at h
    split at h
    · cases h
    · rename_i hcode
      cases h
      rw [not_or, not_not] at hcode
      rw [← hcode.1]
      exact dmExpectAvp_code hr

/-- A number is read only behind its code. -/
theorem dmExpectUint32_code {grp grp' : Dm2AvpGrp} {code n : UInt32} (h : dmExpectUint32 code grp = .ok (.ok n, grp')) :
    (peek grp.data grp.pos 4).map ntohl = some code := by
  rcases bind_ok h with ⟨rc, hr, -⟩ | ⟨k, g, hnum, -⟩
  · cases hr
  unfold dmExpectNumber at hnum
  split at hnum
  · cases hnum
  · cases hnum
  · rename_i data g1 hbin
    rcases bind_ok hbin with ⟨rc, hr, -⟩ | ⟨avp, g2, hraw, -⟩
    · cases hr
    · exact dmExpectRaw_code (call_ok hraw)

/-- The header of a packet says how long it is. -/
theorem packetHead_dmPacketLength (packet back : Mem) (code : UInt32) (flags : UInt8) (appid hopid endid : UInt32)
    (len : ℕ) (h : packet = packetHead code flags appid hopid endid len ++ back) :
    dmPacketLength packet = some (len % 2 ^ 24) := by
  have h0 := peek_middle packet [1] (be 3 len) ([flags] ++ be 3 code.toNat ++ be 4 appid.toNat ++ be 4 hopid.toNat ++
    be 4 endid.toNat ++ back) 1 3 (by rw [h]; simp only [packetHead, List.append_assoc]) rfl (by simp)
  rw [dmPacketLength, h0, Option.map_some, ofBe_be]
  rfl

/-- The first number of a group, whatever stands behind it. -/
theorem dmExpectUint32_first (code n : UInt32) (back : Mem) (size : ℕ) (hsize : 16 ≤ size) (hmax : size < 2 ^ 64) :
    ∃ grp', dmExpectUint32 code (dmInitAvpgrp (avpBytes code vpTravelping (be 4 n.toNat) ++ back) size) =
      .ok (.ok n, grp') := by
  have hbytes : avpBytes code vpTravelping (be 4 n.toNat) ++ back =
      [] ++ avpHead code vpTravelping (headLen vpTravelping + (be 4 n.toNat).length) ++ be 4 n.toNat ++ back := by
    rw [avpBytes, be_length]
    exact congrArg (· ++ back) (List.append_nil _)
  have havp := dmExpectAvp_head (dmInitAvpgrp (avpBytes code vpTravelping (be 4 n.toNat) ++ back) size) []
    (be 4 n.toNat) back code vpTravelping hbytes rfl (by rw [be_length]; decide) (by rw [be_length]; exact hsize) hmax
  have hpeek : ∀ pos, payload ⟨code, vpTravelping, ([] : List UInt8).length + headLen vpTravelping, (be 4 n.toNat).length⟩
      ⟨avpBytes code vpTravelping (be 4 n.toNat) ++ back, size, pos⟩ =
        .ok (.ok (be 4 n.toNat), ⟨avpBytes code vpTravelping (be 4 n.toNat) ++ back, size, pos⟩) := by
    intro pos
    have hdrop : (avpBytes code vpTravelping (be 4 n.toNat) ++ back).drop (([] : List UInt8).length + headLen vpTravelping) =
        be 4 n.toNat ++ back := by
      rw [hbytes, List.append_assoc, List.drop_left' (by rw [List.nil_append, avpHead_length]; rfl)]
    refine payload_of_drop hdrop ?_
    show _ ≤ (avpBytes code vpTravelping (be 4 n.toNat) ++ back).length
    rw [hbytes]
    simp only [List.length_append, avpHead_length]
    omega
  have hbin : ∃ grp', dmExpectBin code (dmInitAvpgrp (avpBytes code vpTravelping (be 4 n.toNat) ++ back) size) =
      .ok (.ok (be 4 n.toNat), grp') := by
    refine ⟨⟨avpBytes code vpTravelping (be 4 n.toNat) ++ back, size,
      ([] : List UInt8).length + pad32 (headLen vpTravelping + (be 4 n.toNat).length)⟩, ?_⟩
    show Expect.bind (call fun grp => dmExpectRaw grp code vpTravelping) _ _ = _
    simp only [Expect.bind, call, dmExpectRaw, havp, Option.bind_eq_bind, Option.bind_some, ne_eq, not_true, or_self,
      if_false]
    exact hpeek _
  obtain ⟨grp', hbin⟩ := hbin
  refine ⟨grp', ?_⟩
  show Expect.bind (dmExpectNumber code 4) _ _ = _
  simp only [Expect.bind, dmExpectNumber, hbin, be_length, if_true, ofBe_be_of_lt 4 n.toNat n.toNat_lt, UInt32.ofNat_toNat]
  rfl

/-- The front of an answer with its length field and its return code. -/
def answerHead (req : DmcRequest) (len : ℕ) (rc : UInt32) : List UInt8 :=
  packetHead req.code 0 appId req.hop2hop req.end2end len ++ avpBytes avpRc vpTravelping (be 4 rc.toNat)

theorem answerHead_length (req : DmcRequest) (len : ℕ) (rc : UInt32) : (answerHead req len rc).length = answerFront := by
  rw [answerHead, List.length_append, packetHead_length, avpBytes_length, be_length]
  rfl

/-- Which answers are complete, and with which return code. -/
theorem complete_iff (dmc : DmcRequest) (answer : Dm2Request) (len : ℕ) (rc rc' : UInt32) (back : Mem)
    (hpacket : answer.packet = answerHead dmc len rc ++ back) (hpos : answerFront ≤ answer.pos)
    (hlen : len = answer.pos ∨ len = sizeofDmPacket) :
    Complete answer rc' ↔ len = answer.pos ∧ answer.pos < 2 ^ 24 ∧ rc' = rc := by
  unfold answerFront at hpos
  have hlength : dmPacketLength answer.packet = some (len % 2 ^ 24) :=
    packetHead_dmPacketLength answer.packet (avpBytes avpRc vpTravelping (be 4 rc.toNat) ++ back) dmc.code 0 appId
      dmc.hop2hop dmc.end2end len (by rw [hpacket, answerHead, List.append_assoc])
  have hiff : dmPacketLength answer.packet = some answer.pos ↔ len = answer.pos ∧ answer.pos < 2 ^ 24 := by
    rw [hlength, Option.some.injEq]
    have hmod := Nat.mod_lt len (show 0 < 2 ^ 24 by decide)
    constructor
    · intro h
      rcases hlen with rfl | rfl
      · exact ⟨rfl, h ▸ hmod⟩
      · exfalso
        unfold sizeofDmPacket at h
        omega
    · rintro ⟨h1, h2⟩
      rw [h1, Nat.mod_eq_of_lt h2]
  rw [Complete, hiff, and_assoc]
  refine and_congr_right fun h1 => and_congr_right fun h2 => ?_
  have hsize : sizeT (answer.pos + 2 ^ 64 - sizeofDmPacket) = answer.pos - sizeofDmPacket := by
    unfold sizeT sizeofDmPacket
    omega
  have hinit : dmInitPacket answer.packet =
      some (dmInitAvpgrp (answer.packet.drop sizeofDmPacket) (answer.pos - sizeofDmPacket)) := by
    rw [dmInitPacket, hiff.mpr ⟨h1, h2⟩, Option.bind_eq_bind, Option.bind_some, hsize]
  have hdrop : answer.packet.drop sizeofDmPacket = avpBytes avpRc vpTravelping (be 4 rc.toNat) ++ back := by
    rw [hpacket, answerHead, List.append_assoc, List.drop_left' (packetHead_length _ _ _ _ _ _)]
  obtain ⟨grp', hread⟩ := dmExpectUint32_first avpRc rc back (answer.pos - sizeofDmPacket)
    (by unfold sizeofDmPacket; omega) (by omega)
  rw [hinit, hdrop]
  constructor
  · rintro ⟨grp1, grp2, hgrp, hread'⟩
    cases hgrp
    rw [hread] at hread'
    cases hread'
    rfl
  · rintro rfl
    exact ⟨_, grp', rfl, hread⟩

theorem rcBytes_eq (rc : UInt32) :
    avpBytes avpRc vpTravelping (be 4 rc.toNat) = avpHead avpRc vpTravelping 16 ++ be 4 rc.toNat := by
  rw [avpBytes, be_length]
  exact List.append_nil _

/-- The return code and the length are patched into the front. -/
theorem fillIn_eq (dmc : DmcRequest) (rc : UInt32) (hopen : Open req pre)
    (hfront : pre.take answerFront = answerHead dmc sizeofDmPacket (rcWord .ok)) :
    ∃ rc' answer back, fillIn 32 rc req = some (rc', answer) ∧ rc' ≠ .errAlloc ∧ answer.pos = pre.length ∧
      answer.packet = answerHead dmc (if req.level = 0 then pre.length else sizeofDmPacket) rc ++ back := by
  obtain ⟨n, hn⟩ := hopen.filled.zeros
  have hpos : req.pos = pre.length := hopen.filled.pos_eq
  let head := packetHead dmc.code 0 appId dmc.hop2hop dmc.end2end
  let back := pre.drop answerFront ++ List.replicate n 0
  have hpacket : req.packet = (head sizeofDmPacket ++ avpHead avpRc vpTravelping 16) ++ be 4 (rcWord .ok).toNat ++ back := by
    rw [hn, ← List.take_append_drop answerFront pre, hfront, answerHead, rcBytes_eq]
    simp only [head, back, List.append_assoc]
  have hpoke := poke_middle req.packet _ _ _ (be 4 rc.toNat) 32 hpacket
    (by rw [List.length_append, packetHead_length, avpHead_length]; rfl) (by rw [be_length, be_length])
  have hdone : head sizeofDmPacket ++ avpHead avpRc vpTravelping 16 ++ be 4 rc.toNat ++ back =
      answerHead dmc sizeofDmPacket rc ++ back := by
    rw [answerHead, rcBytes_eq]
    simp only [head, List.append_assoc]
  rw [hdone] at hpoke
  simp only [fillIn, hpoke, Option.bind_eq_bind, Option.bind_some]
  by_cases h0 : req.level = 0
  · have hlen := poke_middle (answerHead dmc sizeofDmPacket rc ++ back) [1] (be 3 sizeofDmPacket)
      ([0] ++ be 3 dmc.code.toNat ++ be 4 appId.toNat ++ be 4 dmc.hop2hop.toNat ++ be 4 dmc.end2end.toNat ++
        avpBytes avpRc vpTravelping (be 4 rc.toNat) ++ back) (be 3 pre.length) 1
      (by simp only [answerHead, packetHead, List.append_assoc]) rfl (by rw [be_length, be_length])
    have hgrp : (req.grp 0).pos = pre.length := by
      rw [← hpos, Dm2Request.pos, h0]
    refine ⟨.ok, { req with packet := answerHead dmc pre.length rc ++ back }, back, ?_, by decide, hpos, ?_⟩
    · rw [dmFinalizePacket, if_neg (not_not.mpr h0)]
      simp only [hgrp, hlen, Option.bind_eq_bind, Option.bind_some]
      congr 3
    · rw [if_pos h0]
  · refine ⟨.errAvpMisformed, { req with packet := answerHead dmc sizeofDmPacket rc ++ back }, back, ?_, by decide, hpos, ?_⟩
    · rw [dmFinalizePacket, if_pos h0]
    · rw [if_neg h0]

/-- Nothing brings back the front of a lost answer. -/
theorem Lost.not_complete (h : Lost A req) (hfresh : ntohl ((List.range 4).map fun i => A.fresh (sizeofDmPacket + i)) ≠ avpRc)
    (rc rc' : UInt32) (code : Rc) (answer : Dm2Request) (hfill : fillIn 32 rc req = some (code, answer)) :
    ¬Complete answer rc' := by
  rintro ⟨-, grp, grp', hinit, hread⟩
  simp only [fillIn, Option.bind_eq_bind, Option.bind_eq_some_iff] at hfill
  obtain ⟨packet, hpoke, hfin⟩ := hfill
  have hnil : req.packet ≠ [] := by
    intro hnil
    have hle := (poke_length hpoke).1
    rw [hnil] at hle
    simp at hle
  have hpeek : peek packet sizeofDmPacket 4 = some ((List.range 4).map fun i => A.fresh (sizeofDmPacket + i)) := by
    rw [peek_poke hpoke (.inl (by decide))]
    exact h.bytes.resolve_left hnil
  have hpeek' : peek answer.packet sizeofDmPacket 4 = peek packet sizeofDmPacket 4 := by
    unfold dmFinalizePacket at hfin
    split at hfin
    · cases hfin
      rfl
    · simp only [Option.bind_eq_bind, Option.bind_eq_some_iff] at hfin
      obtain ⟨packet', hpoke', hfin⟩ := hfin
      cases hfin
      exact peek_poke hpoke' (.inr (by rw [be_length]; decide))
  have hcode := dmExpectUint32_code hread
  simp only [dmInitPacket, Option.bind_eq_bind, Option.bind_eq_some_iff] at hinit
  obtain ⟨length, -, hinit⟩ := hinit
  cases hinit
  have hshift : peek (answer.packet.drop sizeofDmPacket) 0 4 = peek answer.packet sizeofDmPacket 4 := by
    rw [hpeek'.trans hpeek]
    obtain ⟨hle, heq, -⟩ := peek_eq_some (hpeek'.trans hpeek)
    rw [peek_some _ _ _ (by rw [List.length_drop]; omega), heq, List.drop_zero]
  simp only [dmInitAvpgrp] at hcode
  rw [hshift, hpeek', hpeek, Option.map_some] at hcode
  exact hfresh (Option.some.inj hcode)

/-! ## Requests -/

/-- An answer as the implementation functions get it. -/
theorem answer_open (hreq : A.grants sizeofDm2Request = true) (hblock : A.grants dmBlockAlloc = true) (dmc : DmcRequest) :
    ∃ answer answer', dmNewRequest A dmc.code 0 dmc.hop2hop dmc.end2end = some (some answer) ∧
      dmPutAvp A answer avpRc vpTravelping (some (be 4 (rcCode .ok))) 4 = some (.ok, answer') ∧
      answer.pos = sizeofDmPacket ∧ answer'.level = 0 ∧ Open answer' (answerHead dmc sizeofDmPacket (rcWord .ok)) := by
  rcases dmNewPacket_cases A dmc.code 0 appId dmc.hop2hop dmc.end2end with ⟨answer, hnew, hfill, hlevel⟩ | ⟨req, hnew⟩
  · have hpos : answer.pos = sizeofDmPacket := by
      rw [hfill.pos_eq, packetHead_length]
    obtain ⟨answer', hput, hfill', hsame⟩ := dmPutAvp_filled A.granting (fun _ => rfl) answer _ avpRc vpTravelping
      (some (be 4 (rcCode .ok))) hfill
    have hspace : dmPutAvp A answer avpRc vpTravelping (some (be 4 (rcCode .ok))) 4 = some (.ok, answer') := by
      rw [← hput]
      refine dmPutAvp_granted avpRc vpTravelping (some (be 4 (rcCode .ok))) fun hne => absurd ?_ hne
      rw [hpos]
      rfl
    refine ⟨answer, answer', ?_, hspace, hpos, hsame.level_eq.trans hlevel, hfill', ?_, ?_⟩
    · rw [dmNewRequest, if_pos hreq, hnew]
    · exact (answerHead_length dmc sizeofDmPacket (rcWord .ok)).ge
    · intro l hl
      rw [hsame.level_eq, hlevel] at hl
      exact absurd hl (Nat.not_lt_zero l)
  · exfalso
    unfold dmNewPacket at hnew
    simp only [if_pos hblock, Option.bind_eq_bind, Option.bind_eq_some_iff] at hnew
    obtain ⟨_, _, _, _, _, _, _, _, _, _, _, _, _, _, hnew⟩ := hnew
    cases hnew

/-- The three commands whose return code is not recorded. -/
def Forgotten (code : UInt32) : Prop :=
  Command.ofCode code = some .firmwareDownload ∨ Command.ofCode code = some .firmwareCommit ∨
    Command.ofCode code = some .setBootOrder

theorem assigned_eq_iff (code rc : UInt32) : assigned code rc = rc ↔ (Forgotten code → rc = rcWord .ok) := by
  unfold assigned Forgotten
  cases Command.ofCode code with
  | none => simp
  | some c => cases c <;> simp [eq_comm]

theorem assigned_ne_alloc (code rc : UInt32) (h : rc ≠ rcWord .errAlloc) : assigned code rc ≠ rcWord .errAlloc := by
  unfold assigned
  split
  · decide
  · decide
  · decide
  · exact h

theorem rcWord_ne_alloc (rc : Rc) (h : rc ≠ .errAlloc) : rcWord rc ≠ rcWord .errAlloc := by
  cases rc <;> first | exact absurd rfl h | decide

section Requests
variable (S : Schema) (impl : Impl) (dmc : DmcRequest) (obj : Dm2AvpGrp)

/-- The answer of `request_cb` from the one that the implementation function was given. -/
theorem requestCb_eq (hreq : A.grants sizeofDm2Request = true) (hblock : A.grants dmBlockAlloc = true)
    (hcode : dmc.code ≠ Command.code .endsession) (ops : List EncOp) (rc : UInt32)
    (hskel : callSkel A S impl dmc.code obj = .ok (ops, rc)) (hrc : rc ≠ rcWord .errAlloc) :
    ∃ answer, answer.level = 0 ∧ Open answer (answerHead dmc sizeofDmPacket (rcWord .ok)) ∧
      ∀ reply, requestCb A S impl dmc obj = .ok (some reply) ↔
        ∃ answer' code, runOps A ops answer = some answer' ∧
          fillIn 32 (assigned dmc.code rc) answer' = some (code, reply) ∧ code ≠ .errAlloc := by
  obtain ⟨answer, answer', hnew, hput, hpos, hlevel, hopen⟩ := answer_open hreq hblock dmc
  refine ⟨answer', hlevel, hopen, fun reply => ?_⟩
  have hswitch : rpcDmconfigSwitch A S impl dmc obj = answerWith A S impl dmc.code obj 32 answer' := by
    rw [rpcDmconfigSwitch, if_neg hcode]
    simp only [hnew, hput, hpos]
    rfl
  simp only [requestCb, hswitch, answerWith, hskel]
  cases hrun : runOps A ops answer' with
  | none => simp
  | some built =>
    simp only [finish, if_neg (assigned_ne_alloc dmc.code rc hrc), Option.some.injEq]
    cases hfill : fillIn 32 (assigned dmc.code rc) built with
    | none => simp [hfill]
    | some x =>
      obtain ⟨code, out⟩ := x
      by_cases halloc : code = .errAlloc
      · simp [halloc, hfill]
      · simp only [if_neg (rcWord_ne_alloc code halloc), Except.ok.injEq, Option.some.injEq]
        constructor
        · rintro rfl
          exact ⟨built, code, rfl, hfill, halloc⟩
        · rintro ⟨built', code', rfl, hfill', -⟩
          rw [hfill] at hfill'
          cases hfill'
          rfl

/-- With all memory and levels granted, the reply is complete if no group is open and the length fits, and it
carries the code that was assigned. -/
theorem fidelity_granted (hreq : A.grants sizeofDm2Request = true) (hblock : A.grants dmBlockAlloc = true)
    (hcode : dmc.code ≠ Command.code .endsession) (ops : List EncOp) (rc : UInt32)
    (hskel : callSkel A S impl dmc.code obj = .ok (ops, rc)) (hrc : rc ≠ rcWord .errAlloc)
    (hgranted : Granted A answerFront ops) (d : ℕ) (hnest : nesting 0 ops = some d) :
    Fidelity A S impl dmc obj rc ↔ d = 0 ∧ answerFront + contentSize ops < 2 ^ 24 ∧ assigned dmc.code rc = rc := by
  obtain ⟨answer, hlevel, hopen, hreply⟩ := requestCb_eq S impl dmc obj hreq hblock hcode ops rc hskel hrc
  have hlen := answerHead_length dmc sizeofDmPacket (rcWord .ok)
  rcases runOps_cases (A := A) hopen ops with ⟨built, pre, hrun, hbuilt, -⟩ | ⟨-, hno⟩
  · have hsize : pre.length = answerFront + contentSize ops := by
      rw [hbuilt.length_eq, hlen]
    have hfront : pre.take answerFront = answerHead dmc sizeofDmPacket (rcWord .ok) := by
      rw [hbuilt.front_eq, List.take_of_length_le hlen.le]
    obtain ⟨code, reply, back, hfill, hne, hpos, hpacket⟩ :=
      fillIn_eq dmc (assigned dmc.code rc) hbuilt.opened hfront
    have hcomplete := complete_iff dmc reply _ (assigned dmc.code rc) rc back hpacket
      (hpos.symm ▸ hbuilt.opened.front) (by rw [hpos]; split <;> simp)
    have hd : d = built.level := by
      have h0 := hbuilt.nesting_eq
      rw [hlevel, hnest] at h0
      exact Option.some.inj h0
    have hfid : Fidelity A S impl dmc obj rc ↔ Complete reply rc := by
      constructor
      · rintro ⟨reply', hcb, hcomp⟩
        obtain ⟨built', code', hrun', hfill', -⟩ := (hreply reply').mp hcb
        rw [hrun] at hrun'
        cases hrun'
        rw [hfill] at hfill'
        cases hfill'
        exact hcomp
      · exact fun hcomp => ⟨reply, (hreply reply).mpr ⟨built, code, hrun, hfill, hne⟩, hcomp⟩
    have hopen0 : (if built.level = 0 then pre.length else sizeofDmPacket) = reply.pos ↔ built.level = 0 := by
      have hfront := hbuilt.opened.front
      rw [hpos]
      unfold answerFront at hfront
      unfold sizeofDmPacket
      split
      · exact iff_of_true rfl ‹_›
      · refine iff_of_false ?_ ‹_›
        omega
    rw [hfid, hcomplete, hopen0, hpos, hsize, hd, eq_comm (b := assigned dmc.code rc)]
  · rw [hlevel, hlen] at hno
    exact absurd ⟨hgranted, d, hnest⟩ hno

/-- Without a block or a level that it needs, the reply is lost. -/
theorem fidelity_refused (hreq : A.grants sizeofDm2Request = true) (hblock : A.grants dmBlockAlloc = true)
    (hcode : dmc.code ≠ Command.code .endsession) (ops : List EncOp) (rc : UInt32)
    (hskel : callSkel A S impl dmc.code obj = .ok (ops, rc)) (hrc : rc ≠ rcWord .errAlloc)
    (hfresh : ntohl ((List.range 4).map fun i => A.fresh (sizeofDmPacket + i)) ≠ avpRc)
    (hfid : Fidelity A S impl dmc obj rc) : Granted A answerFront ops ∧ ∃ d, nesting 0 ops = some d := by
  obtain ⟨answer, hlevel, hopen, hreply⟩ := requestCb_eq S impl dmc obj hreq hblock hcode ops rc hskel hrc
  have hlen := answerHead_length dmc sizeofDmPacket (rcWord .ok)
  rcases runOps_cases (A := A) hopen ops with ⟨built, pre, -, hbuilt, hgranted⟩ | ⟨hlost, -⟩
  · rw [hlen] at hgranted
    have hnest := hbuilt.nesting_eq
    rw [hlevel] at hnest
    exact ⟨hgranted, built.level, hnest⟩
  · obtain ⟨reply, hcb, hcomp⟩ := hfid
    obtain ⟨built, code, hrun, hfill, -⟩ := (hreply reply).mp hcb
    exact absurd hcomp ((hlost built hrun).not_complete hfresh _ rc code reply hfill)

/-- What an implementation function has to do for its return code to get out. -/
structure WellReplied (A : Talloc) (code : UInt32) (ops : List EncOp) (rc : UInt32) : Prop where
  /-- the allocator grants every block -/
  granted : Granted A answerFront ops
  /-- every group is closed -/
  closed : nesting 0 ops = some 0
  /-- the length fits into its field -/
  fits : answerFront + contentSize ops < 2 ^ 24
  /-- the code is recorded -/
  recorded : Forgotten code → rc = rcWord .ok

/-- **Reply code fidelity.** A reply is complete and carries the return code of the skeleton if the
implementation function replies well, and only then, unless fresh memory happens to hold what was lost. -/
theorem reply_fidelity (hreq : A.grants sizeofDm2Request = true) (hblock : A.grants dmBlockAlloc = true)
    (hcode : dmc.code ≠ Command.code .endsession) (ops : List EncOp) (rc : UInt32)
    (hskel : callSkel A S impl dmc.code obj = .ok (ops, rc)) (hrc : rc ≠ rcWord .errAlloc) :
    (WellReplied A dmc.code ops rc → Fidelity A S impl dmc obj rc) ∧
      (ntohl ((List.range 4).map fun i => A.fresh (sizeofDmPacket + i)) ≠ avpRc →
        Fidelity A S impl dmc obj rc → WellReplied A dmc.code ops rc) := by
  have hiff := fidelity_granted S impl dmc obj hreq hblock hcode ops rc hskel hrc
  constructor
  · intro h
    exact (hiff h.granted 0 h.closed).mpr ⟨rfl, h.fits, (assigned_eq_iff dmc.code rc).mpr h.recorded⟩
  · intro hfresh hfid
    obtain ⟨hgranted, d, hnest⟩ := fidelity_refused S impl dmc obj hreq hblock hcode ops rc hskel hrc hfresh hfid
    obtain ⟨rfl, hfits, hrec⟩ := (hiff hgranted d hnest).mp hfid
    exact ⟨hgranted, hnest, hfits, (assigned_eq_iff dmc.code rc).mp hrec⟩

end Requests

/-! ## Two requests -/

def sampleTalloc : Talloc := ⟨fun _ => true, fun _ => 0xAA⟩

/-- A number as the only argument. -/
def sampleArgument (code : UInt32) (n : UInt32) : Dm2AvpGrp :=
  dmInitAvpgrp (avpBytes code vpTravelping (be 4 n.toNat) ++ List.replicate 8 0) 16

/-- `rpc_sessioninfo` answers with a number. -/
theorem reply_fidelity_sessioninfo :
    Fidelity sampleTalloc Server.sampleSchema (fun _ => ([.put avpUint32 vpTravelping (some (be 4 3))], 0)) ⟨7, 7, 323⟩
      (dmInitAvpgrp (List.replicate 8 0) 0) 0 :=
  (reply_fidelity Server.sampleSchema _ ⟨7, 7, 323⟩ _ rfl rfl (by decide) [.put avpUint32 vpTravelping (some (be 4 3))] 0
    rfl (by decide)).1 ⟨⟨fun _ => rfl, trivial⟩, rfl, by decide, fun _ => rfl⟩

/-- A firmware commit that fails is answered with `RC_OK`. -/
theorem firmware_commit_code_lost :
    callSkel sampleTalloc Server.sampleSchema (fun _ => ([], 0x8002)) 2001 (sampleArgument avpInt32 5) = .ok ([], 0x8002) ∧
      ¬Fidelity sampleTalloc Server.sampleSchema (fun _ => ([], 0x8002)) ⟨7, 7, 2001⟩ (sampleArgument avpInt32 5) 0x8002 := by
  have hskel : callSkel sampleTalloc Server.sampleSchema (fun _ => ([], 0x8002)) 2001 (sampleArgument avpInt32 5) =
      .ok ([], 0x8002) := by
    rfl
  refine ⟨hskel, fun h => ?_⟩
  have hrec := ((fidelity_granted Server.sampleSchema _ ⟨7, 7, 2001⟩ _ rfl rfl (by decide) [] 0x8002 hskel (by decide)
    trivial 0 rfl).mp h).2.2
  exact absurd hrec (by decide)

end Mand.Rpc
