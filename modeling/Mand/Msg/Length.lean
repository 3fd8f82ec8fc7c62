import Mand.Msg.Buffer
import Mathlib.Tactic.NormNum

/-! # The lengths on the wire

Positions are of any size, the length field of an AVP and that of a packet have three bytes. -/
namespace Mand.Msg
open Mand.Bytes
set_option autoImplicit false

/-! ## Where the AVPs are -/

/-- What a sequence of calls lays out: the end of the packet, the starts of the open groups, the innermost first, and
the closed AVPs by their start and length. -/
structure Layout where
  pos : ℕ
  opened : List ℕ
  avps : List (ℕ × ℕ)

def Layout.put (y : Layout) (len : ℕ) : Layout :=
  { y with pos := y.pos + pad32 len, avps := (y.pos, len) :: y.avps }

def Layout.add (y : Layout) : EncCall → Layout
  | .putAvp _ vendorId _ len _ => y.put (headLen vendorId + len)
  | .addUint32GetPos _ vendorId _ => y.put (headLen vendorId + 4)
  | .newGroup _ vendorId => { y with pos := y.pos + headLen vendorId, opened := y.pos :: y.opened }
  | .finalizeGroup =>
    match y.opened with
    | [] => y
    | q :: qs => { y with opened := qs, avps := (q, y.pos - q) :: y.avps }
  | .putUint32AtPos _ _ => y

/-- The layout of a packet. -/
def layout (calls : List EncCall) : Layout := calls.foldl Layout.add ⟨sizeofDmPacket, [], []⟩

/-- `uint24to32` of three bytes of the packet. -/
def uint24At (m : Mem) (pos : ℕ) : Option ℕ := (peek m pos 3).map ofBe

/-- A step of a run in which every call returns `RC_OK`. -/
def encOk (A : Talloc) (s : Encoder) (call : EncCall) : Option Encoder :=
  match encStep A s call with
  | some (rc, s') => if rc = .ok then some s' else none
  | none => none

theorem encOk_eq {A : Talloc} {s s' : Encoder} {call : EncCall} (h : encOk A s call = some s') :
    encStep A.granting s call = some (.ok, s') := by
  unfold encOk at h
  rcases encStep_short A s call with heq | ⟨s1, h1⟩
  · rw [heq] at h
    split at h
    · split at h
      · rename_i hstep hrc
        cases h
        rw [hstep, hrc]
      · cases h
    · cases h
  · rw [h1] at h
    cases h

/-! ## The layout of a request -/

/-- The starts of the open groups. -/
def openStarts (req : Dm2Request) : ℕ → List ℕ
  | 0 => []
  | l + 1 => (req.grp (l + 1)).start :: openStarts req l

theorem openStarts_congr {req req' : Dm2Request} {n : ℕ}
    (h : ∀ l < n, (req'.grp (l + 1)).start = (req.grp (l + 1)).start) : openStarts req' n = openStarts req n := by
  induction n with
  | zero => rfl
  | succ n ih =>
    unfold openStarts
    rw [h n (Nat.lt_succ_self n), ih fun l hl => h l (Nat.lt_succ_of_lt hl)]

/-- The length fields of the closed AVPs are stored; no call stores into one of them, since neither the header of an
open group nor a word that is remembered reaches into the header of a closed AVP. -/
structure Laid (s : Encoder) (y : Layout) : Prop where
  pos : s.req.pos = y.pos
  opened : openStarts s.req s.req.level = y.opened
  room : ∀ q ∈ y.opened, q + 8 ≤ y.pos
  nested : y.opened.Pairwise fun q q' => q' + 8 ≤ q
  inside : ∀ sp ∈ y.avps, 8 ≤ sp.2 ∧ sp.1 + sp.2 ≤ y.pos
  field : ∀ sp ∈ y.avps, peek s.req.packet (sp.1 + 5) 3 = some (be 3 sp.2)
  apart : ∀ sp ∈ y.avps, ∀ q ∈ y.opened, sp.1 + sp.2 ≤ q ∨ q + 8 ≤ sp.1
  word : ∀ p ∈ s.marks, ∀ sp ∈ y.avps, p + 4 ≤ sp.1 ∨ sp.1 + 8 ≤ p
  wordOpen : ∀ p ∈ s.marks, ∀ q ∈ y.opened, p + 4 ≤ q ∨ q + 8 ≤ p

section Step
variable {A : Talloc} {s : Encoder} {y : Layout}

/-- The fields are still there after a call that leaves them alone. -/
theorem Laid.keep (hl : Laid s y) {call : EncCall} {s' : Encoder} (hkept : Kept s call s')
    (hno : ∀ sp ∈ y.avps, ∀ k, sp.1 + 5 ≤ k → k < sp.1 + 8 → ¬call.Patches s k) :
    ∀ sp ∈ y.avps, peek s'.req.packet (sp.1 + 5) 3 = some (be 3 sp.2) := by
  intro sp hsp
  obtain ⟨h8, hle⟩ := hl.inside sp hsp
  refine peek_keep (by decide) (hl.field sp hsp) ?_
  intro k hk hlt
  refine hkept k ?_ (hno sp hsp k hk hlt)
  rw [hl.pos]
  omega

theorem openStarts_same {req req' : Dm2Request} (h : SameGroups req req') :
    openStarts req' req'.level = openStarts req req.level := by
  rw [h.level_eq]
  refine openStarts_congr fun l hl => ?_
  by_cases hlast : l + 1 = req.level
  · rw [hlast]
    exact h.start_eq
  · rw [h.below (l + 1) (by omega)]

/-- An AVP at the position. -/
theorem Laid.put (hl : Laid s y) (hs : Sound s) {req' : Dm2Request} {pre data : List UInt8} {code vendorId : UInt32}
    (hpre : Filled s.req pre) (hfill : Filled req' (pre ++ avpBytes code vendorId data))
    (hsame : SameGroups s.req req') (marks : List ℕ) (hmarks : ∀ p ∈ marks, s.req.pos + 8 ≤ p) :
    Laid ⟨req', s.marks ++ marks⟩ (y.put (headLen vendorId + data.length)) := by
  have hhead := eight_le_headLen vendorId
  have hpad := le_pad32 (headLen vendorId + data.length)
  have hpos := hl.pos
  have hfield : peek req'.packet (y.pos + 5) 3 = some (be 3 (headLen vendorId + data.length)) := by
    obtain ⟨n, hn⟩ := hfill.zeros
    rw [hn, ← hpos, hpre.pos_eq]
    refine peek_middle _ (pre ++ be 4 code.toNat ++ [vendorFlag vendorId]) _ (vendorBytes vendorId ++ data ++
      List.replicate (pad32 (headLen vendorId + data.length) - (headLen vendorId + data.length)) 0 ++
        List.replicate n 0) _ _ ?_ (by simp) (by simp)
    simp only [avpBytes, avpHead, List.append_assoc]
  refine ⟨?_, (openStarts_same hsame).trans hl.opened, ?_, hl.nested, ?_, ?_, ?_, ?_, ?_⟩
  · show req'.pos = y.pos + _
    rw [hfill.pos_eq, List.length_append, avpBytes_length, ← hpre.pos_eq, hpos]
  · intro q hq
    exact (hl.room q hq).trans (Nat.le_add_right _ _)
  · intro sp hsp
    rcases List.mem_cons.mp hsp with rfl | hsp
    · exact ⟨by dsimp only; omega, Nat.add_le_add_left hpad _⟩
    · obtain ⟨h1, h2⟩ := hl.inside sp hsp
      exact ⟨h1, h2.trans (Nat.le_add_right _ _)⟩
  · intro sp hsp
    rcases List.mem_cons.mp hsp with rfl | hsp
    · exact hfield
    · obtain ⟨h8, hle⟩ := hl.inside sp hsp
      refine peek_keep (by decide) (hl.field sp hsp) ?_
      intro k _ hlt
      exact hpre.kept hfill k (by omega)
  · intro sp hsp q hq
    rcases List.mem_cons.mp hsp with rfl | hsp
    · exact .inr (hl.room q hq)
    · exact hl.apart sp hsp q hq
  · intro p hp sp hsp
    rcases List.mem_append.mp hp with hp | hp
    · rcases List.mem_cons.mp hsp with rfl | hsp
      · have := hs.marks p hp
        exact .inl (by dsimp only; omega)
      · exact hl.word p hp sp hsp
    · have := hmarks p hp
      rcases List.mem_cons.mp hsp with rfl | hsp
      · exact .inr (by dsimp only; omega)
      · obtain ⟨h8, hle⟩ := hl.inside sp hsp
        exact .inr (by omega)
  · intro p hp q hq
    rcases List.mem_append.mp hp with hp | hp
    · exact hl.wordOpen p hp q hq
    · have h1 := hmarks p hp
      have h2 := hl.room q hq
      exact .inr (by omega)

/-- A group is opened at the position. -/
theorem Laid.newGroup (hl : Laid s y) (hs : Sound s) {req' : Dm2Request} {pre : List UInt8} {code vendorId : UInt32}
    (hpre : Filled s.req pre) (hfill : Filled req' (pre ++ avpHead code vendorId (headLen vendorId)))
    (hlevel : req'.level = s.req.level + 1) (hstart : (req'.grp (s.req.level + 1)).start = pre.length)
    (hbelow : ∀ l ≤ s.req.level, req'.grp l = s.req.grp l) :
    Laid ⟨req', s.marks ++ []⟩ ⟨y.pos + headLen vendorId, y.pos :: y.opened, y.avps⟩ := by
  have hhead := eight_le_headLen vendorId
  have hpos := hl.pos
  have hle : ∀ sp ∈ y.avps, sp.1 + 8 ≤ y.pos := by
    intro sp hsp
    obtain ⟨h8, hle⟩ := hl.inside sp hsp
    omega
  rw [List.append_nil]
  refine ⟨?_, ?_, ?_, List.pairwise_cons.mpr ⟨hl.room, hl.nested⟩, ?_, ?_, ?_, hl.word, ?_⟩
  · show req'.pos = y.pos + _
    rw [hfill.pos_eq, List.length_append, avpHead_length, ← hpre.pos_eq, hpos]
  · dsimp only
    rw [hlevel, openStarts, hstart, ← hpre.pos_eq, hpos, ← hl.opened]
    congr 1
    exact openStarts_congr fun l hlt => by rw [hbelow (l + 1) hlt]
  · intro q hq
    rcases List.mem_cons.mp hq with rfl | hq
    · exact Nat.add_le_add_left hhead _
    · exact (hl.room q hq).trans (Nat.le_add_right _ _)
  · intro sp hsp
    obtain ⟨h1, h2⟩ := hl.inside sp hsp
    exact ⟨h1, h2.trans (Nat.le_add_right _ _)⟩
  · intro sp hsp
    refine peek_keep (by decide) (hl.field sp hsp) ?_
    intro k _ hlt
    have := hle sp hsp
    exact hpre.kept hfill k (by omega)
  · intro sp hsp q hq
    rcases List.mem_cons.mp hq with rfl | hq
    · exact .inl (hl.inside sp hsp).2
    · exact hl.apart sp hsp q hq
  · intro p hp q hq
    rcases List.mem_cons.mp hq with rfl | hq
    · have := hs.marks p hp
      exact .inl (by omega)
    · exact hl.wordOpen p hp q hq

/-- The innermost group is closed. -/
theorem Laid.finalizeGroup (hl : Laid s y) {l : ℕ} (hlevel : s.req.level = l + 1) {req' : Dm2Request}
    (hlevel' : req'.level = l) (hpos' : req'.pos = s.req.pos) (hbelow : ∀ k < l, req'.grp k = s.req.grp k)
    (hstart' : (req'.grp l).start = (s.req.grp l).start)
    (hpoke : poke s.req.packet ((s.req.grp (l + 1)).start + 5) (be 3 (s.req.pos - (s.req.grp (l + 1)).start)) =
      some req'.packet) : Laid ⟨req', s.marks ++ []⟩ (y.add .finalizeGroup) := by
  have hpos := hl.pos
  have hopened := hl.opened
  rw [hlevel, openStarts] at hopened
  generalize hq : (s.req.grp (l + 1)).start = q at hpoke hopened
  have hadd : y.add .finalizeGroup = ⟨y.pos, openStarts s.req l, (q, y.pos - q) :: y.avps⟩ := by
    simp only [Layout.add, ← hopened]
  have hmem : ∀ q' ∈ openStarts s.req l, q' ∈ y.opened := by
    intro q' hq'
    rw [← hopened]
    exact List.mem_cons_of_mem q hq'
  have hqmem : q ∈ y.opened := by
    rw [← hopened]
    exact List.mem_cons_self
  have hroom := hl.room q hqmem
  have hnested := hl.nested
  rw [← hopened, List.pairwise_cons] at hnested
  rw [hpos] at hpoke
  rw [hadd, List.append_nil]
  refine ⟨hpos'.trans hpos, ?_, fun q' hq' => hl.room q' (hmem q' hq'), hnested.2, ?_, ?_, ?_, ?_,
    fun p hp q' hq' => hl.wordOpen p hp q' (hmem q' hq')⟩
  · dsimp only
    rw [hlevel']
    refine openStarts_congr fun k hk => ?_
    by_cases hlast : k + 1 = l
    · rw [hlast]
      exact hstart'
    · rw [hbelow (k + 1) (by omega)]
  · intro sp hsp
    rcases List.mem_cons.mp hsp with rfl | hsp
    · exact ⟨by dsimp only; omega, by dsimp only; omega⟩
    · exact hl.inside sp hsp
  · intro sp hsp
    rcases List.mem_cons.mp hsp with rfl | hsp
    · have h := peek_poke_self hpoke
      rwa [be_length] at h
    · -- the headers do not meet
      obtain ⟨h8, hle⟩ := hl.inside sp hsp
      have hapart := hl.apart sp hsp q hqmem
      dsimp only
      rw [peek_poke hpoke (by rw [be_length]; omega)]
      exact hl.field sp hsp
  · intro sp hsp q' hq'
    rcases List.mem_cons.mp hsp with rfl | hsp
    · exact .inr (hnested.1 q' hq')
    · exact hl.apart sp hsp q' (hmem q' hq')
  · intro p hp sp hsp
    rcases List.mem_cons.mp hsp with rfl | hsp
    · exact hl.wordOpen p hp q hqmem
    · exact hl.word p hp sp hsp

/-- A word is stored outside of all headers. -/
theorem Laid.putWord (hl : Laid s y) {p : ℕ} (hp : p ∈ s.marks) {value : UInt32} {m : Mem}
    (hpoke : poke s.req.packet p (be 4 value.toNat) = some m) : Laid ⟨{ s.req with packet := m }, s.marks⟩ y := by
  have hopen : openStarts { s.req with packet := m } s.req.level = openStarts s.req s.req.level :=
    openStarts_congr fun l _ => rfl
  refine ⟨hl.pos, hopen.trans hl.opened, hl.room, hl.nested, hl.inside, ?_, hl.apart, hl.word, hl.wordOpen⟩
  intro sp hsp
  have hword := hl.word p hp sp hsp
  dsimp only
  rw [peek_poke hpoke (by rw [be_length]; omega)]
  exact hl.field sp hsp

/-- One call that returns `RC_OK`. -/
theorem Laid.step (hA : ∀ n, A.grants n = true) (hl : Laid s y) (hs : Sound s) {call : EncCall} {s' : Encoder}
    (h : encStep A s call = some (.ok, s')) : Laid s' (y.add call) := by
  obtain ⟨pre, hpre⟩ := hs.filled
  cases call with
  | putAvp code vendorId data len fits =>
    have h : s.after (dmPutAvp A s.req code vendorId data len) [] = some (.ok, s') := h
    rcases dmPutAvp_cases hA hpre code vendorId data len fits with ⟨bs, req', rfl, hput, hfill, hsame⟩ | hput
    · rw [hput] at h
      cases h
      exact hl.put hs hpre hfill hsame [] fun p hp => absurd hp List.not_mem_nil
    · rw [hput] at h
      cases h
  | addUint32GetPos code vendorId value =>
    have h : s.after (dmPutAvp A s.req code vendorId (some (be 4 value.toNat)) 4) [uint32Pos s.req vendorId] =
        some (.ok, s') := h
    obtain ⟨req', hput, hfill, hsame⟩ := dmPutAvp_filled A hA s.req pre code vendorId (some (be 4 value.toNat)) hpre
    rw [Option.getD_some, be_length] at hput
    rw [hput] at h
    cases h
    have hlaid := hl.put hs hpre hfill hsame [uint32Pos s.req vendorId] ?_
    · rwa [Option.getD_some, be_length] at hlaid
    · intro p hp
      rw [List.mem_singleton.mp hp]
      unfold uint32Pos
      split_ifs <;> omega
  | newGroup code vendorId =>
    have h : s.after (dmNewGroup A s.req code vendorId) [] = some (.ok, s') := h
    have hlevel : s.req.level + 1 < grpEntries := by
      by_contra hno
      rw [dmNewGroup, if_neg hno] at h
      cases h
    obtain ⟨req', hnew, hfill, hlevel', hstart, hbelow⟩ := dmNewGroup_filled A hA s.req pre code vendorId hpre hlevel
    rw [hnew] at h
    cases h
    exact hl.newGroup hs hpre hfill hlevel' hstart hbelow
  | finalizeGroup =>
    have h : s.after (dmFinalizeGroup s.req) [] = some (.ok, s') := h
    by_cases hlevel : s.req.level = 0
    · rw [dmFinalizeGroup, if_pos hlevel] at h
      cases h
    obtain ⟨l, hlevel⟩ : ∃ l, s.req.level = l + 1 := ⟨s.req.level - 1, by omega⟩
    obtain ⟨req', hfin, hlevel', hpos', hbelow, hstart', hpoke, -⟩ := dmFinalizeGroup_closes hs hlevel
    rw [hfin] at h
    cases h
    exact hl.finalizeGroup hlevel hlevel' hpos' hbelow hstart' hpoke
  | putUint32AtPos i value =>
    cases hi : s.marks[i]? with
    | none =>
      simp only [encStep, hi] at h
      cases h
      exact hl
    | some p =>
      simp only [encStep, hi, dmPutUint32AtPos, Option.map_eq_some_iff, Option.bind_eq_bind, Option.bind_eq_some_iff] at h
      obtain ⟨req', ⟨m, hpoke, hreq⟩, heq⟩ := h
      cases hreq
      cases heq
      exact hl.putWord (List.mem_of_getElem? hi) hpoke

/-- The depth is in range where a call succeeds. -/
theorem encStep_level {call : EncCall} {s' : Encoder} (h : encStep A s call = some (.ok, s')) (hs : s.req.level ≤ 15) :
    call.level s.req.level ≤ 15 := by
  cases call with
  | newGroup code vendorId =>
    have h : s.after (dmNewGroup A s.req code vendorId) [] = some (.ok, s') := h
    by_contra hno
    have hlevel : ¬s.req.level + 1 < grpEntries := fun hlt => hno (Nat.le_of_lt_succ hlt)
    rw [dmNewGroup, if_neg hlevel] at h
    cases h
  | finalizeGroup => exact (Nat.sub_le _ _).trans hs
  | _ => exact hs

end Step

/-! ## Whole packets -/

section Packet
variable {A : Talloc} {code : UInt32} {flags : UInt8} {appid hopid endid : UInt32} {req : Dm2Request}
  {calls : List EncCall}

theorem run_laid (hnew : dmNewPacket A code flags appid hopid endid = some (.ok, req)) {s : Encoder}
    (h : Run.run (encOk A) ⟨req, []⟩ calls = some s) : Laid s (layout calls) ∧ Sound s ∧ s.req.level ≤ 15 := by
  induction calls using List.reverseRecOn generalizing s with
  | nil =>
    cases h
    obtain ⟨hsound, hlevel, hpos⟩ := dmNewPacket_sound hnew
    refine ⟨⟨hpos, ?_, nofun, List.Pairwise.nil, nofun, nofun, nofun, nofun, nofun⟩, hsound, by dsimp only; omega⟩
    dsimp only
    rw [hlevel]
    rfl
  | append_singleton calls call ih =>
    obtain ⟨s0, h0, hstep⟩ := Run.run_snoc.mp h
    obtain ⟨hlaid, hsound, hlevel⟩ := ih h0
    have hstep := encOk_eq hstep
    have hnext := encStep_level hstep hlevel
    obtain ⟨rc, s1, hs1, -, hsound1, hlevel1, -⟩ := encStep_safe (A := A.granting) (fun _ => rfl) hsound call hnext
    rw [hstep] at hs1
    cases hs1
    refine ⟨?_, hsound1, by omega⟩
    unfold layout
    rw [List.foldl_append]
    exact hlaid.step (fun _ => rfl) hsound hstep

/-- The length fields hold the lengths, cut to three bytes. -/
theorem finalize_fields (hnew : dmNewPacket A code flags appid hopid endid = some (.ok, req)) {s : Encoder}
    (h : Run.run (encOk A) ⟨req, []⟩ calls = some s) {req' : Dm2Request}
    (hfin : dmFinalizePacket s.req = some (.ok, req')) :
    (∀ sp ∈ (layout calls).avps, sp.1 + sp.2 ≤ (layout calls).pos ∧
      uint24At req'.packet (sp.1 + 5) = some (sp.2 % 2 ^ 24)) ∧
    uint24At req'.packet 1 = some ((layout calls).pos % 2 ^ 24) := by
  obtain ⟨hlaid, -, -⟩ := run_laid hnew h
  unfold dmFinalizePacket at hfin
  by_cases hlevel : s.req.level ≠ 0
  · rw [if_pos hlevel] at hfin
    cases hfin
  rw [if_neg hlevel] at hfin
  obtain ⟨m, hpoke, hreq⟩ := Option.bind_eq_some_iff.mp hfin
  cases hreq
  have hpos : (s.req.grp 0).pos = (layout calls).pos := by
    rw [← hlaid.pos, Dm2Request.pos, not_not.mp hlevel]
  have hread : ∀ n, ofBe (be 3 n) = n % 2 ^ 24 := fun n => ofBe_be 3 n
  constructor
  · intro sp hsp
    refine ⟨(hlaid.inside sp hsp).2, ?_⟩
    unfold uint24At
    rw [peek_poke hpoke (by rw [be_length]; omega), hlaid.field sp hsp, Option.map_some, hread]
  · have hself := peek_poke_self hpoke
    rw [be_length] at hself
    unfold uint24At
    rw [hself, Option.map_some, hread, hpos]

/-- The length fields are right exactly if the packet is shorter than 2^24 bytes. -/
theorem lengths_exact_iff (A : Talloc) (code : UInt32) (flags : UInt8) (appid hopid endid : UInt32) (req : Dm2Request)
    (hnew : dmNewPacket A code flags appid hopid endid = some (.ok, req)) (calls : List EncCall) (s : Encoder)
    (h : Run.run (encOk A) ⟨req, []⟩ calls = some s) (req' : Dm2Request)
    (hfin : dmFinalizePacket s.req = some (.ok, req')) :
    ((∀ sp ∈ (layout calls).avps, uint24At req'.packet (sp.1 + 5) = some sp.2) ∧
      uint24At req'.packet 1 = some (layout calls).pos) ↔ (layout calls).pos < 2 ^ 24 := by
  obtain ⟨havps, hpacket⟩ := finalize_fields hnew h hfin
  constructor
  · intro hexact
    have hmod := Option.some.inj (hpacket.symm.trans hexact.2)
    rw [← hmod]
    exact Nat.mod_lt _ (by decide)
  · intro hlt
    refine ⟨?_, ?_⟩
    · intro sp hsp
      obtain ⟨hle, hfield⟩ := havps sp hsp
      rw [hfield, Nat.mod_eq_of_lt (by omega)]
    · rw [hpacket, Nat.mod_eq_of_lt hlt]

end Packet

/-! ## A packet with one AVP -/

theorem le_of_mem_some {data bytes : Mem} (h : bytes ∈ some data) : data.length ≤ bytes.length := by
  cases h
  exact le_rfl

def oneAvp (data : Mem) : List EncCall := [.putAvp 1 0 (some data) data.length fun _ => le_of_mem_some]

theorem oneAvp_layout (data : Mem) : (layout (oneAvp data)).pos = 20 + pad32 (8 + data.length) := rfl

theorem oneAvp_run (data : Mem) : ∃ req s req', dmNewPacket ⟨fun _ => true, fun _ => 0⟩ 1 0 2 3 4 = some (.ok, req) ∧
    Run.run (encOk ⟨fun _ => true, fun _ => 0⟩) ⟨req, []⟩ (oneAvp data) = some s ∧
    dmFinalizePacket s.req = some (.ok, req') := by
  obtain ⟨req, hnew, hfill, hlevel⟩ := dmNewPacket_filled ⟨fun _ => true, fun _ => 0⟩ (fun _ => rfl) 1 0 2 3 4
  obtain ⟨r1, hput, hfill1, hsame⟩ := dmPutAvp_filled ⟨fun _ => true, fun _ => 0⟩ (fun _ => rfl) req _ 1 0 (some data)
    hfill
  have hstep : encOk ⟨fun _ => true, fun _ => 0⟩ ⟨req, []⟩ (.putAvp 1 0 (some data) data.length fun _ => le_of_mem_some) =
      some ⟨r1, []⟩ := by
    rw [Option.getD_some] at hput
    simp only [encOk, encStep, Encoder.after, hput, Option.map_some, if_true, List.append_nil]
  have hroom : 1 + (be 3 (r1.grp 0).pos).length ≤ r1.packet.length := by
    obtain ⟨n, hn⟩ := hfill1.zeros
    rw [hn, be_length, List.length_append, List.length_append, packetHead_length]
    unfold sizeofDmPacket
    omega
  obtain ⟨m, hpoke⟩ : ∃ m, poke r1.packet 1 (be 3 (r1.grp 0).pos) = some m := ⟨_, poke_some _ _ _ hroom⟩
  refine ⟨req, ⟨r1, []⟩, { r1 with packet := m }, hnew, ?_, ?_⟩
  · simp only [Run.run, oneAvp, List.foldlM_cons, List.foldlM_nil, hstep, Option.bind_eq_bind, Option.bind_some,
      Option.pure_def]
  · have hlevel1 : ¬r1.level ≠ 0 := by rw [hsame.level_eq, hlevel]; exact fun h => h rfl
    simp only [dmFinalizePacket, if_neg hlevel1, hpoke, Option.bind_eq_bind, Option.bind_some]

theorem lengths_exact_sample : ∃ req s req', dmNewPacket ⟨fun _ => true, fun _ => 0⟩ 1 0 2 3 4 = some (.ok, req) ∧
    Run.run (encOk ⟨fun _ => true, fun _ => 0⟩) ⟨req, []⟩ (oneAvp [1, 2, 3]) = some s ∧
    dmFinalizePacket s.req = some (.ok, req') ∧
    (((∀ sp ∈ (layout (oneAvp [1, 2, 3])).avps, uint24At req'.packet (sp.1 + 5) = some sp.2) ∧
      uint24At req'.packet 1 = some (layout (oneAvp [1, 2, 3])).pos) ↔ (layout (oneAvp [1, 2, 3])).pos < 2 ^ 24) := by
  obtain ⟨req, s, req', hnew, hrun, hfin⟩ := oneAvp_run [1, 2, 3]
  exact ⟨req, s, req', hnew, hrun, hfin, lengths_exact_iff _ 1 0 2 3 4 req hnew _ s hrun req' hfin⟩

theorem oneAvp_fields (data : Mem) (hlen : data.length = 16777216) :
    ∃ req s req', dmNewPacket ⟨fun _ => true, fun _ => 0⟩ 1 0 2 3 4 = some (.ok, req) ∧
    Run.run (encOk ⟨fun _ => true, fun _ => 0⟩) ⟨req, []⟩ (oneAvp data) = some s ∧
    dmFinalizePacket s.req = some (.ok, req') ∧ (20, 16777224) ∈ (layout (oneAvp data)).avps ∧
    uint24At req'.packet 25 = some 8 ∧ (layout (oneAvp data)).pos = 16777244 ∧ uint24At req'.packet 1 = some 28 := by
  obtain ⟨req, s, req', hnew, hrun, hfin⟩ := oneAvp_run data
  obtain ⟨havps, hpacket⟩ := finalize_fields hnew hrun hfin
  have hpos : (layout (oneAvp data)).pos = 16777244 := by
    rw [oneAvp_layout, hlen]
    unfold pad32
    norm_num
  have hmem : (20, 16777224) ∈ (layout (oneAvp data)).avps := by
    have h : (20, 8 + data.length) ∈ (layout (oneAvp data)).avps := List.mem_singleton.mpr rfl
    rw [hlen] at h
    norm_num at h
    exact h
  have havp := (havps _ hmem).2
  rw [hpos] at hpacket
  norm_num at havp hpacket
  exact ⟨req, s, req', hnew, hrun, hfin, hmem, havp, hpos, hpacket⟩

/-- The fields of a packet with 2^24 bytes of data. -/
theorem lengths_wrap : ∃ req s req', dmNewPacket ⟨fun _ => true, fun _ => 0⟩ 1 0 2 3 4 = some (.ok, req) ∧
    Run.run (encOk ⟨fun _ => true, fun _ => 0⟩) ⟨req, []⟩ (oneAvp (List.replicate 16777216 0)) = some s ∧
    dmFinalizePacket s.req = some (.ok, req') ∧
    (20, 16777224) ∈ (layout (oneAvp (List.replicate 16777216 0))).avps ∧ uint24At req'.packet 25 = some 8 ∧
    (layout (oneAvp (List.replicate 16777216 0))).pos = 16777244 ∧ uint24At req'.packet 1 = some 28 :=
  oneAvp_fields _ List.length_replicate

end Mand.Msg
