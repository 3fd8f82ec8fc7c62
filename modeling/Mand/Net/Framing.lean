import Mand.Net.Sending

/-! # Reading packets

`readEvent` of `dmcontext.c`. The bytes of the stream become readable in chunks, at any time; a packet is
read as soon as its header can be looked at, in as many parts as it takes, and handed on. -/
namespace Mand.Net
open Mand.Msg Mand.Bytes
set_option autoImplicit false

/-- The bytes that can be read, and the chunks that will come. -/
structure Stream where
  ready : List UInt8
  later : List (List UInt8)

def Stream.all (s : Stream) : List UInt8 := s.ready ++ s.later.flatten

/-- The next chunks become readable. -/
def Stream.arrive (s : Stream) (n : ℕ) : Stream :=
  ⟨s.ready ++ (s.later.take n).flatten, s.later.drop n⟩

/-- The first bytes are read. -/
def Stream.consume (s : Stream) (n : ℕ) : Stream := { s with ready := s.ready.drop n }

/-- What a `recv` or `read` meets. -/
inductive Recv
  | eintr
  /-- an error, or the other side has closed the connection -/
  | failed
  /-- some chunks have become readable, and a `read` gives no more than `cap + 1` bytes -/
  | ready (chunks cap : ℕ)
  deriving DecidableEq, Repr

/-- `readCtx` with the bytes of the packet that are there, the stream, and what the callbacks work on. -/
structure Reader (σ : Type) where
  packet : List UInt8
  left : ℕ
  stream : Stream
  closed : Bool
  state : σ

/-- `CMD_FLAG_REQUEST`. -/
def isRequest (flags : UInt8) : Bool := flags.toNat.testBit 7

section
variable {σ : Type} (processRequest processReply : σ → List UInt8 → σ)

/-- A complete packet is handed on; its flags are behind the first four bytes. -/
def handOn (r : Reader σ) : Option (Reader σ) := do
  let flags ← r.packet[4]?
  some { r with
    packet := []
    left := 0
    state := if isRequest flags = true then processRequest r.state r.packet
      else processReply r.state r.packet }

/-- The part of `readEvent` from `again` on. A list that has ended stands for calls that find what is
readable. -/
def readLoop : ℕ → List Recv → Reader σ → Option (Reader σ)
  | 0, _, _ => none
  | n + 1, rs, r =>
    match rs.headD (.ready 0 (r.stream.all.length)) with
    | .eintr => readLoop n rs.tail r
    | .failed => some { r with closed := true }
    | .ready k cap =>
      let s := r.stream.arrive k
      if r.left = 0 then
        -- the header, which is only looked at
        if s.ready.length < sizeofDmPacket then some { r with stream := s }
        else if dmPacketLength s.ready = 0 then do
          let r ← handOn processRequest processReply { r with stream := s, packet := [] }
          readLoop n rs.tail r
        else readLoop n rs.tail { r with stream := s, packet := [], left := dmPacketLength s.ready }
      else if s.ready = [] then some { r with stream := s }
      else
        let len := min (min (cap + 1) r.left) s.ready.length
        let r' : Reader σ := { r with
          stream := s.consume len
          packet := r.packet ++ s.ready.take len
          left := r.left - len }
        if r'.left = 0 then do
          let r ← handOn processRequest processReply r'
          readLoop n rs.tail r
        else readLoop n rs.tail r'

/-- `readEvent`. -/
def readEvent (rs : List Recv) (r : Reader σ) : Option (Reader σ) :=
  readLoop processRequest processReply (rs.length + 2 * r.stream.all.length + 2) rs r

/-- One `readEvent` after the other. -/
def readEvents : List (List Recv) → Reader σ → Option (Reader σ)
  | [], r => some r
  | rs :: calls, r => do
    let r ← readEvent processRequest processReply rs r
    readEvents calls r

/-- A packet is handed on by its flag. -/
def process (s : σ) (p : Packet) : σ :=
  if isRequest (p.bytes.getD 4 0) = true then processRequest s p.bytes else processReply s p.bytes

end

/-- A connection on which nothing has been read. -/
def Reader.start {σ : Type} (chunks : List (List UInt8)) (s : σ) : Reader σ :=
  ⟨[], 0, ⟨[], chunks⟩, false, s⟩

/-- What is read of the next packet and the rest of the stream are the packets to come. -/
structure Framed {σ : Type} (rest : List Packet) (r : Reader σ) : Prop where
  bytes : r.packet ++ r.stream.all = flatten rest
  boundary : r.left = 0 → r.packet = []
  inside : r.left ≠ 0 → ∃ p ps, rest = p :: ps ∧ r.packet.length + r.left = p.bytes.length

/-! ## Streams -/

theorem Stream.arrive_all (s : Stream) (n : ℕ) : (s.arrive n).all = s.all := by
  rw [Stream.all, Stream.all, Stream.arrive, List.append_assoc, ← List.flatten_append,
    List.take_append_drop]

theorem Stream.take_all {s : Stream} {n : ℕ} (h : n ≤ s.ready.length) :
    s.all = s.ready.take n ++ (s.consume n).all := by
  show s.ready ++ s.later.flatten = s.ready.take n ++ (s.ready.drop n ++ s.later.flatten)
  rw [← List.append_assoc, List.take_append_drop]

/-- The length field of the next packet can be read from the stream. -/
theorem length_of_ready {s : Stream} {p : Packet} {ps : List Packet}
    (h : s.all = flatten (p :: ps)) (hl : sizeofDmPacket ≤ s.ready.length) :
    dmPacketLength s.ready = p.bytes.length := by
  have hp := p.header
  have ht : (s.ready.drop 1).take 3 = (p.bytes.drop 1).take 3 := by
    have h4 : ∀ (l l' : List UInt8), 4 ≤ l.length → (l.drop 1).take 3 = ((l ++ l').drop 1).take 3 := by
      intro l l' hl
      rw [List.drop_append_of_le_length (by omega), List.take_append_of_le_length]
      rw [List.length_drop]
      omega
    rw [h4 s.ready s.later.flatten (le_trans (by decide) hl)]
    rw [h4 p.bytes (flatten ps) (le_trans (by decide) hp)]
    rw [← flatten_cons, ← h]
    rfl
  rw [dmPacketLength, ht]
  exact p.length_eq

theorem flatten_short {ps : List Packet} (h : (flatten ps).length < sizeofDmPacket) : ps = [] := by
  cases ps with
  | nil => rfl
  | cons p ps =>
    have hp := p.header
    rw [flatten_cons, List.length_append] at h
    omega

theorem Stream.all_of_later {s : Stream} (h : s.later = []) : s.all = s.ready := by
  rw [Stream.all, h, List.flatten_nil, List.append_nil]

/-! ## One system call -/

section
variable {σ : Type} (processRequest processReply : σ → List UInt8 → σ)

/-- With a header to look at there is a packet to come, whose length is found. -/
theorem Framed.header {rest : List Packet} {r : Reader σ} (hf : Framed rest r) (h0 : r.left = 0)
    (k : ℕ) (hl : sizeofDmPacket ≤ (r.stream.arrive k).ready.length) :
    ∃ p ps, rest = p :: ps ∧ dmPacketLength (r.stream.arrive k).ready = p.bytes.length := by
  have hall : (r.stream.arrive k).all = flatten rest := by
    rw [Stream.arrive_all, ← hf.bytes, hf.boundary h0, List.nil_append]
  cases rest with
  | nil =>
    have hlen := congrArg List.length hall
    rw [Stream.all, List.length_append] at hlen
    have h20 : sizeofDmPacket = 20 := rfl
    have hz : (flatten []).length = 0 := rfl
    omega
  | cons p ps => exact ⟨p, ps, rfl, length_of_ready hall hl⟩

/-- Bytes that are read go from the stream to the packet. -/
theorem Framed.read_bytes {rest : List Packet} {r : Reader σ} (hf : Framed rest r) (k len : ℕ)
    (hlen : len ≤ (r.stream.arrive k).ready.length) :
    (r.packet ++ (r.stream.arrive k).ready.take len) ++
      ((r.stream.arrive k).consume len).all = flatten rest := by
  rw [List.append_assoc, ← Stream.take_all hlen, Stream.arrive_all]
  exact hf.bytes

/-- A packet that is complete is the next one. -/
theorem handOn_packet {p : Packet} {ps : List Packet} {r : Reader σ}
    (hb : r.packet ++ r.stream.all = flatten (p :: ps)) (hl : r.packet.length = p.bytes.length) :
    ∃ r', handOn processRequest processReply r = some r' ∧
      r'.state = process processRequest processReply r.state p ∧ Framed ps r' ∧
      r'.closed = r.closed ∧ r'.stream = r.stream ∧ r'.left = 0 := by
  obtain ⟨hp, hs⟩ := List.append_inj hb hl
  have h4 : 4 < p.bytes.length := lt_of_lt_of_le (by decide) p.header
  refine ⟨{ r with
    packet := [], left := 0, state := process processRequest processReply r.state p },
    ?_, rfl, ⟨?_, ?_, ?_⟩, rfl, rfl, rfl⟩
  · rw [handOn, hp, List.getElem?_eq_getElem h4, process, List.getD_eq_getElem?_getD,
      List.getElem?_eq_getElem h4]
    rfl
  · exact hs
  · intro _
    rfl
  · intro h
    exact absurd rfl h

theorem Reader.read_pos {r : Reader σ} {s : Stream} (cap : ℕ) (h0 : r.left ≠ 0) (hs : s.ready ≠ []) :
    1 ≤ min (min (cap + 1) r.left) s.ready.length := by
  have := List.length_pos_of_ne_nil hs
  omega

/-! ## One event -/

theorem handOn_leaves {r r' : Reader σ} (h : handOn processRequest processReply r = some r') :
    r'.left = 0 ∧ r'.stream = r.stream := by
  rw [handOn, Option.bind_eq_bind, Option.bind_eq_some_iff] at h
  obtain ⟨f, _, h⟩ := h
  cases h
  exact ⟨rfl, rfl⟩

/-- The rule of the loop: `P` holds at `again`, whichever way it is reached, and `Q` on return. Every turn
takes an entry off the list, bytes off the stream, or looks at a header. -/
theorem readLoop_rule {P Q : Reader σ → Prop} {n : ℕ} {rs : List Recv} {r : Reader σ}
    (hfailed : .failed ∈ rs → ∀ r, P r → Q { r with closed := true })
    (hshort : ∀ (r : Reader σ) k, P r → r.left = 0 →
      (r.stream.arrive k).ready.length < sizeofDmPacket → Q { r with stream := r.stream.arrive k })
    (hempty : ∀ (r : Reader σ) k, P r → r.left ≠ 0 → (r.stream.arrive k).ready = [] →
      Q { r with stream := r.stream.arrive k })
    (hheader : ∀ (r : Reader σ) k, P r → r.left = 0 →
      sizeofDmPacket ≤ (r.stream.arrive k).ready.length →
      dmPacketLength (r.stream.arrive k).ready ≠ 0 ∧
        P { r with
          stream := r.stream.arrive k
          packet := []
          left := dmPacketLength (r.stream.arrive k).ready })
    (hread : ∀ (r : Reader σ) k len, P r → len ≤ r.left → len ≤ (r.stream.arrive k).ready.length →
      r.left ≠ 0 →
      if r.left - len = 0 then
        ∃ r', handOn processRequest processReply { r with
          stream := (r.stream.arrive k).consume len
          packet := r.packet ++ (r.stream.arrive k).ready.take len
          left := r.left - len } = some r' ∧ P r'
      else P { r with
        stream := (r.stream.arrive k).consume len
        packet := r.packet ++ (r.stream.arrive k).ready.take len
        left := r.left - len })
    (hr : P r) (hn : rs.length + 2 * r.stream.all.length + (if r.left = 0 then 1 else 0) < n) :
    ∃ r', readLoop processRequest processReply n rs r = some r' ∧ Q r' := by
  induction n generalizing rs r with
  | zero => omega
  | succ n ih =>
    rw [readLoop]
    have hfailed' : .failed ∈ rs.tail → ∀ r, P r → Q { r with closed := true } :=
      fun h => hfailed (List.mem_of_mem_tail h)
    cases hc : rs.headD (.ready 0 r.stream.all.length) with
    | eintr =>
      cases rs with
      | nil => cases hc
      | cons c rs =>
        have hlen : (c :: rs).length = rs.length + 1 := rfl
        exact ih hfailed' hr (by show rs.length + _ + _ < n; omega)
    | failed =>
      cases rs with
      | nil => cases hc
      | cons c rs =>
        have hc : c = .failed := hc
        exact ⟨_, rfl, hfailed (hc ▸ List.mem_cons_self) r hr⟩
    | ready k cap =>
      have htail : rs.tail.length ≤ rs.length := by
        rw [List.length_tail]
        omega
      have hall := Stream.arrive_all r.stream k
      dsimp only
      by_cases h0 : r.left = 0
      · rw [if_pos h0]
        rw [if_pos h0] at hn
        by_cases hlt : (r.stream.arrive k).ready.length < sizeofDmPacket
        · rw [if_pos hlt]
          exact ⟨_, rfl, hshort r k hr h0 hlt⟩
        · rw [if_neg hlt]
          obtain ⟨hpos, hp⟩ := hheader r k hr h0 (by omega)
          rw [if_neg hpos]
          apply ih hfailed' hp
          show rs.tail.length + 2 * (r.stream.arrive k).all.length +
            (if dmPacketLength (r.stream.arrive k).ready = 0 then 1 else 0) < n
          rw [hall, if_neg hpos]
          omega
      · rw [if_neg h0]
        rw [if_neg h0] at hn
        by_cases hnil : (r.stream.arrive k).ready = []
        · rw [if_pos hnil]
          exact ⟨_, rfl, hempty r k hr h0 hnil⟩
        · rw [if_neg hnil]
          have hpos := Reader.read_pos cap h0 hnil
          have hle : min (min (cap + 1) r.left) (r.stream.arrive k).ready.length ≤ r.left := by
            omega
          have hle' : min (min (cap + 1) r.left) (r.stream.arrive k).ready.length ≤
              (r.stream.arrive k).ready.length := by omega
          generalize min (min (cap + 1) r.left) (r.stream.arrive k).ready.length = len at *
          have hfewer : ((r.stream.arrive k).consume len).all.length + len =
              r.stream.all.length := by
            have h := congrArg List.length (Stream.take_all hle')
            rw [Stream.arrive_all, List.length_append, List.length_take] at h
            omega
          have hstep := hread r k len hr hle hle' h0
          by_cases hdone : r.left - len = 0
          · rw [if_pos hdone] at hstep ⊢
            obtain ⟨r₁, hr₁, hp₁⟩ := hstep
            obtain ⟨hl₁, hs₁⟩ := handOn_leaves processRequest processReply hr₁
            rw [hr₁]
            apply ih hfailed' hp₁
            rw [hl₁, hs₁, if_pos rfl]
            show rs.tail.length + 2 * ((r.stream.arrive k).consume len).all.length + 1 < n
            omega
          · rw [if_neg hdone] at hstep ⊢
            apply ih hfailed' hstep
            show rs.tail.length + 2 * ((r.stream.arrive k).consume len).all.length +
              (if r.left - len = 0 then 1 else 0) < n
            rw [if_neg hdone]
            omega

theorem readLoop_framed (n : ℕ) (rs : List Recv) (rest : List Packet) (r : Reader σ)
    (hf : Framed rest r) (hno : .failed ∉ rs)
    (hn : rs.length + 2 * r.stream.all.length + (if r.left = 0 then 1 else 0) < n) :
    ∃ r' k, readLoop processRequest processReply n rs r = some r' ∧
      r'.state = (rest.take k).foldl (process processRequest processReply) r.state ∧
      Framed (rest.drop k) r' ∧ r'.closed = r.closed ∧
      (r'.stream.later = [] → rest.drop k = []) := by
  -- the packets that were handed on, and the others
  have hrule := readLoop_rule processRequest processReply
    (P := fun r' => ∃ k,
      r'.state = (rest.take k).foldl (process processRequest processReply) r.state ∧
      Framed (rest.drop k) r' ∧ r'.closed = r.closed)
    (Q := fun r' => ∃ k,
      r'.state = (rest.take k).foldl (process processRequest processReply) r.state ∧
      Framed (rest.drop k) r' ∧ r'.closed = r.closed ∧ (r'.stream.later = [] → rest.drop k = []))
    (fun h => absurd h hno) ?_ ?_ ?_ ?_ ⟨0, rfl, hf, rfl⟩ hn
  · obtain ⟨r', hr', k, hq⟩ := hrule
    exact ⟨r', k, hr', hq⟩
  · rintro r₁ k ⟨m, hst, hf₁, hcl⟩ h0 hlt
    refine ⟨m, hst, ⟨?_, hf₁.boundary, hf₁.inside⟩, hcl, ?_⟩
    · show r₁.packet ++ (r₁.stream.arrive k).all = _
      rw [Stream.arrive_all, hf₁.bytes]
    · intro hlater
      have hall : (r₁.stream.arrive k).all = (r₁.stream.arrive k).ready := Stream.all_of_later hlater
      apply flatten_short
      rw [← hf₁.bytes, hf₁.boundary h0, List.nil_append, ← Stream.arrive_all _ k, hall]
      exact hlt
  · rintro r₁ k ⟨m, hst, hf₁, hcl⟩ h0 hnil
    refine ⟨m, hst, ⟨?_, hf₁.boundary, hf₁.inside⟩, hcl, ?_⟩
    · show r₁.packet ++ (r₁.stream.arrive k).all = _
      rw [Stream.arrive_all, hf₁.bytes]
    · -- the packet is not complete, so there is more to come
      intro hlater
      obtain ⟨p, ps, hrest, hlen⟩ := hf₁.inside h0
      have hall : (r₁.stream.arrive k).all = (r₁.stream.arrive k).ready := Stream.all_of_later hlater
      rw [Stream.arrive_all, hnil] at hall
      have hb := congrArg List.length hf₁.bytes
      rw [hall, List.append_nil, hrest, flatten_cons, List.length_append] at hb
      omega
  · rintro r₁ k ⟨m, hst, hf₁, hcl⟩ h0 hle
    obtain ⟨p, ps, hrest, hlen⟩ := hf₁.header h0 k hle
    have hpos := p.length_pos
    refine ⟨by omega, m, hst, ⟨?_, fun _ => rfl, fun _ => ⟨p, ps, hrest, ?_⟩⟩, hcl⟩
    · show [] ++ (r₁.stream.arrive k).all = _
      rw [Stream.arrive_all, ← hf₁.bytes, hf₁.boundary h0]
    · show 0 + dmPacketLength (r₁.stream.arrive k).ready = _
      rw [Nat.zero_add, hlen]
  · rintro r₁ k len ⟨m, hst, hf₁, hcl⟩ hle hle' h0
    obtain ⟨p, ps, hrest, hlen⟩ := hf₁.inside h0
    have hbytes := hf₁.read_bytes k len hle'
    have htake : (r₁.packet ++ (r₁.stream.arrive k).ready.take len).length = r₁.packet.length + len := by
      rw [List.length_append, List.length_take]
      omega
    split
    · rw [hrest] at hbytes
      obtain ⟨r₂, hr₂, hst₂, hf₂, hcl₂, _⟩ := handOn_packet processRequest processReply
        (r := { r₁ with
          stream := (r₁.stream.arrive k).consume len
          packet := r₁.packet ++ (r₁.stream.arrive k).ready.take len
          left := r₁.left - len })
        hbytes (by
          show (r₁.packet ++ _).length = _
          omega)
      have hget : rest[m]? = some p := by
        rw [← List.head?_drop, hrest]
        rfl
      refine ⟨r₂, hr₂, m + 1, ?_, ?_, hcl₂.trans hcl⟩
      · rw [List.take_add_one, hget, List.foldl_append, hst₂, hst]
        rfl
      · rw [← List.drop_drop, hrest]
        exact hf₂
    · rename_i hmore
      refine ⟨m, hst, ⟨hbytes, fun h => absurd h hmore, fun _ => ⟨p, ps, hrest, ?_⟩⟩, hcl⟩
      show (r₁.packet ++ _).length + (r₁.left - len) = _
      omega

/-- What the callbacks keep is kept, whatever is read. -/
theorem readLoop_keeps {P : σ → Prop} (hreq : ∀ s p, P s → P (processRequest s p))
    (hrep : ∀ s p, P s → P (processReply s p)) {n : ℕ} {rs : List Recv} {r r' : Reader σ}
    (h : readLoop processRequest processReply n rs r = some r') (hr : P r.state) : P r'.state := by
  have hhand : ∀ {r₁ r₂ : Reader σ}, handOn processRequest processReply r₁ = some r₂ →
      P r₁.state → P r₂.state := by
    intro r₁ r₂ h hp
    rw [handOn, Option.bind_eq_bind, Option.bind_eq_some_iff] at h
    obtain ⟨f, _, h⟩ := h
    cases h
    dsimp only
    split
    · exact hreq _ _ hp
    · exact hrep _ _ hp
  induction n generalizing rs r with
  | zero => cases h
  | succ n ih =>
    rw [readLoop] at h
    split at h
    · exact ih h hr
    · cases h
      exact hr
    · dsimp only at h
      split at h
      · split at h
        · cases h
          exact hr
        · split at h
          · rw [Option.bind_eq_bind, Option.bind_eq_some_iff] at h
            obtain ⟨r₁, hr₁, h⟩ := h
            exact ih h (hhand hr₁ hr)
          · exact ih h hr
      · split at h
        · cases h
          exact hr
        · split at h
          · rw [Option.bind_eq_bind, Option.bind_eq_some_iff] at h
            obtain ⟨r₁, hr₁, h⟩ := h
            exact ih h (hhand hr₁ hr)
          · exact ih h hr

/-- Chunks that have become readable stay so. -/
theorem readLoop_later {n : ℕ} {rs : List Recv} {r r' : Reader σ}
    (h : readLoop processRequest processReply n rs r = some r') :
    ∃ m, r'.stream.later = r.stream.later.drop m ∧ ∀ k cap, rs.head? = some (.ready k cap) → k ≤ m := by
  induction n generalizing rs r with
  | zero => cases h
  | succ n ih =>
    rw [readLoop] at h
    have hstep : ∀ {k cap : ℕ} {r₁ : Reader σ}, rs.headD (.ready 0 r.stream.all.length) = .ready k cap →
        r₁.stream.later = r.stream.later.drop k →
        (∃ m, r'.stream.later = r₁.stream.later.drop m) →
        ∃ m, r'.stream.later = r.stream.later.drop m ∧
          ∀ k cap, rs.head? = some (.ready k cap) → k ≤ m := by
      intro k cap r₁ hc h₁ h₂
      obtain ⟨m, hm⟩ := h₂
      refine ⟨k + m, ?_, ?_⟩
      · rw [hm, h₁, List.drop_drop]
      · intro k' cap' hk'
        rw [List.headD_eq_head?_getD, hk'] at hc
        cases hc
        omega
    cases hc : rs.headD (.ready 0 r.stream.all.length) with
    | eintr =>
      rw [hc] at h
      obtain ⟨m, hm, _⟩ := ih h
      refine ⟨m, hm, ?_⟩
      intro k cap hk
      rw [List.headD_eq_head?_getD, hk] at hc
      cases hc
    | failed =>
      rw [hc] at h
      cases h
      refine ⟨0, rfl, ?_⟩
      intro k cap hk
      rw [List.headD_eq_head?_getD, hk] at hc
      cases hc
    | ready k cap =>
      rw [hc] at h
      dsimp only at h
      have hhand : ∀ {r₁ r₂ : Reader σ}, handOn processRequest processReply r₁ = some r₂ →
          r₂.stream = r₁.stream := by
        intro r₁ r₂ h
        rw [handOn, Option.bind_eq_bind, Option.bind_eq_some_iff] at h
        obtain ⟨f, _, h⟩ := h
        cases h
        rfl
      split at h
      · split at h
        · cases h
          exact hstep hc rfl ⟨0, rfl⟩
        · split at h
          · rw [Option.bind_eq_bind, Option.bind_eq_some_iff] at h
            obtain ⟨r₁, hr₁, h⟩ := h
            obtain ⟨m, hm, _⟩ := ih h
            exact hstep hc (by rw [hhand hr₁]; rfl) ⟨m, hm⟩
          · obtain ⟨m, hm, _⟩ := ih h
            exact hstep hc rfl ⟨m, hm⟩
      · split at h
        · cases h
          exact hstep hc rfl ⟨0, rfl⟩
        · split at h
          · rw [Option.bind_eq_bind, Option.bind_eq_some_iff] at h
            obtain ⟨r₁, hr₁, h⟩ := h
            obtain ⟨m, hm, _⟩ := ih h
            exact hstep hc (by rw [hhand hr₁]; rfl) ⟨m, hm⟩
          · obtain ⟨m, hm, _⟩ := ih h
            exact hstep hc rfl ⟨m, hm⟩

/-! ## One event after the other -/

theorem readEvents_framed (calls : List (List Recv)) (rest : List Packet) (r : Reader σ)
    (hf : Framed rest r) (hno : ∀ rs ∈ calls, .failed ∉ rs)
    (hlast : r.stream.later = [] → rest = []) :
    ∃ r' k, readEvents processRequest processReply calls r = some r' ∧
      r'.state = (rest.take k).foldl (process processRequest processReply) r.state ∧
      Framed (rest.drop k) r' ∧ r'.closed = r.closed ∧
      (r'.stream.later = [] → rest.drop k = []) := by
  induction calls generalizing rest r with
  | nil => exact ⟨r, 0, rfl, rfl, hf, rfl, hlast⟩
  | cons rs calls ih =>
    obtain ⟨r₁, k, hr₁, hst, hf₁, hcl, hl₁⟩ :=
      readLoop_framed processRequest processReply (rs.length + 2 * r.stream.all.length + 2) rs rest r hf
        (hno rs List.mem_cons_self) (by split <;> omega)
    obtain ⟨r', k', hr', hst', hf', hcl', hl'⟩ :=
      ih (rest.drop k) r₁ hf₁ (fun rs' h => hno rs' (List.mem_cons_of_mem rs h)) hl₁
    refine ⟨r', k + k', ?_, ?_, ?_, hcl'.trans hcl, ?_⟩
    · rw [readEvents, readEvent, hr₁]
      exact hr'
    · rw [hst', hst, ← List.foldl_append, List.take_add]
    · rw [← List.drop_drop]
      exact hf'
    · rw [← List.drop_drop]
      exact hl'

/-- With one event for each chunk, every chunk has become readable. -/
theorem readEvents_chunks {cap : ℕ} {r r' : Reader σ} (n : ℕ)
    (h : readEvents processRequest processReply (List.replicate n [.ready 1 cap]) r = some r')
    (hn : r.stream.later.length ≤ n) : r'.stream.later = [] := by
  induction n generalizing r with
  | zero =>
    cases h
    exact List.eq_nil_of_length_eq_zero (by omega)
  | succ n ih =>
    rw [List.replicate_succ, readEvents, Option.bind_eq_bind, Option.bind_eq_some_iff] at h
    obtain ⟨r₁, hr₁, h⟩ := h
    obtain ⟨m, hm, hk⟩ := readLoop_later processRequest processReply hr₁
    have h1 := hk 1 cap rfl
    apply ih h
    rw [hm, List.length_drop]
    omega

/-- However the packets are cut into chunks, and whenever these become readable, the packets that were
handed on are the first ones, in order, and what is read of the next one and not yet read is the rest.
When all chunks have become readable all packets were handed on, and nothing else is left. -/
theorem read_framing (s : σ) (pkts : List Packet) (chunks : List (List UInt8))
    (hcut : chunks.flatten = flatten pkts) :
    (∀ calls : List (List Recv), (∀ rs ∈ calls, .failed ∉ rs) →
      ∃ r k, readEvents processRequest processReply calls (Reader.start chunks s) = some r ∧
        r.state = (pkts.take k).foldl (process processRequest processReply) s ∧
        r.packet ++ r.stream.all = flatten (pkts.drop k) ∧ r.closed = false ∧
        (r.stream.later = [] → pkts.drop k = [] ∧ r.left = 0)) ∧
    ∀ cap, ∃ r, readEvents processRequest processReply (chunks.map fun _ => [.ready 1 cap])
        (Reader.start chunks s) = some r ∧
      r.state = pkts.foldl (process processRequest processReply) s ∧
      r.packet = [] ∧ r.left = 0 ∧ r.stream.all = [] := by
  have hf : Framed pkts (Reader.start chunks s) := by
    refine ⟨?_, fun _ => rfl, fun h => absurd rfl h⟩
    show [] ++ ([] ++ chunks.flatten) = _
    rw [List.nil_append, List.nil_append, hcut]
  have hnone : (Reader.start chunks s).stream.later = [] → pkts = [] := by
    intro h
    have h : chunks = [] := h
    rw [h, List.flatten_nil] at hcut
    exact flatten_eq_nil.1 hcut.symm
  have hleft : ∀ {r : Reader σ}, Framed [] r → r.left = 0 := by
    intro r hr
    by_contra h
    obtain ⟨p, ps, he, _⟩ := hr.inside h
    cases he
  refine ⟨?_, ?_⟩
  · intro calls hno
    obtain ⟨r, k, hr, hst, hfr, hcl, hl⟩ :=
      readEvents_framed processRequest processReply calls pkts _ hf hno hnone
    refine ⟨r, k, hr, hst, hfr.bytes, hcl, ?_⟩
    intro hlater
    have hd := hl hlater
    rw [hd] at hfr
    exact ⟨hd, hleft hfr⟩
  · intro cap
    obtain ⟨r, k, hr, hst, hfr, _, hl⟩ := readEvents_framed processRequest processReply
      (chunks.map fun _ => [.ready 1 cap]) pkts _ hf (by
        intro rs hrs
        obtain ⟨_, _, rfl⟩ := List.mem_map.1 hrs
        simp) hnone
    have hlater : r.stream.later = [] := by
      rw [List.map_const'] at hr
      exact readEvents_chunks processRequest processReply chunks.length hr (le_refl _)
    have hd := hl hlater
    rw [hd] at hfr
    have hb := hfr.bytes
    rw [show flatten [] = [] from rfl, List.append_eq_nil_iff] at hb
    refine ⟨r, hr, ?_, hb.1, hleft hfr, hb.2⟩
    rw [hst, List.take_of_length_le (List.drop_eq_nil_iff.1 hd)]
    rfl

end

def sampleRequest : List UInt8 := [1, 0, 0, 20, 128, 0, 0, 7, 0, 0, 0, 0, 0, 0, 0, 6, 0, 0, 0, 6]

/-- A packet with the request flag and one without, cut inside the first header and inside the second. -/
def sampleChunks : List (List UInt8) :=
  [sampleRequest.take 7, sampleRequest.drop 7 ++ sampleReply.take 3, sampleReply.drop 3]

theorem read_framing_sample :
    ∃ r, readEvents (fun l p => l ++ [(true, p)]) (fun l p => l ++ [(false, p)])
        (sampleChunks.map fun _ => [.ready 1 5]) (Reader.start sampleChunks []) = some r ∧
      r.state = [(true, sampleRequest), (false, sampleReply)] ∧
      r.packet = [] ∧ r.left = 0 ∧ r.stream.all = [] := by
  obtain ⟨r, hr, hst, hrest⟩ := (read_framing (fun l p => l ++ [(true, p)])
    (fun l p => l ++ [(false, p)]) ([] : List (Bool × List UInt8))
    [⟨sampleRequest, by decide, by decide⟩, ⟨sampleReply, by decide, by decide⟩] sampleChunks
    (by decide)).2 5
  have hlog : r.state = [(true, sampleRequest), (false, sampleReply)] := by
    rw [hst]
    decide
  exact ⟨r, hr, hlog, hrest⟩

end Mand.Net
