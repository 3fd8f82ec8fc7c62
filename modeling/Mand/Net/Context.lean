import Mathlib.Data.List.Induction
import Mand.Msg.Packet

/-! # Connections

The socket context of `dmcontext.c`: the queue of requests, the packet that is being written, and what
closes the connection. What the other side and the callbacks have seen is kept next to the context. -/
namespace Mand.Net
open Mand.Msg Mand.Bytes
set_option autoImplicit false

/-! ## Packets -/

/-- `dm_packet_length`. -/
def dmPacketLength (pkt : List UInt8) : ℕ := ofBe ((pkt.drop 1).take 3)

/-- `dm_hop2hop_id`. -/
def dmHop2hopId (pkt : List UInt8) : ℕ := ofBe ((pkt.drop 12).take 4)

/-- A packet whose length field is the number of its bytes. -/
structure Packet where
  bytes : List UInt8
  header : sizeofDmPacket ≤ bytes.length
  length_eq : dmPacketLength bytes = bytes.length
  deriving DecidableEq

theorem Packet.length_pos (p : Packet) : 0 < p.bytes.length := lt_of_lt_of_le (by decide) p.header

/-- The packet with its `hop2hop_id` and `end2end_id` stored. -/
def Packet.setIds (p : Packet) (hopid endid : UInt32) : Packet where
  bytes := p.bytes.take 12 ++ (be 4 hopid.toNat ++ be 4 endid.toNat) ++ p.bytes.drop 20
  header := by
    have h := p.header
    simp only [sizeofDmPacket, List.length_append, List.length_take, List.length_drop,
      be_length] at h ⊢
    omega
  length_eq := by
    have h := p.header
    simp only [sizeofDmPacket] at h
    have hl : (p.bytes.take 12 ++ (be 4 hopid.toNat ++ be 4 endid.toNat) ++ p.bytes.drop 20).length =
        p.bytes.length := by
      simp only [List.length_append, List.length_take, List.length_drop, be_length]
      omega
    have hf : ((p.bytes.take 12 ++ (be 4 hopid.toNat ++ be 4 endid.toNat) ++
        p.bytes.drop 20).drop 1).take 3 = (p.bytes.drop 1).take 3 := by
      have h12 : 3 ≤ ((p.bytes.take 12).drop 1).length := by
        simp only [List.length_drop, List.length_take]
        omega
      rw [List.append_assoc, List.drop_append_of_le_length (by simp; omega),
        List.take_append_of_le_length h12, List.drop_take, List.take_take]
      rfl
    rw [hl, dmPacketLength, hf]
    exact p.length_eq

/-! ## The context -/

/-- `DMCONFIG_EVENT`, as far as a shutdown passes one on. -/
inductive DmconfigEvent
  | ok
  | errorConnecting
  | errorAccepting
  | errorWriting
  | errorReading
  | closed
  | errorConnectTimeout
  | errorReadTimeout
  | errorWriteTimeout
  deriving DecidableEq, Repr

/-- The flags of `dm_enqueue`. -/
inductive Kind
  | oneWay
  | request
  | reply
  deriving DecidableEq, Repr

inductive Status
  | shallWrite
  | shallRead
  deriving DecidableEq, Repr

/-- `DM2_REQUEST_INFO`, known by `ref`; `cb` says whether there is a callback. -/
structure RequestInfo where
  ref : ℕ
  packet : Packet
  kind : Kind
  cb : Bool
  status : Status
  hopid : ℕ
  deriving DecidableEq

/-- `writeCtx` with a packet: `pos` is `sent` bytes behind its start, and `left` is not zero. -/
structure Writing where
  packet : Packet
  sent : ℕ
  sent_lt : sent < packet.bytes.length

/-- The static `hopid` and `endid`. -/
structure HopIds where
  hopid : UInt32
  endid : UInt32

/-- The ids of the next packet; `rnd` is what `rand` gives. -/
def HopIds.next (ids : HopIds) (rnd : UInt32) : HopIds :=
  if ids.hopid = 0 ∨ ids.hopid = 0xFFFFFFFF then ⟨rnd, rnd⟩ else ⟨ids.endid + 1, ids.endid + 1⟩

/-- What happens to the entries of the queue, in order. -/
inductive Seen
  | queued (ref : ℕ) (kind : Kind) (hopid : ℕ) (cb : Bool)
  | started (ref : ℕ)
  | arrived (pkt : Packet)
  | closed (event : DmconfigEvent)

/-- What a callback of a request is called with. -/
inductive Answer
  | answerReady (pkt : Packet)
  | event (event : DmconfigEvent)
  deriving DecidableEq

/-- `DMCONTEXT`, with the bytes that the socket has taken, the packets that were enqueued, and the
callbacks that were called. -/
structure Context where
  connected : Bool
  head : List RequestInfo
  writing : Option Writing
  /-- whether `writeCtx.io_ev` is active -/
  writeActive : Bool
  ids : HopIds
  next : ℕ
  out : List UInt8
  enqueued : List Packet
  seen : List Seen
  calls : List (ℕ × Answer)

/-- A connected context. -/
def Context.start (ids : HopIds) : Context := ⟨true, [], none, false, ids, 0, [], [], [], []⟩

/-- The ids after `dm_enqueue`; a reply keeps those of its request. -/
def Context.nextIds (s : Context) (kind : Kind) (rnd : UInt32) : HopIds :=
  if kind = .reply then s.ids else s.ids.next rnd

/-- The packet as `dm_enqueue` queues it. -/
def Context.stamp (s : Context) (kind : Kind) (rnd : UInt32) (req : Packet) : Packet :=
  if kind = .reply then req
  else req.setIds (s.nextIds kind rnd).hopid (s.nextIds kind rnd).endid

/-- `dm_enqueue`; `granted` is what the allocator says. -/
def dmEnqueue (s : Context) (req : Packet) (kind : Kind) (cb granted : Bool) (rnd : UInt32) :
    Rc × Context :=
  if s.connected = false then (.errConnection, s)
  else if granted = false then (.errAlloc, { s with ids := s.nextIds kind rnd })
  else
    let pkt := s.stamp kind rnd req
    (.ok, { s with
      ids := s.nextIds kind rnd
      head := s.head ++ [⟨s.next, pkt, kind, cb, .shallWrite, dmHop2hopId pkt.bytes⟩]
      writeActive := true
      next := s.next + 1
      enqueued := s.enqueued ++ [pkt]
      seen := s.seen ++ [.queued s.next kind (dmHop2hopId pkt.bytes) cb] })

/-- `process_reply`. The first entry with the id of the packet decides. -/
def processReply (s : Context) (pkt : Packet) : Context :=
  let s : Context := { s with seen := s.seen ++ [.arrived pkt] }
  match s.head.find? fun r => r.hopid = dmHop2hopId pkt.bytes with
  | none => s
  | some r =>
    if r.status ≠ .shallRead then s
    else { s with
      head := s.head.eraseP fun r => r.hopid = dmHop2hopId pkt.bytes
      calls := if r.cb = true then s.calls ++ [(r.ref, .answerReady pkt)] else s.calls }

/-- `dm_context_shutdown`, which calls back every entry of the queue. -/
def dmContextShutdown (s : Context) (event : DmconfigEvent) : Context :=
  { s with
    connected := false
    head := []
    writing := none
    writeActive := false
    seen := s.seen ++ [.closed event]
    calls := s.calls ++ (s.head.filter fun r => r.cb).map fun r => (r.ref, .event event) }

/-! ## Writing -/

/-- The queue after its first entry to write was taken up: a request waits for its reply, the others are
dropped. -/
def takeUp : List RequestInfo → List RequestInfo
  | [] => []
  | r :: l =>
    if r.status = .shallWrite then
      if r.kind = .request then { r with status := .shallRead } :: l else l
    else r :: takeUp l

/-- The packet to write, a new one if there is none in `writeCtx`. -/
def nextPacket (s : Context) : Option (Writing × Context) :=
  match s.writing with
  | some w => some (w, s)
  | none =>
    match s.head.find? fun r => r.status = .shallWrite with
    | none => none
    | some r =>
      let w : Writing := ⟨r.packet, 0, r.packet.length_pos⟩
      some (w, { s with
        writing := some w
        head := takeUp s.head
        seen := s.seen ++ [.started r.ref] })

/-- What a `write` returns. -/
inductive WriteResult
  | wrote (n : ℕ)
  | eagain
  | eintr
  | failed
  deriving DecidableEq, Repr

def Writing.left (w : Writing) : ℕ := w.packet.bytes.length - w.sent

/-- The state after `n` more bytes of the packet were written. -/
def Context.wrote (s : Context) (w : Writing) (n : ℕ) : Context :=
  { s with
    writing := if h : w.sent + n < w.packet.bytes.length then some ⟨w.packet, w.sent + n, h⟩ else none
    out := s.out ++ (w.packet.bytes.drop w.sent).take n }

def Context.stopWrite (s : Context) : Context := { s with writeActive := false }

/-- The loops of `writeEvent`, with what each `write` returns. Besides the state it says whether every
`write` took all that it was offered. -/
def writeLoop : List WriteResult → Context → Option (Bool × Context)
  | [], s =>
    match nextPacket s with
    | none => some (true, s.stopWrite)
    | some _ => none
  | r :: rs, s =>
    match nextPacket s with
    | none => some (true, s.stopWrite)
    | some (w, s) =>
      match r with
      | .wrote n =>
        if w.left < n then none
        else if w.left = n ∧ s.head = [] then some (true, (s.wrote w n).stopWrite)
        else (writeLoop rs (s.wrote w n)).map fun (full, s) => (full && w.left = n, s)
      | .eagain => some (false, s)
      | .eintr => (writeLoop rs s).map fun (_, s) => (false, s)
      | .failed => some (false, dmContextShutdown s .errorWriting)

/-- `writeEvent`. -/
def writeEvent (rs : List WriteResult) (s : Context) : Option (Bool × Context) :=
  if s.head = [] then some (true, s) else writeLoop rs s

/-! ## Runs -/

inductive Event
  /-- other contexts use up ids -/
  | others (ids : HopIds)
  | enqueue (req : Packet) (kind : Kind) (cb granted : Bool) (rnd : UInt32)
  | write (rs : List WriteResult)
  /-- `readEvent` has a reply -/
  | reply (pkt : Packet)
  | shutdown (event : DmconfigEvent)

def step (s : Context) : Event → Option Context
  | .others ids => some { s with ids := ids }
  | .enqueue req kind cb granted rnd => some (dmEnqueue s req kind cb granted rnd).2
  | .write rs => (writeEvent rs s).map Prod.snd
  | .reply pkt => some (processReply s pkt)
  | .shutdown event => some (dmContextShutdown s event)

def run : Context → List Event → Option Context
  | s, [] => some s
  | s, ev :: evs => do
    let s ← step s ev
    run s evs

theorem run_append (s : Context) (evs evs' : List Event) :
    run s (evs ++ evs') = (run s evs).bind fun t => run t evs' := by
  induction evs generalizing s with
  | nil => rfl
  | cons ev evs ih => simp only [List.cons_append, run, Option.bind_eq_bind, Option.bind_assoc, ih]

theorem run_snoc {s t : Context} {evs : List Event} {ev : Event} (h : run s (evs ++ [ev]) = some t) :
    ∃ u, run s evs = some u ∧ step u ev = some t := by
  rw [run_append, Option.bind_eq_some_iff] at h
  obtain ⟨u, hu, h⟩ := h
  simp only [run, Option.bind_eq_bind, Option.bind_eq_some_iff, Option.some.injEq] at h
  obtain ⟨t', ht, rfl⟩ := h
  exact ⟨u, hu, ht⟩

/-- What one step keeps holds after every run; the step may use what holds of the states before. -/
theorem run_induction {P : Context → Prop} {s : Context} {evs : List Event} (h0 : P s)
    (hstep : ∀ pre ev t t', pre ++ [ev] <+: evs → run s pre = some t → P t → step t ev = some t' → P t')
    {t : Context} (h : run s evs = some t) : P t := by
  have hall : ∀ pre, pre <+: evs → ∀ t, run s pre = some t → P t := by
    intro pre
    induction pre using List.reverseRecOn with
    | nil =>
      intro _ t ht
      cases ht
      exact h0
    | append_singleton pre ev ih =>
      intro hpre t ht
      obtain ⟨u, hu, hs⟩ := run_snoc ht
      exact hstep pre ev u t hpre hu (ih ((List.prefix_append pre [ev]).trans hpre) u hu) hs
  exact hall evs (List.prefix_refl evs) t h

end Mand.Net
