import Mathlib.Data.List.Infix
import Mand.Net.Framing
import Mand.Net.Requests

/-! # The two ends of a connection

Each end is a context of `dmcontext.c` with its reader, and what the socket of one end has taken is the
stream of the other. The application of an end calls requests and answers the requests it was handed,
at any time and from inside the callbacks. -/
namespace Mand.Net
open Mand.Msg Mand.Bytes
set_option autoImplicit false

/-! ## Packets -/

/-- `dm_packet_code`. -/
def dmPacketCode (pkt : List UInt8) : ℕ := ofBe ((pkt.drop 5).take 3)

/-- `dm_end2end_id`. -/
def dmEnd2endId (pkt : List UInt8) : ℕ := ofBe ((pkt.drop 16).take 4)

/-- `CMD_CLIENT_ACTIVE_NOTIFY` and `CMD_CLIENT_EVENT_BROADCAST`, which nobody answers. -/
def oneWayCode (code : ℕ) : Bool := code = 1000 || code = 1001

/-- `CMD_FLAG_REQUEST` of a packet. -/
def Packet.isRequest (p : Packet) : Bool := Net.isRequest (p.bytes.getD 4 0)

/-- How the stubs enqueue a request. -/
def Packet.kind (p : Packet) : Kind :=
  if oneWayCode (dmPacketCode p.bytes) = true then .oneWay else .request

/-- A request that is answered. -/
def Packet.asks (p : Packet) : Bool := p.isRequest && p.kind = .request

/-- The packet of `dm_new_request` for an answer: it has the ids of the request. -/
def Packet.answerTo (body req : Packet) : Packet :=
  body.setIds (UInt32.ofNat (dmHop2hopId req.bytes)) (UInt32.ofNat (dmEnd2endId req.bytes))

/-- The bytes of a packet that was read. -/
def asPacket (bytes : List UInt8) : Option Packet :=
  if h : sizeofDmPacket ≤ bytes.length ∧ dmPacketLength bytes = bytes.length then
    some ⟨bytes, h.1, h.2⟩
  else none

/-! ## One end -/

/-- What an application does: it calls a request, or answers the `i`th packet it was handed. -/
inductive Act
  | call (req : { p : Packet // p.isRequest = true }) (cb granted : Bool) (rnd : UInt32)
  | answer (i : ℕ) (body : { p : Packet // p.isRequest = false }) (granted : Bool)

/-- An application with its context. `past` are the contexts before each change, `inbox` the packets
that were handed on, `pending` those of them that have to be answered, `answers` says for every packet
that was enqueued which one it answers, and `script` what the next callbacks will do. -/
structure Session where
  context : Context
  past : List Context
  inbox : List Packet
  pending : List ℕ
  answers : List (Option ℕ)
  script : List (List Act)

def Session.change (s : Session) (c : Context) : Session :=
  { s with context := c, past := s.past ++ [s.context] }

def Session.enqueue (s : Session) (pkt : Packet) (kind : Kind) (cb granted : Bool) (rnd : UInt32)
    (about : Option ℕ) : Session :=
  let (rc, c) := dmEnqueue s.context pkt kind cb granted rnd
  { s.change c with answers := if rc = .ok then s.answers ++ [about] else s.answers }

def Session.act (s : Session) : Act → Session
  | .call req cb granted rnd => s.enqueue req.val req.val.kind cb granted rnd none
  | .answer i body granted =>
    match s.inbox[i]? with
    | none => s
    | some req =>
      if i ∈ s.pending then
        { s.enqueue (body.val.answerTo req) .reply false granted 0 (some i) with
          pending := s.pending.erase i }
      else s

/-- What the callbacks of a packet do. -/
def Session.callback (s : Session) : Session :=
  (s.script.headD []).foldl Session.act { s with script := s.script.tail }

def Session.takeRequest (s : Session) (p : Packet) : Session :=
  Session.callback { s with
    inbox := s.inbox ++ [p]
    pending := if p.asks = true then s.pending ++ [s.inbox.length] else s.pending }

def Session.takeReply (s : Session) (p : Packet) : Session :=
  Session.callback { s.change (Net.processReply s.context p) with inbox := s.inbox ++ [p] }

/-- `process_request` and `process_reply` on the bytes of a packet. -/
def Session.processRequest (s : Session) (bytes : List UInt8) : Session :=
  (asPacket bytes).elim s s.takeRequest

def Session.processReply (s : Session) (bytes : List UInt8) : Session :=
  (asPacket bytes).elim s s.takeReply

/-- One end of the connection. -/
abbrev Peer := Reader Session

def Peer.start (ids : HopIds) : Peer := Reader.start [] ⟨Context.start ids, [], [], [], [], []⟩

inductive PeerEvent
  | act (a : Act)
  /-- other contexts use up ids -/
  | others (ids : HopIds)
  | write (rs : List WriteResult)
  | read (rs : List Recv) (script : List (List Act))
  /-- a timeout, or the end of the session -/
  | shutdown (event : DmconfigEvent)

def Peer.step (p : Peer) : PeerEvent → Option Peer
  | .act a => some { p with state := p.state.act a }
  | .others ids => some { p with state := p.state.change { p.state.context with ids := ids } }
  | .write rs => do
    let (_, c) ← writeEvent rs p.state.context
    some { p with state := p.state.change c }
  | .read rs script =>
    -- the watcher of a closed socket is stopped
    if p.state.context.connected = false then some p
    else do
      let p ← readEvent Session.processRequest Session.processReply rs
        { p with state := { p.state with script := script } }
      if p.closed = true then
        some { p with state := p.state.change (dmContextShutdown p.state.context .errorReading) }
      else some p
  | .shutdown event =>
    some { p with state := p.state.change (dmContextShutdown p.state.context event) }

/-! ## Both ends -/

inductive Side
  | left
  | right
  deriving DecidableEq, Repr

def Side.other : Side → Side
  | .left => .right
  | .right => .left

/-- Bytes that were written can be read, one after the other, from some later moment on. -/
def Stream.feed (s : Stream) (bytes : List UInt8) : Stream :=
  { s with later := s.later ++ bytes.map fun b => [b] }

abbrev System := Side → Peer

def System.start (ids : Side → HopIds) : System := fun x => Peer.start (ids x)

/-- An event at one end; what its socket takes goes to the other. -/
def System.step (s : System) (x : Side) (ev : PeerEvent) : Option System := do
  let p ← (s x).step ev
  let more := p.state.context.out.drop (s x).state.context.out.length
  some fun y => if y = x then p else { s y with stream := (s y).stream.feed more }

def System.run : System → List (Side × PeerEvent) → Option System
  | s, [] => some s
  | s, (x, ev) :: evs => do
    let s ← s.step x ev
    System.run s evs

/-! ## Packets with other ids -/

theorem setIds_split (p : Packet) (hopid endid : UInt32) :
    (p.setIds hopid endid).bytes = p.bytes.take 12 ++ (be 4 hopid.toNat ++ be 4 endid.toNat ++ p.bytes.drop 20) :=
  List.append_assoc _ _ _

theorem take_twelve (p : Packet) : (p.bytes.take 12).length = 12 := by
  have h := p.header
  rw [List.length_take]
  simp only [sizeofDmPacket] at h
  omega

theorem setIds_isRequest (p : Packet) (hopid endid : UInt32) : (p.setIds hopid endid).isRequest = p.isRequest := by
  have h4 : ∀ l l' : List UInt8, 4 < l.length → (l ++ l').getD 4 0 = l.getD 4 0 := by
    intro l l' hl
    rw [List.getD_eq_getElem?_getD, List.getElem?_append_left hl, List.getD_eq_getElem?_getD]
  have h12 := take_twelve p
  rw [Packet.isRequest, Packet.isRequest, setIds_split, h4 _ _ (by omega)]
  rw [← h4 (p.bytes.take 12) (p.bytes.drop 12) (by omega), List.take_append_drop]

theorem setIds_code (p : Packet) (hopid endid : UInt32) :
    dmPacketCode (p.setIds hopid endid).bytes = dmPacketCode p.bytes := by
  have h12 := take_twelve p
  have h8 : ∀ l l' : List UInt8, 8 ≤ l.length → ((l ++ l').drop 5).take 3 = (l.drop 5).take 3 := by
    intro l l' hl
    rw [List.drop_append_of_le_length (by omega), List.take_append_of_le_length]
    rw [List.length_drop]
    omega
  rw [dmPacketCode, dmPacketCode, setIds_split, h8 _ _ (by omega)]
  rw [← h8 (p.bytes.take 12) (p.bytes.drop 12) (by omega), List.take_append_drop]

theorem setIds_kind (p : Packet) (hopid endid : UInt32) : (p.setIds hopid endid).kind = p.kind := by
  rw [Packet.kind, Packet.kind, setIds_code]

theorem setIds_asks (p : Packet) (hopid endid : UInt32) : (p.setIds hopid endid).asks = p.asks := by
  rw [Packet.asks, Packet.asks, setIds_isRequest, setIds_kind]

theorem setIds_hopid (p : Packet) (hopid endid : UInt32) :
    dmHop2hopId (p.setIds hopid endid).bytes = hopid.toNat := by
  have h12 := take_twelve p
  rw [dmHop2hopId, setIds_split, List.drop_append_of_le_length (le_of_eq h12.symm),
    List.drop_eq_nil_of_le (le_of_eq h12), List.nil_append, List.append_assoc,
    List.take_append_of_le_length (le_of_eq (be_length 4 _).symm),
    List.take_of_length_le (le_of_eq (be_length 4 _))]
  exact ofBe_be_of_lt 4 _ hopid.toNat_lt

theorem hop2hopId_lt (pkt : List UInt8) : dmHop2hopId pkt < 2 ^ 32 := by
  have h := ofBe_lt ((pkt.drop 12).take 4)
  have hlen : ((pkt.drop 12).take 4).length ≤ 4 := by
    rw [List.length_take]
    exact min_le_left _ _
  exact lt_of_lt_of_le h (Nat.pow_le_pow_right (by decide) hlen)

/-- An answer has the id of its request. -/
theorem answerTo_hopid (body req : Packet) : dmHop2hopId (body.answerTo req).bytes = dmHop2hopId req.bytes := by
  rw [Packet.answerTo, setIds_hopid]
  exact UInt32.toNat_ofNat_of_lt' (hop2hopId_lt req.bytes)

theorem answerTo_isRequest (body req : Packet) : (body.answerTo req).isRequest = body.isRequest :=
  setIds_isRequest _ _ _

theorem asPacket_bytes (p : Packet) : asPacket p.bytes = some p := dif_pos ⟨p.header, p.length_eq⟩

/-! ## What changes in a context -/

/-- The entries that are still to be written. -/
def unsent (l : List RequestInfo) : List RequestInfo := l.filter fun r => r.status = .shallWrite

theorem toWrite_eq (l : List RequestInfo) : toWrite l = (unsent l).map RequestInfo.packet := rfl

theorem unsent_append (l l' : List RequestInfo) : unsent (l ++ l') = unsent l ++ unsent l' := List.filter_append _ _

theorem unsent_cons_read {r : RequestInfo} (h : r.status = .shallRead) (l : List RequestInfo) :
    unsent (r :: l) = unsent l := List.filter_cons_of_neg (by simp [h])

theorem unsent_cons_write {r : RequestInfo} (h : r.status = .shallWrite) (l : List RequestInfo) :
    unsent (r :: l) = r :: unsent l := List.filter_cons_of_pos (by simp [h])

theorem unsent_takeUp {l : List RequestInfo} {r : RequestInfo}
    (h : (l.find? fun r => r.status = .shallWrite) = some r) : unsent l = r :: unsent (takeUp l) := by
  induction l with
  | nil => exact absurd h (by simp)
  | cons q l ih =>
    by_cases hq : q.status = .shallWrite
    · rw [List.find?_cons_of_pos (by simp [hq])] at h
      cases h
      rw [unsent_cons_write hq, takeUp, if_pos hq]
      split
      · rw [unsent_cons_read rfl]
      · rfl
    · rw [List.find?_cons_of_neg (by simp [hq])] at h
      rw [takeUp, if_neg hq, unsent_cons_read (status_read hq), unsent_cons_read (status_read hq)]
      exact ih h

/-- Taking an entry up keeps the requests. -/
theorem mem_takeUp {l : List RequestInfo} {q : RequestInfo} (h : q ∈ takeUp l) :
    ∃ r ∈ l, q = r ∨ (r.kind = .request ∧ q = { r with status := .shallRead }) := by
  induction l with
  | nil => exact absurd h List.not_mem_nil
  | cons r l ih =>
    rw [takeUp] at h
    split at h
    · split at h
      · rename_i hk
        cases List.mem_cons.1 h with
        | inl h => exact ⟨r, List.mem_cons_self, .inr ⟨hk, h⟩⟩
        | inr h => exact ⟨q, List.mem_cons_of_mem r h, .inl rfl⟩
      · exact ⟨q, List.mem_cons_of_mem r h, .inl rfl⟩
    · cases List.mem_cons.1 h with
      | inl h => exact ⟨r, List.mem_cons_self, .inl h⟩
      | inr h =>
        obtain ⟨r', hr', h'⟩ := ih h
        exact ⟨r', List.mem_cons_of_mem r hr', h'⟩

theorem request_takeUp {l : List RequestInfo} {r : RequestInfo} (hr : r ∈ l) (hk : r.kind = .request) :
    ∃ q ∈ takeUp l, q.ref = r.ref ∧ q.kind = .request := by
  induction l with
  | nil => exact absurd hr List.not_mem_nil
  | cons x l ih =>
    rw [takeUp]
    split
    · cases List.mem_cons.1 hr with
      | inl h =>
        subst h
        rw [if_pos hk]
        exact ⟨_, List.mem_cons_self, rfl, hk⟩
      | inr h =>
        split
        · exact ⟨r, List.mem_cons_of_mem _ h, rfl, hk⟩
        · exact ⟨r, h, rfl, hk⟩
    · cases List.mem_cons.1 hr with
      | inl h => exact ⟨x, List.mem_cons_self, by rw [h], h ▸ hk⟩
      | inr h =>
        obtain ⟨q, hq, hqr⟩ := ih h
        exact ⟨q, List.mem_cons_of_mem x hq, hqr⟩

/-- The rule of the loops of `writeEvent`. -/
theorem writeLoop_keeps {P : Context → Prop} (hnext : ∀ s w t, P s → nextPacket s = some (w, t) → P t)
    (hwrote : ∀ s w n, P s → P (s.wrote w n)) (hstop : ∀ s, P s → P s.stopWrite)
    (hfail : ∀ s, P s → P (dmContextShutdown s .errorWriting)) {rs : List WriteResult} {s t : Context}
    {full : Bool} (hs : P s) (h : writeLoop rs s = some (full, t)) : P t := by
  induction rs generalizing s full with
  | nil =>
    rw [writeLoop] at h
    split at h
    · cases h
      exact hstop s hs
    · cases h
  | cons r rs ih =>
    rw [writeLoop] at h
    split at h
    · cases h
      exact hstop s hs
    · rename_i w u hw
      have hu := hnext s w u hs hw
      cases r with
      | wrote n =>
        dsimp only at h
        split at h
        · cases h
        · split at h
          · cases h
            exact hstop _ (hwrote u w n hu)
          · rw [Option.map_eq_some_iff] at h
            obtain ⟨⟨f, v⟩, hv, h⟩ := h
            cases h
            exact ih (hwrote u w n hu) hv
      | eagain =>
        cases h
        exact hu
      | eintr =>
        dsimp only at h
        rw [Option.map_eq_some_iff] at h
        obtain ⟨⟨f, v⟩, hv, h⟩ := h
        cases h
        exact ih hu hv
      | failed =>
        cases h
        exact hfail u hu

/-- What an enqueued packet leaves, and that it leaves nothing if it was refused. -/
theorem dmEnqueue_cases (c : Context) (req : Packet) (kind : Kind) (cb granted : Bool) (rnd : UInt32) :
    ((dmEnqueue c req kind cb granted rnd).1 ≠ .ok ∧
      ∃ ids, (dmEnqueue c req kind cb granted rnd).2 = { c with ids := ids }) ∨
    (c.connected = true ∧ dmEnqueue c req kind cb granted rnd = (.ok, { c with
      ids := c.nextIds kind rnd
      head := c.head ++ [⟨c.next, c.stamp kind rnd req, kind, cb, .shallWrite,
        dmHop2hopId (c.stamp kind rnd req).bytes⟩]
      writeActive := true
      next := c.next + 1
      enqueued := c.enqueued ++ [c.stamp kind rnd req]
      seen := c.seen ++ [.queued c.next kind (dmHop2hopId (c.stamp kind rnd req).bytes) cb] })) := by
  unfold dmEnqueue
  by_cases hc : c.connected = false
  · rw [if_pos hc]
    exact .inl ⟨by simp, c.ids, rfl⟩
  · rw [if_neg hc]
    by_cases hg : granted = false
    · rw [if_pos hg]
      exact .inl ⟨by simp, _, rfl⟩
    · rw [if_neg hg]
      exact .inr ⟨by simpa using hc, rfl⟩

theorem stamp_isRequest (c : Context) (kind : Kind) (rnd : UInt32) (req : Packet) :
    (c.stamp kind rnd req).isRequest = req.isRequest := by
  unfold Context.stamp
  split
  · rfl
  · exact setIds_isRequest _ _ _

theorem stamp_asks (c : Context) (kind : Kind) (rnd : UInt32) (req : Packet) :
    (c.stamp kind rnd req).asks = req.asks := by
  unfold Context.stamp
  split
  · rfl
  · exact setIds_asks _ _ _

/-- What a context keeps of another one while it enqueues, writes and shuts down: the bytes and packets
that are there, the requests that wait, and no new answers. -/
structure Continues (c t : Context) : Prop where
  out : c.out <+: t.out
  sent : c.enqueued <+: t.enqueued
  next : c.next ≤ t.next
  open' : t.connected = true → c.connected = true
  calls : ∀ ref pkt, (ref, .answerReady pkt) ∈ t.calls → (ref, .answerReady pkt) ∈ c.calls
  kept : t.connected = true → ∀ r ∈ c.head, r.kind = .request → ∃ q ∈ t.head, q.ref = r.ref ∧ q.kind = .request
  old : ∀ q ∈ t.head, (∃ r ∈ c.head, r.ref = q.ref) ∨ c.next ≤ q.ref
  added : t.connected = true → ∀ i p, t.enqueued[i]? = some p → c.enqueued.length ≤ i → p.asks = true →
    ∃ q ∈ t.head, q.ref = i ∧ q.kind = .request

theorem Continues.refl (c : Context) : Continues c c where
  out := List.prefix_refl _
  sent := List.prefix_refl _
  next := le_refl _
  open' := id
  calls := fun _ _ h => h
  kept := fun _ r hr hk => ⟨r, hr, rfl, hk⟩
  old := fun q hq => .inl ⟨q, hq, rfl⟩
  added := fun _ i p hp hi => by
    rw [List.getElem?_eq_none hi] at hp
    cases hp

/-- The index of a list in a longer one. -/
theorem getElem?_longer {α : Type} {l l' : List α} (h : l <+: l') {i : ℕ} {x : α} (hx : l[i]? = some x) :
    l'[i]? = some x := by
  obtain ⟨m, rfl⟩ := h
  rw [List.getElem?_append_left (List.getElem?_eq_some_iff.1 hx).1]
  exact hx

theorem Continues.trans {c t u : Context} (h : Continues c t) (h' : Continues t u) : Continues c u where
  out := h.out.trans h'.out
  sent := h.sent.trans h'.sent
  next := h.next.trans h'.next
  open' := fun hu => h.open' (h'.open' hu)
  calls := fun ref pkt hc => h.calls ref pkt (h'.calls ref pkt hc)
  kept := fun hu r hr hk => by
    obtain ⟨q, hq, hqr, hqk⟩ := h.kept (h'.open' hu) r hr hk
    obtain ⟨q', hq', hqr', hqk'⟩ := h'.kept hu q hq hqk
    exact ⟨q', hq', hqr'.trans hqr, hqk'⟩
  old := fun q hq => by
    cases h'.old q hq with
    | inl hr =>
      obtain ⟨r, hr, hrq⟩ := hr
      rw [← hrq]
      exact h.old r hr
    | inr hle => exact .inr (h.next.trans hle)
  added := fun hu i p hp hi ha => by
    by_cases hlt : i < t.enqueued.length
    · obtain ⟨x, hx⟩ : ∃ x, t.enqueued[i]? = some x := ⟨_, List.getElem?_eq_getElem hlt⟩
      have he := getElem?_longer h'.sent hx
      rw [hp] at he
      cases he
      obtain ⟨q, hq, hqr, hqk⟩ := h.added (h'.open' hu) i p hx hi ha
      obtain ⟨q', hq', hqr', hqk'⟩ := h'.kept hu q hq hqk
      exact ⟨q', hq', hqr'.trans hqr, hqk'⟩
    · exact h'.added hu i p hp (not_lt.1 hlt) ha

/-- Nothing but ids, the watcher and the rest of a packet changes. -/
theorem Continues.of_head {c t : Context} (ho : c.out <+: t.out) (he : t.enqueued = c.enqueued)
    (hn : t.next = c.next) (hc : t.connected = c.connected) (hca : t.calls = c.calls)
    (hk : ∀ r ∈ c.head, r.kind = .request → ∃ q ∈ t.head, q.ref = r.ref ∧ q.kind = .request)
    (hold : ∀ q ∈ t.head, ∃ r ∈ c.head, r.ref = q.ref) : Continues c t where
  out := ho
  sent := by rw [he]
  next := le_of_eq hn.symm
  open' := fun h => hc ▸ h
  calls := fun _ _ h => hca ▸ h
  kept := fun _ => hk
  old := fun q hq => .inl (hold q hq)
  added := fun _ i p hp hi => by
    rw [he, List.getElem?_eq_none hi] at hp
    cases hp

theorem Continues.nextPacket {s t : Context} {w : Writing} (h : nextPacket s = some (w, t)) : Continues s t := by
  unfold Net.nextPacket at h
  split at h
  · cases h
    exact Continues.refl s
  · split at h
    · cases h
    · cases h
      refine Continues.of_head (List.prefix_refl _) rfl rfl rfl rfl ?_ ?_
      · intro r hr hk
        exact request_takeUp hr hk
      · intro q hq
        obtain ⟨r, hr, h⟩ := mem_takeUp hq
        cases h with
        | inl h => exact ⟨r, hr, by rw [h]⟩
        | inr h => exact ⟨r, hr, by rw [h.2]⟩

theorem Continues.shutdown (c : Context) (event : DmconfigEvent) :
    Continues c (dmContextShutdown c event) where
  out := List.prefix_refl _
  sent := List.prefix_refl _
  next := le_refl _
  open' := fun h => absurd h (by simp [dmContextShutdown])
  calls := fun ref pkt h => by
    cases List.mem_append.1 h with
    | inl h => exact h
    | inr h =>
      obtain ⟨r, _, hr⟩ := List.mem_map.1 h
      exact absurd (congrArg Prod.snd hr) (by simp)
  kept := fun h => absurd h (by simp [dmContextShutdown])
  old := fun q hq => absurd hq List.not_mem_nil
  added := fun h => absurd h (by simp [dmContextShutdown])

theorem Continues.write {rs : List WriteResult} {s t : Context} {full : Bool}
    (h : writeEvent rs s = some (full, t)) : Continues s t := by
  have hsame : ∀ r ∈ s.head, r.kind = .request → ∃ q ∈ s.head, q.ref = r.ref ∧ q.kind = .request :=
    fun r hr hk => ⟨r, hr, rfl, hk⟩
  unfold writeEvent at h
  split at h
  · cases h
    exact Continues.refl s
  · refine writeLoop_keeps (P := fun t => Continues s t) ?_ ?_ ?_ ?_ (Continues.refl s) h
    · intro u w v hu hw
      exact hu.trans (Continues.nextPacket hw)
    · intro u w n hu
      apply hu.trans
      exact Continues.of_head (List.prefix_append _ _) rfl rfl rfl rfl
        (fun r hr hk => ⟨r, hr, rfl, hk⟩) fun q hq => ⟨q, hq, rfl⟩
    · intro u hu
      apply hu.trans
      exact Continues.of_head (List.prefix_refl _) rfl rfl rfl rfl
        (fun r hr hk => ⟨r, hr, rfl, hk⟩) fun q hq => ⟨q, hq, rfl⟩
    · intro u hu
      exact hu.trans (Continues.shutdown u _)

theorem Continues.enqueue {c : Context} (hn : c.next = c.enqueued.length) (req : Packet) (kind : Kind)
    (hk : req.asks = true → kind = .request) (cb granted : Bool) (rnd : UInt32) :
    Continues c (dmEnqueue c req kind cb granted rnd).2 := by
  cases dmEnqueue_cases c req kind cb granted rnd with
  | inl h =>
    obtain ⟨_, ids, h⟩ := h
    rw [h]
    exact Continues.of_head (List.prefix_refl _) rfl rfl rfl rfl
      (fun r hr hk => ⟨r, hr, rfl, hk⟩) fun q hq => ⟨q, hq, rfl⟩
  | inr h =>
    rw [h.2]
    refine ⟨List.prefix_refl _, List.prefix_append _ _, Nat.le_succ _, fun _ => h.1, fun _ _ h => h, ?_, ?_, ?_⟩
    · intro _ r hr hk
      exact ⟨r, List.mem_append_left _ hr, rfl, hk⟩
    · intro q hq
      cases List.mem_append.1 hq with
      | inl hq => exact .inl ⟨q, hq, rfl⟩
      | inr hq =>
        rw [List.mem_singleton.1 hq]
        exact .inr (le_refl _)
    · intro _ i p hp hi ha
      have hp : (c.enqueued ++ [c.stamp kind rnd req])[i]? = some p := hp
      have hlt := (List.getElem?_eq_some_iff.1 hp).1
      rw [List.length_append, List.length_singleton] at hlt
      have hi : i = c.enqueued.length := by omega
      rw [hi, List.getElem?_concat_length] at hp
      cases hp
      rw [stamp_asks] at ha
      exact ⟨_, List.mem_append_right _ (List.mem_singleton.2 rfl), by rw [hi, ← hn], hk ha⟩

/-! ## The entries of the queue -/

/-- An entry is about the packet that was enqueued as its `ref`th. -/
structure RequestInfo.Filed (sent : List Packet) (r : RequestInfo) : Prop where
  packet : sent[r.ref]? = some r.packet
  hopid : r.hopid = dmHop2hopId r.packet.bytes
  kind : r.kind = .request ↔ r.packet.asks = true

structure Tracked (c : Context) : Prop where
  next : c.next = c.enqueued.length
  entry : ∀ r ∈ c.head, r.Filed c.enqueued
  /-- the packets that are not taken up are the last ones -/
  waiting : ∃ k ≤ c.next, (unsent c.head).map RequestInfo.ref = List.range' k (c.next - k)
  alive : c.connected = true → ∀ x ∈ c.calls, ∃ pkt, x.2 = .answerReady pkt

theorem tracked_start (ids : HopIds) : Tracked (Context.start ids) where
  next := rfl
  entry := fun _ h => absurd h List.not_mem_nil
  waiting := ⟨0, le_refl _, rfl⟩
  alive := fun _ _ h => absurd h List.not_mem_nil

theorem RequestInfo.Filed.mono {sent sent' : List Packet} {r : RequestInfo} (h : r.Filed sent)
    (hs : sent <+: sent') : r.Filed sent' := ⟨getElem?_longer hs h.packet, h.hopid, h.kind⟩

/-- The watcher, the ids and the bytes that are written do not matter. -/
theorem Tracked.congr {c t : Context} (h : Tracked c) (hh : t.head = c.head) (hn : t.next = c.next)
    (he : t.enqueued = c.enqueued) (hca : t.calls = c.calls) (hc : t.connected = c.connected) : Tracked t where
  next := by rw [hn, he, h.next]
  entry := by rw [hh, he]; exact h.entry
  waiting := by rw [hh, hn]; exact h.waiting
  alive := by rw [hc, hca]; exact h.alive

theorem Tracked.enqueue {c : Context} (h : Tracked c) (req : Packet) (kind : Kind)
    (hk : kind = .request ↔ req.asks = true) (cb granted : Bool) (rnd : UInt32) :
    Tracked (dmEnqueue c req kind cb granted rnd).2 := by
  cases dmEnqueue_cases c req kind cb granted rnd with
  | inl hc =>
    obtain ⟨_, ids, hc⟩ := hc
    rw [hc]
    exact h.congr rfl rfl rfl rfl rfl
  | inr hc =>
    rw [hc.2]
    obtain ⟨k, hkn, hw⟩ := h.waiting
    refine ⟨?_, ?_, ⟨k, le_trans hkn (Nat.le_succ _), ?_⟩, h.alive⟩
    · show c.next + 1 = (c.enqueued ++ [_]).length
      rw [List.length_append, h.next]
      rfl
    · intro r hr
      cases List.mem_append.1 hr with
      | inl hr => exact (h.entry r hr).mono (List.prefix_append _ _)
      | inr hr =>
        rw [List.mem_singleton.1 hr]
        refine ⟨?_, rfl, ?_⟩
        · show (c.enqueued ++ [c.stamp kind rnd req])[c.next]? = _
          rw [h.next, List.getElem?_concat_length]
        · show kind = .request ↔ (c.stamp kind rnd req).asks = true
          rw [stamp_asks]
          exact hk
    · show (unsent (c.head ++ [_])).map RequestInfo.ref = List.range' k (c.next + 1 - k)
      rw [unsent_append, List.map_append, hw, unsent_cons_write rfl, Nat.succ_sub hkn, List.range'_1_concat]
      show _ ++ [c.next] = _ ++ [k + (c.next - k)]
      rw [Nat.add_sub_cancel' hkn]

theorem Tracked.nextPacket {s t : Context} {w : Writing} (hs : Tracked s) (h : nextPacket s = some (w, t)) :
    Tracked t := by
  unfold Net.nextPacket at h
  split at h
  · cases h
    exact hs
  · split at h
    · cases h
    · rename_i r hf
      cases h
      obtain ⟨k, hkn, hw⟩ := hs.waiting
      rw [unsent_takeUp hf, List.map_cons] at hw
      have hlt : k < s.next := by
        by_contra hle
        rw [Nat.sub_eq_zero_of_le (not_lt.1 hle)] at hw
        cases hw
      rw [show s.next - k = (s.next - (k + 1)) + 1 by omega, List.range'_succ] at hw
      refine ⟨hs.next, ?_, ⟨k + 1, hlt, (List.cons.inj hw).2⟩, hs.alive⟩
      intro q hq
      obtain ⟨r', hr', hq⟩ := mem_takeUp hq
      have hf' := hs.entry r' hr'
      cases hq with
      | inl hq =>
        rw [hq]
        exact hf'
      | inr hq =>
        rw [hq.2]
        exact ⟨hf'.packet, hf'.hopid, hf'.kind⟩

theorem Tracked.shutdown {c : Context} (h : Tracked c) (event : DmconfigEvent) :
    Tracked (dmContextShutdown c event) where
  next := h.next
  entry := fun r hr => absurd hr List.not_mem_nil
  waiting := ⟨c.next, le_refl _, by rw [show (dmContextShutdown c event).next = c.next from rfl, Nat.sub_self]; rfl⟩
  alive := fun hc => absurd hc (by simp [dmContextShutdown])

theorem Tracked.write {rs : List WriteResult} {s t : Context} {full : Bool} (hs : Tracked s)
    (h : writeEvent rs s = some (full, t)) : Tracked t := by
  unfold writeEvent at h
  split at h
  · cases h
    exact hs
  · exact writeLoop_keeps (fun u w v hu hw => hu.nextPacket hw) (fun u w n hu => hu.congr rfl rfl rfl rfl rfl)
      (fun u hu => hu.congr rfl rfl rfl rfl rfl) (fun u hu => hu.shutdown _) hs h

/-- What a reply leaves: it finds no entry that waits, or takes the first one with its id. -/
theorem processReply_cases (c : Context) (pkt : Packet) :
    (processReply c pkt).head = c.head ∧ (processReply c pkt).calls = c.calls ∨
    ∃ q, (c.head.find? fun r => r.hopid = dmHop2hopId pkt.bytes) = some q ∧ q.status = .shallRead ∧
      (processReply c pkt).head = c.head.eraseP (fun r => r.hopid = dmHop2hopId pkt.bytes) ∧
      (processReply c pkt).calls = if q.cb = true then c.calls ++ [(q.ref, .answerReady pkt)] else c.calls := by
  unfold Net.processReply
  dsimp only
  split
  · exact .inl ⟨rfl, rfl⟩
  · rename_i q hf
    split
    · exact .inl ⟨rfl, rfl⟩
    · rename_i hst
      exact .inr ⟨q, hf, not_not.1 hst, rfl, rfl⟩

theorem processReply_next (c : Context) (pkt : Packet) : (processReply c pkt).next = c.next := by
  unfold Net.processReply
  dsimp only
  split
  · rfl
  · split
    · rfl
    · rfl

theorem unsent_eraseP {l : List RequestInfo} {p : RequestInfo → Bool} {q : RequestInfo} (hf : l.find? p = some q)
    (hq : q.status = .shallRead) : unsent (l.eraseP p) = unsent l := by
  obtain ⟨hpq, as, bs, hsplit, has⟩ := List.find?_eq_some_iff_append.1 hf
  have hno : ∀ b ∈ as, ¬p b = true := fun b hb => by simpa using has b hb
  rw [hsplit, List.eraseP_append_right _ hno, List.eraseP_cons_of_pos hpq, unsent_append, unsent_append,
    unsent_cons_read hq]

theorem Tracked.reply {c : Context} (h : Tracked c) (pkt : Packet) : Tracked (processReply c pkt) := by
  obtain ⟨hc, _, _, _, he⟩ := processReply_frame c pkt
  have hn := processReply_next c pkt
  cases processReply_cases c pkt with
  | inl hcase => exact h.congr hcase.1 hn he hcase.2 hc
  | inr hcase =>
    obtain ⟨q, hf, hst, hhead, hcalls⟩ := hcase
    refine ⟨by rw [hn, he, h.next], ?_, ?_, ?_⟩
    · intro r hr
      rw [hhead] at hr
      rw [he]
      exact h.entry r (List.mem_of_mem_eraseP hr)
    · rw [hhead, hn, unsent_eraseP hf hst]
      exact h.waiting
    · intro hcon x hx
      rw [hc] at hcon
      rw [hcalls] at hx
      split at hx
      · cases List.mem_append.1 hx with
        | inl hx => exact h.alive hcon x hx
        | inr hx => exact ⟨pkt, by rw [List.mem_singleton.1 hx]⟩
      · exact h.alive hcon x hx

end Mand.Net
