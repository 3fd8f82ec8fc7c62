import Mathlib.Logic.Function.Basic
import Mand.Lib.Run
import Mand.Net.Progress

/-! # Reads inside of callbacks

A callback that waits in an event loop lets `readEvent` run again for its own connection. The packet that is
read, its position and what is left of it belong to the connection; after its callback the outer `readEvent`
frees whatever packet it finds there. -/
namespace Mand.Net
open Mand.Msg Mand.Bytes Mand.Run
set_option autoImplicit false

/-! ## The connection -/

/-- A callback that has not returned: the packet it was called with and the bytes of it at that time. -/
structure Working where
  buffer : ℕ
  packet : List UInt8
  deriving DecidableEq, Repr

/-- `readCtx` with the packets that are allocated, the callbacks of its `readEvent` calls, innermost first,
and the packets that were handed on. -/
structure Nested where
  heap : ℕ → Option (List UInt8)
  next : ℕ
  packet : Option ℕ
  left : ℕ
  stream : Stream
  closed : Bool
  callbacks : List Working
  /-- the innermost `readEvent` is at `again` -/
  looping : Bool
  log : List (List UInt8)

inductive ReadAct
  /-- the connection is readable, and the innermost event loop calls `readEvent` -/
  | readable
  /-- a turn of the innermost `readEvent` -/
  | turn (recv : Recv)
  /-- the innermost callback returns -/
  | finish
  /-- the innermost callback ends the connection -/
  | shutdown
  deriving DecidableEq, Repr

/-- A packet of which nothing is left is handed on. -/
def Nested.complete (s : Nested) : Option Nested :=
  if s.left = 0 then do
    let b ← s.packet
    let bytes ← s.heap b
    let _ ← bytes[4]?
    some { s with
      callbacks := ⟨b, bytes⟩ :: s.callbacks
      looping := false
      log := s.log ++ [bytes] }
  else some s

/-- `readEvent` from `again` to its next call or jump. -/
def Nested.turn (s : Nested) : Recv → Option Nested
  | .eintr => some s
  | .failed => some { s with closed := true, looping := false }
  | .ready k cap =>
    let t := s.stream.arrive k
    if s.left = 0 then
      if t.ready.length < sizeofDmPacket then some { s with stream := t, looping := false }
      else Nested.complete { s with
        stream := t
        heap := Function.update s.heap s.next (some [])
        next := s.next + 1
        packet := some s.next
        left := dmPacketLength t.ready }
    else if t.ready = [] then some { s with stream := t, looping := false }
    else do
      let len := min (min (cap + 1) s.left) t.ready.length
      let b ← s.packet
      let bytes ← s.heap b
      Nested.complete { s with
        stream := t.consume len
        heap := Function.update s.heap b (some (bytes ++ t.ready.take len))
        left := s.left - len }

/-- `talloc_free`. -/
def freePacket (heap : ℕ → Option (List UInt8)) : Option ℕ → Option (ℕ → Option (List UInt8))
  | none => some heap
  | some b => (heap b).map fun _ => Function.update heap b none

/-- One step. On a closed socket the next call fails. -/
def Nested.step (s : Nested) : ReadAct → Option Nested
  | .readable => if s.looping = false ∧ s.closed = false then some { s with looping := true } else none
  | .turn c =>
    if s.looping = true then s.turn (if s.closed = true then .failed else c) else none
  | .finish =>
    if s.looping = true then none
    else match s.callbacks with
      | [] => none
      | _ :: ws => do
        let heap ← freePacket s.heap s.packet
        some { s with heap := heap, packet := none, left := 0, callbacks := ws, looping := true }
  | .shutdown => if s.looping = false ∧ s.callbacks ≠ [] then some { s with closed := true } else none

def Nested.start (chunks : List (List UInt8)) : Nested where
  heap := fun _ => none
  next := 0
  packet := none
  left := 0
  stream := ⟨[], chunks⟩
  closed := false
  callbacks := []
  looping := false
  log := []

/-- What was read of the packet that is not complete. -/
def Nested.begun (s : Nested) : List UInt8 :=
  if s.left = 0 then [] else (s.packet.bind s.heap).getD []

/-! ## What reading is to keep -/

/-- The packets that the callbacks work on are allocated and as they were handed on. The first packets were
handed on, each once and in order; what was read of the next one is there and followed by the rest of the
stream; reading can go on; and when nothing is to come and no callback works, all were handed on. -/
structure Intact (pkts : List Packet) (s : Nested) : Prop where
  working : ∀ w ∈ s.callbacks, s.heap w.buffer = some w.packet ∧ w.packet ∈ s.log
  handed : s.log = (pkts.take s.log.length).map Packet.bytes
  rest : s.closed = false → s.begun ++ s.stream.all = flatten (pkts.drop s.log.length)
  going : s.looping = true → ∀ recv, ∃ t, s.step (.turn recv) = some t
  settled : s.closed = false → s.looping = false → s.callbacks = [] → s.stream.later = [] →
    s.log.length = pkts.length

/-- When a callback returns, no packet has been begun behind its back. -/
def atBoundary (s : Nested) : ReadAct → Bool
  | .finish => s.closed || s.left = 0
  | _ => true

/-- What holds of a connection in any case. -/
structure Sound (s : Nested) : Prop where
  working : ∀ w ∈ s.callbacks, s.heap w.buffer = some w.packet ∧ w.packet ∈ s.log
  older : ∀ w ∈ s.callbacks, w.buffer < s.next
  apart : (s.callbacks.map Working.buffer).Nodup
  live : ∀ b, s.packet = some b → b < s.next ∧ ∃ bytes, s.heap b = some bytes
  own : s.left = 0 → ∀ b, s.packet = some b → (s.callbacks.map Working.buffer).head? = some b
  fresh : s.left ≠ 0 → ∃ b, s.packet = some b ∧ b ∉ s.callbacks.map Working.buffer
  inside : s.left ≠ 0 → sizeofDmPacket ≤ (s.begun ++ s.stream.all).length ∧
    s.begun.length + s.left = dmPacketLength (s.begun ++ s.stream.all)
  ahead : s.closed = false → s.left ≠ 0 → s.begun = [] → s.looping = true ∧ s.stream.ready ≠ []
  stalled : s.closed = false → s.looping = false → s.callbacks = [] →
    (s.left = 0 → s.stream.ready.length < sizeofDmPacket) ∧ (s.left ≠ 0 → s.stream.ready = [])

/-! ## What a turn does -/

/-- The state after a header was found. -/
def Nested.found (s : Nested) (k : ℕ) : Nested := { s with
  stream := s.stream.arrive k
  heap := Function.update s.heap s.next (some [])
  next := s.next + 1
  packet := some s.next
  left := dmPacketLength (s.stream.arrive k).ready }

/-- The state after `len` bytes were read into packet `b`. -/
def Nested.took (s : Nested) (k len b : ℕ) (bytes : List UInt8) : Nested := { s with
  stream := (s.stream.arrive k).consume len
  heap := Function.update s.heap b (some (bytes ++ (s.stream.arrive k).ready.take len))
  left := s.left - len }

/-- The state after packet `b` was handed on. -/
def Nested.hand (s : Nested) (b : ℕ) (bytes : List UInt8) : Nested := { s with
  callbacks := ⟨b, bytes⟩ :: s.callbacks
  looping := false
  log := s.log ++ [bytes] }

inductive Turn (s : Nested) : Nested → Prop
  | interrupted : Turn s s
  | failed : Turn s { s with closed := true, looping := false }
  | blocked (k : ℕ) : (s.left = 0 → (s.stream.arrive k).ready.length < sizeofDmPacket) →
    (s.left ≠ 0 → (s.stream.arrive k).ready = []) →
    Turn s { s with stream := s.stream.arrive k, looping := false }
  | header (k : ℕ) : s.left = 0 → sizeofDmPacket ≤ (s.stream.arrive k).ready.length →
    dmPacketLength (s.stream.arrive k).ready ≠ 0 → Turn s (s.found k)
  | part (k len b : ℕ) (bytes : List UInt8) : s.packet = some b → s.heap b = some bytes → 0 < len →
    len < s.left → len ≤ (s.stream.arrive k).ready.length → Turn s (s.took k len b bytes)
  | whole (k b : ℕ) (bytes : List UInt8) : s.packet = some b → s.heap b = some bytes → s.left ≠ 0 →
    s.left ≤ (s.stream.arrive k).ready.length →
    Turn s ((s.took k s.left b bytes).hand b (bytes ++ (s.stream.arrive k).ready.take s.left))

theorem complete_some {s s' : Nested} (h : s.complete = some s') :
    (s.left ≠ 0 ∧ s' = s) ∨ (s.left = 0 ∧ ∃ b bytes, s.packet = some b ∧ s.heap b = some bytes ∧
      4 < bytes.length ∧ s' = s.hand b bytes) := by
  rw [Nested.complete] at h
  split at h
  · rename_i h0
    simp only [Option.bind_eq_bind, Option.bind_eq_some_iff] at h
    obtain ⟨b, hb, bytes, hbytes, _, h4, h⟩ := h
    cases h
    exact .inr ⟨h0, b, bytes, hb, hbytes, (List.getElem?_eq_some_iff.1 h4).1, rfl⟩
  · rename_i h0
    cases h
    exact .inl ⟨h0, rfl⟩

theorem turn_turn {s s' : Nested} {c : Recv} (h : s.turn c = some s') : Turn s s' := by
  cases c with
  | eintr =>
    cases h
    exact .interrupted
  | failed =>
    cases h
    exact .failed
  | ready k cap =>
    rw [Nested.turn] at h
    dsimp only at h
    by_cases h0 : s.left = 0
    · rw [if_pos h0] at h
      by_cases hlt : (s.stream.arrive k).ready.length < sizeofDmPacket
      · rw [if_pos hlt] at h
        cases h
        exact .blocked k (fun _ => hlt) (fun hne => absurd h0 hne)
      · rw [if_neg hlt] at h
        obtain ⟨hl, rfl⟩ | ⟨_, b, bytes, hb, hbytes, h4, _⟩ := complete_some h
        · exact .header k h0 (Nat.le_of_not_lt hlt) hl
        · -- a packet without bytes has no flags
          have hb : s.next = b := Option.some.inj hb
          subst hb
          have hbytes : Function.update s.heap s.next (some []) s.next = some bytes := hbytes
          rw [Function.update_self] at hbytes
          cases hbytes
          exact absurd h4 (by decide)
    · rw [if_neg h0] at h
      by_cases hnil : (s.stream.arrive k).ready = []
      · rw [if_pos hnil] at h
        cases h
        exact .blocked k (fun h => absurd h h0) (fun _ => hnil)
      · rw [if_neg hnil] at h
        simp only [Option.bind_eq_bind, Option.bind_eq_some_iff] at h
        obtain ⟨b, hb, bytes, hbytes, h⟩ := h
        have hpos := List.length_pos_of_ne_nil hnil
        have hle : min (min (cap + 1) s.left) (s.stream.arrive k).ready.length ≤ s.left := by omega
        have hle' : min (min (cap + 1) s.left) (s.stream.arrive k).ready.length ≤
            (s.stream.arrive k).ready.length := by omega
        have h1 : 0 < min (min (cap + 1) s.left) (s.stream.arrive k).ready.length := by omega
        generalize min (min (cap + 1) s.left) (s.stream.arrive k).ready.length = len at *
        obtain ⟨hl, rfl⟩ | ⟨hl, b', bytes', hb', hbytes', _, rfl⟩ := complete_some h
        · have hl : s.left - len ≠ 0 := hl
          exact .part k len b bytes hb hbytes h1 (by omega) hle'
        · have hl : s.left - len = 0 := hl
          have hlen : len = s.left := by omega
          have hb' : s.packet = some b' := hb'
          rw [hb] at hb'
          cases hb'
          have hbytes' : Function.update s.heap b (some _) b = some bytes' := hbytes'
          rw [Function.update_self] at hbytes'
          cases hbytes'
          subst hlen
          exact .whole k b bytes hb hbytes h0 hle'

/-! ## What was begun -/

theorem begun_zero {s : Nested} (h : s.left = 0) : s.begun = [] := if_pos h

theorem begun_some {s : Nested} {b : ℕ} {bytes : List UInt8} (h : s.left ≠ 0) (hb : s.packet = some b)
    (hbytes : s.heap b = some bytes) : s.begun = bytes := by
  rw [Nested.begun, if_neg h, hb, Option.bind_some, hbytes]
  rfl

theorem begun_found {s : Nested} (k : ℕ) : (s.found k).begun = [] := by
  by_cases h : dmPacketLength (s.stream.arrive k).ready = 0
  · exact begun_zero h
  · apply begun_some h (b := s.next) rfl
    exact Function.update_self ..

theorem begun_took {s : Nested} {k len b : ℕ} {bytes : List UInt8} (hb : s.packet = some b)
    (hlen : len < s.left) :
    (s.took k len b bytes).begun = bytes ++ (s.stream.arrive k).ready.take len := by
  have hleft : (s.took k len b bytes).left ≠ 0 := by
    show s.left - len ≠ 0
    omega
  have hb' : (s.took k len b bytes).packet = some b := hb
  exact begun_some hleft hb' (Function.update_self ..)

theorem arrive_ready {s : Stream} (k : ℕ) (h : s.ready ≠ []) : (s.arrive k).ready ≠ [] := by
  intro hnil
  exact h (List.append_eq_nil_iff.1 hnil).1

/-- What was read goes on where the stream was. -/
theorem took_all {s : Nested} {k len : ℕ} (bytes : List UInt8)
    (hle : len ≤ (s.stream.arrive k).ready.length) :
    (bytes ++ (s.stream.arrive k).ready.take len) ++ ((s.stream.arrive k).consume len).all =
      bytes ++ s.stream.all := by
  rw [List.append_assoc, ← Stream.take_all hle, Stream.arrive_all]

/-! ## The invariant -/

/-- A packet that is not a callback's can change. -/
theorem working_update {s : Nested} {b : ℕ} (x : Option (List UInt8))
    (hw : ∀ w ∈ s.callbacks, s.heap w.buffer = some w.packet ∧ w.packet ∈ s.log)
    (hb : b ∉ s.callbacks.map Working.buffer) :
    ∀ w ∈ s.callbacks, Function.update s.heap b x w.buffer = some w.packet ∧ w.packet ∈ s.log := by
  intro w hmem
  rw [Function.update_of_ne]
  · exact hw w hmem
  · intro h
    exact hb (List.mem_map.2 ⟨w, hmem, h⟩)

theorem Sound.next_apart {s : Nested} (h : Sound s) : s.next ∉ s.callbacks.map Working.buffer := by
  intro hmem
  obtain ⟨w, hw, he⟩ := List.mem_map.1 hmem
  have := h.older w hw
  omega

/-- The packet that is being read is no callback's. -/
theorem Sound.apart_packet {s : Nested} (h : Sound s) {b : ℕ} (h0 : s.left ≠ 0)
    (hb : s.packet = some b) : b ∉ s.callbacks.map Working.buffer := by
  obtain ⟨b', hb', hfresh⟩ := h.fresh h0
  rw [hb] at hb'
  cases hb'
  exact hfresh

theorem Sound.found {s : Nested} (h : Sound s) (hl : s.looping = true) {k : ℕ}
    (hle : sizeofDmPacket ≤ (s.stream.arrive k).ready.length)
    (hpos : dmPacketLength (s.stream.arrive k).ready ≠ 0) : Sound (s.found k) := by
  have h20 : sizeofDmPacket = 20 := rfl
  have hbegun := begun_found (s := s) k
  refine ⟨working_update _ h.working h.next_apart, ?_, h.apart, ?_, fun h0 => absurd h0 hpos, ?_, ?_, ?_, ?_⟩
  · intro w hw
    exact Nat.lt_succ_of_lt (h.older w hw)
  · intro b hb
    have hb : s.next = b := Option.some.inj hb
    subst hb
    exact ⟨Nat.lt_succ_self _, [], Function.update_self ..⟩
  · intro _
    exact ⟨s.next, rfl, h.next_apart⟩
  · intro _
    rw [hbegun]
    show _ ≤ (s.stream.arrive k).all.length ∧
      0 + dmPacketLength (s.stream.arrive k).ready = dmPacketLength (s.stream.arrive k).all
    rw [Stream.all, dmPacketLength_append _ (by omega), List.length_append]
    omega
  · intro _ _ _
    refine ⟨hl, ?_⟩
    intro hnil
    have hnil : (s.stream.arrive k).ready = [] := hnil
    rw [hnil] at hle
    exact absurd hle (by decide)
  · intro _ hno
    exact absurd (hl.symm.trans hno) (by decide)

theorem Sound.part {s : Nested} (h : Sound s) (hl : s.looping = true) {k len b : ℕ} {bytes : List UInt8}
    (hb : s.packet = some b) (hbytes : s.heap b = some bytes) (hpos : 0 < len) (hlen : len < s.left)
    (hle : len ≤ (s.stream.arrive k).ready.length) : Sound (s.took k len b bytes) := by
  have h0 : s.left ≠ 0 := by omega
  have hapart := h.apart_packet h0 hb
  have hbegun := @begun_took s k len b bytes hb hlen
  have htake : ((s.stream.arrive k).ready.take len).length = len := List.length_take_of_le hle
  refine ⟨working_update _ h.working hapart, h.older, h.apart, ?_, ?_, fun _ => ⟨b, hb, hapart⟩, ?_, ?_, ?_⟩
  · intro b' hb'
    have hb' : s.packet = some b' := hb'
    rw [hb] at hb'
    cases hb'
    exact ⟨(h.live b hb).1, _, Function.update_self ..⟩
  · intro hdone
    have hdone : s.left - len = 0 := hdone
    omega
  · intro _
    have hin := h.inside h0
    rw [begun_some h0 hb hbytes] at hin
    rw [hbegun]
    show sizeofDmPacket ≤ (bytes ++ _ ++ ((s.stream.arrive k).consume len).all).length ∧
      (bytes ++ _).length + (s.left - len) =
        dmPacketLength (bytes ++ _ ++ ((s.stream.arrive k).consume len).all)
    rw [took_all bytes hle]
    refine ⟨hin.1, ?_⟩
    rw [List.length_append, htake]
    omega
  · intro _ _ hnil
    rw [hbegun] at hnil
    have hnil := congrArg List.length hnil
    rw [List.length_append, htake, List.length_nil] at hnil
    omega
  · intro _ hno
    exact absurd (hl.symm.trans hno) (by decide)

theorem Sound.whole {s : Nested} (h : Sound s) {k b : ℕ} {bytes : List UInt8} (hb : s.packet = some b)
    (h0 : s.left ≠ 0) :
    Sound ((s.took k s.left b bytes).hand b (bytes ++ (s.stream.arrive k).ready.take s.left)) := by
  have hapart := h.apart_packet h0 hb
  have hdone : s.left - s.left = 0 := Nat.sub_self _
  refine ⟨?_, ?_, ?_, ?_, ?_, fun hne => absurd hdone hne, fun hne => absurd hdone hne,
    fun _ hne => absurd hdone hne, ?_⟩
  · intro w hw
    rcases List.mem_cons.1 hw with rfl | hw
    · exact ⟨Function.update_self .., List.mem_append_right _ List.mem_cons_self⟩
    · obtain ⟨hheap, hlog⟩ := working_update
        (some (bytes ++ (s.stream.arrive k).ready.take s.left)) h.working hapart w hw
      exact ⟨hheap, List.mem_append_left _ hlog⟩
  · intro w hw
    rcases List.mem_cons.1 hw with rfl | hw
    · exact (h.live b hb).1
    · exact h.older w hw
  · exact List.nodup_cons.2 ⟨hapart, h.apart⟩
  · intro b' hb'
    have hb' : s.packet = some b' := hb'
    rw [hb] at hb'
    cases hb'
    exact ⟨(h.live b hb).1, _, Function.update_self ..⟩
  · intro _ b' hb'
    have hb' : s.packet = some b' := hb'
    rw [hb] at hb'
    exact hb'
  · intro _ _ hnil
    cases hnil

theorem Sound.turn {s s' : Nested} (h : Sound s) (hl : s.looping = true) (ht : Turn s s') : Sound s' := by
  cases ht with
  | interrupted => exact h
  | failed =>
    exact ⟨h.working, h.older, h.apart, h.live, h.own, h.fresh, h.inside, fun hc => (nomatch hc),
      fun hc => (nomatch hc)⟩
  | blocked k hshort hempty =>
    refine ⟨h.working, h.older, h.apart, h.live, h.own, h.fresh, ?_, ?_, fun _ _ _ => ⟨hshort, hempty⟩⟩
    · intro h0
      have hin := h.inside h0
      rw [← Stream.arrive_all s.stream k] at hin
      exact hin
    · intro hc h0 hnil
      exact absurd (hempty h0) (arrive_ready k (h.ahead hc h0 hnil).2)
  | header k h0 hle hpos => exact h.found hl hle hpos
  | part k len b bytes hb hbytes hpos hlen hle => exact h.part hl hb hbytes hpos hlen hle
  | whole k b bytes hb hbytes h0 hle => exact h.whole hb h0

/-- What is freed is no packet that an outer callback works on. -/
theorem Sound.spares {s : Nested} (h : Sound s) {w : Working} {ws : List Working}
    (hw : s.callbacks = w :: ws) {b : ℕ} (hb : s.packet = some b) : b ∉ ws.map Working.buffer := by
  have hapart := h.apart
  rw [hw, List.map_cons, List.nodup_cons] at hapart
  by_cases h0 : s.left = 0
  · have hown := h.own h0 b hb
    rw [hw] at hown
    cases hown
    exact hapart.1
  · intro hmem
    apply h.apart_packet h0 hb
    rw [hw, List.map_cons]
    exact List.mem_cons_of_mem _ hmem

theorem freePacket_some {heap heap' : ℕ → Option (List UInt8)} {p : Option ℕ}
    (h : freePacket heap p = some heap') {b : ℕ} (hb : p ≠ some b) : heap' b = heap b := by
  cases p with
  | none =>
    cases h
    rfl
  | some c =>
    obtain ⟨_, _, rfl⟩ := Option.map_eq_some_iff.1 h
    apply Function.update_of_ne
    intro hc
    exact hb (by rw [hc])

theorem Sound.finish {s : Nested} (h : Sound s) {w : Working} {ws : List Working}
    (hw : s.callbacks = w :: ws) {heap : ℕ → Option (List UInt8)}
    (hfree : freePacket s.heap s.packet = some heap) :
    Sound { s with heap := heap, packet := none, left := 0, callbacks := ws, looping := true } := by
  have hsub : ∀ v ∈ ws, v ∈ s.callbacks := by
    intro v hv
    rw [hw]
    exact List.mem_cons_of_mem w hv
  have hapart := h.apart
  rw [hw, List.map_cons, List.nodup_cons] at hapart
  refine ⟨?_, fun v hv => h.older v (hsub v hv), hapart.2, fun b hb => (nomatch hb), fun _ b hb => (nomatch hb),
    fun hne => absurd rfl hne, fun hne => absurd rfl hne, fun _ hne => absurd rfl hne, fun _ hno => (nomatch hno)⟩
  intro v hv
  have hne : s.packet ≠ some v.buffer := by
    intro hb
    exact h.spares hw hb (List.mem_map.2 ⟨v, hv, rfl⟩)
  obtain ⟨hheap, hlog⟩ := h.working v (hsub v hv)
  exact ⟨(freePacket_some hfree hne).trans hheap, hlog⟩

theorem Sound.step {s s' : Nested} {act : ReadAct} (h : Sound s) (hs : s.step act = some s') : Sound s' := by
  cases act with
  | readable =>
    rw [Nested.step] at hs
    split at hs
    · cases hs
      refine ⟨h.working, h.older, h.apart, h.live, h.own, h.fresh, h.inside, ?_, fun _ hno => (nomatch hno)⟩
      intro hc h0 hnil
      exact ⟨rfl, (h.ahead hc h0 hnil).2⟩
    · cases hs
  | turn c =>
    rw [Nested.step] at hs
    split at hs
    · rename_i hl
      exact h.turn hl (turn_turn hs)
    · cases hs
  | finish =>
    rw [Nested.step] at hs
    split at hs
    · cases hs
    · cases hw : s.callbacks with
      | nil =>
        rw [hw] at hs
        cases hs
      | cons w ws =>
        rw [hw] at hs
        obtain ⟨heap, hfree, hs⟩ := Option.bind_eq_some_iff.1 hs
        cases hs
        exact h.finish hw hfree
  | shutdown =>
    rw [Nested.step] at hs
    split at hs
    · cases hs
      exact ⟨h.working, h.older, h.apart, h.live, h.own, h.fresh, h.inside, fun hc => (nomatch hc),
        fun hc => (nomatch hc)⟩
    · cases hs

theorem Sound.start (chunks : List (List UInt8)) : Sound (Nested.start chunks) := by
  refine ⟨fun w hw => absurd hw List.not_mem_nil, fun w hw => absurd hw List.not_mem_nil, List.nodup_nil,
    fun b hb => (nomatch hb), fun _ b hb => (nomatch hb), fun hne => absurd rfl hne, fun hne => absurd rfl hne,
    fun _ hne => absurd rfl hne, fun _ _ _ => ⟨fun _ => Nat.succ_pos 19, fun hne => absurd rfl hne⟩⟩

/-! ## Packets -/

/-- The packet that is being read is the next one of the stream. -/
theorem Sound.next_packet {s : Nested} (h : Sound s) {rest : List Packet} (h0 : s.left ≠ 0)
    (hrest : s.begun ++ s.stream.all = flatten rest) :
    ∃ p ps, rest = p :: ps ∧ s.begun.length + s.left = p.bytes.length := by
  obtain ⟨hlong, hfield⟩ := h.inside h0
  cases rest with
  | nil =>
    rw [hrest] at hlong
    exact absurd hlong (by decide)
  | cons p ps =>
    refine ⟨p, ps, rfl, ?_⟩
    have hp : 4 ≤ p.bytes.length := le_trans (by decide) p.header
    rw [hfield, hrest, flatten_cons, dmPacketLength_append _ hp, p.length_eq]

/-- A header that can be looked at is the next packet's. -/
theorem header_packet {s : Stream} {rest : List Packet} (k : ℕ) (hall : s.all = flatten rest)
    (hle : sizeofDmPacket ≤ (s.arrive k).ready.length) : dmPacketLength (s.arrive k).ready ≠ 0 := by
  rw [← Stream.arrive_all s k] at hall
  cases rest with
  | nil =>
    have hlen := congrArg List.length hall
    rw [Stream.all, List.length_append] at hlen
    have h20 : sizeofDmPacket = 20 := rfl
    have hz : (flatten []).length = 0 := rfl
    omega
  | cons p ps =>
    rw [length_of_ready hall hle]
    have := p.length_pos
    omega

/-- With packets to come a turn is no fault. -/
theorem Sound.goes {s : Nested} (h : Sound s) {rest : List Packet}
    (hrest : s.begun ++ s.stream.all = flatten rest) (c : Recv) : ∃ t, s.turn c = some t := by
  cases c with
  | eintr => exact ⟨_, rfl⟩
  | failed => exact ⟨_, rfl⟩
  | ready k cap =>
    rw [Nested.turn]
    dsimp only
    by_cases h0 : s.left = 0
    · rw [if_pos h0]
      rw [begun_zero h0, List.nil_append] at hrest
      by_cases hlt : (s.stream.arrive k).ready.length < sizeofDmPacket
      · rw [if_pos hlt]
        exact ⟨_, rfl⟩
      · rw [if_neg hlt, Nested.complete]
        rw [if_neg (header_packet k hrest (Nat.le_of_not_lt hlt))]
        exact ⟨_, rfl⟩
    · rw [if_neg h0]
      by_cases hnil : (s.stream.arrive k).ready = []
      · rw [if_pos hnil]
        exact ⟨_, rfl⟩
      · rw [if_neg hnil]
        obtain ⟨b, hb, _⟩ := h.fresh h0
        obtain ⟨_, bytes, hbytes⟩ := h.live b hb
        obtain ⟨p, ps, _, hlen⟩ := h.next_packet h0 hrest
        rw [begun_some h0 hb hbytes] at hlen
        have hp := p.header
        have h20 : sizeofDmPacket = 20 := rfl
        have hle : min (min (cap + 1) s.left) (s.stream.arrive k).ready.length ≤
            (s.stream.arrive k).ready.length := by omega
        generalize min (min (cap + 1) s.left) (s.stream.arrive k).ready.length = len at *
        simp only [hb, hbytes, Option.bind_eq_bind, Option.bind_some, Nested.complete, Function.update_self]
        by_cases hdone : s.left - len = 0
        · have h4 : 4 < (bytes ++ (s.stream.arrive k).ready.take len).length := by
            rw [List.length_append, List.length_take]
            omega
          rw [if_pos hdone, List.getElem?_eq_getElem h4]
          exact ⟨_, rfl⟩
        · rw [if_neg hdone]
          exact ⟨_, rfl⟩

theorem Sound.going {s : Nested} (h : Sound s) {rest : List Packet}
    (hrest : s.closed = false → s.begun ++ s.stream.all = flatten rest) (hl : s.looping = true) (recv : Recv) :
    ∃ t, s.step (.turn recv) = some t := by
  rw [Nested.step, if_pos hl]
  by_cases hc : s.closed = true
  · rw [if_pos hc]
    exact ⟨_, rfl⟩
  · rw [if_neg hc]
    exact h.goes (hrest (Bool.eq_false_iff.2 hc)) recv

theorem Intact.le {pkts : List Packet} {s : Nested} (h : Intact pkts s) : s.log.length ≤ pkts.length := by
  have hlen := congrArg List.length h.handed
  rw [List.length_map, List.length_take] at hlen
  omega

/-! ## One step -/

theorem Intact.failed {pkts : List Packet} {s : Nested} (hi : Intact pkts s) :
    Intact pkts { s with closed := true, looping := false } :=
  ⟨hi.working, hi.handed, fun hc => (nomatch hc), fun hno => (nomatch hno), fun hc => (nomatch hc)⟩

theorem Intact.turn {pkts : List Packet} {s s' : Nested} (hi : Intact pkts s) (h : Sound s) (h' : Sound s')
    (hc : s.closed = false) (hl : s.looping = true) (ht : Turn s s') : Intact pkts s' := by
  have hr := hi.rest hc
  have hgoing : ∀ {rest : List Packet}, s'.begun ++ s'.stream.all = flatten rest →
      s'.looping = true → ∀ recv, ∃ t, s'.step (.turn recv) = some t := fun hr => h'.going (fun _ => hr)
  cases ht with
  | interrupted => exact hi
  | failed => exact hi.failed
  | blocked k hshort hempty =>
    have hrest : s.begun ++ (s.stream.arrive k).all = flatten (pkts.drop s.log.length) := by
      rw [Stream.arrive_all, hr]
    refine ⟨h'.working, hi.handed, fun _ => hrest, fun hno => (nomatch hno), ?_⟩
    intro _ _ _ hlater
    have hall : (s.stream.arrive k).all = (s.stream.arrive k).ready := Stream.all_of_later hlater
    have hle := hi.le
    rw [hall] at hrest
    by_cases h0 : s.left = 0
    · rw [begun_zero h0, List.nil_append] at hrest
      have hd := flatten_short (by rw [← hrest]; exact hshort h0)
      have hge := List.drop_eq_nil_iff.1 hd
      show s.log.length = pkts.length
      omega
    · -- the packet is not complete, so there is more to come
      have hlen := congrArg List.length hrest
      obtain ⟨p, ps, hpk, hp⟩ := h.next_packet h0 hr
      rw [hempty h0, List.append_nil, hpk, flatten_cons, List.length_append] at hlen
      omega
  | header k h0 hle hpos =>
    have hrest : (s.found k).begun ++ (s.found k).stream.all = flatten (pkts.drop s.log.length) := by
      rw [begun_found, ← hr, begun_zero h0]
      exact congrArg ([] ++ ·) (Stream.arrive_all s.stream k)
    exact ⟨h'.working, hi.handed, fun _ => hrest, hgoing hrest,
      fun _ hno => absurd (hl.symm.trans hno) (by decide)⟩
  | part k len b bytes hb hbytes hpos hlen hle =>
    have hrest : (s.took k len b bytes).begun ++ (s.took k len b bytes).stream.all =
        flatten (pkts.drop s.log.length) := by
      rw [begun_took hb hlen, ← hr, begun_some (by omega) hb hbytes]
      exact took_all bytes hle
    exact ⟨h'.working, hi.handed, fun _ => hrest, hgoing hrest,
      fun _ hno => absurd (hl.symm.trans hno) (by decide)⟩
  | whole k b bytes hb hbytes h0 hle =>
    obtain ⟨p, ps, hpk, hp⟩ := h.next_packet h0 hr
    rw [begun_some h0 hb hbytes] at hr hp
    have hsum := took_all bytes hle
    rw [hr, hpk, flatten_cons] at hsum
    have htake : (bytes ++ (s.stream.arrive k).ready.take s.left).length = p.bytes.length := by
      rw [List.length_append, List.length_take_of_le hle, hp]
    obtain ⟨hbytes', hrest⟩ := List.append_inj hsum htake
    have hlen : (s.log ++ [bytes ++ (s.stream.arrive k).ready.take s.left]).length = s.log.length + 1 :=
      List.length_append
    have hget : pkts[s.log.length]? = some p := by
      rw [← List.head?_drop, hpk]
      rfl
    refine ⟨h'.working, ?_, fun _ => ?_, fun hno => (nomatch hno), fun _ _ hnil => (nomatch hnil)⟩
    · show s.log ++ [_] = (pkts.take (s.log ++ [_]).length).map Packet.bytes
      rw [hlen, List.take_add_one, hget, List.map_append, ← hi.handed, hbytes']
      rfl
    · show (Nested.hand _ _ _).begun ++ ((s.stream.arrive k).consume s.left).all =
        flatten (pkts.drop (s.log ++ [_]).length)
      rw [hlen, ← List.drop_drop, hpk, begun_zero (Nat.sub_self s.left), hrest]
      rfl

/-- What a callback returns to is intact exactly when no packet was begun. -/
theorem Intact.finish {pkts : List Packet} {s : Nested} (hi : Intact pkts s) (h : Sound s)
    (hl : s.looping ≠ true) {heap : ℕ → Option (List UInt8)} {ws : List Working}
    (h' : Sound { s with heap := heap, packet := none, left := 0, callbacks := ws, looping := true }) :
    Intact pkts { s with heap := heap, packet := none, left := 0, callbacks := ws, looping := true } ↔
      (s.closed || s.left = 0) = true := by
  rw [Bool.or_eq_true, decide_eq_true_eq]
  constructor
  · intro hi'
    by_contra hno
    obtain ⟨hc, h0⟩ := not_or.1 hno
    have hc := Bool.eq_false_iff.2 hc
    have hr := hi'.rest hc
    have hr : s.stream.all = flatten (pkts.drop s.log.length) := hr
    rw [← hi.rest hc] at hr
    have hlen := congrArg List.length hr
    rw [List.length_append] at hlen
    exact hl (h.ahead hc h0 (List.eq_nil_of_length_eq_zero (by omega))).1
  · intro hm
    have hrest : s.closed = false → s.stream.all = flatten (pkts.drop s.log.length) := by
      intro hc
      have hr := hi.rest hc
      rw [hc] at hm
      rw [begun_zero (hm.resolve_left (by decide))] at hr
      exact hr
    exact ⟨h'.working, hi.handed, hrest, h'.going hrest, fun _ hno => (nomatch hno)⟩

theorem Intact.step {pkts : List Packet} {s s' : Nested} {act : ReadAct} (hs : s.step act = some s')
    (h : Sound s) (hi : Intact pkts s) : Intact pkts s' ↔ atBoundary s act = true := by
  have h' := h.step hs
  cases act with
  | readable =>
    refine iff_of_true ?_ rfl
    rw [Nested.step] at hs
    split at hs
    · cases hs
      exact ⟨h'.working, hi.handed, hi.rest, h'.going hi.rest, fun _ hno => (nomatch hno)⟩
    · cases hs
  | turn c =>
    refine iff_of_true ?_ rfl
    rw [Nested.step] at hs
    split at hs
    · rename_i hl
      by_cases hc : s.closed = true
      · rw [if_pos hc] at hs
        cases hs
        exact hi.failed
      · rw [if_neg hc] at hs
        exact hi.turn h h' (Bool.eq_false_iff.2 hc) hl (turn_turn hs)
    · cases hs
  | finish =>
    rw [Nested.step] at hs
    split at hs
    · cases hs
    · rename_i hl
      cases hw : s.callbacks with
      | nil =>
        rw [hw] at hs
        cases hs
      | cons w ws =>
        rw [hw] at hs
        obtain ⟨heap, hfree, hs⟩ := Option.bind_eq_some_iff.1 hs
        cases hs
        exact hi.finish h hl h'
  | shutdown =>
    refine iff_of_true ?_ rfl
    rw [Nested.step] at hs
    split at hs
    · rename_i hl
      cases hs
      refine ⟨h'.working, hi.handed, fun hc => (nomatch hc), ?_, fun hc => (nomatch hc)⟩
      intro hlt
      have hlt : s.looping = true := hlt
      rw [hl.1] at hlt
      exact absurd hlt (by decide)
    · cases hs

/-! ## The run -/

/-- A header with an AVP behind it. -/
def sampleLong : List UInt8 :=
  [1, 0, 0, 28, 0, 0, 0, 7, 0, 0, 0, 0, 0, 0, 0, 5, 0, 0, 0, 5, 0, 0, 3, 232, 64, 0, 0, 8]

/-- The second packet comes in two parts, each after the callback of the first has begun to wait. -/
def sampleNested : List (List UInt8) := [sampleRequest, sampleLong.take 22, sampleLong.drop 22]

def sampleActs : List ReadAct :=
  [.readable, .turn (.ready 1 99), .turn (.ready 0 99), .readable, .turn (.ready 1 99), .turn (.ready 0 99),
    .turn (.ready 0 99)]

end Mand.Net
