import Mand.Net.Answers

/-! # Whole connections

What holds after every run of both ends, however their events interleave and the stream between them is cut. -/
namespace Mand.Net
open Mand.Msg Mand.Bytes
set_option autoImplicit false

/-- Each end is well, and what it has read is what the other one has written. -/
structure Joined (s : System) : Prop where
  own : ∀ x, Own (s x).state
  joint : ∀ x : Side, Joint (s x).state (s x.other).state
  carried : ∀ x : Side, Carried (s x.other).state.context.out (s x.other).state.context.enqueued (s x)

theorem other_other (x : Side) : x.other.other = x := by
  cases x with
  | left => rfl
  | right => rfl

theorem other_ne (x : Side) : x.other ≠ x := by
  cases x with
  | left => decide
  | right => decide

theorem eq_other {x y : Side} (h : y ≠ x) : y = x.other := by
  cases x with
  | left =>
    cases y with
    | left => exact absurd rfl h
    | right => rfl
  | right =>
    cases y with
    | left => rfl
    | right => exact absurd rfl h

theorem Stream.feed_all (s : Stream) (bytes : List UInt8) : (s.feed bytes).all = s.all ++ bytes := by
  have hflat : (bytes.map fun b => [b]).flatten = bytes := by
    induction bytes with
    | nil => rfl
    | cons b bytes ih => rw [List.map_cons, List.flatten_cons, ih, List.singleton_append]
  rw [Stream.all, Stream.all, Stream.feed, List.flatten_append, hflat, List.append_assoc]

/-- What the one socket takes is read by the other end later. -/
theorem Carried.feed {out out' : List UInt8} {sent sent' : List Packet} {r : Peer} (h : Carried out sent r)
    (ho : out <+: out') (hs : sent <+: sent') :
    Carried out' sent' { r with stream := r.stream.feed (out'.drop out.length) } where
  bytes := by
    obtain ⟨m, rfl⟩ := ho
    rw [List.drop_left, Stream.feed_all, ← List.append_assoc r.packet, ← List.append_assoc, h.bytes]
  boundary := h.boundary
  inside := fun hl => by
    obtain ⟨p, hp, hlen⟩ := h.inside hl
    exact ⟨p, getElem?_longer hs hp, hlen⟩

theorem answering_start (ids : HopIds) : Answering (Peer.start ids).state where
  length := rfl
  answered := fun j _ h => absurd h (by rw [show (Peer.start ids).state.answers = [] from rfl]; simp)
  called := fun j _ h => absurd h (by rw [show (Peer.start ids).state.answers = [] from rfl]; simp)
  once := fun j _ _ h => absurd h (by rw [show (Peer.start ids).state.answers = [] from rfl]; simp)
  pending := fun _ h => absurd h List.not_mem_nil
  nodup := List.nodup_nil

theorem own_start (ids : HopIds) : Own (Peer.start ids).state where
  send := sendInv_start ids
  idle := fun _ _ => rfl
  tracked := tracked_start ids
  queue := fun _ => queueInv_start ids
  answering := answering_start ids

theorem joined_start (ids : Side → HopIds) : Joined (System.start ids) where
  own := fun x => own_start (ids x)
  joint := fun x => ⟨List.nil_prefix, List.nil_prefix, fun _ => asking_start (ids x)⟩
  carried := fun _ => ⟨rfl, fun _ => rfl, fun h => absurd rfl h⟩

theorem Joined.step {s t : System} {x : Side} {ev : PeerEvent} (h : Joined s) (hst : s.step x ev = some t) :
    Joined t := by
  rw [System.step, Option.bind_eq_bind, Option.bind_eq_some_iff] at hst
  obtain ⟨q, hq, hst⟩ := hst
  have hjoint := h.joint x.other
  rw [other_other] at hjoint
  have hm := Peer.step_moved (h.own x.other) (h.own x) (h.joint x) hjoint (h.carried x) hq
  have hfed := (h.carried x.other)
  rw [other_other] at hfed
  have hfed := hfed.feed hm.out hm.sent
  -- the end of the event, and the other one with a longer stream
  have hx : t x = q := by
    cases hst
    exact if_pos rfl
  have ho : t x.other = { s x.other with
      stream := (s x.other).stream.feed (q.state.context.out.drop (s x).state.context.out.length) } := by
    cases hst
    exact if_neg (other_ne x)
  have hos : (t x.other).state = (s x.other).state := by rw [ho]
  have hboth : ∀ {P : Side → Prop}, P x → P x.other → ∀ y, P y := by
    intro P h1 h2 y
    by_cases hy : y = x
    · rw [hy]
      exact h1
    · rw [eq_other hy]
      exact h2
  refine ⟨hboth ?_ ?_, hboth ?_ ?_, hboth ?_ ?_⟩
  · rw [hx]
    exact hm.own
  · rw [hos]
    exact h.own x.other
  · rw [hx, hos]
    exact hm.asks
  · rw [other_other, hx, hos]
    exact hm.gives
  · rw [hx, hos]
    exact hm.carried
  · rw [other_other, hx, ho]
    exact hfed

theorem Joined.run {s t : System} {evs : List (Side × PeerEvent)} (h : Joined s) (hr : s.run evs = some t) :
    Joined t := by
  induction evs generalizing s with
  | nil =>
    cases hr
    exact h
  | cons e evs ih =>
    obtain ⟨x, ev⟩ := e
    rw [System.run, Option.bind_eq_bind, Option.bind_eq_some_iff] at hr
    obtain ⟨u, hu, hr⟩ := hr
    exact ih (h.step hu) hr

/-- The left end sends a request in two parts; the right end answers it in the callback. -/
def sampleTalk : List (Side × PeerEvent) :=
  [(.left, .act (.call ⟨samplePacket 128 0, by decide⟩ true true 5)), (.left, .write [.wrote 8, .eagain]),
    (.right, .read [.ready 8 20] []), (.left, .write [.wrote 12]),
    (.right, .read [.ready 12 20] [[.answer 0 ⟨samplePacket 0 0, by decide⟩ true]]), (.right, .write [.wrote 20]),
    (.left, .read [.ready 20 20] [])]

theorem sampleTalk_runs : ((System.start fun _ => ⟨0, 0⟩).run sampleTalk).isSome = true := by decide +kernel

/-- The ends after it. -/
def sampleEnds : System := ((System.start fun _ => ⟨0, 0⟩).run sampleTalk).get sampleTalk_runs

theorem sampleTalk_ends : (System.start fun _ => ⟨0, 0⟩).run sampleTalk = some sampleEnds :=
  (Option.some_get sampleTalk_runs).symm

theorem sampleEnds_distinct (x : Side) : (sampleEnds x).state.Distinct := by
  rw [Session.Distinct]
  cases x <;> decide +kernel

theorem sampleEnds_quiet (y : Side) : (sampleEnds y).state.context.allSent ∧ (sampleEnds y).stream.all = [] := by
  rw [Context.allSent]
  cases y <;> decide +kernel

/-- The one request of the left end is in the inbox of the right one, and was answered. -/
theorem sampleTalk_answered (i : ℕ) (req : Packet) (h : (sampleEnds .right).state.inbox[i]? = some req) :
    ∃ j : ℕ, (sampleEnds .right).state.answers[j]? = some (some i) := by
  have hlt := (List.getElem?_eq_some_iff.1 h).1
  have hlen : (sampleEnds .right).state.inbox.length = 1 := by decide +kernel
  have hi : i = 0 := by omega
  rw [hi]
  exact ⟨0, by decide +kernel⟩

end Mand.Net
