import Mathlib.Data.List.Infix
import Mand.Net.Context

/-! # What the socket has taken

The bytes the socket has taken, those of the packet in `writeCtx` that are left and those of the entries
still to be written are together the packets in the order they were enqueued. `writeEvent` looks at the
queue first: when it is empty, the rest of the packet in `writeCtx` is not written. -/
namespace Mand.Net
open Mand.Msg Mand.Bytes
set_option autoImplicit false

def flatten (ps : List Packet) : List UInt8 := (ps.map Packet.bytes).flatten

/-- The packets of the entries that are still to be written. -/
def toWrite (l : List RequestInfo) : List Packet :=
  (l.filter fun r => r.status = .shallWrite).map RequestInfo.packet

def Context.rest (s : Context) : List UInt8 :=
  match s.writing with
  | some w => w.packet.bytes.drop w.sent
  | none => []

/-- No byte is unsent and the watcher is stopped. -/
def Context.allSent (s : Context) : Prop := s.out = flatten s.enqueued ∧ s.writeActive = false

/-- The packet in `writeCtx` has no entry behind or besides it. -/
def Context.stranded (s : Context) : Prop := s.head = [] ∧ s.writing.isSome = true

/-- What holds also between two writes. -/
structure SendInv (s : Context) : Prop where
  all : s.connected = true → s.out ++ s.rest ++ flatten (toWrite s.head) = flatten s.enqueued
  active : s.writing.isSome = true ∨ toWrite s.head ≠ [] → s.connected = true ∧ s.writeActive = true
  sub : s.connected = false → s.out <+: flatten s.enqueued

/-- The watcher does not run for nothing. -/
def Context.idle (s : Context) : Prop :=
  s.writing = none → toWrite s.head = [] → s.writeActive = false

/-! ## The entries to write -/

theorem toWrite_append (l l' : List RequestInfo) : toWrite (l ++ l') = toWrite l ++ toWrite l' := by
  rw [toWrite, List.filter_append, List.map_append]
  rfl

theorem toWrite_cons_read {r : RequestInfo} (h : r.status = .shallRead) (l : List RequestInfo) :
    toWrite (r :: l) = toWrite l := by
  rw [toWrite, List.filter_cons_of_neg (by simp [h])]
  rfl

theorem toWrite_cons_write {r : RequestInfo} (h : r.status = .shallWrite) (l : List RequestInfo) :
    toWrite (r :: l) = r.packet :: toWrite l := by
  rw [toWrite, List.filter_cons_of_pos (by simp [h])]
  rfl

theorem status_read {r : RequestInfo} (h : r.status ≠ .shallWrite) : r.status = .shallRead := by
  cases hs : r.status with
  | shallWrite => exact absurd hs h
  | shallRead => rfl

theorem toWrite_find_none {l : List RequestInfo}
    (h : (l.find? fun r => r.status = .shallWrite) = none) : toWrite l = [] := by
  rw [toWrite, List.map_eq_nil_iff, List.filter_eq_nil_iff]
  intro r hr
  exact List.find?_eq_none.1 h r hr

/-- Taking an entry up takes its packet away from those to write. -/
theorem toWrite_takeUp {l : List RequestInfo} {r : RequestInfo}
    (h : (l.find? fun r => r.status = .shallWrite) = some r) :
    toWrite l = r.packet :: toWrite (takeUp l) := by
  induction l with
  | nil => exact absurd h (by simp)
  | cons q l ih =>
    by_cases hq : q.status = .shallWrite
    · rw [List.find?_cons_of_pos (by simp [hq])] at h
      cases h
      rw [toWrite_cons_write hq, takeUp, if_pos hq]
      split
      · rw [toWrite_cons_read rfl]
      · rfl
    · rw [List.find?_cons_of_neg (by simp [hq])] at h
      rw [takeUp, if_neg hq, toWrite_cons_read (status_read hq), toWrite_cons_read (status_read hq)]
      exact ih h

theorem flatten_cons (p : Packet) (ps : List Packet) : flatten (p :: ps) = p.bytes ++ flatten ps := rfl

theorem flatten_append (ps qs : List Packet) : flatten (ps ++ qs) = flatten ps ++ flatten qs := by
  rw [flatten, List.map_append, List.flatten_append]
  rfl

theorem flatten_eq_nil {ps : List Packet} : flatten ps = [] ↔ ps = [] := by
  constructor
  · intro h
    cases ps with
    | nil => rfl
    | cons p ps =>
      rw [flatten_cons, List.append_eq_nil_iff] at h
      have := p.length_pos
      rw [h.1] at this
      exact absurd this (by decide)
  · intro h
    rw [h]
    rfl

/-! ## One step -/

theorem sendInv_start (ids : HopIds) : SendInv (Context.start ids) where
  all := fun _ => rfl
  active := fun h => by simp [Context.start, toWrite] at h
  sub := fun _ => List.prefix_refl _

theorem SendInv.enqueue {s : Context} (hi : SendInv s) (req : Packet) (kind : Kind)
    (cb granted : Bool) (rnd : UInt32) (hid : s.idle) :
    SendInv (dmEnqueue s req kind cb granted rnd).2 ∧ (dmEnqueue s req kind cb granted rnd).2.idle := by
  unfold dmEnqueue
  split
  · exact ⟨hi, hid⟩
  · rename_i hcon
    split
    · exact ⟨⟨hi.all, hi.active, hi.sub⟩, hid⟩
    · dsimp only
      have happ : ∀ r : RequestInfo, r.status = .shallWrite →
          toWrite (s.head ++ [r]) = toWrite s.head ++ [r.packet] := by
        intro r hr
        rw [toWrite_append, toWrite_cons_write hr]
        rfl
      refine ⟨⟨?_, ?_, ?_⟩, ?_⟩
      · intro hc
        show s.out ++ s.rest ++ flatten (toWrite (s.head ++ [_])) =
          flatten (s.enqueued ++ [s.stamp kind rnd req])
        rw [happ _ rfl, flatten_append, flatten_append, ← hi.all hc, List.append_assoc (s.out ++ s.rest)]
      · intro _
        exact ⟨by simpa using hcon, rfl⟩
      · intro hc
        exact absurd hc hcon
      · intro _ hw
        rw [happ _ rfl] at hw
        exact absurd hw (by simp)

theorem SendInv.out_isPart {s : Context} (hi : SendInv s) : s.out <+: flatten s.enqueued := by
  cases hc : s.connected with
  | true =>
    rw [← hi.all hc, List.append_assoc]
    exact List.prefix_append _ _
  | false => exact hi.sub hc

theorem SendInv.shutdown {s : Context} (hi : SendInv s) (event : DmconfigEvent) :
    SendInv (dmContextShutdown s event) where
  all := fun h => absurd h (by simp [dmContextShutdown])
  active := fun h => by simp [dmContextShutdown, toWrite] at h
  sub := fun _ => hi.out_isPart

/-- The entry that a reply takes from the queue is not one to write. -/
theorem toWrite_processReply (s : Context) (pkt : Packet) :
    toWrite (processReply s pkt).head = toWrite s.head := by
  unfold processReply
  dsimp only
  split
  · rfl
  · rename_i q hf
    split
    · rfl
    · rename_i hst
      obtain ⟨hpq, as, bs, hsplit, has⟩ := List.find?_eq_some_iff_append.1 hf
      have hno : ∀ b ∈ as, ¬decide (b.hopid = dmHop2hopId pkt.bytes) = true := by
        intro b hb
        have := has b hb
        simpa using this
      rw [hsplit, List.eraseP_append_right _ hno, List.eraseP_cons_of_pos
          (p := fun r : RequestInfo => r.hopid = dmHop2hopId pkt.bytes) hpq,
        toWrite_append, toWrite_append, toWrite_cons_read (not_not.1 hst)]

theorem processReply_frame (s : Context) (pkt : Packet) :
    (processReply s pkt).connected = s.connected ∧ (processReply s pkt).writing = s.writing ∧
      (processReply s pkt).writeActive = s.writeActive ∧ (processReply s pkt).out = s.out ∧
      (processReply s pkt).enqueued = s.enqueued := by
  unfold processReply
  dsimp only
  split
  · exact ⟨rfl, rfl, rfl, rfl, rfl⟩
  · split
    · exact ⟨rfl, rfl, rfl, rfl, rfl⟩
    · exact ⟨rfl, rfl, rfl, rfl, rfl⟩

theorem SendInv.reply {s : Context} (hi : SendInv s) (pkt : Packet) (hid : s.idle) :
    SendInv (processReply s pkt) ∧ (processReply s pkt).idle := by
  have hw := toWrite_processReply s pkt
  obtain ⟨hc, hwr, ha, ho, he⟩ := processReply_frame s pkt
  refine ⟨⟨?_, ?_, ?_⟩, ?_⟩
  · rw [hc, ho, Context.rest, hwr, hw, he]
    exact hi.all
  · rw [hwr, hw, hc, ha]
    exact hi.active
  · rw [hc, ho, he]
    exact hi.sub
  · rw [Context.idle, hwr, hw, ha]
    exact hid

/-- The packet to write is in `writeCtx`, and no byte is lost on the way. -/
theorem SendInv.nextPacket {s t : Context} {w : Writing} (hi : SendInv s)
    (h : nextPacket s = some (w, t)) : t.writing = some w ∧ SendInv t := by
  unfold Net.nextPacket at h
  split at h
  · rename_i hw
    cases h
    exact ⟨hw, hi⟩
  · rename_i hw
    split at h
    · cases h
    · rename_i r hf
      cases h
      have htake := toWrite_takeUp hf
      have hact := hi.active (.inr (by rw [htake]; simp))
      refine ⟨rfl, ⟨?_, fun _ => hact, hi.sub⟩⟩
      intro hc
      have hall := hi.all hc
      rw [Context.rest, hw, htake, flatten_cons] at hall
      show s.out ++ r.packet.bytes.drop 0 ++ flatten (toWrite (takeUp s.head)) = _
      rw [← hall, List.drop_zero, List.append_nil, List.append_assoc]

theorem nextPacket_none {s : Context} (h : nextPacket s = none) :
    s.writing = none ∧ toWrite s.head = [] := by
  unfold Net.nextPacket at h
  split at h
  · cases h
  · rename_i hw
    split at h
    · rename_i hf
      exact ⟨hw, toWrite_find_none hf⟩
    · cases h

theorem wrote_rest (s : Context) (w : Writing) (n : ℕ) :
    (s.wrote w n).rest = w.packet.bytes.drop (w.sent + n) := by
  unfold Context.wrote Context.rest
  by_cases h : w.sent + n < w.packet.bytes.length
  · simp only [dif_pos h]
  · simp only [dif_neg h]
    rw [List.drop_eq_nil_of_le (by omega)]

/-- The bytes that a `write` takes are the next ones. -/
theorem SendInv.wrote {s : Context} {w : Writing} (hi : SendInv s) (hw : s.writing = some w) (n : ℕ) :
    SendInv (s.wrote w n) := by
  have hact := hi.active (.inl (by rw [hw]; rfl))
  refine ⟨?_, fun _ => hact, fun hc => absurd hact.1 (by rw [show s.connected = false from hc]; decide)⟩
  intro hc
  have hall := hi.all hc
  have hs : s.rest = (w.packet.bytes.drop w.sent).take n ++ w.packet.bytes.drop (w.sent + n) := by
    rw [Context.rest, hw, ← List.drop_drop, List.take_append_drop]
  rw [wrote_rest]
  show s.out ++ (w.packet.bytes.drop w.sent).take n ++ w.packet.bytes.drop (w.sent + n) ++
    flatten (toWrite s.head) = flatten s.enqueued
  rw [← hall, hs]
  simp only [List.append_assoc]

theorem SendInv.stopWrite {s : Context} (hi : SendInv s) (hw : s.writing = none)
    (he : toWrite s.head = []) : SendInv s.stopWrite ∧ s.stopWrite.idle :=
  ⟨⟨hi.all, fun h => by simp [Context.stopWrite, hw, he] at h, hi.sub⟩, fun _ _ => rfl⟩

/-! ## `writeEvent` -/

theorem SendInv.writeLoop {rs : List WriteResult} {s t : Context} {full : Bool} (hi : SendInv s)
    (h : writeLoop rs s = some (full, t)) : SendInv t ∧ t.idle := by
  induction rs generalizing s full with
  | nil =>
    rw [Net.writeLoop] at h
    split at h
    · rename_i hn
      cases h
      exact hi.stopWrite (nextPacket_none hn).1 (nextPacket_none hn).2
    · cases h
  | cons r rs ih =>
    rw [Net.writeLoop] at h
    split at h
    · rename_i hn
      cases h
      exact hi.stopWrite (nextPacket_none hn).1 (nextPacket_none hn).2
    · rename_i w u hnext
      obtain ⟨hw, hu⟩ := hi.nextPacket hnext
      cases r with
      | wrote n =>
        dsimp only at h
        split at h
        · cases h
        · split at h
          · rename_i hdone
            cases h
            have hnone : (u.wrote w n).writing = none := by
              have hl : ¬w.sent + n < w.packet.bytes.length := by
                have := hdone.1
                unfold Writing.left at this
                omega
              exact dif_neg hl
            have hempty : toWrite (u.wrote w n).head = [] := by
              show toWrite u.head = []
              rw [hdone.2]
              rfl
            exact (hu.wrote hw n).stopWrite hnone hempty
          · rw [Option.map_eq_some_iff] at h
            obtain ⟨⟨f, v⟩, hv, h⟩ := h
            cases h
            exact ih (hu.wrote hw n) hv
      | eagain =>
        cases h
        exact ⟨hu, fun hnone => absurd (hw.symm.trans hnone) (by simp)⟩
      | eintr =>
        dsimp only at h
        rw [Option.map_eq_some_iff] at h
        obtain ⟨⟨f, v⟩, hv, h⟩ := h
        cases h
        exact ih hu hv
      | failed =>
        cases h
        exact ⟨hu.shutdown .errorWriting, fun _ _ => rfl⟩

/-- When every `write` takes what it is offered, the loop ends with nothing left to write. -/
theorem writeLoop_full {rs : List WriteResult} {s t : Context} (h : writeLoop rs s = some (true, t)) :
    t.writing = none ∧ toWrite t.head = [] ∧ t.writeActive = false ∧ t.connected = s.connected := by
  induction rs generalizing s with
  | nil =>
    rw [writeLoop] at h
    split at h
    · rename_i hn
      cases h
      exact ⟨(nextPacket_none hn).1, (nextPacket_none hn).2, rfl, rfl⟩
    · cases h
  | cons r rs ih =>
    rw [writeLoop] at h
    split at h
    · rename_i hn
      cases h
      exact ⟨(nextPacket_none hn).1, (nextPacket_none hn).2, rfl, rfl⟩
    · rename_i w u hnext
      have hcon : u.connected = s.connected := by
        unfold nextPacket at hnext
        split at hnext
        · cases hnext
          rfl
        · split at hnext
          · cases hnext
          · cases hnext
            rfl
      cases r with
      | wrote n =>
        dsimp only at h
        split at h
        · cases h
        · split at h
          · rename_i hdone
            cases h
            refine ⟨?_, ?_, rfl, hcon⟩
            · have hl : ¬w.sent + n < w.packet.bytes.length := by
                have := hdone.1
                unfold Writing.left at this
                omega
              exact dif_neg hl
            · show toWrite u.head = []
              rw [hdone.2]
              rfl
          · rw [Option.map_eq_some_iff] at h
            obtain ⟨⟨f, v⟩, hv, h⟩ := h
            have hf : f = true := by
              have := congrArg Prod.fst h
              simp only [Bool.and_eq_true] at this
              exact this.1
            have hvt : v = t := congrArg Prod.snd h
            rw [hf, hvt] at hv
            obtain ⟨h1, h2, h3, h4⟩ := ih hv
            exact ⟨h1, h2, h3, h4.trans hcon⟩
      | eagain => cases h
      | eintr =>
        dsimp only at h
        rw [Option.map_eq_some_iff] at h
        obtain ⟨_, _, h⟩ := h
        cases h
      | failed => cases h

/-- The packets that are not written to their end. -/
def Context.unfinished (s : Context) : ℕ :=
  (toWrite s.head).length + if s.writing.isSome = true then 1 else 0

theorem unfinished_nextPacket {s u : Context} {w : Writing} (h : nextPacket s = some (w, u)) :
    (toWrite u.head).length < s.unfinished := by
  unfold nextPacket at h
  split at h
  · rename_i hw
    cases h
    simp [Context.unfinished, hw]
  · split at h
    · cases h
    · rename_i r hf
      cases h
      show (toWrite (takeUp s.head)).length < _
      rw [Context.unfinished, toWrite_takeUp hf, List.length_cons]
      omega

/-- With a socket that takes everything the loop ends. -/
theorem writeLoop_accepting (s : Context) : ∃ rs t, writeLoop rs s = some (true, t) := by
  induction hm : s.unfinished using Nat.strong_induction_on generalizing s with
  | _ m ih =>
    cases hn : nextPacket s with
    | none => exact ⟨[], s.stopWrite, by rw [writeLoop, hn]⟩
    | some wu =>
      obtain ⟨w, u⟩ := wu
      have hlt := unfinished_nextPacket hn
      have hmore : (u.wrote w w.left).unfinished = (toWrite u.head).length := by
        have hl : ¬w.sent + w.left < w.packet.bytes.length := by
          unfold Writing.left
          omega
        simp [Context.unfinished, Context.wrote, hl]
      obtain ⟨rs, t, ht⟩ := ih _ (by omega) (u.wrote w w.left) hmore
      by_cases hempty : u.head = []
      · refine ⟨[.wrote w.left], (u.wrote w w.left).stopWrite, ?_⟩
        rw [writeLoop, hn]
        dsimp only
        rw [if_neg (lt_irrefl _), if_pos ⟨rfl, hempty⟩]
      · refine ⟨.wrote w.left :: rs, t, ?_⟩
        rw [writeLoop, hn]
        dsimp only
        rw [if_neg (lt_irrefl _), if_neg fun h => hempty h.2, ht]
        simp

/-- After a call in which every `write` takes all it is offered, everything is sent unless the packet in
`writeCtx` stood alone. -/
theorem allSent_iff {rs : List WriteResult} {s t : Context} (hi : SendInv s) (hid : s.idle)
    (hc : s.connected = true) (h : writeEvent rs s = some (true, t)) : t.allSent ↔ ¬s.stranded := by
  unfold writeEvent at h
  split at h
  · rename_i hempty
    cases h
    have hnil : toWrite s.head = [] := by
      rw [hempty]
      rfl
    have hall := hi.all hc
    rw [hnil, show flatten [] = [] from rfl, List.append_nil] at hall
    cases hw : s.writing with
    | none =>
      refine iff_of_true ⟨?_, hid hw hnil⟩ ?_
      · rw [Context.rest, hw, List.append_nil] at hall
        exact hall
      · intro hst
        rw [Context.stranded, hw] at hst
        exact absurd hst.2 (by decide)
    | some w =>
      refine iff_of_false ?_ (not_not.2 ⟨hempty, by rw [hw]; rfl⟩)
      intro hsent
      rw [Context.rest, hw] at hall
      have hlen := congrArg List.length (hall.trans hsent.1.symm)
      have := w.sent_lt
      rw [List.length_append, List.length_drop] at hlen
      omega
  · rename_i hne
    obtain ⟨hw, hnil, hact, hct⟩ := writeLoop_full h
    have hall := (hi.writeLoop h).1.all (hct.trans hc)
    rw [Context.rest, hw, hnil, show flatten [] = [] from rfl, List.append_nil, List.append_nil] at hall
    exact iff_of_true ⟨hall, hact⟩ fun hst => hne hst.1

/-! ## Whole runs -/

theorem SendInv.step {s t : Context} {ev : Event} (hi : SendInv s) (hid : s.idle)
    (h : step s ev = some t) : SendInv t ∧ t.idle := by
  cases ev with
  | others ids =>
    cases h
    exact ⟨⟨hi.all, hi.active, hi.sub⟩, hid⟩
  | enqueue req kind cb granted rnd =>
    cases h
    exact hi.enqueue req kind cb granted rnd hid
  | write rs =>
    simp only [Net.step, Option.map_eq_some_iff] at h
    obtain ⟨⟨full, u⟩, hu, h⟩ := h
    cases h
    unfold writeEvent at hu
    split at hu
    · cases hu
      exact ⟨hi, hid⟩
    · exact hi.writeLoop hu
  | reply pkt =>
    cases h
    exact hi.reply pkt hid
  | shutdown event =>
    cases h
    exact ⟨hi.shutdown event, fun _ _ => rfl⟩

theorem sendInv_run {ids : HopIds} {evs : List Event} {s : Context}
    (h : run (Context.start ids) evs = some s) : SendInv s ∧ s.idle :=
  run_induction (P := fun s => SendInv s ∧ s.idle) ⟨sendInv_start ids, fun _ _ => rfl⟩
    (fun _ _ _ _ _ _ ht hs => ht.1.step ht.2 hs) h

/-- In every run the socket has taken a part of the packets from the front on, and a socket that takes
everything lets a call of `writeEvent` end. After such a call on a connection everything is sent, all
through the run, exactly when none of these calls finds a packet in `writeCtx` and an empty queue. -/
theorem write_completes_iff (ids : HopIds) (evs : List Event) :
    (∀ pre s, pre <+: evs → run (Context.start ids) pre = some s →
      s.out <+: flatten s.enqueued ∧ ∃ rs t, writeEvent rs s = some (true, t)) ∧
    ((∀ pre rs s t, pre ++ [.write rs] <+: evs → run (Context.start ids) pre = some s →
        s.connected = true → writeEvent rs s = some (true, t) → t.allSent) ↔
      ∀ pre rs s t, pre ++ [.write rs] <+: evs → run (Context.start ids) pre = some s →
        s.connected = true → writeEvent rs s = some (true, t) → ¬s.stranded) := by
  refine ⟨?_, ?_, ?_⟩
  · intro pre s _ h
    refine ⟨(sendInv_run h).1.out_isPart, ?_⟩
    by_cases hempty : s.head = []
    · exact ⟨[], s, if_pos hempty⟩
    · obtain ⟨rs, t, ht⟩ := writeLoop_accepting s
      exact ⟨rs, t, by rw [writeEvent, if_neg hempty, ht]⟩
  · intro hall pre rs s t hpre h hc hw
    have hi := sendInv_run h
    exact (allSent_iff hi.1 hi.2 hc hw).1 (hall pre rs s t hpre h hc hw)
  · intro hnone pre rs s t hpre h hc hw
    have hi := sendInv_run h
    exact (allSent_iff hi.1 hi.2 hc hw).2 (hnone pre rs s t hpre h hc hw)

/-- A reply without AVPs. -/
def sampleReply : List UInt8 := [1, 0, 0, 20, 0, 0, 0, 7, 0, 0, 0, 0, 0, 0, 0, 5, 0, 0, 0, 5]

/-- The rest of a reply is not written though the socket would take it. -/
theorem rest_of_reply_stays :
    ∃ s t, run (Context.start ⟨0, 0⟩)
        [.enqueue ⟨sampleReply, by decide, by decide⟩ .reply false true 0,
          .write [.wrote 8, .eagain]] = some s ∧
      s.connected = true ∧ writeEvent [.wrote 12] s = some (true, t) ∧
      t.out = sampleReply.take 8 ∧ flatten t.enqueued = sampleReply ∧ t.writeActive = true ∧
      ¬t.allSent := by
  refine ⟨_, _, rfl, rfl, rfl, by decide, by decide, rfl, ?_⟩
  intro h
  exact absurd h.2 (by decide)

end Mand.Net
