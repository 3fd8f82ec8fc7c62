import Mand.Rpc.Bounds
import Mand.Rpc.Reply

/-! # Synchronous calls

The wrappers of the stubs that wait in the event loop. Every wrapper runs the loop of its context; a wrapper that
is called from a callback runs it inside the run that called back. `ev_break` with `EVBREAK_ONE` ends the innermost
run when its events are processed, and the next `ev_run` clears it. -/
namespace Mand.Rpc.Sync
open Mand.Bytes Mand.Msg Mand.Notify
set_option autoImplicit false

/-! ## Wrappers -/

/-- An entry of the queue of a context, with the wrapper whose `struct async_reply` its callback gets. -/
structure Waiting where
  ref : ℕ
  ctx : ℕ
  hopid : UInt32
  /-- it has a callback -/
  cb : Bool
  /-- `REQUEST_SHALL_READ` -/
  sent : Bool
  deriving DecidableEq, Repr

/-- A wrapper that is in `ev_run`. -/
structure SyncCall where
  ref : ℕ
  ctx : ℕ
  /-- it passes `dm_async_cb` -/
  waits : Bool
  /-- `reply.answer` is not null -/
  answer : Bool
  /-- the id of its request, if this was enqueued -/
  hopid : Option UInt32
  /-- `reply.rc` -/
  rc : UInt32
  deriving DecidableEq, Repr

/-- A packet that is no request. -/
structure Received where
  ctx : ℕ
  hopid : UInt32
  grp : Dm2AvpGrp
  deriving DecidableEq, Repr

/-- The event loop with the contexts that use it. The innermost wrapper stands first. -/
structure Loop where
  /-- the contexts with an open socket -/
  opened : List ℕ
  pending : List Waiting
  stack : List SyncCall
  next : ℕ
  /-- `EVBREAK_ONE` is set -/
  broken : Bool
  received : List Received
  returned : List SyncCall
  deriving DecidableEq, Repr

def Loop.start : Loop := ⟨[], [], [], 0, false, [], []⟩

/-! ## Callbacks -/

/-- The memory of a `dm_copy_avpgrp`. -/
def copyAvpgrp (grp : Dm2AvpGrp) : Dm2AvpGrp := { grp with data := grp.data.take grp.size }

/-- The code that `dm_async_cb` finds in an answer. -/
def asyncRc (A : Talloc) (answer : Bool) (grp : Dm2AvpGrp) : Option UInt32 :=
  if answer = true ∧ A.grants grp.size = false then some (rcWord .errAlloc)
  else match dmExpectUint32 avpRc (if answer = true then copyAvpgrp grp else grp) with
    | .error _ => none
    | .ok (.error rc, _) => some (rcWord rc)
    | .ok (.ok rc, _) => some rc

/-- `dm_async_cb` with the code that it stores. Without its wrapper, `userdata` points into a frame that is
gone. -/
def dmAsyncCb (result : SyncCall → Option UInt32) (s : Loop) (ref : ℕ) : Option Loop :=
  match s.stack.find? fun c => c.ref = ref with
  | none => none
  | some c =>
    match result c with
    | none => none
    | some rc =>
      some { s with broken := true, stack := s.stack.map fun d => if d.ref = ref then { d with rc := rc } else d }

/-! ## Events -/

inductive Event
  | connect (ctx : ℕ)
  /-- a wrapper is called; `granted` tells that the stub finds memory -/
  | call (ctx : ℕ) (waits answer : Bool) (hopid : UInt32) (granted : Bool)
  /-- a request was written to the socket -/
  | written (ref : ℕ)
  | reply (ctx : ℕ) (hopid : UInt32) (grp : Dm2AvpGrp)
  /-- `dm_context_shutdown` -/
  | shutdown (ctx : ℕ)
  /-- the innermost `ev_run` returns; `idle` tells that no other watcher is active -/
  | ret (idle : Bool)
  deriving DecidableEq, Repr

/-- A wrapper up to `ev_run`. Whether the request was enqueued makes no difference to it. -/
def enter (s : Loop) (ctx : ℕ) (waits answer : Bool) (hopid : UInt32) (granted : Bool) : Loop :=
  let enqueued := decide (ctx ∈ s.opened) && granted
  { s with
    pending := s.pending ++ if enqueued = true then [⟨s.next, ctx, hopid, waits, false⟩] else []
    stack := ⟨s.next, ctx, waits, answer, if enqueued = true then some hopid else none, rcWord .ok⟩ :: s.stack
    next := s.next + 1
    broken := false }

/-- The entry that `process_reply` finds for an answer. -/
def Loop.addressed (s : Loop) (ctx : ℕ) (hopid : UInt32) : Option Waiting :=
  (s.pending.find? fun w => w.ctx = ctx ∧ w.hopid = hopid).filter fun w => w.sent

def processReply (A : Talloc) (s : Loop) (ctx : ℕ) (hopid : UInt32) (grp : Dm2AvpGrp) : Option Loop :=
  let s' := { s with received := s.received ++ [⟨ctx, hopid, grp⟩] }
  match s.addressed ctx hopid with
  | none => some s'
  | some w =>
    let s' := { s' with pending := s.pending.filter fun v => v.ref ≠ w.ref }
    if w.cb = true then dmAsyncCb (fun c => asyncRc A c.answer grp) s' w.ref else some s'

/-- `dm_context_shutdown`: every request of the context fails. -/
def shutdown (s : Loop) (ctx : ℕ) : Option Loop :=
  let refs := (s.pending.filter fun w => w.ctx = ctx ∧ w.cb = true).map Waiting.ref
  refs.foldlM (dmAsyncCb fun _ => some (rcWord .errMisc))
    { s with pending := s.pending.filter fun w => w.ctx ≠ ctx, opened := s.opened.filter fun c => c ≠ ctx }

/-- The innermost `ev_run` returns when the loop was broken or no watcher is active. -/
def leave (s : Loop) (idle : Bool) : Option Loop :=
  match s.stack with
  | [] => none
  | c :: stack =>
    if s.broken = true ∨ (idle = true ∧ s.opened = []) then
      some { s with stack := stack, broken := false, returned := s.returned ++ [c] }
    else none

def step (A : Talloc) (s : Loop) : Event → Option Loop
  | .connect ctx => some { s with opened := ctx :: s.opened }
  | .call ctx waits answer hopid granted => some (enter s ctx waits answer hopid granted)
  | .written ref => some { s with pending := s.pending.map fun w => if w.ref = ref then { w with sent := true } else w }
  | .reply ctx hopid grp => processReply A s ctx hopid grp
  | .shutdown ctx => shutdown s ctx
  | .ret idle => leave s idle

/-! ## Own results -/

/-- The answer carries this code. -/
def Carries (grp : Dm2AvpGrp) (rc : UInt32) : Prop := ∃ grp', dmExpectUint32 avpRc grp = .ok (.ok rc, grp')

/-- If the wrapper has `RC_OK`, this was in an answer with its own id. -/
def Loop.Answered (s : Loop) (c : SyncCall) : Prop :=
  c.rc = rcWord .ok → ∃ r ∈ s.received, r.ctx = c.ctx ∧ c.hopid = some r.hopid ∧ Carries r.grp (rcWord .ok)

/-- **Own results.** Every wrapper that waits for a reply and has returned reports its own result. -/
def Loop.OwnResults (s : Loop) : Prop := ∀ c ∈ s.returned, c.waits = true → s.Answered c

/-- The reply to a wrapper is still to come. -/
def Loop.Waits (s : Loop) (c : SyncCall) : Prop := ∃ w ∈ s.pending, w.ref = c.ref ∧ w.cb = true

/-- An event does not break the loop of a wrapper that still waits afterwards, and a request is enqueued. -/
def Orderly (s : Loop) : Event → Prop
  | .call ctx waits _ _ granted => waits = true → ctx ∈ s.opened ∧ granted = true
  | .reply ctx hopid _ => ∀ w, s.addressed ctx hopid = some w → w.cb = true →
      ∀ c, s.stack.head? = some c → s.Waits c → c.ref = w.ref
  | .shutdown ctx => (∃ w ∈ s.pending, w.ctx = ctx ∧ w.cb = true) →
      ∀ c, s.stack.head? = some c → s.Waits c → c.ctx = ctx
  | _ => True

/-! ## The invariant -/

variable {A : Talloc} {s t : Loop}

/-- What holds of the loop while its events are orderly. -/
structure LoopInv (s : Loop) : Prop where
  refs : (s.stack.map SyncCall.ref).Nodup
  below : ∀ c ∈ s.stack, c.ref < s.next
  fresh : ∀ w ∈ s.pending, w.ref < s.next
  distinct : (s.pending.map Waiting.ref).Nodup
  opened : ∀ w ∈ s.pending, w.ctx ∈ s.opened
  /-- a request with a callback belongs to a wrapper that has not returned -/
  owner : ∀ w ∈ s.pending, w.cb = true → ∃ c ∈ s.stack, c.ref = w.ref ∧ c.waits = true ∧ c.ctx = w.ctx ∧
    c.hopid = some w.hopid
  answered : ∀ c ∈ s.stack, c.waits = true → s.Waits c ∨ s.Answered c
  ended : s.broken = true → ∀ c, s.stack.head? = some c → ¬s.Waits c
  results : s.OwnResults

theorem start_inv : LoopInv Loop.start where
  refs := List.nodup_nil
  below := by simp [Loop.start]
  fresh := by simp [Loop.start]
  distinct := List.nodup_nil
  opened := by simp [Loop.start]
  owner := by simp [Loop.start]
  answered := by simp [Loop.start]
  ended := by simp [Loop.start]
  results := by simp [Loop.start, Loop.OwnResults]

/-- More answers do no harm. -/
theorem Loop.Answered.mono {c : SyncCall} (h : s.Answered c) (hr : s.received ⊆ t.received) : t.Answered c := by
  intro hrc
  obtain ⟨r, hmem, hcarries⟩ := h hrc
  exact ⟨r, hr hmem, hcarries⟩

theorem LoopInv.connect (h : LoopInv s) (ctx : ℕ) : LoopInv { s with opened := ctx :: s.opened } :=
  ⟨h.refs, h.below, h.fresh, h.distinct, fun w hw => List.mem_cons_of_mem _ (h.opened w hw), h.owner, h.answered, h.ended,
    h.results⟩

theorem LoopInv.enter (h : LoopInv s) (ctx : ℕ) (waits answer : Bool) (hopid : UInt32) (granted : Bool)
    (ho : waits = true → ctx ∈ s.opened ∧ granted = true) : LoopInv (enter s ctx waits answer hopid granted) := by
  have hnew : ∀ w, w ∈ (Sync.enter s ctx waits answer hopid granted).pending →
      w ∈ s.pending ∨ (w = ⟨s.next, ctx, hopid, waits, false⟩ ∧ ctx ∈ s.opened ∧ granted = true) := by
    intro w hw
    simp only [Sync.enter, List.mem_append] at hw
    rcases hw with hw | hw
    · exact .inl hw
    · split at hw
      · rename_i henq
        rw [Bool.and_eq_true, decide_eq_true_iff] at henq
        exact .inr ⟨List.mem_singleton.mp hw, henq⟩
      · cases hw
  have hold : ∀ w ∈ s.pending, w ∈ (Sync.enter s ctx waits answer hopid granted).pending :=
    fun w hw => List.mem_append_left _ hw
  refine ⟨?_, ?_, ?_, ?_, ?_, ?_, ?_, ?_, h.results⟩
  · refine List.nodup_cons.mpr ⟨fun hmem => ?_, h.refs⟩
    obtain ⟨c, hc, heq⟩ := List.mem_map.mp hmem
    exact absurd (h.below c hc) (by rw [heq]; exact lt_irrefl _)
  · intro c hc
    rcases List.mem_cons.mp hc with rfl | hc
    · exact Nat.lt_succ_self _
    · exact Nat.lt_succ_of_lt (h.below c hc)
  · intro w hw
    rcases hnew w hw with hw | ⟨rfl, -⟩
    · exact Nat.lt_succ_of_lt (h.fresh w hw)
    · exact Nat.lt_succ_self _
  · have hnot : s.next ∉ s.pending.map Waiting.ref := by
      intro hmem
      obtain ⟨w, hw, heq⟩ := List.mem_map.mp hmem
      exact absurd (h.fresh w hw) (by rw [heq]; exact lt_irrefl _)
    simp only [Sync.enter]
    split
    · rw [List.map_append, List.nodup_append]
      refine ⟨h.distinct, List.nodup_singleton _, fun a ha b hb heq => ?_⟩
      rw [heq, List.mem_singleton.mp hb] at ha
      exact hnot ha
    · rw [List.append_nil]
      exact h.distinct
  · intro w hw
    rcases hnew w hw with hw | ⟨rfl, hopen, -⟩
    · exact h.opened w hw
    · exact hopen
  · intro w hw hcb
    rcases hnew w hw with hw | ⟨rfl, hopen, hgrant⟩
    · obtain ⟨c, hc, hrest⟩ := h.owner w hw hcb
      exact ⟨c, List.mem_cons_of_mem _ hc, hrest⟩
    · refine ⟨_, List.mem_cons_self, rfl, hcb, rfl, ?_⟩
      simp [hopen, hgrant]
  · intro c hc hwaits
    rcases List.mem_cons.mp hc with rfl | hc
    · -- the new wrapper waits for its own request
      obtain ⟨hopen, hgrant⟩ := ho hwaits
      refine .inl ⟨⟨s.next, ctx, hopid, waits, false⟩, ?_, rfl, hwaits⟩
      simp [Sync.enter, hopen, hgrant]
    · rcases h.answered c hc hwaits with ⟨w, hw, hrest⟩ | hans
      · exact .inl ⟨w, hold w hw, hrest⟩
      · exact .inr hans
  · intro hb
    cases hb

theorem LoopInv.written (h : LoopInv s) (ref : ℕ) :
    LoopInv { s with pending := s.pending.map fun w => if w.ref = ref then { w with sent := true } else w } := by
  -- an entry keeps everything but its status
  have hkeep : ∀ w : Waiting, (if w.ref = ref then { w with sent := true } else w).ref = w.ref ∧
      (if w.ref = ref then { w with sent := true } else w).cb = w.cb ∧
      (if w.ref = ref then { w with sent := true } else w).ctx = w.ctx ∧
      (if w.ref = ref then { w with sent := true } else w).hopid = w.hopid := by
    intro w
    split <;> exact ⟨rfl, rfl, rfl, rfl⟩
  have hwaits : ∀ c, Loop.Waits { s with
      pending := s.pending.map fun w => if w.ref = ref then { w with sent := true } else w } c ↔ s.Waits c := by
    intro c
    constructor
    · rintro ⟨w, hw, href, hcb⟩
      obtain ⟨v, hv, rfl⟩ := List.mem_map.mp hw
      exact ⟨v, hv, (hkeep v).1.symm.trans href, (hkeep v).2.1.symm.trans hcb⟩
    · rintro ⟨w, hw, href, hcb⟩
      exact ⟨_, List.mem_map_of_mem hw, (hkeep w).1.trans href, (hkeep w).2.1.trans hcb⟩
  refine ⟨h.refs, h.below, ?_, ?_, ?_, ?_, ?_, ?_, h.results⟩
  · intro w hw
    obtain ⟨v, hv, rfl⟩ := List.mem_map.mp hw
    rw [(hkeep v).1]
    exact h.fresh v hv
  · have hrefs : (s.pending.map fun w => if w.ref = ref then { w with sent := true } else w).map Waiting.ref =
        s.pending.map Waiting.ref := by
      rw [List.map_map]
      exact List.map_congr_left fun w _ => (hkeep w).1
    show ((s.pending.map fun w => if w.ref = ref then { w with sent := true } else w).map Waiting.ref).Nodup
    rw [hrefs]
    exact h.distinct
  · intro w hw
    obtain ⟨v, hv, rfl⟩ := List.mem_map.mp hw
    rw [(hkeep v).2.2.1]
    exact h.opened v hv
  · intro w hw hcb
    obtain ⟨v, hv, rfl⟩ := List.mem_map.mp hw
    rw [(hkeep v).1, (hkeep v).2.2.1, (hkeep v).2.2.2]
    exact h.owner v hv ((hkeep v).2.1.symm.trans hcb)
  · intro c hc hw
    exact (h.answered c hc hw).imp (hwaits c).mpr id
  · intro hb c hc hw
    exact h.ended hb c hc ((hwaits c).mp hw)

theorem LoopInv.leave (h : LoopInv s) (idle : Bool) (hstep : leave s idle = some t) : LoopInv t := by
  unfold Sync.leave at hstep
  split at hstep
  · cases hstep
  rename_i c stack hstack
  split at hstep
  · rename_i hend
    cases hstep
    have hmem : c ∈ s.stack := hstack ▸ List.mem_cons_self
    have htail : ∀ d ∈ stack, d ∈ s.stack := fun d hd => hstack ▸ List.mem_cons_of_mem _ hd
    -- the innermost wrapper does not wait any more
    have hdone : ¬s.Waits c := by
      rcases hend with hb | ⟨-, hno⟩
      · exact h.ended hb c (by rw [hstack]; rfl)
      · rintro ⟨w, hw, -⟩
        have hopen := h.opened w hw
        rw [hno] at hopen
        cases hopen
    have hrefs := h.refs
    rw [hstack, List.map_cons, List.nodup_cons] at hrefs
    refine ⟨hrefs.2, fun d hd => h.below d (htail d hd), h.fresh, h.distinct, h.opened, ?_, fun d hd => h.answered d (htail d hd),
      (fun hb => nomatch hb), ?_⟩
    · intro w hw hcb
      obtain ⟨d, hd, href, hrest⟩ := h.owner w hw hcb
      rw [hstack] at hd
      rcases List.mem_cons.mp hd with rfl | hd
      · exact absurd ⟨w, hw, href.symm, hcb⟩ hdone
      · exact ⟨d, hd, href, hrest⟩
    · intro d hd hwaits
      rcases List.mem_append.mp hd with hd | hd
      · exact h.results d hd hwaits
      · rw [List.mem_singleton.mp hd] at hwaits ⊢
        exact (h.answered c hmem hwaits).resolve_left hdone
  · cases hstep

/-! ## Answers -/

theorem peek_take {m bs : List UInt8} {n k w : ℕ} (h : peek (m.take n) k w = some bs) : peek m k w = some bs := by
  obtain ⟨hle, rfl, -⟩ := peek_eq_some h
  rw [List.length_take] at hle
  rw [peek_some m k w (by omega), List.drop_take, List.take_take]
  congr 2
  omega

/-- What is read in a copy is read in the original. -/
theorem dmExpectAvp_take {grp grp' : Dm2AvpGrp} {n : ℕ} {r : Except Rc AvpRef}
    (h : dmExpectAvp { grp with data := grp.data.take n } = some (r, grp')) :
    ∃ g, dmExpectAvp grp = some (r, g) ∧ g.data = grp.data ∧ grp'.data = grp.data.take n := by
  unfold dmExpectAvp at h ⊢
  simp only at h
  split at h
  · rename_i hend
    cases h
    exact ⟨grp, by rw [if_pos hend], rfl, rfl⟩
  rename_i hend
  rw [if_neg hend]
  simp only [Option.bind_eq_bind, Option.bind_eq_some_iff] at h
  obtain ⟨avpLen, hlen, flags, hflags, h⟩ := h
  obtain ⟨bytes, hbytes, rfl⟩ := Option.map_eq_some_iff.mp hlen
  have hflags' : grp.data[grp.pos + 4]? = some flags := by
    rw [List.getElem?_take] at hflags
    split at hflags
    · exact hflags
    · cases hflags
  simp only [peek_take hbytes, hflags', Option.map_some, Option.bind_eq_bind, Option.bind_some]
  split at h
  · rename_i hguard
    cases h
    exact ⟨grp, by rw [if_pos hguard], rfl, rfl⟩
  rename_i hguard
  rw [if_neg hguard]
  obtain ⟨code, hcode, h⟩ := Option.bind_eq_some_iff.mp h
  obtain ⟨cbytes, hcbytes, rfl⟩ := Option.map_eq_some_iff.mp hcode
  simp only [peek_take hcbytes, Option.map_some, Option.bind_some]
  split at h
  · rename_i hvendor
    obtain ⟨vendorId, hvid, h⟩ := Option.bind_eq_some_iff.mp h
    obtain ⟨vbytes, hvbytes, rfl⟩ := Option.map_eq_some_iff.mp hvid
    cases h
    rw [if_pos hvendor, peek_take hvbytes]
    exact ⟨_, rfl, rfl, rfl⟩
  · rename_i hvendor
    cases h
    rw [if_neg hvendor]
    exact ⟨_, rfl, rfl, rfl⟩

/-- A number is read from an AVP of four bytes. -/
theorem carries_iff {grp : Dm2AvpGrp} {rc : UInt32} : Carries grp rc ↔
    ∃ off g data, dmExpectAvp grp = some (.ok ⟨avpRc, vpTravelping, off, data.length⟩, g) ∧
      peek g.data off data.length = some data ∧ data.length = 4 ∧ rc = UInt32.ofNat (ofBe data) := by
  constructor
  · rintro ⟨grp', h⟩
    rcases bind_ok h with ⟨e, hr, -⟩ | ⟨n, g1, hnum, hret⟩
    · cases hr
    cases hret
    unfold dmExpectNumber at hnum
    split at hnum
    · cases hnum
    · cases hnum
    rename_i data g2 hbin
    split at hnum
    · rename_i hlen
      cases hnum
      rcases bind_ok hbin with ⟨e, hr, -⟩ | ⟨avp, g3, hraw, hpay⟩
      · cases hr
      have hraw' := call_ok hraw
      unfold dmExpectRaw at hraw'
      obtain ⟨⟨r, g4⟩, hexp, hraw'⟩ := Option.bind_eq_some_iff.mp hraw'
      cases r with
      | error e => cases hraw'
      | ok avp' =>
        simp only at hraw'
        split at hraw'
        · cases hraw'
        · rename_i hcode
          cases hraw'
          rw [not_or, not_not, not_not] at hcode
          unfold payload at hpay
          split at hpay
          · cases hpay
          · rename_i bytes hpeek
            cases hpay
            obtain ⟨code, vendorId, off, len⟩ := avp
            obtain ⟨rfl, rfl⟩ := hcode
            have hl : len = data.length := (peek_eq_some hpeek).2.2.symm
            subst hl
            exact ⟨off, _, data, hexp, hpeek, hlen, rfl⟩
    · cases hnum
  · rintro ⟨off, g, data, hexp, hpeek, hlen, rfl⟩
    have hbin : dmExpectBin avpRc grp = .ok (.ok data, g) := by
      show Expect.bind (call fun grp => dmExpectRaw grp avpRc vpTravelping) _ grp = _
      simp only [Expect.bind, call, dmExpectRaw, hexp, Option.bind_eq_bind, Option.bind_some, ne_eq, not_true, or_self,
        if_false]
      rw [payload, hpeek]
    refine ⟨g, ?_⟩
    show Expect.bind (dmExpectNumber avpRc 4) _ grp = _
    simp only [Expect.bind, dmExpectNumber, hbin, hlen, if_true]
    rfl

theorem Carries.of_copy {grp : Dm2AvpGrp} {rc : UInt32} (h : Carries (copyAvpgrp grp) rc) : Carries grp rc := by
  obtain ⟨off, g, data, hexp, hpeek, hlen, hrc⟩ := carries_iff.mp h
  obtain ⟨g', hexp', hdata', hdata⟩ := dmExpectAvp_take hexp
  rw [hdata] at hpeek
  exact carries_iff.mpr ⟨off, g', data, hexp', by rw [hdata']; exact peek_take hpeek, hlen, hrc⟩

theorem rcWord_ok_iff (rc : Rc) : rcWord rc = rcWord .ok ↔ rc = .ok := by
  cases rc <;> decide

/-- `dm_async_cb` stores `RC_OK` only if the answer carries it. -/
theorem asyncRc_ok {answer : Bool} {grp : Dm2AvpGrp} (h : asyncRc A answer grp = some (rcWord .ok)) :
    Carries grp (rcWord .ok) := by
  unfold asyncRc at h
  split at h
  · exact absurd (Option.some.inj h) (by decide)
  split at h
  · cases h
  · rename_i rc g hread
    -- a failed read has another code
    have hmisc : rc = .errMisc := by
      rcases bind_ok hread with ⟨e, hr, hnum⟩ | ⟨n, g1, -, hret⟩
      · cases hr
        unfold dmExpectNumber at hnum
        split at hnum
        · cases hnum
        · cases hnum
          rfl
        · split at hnum
          · cases hnum
          · cases hnum
            rfl
      · cases hret
    rw [hmisc] at h
    exact absurd (Option.some.inj h) (by decide)
  · rename_i rc g hread
    cases h
    cases answer with
    | false => exact ⟨g, hread⟩
    | true => exact Carries.of_copy ⟨g, hread⟩

/-- What a callback does to the loop. -/
theorem dmAsyncCb_eq {result : SyncCall → Option UInt32} {ref : ℕ} (h : dmAsyncCb result s ref = some t) :
    ∃ c ∈ s.stack, c.ref = ref ∧ ∃ rc, result c = some rc ∧
      t = { s with broken := true, stack := s.stack.map fun d => if d.ref = ref then { d with rc := rc } else d } := by
  unfold dmAsyncCb at h
  split at h
  · cases h
  rename_i c hfind
  split at h
  · cases h
  · rename_i rc hrc
    cases h
    exact ⟨c, List.mem_of_find?_eq_some hfind, by simpa using List.find?_some hfind, rc, hrc, rfl⟩

/-! ## Stored codes -/

section Recode
variable (P : ℕ → Prop) [DecidablePred P] (rc : UInt32)

/-- A wrapper after a code was stored for it, if `P` says so. -/
def recode (c : SyncCall) : SyncCall := if P c.ref then { c with rc := rc } else c

@[simp] theorem recode_ref (c : SyncCall) : (recode P rc c).ref = c.ref := by
  unfold recode
  split <;> rfl

@[simp] theorem recode_ctx (c : SyncCall) : (recode P rc c).ctx = c.ctx := by
  unfold recode
  split <;> rfl

@[simp] theorem recode_waits (c : SyncCall) : (recode P rc c).waits = c.waits := by
  unfold recode
  split <;> rfl

@[simp] theorem recode_hopid (c : SyncCall) : (recode P rc c).hopid = c.hopid := by
  unfold recode
  split <;> rfl

theorem recode_refs (stack : List SyncCall) : (stack.map (recode P rc)).map SyncCall.ref = stack.map SyncCall.ref := by
  rw [List.map_map]
  exact List.map_congr_left fun c _ => recode_ref P rc c

theorem recode_none (stack : List SyncCall) (h : ∀ ref, ¬P ref) : stack.map (recode P rc) = stack := by
  refine (List.map_congr_left fun c _ => ?_).trans (List.map_id stack)
  rw [recode, if_neg (h c.ref)]
  rfl

/-- The invariant after requests were dropped and codes stored for their wrappers. -/
theorem LoopInv.recode (h : LoopInv s) (keep : Waiting → Bool) (received : List Received) (opened : List ℕ)
    (broken : Bool) (hrec : s.received ⊆ received)
    (hopen : ∀ w ∈ s.pending, keep w = true → w.ctx ∈ opened)
    (hdrop : ∀ w ∈ s.pending, keep w = false → w.cb = true → P w.ref)
    (hstored : ∀ c ∈ s.stack, P c.ref → Loop.Answered { s with received := received } { c with rc := rc })
    (hend : broken = true → ∀ c, s.stack.head? = some c → ∀ w ∈ s.pending, keep w = true → w.cb = true → w.ref ≠ c.ref) :
    LoopInv { s with pending := s.pending.filter keep, opened := opened, received := received, broken := broken,
                     stack := s.stack.map (recode P rc) } := by
  refine ⟨?_, ?_, ?_, ?_, ?_, ?_, ?_, ?_, ?_⟩
  · show ((s.stack.map (Sync.recode P rc)).map SyncCall.ref).Nodup
    rw [recode_refs]
    exact h.refs
  · intro c hc
    obtain ⟨d, hd, rfl⟩ := List.mem_map.mp hc
    rw [recode_ref]
    exact h.below d hd
  · intro w hw
    exact h.fresh w (List.mem_of_mem_filter hw)
  · exact h.distinct.sublist (List.filter_sublist.map _)
  · intro w hw
    obtain ⟨hw, hk⟩ := List.mem_filter.mp hw
    exact hopen w hw hk
  · intro w hw hcb
    obtain ⟨c, hc, hrest⟩ := h.owner w (List.mem_of_mem_filter hw) hcb
    refine ⟨Sync.recode P rc c, List.mem_map_of_mem hc, ?_⟩
    rw [recode_ref, recode_waits, recode_ctx, recode_hopid]
    exact hrest
  · intro c hc hwaits
    obtain ⟨d, hd, rfl⟩ := List.mem_map.mp hc
    rw [recode_waits] at hwaits
    by_cases hp : P d.ref
    · refine .inr ?_
      rw [Sync.recode, if_pos hp]
      exact hstored d hd hp
    · rw [Sync.recode, if_neg hp]
      rcases h.answered d hd hwaits with ⟨w, hw, href, hcb⟩ | hans
      · refine .inl ⟨w, List.mem_filter.mpr ⟨hw, ?_⟩, href, hcb⟩
        by_contra hk
        exact hp (href ▸ hdrop w hw (Bool.eq_false_iff.mpr hk) hcb)
      · exact .inr (hans.mono hrec)
  · rintro hb c hc ⟨w, hw, href, hcb⟩
    obtain ⟨hw, hk⟩ := List.mem_filter.mp hw
    rw [List.head?_map] at hc
    obtain ⟨d, hd, rfl⟩ := Option.map_eq_some_iff.mp hc
    rw [recode_ref] at href
    exact hend hb d hd w hw hk hcb href
  · intro c hc hwaits
    exact (h.results c hc hwaits).mono hrec

end Recode

theorem LoopInv.processReply (h : LoopInv s) (ctx : ℕ) (hopid : UInt32) (grp : Dm2AvpGrp)
    (ho : Orderly s (.reply ctx hopid grp)) (hstep : processReply A s ctx hopid grp = some t) : LoopInv t := by
  have hrec : s.received ⊆ s.received ++ [⟨ctx, hopid, grp⟩] := List.subset_append_left _ _
  unfold Sync.processReply at hstep
  simp only at hstep
  split at hstep
  · cases hstep
    exact ⟨h.refs, h.below, h.fresh, h.distinct, h.opened, h.owner,
      fun c hc hw => (h.answered c hc hw).imp id fun ha => ha.mono hrec, h.ended,
      fun c hc hw => (h.results c hc hw).mono hrec⟩
  rename_i w hw
  obtain ⟨hfind, hsent⟩ := Option.filter_eq_some_iff.mp hw
  have hmem : w ∈ s.pending := List.mem_of_find?_eq_some hfind
  have hid : w.ctx = ctx ∧ w.hopid = hopid := by simpa using List.find?_some hfind
  -- entries with the same reference are the same
  have hsame : ∀ v ∈ s.pending, v.ref = w.ref → v = w := fun v hv => List.inj_on_of_nodup_map h.distinct hv hmem
  have hkeep : ∀ v ∈ s.pending, decide (v.ref ≠ w.ref) = true → v.ctx ∈ s.opened := fun v hv _ => h.opened v hv
  split at hstep
  · rename_i hcb
    obtain ⟨c, hc, href, rc, hrc, rfl⟩ := dmAsyncCb_eq hstep
    refine h.recode (fun r => r = w.ref) rc (fun v => decide (v.ref ≠ w.ref)) _ s.opened true hrec hkeep ?_ ?_ ?_
    · intro v _ hk _
      simpa using hk
    · intro d hd hdref hok
      -- the code is that of this answer, and the wrapper is that of the request
      have hdc : d = c := List.inj_on_of_nodup_map h.refs hd hc (hdref.trans href.symm)
      obtain ⟨e, he, heref, -, hectx, hehop⟩ := h.owner w hmem hcb
      have hde : d = e := List.inj_on_of_nodup_map h.refs hd he (hdref.trans heref.symm)
      have hcarries : Carries grp (rcWord .ok) := by
        have hok' : rc = rcWord .ok := hok
        rw [hok'] at hrc
        exact asyncRc_ok hrc
      refine ⟨⟨ctx, hopid, grp⟩, List.mem_append_right _ (List.mem_singleton_self _), ?_, ?_, hcarries⟩
      · show ctx = d.ctx
        rw [hde, hectx, hid.1]
      · show d.hopid = some hopid
        rw [hde, hehop, hid.2]
    · intro _ d hd v hv hk hvcb hvref
      have hdw := ho w hw hcb d hd ⟨v, hv, hvref, hvcb⟩
      rw [decide_eq_true_iff] at hk
      exact hk (hvref.trans hdw)
  · rename_i hcb
    cases hstep
    have hinv := h.recode (fun _ => False) 0 (fun v => decide (v.ref ≠ w.ref)) (s.received ++ [⟨ctx, hopid, grp⟩]) s.opened
      s.broken hrec hkeep ?_ (fun _ _ hf => hf.elim) ?_
    · rw [recode_none _ 0 s.stack fun _ hf => hf] at hinv
      exact hinv
    · intro v hv hk hvcb
      have hvw := hsame v hv (by simpa using hk)
      exact hcb (hvw ▸ hvcb)
    · intro hb d hd v hv _ hvcb hvref
      exact h.ended hb d hd ⟨v, hv, hvref, hvcb⟩

/-- The callbacks of a shutdown store one code. -/
theorem callbacks_eq {rc : UInt32} {refs : List ℕ} (h : refs.foldlM (dmAsyncCb fun _ => some rc) s = some t) :
    t = { s with broken := s.broken || !refs.isEmpty, stack := s.stack.map (recode (· ∈ refs) rc) } := by
  induction refs generalizing s with
  | nil =>
    cases h
    rw [recode_none _ rc _ fun _ => List.not_mem_nil]
    simp
  | cons ref refs ih =>
    rw [List.foldlM_cons] at h
    obtain ⟨s1, h1, h2⟩ := Option.bind_eq_some_iff.mp h
    obtain ⟨c, -, -, rc', hrc, rfl⟩ := dmAsyncCb_eq h1
    cases hrc
    rw [ih h2]
    have hstack : (s.stack.map fun d => if d.ref = ref then { d with rc := rc } else d).map (recode (· ∈ refs) rc) =
        s.stack.map (recode (· ∈ ref :: refs) rc) := by
      rw [List.map_map]
      refine List.map_congr_left fun d _ => ?_
      unfold recode
      by_cases h1 : d.ref = ref
      · by_cases h2 : ref ∈ refs <;> simp [h1, h2]
      · by_cases h2 : d.ref ∈ refs <;> simp [h1, h2]
    rw [hstack]
    simp

theorem LoopInv.shutdown (h : LoopInv s) (ctx : ℕ) (ho : Orderly s (.shutdown ctx)) (hstep : shutdown s ctx = some t) :
    LoopInv t := by
  unfold Sync.shutdown at hstep
  rw [callbacks_eq hstep]
  refine h.recode (· ∈ (s.pending.filter fun w => w.ctx = ctx ∧ w.cb = true).map Waiting.ref) (rcWord .errMisc)
    (fun w => decide (w.ctx ≠ ctx)) s.received (s.opened.filter fun c => c ≠ ctx) _ (List.Subset.refl _) ?_ ?_ ?_ ?_
  · intro w hw hk
    exact List.mem_filter.mpr ⟨h.opened w hw, hk⟩
  · intro w hw hk hcb
    refine List.mem_map_of_mem (List.mem_filter.mpr ⟨hw, ?_⟩)
    simpa [hcb] using hk
  · intro c _ _ hok
    exact absurd (show rcWord .errMisc = rcWord .ok from hok) (by decide)
  · intro hb c hc w hw hk hcb href
    rw [decide_eq_true_iff] at hk
    rcases Bool.or_eq_true_iff.mp hb with hb | hb
    · exact h.ended hb c hc ⟨w, hw, href, hcb⟩
    · -- another request of the context has failed
      have hsome : ∃ v ∈ s.pending, v.ctx = ctx ∧ v.cb = true := by
        simpa using hb
      have hctx := ho hsome c hc ⟨w, hw, href, hcb⟩
      obtain ⟨d, hd, hdref, -, hdctx, -⟩ := h.owner w hw hcb
      have hcd : c = d :=
        List.inj_on_of_nodup_map h.refs (List.mem_of_mem_head? hc) hd (href.symm.trans hdref.symm)
      exact hk (by rw [← hdctx, ← hcd, hctx])

/-- One orderly event. -/
theorem LoopInv.step (h : LoopInv s) (ev : Event) (hstep : step A s ev = some t) (ho : Orderly s ev) : LoopInv t := by
  cases ev with
  | connect ctx =>
    cases hstep
    exact h.connect ctx
  | call ctx waits answer hopid granted =>
    cases hstep
    exact h.enter ctx waits answer hopid granted ho
  | written ref =>
    cases hstep
    exact h.written ref
  | reply ctx hopid grp => exact h.processReply ctx hopid grp ho hstep
  | shutdown ctx => exact h.shutdown ctx ho hstep
  | ret idle => exact h.leave idle hstep

/-- **Synchronous calls report their own result** in every state of a run in which every request of a wrapper that
waits is enqueued and no callback breaks the loop of a wrapper that goes on waiting. -/
theorem own_results (A : Talloc) (evs : List Event) (hM : Run.Each (step A) Loop.start Orderly evs) :
    Run.Always (step A) Loop.start Loop.OwnResults evs := by
  have hinv : Run.Always (step A) Loop.start LoopInv evs :=
    @Run.always_of_each _ _ (step A) evs Loop.start (fun _ => True) LoopInv Orderly trivial (fun _ _ _ _ _ => trivial)
      start_inv (fun _ ev _ hev _ hp hm => hp.step ev hev hm) hM
  intro pre s hpre hrun
  exact (hinv pre s hpre hrun).results

/-- An answer with this code. -/
def sampleAnswer (rc : UInt32) : Dm2AvpGrp :=
  dmInitAvpgrp (avpBytes avpRc vpTravelping (be 4 rc.toNat) ++ List.replicate 8 0) 16

/-- A wrapper, its answer, and its return. -/
def sampleCall : List Event :=
  [.connect 0, .call 0 true false 7 true, .written 0, .reply 0 7 (sampleAnswer 0), .ret false]

theorem own_results_call : Run.Always (step ⟨fun _ => true, fun _ => 0⟩) Loop.start Loop.OwnResults sampleCall := by
  refine own_results _ sampleCall ?_
  refine Run.each_cons fun s1 h1 => ⟨trivial, ?_⟩
  cases h1
  refine Run.each_cons fun s2 h2 => ⟨fun _ => ⟨List.mem_cons_self, rfl⟩, ?_⟩
  cases h2
  refine Run.each_cons fun s3 h3 => ⟨trivial, ?_⟩
  cases h3
  refine Run.each_cons fun s4 h4 => ⟨?_, ?_⟩
  · intro w hw _ c hc _
    cases hw
    cases hc
    rfl
  · exact Run.each_cons fun s5 h5 => ⟨trivial, Run.each_nil⟩

/-- A wrapper that is called while another one waits, and the answer to that other one. -/
def sampleNested : List Event :=
  [.connect 0, .call 0 true false 7 true, .written 0, .call 0 true false 8 true, .written 1,
    .reply 0 7 (sampleAnswer 0), .ret false]

/-- The inner wrapper returns `RC_OK` without an answer. -/
theorem nested_call_unanswered : ¬Run.Always (step ⟨fun _ => true, fun _ => 0⟩) Loop.start Loop.OwnResults sampleNested := by
  intro h
  obtain ⟨s, hrun⟩ : ∃ s, Run.run (step ⟨fun _ => true, fun _ => 0⟩) Loop.start sampleNested = some s := ⟨_, rfl⟩
  have hown := h sampleNested s (List.prefix_refl _) hrun
  cases hrun
  obtain ⟨r, hr, -, hhop, -⟩ := hown ⟨1, 0, true, false, some 8, 0⟩ (by decide) rfl (by decide)
  rw [List.mem_singleton.mp hr] at hhop
  exact absurd hhop (by decide)

end Mand.Rpc.Sync
