import Mand.Signal.Phases

/-! # Notifications and events

`rpc_db_commit` and `end_session` broadcast the events of the actions in `exec_actions`, and send the
notifications behind it in `exec_pending_notifications`. -/
namespace Mand.Signal
open Mand.Store Mand.Index Mand.Msg Mand.Server Mand.Notify Mand.Action
set_option autoImplicit false

/-! ## Packets -/

/-- The packet of an entry, if it goes to the client. -/
def Entry.packetTo (key : ℕ) : Entry → Option Packet
  | .sent k p => if k = key then some p else none
  | _ => none

/-- What is enqueued to a client. -/
def packetsTo (key : ℕ) (out : List Entry) : List Packet := out.filterMap (Entry.packetTo key)

/-- No client gets a notification of kind `N` behind an event of kind `T`. -/
def NotifiedFirst (T : ExecNode → Prop) (N : NotifyItem → Prop) (out : List Entry) : Prop :=
  ∀ key before n req after, packetsTo key out = before ++ .event n req :: after → T n →
    ∀ items req', .notify items req' ∈ after → ∀ x ∈ items, ¬N x

/-- `dm_event_broadcast` reaches the client with the event of a node. -/
def EventTo (host : Host) (s : System) (key : ℕ) (n : ExecNode) : Prop :=
  n ∈ s.chain ∧ (∃ c ∈ s.server.ctxs, c.key = key) ∧
    ∃ path req, dmSel2name host.env.schema n.sel maxParamNameLen = some path ∧
      eventRequest host.talloc path n.type = some req

/-- An item with active level waits in a queue of the client, and the message with it can be written. -/
def NotifyTo (host : Host) (s : System) (key : ℕ) (x : NotifyItem) : Prop :=
  s.notifier.pending = true ∧ ∃ i < 16, i ≠ 0 ∧ s.notifier.slots.data i = some key ∧ x ∈ s.notifier.queue i ∧
    x.level = activeNotify ∧ ∃ queue req,
      dmconfigNotifyCb host.talloc (putEvent host.talloc host.events) (s.notifier.queue i) = some (queue, some req)

/-! ## Events -/

section Events
variable {host : Host} {ctxs : List Ctx} {chain : List ExecNode} {n : ExecNode} {key : ℕ} {req : Dm2Request}

theorem packetsTo_append (key : ℕ) (out out' : List Entry) :
    packetsTo key (out ++ out') = packetsTo key out ++ packetsTo key out' := List.filterMap_append

theorem mem_packetsTo {p : Packet} {out : List Entry} : p ∈ packetsTo key out ↔ .sent key p ∈ out := by
  simp only [packetsTo, List.mem_filterMap]
  constructor
  · rintro ⟨x, hx, hp⟩
    cases x with
    | sent k q =>
      simp only [Entry.packetTo] at hp
      split at hp
      · rename_i hk
        cases hp
        rw [← hk]
        exact hx
      · cases hp
    | _ => cases hp
  · intro h
    exact ⟨_, h, if_pos rfl⟩

theorem sent_mem_actionEntries {p : Packet} : .sent key p ∈ actionEntries host ctxs chain ↔
    ∃ n ∈ chain, ∃ path req, dmSel2name host.env.schema n.sel maxParamNameLen = some path ∧
      eventRequest host.talloc path n.type = some req ∧ (∃ c ∈ ctxs, c.key = key) ∧ p = .event n req := by
  simp only [actionEntries, List.mem_flatMap]
  constructor
  · rintro ⟨c, hc, hx⟩
    obtain ⟨n, hn, ⟨rfl, -⟩ | rfl | ⟨rfl, -⟩⟩ := mem_execActions.mp hc
    · cases List.mem_singleton.mp hx
    · rcases List.mem_cons.mp hx with hx | hx
      · cases hx
      · unfold eventBroadcast at hx
        cases hname : dmSel2name host.env.schema n.sel maxParamNameLen with
        | none =>
          rw [hname] at hx
          cases hx
        | some path =>
          rw [hname] at hx
          obtain ⟨d, hd, hx⟩ := List.mem_flatMap.mp hx
          obtain ⟨req, hreq, hx⟩ := List.mem_map.mp hx
          cases hx
          exact ⟨n, hn, path, req, hname, Option.mem_toList.mp hreq, ⟨d, hd, rfl⟩, rfl⟩
    · cases List.mem_singleton.mp hx
  · rintro ⟨n, hn, path, req, hname, hreq, ⟨c, hc, rfl⟩, rfl⟩
    refine ⟨.event n, mem_execActions.mpr ⟨n, hn, .inr (.inl rfl)⟩, List.mem_cons_of_mem _ ?_⟩
    unfold eventBroadcast
    rw [hname]
    exact List.mem_flatMap.mpr ⟨c, hc, List.mem_map.mpr ⟨req, Option.mem_toList.mpr hreq, rfl⟩⟩

end Events

/-! ## Notifications -/

section Flush
variable {host : Host} {n n' : Notifier} {out : List Entry}

/-- What the loop sends for a slot. -/
def slotEntries (host : Host) (n : Notifier) (i : ℕ) : List Entry :=
  if i = 0 ∨ (n.queue i).isEmpty = true then []
  else match n.slots.data i, dmconfigNotifyCb host.talloc (putEvent host.talloc host.events) (n.queue i) with
    | some key, some (_, some req) => [.sent key (.notify ((n.queue i).filter fun x => x.level = activeNotify) req)]
    | _, _ => []

/-- A round of the loop leaves the other slots alone. -/
theorem flushSlot_spec {i : ℕ} {out' : List Entry} (h : flushSlot host (n, out) i = some (n', out')) :
    out' = out ++ slotEntries host n i ∧ n'.slots = n.slots ∧ ∀ j, j ≠ i → n'.queue j = n.queue j := by
  simp only [flushSlot] at h
  unfold slotEntries
  split at h
  · rename_i hskip
    cases h
    refine ⟨?_, rfl, fun _ _ => rfl⟩
    by_cases hi : i = 0 ∨ (n.queue i).isEmpty = true
    · rw [if_pos hi, List.append_nil]
    · rw [if_neg hi]
      have hno : n.slots.data i = none := by
        rcases hskip with hcb | hempty
        · simp only [Notifier.hasCb, Bool.decide_or, Bool.or_eq_false_iff, decide_eq_false_iff_not] at hcb
          simpa using hcb.2
        · exact absurd (.inr hempty) hi
      rw [hno, List.append_nil]
  · rename_i hskip
    have hqueue : ¬(n.queue i).isEmpty = true := fun hq => hskip (.inr hq)
    split at h
    · rename_i hi
      cases h
      refine ⟨?_, rfl, ?_⟩
      · rw [if_pos (.inl hi), List.append_nil]
      · intro j hj
        have hj0 : j ≠ 0 := fun h0 => hj (h0.trans hi.symm)
        exact Function.update_of_ne hj0 _ _
    · rename_i hi
      simp only [Option.bind_eq_bind, Option.bind_eq_some_iff, Option.some.injEq, Prod.mk.injEq, Prod.exists] at h
      obtain ⟨key, hkey, queue, req, hcb, rfl, rfl⟩ := h
      refine ⟨?_, rfl, fun j hj => Function.update_of_ne hj _ _⟩
      rw [if_neg (not_or.mpr ⟨hi, hqueue⟩), hkey, hcb]
      cases req <;> rfl

theorem slotEntries_congr {i : ℕ} (hslots : n'.slots = n.slots) (hqueue : n'.queue i = n.queue i) :
    slotEntries host n' i = slotEntries host n i := by
  unfold slotEntries
  rw [hslots, hqueue]

theorem flushSlots_spec (is : List ℕ) (hnd : is.Nodup) {out' : List Entry}
    (h : Run.run (flushSlot host) (n, out) is = some (n', out')) : out' = out ++ is.flatMap (slotEntries host n) := by
  induction is generalizing n out with
  | nil =>
    cases h
    rw [List.flatMap_nil, List.append_nil]
  | cons i is ih =>
    obtain ⟨hi, hnd⟩ := List.nodup_cons.mp hnd
    simp only [Run.run, List.foldlM_cons, Option.bind_eq_bind, Option.bind_eq_some_iff] at h
    obtain ⟨⟨n1, out1⟩, h1, h⟩ := h
    obtain ⟨hout, hslots, hqueue⟩ := flushSlot_spec h1
    rw [ih hnd h, hout, List.flatMap_cons, List.append_assoc]
    congr 2
    apply List.flatMap_congr
    intro j hj
    exact slotEntries_congr hslots (hqueue j fun hji => hi (hji ▸ hj))

theorem sent_mem_flush {key : ℕ} {p : Packet} (h : flush host n = some (n', out)) : .sent key p ∈ out ↔
    n.pending = true ∧ ∃ i < 16, i ≠ 0 ∧ (n.queue i).isEmpty = false ∧ n.slots.data i = some key ∧ ∃ queue req,
      dmconfigNotifyCb host.talloc (putEvent host.talloc host.events) (n.queue i) = some (queue, some req) ∧
      p = .notify ((n.queue i).filter fun x => x.level = activeNotify) req := by
  unfold flush at h
  by_cases hpending : n.pending = false
  · rw [if_pos hpending] at h
    cases h
    simp [hpending]
  · rw [if_neg hpending] at h
    simp only [Option.bind_eq_bind, Option.bind_eq_some_iff, Option.some.injEq, Prod.mk.injEq, Prod.exists] at h
    obtain ⟨n1, out1, hrun, -, rfl⟩ := h
    rw [flushSlots_spec _ List.nodup_range hrun, List.nil_append]
    simp only [List.mem_flatMap, List.mem_range, Bool.eq_true_of_not_eq_false hpending, true_and]
    refine exists_congr fun i => and_congr_right fun _ => ?_
    unfold slotEntries
    constructor
    · intro hx
      split at hx
      · cases hx
      · rename_i hskip
        obtain ⟨hi, hq⟩ := not_or.mp hskip
        split at hx
        · rename_i k queue req hdata hcb
          cases List.mem_singleton.mp hx
          exact ⟨hi, Bool.eq_false_of_not_eq_true hq, hdata, queue, req, hcb, rfl⟩
        · cases hx
    · rintro ⟨hi, hq, hdata, queue, req, hcb, rfl⟩
      rw [if_neg (not_or.mpr ⟨hi, by rw [hq]; decide⟩), hdata, hcb]
      exact List.mem_singleton.mpr rfl

end Flush

/-! ## Handlers -/

section Handlers
variable {host : Host} {s s' : System} {T : ExecNode → Prop} {N : NotifyItem → Prop} {out : List Entry}

/-- The events come first, so the order is right only where a client does not get both. -/
theorem runActions_notified_iff (h : runActions host s = some (s', out)) : NotifiedFirst T N out ↔
    ∀ key n x, T n → N x → EventTo host s key n → ¬NotifyTo host s key x := by
  simp only [runActions, Option.bind_eq_bind, Option.bind_eq_some_iff, Option.some.injEq, Prod.mk.injEq,
    Prod.exists] at h
  obtain ⟨m, sent, hflush, -, rfl⟩ := h
  constructor
  · rintro hfirst key n x hT hN ⟨hn, hctx, path, req, hname, hreq⟩ ⟨hpend, i, hi, hi0, hdata, hx, hlevel, queue, req', hcb⟩
    have hev : Packet.event n req ∈ packetsTo key (actionEntries host s.server.ctxs s.chain) :=
      mem_packetsTo.mpr (sent_mem_actionEntries.mpr ⟨n, hn, path, req, hname, hreq, hctx, rfl⟩)
    have hempty : (s.notifier.queue i).isEmpty = false := by
      rw [List.isEmpty_eq_false_iff]
      exact List.ne_nil_of_mem hx
    have hnt : Packet.notify ((s.notifier.queue i).filter fun x => x.level = activeNotify) req' ∈ packetsTo key sent :=
      mem_packetsTo.mpr ((sent_mem_flush hflush).mpr ⟨hpend, i, hi, hi0, hempty, hdata, queue, req', hcb, rfl⟩)
    obtain ⟨before, after, hsplit⟩ := List.append_of_mem hev
    refine hfirst key before n req (after ++ packetsTo key sent) ?_ hT _ req' (List.mem_append_right _ hnt) x ?_ hN
    · rw [packetsTo_append, hsplit, List.append_assoc, List.cons_append]
    · exact List.mem_filter.mpr ⟨hx, by simpa using hlevel⟩
  · intro hnone key before n req after hsplit hT items req' hitems x hx hN
    -- the packet of the event is one of the first list, that of the notification one of the second
    have hev : Packet.event n req ∈ packetsTo key (actionEntries host s.server.ctxs s.chain ++ sent) := by
      rw [hsplit]
      exact List.mem_append_right _ List.mem_cons_self
    have hnt : Packet.notify items req' ∈ packetsTo key (actionEntries host s.server.ctxs s.chain ++ sent) := by
      rw [hsplit]
      exact List.mem_append_right _ (List.mem_cons_of_mem _ hitems)
    rw [packetsTo_append, List.mem_append, mem_packetsTo, mem_packetsTo, sent_mem_actionEntries,
      sent_mem_flush hflush] at hev hnt
    rcases hev with ⟨m, hm, path, r, hname, hreq, hctx, hp⟩ | ⟨-, i, -, -, -, -, queue, r, -, hp⟩
    · cases hp
      rcases hnt with ⟨k, -, -, r', -, -, -, hp⟩ | ⟨hpend, i, hi, hi0, -, hdata, queue, r', hcb, hp⟩
      · cases hp
      · cases hp
        obtain ⟨hx, hlevel⟩ := List.mem_filter.mp hx
        exact hnone key n x hT hN ⟨hm, hctx, path, _, hname, hreq⟩
          ⟨hpend, i, hi, hi0, hdata, hx, by simpa using hlevel, queue, _, hcb⟩
    · cases hp

/-- Nothing is sent before the actions run. -/
theorem notifiedFirst_append {front : List Entry} (h : ∀ x ∈ front, ∀ key p, x ≠ .sent key p) :
    NotifiedFirst T N (front ++ out) ↔ NotifiedFirst T N out := by
  have hnil : ∀ key, packetsTo key front = [] := by
    intro key
    apply List.eq_nil_iff_forall_not_mem.mpr
    intro p hp
    exact h _ (mem_packetsTo.mp hp) key p rfl
  unfold NotifiedFirst
  simp only [packetsTo_append, hnil, List.nil_append]

/-- The event of a node is triggered by some of the changes. -/
def TriggeredBy (host : Host) (sigs : List Signal) (n : ExecNode) : Prop :=
  ∃ m ∈ sigs.flatMap (signalNodes host.actions), cmpAction m n = 0

/-- The item reports one of the changes. -/
def ReportOf (sigs : List Signal) (x : NotifyItem) : Prop :=
  x.type = .change ∧ ∃ slot sel v, Signal.notify slot sel v .change ∈ sigs ∧ selIds x.sb = selIds sel

/-- A handler that runs the actions and then sends the notifications, from the state in which it does so: a
commit, with the changes that `cache_apply` makes, and the end of a session, with all the changes whose actions
and notifications have not gone out yet. -/
inductive Handled (host : Host) (s : System) : (ExecNode → Prop) → (NotifyItem → Prop) → System → List Entry → Prop
  | commit {c : Ctx} {order : List Selector} {r : ℕ} {cache : Cache} {st : DmStore} {sigs : List Signal} {s1 s' : System}
      {sch out : List Entry} (hid : c.id = s.server.cfgSessionId)
      (hval : cacheValidate host.env s.server.store s.server.cache = some (r, cache)) (hr : r ≠ 0)
      (happ : cacheApply host.env (writerSlot s c.key) s.server.store (order.filterMap (cacheFind cache)) =
        some (st, sigs))
      (hemit : emit host { s with server := { s.server with store := st, cache := [] } } sigs = some (s1, sch))
      (h : commitChanges host s c order = some (s', out)) : Handled host s (TriggeredBy host sigs) (ReportOf sigs) s1 out
  | close {c : Ctx} {s1 s' : System} {server : State} {out : List Entry} (hrel : releaseSlot host s c.key = some s1)
      (hserver : endSession s1.server c = some server) (h : closeSession host s c = some (s', out)) :
      Handled host s (fun _ => True) (fun x => x.type = .change) { s1 with server := server } out

/-- Either handler ends with the actions and the notifications, and sends nothing before. -/
theorem Handled.tail {s1 : System} (h : Handled host s T N s1 out) : ∃ s' front back, out = front ++ back ∧
    (∀ x ∈ front, ∀ key p, x ≠ .sent key p) ∧ runActions host s1 = some (s', back) := by
  have hpre : ∀ chain, ∀ x ∈ preEntries host chain, ∀ key p, x ≠ .sent key p := by
    intro chain x hx key p heq
    obtain ⟨n, -, -, rfl⟩ := mem_preEntries.mp hx
    cases heq
  cases h with
  | commit hid hval hr happ hemit h =>
    unfold commitChanges at h
    rw [if_neg (not_not.mpr hid), Option.bind_eq_bind, hval, Option.bind_some] at h
    simp only [if_neg hr] at h
    split at h
    · simp only [Option.bind_eq_bind, happ, Option.bind_some, hemit, Option.bind_eq_some_iff, Option.some.injEq,
        Prod.mk.injEq, Prod.exists] at h
      obtain ⟨s2, out2, hrun, -, rfl⟩ := h
      refine ⟨s2, _, out2, rfl, ?_, hrun⟩
      intro x hx key p heq
      rcases List.mem_append.mp hx with hx | hx
      · exact hpre _ x hx key p heq
      · obtain ⟨n, rfl, -⟩ := ((emit_spec hemit).noted x).mp hx
        cases heq
    · cases h
  | close hrel hserver h =>
    simp only [closeSession, Option.bind_eq_bind, hrel, hserver, Option.bind_some, Option.bind_eq_some_iff,
      Option.some.injEq, Prod.mk.injEq, Prod.exists] at h
    obtain ⟨s2, out2, hrun, -, rfl⟩ := h
    exact ⟨s2, _, out2, rfl, hpre _, hrun⟩

/-- The notifications of the changes come before the events that they trigger, exactly when no client gets
both an event and a notification. -/
theorem notified_first_iff (host : Host) (s s1 : System) (T : ExecNode → Prop) (N : NotifyItem → Prop)
    (out : List Entry) (h : Handled host s T N s1 out) : NotifiedFirst T N out ↔
      ∀ key n x, T n → N x → EventTo host s1 key n → ¬NotifyTo host s1 key x := by
  obtain ⟨s', front, back, rfl, hfront, hrun⟩ := h.tail
  rw [notifiedFirst_append hfront]
  exact runActions_notified_iff hrun

end Handlers

/-- The second client has asked for the number, the first has set it in its configure session. -/
def sampleWatch : List SysEvent :=
  [.server .accept, .server .accept, .server (.startSession 1 1), .server (.startSession 2 0), .subscribe 2,
    .param 2 1 [[1]], .server (.set 1 [([1], sampleAvp 3)])]

def sampleCtx : Ctx := ⟨1, 1, 1⟩

/-- The commit of the first client, up to the actions. -/
def sampleApplied : Option (System × System × List Signal × List Entry) := do
  let s0 ← System.init sampleHost
  let x ← Run.run (logStep sampleHost) (s0, []) sampleWatch
  let (_, cache) ← cacheValidate sampleHost.env x.1.server.store x.1.server.cache
  let (st, sigs) ← cacheApply sampleHost.env (writerSlot x.1 sampleCtx.key) x.1.server.store
    ([[1]].filterMap (cacheFind cache))
  let (s1, _) ← emit sampleHost { x.1 with server := { x.1.server with store := st, cache := [] } } sigs
  let (_, out) ← commitChanges sampleHost x.1 sampleCtx [[1]]
  some (x.1, s1, sigs, out)

theorem sampleApplied_handled {s s1 : System} {sigs : List Signal} {out : List Entry}
    (h : sampleApplied = some (s, s1, sigs, out)) (hid : sampleCtx.id = s.server.cfgSessionId)
    (hok : (cacheValidate sampleHost.env s.server.store s.server.cache).any (fun x => x.1 ≠ 0) = true) :
    Handled sampleHost s (TriggeredBy sampleHost sigs) (ReportOf sigs) s1 out := by
  simp only [sampleApplied, Option.bind_eq_bind, Option.bind_eq_some_iff, Option.some.injEq, Prod.mk.injEq,
    Prod.exists] at h
  obtain ⟨s0, -, x, log, -, r, cache, hval, st, sigs', happ, s1', sch, hemit, s', out', hcommit, rfl, rfl, rfl, rfl⟩ := h
  refine .commit hid hval ?_ happ hemit hcommit
  rw [hval] at hok
  simpa using hok

/-- What stands in the state in which the actions run. -/
def sampleClash (s s1 : System) (sigs : List Signal) : Bool :=
  sampleCtx.id = s.server.cfgSessionId &&
  (cacheValidate sampleHost.env s.server.store s.server.cache).any (fun x => x.1 ≠ 0) &&
  sigs.flatMap (signalNodes sampleHost.actions) = [⟨1, [1], .change⟩] &&
  sigs.any (fun sig => match sig with | .notify _ sel _ .change => sel = [1] | _ => false) &&
  s1.chain = [⟨1, [1], .change⟩] && s1.server.ctxs.any (fun c => c.key = 2) && s1.notifier.pending &&
  s1.notifier.slots.data 1 = some 2 &&
  (s1.notifier.queue 1).any (fun x => x.level = activeNotify && x.type = .change && x.sb = [1]) &&
  ((dmconfigNotifyCb sampleHost.talloc (putEvent sampleHost.talloc sampleHost.events) (s1.notifier.queue 1)).bind
    Prod.snd).isSome

theorem notified_first_sample : ∃ s s1 sigs out, sampleApplied = some (s, s1, sigs, out) ∧
    Handled sampleHost s (TriggeredBy sampleHost sigs) (ReportOf sigs) s1 out ∧
    (NotifiedFirst (TriggeredBy sampleHost sigs) (ReportOf sigs) out ↔
      ∀ key n x, TriggeredBy sampleHost sigs n → ReportOf sigs x → EventTo sampleHost s1 key n →
        ¬NotifyTo sampleHost s1 key x) := by
  have heval : sampleApplied.any (fun x => sampleClash x.1 x.2.1 x.2.2.1) = true := by decide +kernel
  obtain ⟨⟨s, s1, sigs, out⟩, happ, hclash⟩ := (Option.any_eq_true ..).mp heval
  simp only [sampleClash, Bool.and_eq_true, decide_eq_true_eq] at hclash
  have hh := sampleApplied_handled happ hclash.1.1.1.1.1.1.1.1.1 hclash.1.1.1.1.1.1.1.1.2
  exact ⟨s, s1, sigs, out, happ, hh, notified_first_iff sampleHost s s1 _ _ out hh⟩

/-- The second client gets the event before the notification. -/
theorem event_before_notification : ∃ s s1 sigs out, sampleApplied = some (s, s1, sigs, out) ∧
    Handled sampleHost s (TriggeredBy sampleHost sigs) (ReportOf sigs) s1 out ∧
    ¬NotifiedFirst (TriggeredBy sampleHost sigs) (ReportOf sigs) out := by
  have heval : sampleApplied.any (fun x => sampleClash x.1 x.2.1 x.2.2.1) = true := by decide +kernel
  obtain ⟨⟨s, s1, sigs, out⟩, happ, hclash⟩ := (Option.any_eq_true ..).mp heval
  simp only [sampleClash, Bool.and_eq_true, decide_eq_true_eq] at hclash
  obtain ⟨⟨⟨⟨⟨⟨⟨⟨⟨hid, hok⟩, hnodes⟩, hsig⟩, hchain⟩, hctx⟩, hpend⟩, hdata⟩, hqueue⟩, hmsg⟩ := hclash
  have hh := sampleApplied_handled happ hid hok
  refine ⟨s, s1, sigs, out, happ, hh, ?_⟩
  obtain ⟨sig, hsig, hsel⟩ := List.any_eq_true.mp hsig
  obtain ⟨c, hc, hkey⟩ := List.any_eq_true.mp hctx
  obtain ⟨x, hx, hitem⟩ := List.any_eq_true.mp hqueue
  simp only [Bool.and_eq_true, decide_eq_true_eq] at hitem
  obtain ⟨⟨hlevel, htype⟩, hsb⟩ := hitem
  obtain ⟨req, hmsg⟩ := Option.isSome_iff_exists.mp hmsg
  obtain ⟨⟨queue, r⟩, hcb, hr⟩ := Option.bind_eq_some_iff.mp hmsg
  have hr : r = some req := hr
  subst hr
  obtain ⟨s', front, back, hout, hfront, hrun⟩ := hh.tail
  intro hfirst
  rw [hout, notifiedFirst_append hfront, runActions_notified_iff hrun] at hfirst
  refine hfirst 2 ⟨1, [1], .change⟩ x ?_ ?_ ?_ ?_
  · exact ⟨⟨1, [1], .change⟩, by rw [hnodes]; exact List.mem_singleton.mpr rfl, rfl⟩
  · refine ⟨htype, ?_⟩
    split at hsel
    · rename_i slot sel v
      exact ⟨slot, sel, v, hsig, by rw [hsb, of_decide_eq_true hsel]⟩
    · cases hsel
  · refine ⟨by rw [hchain]; exact List.mem_singleton.mpr rfl, ⟨c, hc, of_decide_eq_true hkey⟩, [118], ?_⟩
    have hreq : (eventRequest sampleHost.talloc [118] .change).isSome = true := by decide +kernel
    obtain ⟨req, hreq⟩ := Option.isSome_iff_exists.mp hreq
    exact ⟨req, by decide, hreq⟩
  · exact ⟨hpend, 1, by decide, by decide, hdata, hx, hlevel, queue, req, hcb⟩

end Mand.Signal
