import Mand.Net.Peers

/-! # Requests and their own answers

Across any interleaving of both ends, with writes and reads of any parts: the packets that are handed on are
those that were enqueued, and the callback of a request gets the packet that answers this request. -/
namespace Mand.Net
open Mand.Msg Mand.Bytes
set_option autoImplicit false

/-- Whenever the context changed, its outstanding requests had distinct ids. -/
def Session.Distinct (s : Session) : Prop := ∀ t ∈ s.past, t.requestIds.Nodup

/-- What an end says about its answers: each is about a request in the inbox, has its id, and is the only one. -/
structure Answering (s : Session) : Prop where
  length : s.answers.length = s.context.enqueued.length
  answered : ∀ j i : ℕ, s.answers[j]? = some (some i) → ∃ req ans : Packet, s.inbox[i]? = some req ∧
    req.asks = true ∧ s.context.enqueued[j]? = some ans ∧ ans.isRequest = false ∧ dmHop2hopId ans.bytes = dmHop2hopId req.bytes
  called : ∀ (j : ℕ) (ans : Packet), s.answers[j]? = some none → s.context.enqueued[j]? = some ans → ans.isRequest = true
  once : ∀ j j' i : ℕ, s.answers[j]? = some (some i) → s.answers[j']? = some (some i) → j = j'
  pending : ∀ i ∈ s.pending, (∃ req : Packet, s.inbox[i]? = some req ∧ req.asks = true) ∧ ∀ j : ℕ, s.answers[j]? ≠ some (some i)
  nodup : s.pending.Nodup

structure Own (s : Session) : Prop where
  send : SendInv s.context
  idle : s.context.idle
  tracked : Tracked s.context
  queue : s.Distinct → QueueInv s.context
  answering : Answering s

/-- What is there stays while nothing is handed on. -/
structure Extends (s t : Session) : Prop where
  inbox : t.inbox = s.inbox
  answers : s.answers <+: t.answers
  past : s.past <+: t.past
  context : Continues s.context t.context

/-- Besides, an act writes nothing. -/
structure Acted (s t : Session) : Prop extends Extends s t where
  out : t.context.out = s.context.out
  connected : t.context.connected = s.context.connected

/-! ## Acts -/

theorem Acted.refl (s : Session) : Acted s s :=
  ⟨⟨rfl, List.prefix_refl _, List.prefix_refl _, Continues.refl _⟩, rfl, rfl⟩

theorem Acted.trans {s t u : Session} (h : Acted s t) (h' : Acted t u) : Acted s u where
  inbox := h'.inbox.trans h.inbox
  answers := h.answers.trans h'.answers
  past := h.past.trans h'.past
  context := h.context.trans h'.context
  out := h'.out.trans h.out
  connected := h'.connected.trans h.connected

theorem Session.Distinct.mono {s t : Session} (h : t.Distinct) (hp : s.past <+: t.past) : s.Distinct :=
  fun c hc => h c (hp.subset hc)

theorem distinct_change {s t : Session} (h : t.Distinct) (hp : t.past = s.past ++ [s.context]) :
    s.Distinct ∧ s.context.requestIds.Nodup :=
  ⟨h.mono (hp ▸ List.prefix_append _ _), h _ (hp ▸ List.mem_append_right _ (List.mem_singleton.2 rfl))⟩

/-- An answer is about a request that waits for it, and anything else is a request. -/
structure About (s : Session) (pkt : Packet) (kind : Kind) (about : Option ℕ) : Prop where
  asks : kind = .request ↔ pkt.asks = true
  call : about = none → pkt.isRequest = true
  answer : ∀ i, about = some i → kind = .reply ∧ pkt.isRequest = false ∧ i ∉ s.pending ∧
    (∀ j : ℕ, s.answers[j]? ≠ some (some i)) ∧
    ∃ req : Packet, s.inbox[i]? = some req ∧ req.asks = true ∧ dmHop2hopId pkt.bytes = dmHop2hopId req.bytes

theorem dmEnqueue_out (c : Context) (req : Packet) (kind : Kind) (cb granted : Bool) (rnd : UInt32) :
    (dmEnqueue c req kind cb granted rnd).2.out = c.out ∧
      (dmEnqueue c req kind cb granted rnd).2.connected = c.connected := by
  cases dmEnqueue_cases c req kind cb granted rnd with
  | inl h =>
    obtain ⟨_, ids, h⟩ := h
    rw [h]
    exact ⟨rfl, rfl⟩
  | inr h =>
    rw [h.2]
    exact ⟨rfl, rfl⟩

theorem Acted.enqueue {s : Session} (h : Own s) {pkt : Packet} {kind : Kind} {about : Option ℕ}
    (ha : About s pkt kind about) (cb granted : Bool) (rnd : UInt32) :
    Acted s (s.enqueue pkt kind cb granted rnd about) where
  inbox := rfl
  out := (dmEnqueue_out s.context pkt kind cb granted rnd).1
  connected := (dmEnqueue_out s.context pkt kind cb granted rnd).2
  answers := by
    unfold Session.enqueue
    dsimp only
    split
    · exact List.prefix_append _ _
    · exact List.prefix_refl _
  past := List.prefix_append _ _
  context := Continues.enqueue h.tracked.next pkt kind ha.asks.2 cb granted rnd

theorem Answering.enqueue {s : Session} (h : Answering s) {pkt : Packet} {kind : Kind} {about : Option ℕ}
    (ha : About s pkt kind about) (cb granted : Bool) (rnd : UInt32) :
    Answering (s.enqueue pkt kind cb granted rnd about) := by
  unfold Session.enqueue
  cases dmEnqueue_cases s.context pkt kind cb granted rnd with
  | inl hc =>
    obtain ⟨hrc, ids, hc⟩ := hc
    dsimp only
    rw [if_neg hrc, hc]
    exact ⟨h.length, h.answered, h.called, h.once, h.pending, h.nodup⟩
  | inr hc =>
    rw [hc.2]
    dsimp only
    rw [if_pos rfl]
    -- the last of the answers, or one of those before
    have hlast : ∀ {j : ℕ} {y : Option ℕ}, (s.answers ++ [about])[j]? = some y →
        s.answers[j]? = some y ∨ (j = s.answers.length ∧ y = about) := by
      intro j y hj
      rw [List.getElem?_append] at hj
      split at hj
      · exact .inl hj
      · rename_i hle
        have hlt := (List.getElem?_eq_some_iff.1 hj).1
        rw [List.length_singleton] at hlt
        have h0 : j - s.answers.length = 0 := by omega
        rw [h0] at hj
        cases hj
        exact .inr ⟨by omega, rfl⟩
    refine ⟨?_, ?_, ?_, ?_, ?_, h.nodup⟩
    · show (s.answers ++ [about]).length = (s.context.enqueued ++ [_]).length
      rw [List.length_append, List.length_append, h.length]
      rfl
    · intro j i hj
      cases hlast hj with
      | inl hj =>
        obtain ⟨req, ans, hreq, hask, hans, hfl, hid⟩ := h.answered j i hj
        exact ⟨req, ans, hreq, hask, getElem?_longer (List.prefix_append _ _) hans, hfl, hid⟩
      | inr hj =>
        obtain ⟨hkind, hfl, _, _, req, hreq, hask, hid⟩ := ha.answer i hj.2.symm
        refine ⟨req, pkt, hreq, hask, ?_, hfl, hid⟩
        show (s.context.enqueued ++ [s.context.stamp kind rnd pkt])[j]? = some pkt
        rw [hj.1, h.length, List.getElem?_concat_length, Context.stamp, if_pos hkind]
    · intro j ans hj hans
      have hans : (s.context.enqueued ++ [s.context.stamp kind rnd pkt])[j]? = some ans := hans
      cases hlast hj with
      | inl hj =>
        have hlt := (List.getElem?_eq_some_iff.1 hj).1
        rw [List.getElem?_append_left (by rw [← h.length]; exact hlt)] at hans
        exact h.called j ans hj hans
      | inr hj =>
        rw [hj.1, h.length, List.getElem?_concat_length] at hans
        cases hans
        rw [stamp_isRequest]
        exact ha.call hj.2.symm
    · intro j j' i hj hj'
      cases hlast hj with
      | inl hj =>
        cases hlast hj' with
        | inl hj' => exact h.once j j' i hj hj'
        | inr hj' => exact absurd hj ((ha.answer i hj'.2.symm).2.2.2.1 j)
      | inr hj =>
        cases hlast hj' with
        | inl hj' => exact absurd hj' ((ha.answer i hj.2.symm).2.2.2.1 j')
        | inr hj' => exact hj.1.trans hj'.1.symm
    · intro i hi
      obtain ⟨hreq, hno⟩ := h.pending i hi
      refine ⟨hreq, ?_⟩
      intro j hj
      cases hlast hj with
      | inl hj => exact hno j hj
      | inr hj => exact (ha.answer i hj.2.symm).2.2.1 hi

theorem Own.enqueue {s : Session} (h : Own s) {pkt : Packet} {kind : Kind} {about : Option ℕ}
    (ha : About s pkt kind about) (cb granted : Bool) (rnd : UInt32) :
    Own (s.enqueue pkt kind cb granted rnd about) where
  send := (h.send.enqueue pkt kind cb granted rnd h.idle).1
  idle := (h.send.enqueue pkt kind cb granted rnd h.idle).2
  tracked := h.tracked.enqueue pkt kind ha.asks cb granted rnd
  queue := fun hd => (h.queue (distinct_change (s := s) hd rfl).1).enqueue pkt kind cb granted rnd
  answering := h.answering.enqueue ha cb granted rnd

theorem asks_of_request {p : Packet} (h : p.isRequest = true) : p.kind = .request ↔ p.asks = true := by
  rw [Packet.asks, h]
  simp

theorem not_asks {p : Packet} (h : p.isRequest = false) : p.asks = false := by
  rw [Packet.asks, h]
  rfl

theorem act_own {s : Session} (h : Own s) (a : Act) : Own (s.act a) ∧ Acted s (s.act a) := by
  cases a with
  | call req cb granted rnd =>
    have ha : About s req.val req.val.kind none :=
      ⟨asks_of_request req.property, fun _ => req.property, fun i hi => by cases hi⟩
    exact ⟨h.enqueue ha cb granted rnd, Acted.enqueue h ha cb granted rnd⟩
  | answer i body granted =>
    rw [Session.act]
    split
    · exact ⟨h, Acted.refl s⟩
    · rename_i req hreq
      split
      · rename_i hi
        obtain ⟨⟨req', hreq', hask⟩, hno⟩ := h.answering.pending i hi
        rw [hreq] at hreq'
        cases hreq'
        -- the request is taken from those that wait before its answer is enqueued
        have hown : Own { s with pending := s.pending.erase i } := by
          refine ⟨h.send, h.idle, h.tracked, h.queue, ?_⟩
          refine ⟨h.answering.length, h.answering.answered, h.answering.called, h.answering.once, ?_, ?_⟩
          · intro k hk
            exact h.answering.pending k (List.mem_of_mem_erase hk)
          · exact h.answering.nodup.erase i
        have hfl : (body.val.answerTo req).isRequest = false := by
          rw [answerTo_isRequest]
          exact body.property
        have ha : About { s with pending := s.pending.erase i } (body.val.answerTo req) .reply (some i) := by
          refine ⟨?_, ?_, ?_⟩
          · rw [not_asks hfl]
            simp
          · intro hnone
            cases hnone
          · intro k hk
            cases hk
            exact ⟨rfl, hfl, h.answering.nodup.not_mem_erase, hno, req, hreq, hask, answerTo_hopid _ _⟩
        have hext := Acted.enqueue hown ha false granted 0
        exact ⟨hown.enqueue ha false granted 0,
          ⟨hext.inbox, hext.answers, hext.past, hext.context⟩, hext.out, hext.connected⟩
      · exact ⟨h, Acted.refl s⟩

theorem acts_own (acts : List Act) {s : Session} (h : Own s) :
    Own (acts.foldl Session.act s) ∧ Acted s (acts.foldl Session.act s) := by
  induction acts generalizing s with
  | nil => exact ⟨h, Acted.refl s⟩
  | cons a acts ih =>
    obtain ⟨h1, he1⟩ := act_own h a
    obtain ⟨h2, he2⟩ := ih h1
    exact ⟨h2, he1.trans he2⟩

theorem Own.script {s : Session} (h : Own s) (script : List (List Act)) : Own { s with script := script } :=
  ⟨h.send, h.idle, h.tracked, h.queue,
    h.answering.length, h.answering.answered, h.answering.called, h.answering.once, h.answering.pending,
    h.answering.nodup⟩

theorem callback_own {s : Session} (h : Own s) : Own s.callback ∧ Acted s s.callback := by
  obtain ⟨h1, he⟩ := acts_own (s.script.headD []) (h.script s.script.tail)
  exact ⟨h1, ⟨he.inbox, he.answers, he.past, he.context⟩, he.out, he.connected⟩

/-! ## The end that asks -/

/-- What an end with this context and inbox knows of the `answers` of the other one. -/
structure Asking (c : Context) (inbox : List Packet) (answers : List (Option ℕ)) : Prop where
  waits : c.connected = true → ∀ (i : ℕ) (p : Packet), c.enqueued[i]? = some p → p.asks = true →
    (∃ r ∈ c.head, r.ref = i ∧ r.kind = .request) ∨ ∃ j < inbox.length, answers[j]? = some (some i)
  gone : ∀ j < inbox.length, ∀ i : ℕ, answers[j]? = some (some i) → i < c.next ∧ ∀ r ∈ c.head, r.ref ≠ i
  calls : ∀ ref pkt, (ref, .answerReady pkt) ∈ c.calls → ∃ j : ℕ, answers[j]? = some (some ref) ∧ inbox[j]? = some pkt

theorem asking_start (ids : HopIds) : Asking (Context.start ids) [] [] where
  waits := fun _ i p hp => by cases hp
  gone := fun j hj => absurd hj (Nat.not_lt_zero j)
  calls := fun _ _ h => absurd h List.not_mem_nil

/-- More is asked, written, or given up. -/
theorem Asking.continues {c t : Context} {inbox : List Packet} {answers : List (Option ℕ)}
    (h : Asking c inbox answers) (hc : Continues c t) : Asking t inbox answers where
  waits := fun ht i p hp ha => by
    by_cases hlt : i < c.enqueued.length
    · obtain ⟨x, hx⟩ : ∃ x, c.enqueued[i]? = some x := ⟨_, List.getElem?_eq_getElem hlt⟩
      have he := getElem?_longer hc.sent hx
      rw [hp] at he
      cases he
      cases h.waits (hc.open' ht) i p hx ha with
      | inl hr =>
        obtain ⟨r, hr, hri, hrk⟩ := hr
        obtain ⟨q, hq, hqr, hqk⟩ := hc.kept ht r hr hrk
        exact .inl ⟨q, hq, hqr.trans hri, hqk⟩
      | inr hj => exact .inr hj
    · exact .inl (hc.added ht i p hp (not_lt.1 hlt) ha)
  gone := fun j hj i hji => by
    obtain ⟨hlt, hno⟩ := h.gone j hj i hji
    refine ⟨lt_of_lt_of_le hlt hc.next, ?_⟩
    intro q hq
    cases hc.old q hq with
    | inl hr =>
      obtain ⟨r, hr, hrq⟩ := hr
      rw [← hrq]
      exact hno r hr
    | inr hle => omega
  calls := fun ref pkt hca => h.calls ref pkt (hc.calls ref pkt hca)

/-- The other end gives more answers. -/
theorem Asking.extend {c : Context} {inbox : List Packet} {answers answers' : List (Option ℕ)}
    (h : Asking c inbox answers) (hp : answers <+: answers') (hl : inbox.length ≤ answers.length) :
    Asking c inbox answers' := by
  have hback : ∀ j < inbox.length, ∀ y, answers'[j]? = some y → answers[j]? = some y := by
    intro j hj y hy
    obtain ⟨m, rfl⟩ := hp
    rw [List.getElem?_append_left (lt_of_lt_of_le hj hl)] at hy
    exact hy
  refine ⟨?_, fun j hj i hji => h.gone j hj i (hback j hj _ hji), ?_⟩
  · intro hcon i p hi ha
    cases h.waits hcon i p hi ha with
    | inl hr => exact .inl hr
    | inr hj =>
      obtain ⟨j, hj, hji⟩ := hj
      exact .inr ⟨j, hj, getElem?_longer hp hji⟩
  · intro ref pkt hca
    obtain ⟨j, hj, hpkt⟩ := h.calls ref pkt hca
    exact ⟨j, getElem?_longer hp hj, hpkt⟩

/-- A packet that answers nothing comes in. -/
theorem Asking.skip {c : Context} {inbox : List Packet} {answers : List (Option ℕ)}
    (h : Asking c inbox answers) (p : Packet) (hno : ∀ i : ℕ, answers[inbox.length]? ≠ some (some i)) :
    Asking c (inbox ++ [p]) answers := by
  have hlt : ∀ j < (inbox ++ [p]).length, ∀ i : ℕ, answers[j]? = some (some i) → j < inbox.length := by
    intro j hj i hji
    rw [List.length_append, List.length_singleton] at hj
    by_contra hle
    have hj : j = inbox.length := by omega
    rw [hj] at hji
    exact hno i hji
  refine ⟨?_, fun j hj i hji => h.gone j (hlt j hj i hji) i hji, ?_⟩
  · intro hcon i q hi ha
    cases h.waits hcon i q hi ha with
    | inl hr => exact .inl hr
    | inr hj =>
      obtain ⟨j, hj, hji⟩ := hj
      refine .inr ⟨j, ?_, hji⟩
      rw [List.length_append]
      omega
  · intro ref pkt hca
    obtain ⟨j, hj, hpkt⟩ := h.calls ref pkt hca
    exact ⟨j, hj, getElem?_longer (List.prefix_append _ _) hpkt⟩

/-- The answer to the request `i` comes in. Its entry is the first one with the id. -/
theorem Asking.reply {c : Context} {inbox : List Packet} {answers : List (Option ℕ)} (h : Asking c inbox answers)
    (hq : QueueInv c) (hd : c.requestIds.Nodup) (ht : Tracked c) (hcon : c.connected = true) {p req : Packet} {i : ℕ}
    (hans : answers[inbox.length]? = some (some i))
    (honce : ∀ j j' i : ℕ, answers[j]? = some (some i) → answers[j']? = some (some i) → j = j')
    (hreq : c.enqueued[i]? = some req) (hask : req.asks = true)
    (hid : dmHop2hopId p.bytes = dmHop2hopId req.bytes)
    (hread : ∀ r ∈ c.head, r.ref = i → r.status = .shallRead) :
    Asking (processReply c p) (inbox ++ [p]) answers := by
  obtain ⟨r, hr, hri, hrk⟩ : ∃ r ∈ c.head, r.ref = i ∧ r.kind = .request := by
    cases h.waits hcon i req hreq hask with
    | inl hr => exact hr
    | inr hj =>
      obtain ⟨j, hj, hji⟩ := hj
      have := honce _ _ _ hji hans
      omega
  have hfiled := ht.entry r hr
  have hpkt : r.packet = req := by
    have := hfiled.packet
    rw [hri, hreq] at this
    exact (Option.some.inj this).symm
  have hrid : r.hopid = dmHop2hopId p.bytes := by rw [hfiled.hopid, hpkt, hid]
  have hfind := hq.find hd hr (hread r hr hri)
  rw [hrid] at hfind
  have hother : ∀ q ∈ c.head, q.ref ≠ i → q ∈ c.head.eraseP fun r => r.hopid = dmHop2hopId p.bytes := by
    intro q hqm hqi
    obtain ⟨hpr, as, bs, hsplit, has⟩ := List.find?_eq_some_iff_append.1 hfind
    have hno : ∀ b ∈ as, ¬decide (b.hopid = dmHop2hopId p.bytes) = true := fun b hb => by simpa using has b hb
    rw [hsplit] at hqm ⊢
    rw [List.eraseP_append_right _ hno,
      List.eraseP_cons_of_pos (p := fun r : RequestInfo => r.hopid = dmHop2hopId p.bytes) hpr]
    have hne : q ≠ r := fun he => hqi (he ▸ hri)
    simp only [List.mem_append, List.mem_cons, hne, false_or] at hqm ⊢
    exact hqm
  have hself : ∀ q ∈ c.head.eraseP (fun r => r.hopid = dmHop2hopId p.bytes), q.ref ≠ i := by
    intro q hqm hqi
    obtain ⟨hpr, as, bs, hsplit, has⟩ := List.find?_eq_some_iff_append.1 hfind
    have hno : ∀ b ∈ as, ¬decide (b.hopid = dmHop2hopId p.bytes) = true := fun b hb => by simpa using has b hb
    have hn := hq.nodup
    rw [hsplit, List.map_append, List.map_cons] at hn
    have hnot := (List.nodup_middle.1 hn).notMem
    rw [hsplit, List.eraseP_append_right _ hno,
      List.eraseP_cons_of_pos (p := fun r : RequestInfo => r.hopid = dmHop2hopId p.bytes) hpr] at hqm
    apply hnot
    rw [← List.map_append, hri, ← hqi]
    exact List.mem_map_of_mem hqm
  obtain ⟨hc, _, _, _, he⟩ := processReply_frame c p
  have hn := processReply_next c p
  obtain ⟨hhead, hcalls⟩ : (processReply c p).head = c.head.eraseP (fun r => r.hopid = dmHop2hopId p.bytes) ∧
      (processReply c p).calls = if r.cb = true then c.calls ++ [(r.ref, .answerReady p)] else c.calls := by
    unfold Net.processReply
    dsimp only
    rw [hfind]
    dsimp only
    rw [if_neg (not_not.2 (hread r hr hri))]
    exact ⟨rfl, rfl⟩
  have hlast : (inbox ++ [p])[inbox.length]? = some p := List.getElem?_concat_length
  refine ⟨?_, ?_, ?_⟩
  · intro _ k q hk ha
    rw [he] at hk
    by_cases hki : k = i
    · refine .inr ⟨inbox.length, ?_, hki ▸ hans⟩
      rw [List.length_append]
      exact Nat.lt_succ_self _
    · cases h.waits hcon k q hk ha with
      | inl hx =>
        obtain ⟨x, hx, hxk, hxr⟩ := hx
        rw [hhead]
        exact .inl ⟨x, hother x hx (by rw [hxk]; exact hki), hxk, hxr⟩
      | inr hj =>
        obtain ⟨j, hj, hjk⟩ := hj
        refine .inr ⟨j, ?_, hjk⟩
        rw [List.length_append]
        omega
  · intro j hj k hjk
    rw [hn, hhead]
    by_cases hlt : j < inbox.length
    · obtain ⟨hkn, hno⟩ := h.gone j hlt k hjk
      exact ⟨hkn, fun q hqm => hno q (List.mem_of_mem_eraseP hqm)⟩
    · rw [List.length_append, List.length_singleton] at hj
      have hji : j = inbox.length := by omega
      rw [hji, hans] at hjk
      cases hjk
      refine ⟨?_, hself⟩
      rw [ht.next]
      exact (List.getElem?_eq_some_iff.1 hreq).1
  · intro ref pkt hca
    rw [hcalls] at hca
    have hold : (ref, .answerReady pkt) ∈ c.calls →
        ∃ j : ℕ, answers[j]? = some (some ref) ∧ (inbox ++ [p])[j]? = some pkt := by
      intro hca
      obtain ⟨j, hj, hpkt⟩ := h.calls ref pkt hca
      exact ⟨j, hj, getElem?_longer (List.prefix_append _ _) hpkt⟩
    split at hca
    · cases List.mem_append.1 hca with
      | inl hca => exact hold hca
      | inr hca =>
        cases List.mem_singleton.1 hca
        exact ⟨inbox.length, hri.symm ▸ hans, hlast⟩
    · exact hold hca

/-! ## What has arrived was written -/

theorem packets_of_refs {sent : List Packet} {l : List RequestInfo} {k n : ℕ}
    (hl : l.map RequestInfo.ref = List.range' k n) (hf : ∀ r ∈ l, sent[r.ref]? = some r.packet)
    (hn : k + n = sent.length) : l.map RequestInfo.packet = sent.drop k := by
  induction l generalizing k n with
  | nil =>
    have h0 : n = 0 := by
      have := congrArg List.length hl
      rw [List.length_range'] at this
      exact this.symm
    rw [List.drop_eq_nil_of_le (by omega)]
    rfl
  | cons r l ih =>
    cases n with
    | zero => cases hl
    | succ n =>
      rw [List.map_cons, List.range'_succ] at hl
      obtain ⟨hr, hl⟩ := List.cons.inj hl
      have hget := hf r List.mem_cons_self
      rw [hr] at hget
      obtain ⟨hk, hget⟩ := List.getElem?_eq_some_iff.1 hget
      rw [List.map_cons, ih hl (fun q hq => hf q (List.mem_cons_of_mem r hq)) (by omega),
        List.drop_eq_getElem_cons hk, hget]

theorem flatten_length_lt (ps : List Packet) {k m : ℕ} (hkm : k < m) (hm : m ≤ ps.length) :
    (flatten (ps.take k)).length < (flatten (ps.take m)).length := by
  have hsplit : ps.take m = ps.take k ++ (ps.take m).drop k := by
    rw [← List.take_append_drop k (ps.take m), List.take_take, min_eq_left (le_of_lt hkm), List.drop_append_of_le_length,
      List.drop_take]
    · simp
    · rw [List.length_take]
      omega
  have hne : (ps.take m).drop k ≠ [] := by
    intro h
    have := congrArg List.length h
    rw [List.length_drop, List.length_take, List.length_nil] at this
    omega
  rw [hsplit, flatten_append, List.length_append]
  have hpos := List.length_pos_of_ne_nil fun h => hne (flatten_eq_nil.1 h)
  omega

/-- The entry of a packet that has arrived is not one to write. -/
theorem Tracked.received {c : Context} (ht : Tracked c) (hs : SendInv c) (hcon : c.connected = true)
    {inbox : List Packet} (hin : inbox <+: c.enqueued) (hout : flatten inbox <+: c.out) {r : RequestInfo}
    (hr : r ∈ c.head) (hlt : r.ref < inbox.length) : r.status = .shallRead := by
  apply status_read
  intro hst
  obtain ⟨k, hkn, hw⟩ := ht.waiting
  have hmem : r ∈ unsent c.head := List.mem_filter.2 ⟨hr, by simp [hst]⟩
  have hk : k ≤ r.ref := by
    have := List.mem_map_of_mem (f := RequestInfo.ref) hmem
    rw [hw, List.mem_range'_1] at this
    exact this.1
  have hdrop : toWrite c.head = c.enqueued.drop k := by
    rw [toWrite_eq]
    apply packets_of_refs hw
    · intro q hq
      exact (ht.entry q (List.mem_of_mem_filter hq)).packet
    · rw [← ht.next]
      omega
  have hall := hs.all hcon
  have hcut : flatten c.enqueued = flatten (c.enqueued.take k) ++ flatten (c.enqueued.drop k) := by
    rw [← flatten_append, List.take_append_drop]
  rw [hdrop, hcut] at hall
  have htaken : c.out ++ c.rest = flatten (c.enqueued.take k) := List.append_cancel_right hall
  have hle : (flatten inbox).length ≤ (flatten (c.enqueued.take k)).length := by
    rw [← htaken, List.length_append]
    exact le_trans hout.length_le (Nat.le_add_right _ _)
  have hbelow := flatten_length_lt c.enqueued (lt_of_le_of_lt hk hlt) hin.length_le
  rw [← List.prefix_iff_eq_take.1 hin] at hbelow
  omega

/-! ## Both ends -/

/-- What holds of an end `s` and the other end `o`. -/
structure Joint (s o : Session) : Prop where
  inbox : o.inbox <+: s.context.enqueued
  arrived : flatten o.inbox <+: s.context.out
  asking : s.Distinct → Asking s.context s.inbox o.answers

theorem Joint.left {s o t : Session} (h : Joint s o) (he : Extends s t) : Joint t o where
  inbox := h.inbox.trans he.context.sent
  arrived := h.arrived.trans he.context.out
  asking := fun hd => by
    rw [he.inbox]
    exact (h.asking (hd.mono he.past)).continues he.context

theorem Joint.right {s o t : Session} (h : Joint o s) (hs : Own s) (hj : Joint s o) (he : Extends s t) : Joint o t where
  inbox := by rw [he.inbox]; exact h.inbox
  arrived := by rw [he.inbox]; exact h.arrived
  asking := fun hd => by
    apply (h.asking hd).extend he.answers
    rw [hs.answering.length]
    exact hj.inbox.length_le

theorem append_next {α : Type} {l l' : List α} {x : α} (h : l <+: l') (hx : l'[l.length]? = some x) :
    l ++ [x] <+: l' := by
  obtain ⟨m, rfl⟩ := h
  rw [List.getElem?_append_right (le_refl _), Nat.sub_self] at hx
  cases m with
  | nil => cases hx
  | cons y m =>
    cases hx
    exact ⟨m, by rw [List.append_assoc]; rfl⟩

/-- More comes into the inbox, and the context goes on without enqueuing. -/
theorem Answering.receive {s : Session} (h : Answering s) {c : Context} (he : c.enqueued = s.context.enqueued)
    (past : List Context) (p : Packet) (script : List (List Act)) :
    Answering ⟨c, past, s.inbox ++ [p],
      if p.asks = true then s.pending ++ [s.inbox.length] else s.pending, s.answers, script⟩ := by
  have hmore : ∀ {i : ℕ} {x : Packet}, s.inbox[i]? = some x → (s.inbox ++ [p])[i]? = some x :=
    fun hx => getElem?_longer (List.prefix_append _ _) hx
  refine ⟨by rw [he]; exact h.length, ?_, ?_, h.once, ?_, ?_⟩
  · intro j i hj
    obtain ⟨req, ans, hreq, hask, hans, hrest⟩ := h.answered j i hj
    exact ⟨req, ans, hmore hreq, hask, by rw [he]; exact hans, hrest⟩
  · intro j ans hj hans
    dsimp only at hans
    rw [he] at hans
    exact h.called j ans hj hans
  · intro i hi
    have hold : i ∈ s.pending → (∃ req : Packet, (s.inbox ++ [p])[i]? = some req ∧ req.asks = true) ∧
        ∀ j : ℕ, s.answers[j]? ≠ some (some i) := by
      intro hi
      obtain ⟨⟨req, hreq, hask⟩, hno⟩ := h.pending i hi
      exact ⟨⟨req, hmore hreq, hask⟩, hno⟩
    dsimp only at hi
    split at hi
    · rename_i hask
      cases List.mem_append.1 hi with
      | inl hi => exact hold hi
      | inr hi =>
        rw [List.mem_singleton.1 hi]
        refine ⟨⟨p, List.getElem?_concat_length, hask⟩, ?_⟩
        intro j hj
        obtain ⟨req, _, hreq, _⟩ := h.answered j _ hj
        exact absurd (List.getElem?_eq_some_iff.1 hreq).1 (lt_irrefl _)
    · exact hold hi
  · dsimp only
    split
    · refine List.nodup_append.2 ⟨h.nodup, List.nodup_singleton _, ?_⟩
      intro a ha b hb hab
      rw [List.mem_singleton.1 hb] at hab
      obtain ⟨⟨req, hreq, _⟩, _⟩ := h.pending a ha
      have := (List.getElem?_eq_some_iff.1 hreq).1
      omega
    · exact h.nodup

/-- A packet of the other end is handed on. -/
structure HandsOn (o s t : Session) (p : Packet) : Prop where
  own : Own t
  asks : Joint t o
  gives : Joint o t
  inbox : t.inbox = s.inbox ++ [p]
  out : t.context.out = s.context.out
  sent : s.context.enqueued <+: t.context.enqueued
  connected : t.context.connected = s.context.connected

theorem HandsOn.callback {o s t : Session} {p : Packet} (h : HandsOn o s t p) : HandsOn o s t.callback p := by
  obtain ⟨hown, he⟩ := callback_own h.own
  exact ⟨hown, h.asks.left he.toExtends, h.gives.right h.own h.asks he.toExtends, he.inbox.trans h.inbox, he.out.trans h.out,
    h.sent.trans he.context.sent, he.connected.trans h.connected⟩

section
variable {o s : Session} (hs : Own s) (ho : Own o) (hso : Joint s o) (hos : Joint o s) {p : Packet}
  (hp : o.context.enqueued[s.inbox.length]? = some p) (harr : flatten (s.inbox ++ [p]) <+: o.context.out)
include hs ho hso hos hp harr

theorem takeRequest_handsOn (hfl : p.isRequest = true) : HandsOn o s (s.takeRequest p) p := by
  apply HandsOn.callback
  refine ⟨⟨hs.send, hs.idle, hs.tracked, hs.queue, hs.answering.receive rfl _ p _⟩, ?_, ?_, rfl, rfl,
    List.prefix_refl _, rfl⟩
  · refine ⟨hso.inbox, hso.arrived, ?_⟩
    intro hd
    apply (hso.asking hd).skip
    intro i hi
    obtain ⟨_, ans, _, _, hans, hno, _⟩ := ho.answering.answered _ _ hi
    rw [hp] at hans
    cases hans
    rw [hfl] at hno
    cases hno
  · exact ⟨append_next hos.inbox hp, harr, hos.asking⟩

theorem takeReply_handsOn (hfl : p.isRequest = false) (hcon : s.context.connected = true) :
    HandsOn o s (s.takeReply p) p := by
  apply HandsOn.callback
  obtain ⟨hc, _, _, hout, he⟩ := processReply_frame s.context p
  obtain ⟨hsend, hidle⟩ := hs.send.reply p hs.idle
  have hans := hs.answering.receive he (s.past ++ [s.context]) p s.script
  rw [not_asks hfl, if_neg (by decide)] at hans
  refine ⟨⟨hsend, hidle, hs.tracked.reply p, ?_, hans⟩, ?_, ?_, rfl, hout,
    by show _ <+: (processReply s.context p).enqueued; rw [he], hc⟩
  · intro hd
    obtain ⟨hd, hn⟩ := distinct_change (s := s) hd rfl
    exact (hs.queue hd).reply hn p
  · refine ⟨by show o.inbox <+: (processReply s.context p).enqueued; rw [he]; exact hso.inbox,
      by show flatten o.inbox <+: (processReply s.context p).out; rw [hout]; exact hso.arrived, ?_⟩
    intro hd
    obtain ⟨hd, hn⟩ := distinct_change (s := s) hd rfl
    -- a packet without the flag is an answer
    have hlt : s.inbox.length < o.answers.length := by
      rw [ho.answering.length]
      exact (List.getElem?_eq_some_iff.1 hp).1
    obtain ⟨y, hy⟩ : ∃ y, o.answers[s.inbox.length]? = some y := ⟨_, List.getElem?_eq_getElem hlt⟩
    cases y with
    | none =>
      have := ho.answering.called _ p hy hp
      rw [hfl] at this
      cases this
    | some i =>
      obtain ⟨req, ans, hreq, hask, hans', _, hid⟩ := ho.answering.answered _ i hy
      rw [hp] at hans'
      cases hans'
      have hi := (List.getElem?_eq_some_iff.1 hreq).1
      apply (hso.asking hd).reply (hs.queue hd) hn hs.tracked hcon hy ho.answering.once
        (getElem?_longer hso.inbox hreq) hask hid
      intro r hr hri
      exact hs.tracked.received hs.send hcon hso.inbox hso.arrived hr (hri ▸ hi)
  · exact ⟨append_next hos.inbox hp, harr, hos.asking⟩

theorem process_handsOn (hcon : s.context.connected = true) :
    HandsOn o s (process Session.processRequest Session.processReply s p) p := by
  rw [process, Session.processRequest, Session.processReply, asPacket_bytes]
  show HandsOn o s (if p.isRequest = true then s.takeRequest p else s.takeReply p) p
  split
  · rename_i hfl
    exact takeRequest_handsOn hs ho hso hos hp harr hfl
  · rename_i hfl
    exact takeReply_handsOn hs ho hso hos hp harr (by simpa using hfl) hcon

end

/-! ## Reading -/

/-- What was handed on, what is read of the next packet, and what is not read are the bytes that the other
socket has taken. -/
structure Carried (out : List UInt8) (sent : List Packet) (r : Peer) : Prop where
  bytes : flatten r.state.inbox ++ (r.packet ++ r.stream.all) = out
  boundary : r.left = 0 → r.packet = []
  inside : r.left ≠ 0 → ∃ p, sent[r.state.inbox.length]? = some p ∧ r.packet.length + r.left = p.bytes.length

/-- An end that reads, with the other one `o`. -/
structure Reading (o : Session) (c : Context) (r : Peer) : Prop where
  own : Own r.state
  asks : Joint r.state o
  gives : Joint o r.state
  carried : Carried o.context.out o.context.enqueued r
  connected : r.state.context.connected = true
  out : r.state.context.out = c.out
  sent : c.enqueued <+: r.state.context.enqueued

theorem flatten_one (p : Packet) : flatten [p] = p.bytes := List.append_nil _

theorem flatten_take_succ {ps : List Packet} {k : ℕ} {p : Packet} (h : ps[k]? = some p) :
    flatten ps = flatten (ps.take k) ++ (p.bytes ++ flatten (ps.drop (k + 1))) := by
  obtain ⟨hk, hget⟩ := List.getElem?_eq_some_iff.1 h
  rw [← flatten_cons, ← flatten_append, ← hget, ← List.drop_eq_getElem_cons hk, List.take_append_drop]

/-- The bytes behind the inbox are the packets that come next. -/
theorem Reading.ahead {o : Session} {c : Context} {r : Peer} (h : Reading o c r) (hso : SendInv o.context) :
    r.packet ++ r.stream.all <+: flatten (o.context.enqueued.drop r.state.inbox.length) := by
  have hpre := hso.out_isPart
  obtain ⟨m, hm⟩ := h.gives.inbox
  rw [← h.carried.bytes, ← hm, flatten_append] at hpre
  rw [← hm, List.drop_left]
  exact (List.prefix_append_right_inj _).1 hpre

/-- With a header to look at there is a packet to come, whose length is found. -/
theorem header_ahead {s : Stream} {ps : List Packet} (h : s.all <+: flatten ps) (hl : sizeofDmPacket ≤ s.ready.length) :
    ∃ p qs, ps = p :: qs ∧ dmPacketLength s.ready = p.bytes.length := by
  obtain ⟨m, hm⟩ := h
  cases ps with
  | nil =>
    have := congrArg List.length hm
    rw [Stream.all, List.length_append, List.length_append] at this
    have h20 : sizeofDmPacket = 20 := rfl
    have hz : (flatten []).length = 0 := rfl
    omega
  | cons p qs =>
    refine ⟨p, qs, rfl, @length_of_ready ⟨s.ready, s.later ++ [m]⟩ p qs ?_ hl⟩
    rw [← hm, Stream.all, Stream.all, List.flatten_append, List.flatten_singleton, List.append_assoc]

theorem handOn_whole {σ : Type} (f g : σ → List UInt8 → σ) {r : Reader σ} {p : Packet} (h : r.packet = p.bytes) :
    handOn f g r = some { r with packet := [], left := 0, state := process f g r.state p } := by
  have h4 : 4 < p.bytes.length := lt_of_lt_of_le (by decide) p.header
  rw [handOn, h, List.getElem?_eq_getElem h4, process, List.getD_eq_getElem?_getD, List.getElem?_eq_getElem h4]
  rfl

theorem head_drop {ps qs : List Packet} {p : Packet} {k : ℕ} (h : ps.drop k = p :: qs) : ps[k]? = some p := by
  rw [← List.head?_drop, h]
  rfl

/-- A `readEvent` returns, and keeps what holds of the end. -/
theorem readEvent_reading {o : Session} (ho : Own o) {c : Context} {r : Peer} (h : Reading o c r)
    (rs : List Recv) : ∃ r', readEvent Session.processRequest Session.processReply rs r = some r' ∧ Reading o c r' := by
  apply readLoop_rule Session.processRequest Session.processReply (P := Reading o c) (Q := Reading o c) ?_ ?_ ?_ ?_ ?_ h
  · split <;> omega
  · intro _ r hr
    exact ⟨hr.own, hr.asks, hr.gives, ⟨hr.carried.bytes, hr.carried.boundary, hr.carried.inside⟩, hr.connected, hr.out, hr.sent⟩
  · intro r k hr _ _
    refine ⟨hr.own, hr.asks, hr.gives, ⟨?_, hr.carried.boundary, hr.carried.inside⟩, hr.connected, hr.out, hr.sent⟩
    show flatten r.state.inbox ++ (r.packet ++ (r.stream.arrive k).all) = _
    rw [Stream.arrive_all]
    exact hr.carried.bytes
  · intro r k hr _ _
    refine ⟨hr.own, hr.asks, hr.gives, ⟨?_, hr.carried.boundary, hr.carried.inside⟩, hr.connected, hr.out, hr.sent⟩
    show flatten r.state.inbox ++ (r.packet ++ (r.stream.arrive k).all) = _
    rw [Stream.arrive_all]
    exact hr.carried.bytes
  · intro r k hr h0 hle
    have hahead := hr.ahead ho.send
    rw [hr.carried.boundary h0, List.nil_append, ← Stream.arrive_all r.stream k] at hahead
    obtain ⟨p, qs, hps, hlen⟩ := header_ahead hahead hle
    have hpos := p.length_pos
    refine ⟨by omega, hr.own, hr.asks, hr.gives, ⟨?_, fun _ => rfl, fun _ => ⟨p, head_drop hps, ?_⟩⟩, hr.connected, hr.out, hr.sent⟩
    · show flatten r.state.inbox ++ ([] ++ (r.stream.arrive k).all) = _
      rw [Stream.arrive_all, ← hr.carried.bytes, hr.carried.boundary h0]
    · show 0 + dmPacketLength (r.stream.arrive k).ready = _
      rw [Nat.zero_add, hlen]
  · intro r k len hr hle hle' h0
    obtain ⟨p, hp, hlen⟩ := hr.carried.inside h0
    have hbytes : flatten r.state.inbox ++ ((r.packet ++ (r.stream.arrive k).ready.take len) ++
        ((r.stream.arrive k).consume len).all) = o.context.out := by
      rw [List.append_assoc r.packet, ← Stream.take_all hle', Stream.arrive_all]
      exact hr.carried.bytes
    have htake : (r.packet ++ (r.stream.arrive k).ready.take len).length = r.packet.length + len := by
      rw [List.length_append, List.length_take]
      omega
    split
    · rename_i hdone
      -- the packet is the next one
      have hwhole : r.packet ++ (r.stream.arrive k).ready.take len = p.bytes := by
        have hpre := ho.send.out_isPart
        have hin := List.prefix_iff_eq_take.1 hr.gives.inbox
        rw [← hbytes, flatten_take_succ hp, ← hin] at hpre
        obtain ⟨m, hm⟩ := (List.prefix_append_right_inj _).1 hpre
        rw [List.append_assoc] at hm
        exact (List.append_inj hm (by omega)).1
      have harr : flatten (r.state.inbox ++ [p]) <+: o.context.out := by
        rw [← hbytes, hwhole, flatten_append, flatten_one]
        exact (List.prefix_append_right_inj _).2 (List.prefix_append _ _)
      have hon := process_handsOn hr.own ho hr.asks hr.gives hp harr hr.connected
      refine ⟨_, handOn_whole Session.processRequest Session.processReply hwhole, hon.own, hon.asks, hon.gives,
        ⟨?_, fun _ => rfl, fun hne => absurd rfl hne⟩, hon.connected.trans hr.connected, hon.out.trans hr.out,
        hr.sent.trans hon.sent⟩
      show flatten (process Session.processRequest Session.processReply r.state p).inbox ++
        ([] ++ ((r.stream.arrive k).consume len).all) = _
      rw [hon.inbox, flatten_append, flatten_one, ← hbytes, hwhole, List.nil_append, List.append_assoc]
    · rename_i hmore
      refine ⟨hr.own, hr.asks, hr.gives, ⟨hbytes, fun hz => absurd hz hmore, fun _ => ⟨p, hp, ?_⟩⟩, hr.connected, hr.out, hr.sent⟩
      show (r.packet ++ _).length + (r.left - len) = _
      omega

/-! ## Runs of both ends -/

/-- One end after an event, with the other one `o`. -/
structure Moved (o : Session) (p q : Peer) : Prop where
  own : Own q.state
  asks : Joint q.state o
  gives : Joint o q.state
  carried : Carried o.context.out o.context.enqueued q
  out : p.state.context.out <+: q.state.context.out
  sent : p.state.context.enqueued <+: q.state.context.enqueued

theorem Carried.congr {out : List UInt8} {sent : List Packet} {p : Peer} {t : Session} (h : Carried out sent p)
    (ht : t.inbox = p.state.inbox) : Carried out sent { p with state := t } where
  bytes := by rw [ht]; exact h.bytes
  boundary := h.boundary
  inside := by rw [ht]; exact h.inside

theorem Moved.of_extends {o : Session} {p : Peer} {t : Session} (hs : Own p.state) (hso : Joint p.state o)
    (hos : Joint o p.state) (hc : Carried o.context.out o.context.enqueued p) (ht : Own t) (he : Extends p.state t) :
    Moved o p { p with state := t } :=
  ⟨ht, hso.left he, hos.right hs hso he, hc.congr he.inbox, he.context.out, he.context.sent⟩

/-- The context changes, and nothing is enqueued. -/
theorem Own.change {s : Session} (h : Own s) {ev : Event} {c : Context} (hstep : step s.context ev = some c)
    (ht : Tracked c) (he : c.enqueued = s.context.enqueued) : Own (s.change c) := by
  obtain ⟨hsend, hidle⟩ := h.send.step h.idle hstep
  refine ⟨hsend, hidle, ht, ?_, ?_⟩
  · intro hd
    obtain ⟨hd, hn⟩ := distinct_change (s := s) hd rfl
    exact (h.queue hd).step hn hstep
  · refine ⟨?_, ?_, ?_, h.answering.once, h.answering.pending, h.answering.nodup⟩
    · show s.answers.length = c.enqueued.length
      rw [he]
      exact h.answering.length
    · show ∀ j i : ℕ, _ → ∃ req ans : Packet, _ ∧ _ ∧ c.enqueued[j]? = some ans ∧ _
      rw [he]
      exact h.answering.answered
    · show ∀ (j : ℕ) (ans : Packet), _ → c.enqueued[j]? = some ans → _
      rw [he]
      exact h.answering.called

theorem extends_change {s : Session} {c : Context} (h : Continues s.context c) : Extends s (s.change c) :=
  ⟨rfl, List.prefix_refl _, List.prefix_append _ _, h⟩

theorem writeEvent_enqueued {rs : List WriteResult} {s t : Context} {full : Bool}
    (h : writeEvent rs s = some (full, t)) : t.enqueued = s.enqueued := by
  unfold writeEvent at h
  split at h
  · cases h
    rfl
  · apply writeLoop_keeps (P := fun t => t.enqueued = s.enqueued) ?_ ?_ ?_ ?_ rfl h
    · intro u w v hu hw
      unfold nextPacket at hw
      split at hw
      · cases hw
        exact hu
      · split at hw
        · cases hw
        · cases hw
          exact hu
    · exact fun u w n hu => hu
    · exact fun u hu => hu
    · exact fun u hu => hu

theorem shutdown_own {s : Session} (h : Own s) (event : DmconfigEvent) :
    Own (s.change (dmContextShutdown s.context event)) :=
  have hstep : Net.step s.context (.shutdown event) = some (dmContextShutdown s.context event) := rfl
  h.change hstep (h.tracked.shutdown event) rfl

theorem Peer.step_moved {o : Session} {p q : Peer} {ev : PeerEvent} (ho : Own o) (hs : Own p.state)
    (hso : Joint p.state o) (hos : Joint o p.state) (hc : Carried o.context.out o.context.enqueued p)
    (h : p.step ev = some q) : Moved o p q := by
  have hmoved := fun (t : Session) => Moved.of_extends (t := t) hs hso hos hc
  cases ev with
  | act a =>
    cases h
    obtain ⟨hown, he⟩ := act_own hs a
    exact hmoved _ hown he.toExtends
  | others ids =>
    cases h
    have hcont : Continues p.state.context { p.state.context with ids := ids } :=
      Continues.of_head (List.prefix_refl _) rfl rfl rfl rfl (fun r hr hk => ⟨r, hr, rfl, hk⟩) fun q hq => ⟨q, hq, rfl⟩
    have hstep : Net.step p.state.context (.others ids) = some { p.state.context with ids := ids } := rfl
    exact hmoved _ (hs.change hstep (hs.tracked.congr rfl rfl rfl rfl rfl) rfl) (extends_change hcont)
  | write rs =>
    rw [Peer.step, Option.bind_eq_bind, Option.bind_eq_some_iff] at h
    obtain ⟨⟨full, c⟩, hw, h⟩ := h
    cases h
    have hstep : Net.step p.state.context (.write rs) = some c := by
      rw [Net.step, hw]
      rfl
    exact hmoved _ (hs.change hstep (hs.tracked.write hw) (writeEvent_enqueued hw)) (extends_change (Continues.write hw))
  | shutdown event =>
    cases h
    exact hmoved _ (shutdown_own hs event) (extends_change (Continues.shutdown _ event))
  | read rs script =>
    rw [Peer.step] at h
    split at h
    · cases h
      exact ⟨hs, hso, hos, hc, List.prefix_refl _, List.prefix_refl _⟩
    · rename_i hcon
      rw [Option.bind_eq_bind, Option.bind_eq_some_iff] at h
      obtain ⟨r, hr, h⟩ := h
      have hstart : Reading o p.state.context { p with state := { p.state with script := script } } :=
        ⟨hs.script script, ⟨hso.inbox, hso.arrived, hso.asking⟩, ⟨hos.inbox, hos.arrived, hos.asking⟩,
          hc.congr rfl, by simpa using hcon, rfl,
          List.prefix_refl _⟩
      obtain ⟨r', hr', hread⟩ := readEvent_reading ho hstart rs
      rw [hr] at hr'
      cases hr'
      split at h
      · cases h
        have hm := Moved.of_extends hread.own hread.asks hread.gives hread.carried
          (shutdown_own hread.own .errorReading) (extends_change (Continues.shutdown _ _))
        exact ⟨hm.own, hm.asks, hm.gives, hm.carried, hread.out ▸ hm.out, hread.sent.trans hm.sent⟩
      · cases h
        exact ⟨hread.own, hread.asks, hread.gives, hread.carried, by rw [hread.out], hread.sent⟩

end Mand.Net
