import Mathlib.Data.List.Infix
import Mathlib.Data.List.Nodup
import Mathlib.Tactic.Tauto
import Mand.Net.Context

/-! # One callback per request

What has happened to a request says which call its callback is due; the callbacks that were called are
those. Entries that wait for a reply stand before those that are still to be written, so the first entry
with the id of a reply is the request it belongs to. -/
namespace Mand.Net
open Mand.Msg Mand.Bytes
set_option autoImplicit false

/-- How far a request with a callback has come. -/
inductive Phase
  | absent
  | waiting (hopid : ℕ)
  | sent (hopid : ℕ)
  | done (a : Answer)

/-- The answer of a request is the first reply with its id after it was started, or the shutdown. -/
def track (ref : ℕ) : Phase → Seen → Phase
  | .absent, .queued r kind hopid cb =>
    if r = ref ∧ kind = .request ∧ cb = true then .waiting hopid else .absent
  | .waiting hopid, .started r => if r = ref then .sent hopid else .waiting hopid
  | .sent hopid, .arrived pkt =>
    if dmHop2hopId pkt.bytes = hopid then .done (.answerReady pkt) else .sent hopid
  | .waiting _, .closed event => .done (.event event)
  | .sent _, .closed event => .done (.event event)
  | ph, _ => ph

def phase (ref : ℕ) (seen : List Seen) : Phase := seen.foldl (track ref) .absent

/-- The calls that are due. -/
def Phase.answers : Phase → List Answer
  | .done a => [a]
  | _ => []

def Phase.open : Phase → Prop
  | .waiting _ => True
  | .sent _ => True
  | _ => False

/-- Whether this is about a request with an id, and the reply it has got has the id. -/
def Phase.of (hopid : ℕ) : Phase → Prop
  | .absent => False
  | .waiting h => h = hopid
  | .sent h => h = hopid
  | .done (.answerReady pkt) => dmHop2hopId pkt.bytes = hopid
  | .done (.event _) => True

/-- The calls that the callback of a request has got. -/
def callsOf (ref : ℕ) (calls : List (ℕ × Answer)) : List Answer :=
  (calls.filter fun c => c.1 = ref).map Prod.snd

/-- The ids of the outstanding requests. -/
def Context.requestIds (s : Context) : List ℕ :=
  (s.head.filter fun r => r.kind = .request).map RequestInfo.hopid

/-- How far an entry of the queue has come. -/
def RequestInfo.phase (r : RequestInfo) : Phase :=
  if r.kind = .request ∧ r.cb = true then
    match r.status with
    | .shallWrite => .waiting r.hopid
    | .shallRead => .sent r.hopid
  else .absent

structure QueueInv (s : Context) : Prop where
  order : ∃ rd wr, s.head = rd ++ wr ∧ (∀ r ∈ rd, r.kind = .request ∧ r.status = .shallRead) ∧
    ∀ r ∈ wr, r.status = .shallWrite
  nodup : (s.head.map RequestInfo.ref).Nodup
  lt : ∀ r ∈ s.head, r.ref < s.next
  fresh : ∀ ref, s.next ≤ ref → phase ref s.seen = .absent ∧ callsOf ref s.calls = []
  entry : ∀ r ∈ s.head, phase r.ref s.seen = r.phase
  pending : ∀ ref, (phase ref s.seen).open → ∃ r ∈ s.head, r.ref = ref
  calls : ∀ ref, phase ref s.seen ≠ .absent → callsOf ref s.calls = (phase ref s.seen).answers
  known : ∀ ref hopid, .queued ref .request hopid true ∈ s.seen → (phase ref s.seen).of hopid

/-! ## Small facts -/

theorem phase_snoc (ref : ℕ) (seen : List Seen) (o : Seen) :
    phase ref (seen ++ [o]) = track ref (phase ref seen) o := by
  rw [phase, List.foldl_append]
  rfl

theorem callsOf_append (ref : ℕ) (calls calls' : List (ℕ × Answer)) :
    callsOf ref (calls ++ calls') = callsOf ref calls ++ callsOf ref calls' := by
  rw [callsOf, List.filter_append, List.map_append]
  rfl

theorem callsOf_singleton (ref r : ℕ) (a : Answer) :
    callsOf ref [(r, a)] = if r = ref then [a] else [] := by
  by_cases h : r = ref
  · simp [callsOf, h]
  · simp [callsOf, h]

theorem track_started_of_ne {ref r : ℕ} (h : r ≠ ref) (ph : Phase) :
    track ref ph (.started r) = ph := by
  cases ph with
  | waiting hopid => simp only [track, if_neg h]
  | absent => rfl
  | sent hopid => rfl
  | done a => rfl

theorem track_queued_of_ne {ref r : ℕ} (h : r ≠ ref) (ph : Phase) (kind : Kind) (hopid : ℕ)
    (cb : Bool) : track ref ph (.queued r kind hopid cb) = ph := by
  cases ph with
  | absent => simp [track, h]
  | waiting _ => rfl
  | sent _ => rfl
  | done _ => rfl

theorem track_of {ref hopid : ℕ} {ph : Phase} (h : ph.of hopid) (o : Seen) :
    (track ref ph o).of hopid := by
  cases ph with
  | absent => exact absurd h id
  | waiting h' =>
    cases o with
    | started r =>
      simp only [track]
      split
      · exact h
      · exact h
    | queued _ _ _ _ => exact h
    | arrived _ => exact h
    | closed _ => trivial
  | sent h' =>
    cases o with
    | arrived pkt =>
      simp only [track]
      split
      · rename_i he
        exact he.trans h
      · exact h
    | queued _ _ _ _ => exact h
    | started _ => exact h
    | closed _ => trivial
  | done a => exact h

/-- What was queued stays known. -/
theorem known_snoc {seen : List Seen} {o : Seen} (ho : ∀ ref kind hopid cb, o ≠ .queued ref kind hopid cb)
    (h : ∀ ref hopid, .queued ref .request hopid true ∈ seen → (phase ref seen).of hopid) (ref hopid : ℕ)
    (hq : .queued ref .request hopid true ∈ seen ++ [o]) : (phase ref (seen ++ [o])).of hopid := by
  rw [phase_snoc]
  obtain hq | hq := List.mem_append.1 hq
  · exact track_of (h ref hopid hq) o
  · exact absurd (List.mem_singleton.1 hq).symm (ho ref .request hopid true)

theorem entry_inj {l : List RequestInfo} (hn : (l.map RequestInfo.ref).Nodup) {r q : RequestInfo}
    (hr : r ∈ l) (hq : q ∈ l) (h : r.ref = q.ref) : r = q :=
  List.inj_on_of_nodup_map hn hr hq h

/-- Other ids may be used up, bytes may be written, and the watcher may start or stop. -/
theorem QueueInv.congr {s t : Context} (hi : QueueInv s) (hh : t.head = s.head) (hn : t.next = s.next)
    (hs : t.seen = s.seen) (hc : t.calls = s.calls) : QueueInv t := by
  refine ⟨?_, ?_, ?_, ?_, ?_, ?_, ?_, ?_⟩
  · rw [hh]; exact hi.order
  · rw [hh]; exact hi.nodup
  · rw [hh, hn]; exact hi.lt
  · rw [hn, hs, hc]; exact hi.fresh
  · rw [hh, hs]; exact hi.entry
  · rw [hh, hs]; exact hi.pending
  · rw [hs, hc]; exact hi.calls
  · rw [hs]; exact hi.known

theorem queueInv_start (ids : HopIds) : QueueInv (Context.start ids) where
  order := ⟨[], [], rfl, fun r h => absurd h List.not_mem_nil, fun r h => absurd h List.not_mem_nil⟩
  nodup := List.nodup_nil
  lt := fun r h => absurd h List.not_mem_nil
  fresh := fun _ _ => ⟨rfl, rfl⟩
  entry := fun r h => absurd h List.not_mem_nil
  pending := fun _ h => absurd h id
  calls := fun _ h => absurd rfl h
  known := fun _ _ h => absurd h List.not_mem_nil

/-! ## One step -/

theorem QueueInv.enqueue {s : Context} (hi : QueueInv s) (req : Packet) (kind : Kind)
    (cb granted : Bool) (rnd : UInt32) : QueueInv (dmEnqueue s req kind cb granted rnd).2 := by
  unfold dmEnqueue
  split
  · exact hi
  · split
    · exact hi.congr rfl rfl rfl rfl
    · have hne : ∀ r ∈ s.head, s.next ≠ r.ref := by
        intro r hr
        have := hi.lt r hr
        omega
      obtain ⟨rd, wr, hhead, hrd, hwr⟩ := hi.order
      refine ⟨⟨rd, wr ++ [⟨s.next, s.stamp kind rnd req, kind, cb, .shallWrite,
        dmHop2hopId (s.stamp kind rnd req).bytes⟩], ?_, hrd, ?_⟩, ?_, ?_, ?_, ?_, ?_, ?_, ?_⟩
      · rw [← List.append_assoc, ← hhead]
      · intro r hr
        obtain hr | hr := List.mem_append.1 hr
        · exact hwr r hr
        · rw [List.mem_singleton.1 hr]
      · rw [List.map_append, List.map_singleton]
        refine List.nodup_append.2 ⟨hi.nodup, List.nodup_singleton _, ?_⟩
        intro a ha b hb hab
        obtain ⟨r, hr, rfl⟩ := List.mem_map.1 ha
        rw [List.mem_singleton] at hb
        exact hne r hr (hb.symm.trans hab.symm)
      · intro r hr
        show r.ref < s.next + 1
        obtain hr | hr := List.mem_append.1 hr
        · have := hi.lt r hr
          omega
        · rw [List.mem_singleton.1 hr]
          exact Nat.lt_succ_self _
      · intro ref href
        have href : s.next + 1 ≤ ref := href
        obtain ⟨hp, hc⟩ := hi.fresh ref (by omega)
        refine ⟨?_, hc⟩
        rw [phase_snoc, hp, track_queued_of_ne (by omega)]
      · intro r hr
        rw [phase_snoc]
        obtain hr | hr := List.mem_append.1 hr
        · rw [track_queued_of_ne (hne r hr)]
          exact hi.entry r hr
        · rw [List.mem_singleton.1 hr, (hi.fresh s.next (le_refl _)).1]
          simp [track, RequestInfo.phase]
      · intro ref hopen
        rw [phase_snoc] at hopen
        by_cases h : s.next = ref
        · exact ⟨_, List.mem_append_right _ (List.mem_singleton.2 rfl), h⟩
        · rw [track_queued_of_ne h] at hopen
          obtain ⟨r, hr, hrr⟩ := hi.pending ref hopen
          exact ⟨r, List.mem_append_left _ hr, hrr⟩
      · intro ref hne'
        rw [phase_snoc] at hne' ⊢
        by_cases h : s.next = ref
        · subst h
          obtain ⟨hp, hc⟩ := hi.fresh s.next (le_refl _)
          rw [hp] at hne' ⊢
          show callsOf s.next s.calls = _
          rw [hc]
          simp only [track] at hne' ⊢
          split
          · rfl
          · rename_i hcond
            rw [if_neg hcond] at hne'
            exact absurd rfl hne'
        · rw [track_queued_of_ne h] at hne' ⊢
          exact hi.calls ref hne'
      · intro ref hopid hq
        rw [phase_snoc]
        obtain hq | hq := List.mem_append.1 hq
        · exact track_of (hi.known ref hopid hq) _
        · rw [List.mem_singleton] at hq
          cases hq
          rw [(hi.fresh s.next (le_refl _)).1]
          simp [track, Phase.of]

theorem takeUp_append {rd : List RequestInfo} (wr : List RequestInfo) {r : RequestInfo}
    (hrd : ∀ q ∈ rd, q.status = .shallRead) (hr : r.status = .shallWrite) :
    takeUp (rd ++ r :: wr) =
      if r.kind = .request then rd ++ { r with status := .shallRead } :: wr else rd ++ wr := by
  induction rd with
  | nil => simp [takeUp, hr]
  | cons q rd ih =>
    have hq : q.status = .shallRead := hrd q List.mem_cons_self
    rw [List.cons_append, takeUp, if_neg (by rw [hq]; decide),
      ih fun q' hq' => hrd q' (List.mem_cons_of_mem q hq')]
    split
    · rfl
    · rfl

/-- The queue in front of and behind the first entry to write. -/
theorem QueueInv.split {s : Context} (hi : QueueInv s) {r : RequestInfo}
    (h : (s.head.find? fun r => r.status = .shallWrite) = some r) :
    ∃ rd wr, s.head = rd ++ r :: wr ∧ (∀ q ∈ rd, q.kind = .request ∧ q.status = .shallRead) ∧
      r.status = .shallWrite ∧ ∀ q ∈ wr, q.status = .shallWrite := by
  obtain ⟨rd, wr, hhead, hrd, hwr⟩ := hi.order
  have hnone : (rd.find? fun r => r.status = .shallWrite) = none := by
    rw [List.find?_eq_none]
    intro q hq
    simp [(hrd q hq).2]
  rw [hhead, List.find?_append, hnone, Option.none_or] at h
  cases wr with
  | nil => exact absurd h (by simp)
  | cons q wr =>
    have hq : q.status = .shallWrite := hwr q List.mem_cons_self
    rw [List.find?_cons_of_pos (by simp [hq])] at h
    cases h
    exact ⟨rd, wr, hhead, hrd, hq, fun q' hq' => hwr q' (List.mem_cons_of_mem _ hq')⟩

theorem QueueInv.nextPacket {s t : Context} {w : Writing} (hi : QueueInv s)
    (h : nextPacket s = some (w, t)) : QueueInv t := by
  unfold Net.nextPacket at h
  split at h
  · cases h
    exact hi
  · split at h
    · cases h
    · rename_i r hf
      cases h
      obtain ⟨rd, wr, hhead, hrd, hr, hwr⟩ := hi.split hf
      have htake := takeUp_append wr (fun q hq => (hrd q hq).2) hr
      rw [← hhead] at htake
      have hrm : r ∈ s.head := by simp [hhead]
      -- the entries of the new queue: the old ones apart from `r`, and `r` if it is a request
      have hmem : ∀ q, q ∈ takeUp s.head ↔
          (q ∈ s.head ∧ q ≠ r) ∨ (r.kind = .request ∧ q = { r with status := .shallRead }) := by
        have hnot : r ∉ rd ∧ r ∉ wr := by
          have hn := hi.nodup
          rw [hhead, List.map_append, List.map_cons] at hn
          have hn' := (List.nodup_middle.1 hn).notMem
          rw [List.mem_append] at hn'
          exact ⟨fun hm => hn' (.inl (List.mem_map_of_mem hm)),
            fun hm => hn' (.inr (List.mem_map_of_mem hm))⟩
        intro q
        rw [htake, hhead]
        have hq1 : q ∈ rd → q ≠ r := fun hq he => hnot.1 (he ▸ hq)
        have hq2 : q ∈ wr → q ≠ r := fun hq he => hnot.2 (he ▸ hq)
        split <;> simp only [List.mem_append, List.mem_cons] <;> tauto
      have hsplit : (takeUp s.head).map RequestInfo.ref = rd.map RequestInfo.ref ++
          ((if r.kind = .request then [r.ref] else []) ++ wr.map RequestInfo.ref) := by
        rw [htake]
        split
        · simp
        · simp
      have hself : track r.ref (phase r.ref s.seen) (.started r.ref) =
          RequestInfo.phase { r with status := .shallRead } := by
        rw [hi.entry r hrm, RequestInfo.phase, RequestInfo.phase, hr]
        by_cases hc : r.kind = .request ∧ r.cb = true
        · rw [if_pos hc, if_pos hc]
          simp [track]
        · rw [if_neg hc, if_neg hc]
          rfl
      refine ⟨?_, ?_, ?_, ?_, ?_, ?_, ?_, known_snoc (by simp) hi.known⟩
      · by_cases hk : r.kind = .request
        · refine ⟨rd ++ [{ r with status := .shallRead }], wr, ?_, ?_, hwr⟩
          · rw [htake, if_pos hk]
            simp
          · intro q hq
            obtain hq | hq := List.mem_append.1 hq
            · exact hrd q hq
            · rw [List.mem_singleton.1 hq]
              exact ⟨hk, rfl⟩
        · refine ⟨rd, wr, ?_, hrd, hwr⟩
          rw [htake, if_neg hk]
      · show ((takeUp s.head).map RequestInfo.ref).Nodup
        have hn := hi.nodup
        rw [hhead, List.map_append, List.map_cons] at hn
        rw [hsplit]
        split
        · exact hn
        · exact (List.nodup_middle.1 hn).of_cons
      · intro q hq
        obtain hq | hq := (hmem q).1 hq
        · exact hi.lt q hq.1
        · rw [hq.2]
          exact hi.lt r hrm
      · intro ref href
        have hlt := hi.lt r hrm
        have href : s.next ≤ ref := href
        obtain ⟨hp, hc⟩ := hi.fresh ref href
        refine ⟨?_, hc⟩
        rw [phase_snoc, hp]
        rfl
      · intro q hq
        rw [phase_snoc]
        obtain hq | hq := (hmem q).1 hq
        · rw [track_started_of_ne fun he => hq.2 (entry_inj hi.nodup hq.1 hrm he.symm)]
          exact hi.entry q hq.1
        · rw [hq.2]
          exact hself
      · intro ref hopen
        rw [phase_snoc] at hopen
        by_cases he : r.ref = ref
        · subst he
          by_cases hk : r.kind = .request
          · exact ⟨_, (hmem _).2 (.inr ⟨hk, rfl⟩), rfl⟩
          · rw [hself, RequestInfo.phase, if_neg fun hc => hk hc.1] at hopen
            exact absurd hopen id
        · rw [track_started_of_ne he] at hopen
          obtain ⟨q, hq, hqr⟩ := hi.pending ref hopen
          exact ⟨q, (hmem q).2 (.inl ⟨hq, fun h => he (h ▸ hqr)⟩), hqr⟩
      · intro ref hne
        rw [phase_snoc] at hne ⊢
        by_cases he : r.ref = ref
        · subst he
          have hphase := hi.entry r hrm
          have hcalls := hi.calls r.ref
          rw [hself] at hne ⊢
          by_cases hc : r.kind = .request ∧ r.cb = true
          · rw [hphase, RequestInfo.phase, if_pos hc, hr] at hcalls
            show callsOf r.ref s.calls = _
            rw [hcalls (by simp), RequestInfo.phase, if_pos hc]
            rfl
          · rw [RequestInfo.phase, if_neg hc] at hne
            exact absurd rfl hne
        · rw [track_started_of_ne he] at hne ⊢
          exact hi.calls ref hne

theorem requestIds_inj {s : Context} (hd : s.requestIds.Nodup) {r q : RequestInfo}
    (hr : r ∈ s.head) (hrk : r.kind = .request) (hq : q ∈ s.head) (hqk : q.kind = .request)
    (h : r.hopid = q.hopid) : r = q :=
  List.inj_on_of_nodup_map hd (List.mem_filter.2 ⟨hr, by simp [hrk]⟩)
    (List.mem_filter.2 ⟨hq, by simp [hqk]⟩) h

/-- A request that was started is found by its id: what stands before it waits for other replies. -/
theorem QueueInv.find {s : Context} (hi : QueueInv s) (hd : s.requestIds.Nodup) {r : RequestInfo}
    (hr : r ∈ s.head) (hst : r.status = .shallRead) :
    (s.head.find? fun q => q.hopid = r.hopid) = some r := by
  obtain ⟨rd, wr, hhead, hrd, hwr⟩ := hi.order
  have hmem : r ∈ rd := by
    rw [hhead] at hr
    obtain h | h := List.mem_append.1 hr
    · exact h
    · have := hwr r h
      rw [hst] at this
      cases this
  have hin : ∀ q ∈ rd, q ∈ s.head := fun q hq => by
    rw [hhead]
    exact List.mem_append_left _ hq
  cases hf : rd.find? fun q => q.hopid = r.hopid with
  | none =>
    have := List.find?_eq_none.1 hf r hmem
    simp at this
  | some q =>
    have hq := List.mem_of_find?_eq_some hf
    have hid : q.hopid = r.hopid := by simpa using List.find?_some hf
    have he : q = r :=
      requestIds_inj hd (hin q hq) (hrd q hq).1 hr (hrd r hmem).1 hid
    rw [hhead, List.find?_append, hf, he, Option.some_or]

/-- A reply with an id that no started request has changes no phase. -/
theorem track_arrived_of_ne {ref : ℕ} {ph : Phase} {pkt : Packet}
    (h : ∀ hopid, ph = .sent hopid → dmHop2hopId pkt.bytes ≠ hopid) :
    track ref ph (.arrived pkt) = ph := by
  cases ph with
  | sent hopid => rw [track, if_neg (h hopid rfl)]
  | absent => rfl
  | waiting _ => rfl
  | done _ => rfl

theorem RequestInfo.phase_sent {r : RequestInfo} {hopid : ℕ} (h : r.phase = .sent hopid) :
    r.kind = .request ∧ r.cb = true ∧ r.status = .shallRead ∧ r.hopid = hopid := by
  rw [RequestInfo.phase] at h
  split at h
  · rename_i hc
    split at h
    · cases h
    · cases h
      rename_i hst
      exact ⟨hc.1, hc.2, hst, rfl⟩
  · cases h

theorem QueueInv.reply {s : Context} (hi : QueueInv s) (hd : s.requestIds.Nodup) (pkt : Packet) :
    QueueInv (processReply s pkt) := by
  -- a reply that no started request has the id of is dropped
  have hdrop : (∀ r ∈ s.head, r.status = .shallRead → r.cb = true →
      dmHop2hopId pkt.bytes ≠ r.hopid) → ∀ ref, phase ref (s.seen ++ [.arrived pkt]) =
        phase ref s.seen := by
    intro hno ref
    rw [phase_snoc]
    apply track_arrived_of_ne
    intro hopid hph
    obtain ⟨r, hr, hrr⟩ := hi.pending ref (by rw [hph]; trivial)
    have hent := hi.entry r hr
    rw [hrr, hph] at hent
    obtain ⟨_, hcb, hst, hid⟩ := RequestInfo.phase_sent hent.symm
    rw [← hid]
    exact hno r hr hst hcb
  have hsame : (∀ ref, phase ref (s.seen ++ [.arrived pkt]) = phase ref s.seen) →
      QueueInv { s with seen := s.seen ++ [.arrived pkt] } := by
    intro hp
    refine ⟨hi.order, hi.nodup, hi.lt, ?_, ?_, ?_, ?_, known_snoc (by simp) hi.known⟩
    · intro ref href
      rw [hp ref]
      exact hi.fresh ref href
    · intro r hr
      rw [hp r.ref]
      exact hi.entry r hr
    · intro ref hopen
      rw [hp ref] at hopen
      exact hi.pending ref hopen
    · intro ref hne
      rw [hp ref] at hne ⊢
      exact hi.calls ref hne
  unfold processReply
  dsimp only
  split
  · rename_i hnone
    apply hsame
    apply hdrop
    intro r hr _ _ he
    have := List.find?_eq_none.1 hnone r hr
    simp [he] at this
  · rename_i q hf
    have hq := List.mem_of_find?_eq_some hf
    have hqid : q.hopid = dmHop2hopId pkt.bytes := by simpa using List.find?_some hf
    split
    · rename_i hst
      apply hsame
      apply hdrop
      intro r hr hrst _ he
      have := hi.find hd hr hrst
      rw [← he, hf] at this
      cases this
      exact hst hrst
    · rename_i hst
      have hst : q.status = .shallRead := not_not.1 hst
      obtain ⟨hpq, as, bs, hsplit, has⟩ := List.find?_eq_some_iff_append.1 hf
      have herase : (s.head.eraseP fun r => r.hopid = dmHop2hopId pkt.bytes) = as ++ bs := by
        rw [hsplit, List.eraseP_append_right _ (by
          intro b hb
          have := has b hb
          simpa using this), List.eraseP_cons_of_pos
            (p := fun r : RequestInfo => r.hopid = dmHop2hopId pkt.bytes) hpq]
      have hn := hi.nodup
      rw [hsplit, List.map_append, List.map_cons] at hn
      have hnot := (List.nodup_middle.1 hn).notMem
      rw [List.mem_append] at hnot
      have hmem : ∀ r, r ∈ as ++ bs ↔ r ∈ s.head ∧ r ≠ q := by
        intro r
        rw [hsplit]
        have h1 : r ∈ as → r ≠ q := fun hr he => hnot (.inl (he ▸ List.mem_map_of_mem hr))
        have h2 : r ∈ bs → r ≠ q := fun hr he => hnot (.inr (he ▸ List.mem_map_of_mem hr))
        simp only [List.mem_append, List.mem_cons]
        tauto
      -- of the other entries none has this id and waits for a reply
      have hother : ∀ ref, ref ≠ q.ref →
          phase ref (s.seen ++ [.arrived pkt]) = phase ref s.seen := by
        intro ref href
        rw [phase_snoc]
        apply track_arrived_of_ne
        intro hopid hph he
        obtain ⟨r, hr, hrr⟩ := hi.pending ref (by rw [hph]; trivial)
        have hent := hi.entry r hr
        rw [hrr, hph] at hent
        obtain ⟨_, _, hrst, hid⟩ := RequestInfo.phase_sent hent.symm
        have := hi.find hd hr hrst
        rw [hid, ← he, hf] at this
        cases this
        exact href hrr.symm
      have hself : phase q.ref (s.seen ++ [.arrived pkt]) =
          if q.kind = .request ∧ q.cb = true then .done (.answerReady pkt) else .absent := by
        rw [phase_snoc, hi.entry q hq, RequestInfo.phase, hst]
        split
        · simp only [track, hqid, if_pos]
        · rfl
      have hcalls : ∀ ref, ref ≠ q.ref →
          callsOf ref (if q.cb = true then s.calls ++ [(q.ref, .answerReady pkt)] else s.calls) =
            callsOf ref s.calls := by
        intro ref href
        split
        · rw [callsOf_append, callsOf_singleton, if_neg fun h => href h.symm, List.append_nil]
        · rfl
      obtain ⟨rd, wr, hhead, hrd, hwr⟩ := hi.order
      rw [herase]
      refine ⟨?_, ?_, ?_, ?_, ?_, ?_, ?_, known_snoc (by simp) hi.known⟩
      · -- `q` is among the entries that wait for a reply
        have hqrd : q ∈ rd := by
          have hq' := hq
          rw [hhead] at hq'
          obtain h | h := List.mem_append.1 hq'
          · exact h
          · have := hwr q h
            rw [hst] at this
            cases this
        refine ⟨rd.eraseP fun r => r.hopid = dmHop2hopId pkt.bytes, wr, ?_, ?_, hwr⟩
        · rw [← herase, hhead]
          exact List.eraseP_append_left (p := fun r : RequestInfo => r.hopid = dmHop2hopId pkt.bytes)
            hpq _ hqrd
        · intro r hr
          exact hrd r (List.mem_of_mem_eraseP hr)
      · show ((as ++ bs).map RequestInfo.ref).Nodup
        rw [List.map_append]
        exact (List.nodup_middle.1 hn).of_cons
      · intro r hr
        exact hi.lt r ((hmem r).1 hr).1
      · intro ref href
        have href : s.next ≤ ref := href
        have hne : ref ≠ q.ref := by
          have := hi.lt q hq
          omega
        rw [hother ref hne, hcalls ref hne]
        exact hi.fresh ref href
      · intro r hr
        obtain ⟨hr, hne⟩ := (hmem r).1 hr
        rw [hother r.ref fun h => hne (entry_inj hi.nodup hr hq h)]
        exact hi.entry r hr
      · intro ref hopen
        by_cases he : ref = q.ref
        · rw [he, hself] at hopen
          split at hopen
          · exact absurd hopen id
          · exact absurd hopen id
        · rw [hother ref he] at hopen
          obtain ⟨r, hr, hrr⟩ := hi.pending ref hopen
          exact ⟨r, (hmem r).2 ⟨hr, fun h => he (by rw [← hrr, h])⟩, hrr⟩
      · intro ref hne
        by_cases he : ref = q.ref
        · subst he
          rw [hself] at hne ⊢
          by_cases hc : q.kind = .request ∧ q.cb = true
          · have hold := hi.calls q.ref
            rw [hi.entry q hq, RequestInfo.phase, if_pos hc, hst] at hold
            rw [if_pos hc]
            show callsOf q.ref (if q.cb = true then _ else _) = _
            rw [if_pos hc.2, callsOf_append, hold (by simp), callsOf_singleton, if_pos rfl]
            rfl
          · rw [if_neg hc] at hne
            exact absurd rfl hne
        · rw [hother ref he] at hne ⊢
          show callsOf ref (if q.cb = true then _ else _) = _
          rw [hcalls ref he]
          exact hi.calls ref hne

theorem callsOf_event (ref : ℕ) (l : List RequestInfo) (event : DmconfigEvent)
    (hn : (l.map RequestInfo.ref).Nodup) :
    callsOf ref ((l.filter fun r => r.cb).map fun r => (r.ref, Answer.event event)) =
      if ∃ r ∈ l, r.ref = ref ∧ r.cb = true then [.event event] else [] := by
  induction l with
  | nil => simp [callsOf]
  | cons r l ih =>
    rw [List.map_cons, List.nodup_cons] at hn
    have ih := ih hn.2
    by_cases hr : r.ref = ref
    · have hno : ¬∃ q ∈ l, q.ref = ref ∧ q.cb = true := by
        intro h
        obtain ⟨q, hq, hqr, _⟩ := h
        exact hn.1 (List.mem_map.2 ⟨q, hq, hqr.trans hr.symm⟩)
      rw [if_neg hno] at ih
      by_cases hcb : r.cb = true
      · rw [List.filter_cons_of_pos hcb, List.map_cons, if_pos ⟨r, List.mem_cons_self, hr, hcb⟩]
        rw [show ((r.ref, Answer.event event) :: (l.filter fun r => r.cb).map fun r =>
          (r.ref, Answer.event event)) = [(r.ref, Answer.event event)] ++ (l.filter fun r => r.cb).map
            fun r => (r.ref, Answer.event event) from rfl, callsOf_append, ih, callsOf_singleton,
          if_pos hr, List.append_nil]
      · rw [List.filter_cons_of_neg hcb, ih, if_neg]
        intro h
        obtain ⟨q, hq, hqr, hqcb⟩ := h
        obtain rfl | hq := List.mem_cons.1 hq
        · exact hcb hqcb
        · exact hno ⟨q, hq, hqr, hqcb⟩
    · have hiff : (∃ q ∈ r :: l, q.ref = ref ∧ q.cb = true) ↔ ∃ q ∈ l, q.ref = ref ∧ q.cb = true := by
        simp only [List.mem_cons, exists_eq_or_imp, hr, false_and, false_or]
      rw [if_congr hiff rfl rfl, ← ih]
      by_cases hcb : r.cb = true
      · rw [List.filter_cons_of_pos hcb, List.map_cons, callsOf, List.filter_cons_of_neg (by simpa using hr)]
        rfl
      · rw [List.filter_cons_of_neg hcb]

theorem QueueInv.shutdown {s : Context} (hi : QueueInv s) (event : DmconfigEvent) :
    QueueInv (dmContextShutdown s event) := by
  refine ⟨⟨[], [], rfl, fun _ h => absurd h List.not_mem_nil, fun _ h => absurd h List.not_mem_nil⟩,
    List.nodup_nil, fun _ h => absurd h List.not_mem_nil, ?_, fun _ h => absurd h List.not_mem_nil,
    ?_, ?_, known_snoc (by simp) hi.known⟩
  · intro ref href
    have href : s.next ≤ ref := href
    obtain ⟨hp, hc⟩ := hi.fresh ref href
    refine ⟨?_, ?_⟩
    · show phase ref (s.seen ++ [.closed event]) = .absent
      rw [phase_snoc, hp]
      rfl
    · show callsOf ref (s.calls ++ _) = []
      rw [callsOf_append, hc, callsOf_event ref s.head event hi.nodup, if_neg]
      · rfl
      · intro h
        obtain ⟨r, hr, hrr, _⟩ := h
        have := hi.lt r hr
        omega
  · intro ref hopen
    have hopen : (phase ref (s.seen ++ [.closed event])).open := hopen
    rw [phase_snoc] at hopen
    cases hp : phase ref s.seen with
    | absent => rw [hp] at hopen; exact absurd hopen id
    | waiting _ => rw [hp] at hopen; exact absurd hopen id
    | sent _ => rw [hp] at hopen; exact absurd hopen id
    | done _ => rw [hp] at hopen; exact absurd hopen id
  · intro ref hne
    show callsOf ref (s.calls ++ _) = (phase ref (s.seen ++ [.closed event])).answers
    have hne : phase ref (s.seen ++ [.closed event]) ≠ .absent := hne
    rw [callsOf_append, callsOf_event ref s.head event hi.nodup]
    rw [phase_snoc] at hne ⊢
    have hopen : (phase ref s.seen).open → ∃ r ∈ s.head, r.ref = ref ∧ r.cb = true := by
      intro h
      obtain ⟨r, hr, hrr⟩ := hi.pending ref h
      refine ⟨r, hr, hrr, ?_⟩
      by_contra hcb
      have hent := hi.entry r hr
      rw [RequestInfo.phase, if_neg fun hc => hcb hc.2, hrr] at hent
      rw [hent] at h
      exact h
    cases hp : phase ref s.seen with
    | absent =>
      rw [hp] at hne
      exact absurd rfl hne
    | waiting hopid =>
      have hcalls := hi.calls ref (by rw [hp]; simp)
      rw [hp] at hcalls
      rw [if_pos (hopen (by rw [hp]; trivial)), hcalls]
      rfl
    | sent hopid =>
      have hcalls := hi.calls ref (by rw [hp]; simp)
      rw [hp] at hcalls
      rw [if_pos (hopen (by rw [hp]; trivial)), hcalls]
      rfl
    | done a =>
      have hcalls := hi.calls ref (by rw [hp]; simp)
      rw [hp] at hcalls
      rw [if_neg, hcalls]
      · rfl
      · -- an entry of the queue has not been answered
        intro h
        obtain ⟨r, hr, hrr, _⟩ := h
        have hent := hi.entry r hr
        rw [hrr, hp, RequestInfo.phase] at hent
        split at hent
        · split at hent
          · cases hent
          · cases hent
        · cases hent

theorem QueueInv.write {rs : List WriteResult} {s t : Context} {full : Bool} (hi : QueueInv s)
    (h : writeLoop rs s = some (full, t)) : QueueInv t := by
  induction rs generalizing s full with
  | nil =>
    rw [writeLoop] at h
    split at h
    · cases h
      exact hi.congr rfl rfl rfl rfl
    · cases h
  | cons r rs ih =>
    rw [writeLoop] at h
    split at h
    · cases h
      exact hi.congr rfl rfl rfl rfl
    · rename_i w u hnext
      have hu := hi.nextPacket hnext
      cases r with
      | wrote n =>
        dsimp only at h
        split at h
        · cases h
        · split at h
          · cases h
            exact hu.congr rfl rfl rfl rfl
          · rw [Option.map_eq_some_iff] at h
            obtain ⟨⟨f, v⟩, hv, h⟩ := h
            cases h
            exact ih (s := u.wrote w n) (hu.congr rfl rfl rfl rfl) hv
      | eagain =>
        cases h
        exact hu
      | eintr =>
        dsimp only at h
        rw [Option.map_eq_some_iff] at h
        obtain ⟨⟨f, v⟩, hv, h⟩ := h
        cases h
        exact ih hu hv
      | failed =>
        cases h
        exact hu.shutdown .errorWriting

theorem QueueInv.step {s t : Context} {ev : Event} (hi : QueueInv s) (hd : s.requestIds.Nodup)
    (h : step s ev = some t) : QueueInv t := by
  cases ev with
  | others ids =>
    cases h
    exact hi.congr rfl rfl rfl rfl
  | enqueue req kind cb granted rnd =>
    cases h
    exact hi.enqueue req kind cb granted rnd
  | write rs =>
    simp only [Net.step, Option.map_eq_some_iff] at h
    obtain ⟨⟨full, u⟩, hu, h⟩ := h
    cases h
    unfold writeEvent at hu
    split at hu
    · cases hu
      exact hi
    · exact hi.write hu
  | reply pkt =>
    cases h
    exact hi.reply hd pkt
  | shutdown event =>
    cases h
    exact hi.shutdown event

/-! ## Whole runs -/

theorem phase_after_shutdown {ref hopid : ℕ} {seen : List Seen} {event : DmconfigEvent}
    (h : (phase ref (seen ++ [.closed event])).of hopid) :
    ∃ a, phase ref (seen ++ [.closed event]) = .done a := by
  rw [phase_snoc] at h ⊢
  cases hp : phase ref seen with
  | absent =>
    rw [hp] at h
    exact absurd h id
  | waiting _ => exact ⟨_, rfl⟩
  | sent _ => exact ⟨_, rfl⟩
  | done a => exact ⟨a, rfl⟩

/-- While the outstanding requests have distinct ids, the callback of a request is called as what has
happened to it says: never twice, with no reply that has another id, and after a shutdown exactly once. -/
theorem one_callback (ids : HopIds) (evs : List Event) (s : Context)
    (h : run (Context.start ids) evs = some s)
    (hd : ∀ pre t, pre <+: evs → run (Context.start ids) pre = some t → t.requestIds.Nodup)
    (ref hopid : ℕ) (hq : .queued ref .request hopid true ∈ s.seen) :
    callsOf ref s.calls = (phase ref s.seen).answers ∧ (callsOf ref s.calls).length ≤ 1 ∧
      (∀ pkt, .answerReady pkt ∈ callsOf ref s.calls → dmHop2hopId pkt.bytes = hopid) ∧
      ∀ pre event, evs = pre ++ [.shutdown event] → (callsOf ref s.calls).length = 1 := by
  have hi : QueueInv s := run_induction (queueInv_start ids)
    (fun pre ev t t' hpre hr ht hs => ht.step (hd pre t ((List.prefix_append pre [ev]).trans hpre) hr) hs)
    h
  have hof := hi.known ref hopid hq
  have hne : phase ref s.seen ≠ .absent := by
    intro he
    rw [he] at hof
    exact hof
  have hcalls := hi.calls ref hne
  refine ⟨hcalls, ?_, ?_, ?_⟩
  · rw [hcalls]
    cases phase ref s.seen with
    | absent => exact Nat.zero_le _
    | waiting _ => exact Nat.zero_le _
    | sent _ => exact Nat.zero_le _
    | done _ => exact le_refl _
  · intro pkt hpkt
    rw [hcalls] at hpkt
    cases hp : phase ref s.seen with
    | done a =>
      rw [hp] at hpkt hof
      rw [← List.mem_singleton.1 hpkt] at hof
      exact hof
    | absent => rw [hp] at hpkt; exact absurd hpkt List.not_mem_nil
    | waiting _ => rw [hp] at hpkt; exact absurd hpkt List.not_mem_nil
    | sent _ => rw [hp] at hpkt; exact absurd hpkt List.not_mem_nil
  · intro pre event hev
    rw [hev] at h
    obtain ⟨u, _, hs⟩ := run_snoc h
    cases hs
    obtain ⟨a, ha⟩ := phase_after_shutdown hof
    rw [hcalls]
    show (phase ref (u.seen ++ [.closed event])).answers.length = 1
    rw [ha]
    rfl

/-- A packet without AVPs. -/
def samplePacket (flags hopid : UInt8) : Packet where
  bytes := [1, 0, 0, 20, flags, 0, 0, 7, 0, 0, 0, 0, 0, 0, 0, hopid, 0, 0, 0, hopid]
  header := by simp [sizeofDmPacket]
  length_eq := by simp [dmPacketLength, ofBe]

/-- A request is written in two parts, its reply comes twice, and the connection is closed. -/
def sampleRequests : List Event :=
  [.enqueue (samplePacket 128 0) .request true true 5, .enqueue (samplePacket 0 5) .reply false true 0,
    .reply (samplePacket 0 5), .write [.wrote 8, .wrote 12, .eagain], .reply (samplePacket 0 5),
    .reply (samplePacket 0 5), .shutdown .ok]

theorem sampleRequests_distinct (pre : List Event) (t : Context) (hpre : pre <+: sampleRequests)
    (h : run (Context.start ⟨0, 0⟩) pre = some t) : t.requestIds.Nodup := by
  have hmem := List.mem_inits _ _ |>.2 hpre
  simp only [sampleRequests, List.inits, List.map_cons, List.map_nil, List.mem_cons,
    List.not_mem_nil, or_false] at hmem
  obtain rfl | rfl | rfl | rfl | rfl | rfl | rfl | rfl := hmem <;> cases h <;> decide +kernel

theorem one_callback_sample : ∃ s, run (Context.start ⟨0, 0⟩) sampleRequests = some s ∧
    callsOf 0 s.calls = [.answerReady (samplePacket 0 5)] ∧ (callsOf 0 s.calls).length = 1 := by
  refine ⟨_, rfl, by decide +kernel, ?_⟩
  exact (one_callback ⟨0, 0⟩ sampleRequests _ rfl sampleRequests_distinct 0 5
    List.mem_cons_self).2.2.2 sampleRequests.dropLast .ok rfl

end Mand.Net
