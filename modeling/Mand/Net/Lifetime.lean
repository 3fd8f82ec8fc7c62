import Mathlib

/-! # The lifetime of a context

`_ref` of a `DMCONTEXT` of the server, from `dm_accept` to the end of its connection. An access to the context
after `talloc_free` has no result. -/
namespace Mand.Net.Lifetime
set_option autoImplicit false

/-! ## The context -/

/-- A `DMCONTEXT`, with the entries of its queue that say whether they have a callback, and the session timer of
its `SOCKCONTEXT`. -/
structure Life where
  ref : ℤ
  /-- how often `talloc_free` was called -/
  frees : ℕ
  /-- `_ref` was below zero -/
  under : Bool
  head : List Bool
  /-- `userdata` is not null -/
  userdata : Bool
  /-- `session_timer_ev` is active -/
  timer : Bool
  deriving DecidableEq, Repr

/-- Any read or write of the context. -/
def touch (s : Life) : Option Life := if s.frees = 0 then some s else none

def dmContextReference (s : Life) : Option Life := do
  let s ← touch s
  some { s with ref := s.ref + 1 }

def dmContextRelease (s : Life) : Option (ℤ × Life) := do
  let s ← touch s
  let r := s.ref - 1
  let s := { s with ref := r, under := s.under || decide (r < 0) }
  if r = 0 then some (r, { s with frees := s.frees + 1 }) else some (r, s)

/-- `dm_free_requests`: every entry is taken from the queue before its callback is called. -/
def dmFreeRequests : List Bool → Life → Option Life
  | [], s => touch s
  | cb :: head, s => do
    let s ← touch s
    let s := { s with head := head }
    -- the callback gets the context
    let s ← if cb = true then touch s else some s
    dmFreeRequests head s

/-- `dm_context_shutdown`. -/
def dmContextShutdown (s : Life) : Option Life := do
  let s ← touch s
  let s ← dmFreeRequests s.head s
  touch s

/-- `end_session`, as far as it uses the context. -/
def endSession (s : Life) : Option Life := do
  let s ← touch s
  let s := { s with userdata := false }
  if s.timer = true then do
    let s ← touch s
    some { s with timer := false }
  else some s

def shutdownSession (s : Life) : Option Life := do
  let s ← dmContextShutdown s
  let (_, s) ← dmContextRelease s
  endSession s

/-- `accept_cb` for an error. -/
def acceptCb (s : Life) : Option Life := if s.userdata = true then endSession s else some s

def connectionError (s : Life) : Option Life := do
  let s ← touch s
  let s ← acceptCb s
  dmContextShutdown s

/-! ## Events -/

/-- The end of an iteration of `readEvent`; on a closed socket the next one fails. -/
def endIteration (s : Life) : Option Life := do
  let s ← touch s
  let (r, s) ← dmContextRelease s
  if r = 0 then some s else connectionError s

/-- An iteration of `readEvent` for a packet that does not end the connection, with the queue and the timer that it
leaves. -/
def readPacket (s : Life) (work : List Bool × Bool) : Option Life := do
  let s ← dmContextReference s
  let s ← touch s
  let (r, s) ← dmContextRelease { s with head := work.1, timer := work.2 }
  if r = 0 then some s else touch s

/-- The ways in which a connection ends. -/
inductive End
  | endsession
  | sessionTimer
  | readError
  | writeError
  | writeTimeout
  deriving DecidableEq, Repr

def End.event : End → Life → Option Life
  | .endsession, s => do
    let s ← dmContextReference s
    -- `process_request` and `request_cb`
    let s ← touch s
    let s ← shutdownSession s
    endIteration s
  | .sessionTimer, s => shutdownSession s
  | .readError, s => connectionError s
  | .writeError, s => connectionError s
  | .writeTimeout, s => connectionError s

/-- The iterations of `readEvent` that were in progress, of which the innermost ran the event loop, come to their
ends. -/
def unwind : ℕ → Life → Option Life
  | 0, s => some s
  | n + 1, s => do
    let s ← endIteration s
    unwind n s

/-- A context as `dm_accept` and `accept_cb` leave it, in the middle of so many iterations of `readEvent`. -/
def accepted (n : ℕ) : Life := ⟨1 + n, 0, false, [], true, false⟩

/-- A connection with the packets that were read before its end. -/
def connection (n : ℕ) (works : List (List Bool × Bool)) (e : End) : Option Life := do
  let s ← works.foldlM readPacket (accepted n)
  let s ← e.event s
  unwind n s

/-- **Context lifetime.** There is no access after the context was freed, the count is never negative, and the
context is freed once. -/
def Sound (n : ℕ) (works : List (List Bool × Bool)) (e : End) : Prop :=
  ∃ t, connection n works e = some t ∧ t.under = false ∧ t.frees = 1

/-! ## Live contexts -/

/-- The context is live with so many references. -/
structure Alive (s : Life) (r : ℤ) : Prop where
  frees_eq : s.frees = 0
  ref_eq : s.ref = r
  under_eq : s.under = false

/-- The context was released in order. -/
structure Gone (s : Life) : Prop where
  frees_eq : s.frees = 1
  under_eq : s.under = false

variable {s : Life} {r : ℤ}

theorem Alive.touch (h : Alive s r) : touch s = some s := if_pos h.frees_eq

theorem Gone.touch (h : Gone s) : touch s = none := if_neg (by rw [h.frees_eq]; decide)

theorem Alive.reference (h : Alive s r) : ∃ t, dmContextReference s = some t ∧ Alive t (r + 1) := by
  refine ⟨{ s with ref := s.ref + 1 }, ?_, h.frees_eq, ?_, h.under_eq⟩
  · simp only [dmContextReference, h.touch, Option.bind_eq_bind, Option.bind_some]
  · simp only [h.ref_eq]

theorem Alive.release (h : Alive s r) (hr : 1 < r) : ∃ t, dmContextRelease s = some (r - 1, t) ∧ Alive t (r - 1) := by
  refine ⟨{ s with ref := r - 1, under := false }, ?_, h.frees_eq, rfl, rfl⟩
  have hneg : decide (r - 1 < 0) = false := decide_eq_false (by omega)
  simp only [dmContextRelease, h.touch, Option.bind_eq_bind, Option.bind_some, h.ref_eq, if_neg (show ¬r - 1 = 0 by omega),
    h.under_eq, hneg, Bool.or_false]

theorem Alive.last (h : Alive s 1) : ∃ t, dmContextRelease s = some (0, t) ∧ Gone t := by
  refine ⟨{ s with ref := 0, under := false, frees := s.frees + 1 }, ?_, ?_, rfl⟩
  · simp [dmContextRelease, h.touch, h.ref_eq, h.under_eq]
  · simp only [h.frees_eq]

/-- Whatever the queue holds. -/
theorem Alive.freeRequests (h : Alive s r) (head : List Bool) : ∃ t, dmFreeRequests head s = some t ∧ Alive t r := by
  induction head generalizing s with
  | nil => exact ⟨s, h.touch, h⟩
  | cons cb head ih =>
    have hnext : Alive { s with head := head } r := ⟨h.frees_eq, h.ref_eq, h.under_eq⟩
    obtain ⟨t, ht, hat⟩ := ih hnext
    refine ⟨t, ?_, hat⟩
    rw [dmFreeRequests, h.touch, Option.bind_eq_bind, Option.bind_some]
    cases cb with
    | false => exact ht
    | true =>
      rw [if_pos rfl, hnext.touch]
      exact ht

theorem Alive.shutdown (h : Alive s r) : ∃ t, dmContextShutdown s = some t ∧ Alive t r := by
  obtain ⟨t, ht, hat⟩ := h.freeRequests s.head
  refine ⟨t, ?_, hat⟩
  simp only [dmContextShutdown, h.touch, Option.bind_eq_bind, Option.bind_some, ht, hat.touch]

theorem Alive.endSession (h : Alive s r) : ∃ t, endSession s = some t ∧ Alive t r := by
  have hnext : Alive { s with userdata := false } r := ⟨h.frees_eq, h.ref_eq, h.under_eq⟩
  simp only [Lifetime.endSession, h.touch, Option.bind_eq_bind, Option.bind_some]
  by_cases ht : s.timer = true
  · rw [if_pos ht, hnext.touch]
    exact ⟨_, rfl, h.frees_eq, h.ref_eq, h.under_eq⟩
  · rw [if_neg ht]
    exact ⟨_, rfl, hnext⟩

theorem Alive.connectionError (h : Alive s r) : ∃ t, connectionError s = some t ∧ Alive t r := by
  have hcb : ∃ t, acceptCb s = some t ∧ Alive t r := by
    unfold acceptCb
    split
    · exact h.endSession
    · exact ⟨s, rfl, h⟩
  obtain ⟨t1, ht1, h1⟩ := hcb
  obtain ⟨t, ht, hat⟩ := h1.shutdown
  refine ⟨t, ?_, hat⟩
  simp only [Lifetime.connectionError, h.touch, Option.bind_eq_bind, Option.bind_some, ht1, ht]

/-- The session ends while somebody else holds a reference. -/
theorem Alive.shutdownSession (h : Alive s r) (hr : 1 < r) : ∃ t, shutdownSession s = some t ∧ Alive t (r - 1) := by
  obtain ⟨t1, ht1, h1⟩ := h.shutdown
  obtain ⟨t2, ht2, h2⟩ := h1.release hr
  obtain ⟨t, ht, hat⟩ := h2.endSession
  refine ⟨t, ?_, hat⟩
  simp only [Lifetime.shutdownSession, Option.bind_eq_bind, Option.bind_some, ht1, ht2, ht]

/-- The session ends with the last reference: `end_session` uses the context. -/
theorem Alive.shutdownSession_last (h : Alive s 1) : Lifetime.shutdownSession s = none := by
  obtain ⟨t1, ht1, h1⟩ := h.shutdown
  obtain ⟨t2, ht2, h2⟩ := h1.last
  simp only [Lifetime.shutdownSession, Option.bind_eq_bind, Option.bind_some, ht1, ht2, Lifetime.endSession, h2.touch,
    Option.bind_none]

theorem Alive.endIteration (h : Alive s r) (hr : 1 < r) : ∃ t, endIteration s = some t ∧ Alive t (r - 1) := by
  obtain ⟨t1, ht1, h1⟩ := h.release hr
  obtain ⟨t, ht, hat⟩ := h1.connectionError
  refine ⟨t, ?_, hat⟩
  simp only [Lifetime.endIteration, h.touch, Option.bind_eq_bind, Option.bind_some, ht1,
    if_neg (show ¬r - 1 = 0 by omega), ht]

theorem Alive.endIteration_last (h : Alive s 1) : ∃ t, Lifetime.endIteration s = some t ∧ Gone t := by
  obtain ⟨t, ht, hgone⟩ := h.last
  refine ⟨t, ?_, hgone⟩
  simp only [Lifetime.endIteration, h.touch, Option.bind_eq_bind, Option.bind_some, ht, if_true]

/-- Reading a packet leaves the count as it was. -/
theorem Alive.readPacket (h : Alive s r) (hr : 0 < r) (work : List Bool × Bool) :
    ∃ t, readPacket s work = some t ∧ Alive t r := by
  obtain ⟨t1, ht1, h1⟩ := h.reference
  have h2 : Alive { t1 with head := work.1, timer := work.2 } (r + 1) := ⟨h1.frees_eq, h1.ref_eq, h1.under_eq⟩
  obtain ⟨t, ht, hat⟩ := h2.release (by omega)
  rw [Int.add_sub_cancel] at ht hat
  refine ⟨t, ?_, hat⟩
  simp only [Lifetime.readPacket, Option.bind_eq_bind, Option.bind_some, ht1, h1.touch, ht,
    if_neg (show ¬r = 0 by omega), hat.touch]

theorem Alive.works (h : Alive s r) (hr : 0 < r) (works : List (List Bool × Bool)) :
    ∃ t, works.foldlM Lifetime.readPacket s = some t ∧ Alive t r := by
  induction works generalizing s with
  | nil => exact ⟨s, rfl, h⟩
  | cons work works ih =>
    obtain ⟨t1, ht1, h1⟩ := h.readPacket hr work
    obtain ⟨t, ht, hat⟩ := ih h1
    refine ⟨t, ?_, hat⟩
    rw [List.foldlM_cons, ht1]
    exact ht

/-! ## The ends -/

/-- Iterations in progress with no other reference: the last one frees the context. -/
theorem unwind_gone (n : ℕ) (h : Alive s (n + 1)) : ∃ t, unwind (n + 1) s = some t ∧ Gone t := by
  induction n generalizing s with
  | zero =>
    obtain ⟨t, ht, hgone⟩ := Alive.endIteration_last (by simpa using h)
    exact ⟨t, by simp only [unwind, ht, Option.bind_eq_bind, Option.bind_some], hgone⟩
  | succ n ih =>
    obtain ⟨t1, ht1, h1⟩ := h.endIteration (by omega)
    rw [Int.add_sub_cancel] at h1
    obtain ⟨t, ht, hgone⟩ := ih (by simpa using h1)
    refine ⟨t, ?_, hgone⟩
    rw [unwind, ht1, Option.bind_eq_bind, Option.bind_some]
    exact ht

/-- With a further reference the context stays. -/
theorem unwind_alive (n : ℕ) (h : Alive s (n + 1)) : ∃ t, unwind n s = some t ∧ Alive t 1 := by
  induction n generalizing s with
  | zero => exact ⟨s, rfl, by simpa using h⟩
  | succ n ih =>
    obtain ⟨t1, ht1, h1⟩ := h.endIteration (by omega)
    rw [Int.add_sub_cancel] at h1
    obtain ⟨t, ht, hat⟩ := ih (by simpa using h1)
    refine ⟨t, ?_, hat⟩
    rw [unwind, ht1, Option.bind_eq_bind, Option.bind_some]
    exact ht

/-- `CMD_ENDSESSION` drops the reference of the connection and that of its own iteration. -/
theorem endsession_event (n : ℕ) (h : Alive s (n + 1)) :
    ∃ t, End.event .endsession s = some t ∧ ((n = 0 ∧ Gone t) ∨ (0 < n ∧ Alive t n)) := by
  obtain ⟨t1, ht1, h1⟩ := h.reference
  obtain ⟨t2, ht2, h2⟩ := h1.shutdownSession (by omega)
  rw [Int.add_sub_cancel] at h2
  have hevent : End.event .endsession s = endIteration t2 := by
    simp only [End.event, ht1, h1.touch, ht2, Option.bind_eq_bind, Option.bind_some]
  rw [hevent]
  cases n with
  | zero =>
    obtain ⟨t, ht, hgone⟩ := Alive.endIteration_last (by simpa using h2)
    exact ⟨t, ht, .inl ⟨rfl, hgone⟩⟩
  | succ n =>
    obtain ⟨t, ht, hat⟩ := h2.endIteration (by omega)
    rw [Int.add_sub_cancel] at hat
    exact ⟨t, ht, .inr ⟨Nat.succ_pos n, hat⟩⟩

theorem sound_endsession (n : ℕ) (h : Alive s (n + 1)) :
    ∃ t, (End.event .endsession s).bind (unwind n) = some t ∧ Gone t := by
  obtain ⟨t1, ht1, hcase⟩ := endsession_event n h
  rw [ht1, Option.bind_some]
  rcases hcase with ⟨rfl, hgone⟩ | ⟨hn, hat⟩
  · exact ⟨t1, rfl, hgone⟩
  · obtain ⟨k, rfl⟩ : ∃ k, n = k + 1 := ⟨n - 1, by omega⟩
    exact unwind_gone k (by simpa using hat)

/-- The timer drops the reference of the connection only. -/
theorem sound_timer (n : ℕ) (hn : 0 < n) (h : Alive s (n + 1)) :
    ∃ t, (End.event .sessionTimer s).bind (unwind n) = some t ∧ Gone t := by
  obtain ⟨k, rfl⟩ : ∃ k, n = k + 1 := ⟨n - 1, by omega⟩
  obtain ⟨t1, ht1, h1⟩ := h.shutdownSession (by omega)
  rw [Int.add_sub_cancel] at h1
  have hevent : End.event .sessionTimer s = some t1 := ht1
  rw [hevent, Option.bind_some]
  exact unwind_gone k (by simpa using h1)

/-- An error of the connection drops no reference. -/
theorem leaked_error (n : ℕ) (e : End) (he : e ≠ .endsession ∧ e ≠ .sessionTimer) (h : Alive s (n + 1)) :
    ∃ t, (e.event s).bind (unwind n) = some t ∧ Alive t 1 := by
  have hevent : e.event s = connectionError s := by
    cases e with
    | endsession => exact absurd rfl he.1
    | sessionTimer => exact absurd rfl he.2
    | _ => rfl
  obtain ⟨t1, ht1, h1⟩ := h.connectionError
  rw [hevent, ht1, Option.bind_some]
  exact unwind_alive n h1

/-- **Context lifetime.** However many packets were read before and whatever they left in the queue, a context ends
soundly exactly if the connection is ended by `CMD_ENDSESSION`, or by the session timer while an iteration of
`readEvent` for it is in progress. -/
theorem lifetime_iff (n : ℕ) (works : List (List Bool × Bool)) (e : End) :
    Sound n works e ↔ e = .endsession ∨ (e = .sessionTimer ∧ 0 < n) := by
  have hstart : Alive (accepted n) (n + 1) := ⟨rfl, Int.add_comm 1 n, rfl⟩
  obtain ⟨s, hs, hat⟩ := hstart.works (by omega) works
  have hconn : connection n works e = (e.event s).bind (unwind n) := by
    rw [connection, hs]
    rfl
  rw [Sound, hconn]
  by_cases hend : e = .endsession
  · subst hend
    obtain ⟨t, ht, hgone⟩ := sound_endsession n hat
    exact iff_of_true ⟨t, ht, hgone.under_eq, hgone.frees_eq⟩ (.inl rfl)
  by_cases htimer : e = .sessionTimer
  · subst htimer
    by_cases hn : 0 < n
    · obtain ⟨t, ht, hgone⟩ := sound_timer n hn hat
      exact iff_of_true ⟨t, ht, hgone.under_eq, hgone.frees_eq⟩ (.inr ⟨rfl, hn⟩)
    · obtain rfl : n = 0 := by omega
      refine iff_of_false ?_ ?_
      · rintro ⟨t, ht, -⟩
        have hnone : End.event .sessionTimer s = none := Alive.shutdownSession_last (by simpa using hat)
        rw [hnone] at ht
        cases ht
      · rintro (h | ⟨-, h⟩)
        · exact hend h
        · exact hn h
  · obtain ⟨t, ht, halive⟩ := leaked_error n e ⟨hend, htimer⟩ hat
    refine iff_of_false ?_ ?_
    · rintro ⟨t', ht', -, hfrees⟩
      rw [ht] at ht'
      cases ht'
      rw [halive.frees_eq] at hfrees
      cases hfrees
    · rintro (h | ⟨h, -⟩)
      · exact hend h
      · exact htimer h

/-- The timer of a session on an idle connection. -/
theorem timer_use_after_free : ¬Sound 0 [([false], true)] .sessionTimer := by
  have hnone : connection 0 [([false], true)] .sessionTimer = none := rfl
  rintro ⟨t, ht, -⟩
  rw [hnone] at ht
  cases ht

end Mand.Net.Lifetime
