import Mand.Server.Discard

/-! # Who may write

The checks that stand before a commit, a cancel and the requests that write to the running store. The
id 0 means both that a context has no session and that nobody holds the configure session. -/
namespace Mand.Server
open Mand.Store Mand.Index Mand.Msg
set_option autoImplicit false

/-! ## Commit and cancel -/

/-- The context holds the configure session. -/
structure Holder (s : State) (c : Ctx) : Prop where
  id_ne : c.id ≠ 0
  id_eq : c.id = s.cfgSessionId
  configures : c.configures

/-- `rpc_cfgsessioninfo`: the id of the configure session and the flags of its context. -/
def cfgSessionInfo (s : State) : Except Rc (ℕ × ℕ) :=
  match s.ctxs.find? fun c => c.id = s.cfgSessionId with
  | none => .error .errInvalidSessionId
  | some c => .ok (s.cfgSessionId, c.flags)

/-- Only the holder of the configure session commits, cancels and is reported. -/
structure Authority (env : Env) (s : State) : Prop where
  commit : ∀ key c order s', s.ctx key = some c → step env s (.commit key order) = some (.ok, s') →
    Holder s c
  cancel : ∀ key c s', s.ctx key = some c → step env s (.cancel key) = some (.ok, s') → Holder s c
  info : ∀ id flags, cfgSessionInfo s = .ok (id, flags) →
    ∃ c ∈ s.ctxs, Holder s c ∧ id = c.id ∧ flags = c.flags

section Authority
variable {env : Env} {s s' : State} {c : Ctx} {key : ℕ}

/-- A commit that succeeds comes from a context whose id is `cfg_session_id`. -/
theorem commit_ok_id {order : List Selector} (hc : s.ctx key = some c)
    (hs : step env s (.commit key order) = some (.ok, s')) : c.id = s.cfgSessionId := by
  obtain ⟨d, hd, hs⟩ := Option.bind_eq_some_iff.mp hs
  rw [hc] at hd
  cases hd
  rcases commit_cases env hs with ⟨hrc, -, -⟩ | ⟨-, hid, -⟩ | ⟨-, hid, -⟩
  · cases hrc
  · exact hid
  · exact hid

theorem cancel_ok_id (hc : s.ctx key = some c) (hs : step env s (.cancel key) = some (.ok, s')) :
    c.id = s.cfgSessionId := by
  obtain ⟨d, hd, hs⟩ := Option.bind_eq_some_iff.mp hs
  rw [hc] at hd
  cases hd
  unfold Server.cancel at hs
  by_cases hid : c.id ≠ s.cfgSessionId
  · rw [if_pos hid] at hs
    cases hs
  · exact not_not.mp hid

theorem cfgSessionInfo_ok {id flags : ℕ} (h : cfgSessionInfo s = .ok (id, flags)) :
    ∃ c ∈ s.ctxs, c.id = s.cfgSessionId ∧ id = c.id ∧ flags = c.flags := by
  unfold cfgSessionInfo at h
  cases hf : s.ctxs.find? fun c => c.id = s.cfgSessionId with
  | none =>
    simp only [hf] at h
    cases h
  | some d =>
    simp only [hf] at h
    cases h
    have hid : d.id = s.cfgSessionId := by simpa using List.find?_some hf
    exact ⟨d, List.mem_of_find?_eq_some hf, hid, hid.symm, rfl⟩

/-- While a configure session is open, the id names its holder. -/
theorem SessionInv.holder_of_id (h : SessionInv s) (hc : c ∈ s.ctxs) (hid : c.id = s.cfgSessionId)
    (hne : s.cfgSessionId ≠ 0) : Holder s c :=
  ⟨hid ▸ hne, hid, (h.holder c hc).mpr ⟨hid, hne⟩⟩

/-- Without one, a context without a session passes the check of `rpc_db_cancel`. -/
theorem cancel_idle (h : SessionInv s) (hc : s.ctx key = some c) (hid : c.id = 0)
    (hcfg : s.cfgSessionId = 0) : ∃ s', step env s (.cancel key) = some (.ok, s') := by
  have hcache : s.cache = [] := by
    by_contra hne
    exact h.cached hne hcfg
  refine ⟨{ s with cache := [] }, ?_⟩
  simp only [step, hc, Option.bind_eq_bind, Option.bind_some, Server.cancel, hid, hcfg, ne_eq,
    not_true, if_false, State.resetCache, hcache, cacheReset]

theorem SessionInv.authority_iff (h : SessionInv s) (env : Env) :
    Authority env s ↔ s.cfgSessionId ≠ 0 ∨ ∀ c ∈ s.ctxs, c.id ≠ 0 := by
  constructor
  · intro ha
    by_contra hno
    simp only [not_or, not_not, not_forall] at hno
    obtain ⟨hcfg, c, hc, hid⟩ := hno
    have hctx : ∃ d, s.ctx c.key = some d := by
      apply Option.isSome_iff_exists.mp
      unfold State.ctx
      rw [List.find?_isSome]
      exact ⟨c, hc, by simp⟩
    obtain ⟨d, hd⟩ := hctx
    have hdc : d = c := h.key_inj d c (ctx_mem hd).1 hc (ctx_mem hd).2
    have hidle : ∃ s', step env s (.cancel c.key) = some (.ok, s') :=
      cancel_idle h hd (hdc ▸ hid) hcfg
    obtain ⟨s', hs'⟩ := hidle
    exact (ha.cancel c.key d s' hd hs').id_ne (hdc ▸ hid)
  · intro hor
    -- An id that equals `cfg_session_id` is not 0.
    have hne : ∀ c ∈ s.ctxs, c.id = s.cfgSessionId → s.cfgSessionId ≠ 0 := by
      intro c hc hid
      cases hor with
      | inl hcfg => exact hcfg
      | inr hall =>
        rw [← hid]
        exact hall c hc
    constructor
    · intro key c order s' hc hs
      have hmem := (ctx_mem hc).1
      have hid := commit_ok_id hc hs
      exact h.holder_of_id hmem hid (hne c hmem hid)
    · intro key c s' hc hs
      have hmem := (ctx_mem hc).1
      have hid := cancel_ok_id hc hs
      exact h.holder_of_id hmem hid (hne c hmem hid)
    · intro id flags hi
      obtain ⟨c, hc, hid, heq, hf⟩ := cfgSessionInfo_ok hi
      exact ⟨c, hc, h.holder_of_id hc hid (hne c hc hid), heq, hf⟩

end Authority

/-- **Commit authority.** In every state that the server reaches with fewer than `2 ^ 32 - 1` session
starts, only the holder of the configure session can commit, cancel and be reported, exactly if the
configure session is open or every connection has a session. -/
theorem commit_authority (env : Env) (s0 s : State) (h0 : init env = some s0) (evs : List Event)
    (hrun : run env s0 evs = some s) (hstarts : sessionStarts env s0 evs < 2 ^ 32 - 1) :
    Authority env s ↔ s.cfgSessionId ≠ 0 ∨ ∀ c ∈ s.ctxs, c.id ≠ 0 := by
  obtain ⟨h, hcnt⟩ := init_inv env s0 h0
  exact (run_inv env evs s0 s h hrun (by omega)).authority_iff env

theorem commit_authority_sample :
    ∃ s0 s, init sampleEnv = some s0 ∧ run sampleEnv s0 sampleSessions = some s ∧
      Authority sampleEnv s := by
  have h : ((init sampleEnv).bind fun s0 => (run sampleEnv s0 sampleSessions).map fun s =>
      (decide (s.cfgSessionId ≠ 0), sessionStarts sampleEnv s0 sampleSessions)) = some (true, 2) := by
    decide +kernel
  obtain ⟨s0, h0, h⟩ := Option.bind_eq_some_iff.mp h
  obtain ⟨s, hrun, h⟩ := Option.map_eq_some_iff.mp h
  obtain ⟨hcfg, hstarts⟩ := Prod.mk.inj h
  refine ⟨s0, s, h0, hrun, ?_⟩
  apply (commit_authority sampleEnv s0 s h0 sampleSessions hrun (by rw [hstarts]; decide)).mpr
  exact Or.inl (of_decide_eq_true hcfg)

/-- A client that has only connected commits and cancels with success, and is reported as the holder of
the configure session 0. -/
theorem commit_without_session :
    ∃ s0 s, init sampleEnv = some s0 ∧ run sampleEnv s0 [.accept] = some s ∧
      s.ctx 1 = some ⟨1, 0, 0⟩ ∧ (step sampleEnv s (.commit 1 [])).map Prod.fst = some .ok ∧
      (step sampleEnv s (.cancel 1)).map Prod.fst = some .ok ∧ cfgSessionInfo s = .ok (0, 0) ∧
      ¬Holder s ⟨1, 0, 0⟩ ∧ ¬Authority sampleEnv s := by
  refine ⟨⟨sampleStore, [], 0, 1, []⟩, ⟨sampleStore, [], 0, 1, [⟨1, 0, 0⟩]⟩, rfl, rfl, rfl, rfl, rfl, rfl,
    fun hh => hh.id_ne rfl, ?_⟩
  intro ha
  exact (ha.cancel 1 ⟨1, 0, 0⟩ _ rfl rfl).id_ne rfl

/-! ## Requests that write

No handler of `rpc_db_set`, `rpc_db_addinstance` and `rpc_db_delinstance` looks at the configure
session. What keeps the store as it is are the checks of the request itself. -/

/-- A step of a run. -/
structure Moved where
  before : State
  event : Event
  after : State

/-- The steps of a run. -/
def trace (env : Env) : State → List Event → List Moved
  | _, [] => []
  | s, ev :: evs =>
    match step env s ev with
    | none => []
    | some (_, s') => ⟨s, ev, s'⟩ :: trace env s' evs

/-- The connection of a request that writes. -/
def Event.writer : Event → Option ℕ
  | .set key _ => some key
  | .addInstance key _ _ => some key
  | .delInstance key _ => some key
  | _ => none

/-- The request comes from a connection while a context of another one holds the configure session. -/
def Moved.Foreign (x : Moved) : Prop :=
  ∃ key, x.event.writer = some key ∧ ∃ d ∈ x.before.ctxs, Holder x.before d ∧
    ∀ c, x.before.ctx key = some c → c.id ≠ d.id

/-- `dmconfig_set_cb` refuses the value: the path leads nowhere, the value does not fit the element,
or an array is not given as one. -/
def refusedValue (env : Env) (st : DmStore) (sel : Selector) (avp : Avp) : Bool :=
  match st.getElementRef env.schema sel with
  | some (some ref) =>
    if ref.elem.flags.array = true then bypasses env.schema sel avp = false
    else match env.avp2value ref.elem avp with
      | .ok _ => false
      | .error _ => true
  | _ => true

/-- `dm_add_instance` refuses: the path is not that of an object, or the object is full. -/
def refusedAdd (S : Schema) (st : DmStore) (sel : Selector) : Bool :=
  match st.getElementRef S sel with
  | some (some ref) =>
    if ref.stType = .object then
      match ref.value with
      | .slot a i =>
        match st.tree a i with
        | some (some t) => ref.elem.max ≤ t.tree.cnt
        | _ => false
      | .row _ => false
    else true
  | _ => true

/-- There is nothing to delete: the path leads nowhere, or to an object without rows. -/
def refusedDel (S : Schema) (st : DmStore) (sel : Selector) : Bool :=
  match st.getElementRef S sel with
  | some (some ref) =>
    match ref.stType, ref.value with
    | .object, .slot a i => instanceRoot st a i = some none
    | _, _ => false
  | _ => true

/-- The request is refused by its own checks. -/
def refused (env : Env) (st : DmStore) : Event → Bool
  | .set _ [] => true
  | .set _ ((sel, avp) :: _) => refusedValue env st sel avp
  | .addInstance _ sel _ => refusedAdd env.schema st sel
  | .delInstance _ sel => refusedDel env.schema st sel
  | _ => false

section Refused
variable {env : Env} {st st' : DmStore} {sel : Selector}

theorem dbSet_refused {flags : ℕ} {values : List (Selector × Avp)} {cache cache' : Cache} {rc : Rc}
    (hr : ∀ p rest, values = p :: rest → refusedValue env st p.1 p.2 = true)
    (hs : dbSet env flags values st cache = some (rc, st', cache')) : st' = st := by
  cases values with
  | nil =>
    cases hs
    rfl
  | cons p rest =>
    obtain ⟨sel, avp⟩ := p
    have hrv : refusedValue env st sel avp = true := hr (sel, avp) rest rfl
    unfold dbSet at hs
    obtain ⟨ref, href, hs⟩ := Option.bind_eq_some_iff.mp hs
    cases ref with
    | none =>
      cases hs
      rfl
    | some ref =>
      obtain ⟨⟨r, st1, cache1⟩, hcb, hs⟩ := Option.bind_eq_some_iff.mp hs
      have hcb' : st1 = st ∧ r ≠ .ok := by
        unfold refusedValue at hrv
        simp only [href] at hrv
        unfold setCb at hcb
        by_cases harr : ref.elem.flags.array = true
        · rw [if_pos harr] at hcb hrv
          obtain ⟨⟨r1, st2⟩, hset, hcb⟩ := Option.bind_eq_some_iff.mp hcb
          cases hcb
          exact setArray_same env st st1 sel avp ref r harr href (of_decide_eq_true hrv) hset
        · rw [if_neg harr] at hcb hrv
          cases hv : env.avp2value ref.elem avp with
          | ok v =>
            simp only [hv] at hrv
            cases hrv
          | error err =>
            simp only [hv] at hcb
            cases hcb
            exact ⟨rfl, fun hh => (by cases hh)⟩
      simp only [if_neg hcb'.2] at hs
      cases hs
      exact hcb'.1

theorem addInstance_refused {r : Option Addr} {id : ℕ} (hr : refusedAdd env.schema st sel = true)
    (hs : addInstanceBySelector env.schema st sel id = some (r, st')) : st' = st := by
  unfold addInstanceBySelector at hs
  obtain ⟨ref, href, hs⟩ := Option.bind_eq_some_iff.mp hs
  cases ref with
  | none =>
    cases hs
    rfl
  | some ref =>
    unfold refusedAdd at hr
    simp only [href] at hr
    by_cases hobj : ref.stType = .object
    · simp only [if_pos hobj] at hr
      simp only [hobj, ne_eq, not_true, if_false] at hs
      cases hv : ref.value with
      | row b =>
        simp only [hv] at hr
        cases hr
      | slot a i =>
        simp only [hv] at hr hs
        obtain ⟨⟨r1, st1⟩, hadd, hs⟩ := Option.bind_eq_some_iff.mp hs
        have hsame : r1 = none ∧ st1 = st := by
          unfold addInstance at hadd
          by_cases htype : ref.elem.type ≠ .object
          · rw [if_pos htype] at hadd
            cases hadd
            exact ⟨rfl, rfl⟩
          rw [if_neg htype, href] at hadd
          cases ht : st.tree a i with
          | none =>
            simp only [ht] at hr
            cases hr
          | some o =>
            cases o with
            | none =>
              simp only [ht] at hr
              cases hr
            | some t =>
              simp only [ht, decide_eq_true_eq] at hr
              simp only [Option.bind_eq_bind, Option.bind_some, ensureTree, ht, if_pos hr] at hadd
              cases hadd
              exact ⟨rfl, rfl⟩
        rw [hsame.1] at hs
        cases hs
        exact hsame.2
    · simp only [ne_eq, hobj, not_false_eq_true, if_true] at hs
      cases hs
      rfl

theorem delTable_refused {found : Bool} (hr : refusedDel env.schema st sel = true)
    (hs : delTableBySelector env.schema st sel = some (found, st')) : st' = st := by
  unfold delTableBySelector at hs
  obtain ⟨ref, href, hs⟩ := Option.bind_eq_some_iff.mp hs
  cases ref with
  | none =>
    cases hs
    rfl
  | some ref =>
    unfold refusedDel at hr
    simp only [href] at hr
    obtain ⟨st1, hdel, hs⟩ := Option.bind_eq_some_iff.mp hs
    cases hs
    unfold delRef at hdel
    split at hr
    · rename_i a i hst hv
      have hempty : instanceRoot st a i = some none := of_decide_eq_true hr
      simp only [hst, hv, DmStore.fuel, delObject, hempty, Option.bind_eq_bind, Option.bind_some] at hdel
      cases hdel
      rfl
    · cases hr

end Refused

/-- A session that ends without holding the configure session leaves the store alone. -/
theorem endSession_store {s s' : State} {c : Ctx} (hid : c.id ≠ s.cfgSessionId)
    (hs : endSession s c = some s') : s'.store = s.store := by
  unfold endSession State.leave at hs
  rw [if_neg (Ne.symm hid)] at hs
  cases hs
  rfl

theorem foreign_refused (env : Env) (x : Moved) (rc : Rc) (hf : x.Foreign)
    (hs : step env x.before x.event = some (rc, x.after))
    (hr : refused env x.before.store x.event = true) : x.after.store = x.before.store := by
  obtain ⟨s, ev, s'⟩ := x
  obtain ⟨key, hkey, d, hd, hdh, hother⟩ := hf
  have hs : step env s ev = some (rc, s') := hs
  cases ev with
  | set k values =>
    cases hkey
    obtain ⟨c, hc, hs⟩ := Option.bind_eq_some_iff.mp hs
    obtain ⟨⟨rc1, st1, cache1⟩, hset, hs⟩ := Option.bind_eq_some_iff.mp hs
    have hst : st1 = s.store := by
      apply dbSet_refused ?_ hset
      intro p rest hp
      have hr' : refused env s.store (.set key values) = true := hr
      rw [hp] at hr'
      exact hr'
    have hid : c.id ≠ s.cfgSessionId := by
      have hne : c.id ≠ d.id := hother c hc
      have heq : d.id = s.cfgSessionId := hdh.id_eq
      rw [← heq]
      exact hne
    unfold afterRequest at hs
    by_cases hrc : rc1 = .errAlloc
    · simp only [if_pos hrc] at hs
      obtain ⟨c', hc', hs⟩ := Option.bind_eq_some_iff.mp hs
      obtain ⟨s2, hend, hs⟩ := Option.bind_eq_some_iff.mp hs
      cases hs
      have hcc : c' = c := Option.some.inj (hc'.symm.trans hc)
      have hsame := endSession_store (hcc ▸ hid) hend
      exact hsame.trans hst
    · simp only [if_neg hrc] at hs
      cases hs
      exact hst
  | addInstance k sel id =>
    obtain ⟨c, -, hs⟩ := Option.bind_eq_some_iff.mp hs
    obtain ⟨⟨r, st1⟩, hadd, hs⟩ := Option.bind_eq_some_iff.mp hs
    cases hs
    exact addInstance_refused hr hadd
  | delInstance k sel =>
    obtain ⟨c, -, hs⟩ := Option.bind_eq_some_iff.mp hs
    obtain ⟨⟨found, st1⟩, hdel, hs⟩ := Option.bind_eq_some_iff.mp hs
    cases hs
    exact delTable_refused hr hdel
  | accept => cases hkey
  | startSession k flags => cases hkey
  | switchSession k flags => cases hkey
  | endSession k => cases hkey
  | commit k order => cases hkey
  | cancel k => cases hkey

theorem mem_trace (env : Env) (evs : List Event) (s : State) (x : Moved) (hx : x ∈ trace env s evs) :
    ∃ rc, step env x.before x.event = some (rc, x.after) := by
  induction evs generalizing s with
  | nil => exact absurd hx List.not_mem_nil
  | cons ev evs ih =>
    unfold trace at hx
    cases hstep : step env s ev with
    | none =>
      rw [hstep] at hx
      exact absurd hx List.not_mem_nil
    | some res =>
      obtain ⟨rc, s'⟩ := res
      rw [hstep] at hx
      cases List.mem_cons.mp hx with
      | inl hx =>
        rw [hx]
        exact ⟨rc, hstep⟩
      | inr hx => exact ih s' hx

/-- Two clients; the first holds the configure session. -/
def sampleForeign : List Event := [.accept, .accept, .startSession 1 1, .startSession 2 0]

end Mand.Server
