import Mand.Store.Plain
import Mand.Server.Deletion
import Mand.Server.Commit

/-! # Pending values are private

A value that the configure session has set and not committed is read back by that session, and by no
other. -/
namespace Mand.Server
open Mand.Store Mand.Index Mand.Msg Mand.Bytes
set_option autoImplicit false

variable {env : Env} {st st2 : DmStore} {cache cache2 : Cache}

/-! ## Requests do not look at marks -/

/-- A function that commutes with taking off marks gives the same, up to marks, for alike stores. -/
theorem alike_of_plain {α : Type} (f : DmStore → Option (α × DmStore))
    (hf : ∀ st, f (plain st) = (f st).map plainSnd) (h : plain st = plain st2) :
    (f st).map plainSnd = (f st2).map plainSnd := by
  rw [← hf, ← hf, h]

theorem plain_setEntry (env : Env) (st : DmStore) (e : DmElement) (r : Addr) (clear : Bool) (avp : Avp) :
    setEntry env (plain st) e r clear avp = (setEntry env st e r clear avp).map plainSnd := by
  simp only [setEntry, plain_slot]
  apply map_bind_plain
  intro old _
  apply bind_plain
  intro u _
  have hold : (if clear = true then newValue (zeroValue e.type) else plainValue old) =
      plainValue (if clear = true then newValue (zeroValue e.type) else old) := by
    split <;> rfl
  simp only [hold]
  generalize (if clear = true then newValue (zeroValue e.type) else old) = w
  cases env.avp2value e avp with
  | error err =>
    simp only [plain_setSlot]
    exact map_bind_plain fun _ _ => rfl
  | ok v =>
    show ((plain st).setSlot r 0 (plainValue (markUpdated { w with content := .scalar v }))).bind _ = _
    rw [plain_setSlot]
    apply map_bind_plain
    intro st1 _
    simp only [plain_updateInstanceNodeIndex]
    exact map_bind_plain fun _ _ => rfl

theorem plain_setEntries (env : Env) (sel : Selector) (e : DmElement) (clear : Bool) (last : Option SetResult)
    (id : ℕ) (avps : List Avp) (st : DmStore) :
    setEntries env sel e clear last id avps (plain st) =
      (setEntries env sel e clear last id avps st).map plainSnd := by
  induction avps generalizing id st with
  | nil => cases last <;> rfl
  | cons avp avps ih =>
    simp only [setEntries, plain_addInstanceBySelector]
    apply map_bind_plain
    intro x _
    obtain ⟨r, st1⟩ := x
    cases r with
    | none => rfl
    | some r =>
      simp only [plainSnd, plain_node]
      apply map_bind_plain
      intro n _
      simp only [plain_setEntry]
      apply map_bind_plain
      intro y _
      obtain ⟨res, st2⟩ := y
      by_cases hres : res = .ok
      · rw [if_pos hres]
        exact (if_pos hres).trans (ih _ st2)
      · rw [if_neg hres]
        exact if_neg hres

theorem plain_setArray (env : Env) (st : DmStore) (sel : Selector) (e : DmElement) (l : Loc) (avp : Avp) :
    setArray env (plain st) sel e l avp = (setArray env st sel e l avp).map plainSnd := by
  simp only [setArray, plain_value]
  apply map_bind_plain
  intro v _
  rw [plainValue_content]
  split
  · rfl
  split
  · rfl
  rw [plain_delTableBySelector]
  apply map_bind_plain
  intro x _
  obtain ⟨found, st1⟩ := x
  by_cases hf : found = false
  · rw [if_pos hf]
    exact if_pos hf
  rw [if_neg hf]
  refine (if_neg hf).trans ?_
  obtain ⟨entries, last⟩ := avpEntries avp
  cases entries with
  | nil => cases last <;> rfl
  | cons avp0 rest =>
    apply bind_plain
    intro e0 _
    exact plain_setEntries env sel e0 _ last 1 (avp0 :: rest) st1

/-- What a request leaves, without the cache. -/
def plainSet {α : Type} (x : α × DmStore × Cache) : α × DmStore := (x.1, plain x.2.1)

theorem setCb_alike (env : Env) (cache cache2 : Cache) (h : plain st = plain st2) (flags : ℕ) (sel : Selector) (ref : Ref) (avp : Avp) :
    (setCb env st cache flags sel ref avp).map plainSet = (setCb env st2 cache2 flags sel ref avp).map plainSet := by
  unfold setCb
  by_cases harr : ref.elem.flags.array = true
  · rw [if_pos harr, if_pos harr]
    have hset := alike_of_plain (fun st => setArray env st sel ref.elem ref.value avp)
      (fun st => plain_setArray env st sel ref.elem ref.value avp) h
    cases h1 : setArray env st sel ref.elem ref.value avp with
    | none =>
      rw [h1] at hset
      have h2 := Option.map_eq_none_iff.mp hset.symm
      rw [h2]
      rfl
    | some x =>
      rw [h1] at hset
      obtain ⟨y, h2, hy⟩ := Option.map_eq_some_iff.mp hset.symm
      rw [h2]
      exact congrArg some hy.symm
  rw [if_neg harr, if_neg harr]
  cases env.avp2value ref.elem avp with
  | error err => exact congrArg (fun x => some (SetResult.dm err, x)) h
  | ok v =>
    by_cases hcfg : configure flags = true
    · simp only [if_pos hcfg]
      -- the value gets a mark in both stores
      have hval : (st.value ref.value).map plainValue = (st2.value ref.value).map plainValue := by
        rw [← plain_value, ← plain_value, h]
      cases h1 : st.value ref.value with
      | none =>
        rw [h1] at hval
        have h2 := Option.map_eq_none_iff.mp hval.symm
        rw [h2]
        rfl
      | some w =>
        rw [h1] at hval
        obtain ⟨w2, h2, hw⟩ := Option.map_eq_some_iff.mp hval.symm
        obtain ⟨st', hst'⟩ := DmStore.setValue_some h1 (setPending true w)
        obtain ⟨st2', hst2'⟩ := DmStore.setValue_some h2 (setPending true w2)
        have hpend : plainValue (setPending true w) = plainValue (setPending true w2) := by
          have heach : ∀ u : DmValue, plainValue (setPending true u) = { plainValue u with parity := true } :=
            fun _ => rfl
          rw [heach, heach, hw]
        have hsame : plain st' = plain st2' := by
          have hp := plain_setValue st (setPending true w) ref.value
          have hp2 := plain_setValue st2 (setPending true w2) ref.value
          rw [hst', h, hpend, hp2, hst2'] at hp
          exact (Option.some.inj hp).symm
        simp only [h2, hst', hst2', Option.bind_eq_bind, Option.bind_some, Option.map_some, plainSet, hsame]
    · simp only [if_neg hcfg]
      have hset := alike_of_plain (fun st => overwriteValue env.undef env.schema st sel (markUpdated (newValue v)))
        (fun st => plain_overwriteValue env.undef env.schema st sel (markUpdated (newValue v)) rfl) h
      cases h1 : overwriteValue env.undef env.schema st sel (markUpdated (newValue v)) with
      | none =>
        rw [h1] at hset
        have h2 := Option.map_eq_none_iff.mp hset.symm
        rw [h2]
        rfl
      | some x =>
        rw [h1] at hset
        obtain ⟨y, h2, hy⟩ := Option.map_eq_some_iff.mp hset.symm
        obtain ⟨r, st'⟩ := x
        obtain ⟨r2, st2'⟩ := y
        obtain ⟨rfl, hst⟩ := Prod.mk.inj hy
        rw [h2]
        simp only [Option.bind_eq_bind, Option.bind_some, Option.map_some, plainSet]
        have hst : plain st2' = plain st' := hst
        rw [hst]

theorem dbSet_alike (env : Env) (flags : ℕ) (values : List (Selector × Avp)) (st st2 : DmStore) (cache cache2 : Cache)
    (h : plain st = plain st2) :
    (dbSet env flags values st cache).map plainSet = (dbSet env flags values st2 cache2).map plainSet := by
  induction values generalizing st st2 cache cache2 with
  | nil => exact congrArg (fun x => some (Rc.ok, x)) h
  | cons x rest ih =>
    obtain ⟨sel, avp⟩ := x
    have href : st.getElementRef env.schema sel = st2.getElementRef env.schema sel := by
      rw [← plain_getElementRef, h, plain_getElementRef]
    simp only [dbSet, href]
    cases st2.getElementRef env.schema sel with
    | none => rfl
    | some r =>
      cases r with
      | none => exact congrArg (fun x => some (Rc.errValueNotFound, x)) h
      | some ref =>
        have hcb := setCb_alike env cache cache2 h flags sel ref avp
        simp only [Option.bind_eq_bind, Option.bind_some]
        cases h1 : setCb env st cache flags sel ref avp with
        | none =>
          rw [h1] at hcb
          have h2 := Option.map_eq_none_iff.mp hcb.symm
          rw [h2]
        | some y =>
          rw [h1] at hcb
          obtain ⟨y2, h2, hy⟩ := Option.map_eq_some_iff.mp hcb.symm
          obtain ⟨r, st', cache'⟩ := y
          obtain ⟨r2, st2', cache2'⟩ := y2
          obtain ⟨hr, hst⟩ := Prod.mk.inj hy
          have hr : r2 = r := hr
          have hst : plain st2' = plain st' := hst
          subst hr
          rw [h2]
          simp only [Option.bind_some]
          by_cases hok : r2 = .ok
          · simp only [if_pos hok]
            exact ih st' st2' cache' cache2' hst.symm
          · simp only [if_neg hok]
            exact congrArg (fun x => some (r2.toRc, x)) hst.symm

/-! ## Sessions that see the same -/

/-- Two states that differ in marks and in the cache only. -/
structure Alike (s s2 : State) : Prop where
  store : plain s.store = plain s2.store
  cfg : s.cfgSessionId = s2.cfgSessionId
  counter : s.sessionCounter = s2.sessionCounter
  ctxs : s.ctxs = s2.ctxs

theorem Alike.ctx {s s2 : State} (h : Alike s s2) (key : ℕ) : s.ctx key = s2.ctx key := by
  unfold State.ctx
  rw [h.ctxs]

theorem Alike.setCtx {s s2 : State} (h : Alike s s2) (c : Ctx) : Alike (s.setCtx c) (s2.setCtx c) := by
  refine ⟨h.store, h.cfg, h.counter, ?_⟩
  unfold State.setCtx
  rw [h.ctxs]

/-- The configure session is not given up. -/
theorem leave_alike {s s2 s' : State} {c : Ctx} (h : Alike s s2) (hs : s.leave c = some s')
    (hcfg : s'.cfgSessionId ≠ 0) : ∃ s2', s2.leave c = some s2' ∧ Alike s' s2' := by
  obtain ⟨-, -, hcases⟩ := leave_cases hs
  have hne : s.cfgSessionId ≠ c.id := by
    cases hcases with
    | inl hh => exact absurd hh.2.1 hcfg
    | inr hh => exact hh.1
  unfold State.leave at hs ⊢
  rw [if_neg hne] at hs
  cases hs
  refine ⟨s2, ?_, h⟩
  rw [if_neg]
  rw [← h.cfg]
  exact hne

theorem endSession_alike {s s2 s' : State} {c : Ctx} (h : Alike s s2) (hs : endSession s c = some s')
    (hcfg : s'.cfgSessionId ≠ 0) : ∃ s2', endSession s2 c = some s2' ∧ Alike s' s2' := by
  simp only [endSession, Option.bind_eq_bind, Option.bind_eq_some_iff, Option.some.injEq] at hs
  obtain ⟨s1, h1, rfl⟩ := hs
  obtain ⟨s3, h3, ha⟩ := leave_alike h h1 hcfg
  refine ⟨{ s3 with ctxs := s3.ctxs.filter fun d => d.key ≠ c.key }, ?_, ?_⟩
  · simp only [endSession, h3, Option.bind_eq_bind, Option.bind_some]
  · refine ⟨ha.store, ha.cfg, ha.counter, ?_⟩
    show s1.ctxs.filter _ = s3.ctxs.filter _
    rw [ha.ctxs]

theorem startSession_alike {s s2 : State} (h : Alike s s2) (c : Ctx) (flags : ℕ) :
    (startSession s c flags).1 = (startSession s2 c flags).1 ∧
      Alike (startSession s c flags).2 (startSession s2 c flags).2 := by
  unfold startSession
  rw [← h.cfg, ← h.counter]
  by_cases hid : c.id ≠ 0
  · rw [if_pos hid, if_pos hid]
    exact ⟨rfl, h⟩
  rw [if_neg hid, if_neg hid]
  by_cases hbusy : configure flags = true ∧ s.cfgSessionId ≠ 0
  · rw [if_pos hbusy, if_pos hbusy]
    exact ⟨rfl, h⟩
  rw [if_neg hbusy, if_neg hbusy]
  refine ⟨rfl, ?_⟩
  by_cases hconf : configure flags = true
  · simp only [if_pos hconf]
    refine ⟨h.store, rfl, rfl, ?_⟩
    simp only [State.setCtx, h.ctxs]
  · simp only [if_neg hconf, ← h.counter]
    refine ⟨h.store, h.cfg, congrArg nextCounter h.counter, ?_⟩
    simp only [State.setCtx, h.ctxs]

theorem switchSession_alike {s s2 s' : State} {c : Ctx} {flags : ℕ} {rc : Rc} (h : Alike s s2)
    (hs : switchSession s c flags = some (rc, s')) (hcfg : s'.cfgSessionId ≠ 0) :
    ∃ s2', switchSession s2 c flags = some (rc, s2') ∧ Alike s' s2' := by
  unfold switchSession at hs ⊢
  rw [← h.cfg]
  by_cases hid : c.id = 0
  · rw [if_pos hid] at hs ⊢
    cases hs
    exact ⟨s2, rfl, h⟩
  rw [if_neg hid] at hs ⊢
  by_cases hconf : configure flags = true
  · rw [if_pos hconf] at hs ⊢
    by_cases hbusy : s.cfgSessionId ≠ 0 ∧ s.cfgSessionId ≠ c.id
    · rw [if_pos hbusy] at hs ⊢
      cases hs
      exact ⟨s2, rfl, h⟩
    · rw [if_neg hbusy] at hs ⊢
      cases hs
      refine ⟨_, rfl, h.store, rfl, h.counter, ?_⟩
      simp only [State.setCtx, h.ctxs]
  · rw [if_neg hconf] at hs ⊢
    simp only [Option.bind_eq_bind, Option.bind_eq_some_iff, Option.some.injEq, Prod.mk.injEq] at hs
    obtain ⟨s1, h1, rfl, rfl⟩ := hs
    obtain ⟨s3, h3, ha⟩ := leave_alike h h1 hcfg
    rw [h3]
    exact ⟨_, rfl, ha.setCtx _⟩

theorem afterRequest_alike {s s2 s' : State} {key : ℕ} {rc rc' : Rc} (h : Alike s s2)
    (hs : afterRequest s key rc = some (rc', s')) (hcfg : s'.cfgSessionId ≠ 0) :
    ∃ s2', afterRequest s2 key rc = some (rc', s2') ∧ Alike s' s2' := by
  unfold afterRequest at hs ⊢
  by_cases hrc : rc = .errAlloc
  · rw [if_pos hrc] at hs ⊢
    simp only [Option.bind_eq_bind, Option.bind_eq_some_iff, Option.some.injEq, Prod.mk.injEq] at hs
    obtain ⟨c, hc, s1, h1, rfl, rfl⟩ := hs
    obtain ⟨s3, h3, ha⟩ := endSession_alike h h1 hcfg
    rw [h.ctx] at hc
    exact ⟨s3, by simp only [hc, h3, Option.bind_eq_bind, Option.bind_some], ha⟩
  · rw [if_neg hrc] at hs ⊢
    cases hs
    exact ⟨s2, rfl, h⟩

/-- A commit or a cancel of the session `id`. -/
def settles (s : State) : Event → Bool
  | .commit key _ => (s.ctx key).any fun c => c.id = s.cfgSessionId
  | .cancel key => (s.ctx key).any fun c => c.id = s.cfgSessionId
  | _ => false

/-- Every other event does the same in both states while the configure session stays open. -/
theorem step_alike {s s2 s' : State} {ev : Event} {rc : Rc} (h : Alike s s2)
    (hs : step env s ev = some (rc, s')) (hset : settles s ev = false) (hcfg : s'.cfgSessionId ≠ 0) :
    ∃ s2', step env s2 ev = some (rc, s2') ∧ Alike s' s2' := by
  cases ev with
  | accept =>
    cases hs
    refine ⟨_, rfl, h.store, h.cfg, h.counter, ?_⟩
    simp only [State.freshKey, h.ctxs]
  | startSession key flags =>
    obtain ⟨c, hc, hs⟩ := Option.bind_eq_some_iff.mp hs
    obtain ⟨h1, h2⟩ := startSession_alike h c flags
    rw [Option.some.inj hs] at h1 h2
    refine ⟨(startSession s2 c flags).2, ?_, h2⟩
    rw [h.ctx] at hc
    have h1 : rc = (startSession s2 c flags).1 := h1
    simp only [step, hc, Option.bind_eq_bind, Option.bind_some, h1]
  | switchSession key flags =>
    obtain ⟨c, hc, hs⟩ := Option.bind_eq_some_iff.mp hs
    obtain ⟨s3, h3, ha⟩ := switchSession_alike h hs hcfg
    rw [h.ctx] at hc
    exact ⟨s3, by simp only [step, hc, h3, Option.bind_eq_bind, Option.bind_some], ha⟩
  | endSession key =>
    simp only [step, Option.bind_eq_bind, Option.bind_eq_some_iff, Option.some.injEq, Prod.mk.injEq] at hs
    obtain ⟨c, hc, s1, h1, rfl, rfl⟩ := hs
    obtain ⟨s3, h3, ha⟩ := endSession_alike h h1 hcfg
    rw [h.ctx] at hc
    exact ⟨s3, by simp only [step, hc, h3, Option.bind_eq_bind, Option.bind_some], ha⟩
  | set key values =>
    simp only [step, Option.bind_eq_bind, Option.bind_eq_some_iff, Prod.exists] at hs
    obtain ⟨c, hc, rc1, st1, cache1, h1, hs⟩ := hs
    have hset := dbSet_alike env c.flags values s.store s2.store s.cache s2.cache h.store
    rw [h1] at hset
    obtain ⟨⟨rc2, st2, cache2⟩, h2, hy⟩ := Option.map_eq_some_iff.mp hset.symm
    obtain ⟨hr, hst⟩ := Prod.mk.inj hy
    have hr : rc2 = rc1 := hr
    have hst : plain st2 = plain st1 := hst
    subst hr
    have hmid : Alike { s with store := st1, cache := cache1 } { s2 with store := st2, cache := cache2 } :=
      ⟨hst.symm, h.cfg, h.counter, h.ctxs⟩
    obtain ⟨s3, h3, ha⟩ := afterRequest_alike hmid hs hcfg
    rw [h.ctx] at hc
    exact ⟨s3, by simp only [step, hc, h2, h3, Option.bind_eq_bind, Option.bind_some], ha⟩
  | addInstance key sel id =>
    simp only [step, Option.bind_eq_bind, Option.bind_eq_some_iff, Prod.exists, Option.some.injEq,
      Prod.mk.injEq] at hs
    obtain ⟨c, hc, r, st1, h1, rfl, rfl⟩ := hs
    have hadd := alike_of_plain (fun st => addInstanceBySelector env.schema st sel (id % 2 ^ 16))
      (fun st => plain_addInstanceBySelector env.schema st sel (id % 2 ^ 16)) h.store
    simp only [h1] at hadd
    obtain ⟨⟨r2, st2⟩, h2, hy⟩ := Option.map_eq_some_iff.mp hadd.symm
    obtain ⟨hr, hst⟩ := Prod.mk.inj hy
    have hr : r2 = r := hr
    have hst : plain st2 = plain st1 := hst
    subst hr
    rw [h.ctx] at hc
    exact ⟨{ s2 with store := st2 }, by simp only [step, hc, h2, Option.bind_eq_bind, Option.bind_some],
      hst.symm, h.cfg, h.counter, h.ctxs⟩
  | delInstance key sel =>
    simp only [step, Option.bind_eq_bind, Option.bind_eq_some_iff, Prod.exists, Option.some.injEq,
      Prod.mk.injEq] at hs
    obtain ⟨c, hc, found, st1, h1, rfl, rfl⟩ := hs
    have hdel := alike_of_plain (fun st => delTableBySelector env.schema st sel)
      (fun st => plain_delTableBySelector env.schema st sel) h.store
    simp only [h1] at hdel
    obtain ⟨⟨found2, st2⟩, h2, hy⟩ := Option.map_eq_some_iff.mp hdel.symm
    obtain ⟨hr, hst⟩ := Prod.mk.inj hy
    have hr : found2 = found := hr
    have hst : plain st2 = plain st1 := hst
    subst hr
    rw [h.ctx] at hc
    exact ⟨{ s2 with store := st2 }, by simp only [step, hc, h2, Option.bind_eq_bind, Option.bind_some],
      hst.symm, h.cfg, h.counter, h.ctxs⟩
  | commit key order =>
    obtain ⟨c, hc, hs⟩ := Option.bind_eq_some_iff.mp hs
    have hid : c.id ≠ s.cfgSessionId := by simpa [settles, hc] using hset
    unfold commit at hs
    rw [if_pos hid] at hs
    cases hs
    rw [h.ctx] at hc
    rw [h.cfg] at hid
    exact ⟨s2, by simp only [step, hc, Option.bind_eq_bind, Option.bind_some, commit, if_pos hid], h⟩
  | cancel key =>
    obtain ⟨c, hc, hs⟩ := Option.bind_eq_some_iff.mp hs
    have hid : c.id ≠ s.cfgSessionId := by simpa [settles, hc] using hset
    unfold cancel at hs
    rw [if_pos hid] at hs
    cases hs
    rw [h.ctx] at hc
    rw [h.cfg] at hid
    exact ⟨s2, by simp only [step, hc, Option.bind_eq_bind, Option.bind_some, cancel, if_pos hid], h⟩

end Mand.Server
