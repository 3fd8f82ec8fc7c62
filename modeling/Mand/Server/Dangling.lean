import Mand.Server.Keeping

/-! # Items that dangle

An item of the update cache holds references into the store. They stay right as long as nothing is
deleted that its selector leads through. -/
namespace Mand.Server
open Mand.Store Mand.Index Mand.Msg
set_option autoImplicit false

/-- Every item of the cache has a selector that resolves to what the item holds. -/
def CacheResolves (env : Env) (st : DmStore) (cache : Cache) : Prop :=
  ∀ item ∈ cache, ∃ r, st.getElementRef env.schema item.sb = some (some r) ∧
    r.value = item.oldValue ∧ r.base = item.base

/-! ## Deletions that leave the cache alone -/

/-- The path is on the way to none of the selectors. -/
def offPaths (S : Schema) (sel : Selector) (sels : List Selector) : Bool :=
  sels.all fun p => ¬S.path sel <+: S.path p

/-- Arrays that are set past the cache hold no pending value, nor one that the same request set before
(`cfg` tells whether it fills the cache). -/
def sparesValues (S : Schema) (cfg : Bool) : List Selector → List (Selector × Avp) → Bool
  | _, [] => true
  | pending, (sel, avp) :: rest =>
    if bypasses S sel avp = true then offPaths S sel pending && sparesValues S cfg pending rest
    else sparesValues S cfg (if cfg = true then sel :: pending else pending) rest

/-- The event deletes nothing that a pending value is below. -/
def sparesCache (env : Env) (s : State) : Event → Bool
  | .set key values =>
    match s.ctx key with
    | some c => sparesValues env.schema (configure c.flags) (s.cache.map CacheItem.sb) values
    | none => true
  | .delInstance _ sel => offPaths env.schema sel (s.cache.map CacheItem.sb)
  | _ => true

theorem offPaths_iff {S : Schema} {sel : Selector} {sels : List Selector} :
    offPaths S sel sels = true ↔ ∀ p ∈ sels, ¬S.path sel <+: S.path p := by
  simp [offPaths]

/-! ## One step -/

section Step
variable {full : Prop} {env : Env} {st st' : DmStore} {cache cache' : Cache}

/-- A path that leads to a pending value. -/
def towards (S : Schema) (cache : Cache) (p : Selector) : Prop := ∃ item ∈ cache, p <+: S.path item.sb

theorem CacheResolves.keeps (h : CacheResolves env st cache) (hw : HeapWf full nowhere env.schema st)
    (hw' : HeapWf full nowhere env.schema st') (hk : Keeps (towards env.schema cache) st st') :
    CacheResolves env st' cache := by
  intro item hitem
  obtain ⟨r, href, hval, hbase⟩ := h item hitem
  have hat := getElementRef_path hw href
  exact ⟨r, getElementRef_keeps href hk hw hw' hat fun q hq => ⟨item, hitem, hq⟩, hval, hbase⟩

theorem offPaths_towards {S : Schema} {sel : Selector} (h : offPaths S sel (cache.map CacheItem.sb) = true)
    (q : Selector) (hq : S.path sel <+: q) : ¬towards S cache q := by
  intro hd
  obtain ⟨item, hitem, hpre⟩ := hd
  exact offPaths_iff.mp h item.sb (List.mem_map_of_mem hitem) (hq.trans hpre)

/-- `cache_add` on what the selector refers to. -/
theorem CacheResolves.add {sel : Selector} {ref : Ref} {v : DmValue} (h : CacheResolves env st cache)
    (href : st.getElementRef env.schema sel = some (some ref)) :
    CacheResolves env st (cacheAdd cache sel ref.elem ref.base ref.value v) := by
  intro item hitem
  rcases mem_cacheAdd hitem with ⟨hsb, hval, hbase⟩ | ⟨y, hy, hsb, hval, hbase⟩
  · exact ⟨ref, by rw [hsb]; exact href, hval.symm, hbase.symm⟩
  · obtain ⟨r, hr, hrv, hrb⟩ := h y hy
    exact ⟨r, by rw [hsb]; exact hr, by rw [hval]; exact hrv, by rw [hbase]; exact hrb⟩

theorem setCb_resolves {flags : ℕ} {sel : Selector} {ref : Ref} {avp : Avp} {res : SetResult}
    (hwf : StateWf False env st cache) (h : CacheResolves env st cache)
    (href : st.getElementRef env.schema sel = some (some ref))
    (hsp : bypasses env.schema sel avp = true → offPaths env.schema sel (cache.map CacheItem.sb) = true)
    (hs : setCb env st cache flags sel ref avp = some (res, st', cache')) :
    StateWf False env st' cache' ∧ CacheResolves env st' cache' := by
  have hby : bypasses env.schema sel avp = true →
      ¬False ∧ ∀ q, env.schema.path sel <+: q → ¬towards env.schema cache q :=
    fun hb => ⟨id, offPaths_towards (hsp hb)⟩
  obtain ⟨hwf', hk⟩ := hwf.setCb href hby hs
  refine ⟨hwf', ?_⟩
  obtain ⟨hw, -, hcache⟩ := setCb_spec hwf.store href hby hs
  rcases hcache with rfl | ⟨-, hkeeps, v, -, rfl⟩
  · exact h.keeps hwf.store hw hk
  · exact (h.add href).keeps hwf.store hw (hkeeps.mono fun _ _ => trivial)

/-- An array set past the cache is no leaf. -/
theorem bypasses_leaf {S : Schema} {sel : Selector} {ref : Ref} (avp : Avp)
    (hw : HeapWf full nowhere S st) (href : st.getElementRef S sel = some (some ref))
    (hleaf : ref.elem.container = false) : bypasses S sel avp = false := by
  obtain ⟨a, i, -, hvalue, -⟩ := getElementRef_leaf hw href hleaf
  have helem := getElementRef_schema href hvalue
  simp only [DmElement.container, decide_eq_false_iff_not, not_or] at hleaf
  unfold bypasses
  rw [helem]
  split
  · rename_i heq
    simp only [Option.some.injEq, Prod.mk.injEq] at heq
    exact absurd heq.1 hleaf.2
  · rfl

/-- The selectors of a cache after `cache_add`. -/
theorem cacheAdd_sb {sel p : Selector} {e : DmElement} {base : Base} {l : Loc} {v : DmValue}
    (h : p ∈ (cacheAdd cache sel e base l v).map CacheItem.sb) :
    p ∈ sel :: cache.map CacheItem.sb := by
  obtain ⟨x, hx, rfl⟩ := List.mem_map.mp h
  rcases mem_cacheAdd hx with ⟨hsb, -⟩ | ⟨y, hy, hsb, -⟩
  · rw [hsb]
    exact List.mem_cons_self
  · rw [hsb]
    exact List.mem_cons_of_mem _ (List.mem_map_of_mem hy)

theorem offPaths_mono {S : Schema} {sel : Selector} {l l' : List Selector} (h : offPaths S sel l = true)
    (hsub : ∀ p ∈ l', p ∈ l) : offPaths S sel l' = true :=
  offPaths_iff.mpr fun p hp => offPaths_iff.mp h p (hsub p hp)

theorem sparesValues_mono {S : Schema} {cfg : Bool} (values : List (Selector × Avp)) (l l' : List Selector)
    (h : sparesValues S cfg l values = true) (hsub : ∀ p ∈ l', p ∈ l) :
    sparesValues S cfg l' values = true := by
  induction values generalizing l l' with
  | nil => rfl
  | cons x rest ih =>
    obtain ⟨sel, avp⟩ := x
    unfold sparesValues at h ⊢
    split at h
    · rename_i hby
      rw [if_pos hby]
      rw [Bool.and_eq_true] at h ⊢
      exact ⟨offPaths_mono h.1 hsub, ih l l' h.2 hsub⟩
    · rename_i hby
      rw [if_neg hby]
      refine ih _ _ h ?_
      intro p hp
      cases cfg with
      | false => exact hsub p hp
      | true =>
        rcases List.mem_cons.mp hp with rfl | hp
        · exact List.mem_cons_self
        · exact List.mem_cons_of_mem _ (hsub p hp)

theorem dbSet_resolves {flags : ℕ} (values : List (Selector × Avp)) (st : DmStore) (cache : Cache) {rc : Rc}
    (hwf : StateWf False env st cache) (h : CacheResolves env st cache)
    (hsp : sparesValues env.schema (configure flags) (cache.map CacheItem.sb) values = true)
    (hs : dbSet env flags values st cache = some (rc, st', cache')) :
    StateWf False env st' cache' ∧ CacheResolves env st' cache' := by
  induction values generalizing st cache with
  | nil =>
    cases hs
    exact ⟨hwf, h⟩
  | cons x rest ih =>
    obtain ⟨sel, avp⟩ := x
    simp only [dbSet, Option.bind_eq_bind, Option.bind_eq_some_iff] at hs
    obtain ⟨found, href, hs⟩ := hs
    cases found with
    | none =>
      cases hs
      exact ⟨hwf, h⟩
    | some ref =>
      simp only [Option.bind_eq_some_iff, Prod.exists] at hs
      obtain ⟨r, st1, cache1, h1, hs⟩ := hs
      unfold sparesValues at hsp
      have hoff : bypasses env.schema sel avp = true →
          offPaths env.schema sel (cache.map CacheItem.sb) = true := by
        intro hby
        rw [if_pos hby, Bool.and_eq_true] at hsp
        exact hsp.1
      obtain ⟨hwf1, hres1⟩ := setCb_resolves hwf h href hoff h1
      split at hs
      · refine ih st1 cache1 hwf1 hres1 ?_ hs
        obtain ⟨-, -, hcache⟩ := setCb_spec (P := fun _ => False) hwf.store href
          (fun _ => ⟨id, fun _ _ hf => hf⟩) h1
        rcases hcache with rfl | ⟨hcfg, -, v, hv, rfl⟩
        · -- the cache stays
          split at hsp
          · rw [Bool.and_eq_true] at hsp
            exact hsp.2
          · refine sparesValues_mono rest _ _ hsp ?_
            intro p hp
            split
            · exact List.mem_cons_of_mem _ hp
            · exact hp
        · have hby := bypasses_leaf avp hwf.store href (avp2value_writable hv).1
          rw [hby, if_neg Bool.false_ne_true, hcfg, if_pos rfl] at hsp
          rw [hcfg]
          exact sparesValues_mono rest _ _ hsp fun p hp => cacheAdd_sb hp
      · cases hs
        exact ⟨hwf1, hres1⟩

theorem CacheResolves.nil : CacheResolves env st [] := fun _ hx => absurd hx List.not_mem_nil

theorem leave_resolves {s s' : State} {c : Ctx} (hwf : StateWf False env s.store s.cache)
    (h : CacheResolves env s.store s.cache) (hs : s.leave c = some s') :
    CacheResolves env s'.store s'.cache := by
  obtain ⟨hwf', hk⟩ := hwf.leave (P := towards env.schema s.cache) hs
  obtain ⟨-, -, hcases⟩ := leave_cases hs
  rcases hcases with ⟨-, -, hnil⟩ | ⟨-, -, hsame⟩
  · rw [hnil]
    exact .nil
  · rw [hsame]
    exact h.keeps hwf.store hwf'.store hk

theorem endSession_resolves {s s' : State} {c : Ctx} (hwf : StateWf False env s.store s.cache)
    (h : CacheResolves env s.store s.cache) (hs : endSession s c = some s') :
    CacheResolves env s'.store s'.cache := by
  simp only [endSession, Option.bind_eq_bind, Option.bind_eq_some_iff, Option.some.injEq] at hs
  obtain ⟨s1, h1, rfl⟩ := hs
  have hres := leave_resolves hwf h h1
  exact hres

/-- Only a set, an add or a deletion is not just the end of the cache or a matter of codes. -/
theorem step_resolves {s s' : State} {ev : Event} {rc : Rc} (hwf : StateWf False env s.store s.cache)
    (h : CacheResolves env s.store s.cache) (hsp : sparesCache env s ev = true)
    (hs : step env s ev = some (rc, s')) : CacheResolves env s'.store s'.cache := by
  cases ev with
  | accept =>
    cases hs
    exact h
  | startSession key flags =>
    obtain ⟨c, -, hs⟩ := Option.bind_eq_some_iff.mp hs
    have hs := Option.some.inj hs
    unfold startSession at hs
    split at hs
    · cases hs
      exact h
    split at hs
    · cases hs
      exact h
    · cases hs
      split <;> exact h
  | switchSession key flags =>
    obtain ⟨c, -, hs⟩ := Option.bind_eq_some_iff.mp hs
    unfold switchSession at hs
    split at hs
    · cases hs
      exact h
    split at hs
    · split at hs
      · cases hs
        exact h
      · cases hs
        exact h
    · simp only [Option.bind_eq_bind, Option.bind_eq_some_iff, Option.some.injEq, Prod.mk.injEq] at hs
      obtain ⟨s1, h1, -, rfl⟩ := hs
      have hres := leave_resolves hwf h h1
      exact hres
  | endSession key =>
    simp only [step, Option.bind_eq_bind, Option.bind_eq_some_iff, Option.some.injEq, Prod.mk.injEq] at hs
    obtain ⟨c, -, s1, h1, -, rfl⟩ := hs
    exact endSession_resolves hwf h h1
  | set key values =>
    simp only [step, Option.bind_eq_bind, Option.bind_eq_some_iff, Prod.exists] at hs
    obtain ⟨c, hc, rc1, st1, cache1, h1, h2⟩ := hs
    have hsp : sparesValues env.schema (configure c.flags) (s.cache.map CacheItem.sb) values = true := by
      rw [sparesCache, hc] at hsp
      exact hsp
    obtain ⟨hwf1, hres1⟩ := dbSet_resolves values s.store s.cache hwf h hsp h1
    unfold afterRequest at h2
    split at h2
    · simp only [Option.bind_eq_bind, Option.bind_eq_some_iff, Option.some.injEq, Prod.mk.injEq] at h2
      obtain ⟨d, -, s2, h2, -, rfl⟩ := h2
      exact endSession_resolves (s := { s with store := st1, cache := cache1 }) hwf1 hres1 h2
    · cases h2
      exact hres1
  | addInstance key sel id =>
    have hP : Spares False (towards env.schema s.cache) env s (.addInstance key sel id) :=
      fun hf => hf.elim
    obtain ⟨hwf', hk⟩ := step_wf hwf hP hs
    simp only [step, Option.bind_eq_bind, Option.bind_eq_some_iff, Prod.exists, Option.some.injEq,
      Prod.mk.injEq] at hs
    obtain ⟨c, -, r, st1, h1, -, rfl⟩ := hs
    exact h.keeps hwf.store hwf'.store hk
  | delInstance key sel =>
    have hP : Spares False (towards env.schema s.cache) env s (.delInstance key sel) :=
      offPaths_towards hsp
    obtain ⟨hwf', hk⟩ := step_wf hwf hP hs
    simp only [step, Option.bind_eq_bind, Option.bind_eq_some_iff, Prod.exists, Option.some.injEq,
      Prod.mk.injEq] at hs
    obtain ⟨c, -, found, st1, h1, -, rfl⟩ := hs
    exact h.keeps hwf.store hwf'.store hk
  | commit key order =>
    obtain ⟨c, -, hs⟩ := Option.bind_eq_some_iff.mp hs
    rcases commit_cases env hs with ⟨-, rfl, -⟩ | ⟨-, -, cache, hval, rfl⟩ | ⟨-, -, r, cache, st, -, -, -, -, rfl⟩
    · exact h
    · intro x hx
      obtain ⟨y, hy, code, rfl⟩ := cacheValidate_items env s.store s.cache cache 0 hval x hx
      exact h y hy
    · exact .nil
  | cancel key =>
    obtain ⟨c, -, hs⟩ := Option.bind_eq_some_iff.mp hs
    unfold cancel at hs
    split at hs
    · cases hs
      exact h
    · simp only [Option.bind_eq_bind, Option.bind_eq_some_iff, Option.some.injEq, Prod.mk.injEq] at hs
      obtain ⟨s1, h1, -, rfl⟩ := hs
      obtain ⟨hnil, -⟩ := resetCache_eq h1
      rw [hnil]
      exact .nil

end Step

/-! ## Every run -/

theorem run_resolves (env : Env) (evs : List Event) (s s' : State)
    (hwf : StateWf False env s.store s.cache) (h : CacheResolves env s.store s.cache)
    (hsp : allSteps env (sparesCache env) s evs = true) (hs : run env s evs = some s') :
    CacheResolves env s'.store s'.cache := by
  induction evs generalizing s with
  | nil =>
    cases hs
    exact h
  | cons ev evs ih =>
    simp only [run, Option.bind_eq_bind, Option.bind_eq_some_iff, Prod.exists] at hs
    obtain ⟨rc, s1, h1, hs⟩ := hs
    rw [allSteps, h1, Bool.and_eq_true] at hsp
    obtain ⟨hwf1, -⟩ := step_wf hwf (spares_nothing env s ev) h1
    exact ih s1 hwf1 (step_resolves hwf h hsp.1 h1) hsp.2 hs

/-- No cache entry dangles while nothing on the way to a pending value is deleted. -/
theorem cache_resolves (env : Env) (s0 s : State) (h0 : init env = some s0) (evs : List Event)
    (hsp : allSteps env (sparesCache env) s0 evs = true) (hs : run env s0 evs = some s) :
    CacheResolves env s.store s.cache := by
  refine run_resolves env evs s0 s (init_stateWf h0) ?_ hsp hs
  simp only [init, Option.bind_eq_bind, Option.bind_eq_some_iff, Option.some.injEq] at h0
  obtain ⟨st, -, rfl⟩ := h0
  exact .nil

/-- A field of a row is set, and the array and another row are changed. -/
def sampleCareful : List Event :=
  [.accept, .startSession 1 1, .addInstance 1 [4] 1, .addInstance 1 [4] 2,
    .set 1 [([4, 1, 1], sampleAvp 3), ([2], ⟨.array, [], 0⟩)], .delInstance 1 [4, 2]]

theorem cache_resolves_sample : allSteps sampleEnv (sparesCache sampleEnv)
      ⟨sampleStore, [], 0, 1, []⟩ sampleCareful = true ∧
    ∃ s, run sampleEnv ⟨sampleStore, [], 0, 1, []⟩ sampleCareful = some s ∧
      s.cache.map CacheItem.sb = [[4, 1, 1]] ∧ CacheResolves sampleEnv s.store s.cache := by
  have hsp : allSteps sampleEnv (sparesCache sampleEnv) ⟨sampleStore, [], 0, 1, []⟩ sampleCareful = true := by
    decide +kernel
  have hrun : ((run sampleEnv ⟨sampleStore, [], 0, 1, []⟩ sampleCareful).map fun s =>
      s.cache.map CacheItem.sb) = some [[4, 1, 1]] := by
    decide +kernel
  obtain ⟨s, hs, hsb⟩ := Option.map_eq_some_iff.mp hrun
  exact ⟨hsp, s, hs, hsb, cache_resolves sampleEnv ⟨sampleStore, [], 0, 1, []⟩ s rfl sampleCareful hsp hs⟩

/-- The row of a pending field is deleted. -/
def sampleDangling : List Event :=
  [.accept, .startSession 1 1, .addInstance 1 [4] 1, .set 1 [([4, 1, 1], sampleAvp 3)],
    .delInstance 1 [4, 1]]

/-- The item stays in the cache, and its selector finds nothing. -/
theorem cache_dangles : init sampleEnv = some ⟨sampleStore, [], 0, 1, []⟩ ∧
    ∃ s, run sampleEnv ⟨sampleStore, [], 0, 1, []⟩ sampleDangling = some s ∧
      ¬CacheResolves sampleEnv s.store s.cache := by
  have hrun : ((run sampleEnv ⟨sampleStore, [], 0, 1, []⟩ sampleDangling).map fun s =>
      s.cache.map fun item => (item.sb, s.store.getElementRef sampleSchema item.sb)) =
      some [([4, 1, 1], some none)] := by
    decide +kernel
  obtain ⟨s, hs, hitems⟩ := Option.map_eq_some_iff.mp hrun
  refine ⟨rfl, s, hs, ?_⟩
  intro hres
  cases hcache : s.cache with
  | nil =>
    rw [hcache] at hitems
    cases hitems
  | cons item rest =>
    rw [hcache, List.map_cons, List.cons.injEq, Prod.mk.injEq] at hitems
    obtain ⟨r, href, -⟩ := hres item (by rw [hcache]; exact List.mem_cons_self)
    have hnone : s.store.getElementRef sampleSchema item.sb = some none := hitems.1.2
    have hsome : s.store.getElementRef sampleSchema item.sb = some (some r) := href
    rw [hnone] at hsome
    cases hsome

end Mand.Server
