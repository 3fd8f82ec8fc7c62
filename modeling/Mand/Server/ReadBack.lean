import Mand.Server.Isolation
import Mand.Store.Marks

/-! # Pending values are read back

The configure session reads what it has set: the mark on the slot leads its reads to the cache, and
nothing but its own requests changes the item there. -/
namespace Mand.Server
open Mand.Store Mand.Index Mand.Msg Mand.Bytes
set_option autoImplicit false

variable {env : Env} {st st' : DmStore} {a i : ℕ}

/-! ## The item in the cache -/

theorem cacheFind_cacheInsert (item : CacheItem) (cache : Cache) (p : Selector)
    (hne : dmSelcmp p item.sb dmSelectorLen ≠ 0) : cacheFind (cacheInsert item cache) p = cacheFind cache p := by
  have hskip : ∀ rest, cacheFind (item :: rest) p = cacheFind rest p := by
    intro rest
    exact List.find?_cons_of_neg (by simpa using hne)
  induction cache with
  | nil => exact hskip []
  | cons x rest ih =>
    unfold cacheInsert
    split
    · exact hskip (x :: rest)
    · unfold cacheFind at ih ⊢
      by_cases hx : dmSelcmp p x.sb dmSelectorLen = 0
      · rw [List.find?_cons_of_pos (by simpa using hx), List.find?_cons_of_pos (by simpa using hx)]
      · rw [List.find?_cons_of_neg (by simpa using hx), List.find?_cons_of_neg (by simpa using hx), ih]

theorem cacheFind_cacheInsert_self (item : CacheItem) (cache : Cache) (hnone : cacheFind cache item.sb = none) :
    cacheFind (cacheInsert item cache) item.sb = some item := by
  have hself : ∀ rest, cacheFind (item :: rest) item.sb = some item := by
    intro rest
    exact List.find?_cons_of_pos (by simpa using dmSelcmp_self dmSelectorLen item.sb)
  induction cache with
  | nil => exact hself []
  | cons x rest ih =>
    unfold cacheInsert
    split
    · exact hself (x :: rest)
    · unfold cacheFind at ih hnone ⊢
      have hx : ¬dmSelcmp item.sb x.sb dmSelectorLen = 0 := by
        have hall := List.find?_eq_none.mp hnone x List.mem_cons_self
        simpa using hall
      rw [List.find?_cons_of_neg (by simpa using hx)] at hnone ⊢
      exact ih hnone

/-- The selectors of the items stay. -/
theorem cacheFind_map (f : CacheItem → CacheItem) (hf : ∀ x, (f x).sb = x.sb) (cache : Cache) (p : Selector) :
    cacheFind (cache.map f) p = (cacheFind cache p).map f := by
  unfold cacheFind
  rw [List.find?_map]
  congr 2
  funext x
  simp only [Function.comp_apply, hf]

/-- What `cache_add` writes for a selector is found with it. -/
theorem cacheFind_cacheAdd_self (cache : Cache) (p : Selector) (e : DmElement) (base : Base) (l : Loc)
    (val : DmValue) : ∃ item, cacheFind (cacheAdd cache p e base l val) p = some item ∧ item.newValue = val := by
  unfold cacheAdd
  cases hf : cacheFind cache p with
  | none => exact ⟨_, cacheFind_cacheInsert_self ⟨p, lastId p, e, base, l, val, 0⟩ cache hf, rfl⟩
  | some item =>
    refine ⟨{ item with newValue := val, code := 0 }, ?_, rfl⟩
    simp only
    rw [cacheFind_map, hf, Option.map_some, if_pos (cacheFind_some hf).2]
    intro x
    split <;> rfl

/-- An item stays when another selector is set. -/
theorem cacheFind_cacheAdd {cache : Cache} {p sel : Selector} {item : CacheItem} (e : DmElement) (base : Base)
    (l : Loc) (val : DmValue) (hf : cacheFind cache p = some item)
    (hne : dmSelcmp sel p dmSelectorLen ≠ 0) : cacheFind (cacheAdd cache sel e base l val) p = some item := by
  unfold cacheAdd
  cases hfs : cacheFind cache sel with
  | none =>
    have hne' : dmSelcmp p sel dmSelectorLen ≠ 0 := fun h => hne (dmSelcmp_eq_symm _ _ _ h)
    rw [← hf]
    exact cacheFind_cacheInsert ⟨sel, lastId sel, e, base, l, val, 0⟩ cache p hne'
  | some other =>
    have hitem : ¬dmSelcmp sel item.sb dmSelectorLen = 0 := by
      intro h
      exact hne (dmSelcmp_eq_trans _ _ _ _ h (dmSelcmp_eq_symm _ _ _ (cacheFind_some hf).2))
    simp only
    rw [cacheFind_map, hf, Option.map_some, if_neg hitem]
    intro x
    split <;> rfl

/-! ## The mark on the slot -/

/-- A deletion takes off no mark outside of its path. -/
theorem delTable_marked {S : Schema} {sel : Selector} {found : Bool} {t : VTable}
    (h : Marked st a i) (hw : HeapWf False nowhere S st) (ht : st.heap a = some t)
    (hout : ¬S.path sel <+: t.id ++ [i + 1]) (hst : delTableBySelector S st sel = some (found, st')) :
    Marked st' a i := by
  obtain ⟨-, hcases⟩ := delTableBySelector_spec hw hst
  rcases hcases with ⟨-, rfl⟩ | ⟨-, ref, q, href, hat, hdel⟩
  · exact h
  rw [hat.unique (getElementRef_path hw href)] at hdel
  obtain ⟨v, hv, hp⟩ := h
  obtain ⟨t0, ht0, hvt⟩ := DmStore.slot_eq_some.mp hv
  rw [ht] at ht0
  cases ht0
  rcases (Deleted.contained hdel).slot a t i v ht hvt hout with hsame | ⟨-, o', hobj⟩ | ⟨-, v', hv', n, n', -, rfl⟩
  · exact ⟨v, hsame, hp⟩
  · exact ⟨_, hobj, hp⟩
  · exact ⟨_, hv', hp⟩

theorem setEntry_marked {e : DmElement} {r : Addr} {clear : Bool} {avp : Avp} {res : SetResult}
    (h : Marked st a i) (hr : a ≠ r) (hst : setEntry env st e r clear avp = some (res, st')) :
    Marked st' a i := by
  simp only [setEntry, Option.bind_eq_bind, Option.bind_eq_some_iff] at hst
  obtain ⟨old, -, u, -, hst⟩ := hst
  split at hst
  · simp only [Option.bind_eq_some_iff, Option.some.injEq, Prod.mk.injEq] at hst
    obtain ⟨st1, h1, -, rfl⟩ := hst
    exact h.setSlot h1 fun _ _ heq => absurd heq.1.symm hr
  · simp only [Option.bind_eq_some_iff, Option.some.injEq, Prod.mk.injEq] at hst
    obtain ⟨st1, h1, st2, h2, -, rfl⟩ := hst
    have hm1 : Marked st1 a i := h.setSlot h1 fun _ _ heq => absurd heq.1.symm hr
    exact hm1.updateInstanceNodeIndex h2

theorem setEntries_marked {sel : Selector} {e : DmElement} {clear : Bool} {last : Option SetResult} {res : SetResult}
    (ha : ArrayAt env.schema sel e) (entries : List Avp) (id : ℕ) (st st' : DmStore)
    (hid : id < 2 ^ 16) (hw : HeapWf False nowhere env.schema st) (hm : Marked st a i)
    (h : setEntries env sel e clear last id entries st = some (res, st')) : Marked st' a i := by
  induction entries generalizing id st with
  | nil =>
    obtain ⟨res', -, hres⟩ := Option.map_eq_some_iff.mp h
    cases hres
    exact hm
  | cons avp rest ih =>
    simp only [setEntries, Option.bind_eq_bind, Option.bind_eq_some_iff, Prod.exists] at h
    obtain ⟨r, st1, h1, h⟩ := h
    obtain ⟨hw1, -, -⟩ := addInstanceBySelector_spec (P := fun _ => True) hw hid (fun hf => hf.elim) h1
    have hm1 := hm.addInstanceBySelector hw h1
    cases r with
    | none =>
      cases h
      exact hm1
    | some r =>
      simp only [Option.bind_eq_some_iff, Prod.exists] at h
      obtain ⟨n, hn, res2, st2, h2, h⟩ := h
      obtain ⟨hleaf, hfresh⟩ := arrayRow_leaf not_false ha hid hw h1
      -- the marked slot was there before the row
      have hr : a ≠ r := by
        obtain ⟨v, hv, -⟩ := hm
        obtain ⟨t, ht, -⟩ := DmStore.slot_eq_some.mp hv
        exact Nat.ne_of_lt (Nat.lt_of_lt_of_le (hw.lt a t ht) hfresh)
      have hk2 := setEntry_kept not_false hw1 hleaf h2
      have hm2 := setEntry_marked hm1 hr h2
      split at h
      · exact ih _ _ (Nat.mod_lt _ (by decide)) hk2.wf hm2 h
      · cases h
        exact hm2

/-- `dmconfig_set_array_cb` on an array that the slot is not in. -/
theorem setArray_marked {sel : Selector} {ref : Ref} {avp : Avp} {res : SetResult} {t : VTable}
    (hw : HeapWf False nowhere env.schema st) (href : st.getElementRef env.schema sel = some (some ref))
    (harr : ref.elem.flags.array = true) (hm : Marked st a i) (ht : st.heap a = some t)
    (hout : bypasses env.schema sel avp = true → ¬env.schema.path sel <+: t.id ++ [i + 1])
    (h : setArray env st sel ref.elem ref.value avp = some (res, st')) : Marked st' a i := by
  by_cases hby : bypasses env.schema sel avp = true
  · unfold setArray at h
    simp only [Option.bind_eq_bind, Option.bind_eq_some_iff] at h
    obtain ⟨v, -, h⟩ := h
    split at h
    · cases h
      exact hm
    rename_i hcheck
    have hobj : ref.elem.type = .object := by
      by_contra hne
      exact hcheck (.inl hne)
    split at h
    · cases h
      exact hm
    simp only [Option.bind_eq_some_iff, Prod.exists] at h
    obtain ⟨found, st1, hdel, h⟩ := h
    obtain ⟨hw1, -⟩ := delTableBySelector_spec hw hdel
    have hm1 := delTable_marked hm hw ht (hout hby) hdel
    split at h
    · cases h
      exact hm1
    generalize (avpEntries avp).1 = entries, (avpEntries avp).2 = last at h
    cases entries with
    | nil =>
      obtain ⟨res', -, hres⟩ := Option.map_eq_some_iff.mp h
      cases hres
      exact hm1
    | cons avp' rest =>
      simp only [Option.bind_eq_some_iff] at h
      obtain ⟨e0, he0, h⟩ := h
      exact setEntries_marked (arrayAt_ref hw href hobj harr he0) _ 1 st1 st' (by decide) hw1 hm1 h
  · obtain ⟨rfl, -⟩ := setArray_same env st st' sel avp ref res harr href (Bool.eq_false_iff.mpr hby) h
    exact hm

/-! ## One request -/

/-- The value that the configure session has set at `p` is pending and in the cache. -/
structure Remembered (env : Env) (p : Selector) (ref : Ref) (v : Value) (st : DmStore) (cache : Cache) :
    Prop where
  wf : StateWf False env st cache
  resolves : st.getElementRef env.schema p = some (some ref)
  leaf : ref.elem.container = false
  marked : ∀ a i, ref.value = .slot a i → Marked st a i
  cached : ∃ item, cacheFind cache p = some item ∧ item.newValue = newValue v

/-- A value of a request that leaves `p` alone: it names no array above it, the configure session does not
set `p` again, and no one else has its setter assign the whole value. -/
structure Passes (env : Env) (p : Selector) (ref : Ref) (flags : ℕ) (sel : Selector) (avp : Avp) : Prop where
  above : bypasses env.schema sel avp = true → ¬env.schema.path sel <+: env.schema.path p
  again : configure flags = true → dmSelcmp sel p dmSelectorLen ≠ 0
  whole : configure flags = false → env.schema.path sel = env.schema.path p → ref.elem.wholesale = false

section Request
variable {p : Selector} {ref : Ref} {v : Value} {cache cache' : Cache}

/-- The slot of the leaf. -/
theorem Remembered.slot (h : Remembered env p ref v st cache) : ∃ a i t, ref.value = .slot a i ∧
    st.heap a = some t ∧ env.schema.path p = t.id ++ [i + 1] := by
  have hat := getElementRef_path h.wf.store h.resolves
  obtain ⟨a, i, -, hval, -⟩ := getElementRef_leaf h.wf.store h.resolves h.leaf
  generalize env.schema.path p = q at hat
  cases hat with
  | slot b j t kw e stType ht hp he => exact ⟨b, j, t, rfl, ht, rfl⟩
  | row b j t kw e r id tr ht hp he hobj htr hid hrow hmem => cases hval

/-- What keeps the paths above `p` and the mark keeps the value remembered. -/
theorem Remembered.keeps (h : Remembered env p ref v st cache) (hwf : StateWf False env st' cache')
    (hk : Keeps (fun q => q <+: env.schema.path p) st st')
    (hmark : ∀ a i t, ref.value = .slot a i → st.heap a = some t → env.schema.path p = t.id ++ [i + 1] →
      Marked st a i → Marked st' a i)
    (hcache : ∃ item, cacheFind cache' p = some item ∧ item.newValue = newValue v) :
    Remembered env p ref v st' cache' where
  wf := hwf
  resolves := getElementRef_keeps h.resolves hk h.wf.store hwf.store
    (getElementRef_path h.wf.store h.resolves) fun _ hq => hq
  leaf := h.leaf
  marked := by
    intro a i hval
    obtain ⟨b, j, t, hval', ht, hpath⟩ := h.slot
    rw [hval] at hval'
    cases hval'
    exact hmark a i t hval ht hpath (h.marked a i hval)
  cached := hcache

/-- Selectors that lead to one slot have its path and its element. -/
theorem ref_of_slot {S : Schema} {t : VTable} {sel : Selector} {ref : Ref} (hw : HeapWf False nowhere S st)
    (href : st.getElementRef S sel = some (some ref)) (hval : ref.value = .slot a i) (ht : st.heap a = some t) :
    S.path sel = t.id ++ [i + 1] ∧
      ∀ kw, S.place t.id = some (kw, false) → (S.table kw).elems[i]? = some ref.elem := by
  have hat := getElementRef_path hw href
  generalize S.path sel = q at hat
  cases hat with
  | slot b j t' kw e stType ht' hp he =>
    cases hval
    rw [ht] at ht'
    cases ht'
    refine ⟨rfl, ?_⟩
    intro kw' hp'
    rw [hp] at hp'
    cases hp'
    exact he
  | row b j t' kw e r id tr ht' hp he hobj htr hid hrow hmem => cases hval

theorem Remembered.setCb {flags : ℕ} {sel : Selector} {ref' : Ref} {avp : Avp} {res : SetResult}
    (h : Remembered env p ref v st cache) (href : st.getElementRef env.schema sel = some (some ref'))
    (hp : Passes env p ref flags sel avp)
    (hs : setCb env st cache flags sel ref' avp = some (res, st', cache')) :
    Remembered env p ref v st' cache' := by
  have hP : bypasses env.schema sel avp = true →
      ¬False ∧ ∀ q, env.schema.path sel <+: q → ¬q <+: env.schema.path p := by
    intro hby
    exact ⟨not_false, fun q hq hqp => hp.above hby (hq.trans hqp)⟩
  obtain ⟨hwf, hk⟩ := h.wf.setCb href hP hs
  unfold Server.setCb at hs
  by_cases harr : ref'.elem.flags.array = true
  · rw [if_pos harr] at hs
    simp only [Option.bind_eq_bind, Option.bind_eq_some_iff, Prod.exists, Option.some.injEq,
      Prod.mk.injEq] at hs
    obtain ⟨r, st1, h1, -, rfl, rfl⟩ := hs
    refine h.keeps hwf hk ?_ h.cached
    intro a i t _ ht hpath hm
    refine setArray_marked h.wf.store href harr hm ht ?_ h1
    rw [← hpath]
    exact hp.above
  rw [if_neg harr] at hs
  cases hv : env.avp2value ref'.elem avp with
  | error err =>
    rw [hv] at hs
    cases hs
    exact h
  | ok w =>
    rw [hv] at hs
    dsimp only at hs
    by_cases hcfg : configure flags = true
    · rw [if_pos hcfg] at hs
      simp only [Option.bind_eq_bind, Option.bind_eq_some_iff, Option.some.injEq, Prod.mk.injEq] at hs
      obtain ⟨old, hold, st1, h1, -, rfl, rfl⟩ := hs
      refine h.keeps hwf hk ?_ ?_
      · intro a i t _ _ _ hm
        obtain ⟨b, j, -, hval', -⟩ := getElementRef_leaf h.wf.store href (avp2value_writable hv).1
        rw [hval'] at h1
        exact hm.setSlot h1 fun _ _ _ _ => rfl
      · obtain ⟨item, hitem, hnew⟩ := h.cached
        exact ⟨item, cacheFind_cacheAdd _ _ _ _ hitem (hp.again hcfg), hnew⟩
    · rw [if_neg hcfg] at hs
      simp only [Option.bind_eq_bind, Option.bind_eq_some_iff, Prod.exists, Option.some.injEq,
        Prod.mk.injEq] at hs
      obtain ⟨r, st1, h1, -, rfl, rfl⟩ := hs
      refine h.keeps hwf hk ?_ h.cached
      intro a i t hval ht hpath hm
      refine hm.overwriteValue h.wf.store ?_ h1
      intro ref2 href2
      rw [href] at href2
      cases href2
      refine ⟨(avp2value_writable hv).1, ?_⟩
      intro hval'
      -- the slot of `p`, so its path and its element
      obtain ⟨hpath', helem'⟩ := ref_of_slot h.wf.store href hval' ht
      obtain ⟨-, helem⟩ := ref_of_slot h.wf.store h.resolves hval ht
      obtain ⟨kw, hkw⟩ := h.wf.store.table a t ht
      have he' := helem' kw hkw.place
      rw [helem kw hkw.place] at he'
      rw [← Option.some.inj he']
      exact hp.whole (Bool.eq_false_iff.mpr hcfg) (hpath'.trans hpath.symm)

theorem Remembered.dbSet {flags : ℕ} (values : List (Selector × Avp)) (st st' : DmStore) (cache cache' : Cache)
    {rc : Rc} (h : Remembered env p ref v st cache) (hp : ∀ x ∈ values, Passes env p ref flags x.1 x.2)
    (hs : dbSet env flags values st cache = some (rc, st', cache')) : Remembered env p ref v st' cache' := by
  induction values generalizing st cache with
  | nil =>
    cases hs
    exact h
  | cons x rest ih =>
    obtain ⟨sel, avp⟩ := x
    simp only [Server.dbSet, Option.bind_eq_bind, Option.bind_eq_some_iff] at hs
    obtain ⟨found, href, hs⟩ := hs
    cases found with
    | none =>
      cases hs
      exact h
    | some ref' =>
      simp only [Option.bind_eq_some_iff, Prod.exists] at hs
      obtain ⟨r, st1, cache1, h1, hs⟩ := hs
      have hr1 := h.setCb href (hp (sel, avp) List.mem_cons_self) h1
      split at hs
      · exact ih st1 cache1 hr1 (fun x hx => hp x (List.mem_cons_of_mem _ hx)) hs
      · cases hs
        exact hr1

end Request

/-! ## Events -/

/-- A context that leaves while the configure session stays open is not its holder. -/
theorem leave_same {s s' : State} {c : Ctx} (hs : s.leave c = some s') (hcfg : s'.cfgSessionId ≠ 0) : s' = s := by
  obtain ⟨-, -, hcases⟩ := leave_cases hs
  unfold State.leave at hs
  cases hcases with
  | inl hh => exact absurd hh.2.1 hcfg
  | inr hh =>
    rw [if_neg hh.1] at hs
    exact (Option.some.inj hs).symm

theorem endSession_same {s s' : State} {c : Ctx} (hs : endSession s c = some s') (hcfg : s'.cfgSessionId ≠ 0) :
    s'.store = s.store ∧ s'.cache = s.cache := by
  simp only [endSession, Option.bind_eq_bind, Option.bind_eq_some_iff, Option.some.injEq] at hs
  obtain ⟨s1, h1, rfl⟩ := hs
  rw [leave_same h1 hcfg]
  exact ⟨rfl, rfl⟩

theorem afterRequest_same {s s' : State} {key : ℕ} {rc rc' : Rc} (hs : afterRequest s key rc = some (rc', s'))
    (hcfg : s'.cfgSessionId ≠ 0) : s'.store = s.store ∧ s'.cache = s.cache := by
  unfold afterRequest at hs
  split at hs
  · simp only [Option.bind_eq_bind, Option.bind_eq_some_iff, Option.some.injEq, Prod.mk.injEq] at hs
    obtain ⟨c, -, s1, h1, -, rfl⟩ := hs
    exact endSession_same h1 hcfg
  · cases hs
    exact ⟨rfl, rfl⟩

/-- The session of `key` stays the configure session. -/
def staysOpen (env : Env) (key : ℕ) (s : State) (ev : Event) : Bool :=
  match step env s ev with
  | some (_, s') => s'.cfgSessionId = s.cfgSessionId ∧ (s'.ctx key).map Ctx.id = some s.cfgSessionId
  | none => true

/-- Until the session of `key` sets `p` again, commits, cancels or ends, and as long as nothing is deleted
that `p` is in. -/
def untilSettled (env : Env) (key : ℕ) (p : Selector) (s : State) (ev : Event) : Bool :=
  staysOpen env key s ev && match ev with
    | .set k values => values.all fun x =>
      (k ≠ key || dmSelcmp x.1 p dmSelectorLen ≠ 0) &&
        !(bypasses env.schema x.1 x.2 && (env.schema.path x.1).isPrefixOf (env.schema.path p))
    | .delInstance _ sel => !(env.schema.path sel).isPrefixOf (env.schema.path p)
    | .commit k _ => k ≠ key
    | .cancel k => k ≠ key
    | _ => true

/-- No other session has the setter of `p` assign the whole value. -/
def undisturbed (env : Env) (key : ℕ) (p : Selector) (e : DmElement) (_ : State) : Event → Bool
  | .set k values => k = key || e.wholesale = false ||
    values.all fun x => env.schema.path x.1 ≠ env.schema.path p
  | _ => true

section Events
variable {s s' : State} {key : ℕ} {c : Ctx} {p : Selector} {ref : Ref} {v : Value}

theorem Holds.other (hold : Holds s key c) (hinv : SessionInv s) {k : ℕ} {d : Ctx} (hd : s.ctx k = some d)
    (hk : k ≠ key) : d.id ≠ s.cfgSessionId ∧ configure d.flags = false := by
  have hid : d.id ≠ s.cfgSessionId := by
    rw [← hold.id_eq]
    refine hinv.other_id (ctx_mem hold.ctx).1 hold.id_ne d (ctx_mem hd).1 ?_
    rw [(ctx_mem hd).2, (ctx_mem hold.ctx).2]
    exact hk
  refine ⟨hid, Bool.eq_false_iff.mpr ?_⟩
  intro hcfg
  exact hid ((hinv.holder d (ctx_mem hd).1).mp hcfg).1

/-- The values of a request pass. -/
theorem passes_set {values : List (Selector × Avp)} {k : ℕ} {d : Ctx} (hinv : SessionInv s)
    (hold : Holds s key c) (hd : s.ctx k = some d)
    (hb : untilSettled env key p s (.set k values) = true)
    (hu : undisturbed env key p ref.elem s (.set k values) = true) :
    ∀ x ∈ values, Passes env p ref d.flags x.1 x.2 := by
  intro x hx
  simp only [untilSettled, Bool.and_eq_true, List.all_eq_true] at hb
  have hbx := hb.2 x hx
  simp only [Bool.and_eq_true, Bool.or_eq_true, decide_eq_true_eq, Bool.not_eq_true', Bool.and_eq_false_iff] at hbx
  constructor
  · intro hby hpre
    rcases hbx.2 with hno | hno
    · rw [hby] at hno
      cases hno
    · rw [List.isPrefixOf_iff_prefix.mpr hpre] at hno
      cases hno
  · intro hcfg
    rcases hbx.1 with hk | hne
    · rw [(hold.other hinv hd hk).2] at hcfg
      cases hcfg
    · exact hne
  · intro hcfg hpath
    by_cases hk : k = key
    · subst hk
      rw [hold.ctx] at hd
      cases hd
      rw [hold.configures] at hcfg
      cases hcfg
    · simp only [undisturbed, Bool.or_eq_true, decide_eq_true_eq, hk, false_or, List.all_eq_true] at hu
      rcases hu with hu | hu
      · exact hu
      · exact absurd hpath (hu x hx)

theorem step_remembered {ev : Event} {rc : Rc} (hinv : SessionInv s) (hold : Holds s key c)
    (h : Remembered env p ref v s.store s.cache) (hb : untilSettled env key p s ev = true)
    (hu : undisturbed env key p ref.elem s ev = true) (hs : step env s ev = some (rc, s')) :
    Remembered env p ref v s'.store s'.cache := by
  have hcfg : s'.cfgSessionId ≠ 0 := by
    have hopen : staysOpen env key s ev = true := (Bool.and_eq_true_iff.mp hb).1
    simp only [staysOpen, hs, decide_eq_true_eq] at hopen
    rw [hopen.1, ← hold.id_eq]
    exact hold.id_ne
  have hsame : s'.store = s.store ∧ s'.cache = s.cache → Remembered env p ref v s'.store s'.cache := by
    intro heq
    rw [heq.1, heq.2]
    exact h
  cases ev with
  | accept =>
    cases hs
    exact h
  | startSession k flags =>
    obtain ⟨d, -, hs⟩ := Option.bind_eq_some_iff.mp hs
    have hs := Option.some.inj hs
    unfold startSession at hs
    split at hs
    · cases hs
      exact h
    split at hs
    · cases hs
      exact h
    · cases hs
      split <;> exact h
  | switchSession k flags =>
    obtain ⟨d, -, hs⟩ := Option.bind_eq_some_iff.mp hs
    unfold switchSession at hs
    split at hs
    · cases hs
      exact h
    split at hs
    · split at hs
      · cases hs
        exact h
      · cases hs
        exact h
    · simp only [Option.bind_eq_bind, Option.bind_eq_some_iff, Option.some.injEq, Prod.mk.injEq] at hs
      obtain ⟨s1, h1, -, rfl⟩ := hs
      rw [leave_same h1 hcfg]
      exact h
  | endSession k =>
    simp only [step, Option.bind_eq_bind, Option.bind_eq_some_iff, Option.some.injEq, Prod.mk.injEq] at hs
    obtain ⟨d, -, s1, h1, -, rfl⟩ := hs
    exact hsame (endSession_same h1 hcfg)
  | set k values =>
    simp only [step, Option.bind_eq_bind, Option.bind_eq_some_iff, Prod.exists] at hs
    obtain ⟨d, hd, rc1, st1, cache1, h1, hs⟩ := hs
    obtain ⟨hst, hca⟩ := afterRequest_same hs hcfg
    rw [hst, hca]
    exact Remembered.dbSet values s.store st1 s.cache cache1 h (passes_set hinv hold hd hb hu) h1
  | addInstance k sel id =>
    have hsp : Spares False (fun q => q <+: env.schema.path p) env s (.addInstance k sel id) := fun hf => hf.elim
    obtain ⟨hwf, hk⟩ := step_wf h.wf hsp hs
    simp only [step, Option.bind_eq_bind, Option.bind_eq_some_iff, Prod.exists, Option.some.injEq,
      Prod.mk.injEq] at hs
    obtain ⟨d, -, r, st1, h1, -, rfl⟩ := hs
    refine h.keeps hwf hk ?_ h.cached
    intro a i t _ _ _ hm
    exact hm.addInstanceBySelector h.wf.store h1
  | delInstance k sel =>
    simp only [untilSettled, Bool.and_eq_true, Bool.not_eq_true'] at hb
    have hout : ¬env.schema.path sel <+: env.schema.path p := by
      intro hpre
      rw [List.isPrefixOf_iff_prefix.mpr hpre] at hb
      cases hb.2
    have hsp : Spares False (fun q => q <+: env.schema.path p) env s (.delInstance k sel) :=
      fun q hq hqp => hout (hq.trans hqp)
    obtain ⟨hwf, hk⟩ := step_wf h.wf hsp hs
    simp only [step, Option.bind_eq_bind, Option.bind_eq_some_iff, Prod.exists, Option.some.injEq,
      Prod.mk.injEq] at hs
    obtain ⟨d, -, found, st1, h1, -, rfl⟩ := hs
    refine h.keeps hwf hk ?_ h.cached
    intro a i t _ ht hpath hm
    rw [hpath] at hout
    exact delTable_marked hm h.wf.store ht hout h1
  | commit k order =>
    obtain ⟨d, hd, hs⟩ := Option.bind_eq_some_iff.mp hs
    have hk : k ≠ key := by simpa [untilSettled] using (Bool.and_eq_true_iff.mp hb).2
    unfold commit at hs
    rw [if_pos (hold.other hinv hd hk).1] at hs
    cases hs
    exact h
  | cancel k =>
    obtain ⟨d, hd, hs⟩ := Option.bind_eq_some_iff.mp hs
    have hk : k ≠ key := by simpa [untilSettled] using (Bool.and_eq_true_iff.mp hb).2
    unfold cancel at hs
    rw [if_pos (hold.other hinv hd hk).1] at hs
    cases hs
    exact h

/-- The holder keeps its context, and with it the configure mode. -/
theorem holds_step {ev : Event} {rc : Rc} (hinv : SessionInv s') (hold : Holds s key c)
    (hb : untilSettled env key p s ev = true) (hs : step env s ev = some (rc, s')) :
    ∃ d, Holds s' key d := by
  have hopen : staysOpen env key s ev = true := (Bool.and_eq_true_iff.mp hb).1
  simp only [staysOpen, hs, decide_eq_true_eq, Option.map_eq_some_iff] at hopen
  obtain ⟨hcfg, d, hd, hid⟩ := hopen
  have hne : s.cfgSessionId ≠ 0 := by
    rw [← hold.id_eq]
    exact hold.id_ne
  refine ⟨d, hd, ?_, by rw [hid, hcfg], by rw [hid]; exact hne⟩
  apply (hinv.holder d (ctx_mem hd).1).mpr
  rw [hcfg]
  exact ⟨hid, hne⟩

/-- Both runs of a list of events: in the first the value is remembered, in the second nothing has been set. -/
theorem run_remembered (evs : List Event) (s s' s2 : State) (c : Ctx) (hinv : SessionInv s) (hold : Holds s key c)
    (h : Remembered env p ref v s.store s.cache) (ha : Alike s s2)
    (hlt : s.sessionCounter + sessionStarts env s evs < 2 ^ 32)
    (hb : allSteps env (untilSettled env key p) s evs = true)
    (hu : allSteps env (undisturbed env key p ref.elem) s evs = true) (hs : run env s evs = some s') :
    SessionInv s' ∧ (∃ d, Holds s' key d) ∧ Remembered env p ref v s'.store s'.cache ∧
      ∃ s2', run env s2 evs = some s2' ∧ Alike s' s2' := by
  induction evs generalizing s s2 c with
  | nil =>
    cases hs
    exact ⟨hinv, ⟨c, hold⟩, h, s2, rfl, ha⟩
  | cons ev evs ih =>
    simp only [run, Option.bind_eq_bind, Option.bind_eq_some_iff, Prod.exists] at hs
    obtain ⟨rc, s1, h1, hs⟩ := hs
    simp only [allSteps, h1, Bool.and_eq_true] at hb hu
    simp only [sessionStarts, h1] at hlt
    obtain ⟨hinv1, hcnt⟩ := step_inv env hinv ev rc h1 (by omega)
    obtain ⟨d, hd⟩ := holds_step hinv1 hold hb.1 h1
    have hrem := step_remembered hinv hold h hb.1 hu.1 h1
    -- a commit or a cancel is not that of the holder
    have hset : settles s ev = false := by
      have hother : ∀ k, k ≠ key → (s.ctx k).any (fun c => decide (c.id = s.cfgSessionId)) = false := by
        intro k hk
        cases hx : s.ctx k with
        | none => rfl
        | some x => simpa using (hold.other hinv hx hk).1
      have hb1 := (Bool.and_eq_true_iff.mp hb.1).2
      cases ev with
      | commit k order => exact hother k (by simpa using hb1)
      | cancel k => exact hother k (by simpa using hb1)
      | _ => rfl
    have hne : s1.cfgSessionId ≠ 0 := by
      rw [← hd.id_eq]
      exact hd.id_ne
    obtain ⟨s3, h3, ha3⟩ := step_alike ha h1 hset hne
    obtain ⟨hinv', hold', hrem', s2', hrun, ha'⟩ := ih s1 s3 d hinv1 hd hrem ha3 (by omega) hb.2 hu.2 hs
    refine ⟨hinv', hold', hrem', s2', ?_, ha'⟩
    simp only [run, h3, Option.bind_eq_bind, Option.bind_some]
    exact hrun

/-! ## Reads -/

/-- The holder reads the pending value. -/
theorem dbGet_remembered (hold : Holds s key c) (h : Remembered env p ref v s.store s.cache)
    (htype : writable ref.elem.type = true) :
    dbGet env s c p = some (.ok ⟨ref.elem, ref.stType, .scalar v⟩) := by
  obtain ⟨a, i, t, hval, -, -⟩ := h.slot
  obtain ⟨w, hw, hpend⟩ := h.marked a i hval
  have hvalue : s.store.value ref.value = some w := by
    rw [hval]
    exact hw
  obtain ⟨item, hitem, hnew⟩ := h.cached
  have hother : ¬(ref.elem.type = .inst ∨ ref.elem.type = .object) := by
    intro ht
    rcases ht with ht | ht
    · rw [ht] at htype
      cases htype
    · rw [ht] at htype
      cases htype
  have hcfg : s.cfgSessionId ≠ 0 ∧ c.id = s.cfgSessionId := by
    rw [← hold.id_eq]
    exact ⟨hold.id_ne, rfl⟩
  unfold dbGet cacheGetValue
  rw [if_pos hcfg]
  simp only [h.resolves, hvalue, hitem, hnew, if_neg hother, if_pos hpend, Option.bind_eq_bind,
    Option.bind_some]
  rfl

/-- A read past the cache sees no marks. -/
theorem getValue_alike {s2 : State} (ha : Alike s s2) {ref : Ref}
    (href : s.store.getElementRef env.schema p = some (some ref)) (hget : ref.elem.flags.get = false) :
    getValue env s.store p = getValue env s2.store p := by
  have hread : ∀ st : DmStore, st.getElementRef env.schema p = some (some ref) →
      getValue env st p = getValue env (plain st) p := by
    intro st hst
    have hno : ¬(ref.elem.type ≠ .counter ∧ ref.elem.flags.get = true) := by
      rw [hget]
      exact fun hh => absurd hh.2 Bool.false_ne_true
    simp only [getValue, plain_getElementRef, hst, elementValue, plain_value, Option.bind_eq_bind,
      Option.bind_some, if_neg hno]
    cases st.value ref.value with
    | none => rfl
    | some w =>
      simp only [Option.map_some, Option.bind_some, plainValue_parityAssert]
      cases w.parityAssert <;> rfl
  have href2 : s2.store.getElementRef env.schema p = some (some ref) := by
    rw [← plain_getElementRef, ← ha.store, plain_getElementRef]
    exact href
  rw [hread s.store href, ha.store, ← hread s2.store href2]

end Events

/-! ## Every interleaving -/

/-- In the state `s` that clients have reached from `s0`, the configure session of `key` sets the leaf `p`,
which has no get hook and is no array, to `v`. -/
structure PendingSet (env : Env) (s0 : State) (evs0 : List Event) (s s1 : State) (key : ℕ) (p : Selector)
    (avp : Avp) (ref : Ref) (v : Value) : Prop where
  init : init env = some s0
  reached : run env s0 evs0 = some s
  holder : ∃ c, Holds s key c
  resolves : s.store.getElementRef env.schema p = some (some ref)
  array : ref.elem.flags.array = false
  get : ref.elem.flags.get = false
  value : env.avp2value ref.elem avp = .ok v
  set : step env s (.set key [(p, avp)]) = some (.ok, s1)

/-- What `rpc_db_get` of `p` gives after more events: to the session of `key` the value that it has set, to
every other session the value that it gets if the set does not happen. -/
structure Private (env : Env) (s s' : State) (evs : List Event) (key : ℕ) (p : Selector) (answer : Answer) :
    Prop where
  own : ∃ d, s'.ctx key = some d ∧ dbGet env s' d p = some (.ok answer)
  others : ∃ s2, run env s evs = some s2 ∧ ∀ k d, k ≠ key → s'.ctx k = some d →
    s2.ctx k = some d ∧ dbGet env s' d p = dbGet env s2 d p

/-- A mark on a slot does not show in the plain store. -/
theorem plain_setPending {w : DmValue} (hw : st.slot a i = some w) (hpar : w.parity = true)
    (h : st.setSlot a i (setPending true w) = some st') : plain st' = plain st := by
  obtain ⟨t, ht, hi, rfl⟩ := DmStore.setSlot_eq_some.mp h
  refine plain_ext ?_ rfl rfl
  intro b
  rw [DmStore.put_heap, plain_heap]
  by_cases hb : b = a
  · rw [if_pos hb, hb, ht]
    obtain ⟨t0, ht0, hwt⟩ := DmStore.slot_eq_some.mp hw
    rw [ht] at ht0
    cases ht0
    have hsame : plainValue (setPending true w) = plainValue w := by
      unfold setPending plainValue
      rw [hpar]
    have hvals : (t.values.set i (setPending true w)).map plainValue = t.values.map plainValue := by
      obtain ⟨hlt, hget⟩ := List.getElem?_eq_some_iff.mp hwt
      rw [List.map_set, hsame, ← List.map_set, ← hget, List.set_getElem_self]
    simp only [Option.map_some, VTable.setValue, plainTable, hvals]
  · rw [if_neg hb]

section Interleaving
variable {s0 s s1 : State} {evs0 : List Event} {key : ℕ} {p : Selector} {avp : Avp} {ref : Ref} {v : Value}

theorem PendingSet.leaf (h : PendingSet env s0 evs0 s s1 key p avp ref v) : writable ref.elem.type = true := by
  have hv := h.value
  unfold Env.avp2value at hv
  split at hv
  · assumption
  · cases hv

/-- After the set the value is remembered, and the state differs in a mark and an item only. -/
theorem PendingSet.remembered (h : PendingSet env s0 evs0 s s1 key p avp ref v) :
    Remembered env p ref v s1.store s1.cache ∧ Alike s1 s ∧ ∀ c, Holds s key c → Holds s1 key c := by
  obtain ⟨c, hold⟩ := h.holder
  have hwf : StateWf False env s.store s.cache := run_wf evs0 s0 s (init_stateWf h.init) h.reached
  have hleaf := (avp2value_writable h.value).1
  have hs := h.set
  have hwf1 := (step_wf hwf (spares_nothing env s _) hs).1
  have harr : ¬ref.elem.flags.array = true := by
    rw [h.array]
    exact Bool.false_ne_true
  have hcfg : configure c.flags = true := hold.configures
  obtain ⟨w, hw, hpar⟩ := getElementRef_checked p ref h.resolves
  obtain ⟨st1, h1⟩ := DmStore.setValue_some hw (setPending true w)
  simp only [step, hold.ctx, dbSet, h.resolves, setCb, if_neg harr, h.value, if_pos hcfg, hw, h1,
    Option.bind_eq_bind, Option.bind_some, if_true, afterRequest] at hs
  rw [if_neg (by decide)] at hs
  cases hs
  obtain ⟨a, i, -, hval, -⟩ := getElementRef_leaf hwf.store h.resolves hleaf
  rw [hval] at hw h1
  have hp : plain st1 = plain s.store := plain_setPending hw hpar h1
  refine ⟨?_, ⟨hp, rfl, rfl, rfl⟩, fun c hc => ⟨hc.ctx, hc.configures, hc.id_eq, hc.id_ne⟩⟩
  refine ⟨hwf1, ?_, hleaf, ?_, cacheFind_cacheAdd_self _ _ _ _ _ _⟩
  · -- the mark does not move the leaf
    show st1.getElementRef env.schema p = _
    rw [← plain_getElementRef, hp, plain_getElementRef]
    exact h.resolves
  · intro b j hval'
    rw [hval] at hval'
    cases hval'
    exact ⟨setPending true w, by rw [DmStore.slot_setSlot h1, if_pos ⟨rfl, rfl⟩], rfl⟩

end Interleaving

/-- **Reads while a value is pending.** After the configure session has set a leaf, its reads give that value
and the reads of the others the running value as without the set, whatever the clients do in between,
until it sets the leaf again, commits, cancels or ends. No deletion is on the way to the leaf, and no
other session has the setter of the leaf assign the whole value. -/
theorem pending_private (env : Env) (s0 s s1 s' : State) (evs0 evs : List Event) (key : ℕ) (p : Selector)
    (avp : Avp) (ref : Ref) (v : Value) (h : PendingSet env s0 evs0 s s1 key p avp ref v)
    (hstarts : sessionStarts env s0 (evs0 ++ .set key [(p, avp)] :: evs) < 2 ^ 32 - 1)
    (hscope : allSteps env (untilSettled env key p) s1 evs = true)
    (hcond : allSteps env (undisturbed env key p ref.elem) s1 evs = true) (hrun : run env s1 evs = some s') :
    Private env s s' evs key p ⟨ref.elem, ref.stType, .scalar v⟩ := by
  obtain ⟨hinv0, hcnt0⟩ := init_inv env s0 h.init
  obtain ⟨hinv, hlt⟩ := run_inv_rest env evs0 (.set key [(p, avp)] :: evs) s0 s hinv0 h.reached (by omega)
  simp only [sessionStarts, h.set] at hlt
  obtain ⟨hinv1, hcnt1⟩ := step_inv env hinv _ .ok h.set (by omega)
  obtain ⟨hrem, ha, hkeep⟩ := h.remembered
  obtain ⟨c, hold⟩ := h.holder
  obtain ⟨hinv', ⟨d, hd⟩, hrem', s2, hrun2, ha'⟩ := run_remembered evs s1 s' s c hinv1 (hkeep c hold) hrem ha
    (by omega) hscope hcond hrun
  refine ⟨⟨d, hd.ctx, dbGet_remembered hd hrem' h.leaf⟩, s2, hrun2, ?_⟩
  intro k x hk hx
  refine ⟨by rw [← ha'.ctx]; exact hx, ?_⟩
  -- both runs read past the cache
  have hid := (hd.other hinv' hx hk).1
  unfold dbGet
  rw [if_neg fun hh => hid hh.2, if_neg fun hh => hid (hh.2.trans ha'.cfg.symm)]
  exact getValue_alike ha' hrem'.resolves h.get

/-- Two clients, of whom the first configures. -/
def samplePair : List Event := [.accept, .accept, .startSession 1 1, .startSession 2 0]

/-- The second client sets the number and the clock. -/
def sampleOthers : List Event := [.set 2 [([1], sampleAvp 4), ([5], sampleAvp 8)]]

def samplePairState : State := ⟨sampleStore, [], 1, 3, [⟨1, 1, 1⟩, ⟨2, 2, 0⟩]⟩

theorem samplePair_reached : run sampleEnv ⟨sampleStore, [], 0, 1, []⟩ samplePair = some samplePairState := rfl

theorem samplePair_holds : Holds samplePairState 1 ⟨1, 1, 1⟩ := ⟨rfl, rfl, rfl, by decide⟩

def sampleNumber : Ref := ⟨1, { sampleLeaf .uint with key := [118], validate := some 0 }, .token, .table 0, .slot 0 0⟩

def sampleClock : Ref :=
  ⟨5, { sampleLeaf .ticks with key := [99], set := some .clockCurrentdatetime }, .token, .table 0, .slot 0 4⟩

/-- The time in an answer. -/
def answeredTicks : Except DmResult Answer → ℤ
  | .ok ⟨_, _, .scalar (.ticks n)⟩ => n
  | _ => 0

theorem samplePair_set (p : Selector) (ref : Ref) (v : Value) (s1 : State)
    (href : samplePairState.store.getElementRef sampleSchema p = some (some ref))
    (harr : ref.elem.flags.array = false) (hget : ref.elem.flags.get = false)
    (hv : sampleEnv.avp2value ref.elem (sampleAvp 3) = .ok v)
    (hs : step sampleEnv samplePairState (.set 1 [(p, sampleAvp 3)]) = some (.ok, s1)) :
    PendingSet sampleEnv ⟨sampleStore, [], 0, 1, []⟩ samplePair samplePairState s1 1 p (sampleAvp 3) ref v :=
  ⟨rfl, samplePair_reached, ⟨_, samplePair_holds⟩, href, harr, hget, hv, hs⟩

theorem pending_private_sample : ∃ s1 s',
    PendingSet sampleEnv ⟨sampleStore, [], 0, 1, []⟩ samplePair samplePairState s1 1 [1] (sampleAvp 3)
      sampleNumber (.uint 3) ∧
    run sampleEnv s1 sampleOthers = some s' ∧
    Private sampleEnv samplePairState s' sampleOthers 1 [1] ⟨sampleNumber.elem, .token, .scalar (.uint 3)⟩ := by
  have hstep : ((step sampleEnv samplePairState (.set 1 [([1], sampleAvp 3)])).map fun x =>
      (x.1, allSteps sampleEnv (untilSettled sampleEnv 1 [1]) x.2 sampleOthers,
        allSteps sampleEnv (undisturbed sampleEnv 1 [1] sampleNumber.elem) x.2 sampleOthers,
        (run sampleEnv x.2 sampleOthers).isSome)) = some (.ok, true, true, true) := by
    decide +kernel
  obtain ⟨⟨rc, s1⟩, hs, hx⟩ := Option.map_eq_some_iff.mp hstep
  simp only [Prod.mk.injEq] at hx
  obtain ⟨rfl, hscope, hcond, hsome⟩ := hx
  obtain ⟨s', hrun⟩ := Option.isSome_iff_exists.mp hsome
  have hset := samplePair_set [1] sampleNumber (.uint 3) s1 (by decide +kernel) rfl rfl rfl hs
  exact ⟨s1, s', hset, hrun, pending_private sampleEnv _ _ _ _ samplePair sampleOthers 1 [1] _ _ _ hset
    (by decide +kernel) hscope hcond hrun⟩

/-- The setter of the clock assigns the whole value. When the second client sets the clock, the mark is
gone, and the first reads what the second has set. -/
theorem pending_overwritten : ∃ s1 s',
    PendingSet sampleEnv ⟨sampleStore, [], 0, 1, []⟩ samplePair samplePairState s1 1 [5] (sampleAvp 3)
      sampleClock (.ticks 3) ∧
    allSteps sampleEnv (untilSettled sampleEnv 1 [5]) s1 sampleOthers = true ∧
    run sampleEnv s1 sampleOthers = some s' ∧
    ¬Private sampleEnv samplePairState s' sampleOthers 1 [5] ⟨sampleClock.elem, .token, .scalar (.ticks 3)⟩ := by
  have hstep : ((step sampleEnv samplePairState (.set 1 [([5], sampleAvp 3)])).map fun x =>
      (x.1, allSteps sampleEnv (untilSettled sampleEnv 1 [5]) x.2 sampleOthers,
        (run sampleEnv x.2 sampleOthers).map fun s' =>
          (s'.ctx 1, (dbGet sampleEnv s' ⟨1, 1, 1⟩ [5]).map answeredTicks))) = some (.ok, true, some (some ⟨1, 1, 1⟩, some 8)) := by
    decide +kernel
  obtain ⟨⟨rc, s1⟩, hs, hx⟩ := Option.map_eq_some_iff.mp hstep
  simp only [Prod.mk.injEq] at hx
  obtain ⟨rfl, hscope, hx⟩ := hx
  obtain ⟨s', hrun, hx⟩ := Option.map_eq_some_iff.mp hx
  obtain ⟨hctx, hread⟩ := Prod.mk.inj hx
  have hset := samplePair_set [5] sampleClock (.ticks 3) s1 (by decide +kernel) rfl rfl rfl hs
  refine ⟨s1, s', hset, hscope, hrun, ?_⟩
  intro hp
  obtain ⟨d, hd, hget⟩ := hp.own
  rw [hctx] at hd
  cases hd
  rw [hget] at hread
  cases hread

end Mand.Server
