import Mand.Server.Discard
import Mand.Store.Write

/-! # What the requests keep

Every request leaves a well-formed store well-formed, and what no deletion has on its path can still
be found where it was. -/
namespace Mand.Server
open Mand.Store Mand.Index Mand.Msg
set_option autoImplicit false

variable {full : Prop} {env : Env} {st st' : DmStore} {P : Selector → Prop}

/-! ## Leaves -/

theorem avp2value_writable {e : DmElement} {avp : Avp} {v : Value} (h : env.avp2value e avp = .ok v) :
    e.container = false ∧ e.type ≠ .counter := by
  unfold Env.avp2value at h
  by_cases hw : writable e.type = true
  · constructor
    · simp only [DmElement.container, decide_eq_false_iff_not, not_or]
      constructor
      · intro ht
        rw [ht] at hw
        cases hw
      · intro ht
        rw [ht] at hw
        cases hw
    · intro ht
      rw [ht] at hw
      cases hw
  · rw [if_neg hw] at h
    cases h

theorem setPending_kept {S : Schema} {a i : ℕ} {e : DmElement} {v : DmValue} {b : Bool}
    (hw : HeapWf full nowhere S st) (hl : LeafAt S st a i e) (hcnt : full → e.type ≠ .counter)
    (hv : st.slot a i = some v) (h : st.setSlot a i (setPending b v) = some st') : Kept full S st st' := by
  obtain ⟨y, hy⟩ := hl.scalar hw hv
  exact Kept.setLeaf hw hl hcnt h hy fun _ _ _ => rfl

/-! ## Arrays -/

theorem setEntry_kept {e : DmElement} {r : Addr} {clear : Bool} {avp : Avp} {res : SetResult}
    (hfull : ¬full) (hw : HeapWf full nowhere env.schema st) (hl : LeafAt env.schema st r 0 e)
    (h : setEntry env st e r clear avp = some (res, st')) : Kept full env.schema st st' := by
  have hcnt : full → e.type ≠ .counter := fun hf => absurd hf hfull
  simp only [setEntry, Option.bind_eq_bind, Option.bind_eq_some_iff] at h
  obtain ⟨old, hold, u, hp, h⟩ := h
  have hp : old.parity = true := (parityAssert_eq old u).mp hp
  obtain ⟨x, hx⟩ := hl.scalar hw hold
  split at h
  · simp only [Option.bind_eq_some_iff, Option.some.injEq, Prod.mk.injEq] at h
    obtain ⟨st1, h1, -, rfl⟩ := h
    by_cases hc : clear = true
    · rw [if_pos hc] at h1
      exact Kept.setLeaf hw hl hcnt h1 rfl fun _ _ _ => rfl
    · rw [if_neg hc] at h1
      exact Kept.setLeaf hw hl hcnt h1 hx fun _ _ _ => hp
  · simp only [Option.bind_eq_some_iff, Option.some.injEq, Prod.mk.injEq] at h
    obtain ⟨st1, h1, st2, h2, -, rfl⟩ := h
    have hk1 : Kept full env.schema st st1 := Kept.setLeaf hw hl hcnt h1 rfl fun _ _ _ => rfl
    obtain ⟨hw2, hk2⟩ := updateInstanceNodeIndex_spec hk1.wf (fun _ _ _ _ _ hx => hx) h2
    exact hk1.trans ⟨hw2, hk2⟩

/-- The selector of an array has `e` as the first element of its rows. -/
def ArrayAt (S : Schema) (sel : Selector) (e : DmElement) : Prop :=
  ∀ kw i o, S.place (S.path sel).dropLast = some (kw, false) → (S.path sel).getLast? = some (i + 1) →
    (S.table kw).elems[i]? = some o → (S.table o.table).elems[0]? = some e ∧ e.container = false

/-- The row that an array gets for an entry. -/
theorem arrayRow_leaf {sel : Selector} {e : DmElement} {id : ℕ} {r : Addr} (hfull : ¬full)
    (ha : ArrayAt env.schema sel e) (hid : id < 2 ^ 16) (hw : HeapWf full nowhere env.schema st)
    (h : addInstanceBySelector env.schema st sel id = some (some r, st')) :
    LeafAt env.schema st' r 0 e ∧ st.next ≤ r := by
  obtain ⟨hw1, hk1, hres⟩ := addInstanceBySelector_spec hw hid (fun hf => absurd hf hfull) h
  obtain ⟨ref, a, i, t, kw, m, href, hval, ht, hp, he, hobj, hsel, hadd⟩ := hres r rfl
  obtain ⟨tr, htr, -, hplace, -⟩ := hadd.table hw1 hk1 ht hp he hobj
  have hpath : env.schema.path sel = t.id ++ [i + 1] := by
    have hat := getElementRef_path hw href
    have hat' := getElementRef_selIds hw href (by simp [DmElement.container, hobj])
    rw [hat.unique hat', hsel]
  obtain ⟨he0, hleaf⟩ := ha kw i ref.elem (by rw [hpath, List.dropLast_concat]; exact hp)
    (by rw [hpath, List.getLast?_concat]) he
  exact ⟨⟨tr, ref.elem.table, htr, hplace, he0, hleaf⟩, hadd.fresh⟩

theorem setEntries_kept {sel : Selector} {e : DmElement} {clear : Bool} {last : Option SetResult} {res : SetResult}
    (hfull : ¬full) (ha : ArrayAt env.schema sel e) (entries : List Avp) (id : ℕ) (st st' : DmStore)
    (hid : id < 2 ^ 16) (hw : HeapWf full nowhere env.schema st)
    (h : setEntries env sel e clear last id entries st = some (res, st')) :
    Kept full env.schema st st' := by
  induction entries generalizing id st with
  | nil =>
    obtain ⟨res', -, hres⟩ := Option.map_eq_some_iff.mp h
    cases hres
    exact Kept.refl hw
  | cons avp rest ih =>
    simp only [setEntries, Option.bind_eq_bind, Option.bind_eq_some_iff, Prod.exists] at h
    obtain ⟨r, st1, h1, h⟩ := h
    obtain ⟨hw1, hk1, -⟩ := addInstanceBySelector_spec hw hid (fun hf => absurd hf hfull) h1
    have hkept1 : Kept full env.schema st st1 := ⟨hw1, hk1⟩
    cases r with
    | none =>
      cases h
      exact hkept1
    | some r =>
      simp only [Option.bind_eq_some_iff, Prod.exists] at h
      obtain ⟨n, hn, res2, st2, h2, h⟩ := h
      have hk2 := setEntry_kept hfull hw1 (arrayRow_leaf hfull ha hid hw h1).1 h2
      split at h
      · exact (hkept1.trans hk2).trans (ih _ _ (Nat.mod_lt _ (by decide)) hk2.wf h)
      · cases h
        exact hkept1.trans hk2

/-- The first element behind an array that a selector leads to. -/
theorem arrayAt_ref {S : Schema} {sel : Selector} {ref : Ref} {e0 : DmElement} (hw : HeapWf full nowhere S st)
    (href : st.getElementRef S sel = some (some ref)) (hobj : ref.elem.type = .object)
    (harr : ref.elem.flags.array = true) (he0 : (S.table ref.elem.table).elems[0]? = some e0) :
    ArrayAt S sel e0 := by
  have hat := getElementRef_path hw href
  intro kw i o hp hlast ho
  have hselids : S.path sel = (S.path sel).dropLast ++ [i + 1] :=
    (List.dropLast_append_getLast? (i + 1) hlast).symm
  have helem : ref.elem = o ∧ ∃ k, ref.elem ∈ (S.table k).elems := by
    generalize S.path sel = q at hat hp hselids
    cases hat with
    | slot a j t kw' e stType ht hp' he =>
      rw [List.dropLast_concat] at hp hselids
      have hji := List.append_cancel_left hselids
      rw [hp'] at hp
      cases hp
      cases hji
      rw [he] at ho
      cases ho
      exact ⟨rfl, _, List.mem_of_getElem? he⟩
    | row a j t kw' e r id tr ht hp' he hobj' htr hid hrow hmem =>
      -- a row is no object
      have hsplit : t.id ++ [j + 1, id] = t.id ++ [j + 1] ++ [id] := by simp
      rw [hsplit, List.dropLast_concat, place_object hp' he hobj'] at hp
      cases hp
  obtain ⟨rfl, k, hmem⟩ := helem
  refine ⟨he0, S.array_leaf k ref.elem hmem hobj harr e0 ?_⟩
  rw [List.head?_eq_getElem?]
  exact he0

/-- `dmconfig_set_array_cb` deletes the rows first. -/
theorem setArray_spec {sel : Selector} {ref : Ref} {avp : Avp} {res : SetResult}
    (hw : HeapWf full nowhere env.schema st) (href : st.getElementRef env.schema sel = some (some ref))
    (harr : ref.elem.flags.array = true)
    (hP : bypasses env.schema sel avp = true → ¬full ∧ ∀ q, env.schema.path sel <+: q → ¬P q)
    (h : setArray env st sel ref.elem ref.value avp = some (res, st')) :
    HeapWf full nowhere env.schema st' ∧ Keeps P st st' := by
  by_cases hby : bypasses env.schema sel avp = true
  · obtain ⟨hfull, hP⟩ := hP hby
    unfold setArray at h
    simp only [Option.bind_eq_bind, Option.bind_eq_some_iff] at h
    obtain ⟨v, -, h⟩ := h
    split at h
    · cases h
      exact ⟨hw, Keeps.refl P hw.lt⟩
    rename_i hcheck
    have hobj : ref.elem.type = .object := by
      by_contra hne
      exact hcheck (.inl hne)
    split at h
    · cases h
      exact ⟨hw, Keeps.refl P hw.lt⟩
    simp only [Option.bind_eq_some_iff, Prod.exists] at h
    obtain ⟨found, st1, hdel, h⟩ := h
    have hat := getElementRef_path hw href
    obtain ⟨hw1, hcases⟩ := delTableBySelector_spec hw hdel
    have hk1 : Keeps P st st1 := by
      rcases hcases with ⟨-, rfl⟩ | ⟨-, ref', q, href', hat', hd⟩
      · exact Keeps.refl P hw.lt
      · rw [href] at href'
        cases href'
        rw [hat'.unique hat] at hd
        exact hd.keeps.mono fun p hp hpre => hP p hpre hp
    split at h
    · cases h
      exact ⟨hw1, hk1⟩
    generalize (avpEntries avp).1 = entries, (avpEntries avp).2 = last at h
    cases entries with
    | nil =>
      obtain ⟨res', -, hres⟩ := Option.map_eq_some_iff.mp h
      cases hres
      exact ⟨hw1, hk1⟩
    | cons avp' rest =>
      simp only [Option.bind_eq_some_iff] at h
      obtain ⟨e0, he0, h⟩ := h
      have ha := arrayAt_ref hw href hobj harr he0
      have hk2 := setEntries_kept hfull ha _ 1 st1 st' (by decide) hw1 h
      exact ⟨hk2.wf, hk1.trans (hk2.keeps.mono fun _ _ => trivial)⟩
  · obtain ⟨rfl, -⟩ := setArray_same env st st' sel avp ref res harr href (Bool.eq_false_iff.mpr hby) h
    exact ⟨hw, Keeps.refl P hw.lt⟩

/-- `dmconfig_set_cb`. -/
theorem setCb_spec {cache cache' : Cache} {flags : ℕ} {sel : Selector} {ref : Ref} {avp : Avp}
    {res : SetResult} (hw : HeapWf full nowhere env.schema st)
    (href : st.getElementRef env.schema sel = some (some ref))
    (hP : bypasses env.schema sel avp = true → ¬full ∧ ∀ q, env.schema.path sel <+: q → ¬P q)
    (h : setCb env st cache flags sel ref avp = some (res, st', cache')) :
    HeapWf full nowhere env.schema st' ∧ Keeps P st st' ∧ (cache' = cache ∨
      configure flags = true ∧ Keeps (fun _ => True) st st' ∧ ∃ v, env.avp2value ref.elem avp = .ok v ∧
        cache' = cacheAdd cache sel ref.elem ref.base ref.value (newValue v)) := by
  unfold setCb at h
  split at h
  · rename_i harr
    simp only [Option.bind_eq_bind, Option.bind_eq_some_iff, Prod.exists, Option.some.injEq,
      Prod.mk.injEq] at h
    obtain ⟨r, st1, h1, -, rfl, rfl⟩ := h
    obtain ⟨hw', hk⟩ := setArray_spec hw href harr hP h1
    exact ⟨hw', hk, .inl rfl⟩
  · split at h
    · cases h
      exact ⟨hw, Keeps.refl P hw.lt, .inl rfl⟩
    · rename_i v hv
      obtain ⟨hleaf, hcnt⟩ := avp2value_writable hv
      split at h
      · rename_i hcfg
        simp only [Option.bind_eq_bind, Option.bind_eq_some_iff, Option.some.injEq, Prod.mk.injEq] at h
        obtain ⟨old, hold, st1, h1, -, rfl, rfl⟩ := h
        obtain ⟨a, i, -, hvalue, hl⟩ := getElementRef_leaf hw href hleaf
        rw [hvalue] at hold h1
        have hk := setPending_kept hw hl (fun _ => hcnt) hold h1
        exact ⟨hk.wf, hk.keeps.mono fun _ _ => trivial, .inr ⟨hcfg, hk.keeps, v, hv, rfl⟩⟩
      · simp only [Option.bind_eq_bind, Option.bind_eq_some_iff, Prod.exists, Option.some.injEq,
          Prod.mk.injEq] at h
        obtain ⟨r, st1, h1, -, rfl, rfl⟩ := h
        have hk : Kept full env.schema st st1 := overwriteValue_kept hw (by
          intro ref' href'
          rw [href] at href'
          cases href'
          exact ⟨hleaf, fun _ => hcnt⟩) rfl rfl h1
        exact ⟨hk.wf, hk.keeps.mono fun _ _ => trivial, .inl rfl⟩

/-! ## Items of the cache -/

/-- An item is about a leaf, as long as the table of the leaf is there. -/
structure ItemWf (S : Schema) (st : DmStore) (item : CacheItem) : Prop where
  leaf : ∃ a i, item.base = .table a ∧ item.oldValue = .slot a i ∧ a < st.next ∧
    ∀ t, st.heap a = some t → LeafAt S st a i item.elem
  elem : item.elem.container = false ∧ item.elem.type ≠ .counter
  value : ∃ x, item.newValue.content = .scalar x
  parity : item.newValue.parity = true

/-- Addresses are not used again. -/
theorem ItemWf.keeps {S : Schema} {item : CacheItem} (h : ItemWf S st item) (hk : Keeps P st st') :
    ItemWf S st' item := by
  refine ⟨?_, h.elem, h.value, h.parity⟩
  obtain ⟨a, i, hb, hv, hlt, hl⟩ := h.leaf
  refine ⟨a, i, hb, hv, lt_of_lt_of_le hlt hk.next, ?_⟩
  intro t' ht'
  cases ht : st.heap a with
  | none =>
    rw [hk.dead a hlt ht] at ht'
    cases ht'
  | some t =>
    obtain ⟨t0, kw, ht0, hp, he, hleaf⟩ := hl t ht
    rw [ht] at ht0
    cases ht0
    exact ⟨t', kw, ht', by rw [hk.ids a t t' ht ht']; exact hp, he, hleaf⟩

theorem mem_cacheAdd_wf {S : Schema} {cache : Cache} {sel : Selector} {ref : Ref} {v : Value}
    {item : CacheItem} (hw : HeapWf full nowhere S st) (hcache : ∀ x ∈ cache, ItemWf S st x)
    (href : st.getElementRef S sel = some (some ref))
    (helem : ref.elem.container = false ∧ ref.elem.type ≠ .counter)
    (h : item ∈ cacheAdd cache sel ref.elem ref.base ref.value (newValue v)) : ItemWf S st item := by
  have hnew : ∀ x : CacheItem, ItemWf S st x → ItemWf S st { x with newValue := newValue v, code := 0 } :=
    fun x hx => ⟨hx.leaf, hx.elem, ⟨v, rfl⟩, rfl⟩
  unfold cacheAdd at h
  split at h
  · rcases (mem_cacheInsert _ item cache).mp h with rfl | hmem
    · refine ⟨?_, helem, ⟨v, rfl⟩, rfl⟩
      obtain ⟨a, i, hbase, hvalue, hl⟩ := getElementRef_leaf hw href helem.1
      obtain ⟨t, kw, ht, hrest⟩ := hl
      exact ⟨a, i, hbase, hvalue, hw.lt a t ht, fun _ _ => ⟨t, kw, ht, hrest⟩⟩
    · exact hcache item hmem
  · obtain ⟨x, hx, rfl⟩ := List.mem_map.mp h
    split
    · exact hnew x (hcache x hx)
    · exact hcache x hx

theorem cacheReset_kept {S : Schema} (cache : Cache) (st st' : DmStore) (hw : HeapWf full nowhere S st)
    (hcache : ∀ x ∈ cache, ItemWf S st x) (h : cacheReset st cache = some st') : Kept full S st st' := by
  induction cache generalizing st with
  | nil =>
    cases h
    exact Kept.refl hw
  | cons item rest ih =>
    simp only [cacheReset, Option.bind_eq_bind, Option.bind_eq_some_iff] at h
    obtain ⟨v, hv, st1, h1, h⟩ := h
    have hitem := hcache item List.mem_cons_self
    obtain ⟨a, i, -, hvalue, -, hl⟩ := hitem.leaf
    rw [hvalue] at hv h1
    obtain ⟨t, ht, -⟩ := DmStore.slot_eq_some.mp hv
    have hk1 : Kept full S st st1 := setPending_kept hw (hl t ht) (fun _ => hitem.elem.2) hv h1
    refine hk1.trans (ih st1 hk1.wf ?_ h)
    intro x hx
    exact (hcache x (List.mem_cons_of_mem _ hx)).keeps hk1.keeps

/-- Nothing can be written to a table that is gone. -/
theorem assign_gone {undef a i : ℕ} {e : DmElement} {val v : DmValue} {r : DmResult}
    (hgone : st.heap a = none) (h : assign undef st e a (.slot a i) val = some (r, st'))
    (hv : st'.slot a i = some v) : False := by
  have hset : ∀ w, st.setValue (.slot a i) w = none := by
    intro w
    show st.setSlot a i w = none
    unfold DmStore.setSlot
    rw [hgone]
    rfl
  have hslot : st.slot a i = none := by
    rw [DmStore.slot_eq, hgone]
    rfl
  have hval : st.value (.slot a i) = none := hslot
  unfold assign at h
  split at h
  · rename_i hook _
    cases hook with
    | clockCurrentdatetime =>
      simp only [SetHook.run, hset] at h
      cases h
    | addressPrefixlength read update =>
      simp only [SetHook.run, hset] at h
      cases h
    | addressNetmask update =>
      simp only [SetHook.run] at h
      split at h
      · rw [hval] at h
        cases h
      · cases h
        rw [hslot] at hv
        cases hv
  · rw [hval] at h
    cases h

theorem applyItem_kept {item : CacheItem} (hw : HeapWf full nowhere env.schema st)
    (hitem : ItemWf env.schema st item) (h : applyItem env st item = some st') :
    Kept full env.schema st st' := by
  obtain ⟨a, i, hbase, hvalue, -, hl⟩ := hitem.leaf
  obtain ⟨x, hx⟩ := hitem.value
  unfold applyItem at h
  rw [hbase] at h
  simp only [hvalue, Option.bind_eq_bind, Option.bind_eq_some_iff, Prod.exists] at h
  obtain ⟨r, st1, h1, v, hv, st2, h2, h3⟩ := h
  have hl : LeafAt env.schema st a i item.elem := by
    cases ht : st.heap a with
    | some t => exact hl t ht
    | none => exact (assign_gone ht h1 hv).elim
  have hcnt : full → item.elem.type ≠ .counter := fun _ => hitem.elem.2
  have hk1 : Kept full env.schema st st1 := assign_kept hw hl hcnt hx hitem.parity h1
  have hl1 := hl.keeps hk1.keeps
  obtain ⟨y, hy⟩ := hl1.scalar hk1.wf hv
  have hk2 : Kept full env.schema st1 st2 := Kept.setLeaf hk1.wf hl1 hcnt h2 hy fun _ _ _ => rfl
  exact (hk1.trans hk2).trans (reindex_kept hk2.wf h3)

theorem cacheApply_kept (items : List CacheItem) (st st' : DmStore)
    (hw : HeapWf full nowhere env.schema st) (hitems : ∀ x ∈ items, ItemWf env.schema st x)
    (h : cacheApply env st items = some st') : Kept full env.schema st st' := by
  induction items generalizing st with
  | nil =>
    cases h
    exact Kept.refl hw
  | cons item rest ih =>
    simp only [cacheApply, Option.bind_eq_bind, Option.bind_eq_some_iff] at h
    obtain ⟨st1, h1, h⟩ := h
    have hk1 := applyItem_kept hw (hitems item List.mem_cons_self) h1
    refine hk1.trans (ih st1 hk1.wf ?_ h)
    intro x hx
    exact (hitems x (List.mem_cons_of_mem _ hx)).keeps hk1.keeps

/-! ## Requests -/

/-- The store and the cache fit together. -/
structure StateWf (full : Prop) (env : Env) (st : DmStore) (cache : Cache) : Prop where
  store : HeapWf full nowhere env.schema st
  items : ∀ x ∈ cache, ItemWf env.schema st x

theorem StateWf.setCb {cache cache' : Cache} {flags : ℕ} {sel : Selector} {ref : Ref} {avp : Avp}
    {res : SetResult} (h : StateWf full env st cache)
    (href : st.getElementRef env.schema sel = some (some ref))
    (hP : bypasses env.schema sel avp = true → ¬full ∧ ∀ q, env.schema.path sel <+: q → ¬P q)
    (hs : setCb env st cache flags sel ref avp = some (res, st', cache')) :
    StateWf full env st' cache' ∧ Keeps P st st' := by
  obtain ⟨hw, hk, hcache⟩ := setCb_spec h.store href hP hs
  refine ⟨⟨hw, ?_⟩, hk⟩
  intro x hx
  rcases hcache with rfl | ⟨-, -, v, hv, rfl⟩
  · exact (h.items x hx).keeps hk
  · exact (mem_cacheAdd_wf h.store h.items href (avp2value_writable hv) hx).keeps hk

theorem StateWf.dbSet {flags : ℕ} (values : List (Selector × Avp)) (st st' : DmStore) (cache cache' : Cache)
    {rc : Rc} (h : StateWf full env st cache)
    (hP : ∀ x ∈ values, bypasses env.schema x.1 x.2 = true →
      ¬full ∧ ∀ q, env.schema.path x.1 <+: q → ¬P q)
    (hs : dbSet env flags values st cache = some (rc, st', cache')) :
    StateWf full env st' cache' ∧ Keeps P st st' := by
  induction values generalizing st cache with
  | nil =>
    cases hs
    exact ⟨h, Keeps.refl P h.store.lt⟩
  | cons x rest ih =>
    obtain ⟨sel, avp⟩ := x
    simp only [Server.dbSet, Option.bind_eq_bind, Option.bind_eq_some_iff] at hs
    obtain ⟨found, href, hs⟩ := hs
    cases found with
    | none =>
      cases hs
      exact ⟨h, Keeps.refl P h.store.lt⟩
    | some ref =>
      simp only [Option.bind_eq_some_iff, Prod.exists] at hs
      obtain ⟨r, st1, cache1, h1, hs⟩ := hs
      obtain ⟨hwf1, hk1⟩ := h.setCb href (hP (sel, avp) List.mem_cons_self) h1
      split at hs
      · obtain ⟨hwf2, hk2⟩ := ih st1 cache1 hwf1 (fun x hx => hP x (List.mem_cons_of_mem _ hx)) hs
        exact ⟨hwf2, hk1.trans hk2⟩
      · cases hs
        exact ⟨hwf1, hk1⟩

theorem StateWf.reset {s s' : State} (h : StateWf full env s.store s.cache) (hs : s.resetCache = some s') :
    StateWf full env s'.store s'.cache ∧ Keeps P s.store s'.store := by
  simp only [State.resetCache, Option.bind_eq_bind, Option.bind_eq_some_iff, Option.some.injEq] at hs
  obtain ⟨st1, h1, rfl⟩ := hs
  have hk := cacheReset_kept s.cache s.store st1 h.store h.items h1
  exact ⟨⟨hk.wf, fun x hx => absurd hx List.not_mem_nil⟩, hk.keeps.mono fun _ _ => trivial⟩

theorem StateWf.leave {s s' : State} {c : Ctx} (h : StateWf full env s.store s.cache)
    (hs : s.leave c = some s') : StateWf full env s'.store s'.cache ∧ Keeps P s.store s'.store := by
  unfold State.leave at hs
  split at hs
  · exact StateWf.reset (s := { s with cfgSessionId := 0 }) h hs
  · cases hs
    exact ⟨h, Keeps.refl P h.store.lt⟩

theorem StateWf.endSession {s s' : State} {c : Ctx} (h : StateWf full env s.store s.cache)
    (hs : endSession s c = some s') : StateWf full env s'.store s'.cache ∧ Keeps P s.store s'.store := by
  simp only [Server.endSession, Option.bind_eq_bind, Option.bind_eq_some_iff, Option.some.injEq] at hs
  obtain ⟨s1, h1, rfl⟩ := hs
  obtain ⟨hwf, hk⟩ := h.leave (P := P) h1
  exact ⟨hwf, hk⟩

theorem StateWf.afterRequest {s s' : State} {key : ℕ} {rc rc' : Rc} (h : StateWf full env s.store s.cache)
    (hs : afterRequest s key rc = some (rc', s')) :
    StateWf full env s'.store s'.cache ∧ Keeps P s.store s'.store := by
  unfold Server.afterRequest at hs
  split at hs
  · simp only [Option.bind_eq_bind, Option.bind_eq_some_iff, Option.some.injEq, Prod.mk.injEq] at hs
    obtain ⟨c, -, s1, h1, -, rfl⟩ := hs
    exact h.endSession h1
  · cases hs
    exact ⟨h, Keeps.refl P h.store.lt⟩

/-- The validators write nothing but the codes of the items. -/
theorem cacheValidate_items (env : Env) (st : DmStore) (cache cache' : Cache) (r : ℕ)
    (h : cacheValidate env st cache = some (r, cache')) (x : CacheItem) (hx : x ∈ cache') :
    ∃ y ∈ cache, ∃ code, x = { y with code := code } := by
  induction cache generalizing r cache' with
  | nil =>
    cases h
    cases hx
  | cons item rest ih =>
    have hdone : ∀ rs rest' code, cacheValidate env st rest = some (rs, rest') →
        cache' = { item with code := code } :: rest' →
        ∃ y ∈ item :: rest, ∃ code, x = { y with code := code } := by
      intro rs rest' code hrest hc
      rw [hc] at hx
      rcases List.mem_cons.mp hx with rfl | hx
      · exact ⟨item, List.mem_cons_self, code, rfl⟩
      · obtain ⟨y, hy, hxy⟩ := ih rest' rs hrest hx
        exact ⟨y, List.mem_cons_of_mem _ hy, hxy⟩
    unfold cacheValidate at h
    split at h
    · split at h
      · simp only [Option.bind_eq_bind, Option.bind_eq_some_iff, Prod.exists, Option.some.injEq,
          Prod.mk.injEq] at h
        obtain ⟨t, -, rs, rest', hrest, -, rfl⟩ := h
        exact hdone rs rest' _ hrest rfl
      · simp only [Option.bind_eq_bind, Option.bind_eq_some_iff, Prod.exists, Option.some.injEq,
          Prod.mk.injEq] at h
        obtain ⟨rs, rest', hrest, -, rfl⟩ := h
        exact hdone rs rest' item.code hrest rfl
    · simp only [Option.bind_eq_bind, Option.bind_eq_some_iff, Prod.exists, Option.some.injEq,
        Prod.mk.injEq] at h
      obtain ⟨rs, rest', hrest, -, rfl⟩ := h
      exact hdone rs rest' item.code hrest rfl

theorem StateWf.validated {cache cache' : Cache} {r : ℕ} (h : StateWf full env st cache)
    (hs : cacheValidate env st cache = some (r, cache')) : StateWf full env st cache' := by
  refine ⟨h.store, ?_⟩
  intro x hx
  obtain ⟨y, hy, code, rfl⟩ := cacheValidate_items env st cache cache' r hs x hx
  have hwy := h.items y hy
  exact ⟨hwy.leaf, hwy.elem, hwy.value, hwy.parity⟩

theorem StateWf.commit {s s' : State} {c : Ctx} {order : List Selector} {rc : Rc}
    (h : StateWf full env s.store s.cache) (hs : commit env s c order = some (rc, s')) :
    StateWf full env s'.store s'.cache ∧ Keeps P s.store s'.store := by
  rcases commit_cases env hs with ⟨-, rfl, -⟩ | ⟨-, -, cache, hval, rfl⟩ |
    ⟨-, -, r, cache, st, hval, -, -, happ, rfl⟩
  · exact ⟨h, Keeps.refl P h.store.lt⟩
  · exact ⟨h.validated hval, Keeps.refl P h.store.lt⟩
  · have hk := cacheApply_kept _ s.store st h.store (by
      intro x hx
      obtain ⟨sel, -, hfind⟩ := List.mem_filterMap.mp hx
      exact (h.validated hval).items x (cacheFind_some hfind).1) happ
    exact ⟨⟨hk.wf, fun x hx => absurd hx List.not_mem_nil⟩, hk.keeps.mono fun _ _ => trivial⟩

/-- What an event deletes has no path in `P`. If the counts matter, no array is set past the cache and no
number is taken twice. -/
def Spares (full : Prop) (P : Selector → Prop) (env : Env) (s : State) : Event → Prop
  | .set _ values => ∀ x ∈ values, bypasses env.schema x.1 x.2 = true →
    ¬full ∧ ∀ q, env.schema.path x.1 <+: q → ¬P q
  | .addInstance _ sel id => full → ∀ ref a i,
    s.store.getElementRef env.schema sel = some (some ref) → ref.value = .slot a i →
    NumberFree s.store a i (id % 2 ^ 16)
  | .delInstance _ sel => ∀ q, env.schema.path sel <+: q → ¬P q
  | _ => True

theorem step_wf {s s' : State} {ev : Event} {rc : Rc} (h : StateWf full env s.store s.cache)
    (hP : Spares full P env s ev) (hs : step env s ev = some (rc, s')) :
    StateWf full env s'.store s'.cache ∧ Keeps P s.store s'.store := by
  have hsame : StateWf full env s.store s.cache ∧ Keeps P s.store s.store :=
    ⟨h, Keeps.refl P h.store.lt⟩
  cases ev with
  | accept =>
    cases hs
    exact hsame
  | startSession key flags =>
    obtain ⟨c, -, hs⟩ := Option.bind_eq_some_iff.mp hs
    have hst : s'.store = s.store ∧ s'.cache = s.cache := by
      have hs := Option.some.inj hs
      unfold startSession at hs
      split at hs
      · cases hs
        exact ⟨rfl, rfl⟩
      split at hs
      · cases hs
        exact ⟨rfl, rfl⟩
      · cases hs
        split <;> exact ⟨rfl, rfl⟩
    rw [hst.1, hst.2]
    exact hsame
  | switchSession key flags =>
    obtain ⟨c, -, hs⟩ := Option.bind_eq_some_iff.mp hs
    unfold switchSession at hs
    split at hs
    · cases hs
      exact hsame
    split at hs
    · split at hs
      · cases hs
        exact hsame
      · cases hs
        exact hsame
    · simp only [Option.bind_eq_bind, Option.bind_eq_some_iff, Option.some.injEq, Prod.mk.injEq] at hs
      obtain ⟨s1, h1, -, rfl⟩ := hs
      obtain ⟨hwf, hk⟩ := h.leave (P := P) h1
      exact ⟨hwf, hk⟩
  | endSession key =>
    simp only [step, Option.bind_eq_bind, Option.bind_eq_some_iff, Option.some.injEq, Prod.mk.injEq] at hs
    obtain ⟨c, -, s1, h1, -, rfl⟩ := hs
    exact h.endSession h1
  | set key values =>
    simp only [step, Option.bind_eq_bind, Option.bind_eq_some_iff, Prod.exists] at hs
    obtain ⟨c, -, rc1, st1, cache1, h1, h2⟩ := hs
    obtain ⟨hwf1, hk1⟩ := StateWf.dbSet values s.store st1 s.cache cache1 h hP h1
    obtain ⟨hwf2, hk2⟩ := StateWf.afterRequest (P := P) (s := { s with store := st1, cache := cache1 }) hwf1 h2
    exact ⟨hwf2, hk1.trans hk2⟩
  | addInstance key sel id =>
    simp only [step, Option.bind_eq_bind, Option.bind_eq_some_iff, Prod.exists, Option.some.injEq,
      Prod.mk.injEq] at hs
    obtain ⟨c, -, r, st1, h1, -, rfl⟩ := hs
    obtain ⟨hw1, hk1, -⟩ := addInstanceBySelector_spec (P := P) h.store (Nat.mod_lt _ (by decide)) hP h1
    exact ⟨⟨hw1, fun x hx => (h.items x hx).keeps hk1⟩, hk1⟩
  | delInstance key sel =>
    simp only [step, Option.bind_eq_bind, Option.bind_eq_some_iff, Prod.exists, Option.some.injEq,
      Prod.mk.injEq] at hs
    obtain ⟨c, -, found, st1, h1, -, rfl⟩ := hs
    obtain ⟨hw1, hcases⟩ := delTableBySelector_spec h.store h1
    have hk1 : Keeps P s.store st1 := by
      rcases hcases with ⟨-, rfl⟩ | ⟨-, ref, q, href, hat, hd⟩
      · exact Keeps.refl P h.store.lt
      · rw [hat.unique (getElementRef_path h.store href)] at hd
        exact hd.keeps.mono fun p hp hpre => hP p hpre hp
    exact ⟨⟨hw1, fun x hx => (h.items x hx).keeps hk1⟩, hk1⟩
  | commit key order =>
    obtain ⟨c, -, hs⟩ := Option.bind_eq_some_iff.mp hs
    exact h.commit hs
  | cancel key =>
    obtain ⟨c, -, hs⟩ := Option.bind_eq_some_iff.mp hs
    unfold cancel at hs
    split at hs
    · cases hs
      exact hsame
    · simp only [Option.bind_eq_bind, Option.bind_eq_some_iff, Option.some.injEq, Prod.mk.injEq] at hs
      obtain ⟨s1, h1, -, rfl⟩ := hs
      exact h.reset h1

theorem init_stateWf {s : State} (h : init env = some s) : StateWf full env s.store s.cache := by
  simp only [init, Option.bind_eq_bind, Option.bind_eq_some_iff, Option.some.injEq] at h
  obtain ⟨st, hst, rfl⟩ := h
  exact ⟨init_wf hst, fun x hx => absurd hx List.not_mem_nil⟩

/-! ## Runs -/

/-- All steps of the run meet the condition. -/
def allSteps (env : Env) (p : State → Event → Bool) : State → List Event → Bool
  | _, [] => true
  | s, ev :: evs =>
    p s ev && match step env s ev with
      | some (_, s') => allSteps env p s' evs
      | none => true

/-- A run in two parts. -/
theorem run_split {p : State → Event → Bool} (evs1 evs2 : List Event) (s s1 s' : State)
    (h1 : run env s evs1 = some s1) (hs : run env s (evs1 ++ evs2) = some s')
    (hp : allSteps env p s (evs1 ++ evs2) = true) :
    run env s1 evs2 = some s' ∧ allSteps env p s evs1 = true ∧ allSteps env p s1 evs2 = true := by
  induction evs1 generalizing s with
  | nil =>
    cases h1
    exact ⟨hs, rfl, hp⟩
  | cons ev evs ih =>
    simp only [run, Option.bind_eq_bind, Option.bind_eq_some_iff, Prod.exists] at h1
    obtain ⟨rc, s2, hstep, h1⟩ := h1
    simp only [List.cons_append, run, hstep, Option.bind_eq_bind, Option.bind_some] at hs
    simp only [List.cons_append, allSteps, hstep, Bool.and_eq_true] at hp ⊢
    obtain ⟨hrest, hp1, hp2⟩ := ih s2 h1 hs hp.2
    exact ⟨hrest, ⟨hp.1, hp1⟩, hp2⟩

/-- Without counts nothing has to be asked of a step. -/
theorem spares_nothing (env : Env) (s : State) (ev : Event) : Spares False (fun _ => False) env s ev := by
  cases ev with
  | set key values => exact fun x _ _ => ⟨id, fun _ _ hf => hf⟩
  | addInstance key sel id => exact fun hf => hf.elim
  | delInstance key sel => exact fun _ _ hf => hf
  | _ => trivial

theorem run_wf (evs : List Event) (s s' : State) (h : StateWf False env s.store s.cache)
    (hs : run env s evs = some s') : StateWf False env s'.store s'.cache := by
  induction evs generalizing s with
  | nil =>
    cases hs
    exact h
  | cons ev evs ih =>
    simp only [run, Option.bind_eq_bind, Option.bind_eq_some_iff, Prod.exists] at hs
    obtain ⟨rc, s1, h1, hs⟩ := hs
    exact ih s1 (step_wf h (spares_nothing env s ev) h1).1 hs

end Mand.Server
