import Mathlib.Data.List.TakeWhile
import Mand.Lib.Updates
import Mand.Server.Keeping
import Mand.Server.ReadBack
import Mand.Store.Leaves
import Mand.Store.Names

/-! # What a commit publishes

The cache is a list of writes that waits in front of the store. A commit lets all clients read what the
configure session has read before, and leaves what the same sets leave without a configure session. -/
namespace Mand.Server
open Mand.Store Mand.Index Mand.Msg Mand.Updates
set_option autoImplicit false

/-! ## Selectors of names -/

/-- The selector ends where its last id is read. -/
def Whole (S : Schema) (sel : Selector) : Prop := S.path sel = selIds sel

theorem name2selFrom_whole {S : Schema} {n kw : ℕ} {s : Option (List ℕ)} {row : Bool} {sel : Selector}
    (h : name2selFrom S n s kw row = some sel) :
    pathFrom S n sel kw row = sel ∧ 0 ∉ sel ∧ sel.length ≤ n := by
  induction n generalizing s kw row sel with
  | zero =>
    cases h
    exact ⟨rfl, List.not_mem_nil, le_refl 0⟩
  | succ n ih =>
    rw [name2selFrom] at h
    generalize nextToken S s kw row = token at h
    obtain ⟨id, rest⟩ := token
    have hend : pathFrom S (n + 1) [] kw row = [] ∧ 0 ∉ ([] : Selector) ∧ ([] : Selector).length ≤ n + 1 :=
      ⟨rfl, List.not_mem_nil, Nat.zero_le _⟩
    have hmore : ∀ r, id ≠ 0 → (0 ∉ r ∧ r.length ≤ n) → 0 ∉ id :: r ∧ (id :: r).length ≤ n + 1 := by
      intro r hid hr
      refine ⟨?_, Nat.succ_le_succ hr.2⟩
      rw [List.mem_cons, not_or]
      exact ⟨Ne.symm hid, hr.1⟩
    dsimp only at h
    by_cases h0 : id = 0
    · rw [if_pos h0] at h
      cases h
      exact hend
    rw [if_neg h0] at h
    by_cases herr : id = dmErr
    · rw [if_pos herr] at h
      cases h
    rw [if_neg herr] at h
    by_cases hrow : row = true
    · rw [if_pos hrow, Option.map_eq_some_iff] at h
      obtain ⟨r, hr, rfl⟩ := h
      obtain ⟨hp, hrest⟩ := ih hr
      refine ⟨?_, hmore r h0 hrest⟩
      rw [pathFrom, if_neg h0, if_pos hrow, hp]
    rw [if_neg hrow] at h
    split at h
    · cases h
    · rename_i e he
      by_cases hcont : e.container = true
      · rw [if_pos hcont, Option.map_eq_some_iff] at h
        obtain ⟨r, hr, rfl⟩ := h
        obtain ⟨hp, hrest⟩ := ih hr
        refine ⟨?_, hmore r h0 hrest⟩
        rw [pathFrom, if_neg h0, if_neg hrow, he]
        dsimp only
        rw [if_pos hcont, hp]
      · rw [if_neg hcont] at h
        cases h
        refine ⟨?_, hmore [] h0 ⟨List.not_mem_nil, Nat.zero_le n⟩⟩
        rw [pathFrom, if_neg h0, if_neg hrow, he]
        dsimp only
        rw [if_neg hcont]

theorem dmName2sel_whole {S : Schema} {name : List ℕ} {sel : Selector} (h : dmName2sel S name = some sel) :
    Whole S sel := by
  unfold dmName2sel at h
  split at h
  · cases h
    rfl
  · obtain ⟨hp, h0, hlen⟩ := name2selFrom_whole h
    rw [Whole, Schema.path, hp, selIds, List.take_of_length_le hlen]
    symm
    rw [List.takeWhile_eq_self_iff]
    intro x hx
    rw [decide_eq_true_iff]
    exact fun h0x => h0 (h0x ▸ hx)

/-! ## The store with the cache in front of it -/

/-- What an item is going to write. -/
def CacheItem.write {β : Type} (g : CacheItem → β) (item : CacheItem) : Loc × Option β := (item.oldValue, some (g item))

def CacheItem.leaf (item : CacheItem) : Option Value := item.newValue.leaf

/-- The leaves as the configure session has them. -/
def view (st : DmStore) (cache : Cache) : Loc → Option (Option Value) :=
  writes (st.seen DmValue.leaf) (cache.map (CacheItem.write CacheItem.leaf))

/-- Besides what is pending, each item is marked, for a setter that writes one value, and the only one of its value. -/
structure Staged (S : Schema) (st0 st : DmStore) (cache : Cache) : Prop extends Pending S st0 st cache where
  marked : ∀ item ∈ cache, ∃ v, st.value item.oldValue = some v ∧ v.flags.pending = true
  alone : ∀ item ∈ cache, item.elem.alone
  whole : ∀ item ∈ cache, Whole S item.sb
  keys : (cache.map CacheItem.oldValue).Nodup

variable {env : Env} {S : Schema} {st0 st st' : DmStore} {cache cache' : Cache}

theorem write_keys {β : Type} (g : CacheItem → β) (cache : Cache) :
    (cache.map (CacheItem.write g)).map Prod.fst = cache.map CacheItem.oldValue := by
  rw [List.map_map]
  rfl

theorem staged_start (st : DmStore) : Staged S st st [] where
  store := ⟨[], (mark_nil _).symm, fun _ h => absurd h List.not_mem_nil⟩
  cached := fun _ h => absurd h List.not_mem_nil
  refs := fun _ h => absurd h List.not_mem_nil
  marked := fun _ h => absurd h List.not_mem_nil
  alone := fun _ h => absurd h List.not_mem_nil
  whole := fun _ h => absurd h List.not_mem_nil
  keys := List.nodup_nil

/-- Whole selectors of one value are the same. -/
theorem selcmp_of_value {sel sel' : Selector} {r r' : Ref} {a i : ℕ} (hw : HeapWf False nowhere S st)
    (hr : st.getElementRef S sel = some (some r)) (hr' : st.getElementRef S sel' = some (some r'))
    (hv : r.value = .slot a i) (hv' : r'.value = .slot a i) (hs : Whole S sel) (hs' : Whole S sel') :
    dmSelcmp sel sel' dmSelectorLen = 0 := by
  obtain ⟨v, hslot, -⟩ := getElementRef_checked sel r hr
  rw [hv] at hslot
  obtain ⟨t, ht, -⟩ := DmStore.slot_eq_some.1 hslot
  have hp := (ref_of_slot hw hr hv ht).1
  have hp' := (ref_of_slot hw hr' hv' ht).1
  have hids : selIds sel = selIds sel' := hs.symm.trans (hp.trans (hp'.symm.trans hs'))
  exact (dmSelcmp_eq_zero dmSelectorLen sel sel').2 hids

theorem Staged.mem_value (h : Staged S st0 st cache) {x y : CacheItem} (hx : x ∈ cache) (hy : y ∈ cache)
    (he : x.oldValue = y.oldValue) : x = y := List.inj_on_of_nodup_map h.keys hx hy he

/-- The item of its own selector. -/
theorem Staged.find_self (h : Staged S st0 st cache) {x : CacheItem} (hx : x ∈ cache) :
    cacheFind cache x.sb = some x := by
  cases hf : cacheFind cache x.sb with
  | none =>
    have hnone := List.find?_eq_none.1 hf x hx
    rw [decide_eq_true_iff] at hnone
    exact absurd (dmSelcmp_self _ _) hnone
  | some y =>
    obtain ⟨hy, hcmp⟩ := cacheFind_some hf
    obtain ⟨r, hr, hrv⟩ := h.refs x hx
    obtain ⟨r', hr', hrv'⟩ := h.refs y hy
    have hsame : st0.getElementRef S x.sb = st0.getElementRef S y.sb := elementRef_selcmp _ _ _ _ _ _ hcmp
    rw [hsame, hr'] at hr
    cases hr
    rw [h.mem_value hx hy (hrv.symm.trans hrv')]

/-! ## Adding to the cache -/

theorem cacheInsert_perm (item : CacheItem) (cache : Cache) : (cacheInsert item cache).Perm (item :: cache) := by
  induction cache with
  | nil => exact List.Perm.refl _
  | cons x rest ih =>
    unfold cacheInsert
    split
    · exact List.Perm.refl _
    · exact (ih.cons x).trans (List.Perm.swap item x rest)

section Add
variable {sel : Selector} {ref : Ref} {a i : ℕ}

/-- The items with the selector of a value are those of the value. -/
theorem Staged.selcmp_iff (h : Staged S st0 st cache) (hw : HeapWf False nowhere S st0)
    (href : st0.getElementRef S sel = some (some ref)) (hslot : ref.value = .slot a i) (hwhole : Whole S sel)
    {x : CacheItem} (hx : x ∈ cache) : dmSelcmp sel x.sb dmSelectorLen = 0 ↔ x.oldValue = ref.value := by
  obtain ⟨r, hr, hrv⟩ := h.refs x hx
  constructor
  · intro hcmp
    have hsame : st0.getElementRef S sel = st0.getElementRef S x.sb := elementRef_selcmp _ _ _ _ _ _ hcmp
    rw [hsame, hr] at href
    cases href
    exact hrv.symm
  · intro he
    exact selcmp_of_value hw href hr hslot (hrv.trans (he.trans hslot)) hwhole (h.whole x hx)

theorem cacheAdd_keys (h : Staged S st0 st cache) (hw : HeapWf False nowhere S st0)
    (href : st0.getElementRef S sel = some (some ref)) (hslot : ref.value = .slot a i) (hwhole : Whole S sel)
    (v : DmValue) : ((cacheAdd cache sel ref.elem ref.base ref.value v).map CacheItem.oldValue).Nodup ∧
      ∀ u, u ∈ (cacheAdd cache sel ref.elem ref.base ref.value v).map (CacheItem.write CacheItem.leaf) ↔
        u = (ref.value, some v.leaf) ∨ u ∈ cache.map (CacheItem.write CacheItem.leaf) ∧ u.1 ≠ ref.value := by
  have hiff := fun (x : CacheItem) (hx : x ∈ cache) => h.selcmp_iff hw href hslot hwhole hx
  unfold cacheAdd
  cases hf : cacheFind cache sel with
  | none =>
    -- no item has the value
    have hfresh : ∀ x ∈ cache, x.oldValue ≠ ref.value := by
      intro x hx he
      have hnone := List.find?_eq_none.1 hf x hx
      rw [decide_eq_true_iff] at hnone
      exact hnone ((hiff x hx).2 he)
    have hperm := cacheInsert_perm ⟨sel, lastId sel, ref.elem, ref.base, ref.value, v, 0⟩ cache
    dsimp only
    constructor
    · rw [(hperm.map _).nodup_iff, List.map_cons, List.nodup_cons]
      refine ⟨?_, h.keys⟩
      intro hm
      obtain ⟨x, hx, he⟩ := List.mem_map.1 hm
      exact hfresh x hx he
    · intro u
      rw [(hperm.map _).mem_iff, List.map_cons, List.mem_cons]
      apply or_congr_right
      constructor
      · intro hu
        obtain ⟨x, hx, rfl⟩ := List.mem_map.1 hu
        exact ⟨hu, hfresh x hx⟩
      · exact fun hu => hu.1
  | some y =>
    obtain ⟨hy, hycmp⟩ := cacheFind_some hf
    have hyv := (hiff y hy).1 hycmp
    dsimp only
    constructor
    · rw [List.map_map]
      have hkeep : cache.map (CacheItem.oldValue ∘ fun item : CacheItem =>
          if dmSelcmp sel item.sb dmSelectorLen = 0 then { item with newValue := v, code := 0 } else item) =
          cache.map CacheItem.oldValue := by
        apply List.map_congr_left
        intro x _
        simp only [Function.comp_apply]
        split <;> rfl
      rw [hkeep]
      exact h.keys
    · intro u
      rw [List.map_map, List.mem_map]
      constructor
      · intro hu
        obtain ⟨x, hx, rfl⟩ := hu
        simp only [Function.comp_apply]
        by_cases hc : dmSelcmp sel x.sb dmSelectorLen = 0
        · left
          rw [if_pos hc, ← (hiff x hx).1 hc]
          rfl
        · right
          rw [if_neg hc]
          exact ⟨List.mem_map_of_mem hx, fun he => hc ((hiff x hx).2 he)⟩
      · intro hu
        cases hu with
        | inl hu =>
          refine ⟨y, hy, ?_⟩
          simp only [Function.comp_apply]
          rw [if_pos hycmp, hu, ← hyv]
          rfl
        | inr hu =>
          obtain ⟨x, hx, rfl⟩ := List.mem_map.1 hu.1
          refine ⟨x, hx, ?_⟩
          simp only [Function.comp_apply]
          rw [if_neg fun hc => hu.2 ((hiff x hx).1 hc)]

/-- The view after a value was added. -/
theorem view_cacheAdd (h : Staged S st0 st cache) (hw : HeapWf False nowhere S st0)
    (href : st0.getElementRef S sel = some (some ref)) (hslot : ref.value = .slot a i) (hwhole : Whole S sel)
    (v : DmValue) : view st (cacheAdd cache sel ref.elem ref.base ref.value v) =
      Function.update (view st cache) ref.value (some v.leaf) := by
  obtain ⟨hkeys, hmem⟩ := cacheAdd_keys h hw href hslot hwhole v
  apply writes_put _ _ hmem
  · rw [write_keys]
    exact h.keys
  · rw [write_keys]
    exact hkeys

end Add

/-! ## Sets of the configure session -/

theorem mem_cacheAdd_elem {sel : Selector} {e : DmElement} {base : Base} {l : Loc} {v : DmValue} {x : CacheItem}
    (hx : x ∈ cacheAdd cache sel e base l v) : x.elem = e ∨ ∃ item ∈ cache, x.elem = item.elem := by
  unfold cacheAdd at hx
  split at hx
  · rw [mem_cacheInsert] at hx
    cases hx with
    | inl he => exact .inl (he ▸ rfl)
    | inr hm => exact .inr ⟨x, hm, rfl⟩
  · obtain ⟨y, hy, rfl⟩ := List.mem_map.1 hx
    refine .inr ⟨y, hy, ?_⟩
    split <;> rfl

/-- An array set that does not go past the cache fails. -/
theorem setArray_refused {sel : Selector} {avp : Avp} {ref : Ref} {r : SetResult}
    (harr : ref.elem.flags.array = true) (href : st.getElementRef env.schema sel = some (some ref))
    (hby : bypasses env.schema sel avp = false) (hs : setArray env st sel ref.elem ref.value avp = some (r, st')) :
    r.toRc ≠ .ok := by
  unfold setArray at hs
  obtain ⟨v, hv, hs⟩ := Option.bind_eq_some_iff.1 hs
  split at hs
  · cases hs
    exact fun hh => Rc.noConfusion hh
  · rename_i hcheck
    split at hs
    · cases hs
      exact fun hh => Rc.noConfusion hh
    · rename_i hname
      have htrue := bypasses_of_checks harr href hv hcheck hname
      rw [hby] at htrue
      cases htrue

theorem toRc_dm (r : DmResult) : (SetResult.dm r).toRc ≠ .ok := by
  cases r <;> exact fun hh => Rc.noConfusion hh

/-- A set of the configure session that was accepted shows in the view, and no other one does. -/
theorem Staged.setCb {flags : ℕ} {sel : Selector} {avp : Avp} {ref : Ref} {r : SetResult}
    (h : Staged env.schema st0 st cache) (hw0 : HeapWf False nowhere env.schema st0)
    (hw : HeapWf False nowhere env.schema st) (hflags : configure flags = true) (hwhole : Whole env.schema sel)
    (halone : ∀ a i, ref.value = .slot a i → ref.elem.alone) (href : st.getElementRef env.schema sel = some (some ref))
    (hby : bypasses env.schema sel avp = false) (hs : setCb env st cache flags sel ref avp = some (r, st', cache')) :
    Staged env.schema st0 st' cache' ∧ (r.toRc = .ok → r = .ok ∧ ref.elem.flags.array = false ∧
      st0.getElementRef env.schema sel = some (some ref) ∧ ∃ v, env.avp2value ref.elem avp = .ok v ∧
        view st' cache' = Function.update (view st cache) ref.value (some (some v))) := by
  have hpend := setCb_pending env st0 st st' cache cache' flags hflags sel avp ref r h.toPending href hby hs
  unfold Server.setCb at hs
  by_cases harr : ref.elem.flags.array = true
  · rw [if_pos harr] at hs
    obtain ⟨⟨r1, st1⟩, hset, hs⟩ := Option.bind_eq_some_iff.1 hs
    cases hs
    obtain ⟨rfl, -⟩ := setArray_same env st st' sel avp ref r harr href hby hset
    exact ⟨h, fun hr => absurd hr (setArray_refused harr href hby hset)⟩
  rw [if_neg harr] at hs
  cases hv : env.avp2value ref.elem avp with
  | error err =>
    simp only [hv] at hs
    cases hs
    exact ⟨h, fun hr => absurd hr (toRc_dm err)⟩
  | ok v =>
    simp only [hv, if_pos hflags] at hs
    obtain ⟨old, hold, hs⟩ := Option.bind_eq_some_iff.1 hs
    obtain ⟨st1, hset, hs⟩ := Option.bind_eq_some_iff.1 hs
    cases hs
    obtain ⟨a, i, -, hslot, -⟩ := getElementRef_leaf hw href (avp2value_writable hv).1
    have href0 : st0.getElementRef env.schema sel = some (some ref) := by
      obtain ⟨locs, rfl, hlocs⟩ := h.store
      apply getElementRef_mark env.schema locs st0 _ sel ref href
      intro l hl
      obtain ⟨item, hitem, rfl⟩ := List.mem_map.1 (hlocs l hl)
      exact h.cached item hitem
    have hseen : st'.seen DmValue.leaf = st.seen DmValue.leaf := seen_setValue_same hold hset rfl
    refine ⟨⟨hpend, ?_, ?_, ?_, (cacheAdd_keys h hw0 href0 hslot hwhole (newValue v)).1⟩, ?_⟩
    · have hmark : ∀ l, l = ref.value ∨ (∃ w, st.value l = some w ∧ w.flags.pending = true) →
          ∃ w, st'.value l = some w ∧ w.flags.pending = true := by
        intro l hl
        rw [DmStore.value_setValue hset]
        by_cases he : l = ref.value
        · exact ⟨_, if_pos he, rfl⟩
        · rw [if_neg he]
          exact hl.resolve_left he
      intro x hx
      apply hmark
      cases mem_cacheAdd hx with
      | inl hnew => exact .inl hnew.2.1
      | inr hold' =>
        obtain ⟨y, hy, -, hl, -⟩ := hold'
        rw [hl]
        exact .inr (h.marked y hy)
    · intro x hx
      cases mem_cacheAdd_elem hx with
      | inl he =>
        rw [he]
        exact halone a i hslot
      | inr he =>
        obtain ⟨y, hy, hxy⟩ := he
        rw [hxy]
        exact h.alone y hy
    · intro x hx
      cases mem_cacheAdd hx with
      | inl hnew =>
        rw [hnew.1]
        exact hwhole
      | inr hold' =>
        obtain ⟨y, hy, hsb, -, -⟩ := hold'
        rw [hsb]
        exact h.whole y hy
    · intro _
      refine ⟨rfl, Bool.eq_false_iff.2 harr, href0, v, rfl, ?_⟩
      rw [view, hseen]
      exact view_cacheAdd h hw0 href0 hslot hwhole (newValue v)

/-- What the values of a request have to be. -/
structure Plain (env : Env) (sel : Selector) (avp : Avp) : Prop where
  name : ∃ name, dmName2sel env.schema name = some sel
  direct : bypasses env.schema sel avp = false
  alone : ∀ t e, env.schema.element sel = some (t, e) → e.alone

theorem Plain.whole {sel : Selector} {avp : Avp} (h : Plain env sel avp) : Whole env.schema sel := by
  obtain ⟨name, hname⟩ := h.name
  exact dmName2sel_whole hname

theorem Plain.slot {sel : Selector} {avp : Avp} {ref : Ref} {a i : ℕ} (h : Plain env sel avp)
    (href : st.getElementRef env.schema sel = some (some ref)) (hslot : ref.value = .slot a i) : ref.elem.alone :=
  h.alone _ _ (getElementRef_schema href hslot)

theorem Staged.dbSet {flags : ℕ} {rc : Rc} (values : List (Selector × Avp)) (h : Staged env.schema st0 st cache)
    (hw0 : HeapWf False nowhere env.schema st0) (hwf : StateWf False env st cache) (hflags : configure flags = true)
    (hplain : ∀ p ∈ values, Plain env p.1 p.2) (hs : dbSet env flags values st cache = some (rc, st', cache')) :
    Staged env.schema st0 st' cache' := by
  induction values generalizing st cache with
  | nil =>
    cases hs
    exact h
  | cons p rest ih =>
    obtain ⟨sel, avp⟩ := p
    have hp := hplain (sel, avp) List.mem_cons_self
    unfold Server.dbSet at hs
    obtain ⟨ref, href, hs⟩ := Option.bind_eq_some_iff.1 hs
    cases ref with
    | none =>
      cases hs
      exact h
    | some ref =>
      obtain ⟨⟨r, st1, cache1⟩, hcb, hs⟩ := Option.bind_eq_some_iff.1 hs
      have h1 := (h.setCb hw0 hwf.store hflags hp.whole (fun a i => hp.slot href) href hp.direct hcb).1
      have hwf1 := (hwf.setCb (P := fun _ => False) href (fun _ => ⟨id, fun _ _ hf => hf⟩) hcb).1
      by_cases hr : r = .ok
      · simp only [if_pos hr] at hs
        exact ih h1 hwf1 (fun q hq => hplain q (List.mem_cons_of_mem _ hq)) hs
      · simp only [if_neg hr] at hs
        cases hs
        exact h1

/-! ## The same sets at once -/

/-- A store that clients have written without a configure session, with the contents of the view. -/
structure Beside (env : Env) (st0 st : DmStore) (cache : Cache) (d : DmStore) : Prop where
  base : HeapWf False nowhere env.schema st0
  staged : Staged env.schema st0 st cache
  wf : StateWf False env st cache
  kept : Kept False env.schema st0 d
  same : d.seen DmValue.leaf = view st cache

theorem Kept.resolves {sel : Selector} {ref : Ref} {d : DmStore} (hw : HeapWf False nowhere S st0)
    (h : Kept False S st0 d) (href : st0.getElementRef S sel = some (some ref)) :
    d.getElementRef S sel = some (some ref) :=
  getElementRef_keeps href h.keeps hw h.wf (getElementRef_path hw href) fun _ _ => trivial

/-- A request that the configure session may make is one that others may make, with the same effect. -/
theorem Beside.dbSet {flags flags' : ℕ} {rc : Rc} {d d' : DmStore} {cache2 cache2' : Cache}
    (values : List (Selector × Avp)) (h : Beside env st0 st cache d) (hflags : configure flags = true)
    (hflags' : configure flags' = false) (hplain : ∀ p ∈ values, Plain env p.1 p.2)
    (hs : dbSet env flags values st cache = some (.ok, st', cache'))
    (hd : dbSet env flags' values d cache2 = some (rc, d', cache2')) :
    rc = .ok ∧ Beside env st0 st' cache' d' ∧ cache2' = cache2 := by
  induction values generalizing st cache d with
  | nil =>
    cases hs
    cases hd
    exact ⟨rfl, h, rfl⟩
  | cons p rest ih =>
    obtain ⟨sel, avp⟩ := p
    have hp := hplain (sel, avp) List.mem_cons_self
    unfold Server.dbSet at hs
    obtain ⟨ref, href, hs⟩ := Option.bind_eq_some_iff.1 hs
    cases ref with
    | none => cases hs
    | some ref =>
    obtain ⟨⟨r, st1, cache1⟩, hcb, hs⟩ := Option.bind_eq_some_iff.1 hs
    obtain ⟨hst, hok⟩ := h.staged.setCb h.base h.wf.store hflags hp.whole (fun a i => hp.slot href) href hp.direct hcb
    have hwf1 := (h.wf.setCb (P := fun _ => False) href (fun _ => ⟨id, fun _ _ hf => hf⟩) hcb).1
    by_cases hr : r = .ok
    · simp only [if_pos hr] at hs
      obtain ⟨-, harr, href0, v, hv, hview⟩ := hok (by rw [hr]; rfl)
      have hrefd := Kept.resolves h.base h.kept href0
      -- the other store is written at once
      unfold Server.dbSet at hd
      rw [hrefd, Option.bind_eq_bind, Option.bind_some] at hd
      simp only [Server.setCb, harr, hv, hflags', Bool.false_eq_true, if_false, Option.bind_eq_bind,
        Option.bind_eq_some_iff, Prod.exists, Option.some.injEq, Prod.mk.injEq] at hd
      obtain ⟨r1, d1, c1, ⟨r2, d2, hover, rfl, rfl, rfl⟩, hd⟩ := hd
      obtain ⟨hleaf, hcnt⟩ := avp2value_writable hv
      obtain ⟨a, i, -, hslot, -⟩ := getElementRef_leaf h.kept.wf hrefd hleaf
      obtain ⟨rfl, hseen⟩ := seen_overwriteValue leaf_rowBlind (fun w w' hc => congrArg Content.leaf hc) hrefd
        (hp.slot hrefd hslot) hover
      have hk : Kept False env.schema d d2 := overwriteValue_kept h.kept.wf (by
        intro ref' href'
        rw [hrefd] at href'
        cases href'
        exact ⟨hleaf, fun hf => hf.elim⟩) rfl rfl hover
      rw [if_pos rfl, if_pos rfl] at hd
      refine ih ⟨h.base, hst, hwf1, h.kept.trans hk, ?_⟩ (fun q hq => hplain q (List.mem_cons_of_mem _ hq)) hs hd
      rw [hseen, hview, h.same]
      rfl
    · simp only [if_neg hr] at hs
      have hrc : r.toRc = .ok := congrArg Prod.fst (Option.some.inj hs)
      exact absurd (hok hrc).1 hr

/-! ## The commit -/

/-- An item that is applied is what is seen at its place from then on. -/
theorem seen_applyItem {β : Type} {f : DmValue → β} {item : CacheItem} (hf : RowBlind f) (halone : item.elem.alone)
    (h : applyItem env st item = some st') : ∃ w : DmValue, w.content = item.newValue.content ∧ w.flags.pending = false ∧
      st'.seen f = Function.update (st.seen f) item.oldValue (some (f w)) := by
  unfold applyItem at h
  split at h
  · cases h
  simp only [Option.bind_eq_bind, Option.bind_eq_some_iff, Prod.exists] at h
  obtain ⟨r, st1, h1, v, hv, st2, h2, h3⟩ := h
  obtain ⟨-, w, hw, hset⟩ := assign_alone halone h1
  have hvw : v = w := by
    rw [DmStore.value_setValue hset, if_pos rfl] at hv
    exact (Option.some.inj hv).symm
  refine ⟨markUpdated (setPending false v), ?_, rfl, ?_⟩
  · rw [← hw, ← hvw]
    rfl
  · rw [seen_reindex hf h3, seen_setValue h2, seen_setValue hset, Function.update_idem]

theorem seen_cacheApply {β : Type} {f : DmValue → β} {g : CacheItem → β} (hf : RowBlind f)
    (hg : ∀ (w : DmValue) (item : CacheItem), w.content = item.newValue.content → w.flags.pending = false → f w = g item)
    (items : List CacheItem) (halone : ∀ item ∈ items, item.elem.alone) (h : cacheApply env st items = some st') :
    st'.seen f = writes (st.seen f) (items.map (CacheItem.write g)) := by
  induction items generalizing st with
  | nil =>
    cases h
    rfl
  | cons item rest ih =>
    simp only [cacheApply, Option.bind_eq_bind, Option.bind_eq_some_iff] at h
    obtain ⟨st1, h1, h⟩ := h
    obtain ⟨w, hw, hp, hseen⟩ := seen_applyItem hf (halone item List.mem_cons_self) h1
    rw [ih (fun x hx => halone x (List.mem_cons_of_mem _ hx)) h, hseen, hg w item hw hp]
    rfl

/-- The validators leave everything but their codes. -/
theorem cacheValidate_map {γ : Type} (g : CacheItem → γ) (hg : ∀ x code, g { x with code := code } = g x)
    {r : ℕ} (h : cacheValidate env st cache = some (r, cache')) : cache'.map g = cache.map g := by
  induction cache generalizing r cache' with
  | nil =>
    cases h
    rfl
  | cons item rest ih =>
    unfold cacheValidate at h
    have hkeep : ∀ rs rest' code, cacheValidate env st rest = some (rs, rest') →
        ({ item with code := code } :: rest' : Cache).map g = (item :: rest).map g := by
      intro rs rest' code hrest
      rw [List.map_cons, List.map_cons, hg, ih hrest]
    split at h
    · split at h
      · simp only [Option.bind_eq_bind, Option.bind_eq_some_iff, Prod.exists, Option.some.injEq, Prod.mk.injEq] at h
        obtain ⟨t, -, rs, rest', hrest, -, rfl⟩ := h
        exact hkeep rs rest' _ hrest
      · simp only [Option.bind_eq_bind, Option.bind_eq_some_iff, Prod.exists, Option.some.injEq, Prod.mk.injEq] at h
        obtain ⟨rs, rest', hrest, -, rfl⟩ := h
        exact hkeep rs rest' item.code hrest
    · simp only [Option.bind_eq_bind, Option.bind_eq_some_iff, Prod.exists, Option.some.injEq, Prod.mk.injEq] at h
      obtain ⟨rs, rest', hrest, -, rfl⟩ := h
      exact hkeep rs rest' item.code hrest

theorem Staged.validated {r : ℕ} (h : Staged S st0 st cache) (hs : cacheValidate env st' cache = some (r, cache')) :
    Staged S st0 st cache' := by
  have hkeys := cacheValidate_map CacheItem.oldValue (fun _ _ => rfl) hs
  have hall : ∀ P : CacheItem → Prop, (∀ x code, P x → P { x with code := code }) → (∀ x ∈ cache, P x) →
      ∀ x ∈ cache', P x := by
    intro P hP hc x hx
    obtain ⟨y, hy, code, rfl⟩ := cacheValidate_items env st' cache cache' r hs x hx
    exact hP y code (hc y hy)
  refine ⟨⟨?_, hall _ (fun _ _ hx => hx) h.cached, hall _ (fun _ _ hx => hx) h.refs⟩,
    hall _ (fun _ _ hx => hx) h.marked, hall _ (fun _ _ hx => hx) h.alone, hall _ (fun _ _ hx => hx) h.whole, ?_⟩
  · rw [hkeys]
    exact h.store
  · rw [hkeys]
    exact h.keys

/-- The items come to the root of the cache in some order, each once. -/
theorem Staged.items (h : Staged S st0 st cache) {order : List Selector} (ho : order.Perm (cache.map CacheItem.sb)) :
    (order.filterMap (cacheFind cache)).Perm cache := by
  have hself : (cache.map CacheItem.sb).filterMap (cacheFind cache) = cache := by
    rw [List.filterMap_map]
    calc cache.filterMap (cacheFind cache ∘ CacheItem.sb) = cache.filterMap some :=
          List.filterMap_congr fun x hx => h.find_self hx
      _ = cache := List.filterMap_some
  have hperm := ho.filterMap (cacheFind cache)
  rw [hself] at hperm
  exact hperm

/-- A commit writes the view, and nothing stays pending that is in the cache. -/
structure Published (env : Env) (s s2 : State) : Prop where
  kept : Kept False env.schema s.store s2.store
  cache : s2.cache = []
  rest : s2.ctxs = s.ctxs ∧ s2.cfgSessionId = s.cfgSessionId
  leaves : s2.store.seen DmValue.leaf = view s.store s.cache
  pending : s2.store.seen DmValue.pending =
    writes (s.store.seen DmValue.pending) (s.cache.map (CacheItem.write fun _ => false))

theorem Staged.commit {s s2 : State} {c : Ctx} {order : List Selector} (h : Staged env.schema st0 s.store s.cache)
    (hwf : StateWf False env s.store s.cache) (hs : commit env s c order = some (.ok, s2)) : Published env s s2 := by
  have hcases := commit_cases env hs
  obtain ⟨hrc, -⟩ | ⟨hrc, -⟩ | ⟨-, -, r, cache, st, hval, -, hperm, happ, rfl⟩ := hcases
  · cases hrc
  · cases hrc
  have hv := h.validated hval
  have hitems := hv.items hperm
  have hall : ∀ {P : CacheItem → Prop}, (∀ x ∈ cache, P x) → ∀ x ∈ order.filterMap (cacheFind cache), P x :=
    fun hP x hx => hP x (hitems.mem_iff.1 hx)
  have hkeys : ∀ {β : Type} (g : CacheItem → β), (((order.filterMap (cacheFind cache)).map (CacheItem.write g)).map Prod.fst).Nodup := by
    intro β g
    rw [write_keys, (hitems.map _).nodup_iff]
    exact hv.keys
  -- the order does not matter, and the codes do not
  have hwrites : ∀ {β : Type} (k : Loc → Option β) (g : CacheItem → β), (∀ x code, g { x with code := code } = g x) →
      writes k ((order.filterMap (cacheFind cache)).map (CacheItem.write g)) = writes k (s.cache.map (CacheItem.write g)) := by
    intro β k g hg
    rw [← cacheValidate_map (CacheItem.write g) (fun x code => congrArg (fun y => (x.oldValue, some y)) (hg x code)) hval]
    apply writes_congr _ (hkeys g)
    · exact fun u => (hitems.map _).mem_iff
    · rw [write_keys]
      exact hv.keys
  refine ⟨cacheApply_kept _ s.store st hwf.store (hall (hwf.validated hval).items) happ, rfl, ⟨rfl, rfl⟩, ?_, ?_⟩
  · rw [view, ← hwrites _ CacheItem.leaf fun _ _ => rfl]
    exact seen_cacheApply leaf_rowBlind (fun w item hw _ => congrArg Content.leaf hw) _ (hall hv.alone) happ
  · rw [← hwrites _ (fun _ => false) fun _ _ => rfl]
    exact seen_cacheApply pending_rowBlind (fun w item _ hp => hp) _ (hall hv.alone) happ

/-! ## Reads -/

/-- A leaf that a selector leads to. -/
theorem leaf_content {sel : Selector} {ref : Ref} (hw : HeapWf False nowhere S st)
    (href : st.getElementRef S sel = some (some ref)) (hleaf : ref.elem.container = false) :
    ∃ v x, st.value ref.value = some v ∧ v.parity = true ∧ v.content = .scalar x ∧
      st.seen DmValue.leaf ref.value = some (some x) := by
  obtain ⟨v, hv, hp⟩ := getElementRef_checked sel ref href
  obtain ⟨a, i, -, hslot, hl⟩ := getElementRef_leaf hw href hleaf
  have hvs := hv
  rw [hslot] at hvs
  obtain ⟨x, hx⟩ := hl.scalar hw hvs
  refine ⟨v, x, hv, hp, hx, ?_⟩
  rw [DmStore.seen, hv, Option.map_some, DmValue.leaf, hx]
  rfl

theorem getValue_leaf {sel : Selector} {ref : Ref} {x : Value} (hw : HeapWf False nowhere env.schema st)
    (href : st.getElementRef env.schema sel = some (some ref)) (hleaf : ref.elem.container = false)
    (hget : ref.elem.flags.get = false) (hx : st.seen DmValue.leaf ref.value = some (some x)) :
    elementValue env st ref = st.value ref.value ∧ getValue env st sel = some (.ok ⟨ref.elem, ref.stType, .scalar x⟩) := by
  obtain ⟨v, y, hv, hp, hc, hy⟩ := leaf_content hw href hleaf
  rw [hx] at hy
  cases hy
  have hno : ¬(ref.elem.type ≠ .counter ∧ ref.elem.flags.get = true) := by
    rw [hget]
    exact fun hh => Bool.false_ne_true hh.2
  have he : elementValue env st ref = some v := by
    rw [elementValue, hv, Option.bind_eq_bind, Option.bind_some, (parityAssert_eq v ()).2 hp, Option.bind_eq_bind,
      Option.bind_some, if_neg hno]
  refine ⟨he.trans hv.symm, ?_⟩
  rw [getValue, href, Option.bind_eq_bind, Option.bind_some]
  simp only [he, Option.bind_eq_bind, Option.bind_some, hc]

/-- The configure session reads its view. -/
theorem Staged.read {sel : Selector} {ans : Answer} (h : Staged env.schema st0 st cache)
    (hwf : StateWf False env st cache)
    (hg : cacheGetValue env st cache sel = some (.ok ans)) (hleaf : ans.elem.container = false)
    (hget : ans.elem.flags.get = false) : ∃ ref x, st0.getElementRef env.schema sel = some (some ref) ∧
      ¬(ref.elem.type = .inst ∨ ref.elem.type = .object) ∧ view st cache ref.value = some (some x) ∧
      ans = ⟨ref.elem, ref.stType, .scalar x⟩ := by
  unfold cacheGetValue at hg
  obtain ⟨ref, href, hg⟩ := Option.bind_eq_some_iff.1 hg
  cases ref with
  | none => cases hg
  | some ref =>
  dsimp only at hg
  split at hg
  · cases hg
  rename_i hty
  have href0 : st0.getElementRef env.schema sel = some (some ref) := by
    obtain ⟨locs, rfl, hlocs⟩ := h.store
    apply getElementRef_mark env.schema locs st0 _ sel ref href
    intro l hl
    obtain ⟨item, hitem, rfl⟩ := List.mem_map.1 (hlocs l hl)
    exact h.cached item hitem
  obtain ⟨v, hv, hg⟩ := Option.bind_eq_some_iff.1 hg
  split at hg
  · split at hg
    · cases hg
    · rename_i item hitem
      obtain ⟨u, -, hg⟩ := Option.bind_eq_some_iff.1 hg
      cases hg
      obtain ⟨hmem, hcmp⟩ := cacheFind_some hitem
      obtain ⟨x, hx⟩ := (hwf.items item hmem).value
      -- the item is the one of the value
      obtain ⟨r, hr, hrv⟩ := h.refs item hmem
      have hsame : st0.getElementRef env.schema sel = st0.getElementRef env.schema item.sb := elementRef_selcmp _ _ _ _ _ _ hcmp
      rw [hsame, hr] at href0
      cases href0
      refine ⟨ref, x, hsame.trans hr, hty, ?_, by rw [hx]⟩
      apply writes_of_mem
      · rw [write_keys]
        exact h.keys
      · refine List.mem_map.2 ⟨item, hmem, ?_⟩
        rw [CacheItem.write, CacheItem.leaf, DmValue.leaf, hx, hrv]
        rfl
  · rename_i hpend
    obtain ⟨w, hw, hg⟩ := Option.bind_eq_some_iff.1 hg
    cases hg
    obtain ⟨v', x, hv', -, hc, hx⟩ := leaf_content hwf.store href hleaf
    rw [(getValue_leaf hwf.store href hleaf hget hx).1, hv'] at hw
    cases hw
    refine ⟨ref, x, href0, hty, ?_, by rw [hc]⟩
    rw [view, writes_of_not_mem, hx]
    rw [write_keys]
    intro hm
    obtain ⟨item, hitem, he⟩ := List.mem_map.1 hm
    obtain ⟨v2, hv2, hp2⟩ := h.marked item hitem
    rw [he, hv] at hv2
    cases hv2
    exact hpend hp2

/-- Without marks and without a cache there is one way to read. -/
theorem dbGet_clean {s : State} {sel : Selector} {ref : Ref} {x : Value} (hw : HeapWf False nowhere env.schema s.store)
    (hp : NoPending s.store) (href : s.store.getElementRef env.schema sel = some (some ref))
    (hty : ¬(ref.elem.type = .inst ∨ ref.elem.type = .object)) (hleaf : ref.elem.container = false)
    (hget : ref.elem.flags.get = false) (hx : s.store.seen DmValue.leaf ref.value = some (some x)) (d : Ctx) :
    dbGet env s d sel = some (.ok ⟨ref.elem, ref.stType, .scalar x⟩) := by
  obtain ⟨he, hg⟩ := getValue_leaf hw href hleaf hget hx
  obtain ⟨v, y, hv, -, hc, hy⟩ := leaf_content hw href hleaf
  rw [hx] at hy
  cases hy
  have hno : ¬v.flags.pending = true := by
    rw [hp ref.value v hv]
    exact Bool.false_ne_true
  unfold dbGet
  split
  · rw [cacheGetValue, href, Option.bind_eq_bind, Option.bind_some]
    simp only [if_neg hty, hv, if_neg hno, he, hc, Option.bind_eq_bind, Option.bind_some]
  · exact hg

/-! ## Sessions -/

section Sessions
variable {s0 s s1 s2 t : State} {key : ℕ} {c : Ctx}

/-- One set of the holder: it goes on, or it has lost its connection. -/
theorem set_staged (hold : Holds s key c) (h : Staged env.schema st0 s.store s.cache) (h0 : NoPending st0)
    (hw0 : HeapWf False nowhere env.schema st0) (hwf : StateWf False env s.store s.cache)
    (values : List (Selector × Avp)) (hplain : ∀ p ∈ values, Plain env p.1 p.2) {rc : Rc}
    (hs : step env s (.set key values) = some (rc, s1)) :
    (Holds s1 key c ∧ Staged env.schema st0 s1.store s1.cache) ∨ s1.ctx key = none := by
  cases set_step h.toPending h0 hold values (fun p hp => (hplain p hp).direct) rc hs with
  | inr hend => exact .inr hend.2
  | inl hgo =>
    refine .inl ⟨hgo.1, ?_⟩
    obtain ⟨c', hc', hs⟩ := Option.bind_eq_some_iff.1 hs
    rw [hold.ctx] at hc'
    cases hc'
    obtain ⟨⟨rc1, st1, cache1⟩, hset, hs⟩ := Option.bind_eq_some_iff.1 hs
    have h1 := h.dbSet values hw0 hwf hold.configures hplain hset
    unfold afterRequest at hs
    by_cases hrc : rc1 = .errAlloc
    · -- a context that has ended is not found
      simp only [if_pos hrc] at hs
      obtain ⟨c', hc', hs1⟩ := Option.bind_eq_some_iff.1 hs
      obtain rfl : c' = c := Option.some.inj (hc'.symm.trans hold.ctx)
      obtain ⟨s3, hend, hs3⟩ := Option.bind_eq_some_iff.1 hs1
      cases hs3
      have hres := endSession_pending (s := { s with store := st1, cache := cache1 }) h1.toPending h0 hold.id_eq hend
      rw [(ctx_mem hold.ctx).2, hgo.1.ctx] at hres
      cases hres.2
    · simp only [if_neg hrc] at hs
      cases hs
      exact h1

theorem run_staged (reqs : List (List (Selector × Avp))) (hold : Holds s key c)
    (h : Staged env.schema st0 s.store s.cache) (h0 : NoPending st0) (hw0 : HeapWf False nowhere env.schema st0)
    (hwf : StateWf False env s.store s.cache) (hplain : ∀ req ∈ reqs, ∀ p ∈ req, Plain env p.1 p.2)
    (hrun : run env s (reqs.map (Event.set key)) = some s1) (hctx : s1.ctx key ≠ none) :
    Holds s1 key c ∧ Staged env.schema st0 s1.store s1.cache := by
  induction reqs generalizing s with
  | nil =>
    cases hrun
    exact ⟨hold, h⟩
  | cons req reqs ih =>
    rw [List.map_cons] at hrun
    obtain ⟨⟨rc, s3⟩, hstep, hrun⟩ := Option.bind_eq_some_iff.1 hrun
    have hwf3 := (step_wf hwf (spares_nothing env s _) hstep).1
    cases set_staged hold h h0 hw0 hwf req (hplain req List.mem_cons_self) hstep with
    | inl hgo => exact ih hgo.1 hgo.2 hwf3 (fun r hr => hplain r (List.mem_cons_of_mem _ hr)) hrun
    | inr hend =>
      cases reqs with
      | nil =>
        cases hrun
        exact absurd hend hctx
      | cons req' reqs' =>
        rw [List.map_cons] at hrun
        obtain ⟨x, hstep', -⟩ := Option.bind_eq_some_iff.1 hrun
        obtain ⟨c', hc', -⟩ := Option.bind_eq_some_iff.1 hstep'
        rw [hend] at hc'
        cases hc'

/-- No set of a leaf takes anything away. -/
theorem sets_keep (reqs : List (List (Selector × Avp))) (hwf : StateWf False env s.store s.cache)
    (hplain : ∀ req ∈ reqs, ∀ p ∈ req, Plain env p.1 p.2) (hrun : run env s (reqs.map (Event.set key)) = some s1) :
    Keeps (fun _ => True) s.store s1.store := by
  induction reqs generalizing s with
  | nil =>
    cases hrun
    exact Keeps.refl _ hwf.store.lt
  | cons req reqs ih =>
    rw [List.map_cons] at hrun
    obtain ⟨⟨rc, s3⟩, hstep, hrun⟩ := Option.bind_eq_some_iff.1 hrun
    have hspares : Spares False (fun _ => True) env s (.set key req) := by
      intro p hp hby
      rw [(hplain req List.mem_cons_self p hp).direct] at hby
      cases hby
    obtain ⟨hwf3, hk⟩ := step_wf hwf hspares hstep
    exact hk.trans (ih hwf3 (fun r hr => hplain r (List.mem_cons_of_mem _ hr)) hrun)

theorem Published.noPending (h : Published env s s2) (hs : Staged env.schema st0 s.store s.cache) (h0 : NoPending st0) :
    NoPending s2.store := by
  intro l v hv
  have hseen : s2.store.seen DmValue.pending l = some v.flags.pending := by
    rw [DmStore.seen, hv]
    rfl
  rw [h.pending] at hseen
  by_cases hm : l ∈ s.cache.map CacheItem.oldValue
  · obtain ⟨item, hitem, rfl⟩ := List.mem_map.1 hm
    rw [writes_of_mem (b := some false)] at hseen
    · exact (Option.some.inj hseen).symm
    · rw [write_keys]
      exact hs.keys
    · exact List.mem_map_of_mem hitem
  · rw [writes_of_not_mem (by rw [write_keys]; exact hm)] at hseen
    obtain ⟨locs, hst, hlocs⟩ := hs.store
    have hout : l ∉ locs := fun hl => hm (hlocs l hl)
    simp only [DmStore.seen, hst, value_mark, if_neg hout, Option.map_id'] at hseen
    obtain ⟨w, hw, hwp⟩ := Option.map_eq_some_iff.1 hseen
    rw [← hwp]
    exact h0 l w hw

/-- The number in an answer. -/
def answeredUint : Except DmResult Answer → Option (DmElement × DmType × ℕ)
  | .ok ⟨e, type, .scalar (.uint n)⟩ => some (e, type, n)
  | _ => none

theorem answeredUint_some {a : Except DmResult Answer} {e : DmElement} {type : DmType} {n : ℕ}
    (h : answeredUint a = some (e, type, n)) : a = .ok ⟨e, type, .scalar (.uint n)⟩ := by
  unfold answeredUint at h
  split at h
  · cases h
    rfl
  · cases h

theorem sampleSets_plain (req : List (Selector × Avp)) (hreq : req ∈ sampleSets) (p : Selector × Avp) (hp : p ∈ req) :
    Plain sampleEnv p.1 p.2 := by
  have hall : ∀ req ∈ sampleSets, ∀ p ∈ req, (dmName2sel sampleSchema ([[118], [119], [110], [114], [99]].getD (p.1.headD 0 - 1) []) = some p.1 ∧
      bypasses sampleSchema p.1 p.2 = false) ∧ (sampleSchema.element p.1).all (fun x => decide x.2.alone) = true := by
    decide +kernel
  obtain ⟨⟨hname, hdirect⟩, halone⟩ := hall req hreq p hp
  refine ⟨⟨_, hname⟩, hdirect, ?_⟩
  intro t e he
  have helem : sampleSchema.element p.1 = some (t, e) := he
  rw [helem] at halone
  exact of_decide_eq_true halone

/-- A run in which every event is answered with `RC_OK`. -/
def runOk (env : Env) : State → List Event → Option State
  | s, [] => some s
  | s, ev :: evs => do
    let (rc, s) ← step env s ev
    if rc = .ok then runOk env s evs else none

theorem runOk_run {evs : List Event} (h : runOk env s evs = some s1) : run env s evs = some s1 := by
  induction evs generalizing s with
  | nil => exact h
  | cons ev evs ih =>
    obtain ⟨⟨rc, s3⟩, hstep, h⟩ := Option.bind_eq_some_iff.1 h
    dsimp only at h
    split at h
    · rw [run, hstep, Option.bind_eq_bind, Option.bind_some]
      exact ih h
    · cases h

/-- A set that is answered with `RC_OK` changes the store and the cache only. -/
theorem set_ok {d : Ctx} {values : List (Selector × Avp)} (hd : s.ctx key = some d)
    (hs : step env s (.set key values) = some (.ok, s1)) :
    ∃ st cache, dbSet env d.flags values s.store s.cache = some (.ok, st, cache) ∧
      s1 = { s with store := st, cache := cache } := by
  obtain ⟨d', hd', hs⟩ := Option.bind_eq_some_iff.1 hs
  obtain rfl : d' = d := Option.some.inj (hd'.symm.trans hd)
  obtain ⟨⟨rc, st, cache⟩, hset, hs⟩ := Option.bind_eq_some_iff.1 hs
  unfold afterRequest at hs
  dsimp only at hs
  split at hs
  · simp only [Option.bind_eq_bind, Option.bind_eq_some_iff, Option.some.injEq, Prod.mk.injEq] at hs
    obtain ⟨c, -, s', -, hrc, -⟩ := hs
    rename_i halloc
    rw [halloc] at hrc
    cases hrc
  · cases hs
    exact ⟨st, cache, hset, rfl⟩

/-- Two clients make the same requests, the one in the configure session. -/
theorem run_beside {key' : ℕ} {d : Ctx} (reqs : List (List (Selector × Avp))) (hc : s.ctx key = some c)
    (hflags : configure c.flags = true) (hd : t.ctx key' = some d) (hflags' : configure d.flags = false)
    (h : Beside env st0 s.store s.cache t.store) (hplain : ∀ req ∈ reqs, ∀ p ∈ req, Plain env p.1 p.2)
    (hrun : runOk env s (reqs.map (Event.set key)) = some s1) {u : State}
    (hdirect : run env t (reqs.map (Event.set key')) = some u) :
    runOk env t (reqs.map (Event.set key')) = some u ∧ Beside env st0 s1.store s1.cache u.store ∧
      s1.ctx key = some c ∧ s1.cfgSessionId = s.cfgSessionId := by
  induction reqs generalizing s t with
  | nil =>
    cases hrun
    cases hdirect
    exact ⟨rfl, h, hc, rfl⟩
  | cons req reqs ih =>
    rw [List.map_cons] at hrun hdirect
    obtain ⟨⟨rc, s3⟩, hstep, hrun⟩ := Option.bind_eq_some_iff.1 hrun
    obtain ⟨⟨rc', t3⟩, hstep', hdirect⟩ := Option.bind_eq_some_iff.1 hdirect
    dsimp only at hrun hdirect
    split at hrun
    · rename_i hok
      subst hok
      obtain ⟨st, cache, hset, rfl⟩ := set_ok hc hstep
      -- the other client gets the same answer
      have hset' := hstep'
      obtain ⟨d', hd', hset'⟩ := Option.bind_eq_some_iff.1 hset'
      obtain rfl : d' = d := Option.some.inj (hd'.symm.trans hd)
      obtain ⟨⟨rc2, st2, cache2⟩, hset', hafter⟩ := Option.bind_eq_some_iff.1 hset'
      obtain ⟨rfl, hb, -⟩ := h.dbSet req hflags hflags' (hplain req List.mem_cons_self) hset hset'
      unfold afterRequest at hafter
      dsimp only at hafter
      rw [if_neg (by decide)] at hafter
      cases hafter
      obtain ⟨hrest, hbeside, hctx, hcfg⟩ := ih (s := { s with store := st, cache := cache })
        (t := { t with store := st2, cache := cache2 }) hc hd hb (fun r hr => hplain r (List.mem_cons_of_mem _ hr)) hrun hdirect
      refine ⟨?_, hbeside, hctx, hcfg⟩
      rw [List.map_cons, runOk, hstep', Option.bind_eq_bind, Option.bind_some]
      exact hrest
    · cases hrun

/-- The sets of the samples that do not fail. -/
def sampleGood : List (List (Selector × Avp)) := sampleSets.dropLast

end Sessions

end Mand.Server
