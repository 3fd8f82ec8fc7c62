import Mand.Server.Exclusive
import Mand.Store.Resolve
import Mand.Store.Access

/-! # What a cancel discards

A set in the configure session marks a value as pending and notes the new one in the cache. Giving up
the session takes the marks back; only array sets reach the store at once. -/
namespace Mand.Server
open Mand.Store Mand.Index Mand.Msg
set_option autoImplicit false

/-! ## Marks -/

def markTable (locs : List Loc) (a : Addr) (t : VTable) : VTable where
  id := t.id
  values := t.values.mapIdx fun i v => if Loc.slot a i ∈ locs then setPending true v else v
  node := t.node.map fun n =>
    if Loc.row a ∈ locs then { n with value := setPending true n.value } else n

/-- The store with the values at `locs` pending. -/
def mark (locs : List Loc) (st : DmStore) : DmStore :=
  { st with heap := fun a => (st.heap a).map (markTable locs a) }

theorem markTable_congr (locs locs' : List Loc) (a : Addr) (t : VTable)
    (hslot : ∀ i, Loc.slot a i ∈ locs ↔ Loc.slot a i ∈ locs')
    (hrow : Loc.row a ∈ locs ↔ Loc.row a ∈ locs') : markTable locs a t = markTable locs' a t := by
  unfold markTable
  simp only [hslot, hrow]

theorem mark_congr (locs locs' : List Loc) (st : DmStore) (h : ∀ l, l ∈ locs ↔ l ∈ locs') :
    mark locs st = mark locs' st := by
  unfold mark
  simp only [fun a => funext fun t => markTable_congr locs locs' a t (fun i => h (.slot a i)) (h (.row a))]

theorem mark_nil (st : DmStore) : mark [] st = st := by
  have ht : ∀ a t, markTable [] a t = t := by
    intro a t
    unfold markTable
    simp only [List.not_mem_nil, if_false, Option.map_id', List.mapIdx_eq_zipIdx_map]
    simp
  unfold mark
  simp only [fun a => funext (ht a)]
  simp

theorem mark_heap (locs : List Loc) (st : DmStore) (a : Addr) :
    (mark locs st).heap a = (st.heap a).map (markTable locs a) := rfl

theorem slot_mark (locs : List Loc) (st : DmStore) (a i : ℕ) :
    (mark locs st).slot a i =
      (st.slot a i).map fun v => if Loc.slot a i ∈ locs then setPending true v else v := by
  rw [DmStore.slot_eq, DmStore.slot_eq, mark_heap]
  cases st.heap a with
  | none => rfl
  | some t => simp only [Option.map_some, Option.bind_some, markTable, List.getElem?_mapIdx]

theorem node_mark (locs : List Loc) (st : DmStore) (a : Addr) :
    (mark locs st).node a = (st.node a).map fun n =>
      if Loc.row a ∈ locs then { n with value := setPending true n.value } else n := by
  rw [DmStore.node_eq, DmStore.node_eq, mark_heap]
  cases st.heap a with
  | none => rfl
  | some t => simp only [Option.map_some, Option.bind_some, markTable]

theorem value_mark (locs : List Loc) (st : DmStore) (l : Loc) :
    (mark locs st).value l =
      (st.value l).map fun v => if l ∈ locs then setPending true v else v := by
  cases l with
  | slot a i => exact slot_mark locs st a i
  | row a =>
    show ((mark locs st).node a).map RowNode.value = ((st.node a).map RowNode.value).map _
    rw [node_mark]
    cases st.node a with
    | none => rfl
    | some n =>
      simp only [Option.map_some]
      split <;> rfl

theorem mark_ext (st : DmStore) (locs : List Loc) (st' : DmStore) (hnext : st'.next = st.next)
    (hroot : st'.root = st.root) (hheap : ∀ a, st'.heap a = (st.heap a).map (markTable locs a)) :
    st' = mark locs st := by
  have hfun : st'.heap = (mark locs st).heap := funext hheap
  calc st' = ⟨st'.heap, st'.next, st'.root⟩ := rfl
    _ = mark locs st := by rw [hfun, hnext, hroot]; rfl

/-- Writing one value of a marked store. -/
theorem setValue_mark (locs locs' : List Loc) (st : DmStore) (l : Loc) (v : DmValue)
    (hv : st.value l = some v) (hothers : ∀ l', l' ≠ l → (l' ∈ locs ↔ l' ∈ locs')) :
    (mark locs st).setValue l (if l ∈ locs' then setPending true v else v) =
      some (mark locs' st) := by
  have hkeep : ∀ a, (∀ i, l ≠ .slot a i) → l ≠ .row a →
      ∀ t, markTable locs a t = markTable locs' a t := by
    intro a hs hr t
    exact markTable_congr locs locs' a t (fun i => hothers _ (Ne.symm (hs i))) (hothers _ (Ne.symm hr))
  cases l with
  | slot a i =>
    obtain ⟨t, ht, hvi⟩ := DmStore.slot_eq_some.mp hv
    have hi : i < t.values.length := (List.getElem?_eq_some_iff.mp hvi).1
    have hheap : (mark locs st).heap a = some (markTable locs a t) := by rw [mark_heap, ht]; rfl
    apply DmStore.setSlot_eq_some.mpr
    refine ⟨markTable locs a t, hheap, by simpa [markTable] using hi, Eq.symm ?_⟩
    apply mark_ext
    · rfl
    · rfl
    intro b
    rw [DmStore.put_heap]
    by_cases hb : b = a
    · subst hb
      rw [if_pos rfl, ht]
      simp only [Option.map_some, VTable.setValue, markTable, Option.some.injEq, VTable.mk.injEq,
        true_and]
      constructor
      · apply List.ext_getElem?
        intro j
        rw [List.getElem?_set, List.getElem?_mapIdx, List.getElem?_mapIdx, List.length_mapIdx]
        by_cases hj : i = j
        · subst hj
          rw [if_pos rfl, if_pos hi, hvi]
          rfl
        · rw [if_neg hj]
          simp only [hothers (.slot b j) (fun he => hj (Loc.slot.inj he).2.symm)]
      · simp only [hothers (.row b) (fun he => (by cases he))]
    · rw [if_neg hb, mark_heap]
      have hk := hkeep b (fun j he => hb (Loc.slot.inj he).1.symm) (fun he => (by cases he))
      rw [funext hk]
  | row a =>
    obtain ⟨n, hn, hnv⟩ := Option.map_eq_some_iff.mp hv
    obtain ⟨t, ht, htn⟩ := DmStore.node_eq_some.mp hn
    apply Option.bind_eq_some_iff.mpr
    refine ⟨_, (node_mark locs st a).trans (by rw [hn]; rfl), ?_⟩
    apply DmStore.setNode_eq_some.mpr
    refine ⟨markTable locs a t, by rw [mark_heap, ht]; rfl, Eq.symm ?_⟩
    apply mark_ext
    · rfl
    · rfl
    intro b
    rw [DmStore.put_heap]
    by_cases hb : b = a
    · subst hb
      rw [if_pos rfl, ht]
      simp only [Option.map_some, markTable, Option.some.injEq, VTable.mk.injEq, true_and, htn]
      constructor
      · simp only [fun j => hothers (.slot b j) (fun he => (by cases he))]
      · subst hnv
        by_cases h1 : Loc.row b ∈ locs <;> by_cases h2 : Loc.row b ∈ locs' <;>
          simp only [h1, h2, if_true, if_false]
    · rw [if_neg hb, mark_heap]
      have hk := hkeep b (fun j he => (by cases he)) (fun he => hb (Loc.row.inj he).symm)
      rw [funext hk]

/-! ## Sets and resets -/

def NoPending (st : DmStore) : Prop := ∀ l v, st.value l = some v → v.flags.pending = false

/-- What a pending value was before. -/
theorem setPending_restore (v : DmValue) (hp : v.parity = true) (hf : v.flags.pending = false) :
    setPending false (setPending true v) = v ∧ setPending false v = v := by
  obtain ⟨c, n, ⟨f1, f2, f3, f4⟩, p⟩ := v
  subst hp
  subst hf
  exact ⟨rfl, rfl⟩

theorem setPending_twice (v : DmValue) : setPending true (setPending true v) = setPending true v := rfl

/-- The locations of a cache have values in the store, with the parity right. -/
def Cached (st : DmStore) (cache : Cache) : Prop :=
  ∀ item ∈ cache, ∃ v, st.value item.oldValue = some v ∧ v.parity = true

/-- `cache_reset` takes back all marks. -/
theorem cacheReset_mark (st : DmStore) (hst : NoPending st) (cache : Cache) (hc : Cached st cache)
    (locs : List Loc) (hlocs : ∀ l ∈ locs, l ∈ cache.map CacheItem.oldValue) :
    cacheReset (mark locs st) cache = some st := by
  induction cache generalizing locs with
  | nil =>
    have hnil : locs = [] := by
      apply List.eq_nil_iff_forall_not_mem.mpr
      exact fun l hl => absurd (hlocs l hl) List.not_mem_nil
    rw [hnil, mark_nil]
    rfl
  | cons item rest ih =>
    obtain ⟨v, hv, hp⟩ := hc item List.mem_cons_self
    obtain ⟨hrt, hrv⟩ := setPending_restore v hp (hst _ _ hv)
    have hset := setValue_mark locs (locs.filter fun l => l ≠ item.oldValue) st item.oldValue v hv
      (by
        intro l' hl'
        simp [hl'])
    rw [if_neg (by simp)] at hset
    have hback : setPending false (if item.oldValue ∈ locs then setPending true v else v) = v := by
      split
      · exact hrt
      · exact hrv
    unfold cacheReset
    rw [value_mark, hv]
    simp only [Option.map_some, Option.bind_eq_bind, Option.bind_some, hback, hset]
    apply ih (fun it hit => hc it (List.mem_cons_of_mem item hit))
    intro l hl
    obtain ⟨hl, hne⟩ := List.mem_filter.mp hl
    have hmem := hlocs l hl
    rw [List.map_cons, List.mem_cons] at hmem
    cases hmem with
    | inl he =>
      rw [he] at hne
      simp at hne
    | inr ht => exact ht

/-! ## Marks do not lead elsewhere -/

theorem content_mark (locs : List Loc) (l : Loc) (v : DmValue) :
    (if l ∈ locs then setPending true v else v).content = v.content := by
  split <;> rfl

theorem row_mark (locs : List Loc) (st : DmStore) : (mark locs st).row = st.row := by
  funext a
  unfold DmStore.row
  simp only [Row.mk.injEq, and_true]
  constructor
  · rw [node_mark]
    cases st.node a with
    | none => rfl
    | some n =>
      simp only [Option.map_some]
      split <;> rfl
  · funext id
    rw [slot_mark, Option.map_map]
    have hc : DmValue.content ∘ (fun v => if Loc.slot a (id - 1) ∈ locs then setPending true v else v) =
        DmValue.content := funext fun v => content_mark locs _ v
    rw [hc]

theorem instanceNode_mark (locs : List Loc) (st : DmStore) (t : Option ObjTree) (id : ℕ) :
    (mark locs st).instanceNode t id = st.instanceNode t id := by
  cases t with
  | none => rfl
  | some t =>
    show findInstance (mark locs st).fuel (mark locs st).row t.tree 0 .inst (.int id) 0 = _
    rw [row_mark]
    rfl

theorem value_of_mark (locs : List Loc) (st : DmStore)
    (hlocs : ∀ l ∈ locs, ∃ v, st.value l = some v ∧ v.parity = true) (l : Loc) (w : DmValue)
    (hw : (mark locs st).value l = some w) (hp : w.parity = true) :
    ∃ v, st.value l = some v ∧ v.parity = true ∧ v.content = w.content := by
  rw [value_mark] at hw
  obtain ⟨v, hv, hvw⟩ := Option.map_eq_some_iff.mp hw
  refine ⟨v, hv, ?_, ?_⟩
  · by_cases hl : l ∈ locs
    · obtain ⟨v', hv', hp'⟩ := hlocs l hl
      rw [hv] at hv'
      cases hv'
      exact hp'
    · rw [if_neg hl] at hvw
      rw [hvw]
      exact hp
  · rw [← hvw, content_mark]

theorem resolves_mark (S : Schema) (locs : List Loc) (st : DmStore)
    (hlocs : ∀ l ∈ locs, ∃ v, st.value l = some v ∧ v.parity = true) {n : ℕ} {sel : Selector}
    {kw : ℕ} {base : Base} {ref : Option Ref} {r : Ref}
    (h : Resolves S (mark locs st) n sel kw base ref r) : Resolves S st n sel kw base ref r := by
  induction h with
  | done n kw base r => exact .done n kw base r
  | zero n sel kw base r => exact .zero n sel kw base r
  | row n id sel kw a i ref t b c v r hid htree hfind hval hpar hc _ ih =>
    obtain ⟨w, hw, hwc⟩ := (tree_eq_some _ _ _ _).mp htree
    have htree' : st.tree a i = some t := by
      rw [slot_mark] at hw
      obtain ⟨u, hu, huw⟩ := Option.map_eq_some_iff.mp hw
      refine (tree_eq_some _ _ _ _).mpr ⟨u, hu, ?_⟩
      rw [← hwc, ← huw, content_mark]
    rw [instanceNode_mark] at hfind
    obtain ⟨v', hv', hp', hc'⟩ := value_of_mark locs st hlocs _ v hval hpar
    exact .row n id sel kw a i ref t b c v' r hid htree' hfind hv' hp' (hc'.trans hc) ih
  | token n id sel kw a ref e v b r hid he hval hpar htype hc _ ih =>
    obtain ⟨v', hv', hp', hc'⟩ := value_of_mark locs st hlocs (.slot a (id - 1)) v hval hpar
    exact .token n id sel kw a ref e v' b r hid he hv' hp' htype (hc'.trans hc) ih
  | object n id sel kw a ref e v t r hid he hval hpar htype hc _ ih =>
    obtain ⟨v', hv', hp', hc'⟩ := value_of_mark locs st hlocs (.slot a (id - 1)) v hval hpar
    exact .object n id sel kw a ref e v' t r hid he hv' hp' htype (hc'.trans hc) ih
  | leaf n id sel kw a ref e v hid he hval hpar htoken hobject =>
    obtain ⟨v', hv', hp', -⟩ := value_of_mark locs st hlocs (.slot a (id - 1)) v hval hpar
    exact .leaf n id sel kw a ref e v' hid he hv' hp' htoken hobject

theorem getElementRef_mark (S : Schema) (locs : List Loc) (st : DmStore)
    (hlocs : ∀ l ∈ locs, ∃ v, st.value l = some v ∧ v.parity = true) (sel : Selector) (r : Ref)
    (h : (mark locs st).getElementRef S sel = some (some r)) :
    st.getElementRef S sel = some (some r) :=
  (resolves_iff sel r).mpr (resolves_mark S locs st hlocs ((resolves_iff sel r).mp h))

/-! ## Sets of the configure session -/

/-- The session state while only sets of the configure session happen: the store is the first one with
marks, and every item of the cache says where its selector leads in it. -/
structure Pending (S : Schema) (st0 st : DmStore) (cache : Cache) : Prop where
  store : ∃ locs, st = mark locs st0 ∧ ∀ l ∈ locs, l ∈ cache.map CacheItem.oldValue
  cached : Cached st0 cache
  refs : ∀ item ∈ cache, ∃ r, st0.getElementRef S item.sb = some (some r) ∧ r.value = item.oldValue

/-- The set goes past the cache: it is an array, in one of the forms that are looked at, and its name
is not too long. -/
def bypasses (S : Schema) (sel : Selector) (avp : Avp) : Bool :=
  match S.element sel with
  | some (.object, e) =>
    e.flags.array = true ∧ (avp.code = .unknown ∨ avp.code = .array) ∧
      (dmSel2name S sel maxParamNameLen).isSome = true
  | _ => false

theorem mem_cacheInsert (item x : CacheItem) (cache : Cache) :
    x ∈ cacheInsert item cache ↔ x = item ∨ x ∈ cache := by
  induction cache with
  | nil => exact List.mem_cons
  | cons y rest ih =>
    unfold cacheInsert
    split
    · exact List.mem_cons
    · rw [List.mem_cons, ih, List.mem_cons]
      exact or_left_comm

theorem cacheFind_some {cache : Cache} {sb : Selector} {item : CacheItem}
    (h : cacheFind cache sb = some item) :
    item ∈ cache ∧ dmSelcmp sb item.sb dmSelectorLen = 0 := by
  unfold cacheFind at h
  refine ⟨List.mem_of_find?_eq_some h, ?_⟩
  have hp := List.find?_some h
  simpa using hp

/-- The items of a cache, where their selectors and locations are concerned, after `cache_add`. -/
theorem mem_cacheAdd {cache : Cache} {sel : Selector} {e : DmElement} {base : Base} {l : Loc}
    {v : DmValue} {x : CacheItem} (hx : x ∈ cacheAdd cache sel e base l v) :
    (x.sb = sel ∧ x.oldValue = l ∧ x.base = base) ∨
      ∃ item ∈ cache, x.sb = item.sb ∧ x.oldValue = item.oldValue ∧ x.base = item.base := by
  unfold cacheAdd at hx
  cases hf : cacheFind cache sel with
  | none =>
    simp only [hf] at hx
    cases (mem_cacheInsert _ x cache).mp hx with
    | inl hx =>
      rw [hx]
      exact Or.inl ⟨rfl, rfl, rfl⟩
    | inr hx => exact Or.inr ⟨x, hx, rfl, rfl, rfl⟩
  | some item =>
    simp only [hf] at hx
    obtain ⟨y, hy, rfl⟩ := List.mem_map.mp hx
    refine Or.inr ⟨y, hy, ?_⟩
    split
    · exact ⟨rfl, rfl, rfl⟩
    · exact ⟨rfl, rfl, rfl⟩

theorem old_mem_cacheAdd {cache : Cache} (sel : Selector) (e : DmElement) (base : Base) (l : Loc)
    (v : DmValue) (hl : ∀ item ∈ cache, dmSelcmp sel item.sb dmSelectorLen = 0 → item.oldValue = l)
    (l' : Loc) (h : l' = l ∨ l' ∈ cache.map CacheItem.oldValue) :
    l' ∈ (cacheAdd cache sel e base l v).map CacheItem.oldValue := by
  unfold cacheAdd
  cases hf : cacheFind cache sel with
  | none =>
    simp only
    cases h with
    | inl h => exact List.mem_map.mpr ⟨_, (mem_cacheInsert _ _ cache).mpr (Or.inl rfl), h.symm⟩
    | inr h =>
      obtain ⟨x, hx, hxl⟩ := List.mem_map.mp h
      exact List.mem_map.mpr ⟨x, (mem_cacheInsert _ _ cache).mpr (Or.inr hx), hxl⟩
  | some item =>
    simp only [List.map_map]
    have hsame : (CacheItem.oldValue ∘ fun item => if dmSelcmp sel item.sb dmSelectorLen = 0 then
        { item with newValue := v, code := 0 } else item) = CacheItem.oldValue := by
      funext x
      show (if dmSelcmp sel x.sb dmSelectorLen = 0 then _ else x).oldValue = x.oldValue
      split <;> rfl
    rw [hsame]
    cases h with
    | inl h =>
      obtain ⟨hmem, hcmp⟩ := cacheFind_some hf
      exact List.mem_map.mpr ⟨item, hmem, (hl item hmem hcmp).trans h.symm⟩
    | inr h => exact h

/-- A set that passes the checks of `dmconfig_set_array_cb` goes on to delete the rows. -/
theorem bypasses_of_checks {S : Schema} {st : DmStore} {sel : Selector} {avp : Avp} {ref : Ref} {v : DmValue}
    (harr : ref.elem.flags.array = true) (href : st.getElementRef S sel = some (some ref))
    (hv : st.value ref.value = some v)
    (hcheck : ¬(ref.elem.type ≠ .object ∨ isObject v.content = false ∨
      (avp.code ≠ .unknown ∧ avp.code ≠ .array)))
    (hname : ¬(dmSel2name S sel maxParamNameLen).isNone = true) : bypasses S sel avp = true := by
  simp only [not_or, not_and, not_not] at hcheck
  obtain ⟨htype, hobj, hcode⟩ := hcheck
  cases getElementRef_element sel ref href htype with
  | inl hrow =>
    obtain ⟨w, b, hw, hwc⟩ := hrow
    rw [hv] at hw
    cases hw
    rw [hwc] at hobj
    exact absurd rfl hobj
  | inr helem =>
    have hcode' : avp.code = .unknown ∨ avp.code = .array := by
      by_cases hu : avp.code = .unknown
      · exact Or.inl hu
      · exact Or.inr (hcode hu)
    have hsome : (dmSel2name S sel maxParamNameLen).isSome = true := by
      rw [← Option.not_isNone, Bool.not_eq_true']
      exact Bool.eq_false_iff.mpr hname
    unfold bypasses
    simp only [helem]
    exact decide_eq_true ⟨harr, hcode', hsome⟩

/-- Such an array set returns before it changes anything. -/
theorem setArray_same (env : Env) (st st' : DmStore) (sel : Selector) (avp : Avp) (ref : Ref)
    (r : SetResult) (harr : ref.elem.flags.array = true)
    (href : st.getElementRef env.schema sel = some (some ref))
    (hby : bypasses env.schema sel avp = false)
    (hset : setArray env st sel ref.elem ref.value avp = some (r, st')) : st' = st ∧ r ≠ .ok := by
  unfold setArray at hset
  obtain ⟨v, hv, hset⟩ := Option.bind_eq_some_iff.mp hset
  by_cases hcheck : ref.elem.type ≠ .object ∨ isObject v.content = false ∨
      (avp.code ≠ .unknown ∧ avp.code ≠ .array)
  · rw [if_pos hcheck] at hset
    cases hset
    exact ⟨rfl, fun hh => nomatch hh⟩
  rw [if_neg hcheck] at hset
  by_cases hname : (dmSel2name env.schema sel maxParamNameLen).isNone = true
  · rw [if_pos hname] at hset
    cases hset
    exact ⟨rfl, fun hh => nomatch hh⟩
  have htrue := bypasses_of_checks harr href hv hcheck hname
  rw [hby] at htrue
  cases htrue

/-- A set that the cache takes up. -/
theorem setCb_pending (env : Env) (st0 st st' : DmStore) (cache cache' : Cache) (flags : ℕ)
    (hflags : configure flags = true) (sel : Selector) (avp : Avp) (ref : Ref) (r : SetResult)
    (h : Pending env.schema st0 st cache) (href : st.getElementRef env.schema sel = some (some ref))
    (hby : bypasses env.schema sel avp = false)
    (hs : setCb env st cache flags sel ref avp = some (r, st', cache')) :
    Pending env.schema st0 st' cache' := by
  obtain ⟨⟨locs, hst, hlocs⟩, hcached, hrefs⟩ := h
  have hlocs' : ∀ l ∈ locs, ∃ v, st0.value l = some v ∧ v.parity = true := by
    intro l hl
    obtain ⟨item, hitem, rfl⟩ := List.mem_map.mp (hlocs l hl)
    exact hcached item hitem
  have href0 : st0.getElementRef env.schema sel = some (some ref) :=
    getElementRef_mark env.schema locs st0 hlocs' sel ref (hst ▸ href)
  unfold setCb at hs
  by_cases harr : ref.elem.flags.array = true
  · rw [if_pos harr] at hs
    obtain ⟨⟨r1, st1⟩, hset, hs⟩ := Option.bind_eq_some_iff.mp hs
    cases hs
    have hsame : st' = st := (setArray_same env st st' sel avp ref r harr href hby hset).1
    rw [hsame]
    exact ⟨⟨locs, hst, hlocs⟩, hcached, hrefs⟩
  rw [if_neg harr] at hs
  cases hv : env.avp2value ref.elem avp with
  | error err =>
    simp only [hv] at hs
    cases hs
    exact ⟨⟨locs, hst, hlocs⟩, hcached, hrefs⟩
  | ok x =>
    simp only [hv, if_pos hflags] at hs
    obtain ⟨old, hold, hs⟩ := Option.bind_eq_some_iff.mp hs
    obtain ⟨st1, hset, hs⟩ := Option.bind_eq_some_iff.mp hs
    cases hs
    obtain ⟨v0, hv0, hp0⟩ := getElementRef_checked sel ref href0
    -- An item with this selector is for the same value.
    have hl : ∀ item ∈ cache, dmSelcmp sel item.sb dmSelectorLen = 0 → item.oldValue = ref.value := by
      intro item hitem hcmp
      obtain ⟨r0, hr0, hr0v⟩ := hrefs item hitem
      have heq : st0.getElementRef env.schema sel = st0.getElementRef env.schema item.sb :=
        elementRef_selcmp _ _ _ _ _ _ hcmp
      rw [heq, hr0] at href0
      cases href0
      exact hr0v.symm
    refine ⟨⟨ref.value :: locs, ?_, ?_⟩, ?_, ?_⟩
    · have hpend : setPending true old = if ref.value ∈ ref.value :: locs then setPending true v0 else v0 := by
        rw [if_pos List.mem_cons_self]
        rw [hst, value_mark, hv0] at hold
        have hold' := Option.some.inj hold
        rw [← hold']
        split <;> rfl
      rw [hst, hpend, setValue_mark locs (ref.value :: locs) st0 ref.value v0 hv0 (by
        intro l' hl'
        rw [List.mem_cons]
        exact ⟨Or.inr, fun hh => hh.resolve_left hl'⟩)] at hset
      exact (Option.some.inj hset).symm
    · intro l hl'
      apply old_mem_cacheAdd sel ref.elem ref.base ref.value _ hl
      cases List.mem_cons.mp hl' with
      | inl h => exact Or.inl h
      | inr h => exact Or.inr (hlocs l h)
    · intro item hitem
      rcases mem_cacheAdd hitem with ⟨-, hloc, -⟩ | ⟨y, hy, -, hloc, -⟩
      · rw [hloc]
        exact ⟨v0, hv0, hp0⟩
      · rw [hloc]
        exact hcached y hy
    · intro item hitem
      rcases mem_cacheAdd hitem with ⟨hsb, hloc, -⟩ | ⟨y, hy, hsb, hloc, -⟩
      · rw [hsb, hloc]
        exact ⟨ref, href0, rfl⟩
      · rw [hsb, hloc]
        exact hrefs y hy

theorem dbSet_pending (env : Env) (st0 : DmStore) (flags : ℕ) (hflags : configure flags = true)
    (values : List (Selector × Avp)) (hby : ∀ p ∈ values, bypasses env.schema p.1 p.2 = false)
    (st st' : DmStore) (cache cache' : Cache) (rc : Rc) (h : Pending env.schema st0 st cache)
    (hs : dbSet env flags values st cache = some (rc, st', cache')) :
    Pending env.schema st0 st' cache' := by
  induction values generalizing st cache with
  | nil =>
    cases hs
    exact h
  | cons p rest ih =>
    obtain ⟨sel, avp⟩ := p
    unfold dbSet at hs
    obtain ⟨ref, href, hs⟩ := Option.bind_eq_some_iff.mp hs
    cases ref with
    | none =>
      cases hs
      exact h
    | some ref =>
      obtain ⟨⟨r, st1, cache1⟩, hcb, hs⟩ := Option.bind_eq_some_iff.mp hs
      have h1 := setCb_pending env st0 st st1 cache cache1 flags hflags sel avp ref r h href
        (hby (sel, avp) List.mem_cons_self) hcb
      by_cases hr : r = .ok
      · simp only [if_pos hr] at hs
        exact ih (fun q hq => hby q (List.mem_cons_of_mem _ hq)) st1 cache1 h1 hs
      · simp only [if_neg hr] at hs
        cases hs
        exact h1

/-! ## Giving up the session -/

/-- The ways to give up the configure session. -/
inductive Discard
  | cancel
  | switch (flags : ℕ)
  | finish

def Discard.event (key : ℕ) : Discard → Event
  | .cancel => .cancel key
  | .switch flags => .switchSession key flags
  | .finish => .endSession key

/-- A switch gives it up if it is without `CMD_FLAG_CONFIGURE`. -/
def Discard.Leaves : Discard → Prop
  | .switch flags => configure flags = false
  | _ => True

/-- The context of a connection holds the configure session. -/
structure Holds (s : State) (key : ℕ) (c : Ctx) : Prop where
  ctx : s.ctx key = some c
  configures : c.configures
  id_eq : c.id = s.cfgSessionId
  id_ne : c.id ≠ 0

/-- The store is as it was and nothing is cached. -/
def Restored (st0 : DmStore) (s : State) : Prop := s.store = st0 ∧ s.cache = []

section Discard
variable {env : Env} {st0 : DmStore} {s s' : State} {key : ℕ} {c : Ctx}

theorem Pending.reset {st : DmStore} {cache : Cache} (h : Pending env.schema st0 st cache)
    (h0 : NoPending st0) : cacheReset st cache = some st0 := by
  obtain ⟨⟨locs, rfl, hlocs⟩, hcached, -⟩ := h
  exact cacheReset_mark st0 h0 cache hcached locs hlocs

theorem resetCache_pending (h : Pending env.schema st0 s.store s.cache) (h0 : NoPending st0) :
    s.resetCache = some { s with store := st0, cache := [] } := by
  unfold State.resetCache
  rw [h.reset h0]
  rfl

theorem leave_pending (h : Pending env.schema st0 s.store s.cache) (h0 : NoPending st0)
    (hid : c.id = s.cfgSessionId) :
    s.leave c = some { s with store := st0, cache := [], cfgSessionId := 0 } := by
  unfold State.leave
  rw [if_pos hid.symm]
  exact resetCache_pending h h0

theorem endSession_pending (h : Pending env.schema st0 s.store s.cache) (h0 : NoPending st0)
    (hid : c.id = s.cfgSessionId) (hs : endSession s c = some s') :
    Restored st0 s' ∧ s'.ctx c.key = none := by
  unfold endSession at hs
  rw [leave_pending h h0 hid] at hs
  cases hs
  refine ⟨⟨rfl, rfl⟩, ?_⟩
  apply List.find?_eq_none.mpr
  intro d hd
  have hne := (List.mem_filter.mp hd).2
  simpa using hne

/-- Each way of giving up the session brings the store back. -/
theorem discard_step (h : Pending env.schema st0 s.store s.cache) (h0 : NoPending st0)
    (hold : Holds s key c) (how : Discard) (hl : how.Leaves) :
    ∃ rc s2, step env s (how.event key) = some (rc, s2) ∧ Restored st0 s2 := by
  cases how with
  | cancel =>
    refine ⟨.ok, { s with store := st0, cache := [] }, ?_, rfl, rfl⟩
    simp only [Discard.event, step, hold.ctx, Option.bind_eq_bind, Option.bind_some, cancel]
    rw [if_neg (not_not.mpr hold.id_eq), resetCache_pending h h0]
    rfl
  | switch flags =>
    refine ⟨.ok, ({ s with store := st0, cache := [], cfgSessionId := 0 } : State).setCtx
      ⟨c.key, c.id, flags⟩, ?_, rfl, rfl⟩
    have hflags : ¬configure flags = true := by
      rw [Bool.not_eq_true]
      exact hl
    simp only [Discard.event, step, hold.ctx, Option.bind_eq_bind, Option.bind_some, switchSession]
    rw [if_neg hold.id_ne, if_neg hflags, leave_pending h h0 hold.id_eq]
    rfl
  | finish =>
    have hend : ∃ s2, endSession s c = some s2 := by
      unfold endSession
      rw [leave_pending h h0 hold.id_eq]
      exact ⟨_, rfl⟩
    obtain ⟨s2, hs2⟩ := hend
    refine ⟨.ok, s2, ?_, (endSession_pending h h0 hold.id_eq hs2).1⟩
    simp only [Discard.event, step, hold.ctx, Option.bind_eq_bind, Option.bind_some, hs2]

/-- One set: the session goes on with what is pending, or it is over and the store is back. -/
theorem set_step (h : Pending env.schema st0 s.store s.cache) (h0 : NoPending st0)
    (hold : Holds s key c) (values : List (Selector × Avp))
    (hby : ∀ p ∈ values, bypasses env.schema p.1 p.2 = false) (rc : Rc)
    (hs : step env s (.set key values) = some (rc, s')) :
    (Holds s' key c ∧ Pending env.schema st0 s'.store s'.cache) ∨
      (Restored st0 s' ∧ s'.ctx key = none) := by
  obtain ⟨c', hc', hs⟩ := Option.bind_eq_some_iff.mp hs
  rw [hold.ctx] at hc'
  cases hc'
  obtain ⟨⟨rc1, st1, cache1⟩, hset, hs⟩ := Option.bind_eq_some_iff.mp hs
  have h1 := dbSet_pending env st0 c.flags hold.configures values hby s.store st1 s.cache cache1 rc1
    h hset
  unfold afterRequest at hs
  by_cases hrc : rc1 = .errAlloc
  · simp only [if_pos hrc] at hs
    obtain ⟨c', hc', hs1⟩ := Option.bind_eq_some_iff.mp hs
    have hcc : c' = c := Option.some.inj (hc'.symm.trans hold.ctx)
    rw [hcc] at hs1
    obtain ⟨s2, hend, hs2⟩ := Option.bind_eq_some_iff.mp hs1
    cases hs2
    have hres := endSession_pending (s := { s with store := st1, cache := cache1 }) h1 h0 hold.id_eq hend
    rw [(ctx_mem hold.ctx).2] at hres
    exact Or.inr hres
  · simp only [if_neg hrc] at hs
    cases hs
    exact Or.inl ⟨⟨hold.ctx, hold.configures, hold.id_eq, hold.id_ne⟩, h1⟩

end Discard

/-- **Cancel discards every set that goes through the cache.** From a state in which nothing is
pending, after any sets of the session that holds the configure session, none of which is an array that
bypasses the cache: cancelling, switching the mode and ending the session succeed and bring back the
store as it was, with an empty cache; if the session was ended because memory ran out, it is so
already. -/
theorem discard_restores (env : Env) (s s1 : State) (key : ℕ) (c : Ctx) (hold : Holds s key c)
    (hcache : s.cache = []) (hpending : NoPending s.store) (reqs : List (List (Selector × Avp)))
    (hby : ∀ req ∈ reqs, ∀ p ∈ req, bypasses env.schema p.1 p.2 = false)
    (hrun : run env s (reqs.map (Event.set key)) = some s1) :
    (s1.ctx key = none → Restored s.store s1) ∧
      (s1.ctx key ≠ none → ∀ how : Discard, how.Leaves →
        ∃ rc s2, step env s1 (how.event key) = some (rc, s2) ∧ Restored s.store s2) := by
  have hstart : Pending env.schema s.store s.store s.cache := by
    rw [hcache]
    refine ⟨⟨[], (mark_nil _).symm, ?_⟩, ?_, ?_⟩
    · exact fun l hl => absurd hl List.not_mem_nil
    · exact fun item hitem => absurd hitem List.not_mem_nil
    · exact fun item hitem => absurd hitem List.not_mem_nil
  have hruns : ∀ (reqs : List (List (Selector × Avp))) (t : State), Holds t key c →
      Pending env.schema s.store t.store t.cache →
      (∀ req ∈ reqs, ∀ p ∈ req, bypasses env.schema p.1 p.2 = false) →
      run env t (reqs.map (Event.set key)) = some s1 →
      (Holds s1 key c ∧ Pending env.schema s.store s1.store s1.cache) ∨
        (Restored s.store s1 ∧ s1.ctx key = none) := by
    intro reqs
    induction reqs with
    | nil =>
      intro t ht hp _ hrun
      cases hrun
      exact Or.inl ⟨ht, hp⟩
    | cons req reqs ih =>
      intro t ht hp hby hrun
      rw [List.map_cons] at hrun
      obtain ⟨⟨rc, t1⟩, hstep, hrun⟩ := Option.bind_eq_some_iff.mp hrun
      cases set_step hp hpending ht req (hby req List.mem_cons_self) rc hstep with
      | inl hgo =>
        exact ih t1 hgo.1 hgo.2 (fun r hr => hby r (List.mem_cons_of_mem _ hr)) hrun
      | inr hend =>
        -- Without a context there are no more requests.
        cases reqs with
        | nil =>
          cases hrun
          exact Or.inr hend
        | cons req' reqs' =>
          rw [List.map_cons] at hrun
          obtain ⟨x, hstep', -⟩ := Option.bind_eq_some_iff.mp hrun
          obtain ⟨c', hc', -⟩ := Option.bind_eq_some_iff.mp hstep'
          rw [hend.2] at hc'
          cases hc'
  cases hruns reqs s hold hstart hby hrun with
  | inl hgo =>
    refine ⟨?_, fun _ how hl => discard_step hgo.2 hpending hgo.1 how hl⟩
    intro hnone
    rw [hgo.1.ctx] at hnone
    cases hnone
  | inr hend => exact ⟨fun _ => hend.1, fun hne => absurd hend.2 hne⟩

theorem sampleStore_noPending : NoPending sampleStore := by
  have hnone : ∀ a, a ≠ 0 → sampleStore.heap a = none := by
    intro a ha
    simp only [sampleStore, Function.update_of_ne ha]
  intro l v hv
  cases l with
  | slot a i =>
    obtain ⟨t, ht, hvi⟩ := DmStore.slot_eq_some.mp hv
    by_cases ha : a = 0
    · subst ha
      cases ht
      have hmem := List.mem_of_getElem? hvi
      simp only [List.mem_cons, List.not_mem_nil, or_false] at hmem
      rcases hmem with rfl | rfl | rfl | rfl | rfl <;> rfl
    · rw [hnone a ha] at ht
      cases ht
  | row a =>
    obtain ⟨n, hn, -⟩ := Option.map_eq_some_iff.mp hv
    obtain ⟨t, ht, htn⟩ := DmStore.node_eq_some.mp hn
    by_cases ha : a = 0
    · subst ha
      cases ht
      cases htn
    · rw [hnone a ha] at ht
      cases ht

/-- A set, a set of the same value and one that is refused. -/
def sampleSets : List (List (Selector × Avp)) :=
  [[([1], sampleAvp 3), ([5], sampleAvp 2)], [([1], sampleAvp 4)], [([3], sampleAvp 1)]]

theorem discard_restores_sample :
    ∃ s1, run sampleEnv sampleState (sampleSets.map (Event.set 1)) = some s1 ∧ s1.cache.length = 2 ∧
      ∀ how : Discard, how.Leaves →
        ∃ rc s2, step sampleEnv s1 (how.event 1) = some (rc, s2) ∧ Restored sampleStore s2 := by
  have h : ((run sampleEnv sampleState (sampleSets.map (Event.set 1))).map fun s =>
      (s.cache.length, s.ctx 1)) = some (2, some ⟨1, 1, 1⟩) := by decide +kernel
  obtain ⟨s1, hrun, h⟩ := Option.map_eq_some_iff.mp h
  obtain ⟨hlen, hctx⟩ := Prod.mk.inj h
  have hall := discard_restores sampleEnv sampleState s1 1 ⟨1, 1, 1⟩
    ⟨rfl, rfl, rfl, by decide⟩ rfl sampleStore_noPending sampleSets (by decide) hrun
  refine ⟨s1, hrun, hlen, hall.2 ?_⟩
  rw [hctx]
  exact fun hh => nomatch hh

/-- An array that is set in the configure session stays after the cancel: its first row is there, and
the client was told that the cancel succeeded. -/
theorem discard_misses_array :
    Holds sampleState 1 ⟨1, 1, 1⟩ ∧ sampleState.cache = [] ∧
    sampleStore.getElementRef sampleSchema [2, 1, 1] = some none ∧
    ∃ s1 s2, run sampleEnv sampleState [.set 1 [([2], ⟨.unknown, [120], 1⟩)]] = some s1 ∧
      step sampleEnv s1 (.cancel 1) = some (.ok, s2) ∧
      s2.store.getElementRef sampleSchema [2, 1, 1] ≠ some none ∧ s2.store ≠ sampleStore := by
  have hbefore : sampleStore.getElementRef sampleSchema [2, 1, 1] = some none := by decide +kernel
  have h : ((run sampleEnv sampleState [.set 1 [([2], ⟨.unknown, [120], 1⟩)]]).bind fun s1 =>
      (step sampleEnv s1 (.cancel 1)).map fun r =>
        (r.1, decide (r.2.store.getElementRef sampleSchema [2, 1, 1] = some none))) =
      some (.ok, false) := by decide +kernel
  obtain ⟨s1, hrun, h⟩ := Option.bind_eq_some_iff.mp h
  obtain ⟨⟨rc, s2⟩, hstep, h⟩ := Option.map_eq_some_iff.mp h
  obtain ⟨hrc, hne⟩ := Prod.mk.inj h
  have hne' := of_decide_eq_false hne
  refine ⟨⟨rfl, rfl, rfl, by decide⟩, rfl, hbefore, s1, s2, hrun, ?_, hne', ?_⟩
  · rw [hstep, ← hrc]
  · intro heq
    apply hne'
    rw [heq]
    exact hbefore

end Mand.Server
