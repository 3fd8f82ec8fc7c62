import Mand.Notify.Forget
import Mand.Notify.Pending
import Mand.Server.ReadBack
import Mand.Signal.System
import Mand.Signal.Written

/-! # A write reports itself

What a write leaves in the notify mask of its leaf and in the queues of the slots. -/
namespace Mand.Signal
open Mand.Store Mand.Index Mand.Msg Mand.Server Mand.Notify Mand.Action
set_option autoImplicit false

/-! ## Delivery -/

theorem deliverAll_append (n : Notifier) (sigs sigs' : List Signal) :
    deliverAll n (sigs ++ sigs') = deliverAll (deliverAll n sigs) sigs' := List.foldl_append

/-- The queues stay ordered. -/
theorem notifySel_ordered {n : Notifier} (hq : ∀ i, QueueOrdered (n.queue i)) (slot : ℤ) (sel : Selector)
    (value : DmValue) (type : NotifyType) (i : ℕ) : QueueOrdered ((notifySel n slot sel value type).queue i) := by
  rw [notifySel_queue]
  split
  · exact (hq i).put _
  · exact hq i

theorem deliverAll_ordered {n : Notifier} (hq : ∀ i, QueueOrdered (n.queue i)) (sigs : List Signal) (i : ℕ) :
    QueueOrdered ((deliverAll n sigs).queue i) := by
  induction sigs generalizing n with
  | nil => exact hq i
  | cons sig sigs ih =>
    refine ih fun j => ?_
    cases sig with
    | notify slot sel value type => exact notifySel_ordered hq slot sel value type j
    | action action sel type => exact hq j

theorem notifyCompare_over (a b c : NotifyItem) :
    notifyCompare (a.over b) c = notifyCompare b c ∧ notifyCompare c (a.over b) = notifyCompare c b := ⟨rfl, rfl⟩

/-- A queue has one item for the selector of the last report. -/
theorem putItem_filter {q : List NotifyItem} (hq : QueueOrdered q) (x : NotifyItem) :
    ∃ y, (putItem q x).filter (fun z => selIds z.sb = selIds x.sb) = [y] ∧ y.level = x.level ∧ y.type = x.type ∧
      y.value = x.value := by
  have hput : QueueOrdered (putItem q x) := hq.put x
  obtain ⟨y, hy, hsel, hrest⟩ : ∃ y ∈ putItem q x, selIds y.sb = selIds x.sb ∧ y.level = x.level ∧ y.type = x.type ∧
      y.value = x.value := by
    cases hf : findItem q x with
    | none => exact ⟨x, hq.mem_put.mpr (.inl ⟨hf, rfl⟩), rfl, rfl, rfl, rfl⟩
    | some old =>
      have hold : selIds old.sb = selIds x.sb := (notifyCompare_selIds.mp (Keyed.find_eq hf)).symm
      exact ⟨x.over old, hq.mem_put.mpr (.inr (.inl ⟨old, hf, rfl⟩)), hold, rfl, rfl, rfl⟩
  refine ⟨y, ?_, hrest⟩
  have hsame : ∀ z : NotifyItem, decide (selIds z.sb = selIds x.sb) = decide (notifyCompare y z = 0) := by
    intro z
    rw [decide_eq_decide, notifyCompare_selIds, hsel]
    exact eq_comm
  simp only [hsame]
  exact Keyed.Ordered.filter_eq notifyCompare_comparison hput hy

/-- A queue has a report already. -/
def Held (q : List NotifyItem) (x : NotifyItem) : Prop := ∃ y ∈ q, selIds x.sb = selIds y.sb ∧ x.over y = y

theorem putItem_eq_iff {q : List NotifyItem} (hq : QueueOrdered q) (x : NotifyItem) : putItem q x = q ↔ Held q x := by
  unfold putItem Held
  rw [Keyed.Ordered.upsert_eq_iff notifyCompare_comparison notifyCompare_over hq]
  simp only [notifyCompare_selIds]

/-! ## Writes -/

/-- The values in the cache are what `dmconfig_avp2value` made of an AVP. -/
def Converted (env : Env) (cache : Cache) : Prop :=
  ∀ item ∈ cache, ∃ avp v, env.avp2value item.elem avp = .ok v ∧ item.newValue = newValue v

/-- A value is applied to a leaf within a request, at store `st` and with `told` reported so far: by
`dmconfig_set_cb` for a client without a configure session, which reports it under the path of the leaf, or in
a round of `cache_apply`, which reports it under the selector of the item. -/
inductive Applies (env : Env) (slot : ℤ) (s : State) (st : DmStore) (told : List Signal) :
    Selector → DmElement → Loc → Value → DmStore → List Signal → Prop
  | set {flags : ℕ} {before : List (Selector × Avp)} {cache cache' : Cache} {sel : Selector} {ref : Ref} {avp : Avp}
      {v : Value} {st' : DmStore} {sigs : List Signal} (hflags : configure flags = false)
      (hbefore : dbSet env slot flags before s.store s.cache = some ((.ok, st, cache), told))
      (href : st.getElementRef env.schema sel = some (some ref)) (harr : ref.elem.flags.array = false)
      (hv : env.avp2value ref.elem avp = .ok v)
      (h : setCb env slot st cache flags sel ref avp = some ((.ok, st', cache'), sigs)) :
      Applies env slot s st told (env.schema.path sel) ref.elem ref.value v st' sigs
  | commit {order : List Selector} {r : ℕ} {cache : Cache} {before after : List CacheItem} {item : CacheItem}
      {v : Value} {st' : DmStore} {sigs : List Signal}
      (hval : cacheValidate env s.store s.cache = some (r, cache))
      (horder : order.filterMap (cacheFind cache) = before ++ item :: after)
      (hbefore : cacheApply env slot s.store before = some (st, told)) (hnew : item.newValue = newValue v)
      (h : applyItem env slot st item = some (st', sigs)) :
      Applies env slot s st told item.sb item.elem item.oldValue v st' sigs

/-- `dmconfig_avp2value` makes a string for a netmask. -/
def NetmaskStrings (env : Env) : Prop :=
  ∀ (kw : ℕ) (e : DmElement) (update : ℕ) (avp : Avp) (v : Value), e ∈ (env.schema.table kw).elems →
    e.set = some (.addressNetmask update) → env.avp2value e avp = .ok v → ∃ s, v = .str s

section Applied
variable {env : Env} {slot : ℤ} {s : State} {st st' : DmStore} {told : List Signal} {sel : Selector} {e : DmElement}
  {l : Loc} {v : Value} {sigs : List Signal} {n : Notifier}

theorem map_fst_some {α L : Type} {x : Option (α × L)} {y : Option α} {a : α} {l : L} (h : x.map Prod.fst = y)
    (hx : x = some (a, l)) : y = some a := by
  rw [← h, hx]
  rfl

theorem Converted.validated {cache cache' : Cache} {r : ℕ} (h : Converted env cache)
    (hval : cacheValidate env st cache = some (r, cache')) : Converted env cache' := by
  intro x hx
  obtain ⟨y, hy, code, rfl⟩ := cacheValidate_items env st cache cache' r hval x hx
  exact h y hy

theorem Applies.wrote (hwf : StateWf False env s.store s.cache) (hcache : Converted env s.cache)
    (hsib : SiblingSetters env.schema) (hstr : NetmaskStrings env)
    (h : Applies env slot s st told sel e l v st' sigs) :
    ∃ a i old new, l = .slot a i ∧ LeafAt env.schema st a i e ∧ Wrote env.undef st st' a i e v old new ∧
      sigs = writeSignals env.undef slot st a i e v sel new := by
  cases h with
  | set hflags hbefore href harr hv h =>
    obtain ⟨hwf1, -⟩ := StateWf.dbSet (P := fun _ => False) _ _ _ _ _ hwf
      (fun _ _ _ => ⟨not_false, fun _ _ => not_false⟩) (map_fst_some (dbSet_store ..) hbefore)
    unfold setCb at h
    rw [if_neg (by rw [harr]; decide), hv] at h
    simp only [hflags, Bool.false_eq_true, if_false, Option.bind_eq_bind, Option.bind_eq_some_iff, Prod.exists,
      Option.some.injEq, Prod.mk.injEq] at h
    obtain ⟨r, st1, sigs1, h1, ⟨hr, rfl, rfl⟩, rfl⟩ := h
    have hok : r = .ok := by
      by_contra hne
      rw [if_neg hne] at hr
      cases hr
    rw [hok] at h1
    obtain ⟨a, i, old, new, -, hvalue, hla, hwrote, hsigs⟩ :=
      overwriteValue_wrote hwf1.store hsib href (avp2value_writable hv).1 h1
    exact ⟨a, i, old, new, hvalue, hla, hwrote, hsigs⟩
  | @commit order r cache before after item v st' sigs hval horder hbefore hnew h =>
    have hmem : ∀ x ∈ before ++ item :: after, x ∈ cache := by
      intro x hx
      rw [← horder] at hx
      obtain ⟨q, -, hfind⟩ := List.mem_filterMap.mp hx
      exact (cacheFind_some hfind).1
    have hitems : ∀ x ∈ before ++ item :: after, ItemWf env.schema s.store x := fun x hx =>
      (hwf.validated hval).items x (hmem x hx)
    have hk := cacheApply_kept before s.store st hwf.store (fun x hx => hitems x (List.mem_append_left _ hx))
      (map_fst_some (cacheApply_store ..) hbefore)
    have hitem := (hitems item (List.mem_append_right _ List.mem_cons_self)).keeps hk.keeps
    obtain ⟨avp, w, hw, hneww⟩ := (hcache.validated hval) item (hmem item (List.mem_append_right _ List.mem_cons_self))
    rw [hnew] at hneww
    cases hneww
    exact applyItem_wrote hsib hitem hnew (fun kw update he hset => hstr kw _ update _ _ he hset hw) h

/-! ## Reports -/

/-- The mask of the leaf is what it was, the queue of every slot but the writer's that has a level in it has
one item for the selector, with the new value, and the writer's queue is what it was. -/
structure Reported (n n' : Notifier) (slot : ℤ) (sel : Selector) (x : Value) (old new : DmValue) : Prop where
  value : new.content = .scalar x
  mask : new.notify = old.notify
  one : ∀ i : ℕ, i < 16 → (i : ℤ) ≠ slot → levelOf old.notify i ≠ 0 → ∃ item,
    (n'.queue i).filter (fun y => selIds y.sb = selIds sel) = [item] ∧ item.type = .change ∧
      item.value.content = .scalar x
  own : ∀ i : ℕ, i < 16 → (i : ℤ) = slot → n'.queue i = n.queue i

/-- A leaf whose setter assigns the whole value is not subscribed to, and of the field that a setter writes
besides the writer hears nothing: it has no level there, or has the report in its queue already. -/
structure Discreet (undef : ℕ) (n : Notifier) (slot : ℤ) (st : DmStore) (l : Loc) (e : DmElement) (v : Value) :
    Prop where
  mask : e.wholesale = true → ∀ old, st.value l = some old → old.notify = 0
  sibling : ∀ a i id y u, l = .slot a i → derivedWrite undef st a i e v = some (id, y) →
    st.slot a (id - 1) = some u → ∀ k : ℕ, k < 16 → (k : ℤ) = slot → levelOf u.notify k = 0 ∨
      Held (n.queue k) ⟨levelOf u.notify k, dmSelcat (tableId st a) id, .change,
        { markUpdated u with content := .scalar y }⟩

/-- The own report comes last and leaves the writer out. -/
theorem deliver_writeSignals {a i : ℕ} {new : DmValue} :
    deliverAll n (writeSignals env.undef slot st a i e v sel new) =
      notifySel (deliverAll n (derivedReport env.undef st a i e v)) slot sel new .change := by
  unfold writeSignals
  rw [deliverAll_append, deliverAll_append]
  rfl

theorem not_served_own {ntfy k : ℕ} (hk : (k : ℤ) = slot) : ¬served slot ntfy k = true := by
  simp [served, hk]

/-- What the writer hears of the other field. -/
theorem derivedReport_own_iff {a i k : ℕ} (hq : ∀ i, QueueOrdered (n.queue i)) (hk : k < 16) :
    (deliverAll n (derivedReport env.undef st a i e v)).queue k = n.queue k ↔
      ∀ id y u, derivedWrite env.undef st a i e v = some (id, y) → st.slot a (id - 1) = some u →
        levelOf u.notify k = 0 ∨ Held (n.queue k) ⟨levelOf u.notify k, dmSelcat (tableId st a) id, .change,
          { markUpdated u with content := .scalar y }⟩ := by
  unfold derivedReport
  cases hd : derivedWrite env.undef st a i e v with
  | none => simp [deliverAll]
  | some p =>
    obtain ⟨id, y⟩ := p
    cases hu : st.slot a (id - 1) with
    | none =>
      simp only [hu, Option.toList_none, List.map_nil, deliverAll, List.foldl_nil, true_iff]
      intro id' y' u hsome hu'
      cases hsome
      rw [hu] at hu'
      cases hu'
    | some u =>
      simp only [hu, Option.toList_some, List.map_cons, List.map_nil, deliverAll, List.foldl_cons, List.foldl_nil, deliver]
      rw [notifySel_queue]
      have hserved : served (-1) u.notify k = true ↔ levelOf u.notify k ≠ 0 := by
        simp only [served, Bool.decide_and, Bool.and_eq_true, decide_eq_true_eq]
        exact ⟨fun h => h.2.2, fun h => ⟨hk, by omega, h⟩⟩
      have hsrv : served (-1) ({ markUpdated u with content := .scalar y } : DmValue).notify k =
        served (-1) u.notify k := rfl
      rw [hsrv]
      constructor
      · intro heq id' y' u' hsome hu'
        cases hsome
        rw [hu] at hu'
        cases hu'
        by_cases hlevel : levelOf u.notify k = 0
        · exact .inl hlevel
        · rw [if_pos (hserved.mpr hlevel)] at heq
          exact .inr ((putItem_eq_iff (hq k) _).mp heq)
      · intro hall
        rcases hall id y u rfl hu with hlevel | hheld
        · rw [if_neg fun h => hserved.mp h hlevel]
        · split
          · exact (putItem_eq_iff (hq k) _).mpr hheld
          · rfl

theorem Wrote.reported_iff {a i : ℕ} {old new : DmValue} (hq : ∀ i, QueueOrdered (n.queue i))
    (h : Wrote env.undef st st' a i e v old new) :
    Reported n (deliverAll n (writeSignals env.undef slot st a i e v sel new)) slot sel (written e v) old new ↔
      Discreet env.undef n slot st (.slot a i) e v := by
  rw [deliver_writeSignals]
  have hown : ∀ k : ℕ, (k : ℤ) = slot →
      (notifySel (deliverAll n (derivedReport env.undef st a i e v)) slot sel new .change).queue k =
        (deliverAll n (derivedReport env.undef st a i e v)).queue k := by
    intro k hk
    rw [notifySel_queue, if_neg (not_served_own hk)]
  constructor
  · intro hr
    refine ⟨?_, ?_⟩
    · intro hwhole old' hold'
      have hold : st.slot a i = some old' := hold'
      rw [h.before] at hold
      cases hold
      rw [← hr.mask, h.notify, if_pos hwhole]
    · intro a' i' id y u hl hd hu k hk hkslot
      cases hl
      have hsame := hr.own k hk hkslot
      rw [hown k hkslot] at hsame
      exact (derivedReport_own_iff hq hk).mp hsame id y u hd hu
  · intro hd
    have hmask : new.notify = old.notify := by
      rw [h.notify]
      split
      · exact (hd.mask ‹_› old h.before).symm
      · rfl
    refine ⟨h.content, hmask, ?_, ?_⟩
    · intro k hk hne hlevel
      have hserved : served slot new.notify k = true := by
        rw [hmask]
        simp [served, hk, hne, hlevel]
      rw [notifySel_queue, if_pos hserved]
      obtain ⟨item, hitem, -, htype, hvalue⟩ := putItem_filter (deliverAll_ordered hq _ k)
        (⟨levelOf new.notify k, sel, .change, new⟩ : NotifyItem)
      exact ⟨item, hitem, htype, by rw [hvalue]; exact h.content⟩
    · intro k hk hkslot
      rw [hown k hkslot]
      exact (derivedReport_own_iff hq hk).mpr fun id y u hdw hu => hd.sibling a i id y u rfl hdw hu k hk hkslot

/-- A write keeps the mask of its leaf and reports itself once, exactly when it is discreet. -/
theorem write_reported_iff (env : Env) (slot : ℤ) (n : Notifier) (s : State) (st st' : DmStore) (told sigs : List Signal)
    (sel : Selector) (e : DmElement) (l : Loc) (v : Value) (hwf : StateWf False env s.store s.cache)
    (hcache : Converted env s.cache) (hq : ∀ i, QueueOrdered (n.queue i)) (hsib : SiblingSetters env.schema)
    (hstr : NetmaskStrings env) (h : Applies env slot s st told sel e l v st' sigs) :
    ∃ old new, st.value l = some old ∧ st'.value l = some new ∧
      (Reported (deliverAll n told) (deliverAll (deliverAll n told) sigs) slot sel (written e v) old new ↔
        Discreet env.undef (deliverAll n told) slot st l e v) := by
  obtain ⟨a, i, old, new, rfl, -, hwrote, rfl⟩ := h.wrote hwf hcache hsib hstr
  exact ⟨old, new, hwrote.before, hwrote.after, hwrote.reported_iff (deliverAll_ordered hq told)⟩

end Applied

/-- A client without a configure session on a store. -/
def sampleWriter (st : DmStore) : State := ⟨st, [], 0, 2, [⟨1, 1, 0⟩]⟩

/-- The small data model has no address. -/
theorem sampleTable_updates (kw : ℕ) : ∀ e ∈ (sampleTable kw).elems, e.set.bind SetHook.updates = none := by
  obtain _ | _ | kw := kw
  · decide
  · decide
  · exact fun e he => absurd he List.not_mem_nil

theorem sampleEnv_siblings : SiblingSetters sampleEnv.schema := by
  intro kw i e he update hup
  rw [sampleTable_updates kw e (List.mem_of_getElem? he)] at hup
  cases hup

theorem sampleEnv_strings : NetmaskStrings sampleEnv := by
  intro kw e update avp v he hset
  have hup := sampleTable_updates kw e he
  rw [hset] at hup
  cases hup

/-- A store in which slot 1 has asked for the number and for the clock. -/
def sampleSubscribed : DmStore :=
  (Run.run (notifyCall sampleSchema) sampleStore [.param 1 1 [[1], [5]]]).getD sampleStore

theorem sampleSubscribed_reached :
    Run.run (notifyCall sampleSchema) sampleStore [.param 1 1 [[1], [5]]] = some sampleSubscribed := rfl

theorem sampleSubscribed_wf : StateWf False sampleEnv (sampleWriter sampleSubscribed).store [] := by
  have hw : StoreWf False sampleSchema sampleStore := init_wf rfl
  exact ⟨(notifyCalls_wf hw Save.sampleStore_intact sampleSubscribed_reached).1, fun x hx => absurd hx List.not_mem_nil⟩

/-- The client sets one value. -/
theorem sampleApplies {sel : Selector} {ref : Ref} {v : Value} {r : SetResult} {st' : DmStore} {cache' : Cache}
    {sigs : List Signal} (href : sampleSubscribed.getElementRef sampleSchema sel = some (some ref))
    (harr : ref.elem.flags.array = false) (hv : sampleEnv.avp2value ref.elem (sampleAvp 3) = .ok v)
    (h : setCb sampleEnv 2 sampleSubscribed [] 0 sel ref (sampleAvp 3) = some ((r, st', cache'), sigs)) (hr : r = .ok) :
    Applies sampleEnv 2 (sampleWriter sampleSubscribed) sampleSubscribed [] (sampleSchema.path sel) ref.elem ref.value v
      st' sigs := by
  have hnone : dbSet sampleEnv 2 0 [] (sampleWriter sampleSubscribed).store (sampleWriter sampleSubscribed).cache =
    some ((.ok, sampleSubscribed, []), []) := rfl
  rw [hr] at h
  exact .set rfl hnone href harr hv h

theorem write_reported_sample : ∃ st' sigs,
    Applies sampleEnv 2 (sampleWriter sampleSubscribed) sampleSubscribed [] [1] sampleNumber.elem (.slot 0 0) (.uint 3)
      st' sigs ∧
    ∃ old new, sampleSubscribed.value (.slot 0 0) = some old ∧ st'.value (.slot 0 0) = some new ∧
      (Reported (deliverAll sampleNotifier []) (deliverAll (deliverAll sampleNotifier []) sigs) 2 [1]
        (written sampleNumber.elem (.uint 3)) old new ↔
        Discreet sampleEnv.undef (deliverAll sampleNotifier []) 2 sampleSubscribed (.slot 0 0) sampleNumber.elem
          (.uint 3)) := by
  obtain ⟨⟨⟨r, st', cache'⟩, sigs⟩, hset⟩ : ∃ x, setCb sampleEnv 2 sampleSubscribed [] 0 [1] sampleNumber (sampleAvp 3) =
    some x := ⟨_, rfl⟩
  have hr : r = .ok := by
    cases hset
    rfl
  have happ : Applies sampleEnv 2 (sampleWriter sampleSubscribed) sampleSubscribed [] [1] sampleNumber.elem (.slot 0 0)
      (.uint 3) st' sigs := sampleApplies rfl rfl rfl hset hr
  exact ⟨_, _, happ, write_reported_iff sampleEnv 2 sampleNotifier _ _ _ _ _ _ _ _ _ sampleSubscribed_wf
    (fun x hx => absurd hx List.not_mem_nil) (fun _ => List.Pairwise.nil) sampleEnv_siblings sampleEnv_strings happ⟩

/-- The setter of the clock takes over the mask of the new value, and nobody hears of the change. -/
theorem clock_unreported : ∃ st' sigs old new,
    Applies sampleEnv 2 (sampleWriter sampleSubscribed) sampleSubscribed [] [5] sampleClock.elem (.slot 0 4) (.ticks 3)
      st' sigs ∧
    sampleSubscribed.value (.slot 0 4) = some old ∧ st'.value (.slot 0 4) = some new ∧
    ¬Reported (deliverAll sampleNotifier []) (deliverAll (deliverAll sampleNotifier []) sigs) 2 [5]
      (written sampleClock.elem (.ticks 3)) old new := by
  obtain ⟨⟨⟨r, st', cache'⟩, sigs⟩, hset⟩ : ∃ x, setCb sampleEnv 2 sampleSubscribed [] 0 [5] sampleClock (sampleAvp 3) =
    some x := ⟨_, rfl⟩
  have hr : r = .ok := by
    cases hset
    rfl
  have happ : Applies sampleEnv 2 (sampleWriter sampleSubscribed) sampleSubscribed [] [5] sampleClock.elem (.slot 0 4)
      (.ticks 3) st' sigs := sampleApplies rfl rfl rfl hset hr
  obtain ⟨old, hold⟩ : ∃ old, sampleSubscribed.value (.slot 0 4) = some old := ⟨_, rfl⟩
  obtain ⟨new, hnew, hzero⟩ : ∃ new, st'.value (.slot 0 4) = some new ∧ new.notify = 0 := by
    cases hset
    exact ⟨_, rfl, rfl⟩
  refine ⟨st', sigs, old, new, happ, hold, hnew, ?_⟩
  intro h
  have hmask := h.mask
  rw [hzero] at hmask
  cases hold
  exact absurd hmask (by decide)

end Mand.Signal
