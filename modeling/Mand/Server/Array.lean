import Mand.Server.Deletion
import Mand.Server.Keeping

/-! # What an array set leaves alone

`dmconfig_set_array_cb` deletes the rows of the array and adds new ones; whether it goes through or stops
half way, only the array and the counter that follows it change. -/
namespace Mand.Server
open Mand.Store Mand.Index Mand.Msg
set_option autoImplicit false

/-- Apart from the counter of the object at the path, only what is at or below the path changes; tables may
be new. -/
structure Around (S : Schema) (q : Selector) (st st' : DmStore) : Prop where
  root : st'.root = st.root
  table : ∀ b t, st.heap b = some t → ¬q <+: t.id →
    ∃ t', st'.heap b = some t' ∧ t'.id = t.id ∧ t'.node = t.node
  slot : ∀ b t j v, st.heap b = some t → t.values[j]? = some v → ¬q <+: t.id ++ [j + 1] →
    st'.slot b j = some v ∨ Counts S q t j ∧ ∃ v', st'.slot b j = some v' ∧ Counted v v'

variable {S : Schema} {env : Env} {st st' st'' : DmStore} {q : Selector} {a i r : Addr} {t : VTable}

theorem Around.refl (S : Schema) (q : Selector) (st : DmStore) : Around S q st st where
  root := rfl
  table := fun _ t ht _ => ⟨t, ht, rfl, rfl⟩
  slot := fun _ t _ _ ht hv _ => .inl (DmStore.slot_eq_some.mpr ⟨t, ht, hv⟩)

theorem Around.trans (h : Around S q st st') (h' : Around S q st' st'') : Around S q st st'' where
  root := h'.root.trans h.root
  table := by
    intro b t ht hout
    obtain ⟨t', ht', hid', hn'⟩ := h.table b t ht hout
    obtain ⟨t'', ht'', hid'', hn''⟩ := h'.table b t' ht' (by rw [hid']; exact hout)
    exact ⟨t'', ht'', hid''.trans hid', hn''.trans hn'⟩
  slot := by
    intro b t j v ht hv hout
    obtain ⟨t', ht', hid', -⟩ := h.table b t ht fun hpre => hout (hpre.trans (List.prefix_append _ _))
    have hcounts : Counts S q t' j → Counts S q t j := by
      rw [Counts, Counts, hid']
      exact id
    have hnext : ∀ w, st'.slot b j = some w → st''.slot b j = some w ∨ Counts S q t j ∧
        ∃ v', st''.slot b j = some v' ∧ Counted w v' := by
      intro w hw
      obtain ⟨t1, ht1, hw⟩ := DmStore.slot_eq_some.mp hw
      rw [ht'] at ht1
      cases ht1
      exact (h'.slot b t' j w ht' hw (by rw [hid']; exact hout)).imp_right (And.imp_left hcounts)
    rcases h.slot b t j v ht hv hout with hsame | ⟨hc, w, hw, n, n', hn, rfl⟩
    · exact hnext v hsame
    · rcases hnext _ hw with hsame | ⟨-, w', hw', m, m', -, rfl⟩
      · exact .inr ⟨hc, _, hsame, n, n', hn, rfl⟩
      · exact .inr ⟨hc, _, hw', n, m', hn, rfl⟩

/-! ## Single writes -/

/-- Tables are allocated. -/
theorem Around.grown (hroot : st'.root = st.root) (hold : ∀ b t, st.heap b = some t → st'.heap b = some t) :
    Around S q st st' where
  root := hroot
  table := fun b t ht _ => ⟨t, hold b t ht, rfl, rfl⟩
  slot := fun b t _ _ ht hv _ => .inl (DmStore.slot_eq_some.mpr ⟨t, hold b t ht, hv⟩)

theorem Around.setNode {n : RowNode} (ht : st.heap a = some t) (hq : q <+: t.id)
    (h : st.setNode a n = some st') : Around S q st st' := by
  obtain ⟨t0, ht0, rfl⟩ := DmStore.setNode_eq_some.mp h
  refine ⟨rfl, ?_, fun b tb j v hb hv _ => .inl ?_⟩
  · intro b tb hb hout
    refine ⟨tb, ?_, rfl, rfl⟩
    rw [DmStore.put_heap_ne]
    · exact hb
    · intro hba
      rw [hba, ht] at hb
      cases hb
      exact hout hq
  · rw [DmStore.slot_setNode h]
    exact DmStore.slot_eq_some.mpr ⟨tb, hb, hv⟩

theorem Around.setSlot {v : DmValue} (ht : st.heap a = some t) (hq : q <+: t.id ++ [i + 1])
    (h : st.setSlot a i v = some st') : Around S q st st' := by
  obtain ⟨t0, ht0, -, rfl⟩ := DmStore.setSlot_eq_some.mp h
  rw [ht] at ht0
  cases ht0
  refine ⟨rfl, ?_, fun b tb j w hb hw hout => .inl ?_⟩
  · intro b tb hb _
    by_cases hba : b = a
    · subst hba
      rw [ht] at hb
      cases hb
      exact ⟨_, DmStore.put_heap_self _ _ _, rfl, rfl⟩
    · exact ⟨tb, by rw [DmStore.put_heap_ne _ _ _ _ hba]; exact hb, rfl, rfl⟩
  · rw [DmStore.slot_setSlot h, if_neg]
    · exact DmStore.slot_eq_some.mpr ⟨tb, hb, hw⟩
    · rintro ⟨rfl, rfl⟩
      rw [ht] at hb
      cases hb
      exact hout hq

theorem Around.setTree {o : ObjTree} (ht : st.heap a = some t) (hq : q <+: t.id ++ [i + 1])
    (h : setTree st a i o = some st') : Around S q st st' := by
  obtain ⟨v, -, hset⟩ := setTree_eq_some h
  exact Around.setSlot ht hq hset

theorem Around.addCounter {kw d : ℕ} {e : DmElement} (ht : st.heap a = some t)
    (hp : S.place t.id = some (kw, false)) (he : (S.table kw).elems[i]? = some e) (hobj : e.type = .object)
    (hq : q = t.id ++ [i + 1])
    (h : addCounter st ((counterOf (S.table kw).elems (i + 1)).map fun c => (a, c + 1)) d = some st') :
    Around S q st st' := by
  rcases addCounter_eq_some h with ⟨-, rfl⟩ | ⟨b, id, v, n, hc, hv, -, hcont, hset⟩
  · exact Around.refl S q _
  obtain ⟨c, hcnt, hce⟩ := Option.map_eq_some_iff.mp hc
  cases hce
  rw [Nat.add_sub_cancel] at hv hset
  obtain ⟨t0, ht0, hi, hst⟩ := DmStore.setSlot_eq_some.mp hset
  rw [ht] at ht0
  cases ht0
  refine ⟨by rw [hst]; rfl, ?_, ?_⟩
  · intro b tb hb _
    by_cases hba : b = a
    · subst hba
      rw [ht] at hb
      cases hb
      rw [hst]
      exact ⟨_, DmStore.put_heap_self _ _ _, rfl, rfl⟩
    · exact ⟨tb, by rw [hst, DmStore.put_heap_ne _ _ _ _ hba]; exact hb, rfl, rfl⟩
  · intro b tb j w hb hw _
    have hslot := DmStore.slot_eq_some.mpr ⟨tb, hb, hw⟩
    rw [DmStore.slot_setSlot hset]
    by_cases hbc : b = a ∧ j = c
    · obtain ⟨rfl, rfl⟩ := hbc
      rw [ht] at hb
      cases hb
      rw [hv] at hslot
      cases hslot
      rw [if_pos ⟨rfl, rfl⟩]
      exact .inr ⟨⟨kw, i, hp, ⟨hcnt, e, he, hobj⟩, .inl hq⟩, _, rfl, n, _, hcont, rfl⟩
    · rw [if_neg hbc]
      exact .inl hslot

/-! ## A new row -/

theorem insertInstance_around {kw : ℕ} {e : DmElement} {o : ObjTree} {tr : VTable} (ht : st.heap a = some t)
    (hp : S.place t.id = some (kw, false)) (he : (S.table kw).elems[i]? = some e) (hobj : e.type = .object)
    (htree : st.tree a i = some (some o))
    (hcntr : o.cntr = (counterOf (S.table kw).elems (i + 1)).map fun c => (a, c + 1))
    (htr : st.heap r = some tr) (hq : q = t.id ++ [i + 1]) (hid : q <+: tr.id)
    (h : insertInstance st a i r = some st') : Around S q st st' := by
  simp only [insertInstance, Option.bind_eq_bind, Option.bind_eq_some_iff] at h
  obtain ⟨x, htree0, o0, rfl, tree', -, n, -, st1, h1, st2, h2, h3⟩ := h
  rw [htree] at htree0
  cases htree0
  have hne : ¬q <+: t.id := by
    rw [hq]
    exact not_prefix_self t.id (i + 1)
  have hstep1 := Around.setNode (S := S) htr hid h1
  obtain ⟨t1, ht1, hid1, -⟩ := hstep1.table a t ht hne
  have hstep2 : Around S q st1 st2 := Around.setTree ht1 (by rw [hid1, hq]) h2
  obtain ⟨t2, ht2, hid2, -⟩ := hstep2.table a t1 ht1 (by rw [hid1]; exact hne)
  rw [hcntr] at h3
  have hid2 : t2.id = t.id := hid2.trans hid1
  exact (hstep1.trans hstep2).trans
    (Around.addCounter ht2 (by rw [hid2]; exact hp) he hobj (by rw [hid2, hq]) h3)

/-- What `dm_add_instance` does in the object of slot `i` of table `a`. -/
theorem addInstance_cases {kw id : ℕ} {e : DmElement} {basesel : Selector} {res : Option Addr}
    (hw : HeapWf False nowhere S st) (ht : st.heap a = some t) (hp : S.place t.id = some (kw, false))
    (h : addInstance S st e a i basesel id = some (res, st')) : (res = none ∧ st' = st) ∨
    ∃ r o id' st1, res = some r ∧ e.type = .object ∧ st.tree a i = some (some o) ∧ newId st o id = some id' ∧
      allocInstanceNode S e.table basesel id' st = some (r, st1) ∧ insertInstance st1 a i r = some st' := by
  unfold addInstance at h
  by_cases hobj : e.type ≠ .object
  · rw [if_pos hobj] at h
    cases h
    exact .inl ⟨rfl, rfl⟩
  rw [if_neg hobj] at h
  simp only [Option.bind_eq_bind, Option.bind_eq_some_iff] at h
  obtain ⟨ref, -, h⟩ := h
  cases ref with
  | none =>
    cases h
    exact .inl ⟨rfl, rfl⟩
  | some ref =>
    simp only [Option.bind_eq_some_iff] at h
    obtain ⟨st0, hens, x, htree, o, rfl, h⟩ := h
    -- in a well-formed store the tree is there already
    have hst0 : st0 = st := by
      unfold ensureTree at hens
      simp only [Option.bind_eq_bind, Option.bind_eq_some_iff] at hens
      obtain ⟨y, hy, hens⟩ := hens
      obtain ⟨o1, rows, rfl, -⟩ := hw.tree ht hp (fun hx => hx) hy
      cases hens
      rfl
    subst hst0
    by_cases hmax : e.max ≤ o.tree.cnt
    · rw [if_pos hmax] at h
      cases h
      exact .inl ⟨rfl, rfl⟩
    rw [if_neg hmax] at h
    simp only [Option.bind_eq_some_iff, Prod.exists, Option.some.injEq, Prod.mk.injEq] at h
    obtain ⟨id', hnew, r, st1, halloc, st2, hins, rfl, rfl⟩ := h
    exact .inr ⟨r, o, id', st1, rfl, not_not.mp hobj, htree, hnew, halloc, hins⟩

theorem addInstance_around {kw id : ℕ} {e : DmElement} {basesel : Selector} {res : Option Addr}
    (hw : HeapWf False nowhere S st) (ht : st.heap a = some t)
    (hp : S.place t.id = some (kw, false)) (he : (S.table kw).elems[i]? = some e)
    (hsel : selIds basesel = t.id ++ [i + 1]) (h : addInstance S st e a i basesel id = some (res, st')) :
    Around S (selIds basesel) st st' := by
  rcases addInstance_cases hw ht hp h with ⟨-, rfl⟩ | ⟨r, o, id', st1, -, hobj, htree, -, halloc, hins⟩
  · exact Around.refl _ _ _
  have hplace : S.place (selIds basesel) = some (e.table, true) := by
    rw [hsel]
    exact place_object hp he hobj
  obtain ⟨-, hk1, hold, tr, n, htr, -, -, -, -, hrid, -⟩ :=
    allocInstanceNode_spec (P := fun _ => True) hw hplace halloc
  have hgrown : Around S (selIds basesel) st st1 := by
    refine Around.grown hk1.root ?_
    intro b tb hb
    rw [hold b (hw.lt b tb hb)]
    exact hb
  obtain ⟨o0, rows, ho0, ho, -⟩ := hw.tree ht hp (fun hx => hx) htree
  cases ho0
  have hta : st1.heap a = some t := by
    rw [hold a (hw.lt a t ht)]
    exact ht
  have htree1 : st1.tree a i = some (some o) := by
    obtain ⟨v, hv, hc⟩ := (tree_eq_some st a i _).mp htree
    refine (tree_eq_some st1 a i _).mpr ⟨v, ?_, hc⟩
    rw [DmStore.slot_eq, hta, Option.bind_some]
    rw [DmStore.slot_eq, ht, Option.bind_some] at hv
    exact hv
  exact hgrown.trans (insertInstance_around hta hp he hobj htree1 ho.cntr htr hsel
    (by rw [hrid]; exact List.prefix_append _ _) hins)

/-- What `dm_add_instance_by_selector` does: the row is added, then it and its object are marked. -/
structure AddedAt (S : Schema) (st st' : DmStore) (sel : Selector) (id : ℕ) (ref : Ref) (a i kw : ℕ) (t : VTable)
    (r : Addr) : Prop where
  found : st.getElementRef S sel = some (some ref)
  value : ref.value = .slot a i
  heap : st.heap a = some t
  place : S.place t.id = some (kw, false)
  elem : (S.table kw).elems[i]? = some ref.elem
  object : ref.elem.type = .object
  ids : selIds sel = t.id ++ [i + 1]
  marked : ∃ st0 st1 n v, addInstance S st ref.elem a i sel id = some (some r, st0) ∧ st0.node r = some n ∧
    st0.setNode r { n with value := markUpdated n.value } = some st1 ∧ st1.slot a i = some v ∧
    st1.setSlot a i (markUpdated v) = some st'

theorem addInstanceBySelector_cases {sel : Selector} {id : ℕ} {res : Option Addr}
    (hw : HeapWf False nowhere S st) (h : addInstanceBySelector S st sel id = some (res, st')) :
    (res = none ∧ st' = st) ∨ ∃ r ref a i kw t, res = some r ∧ AddedAt S st st' sel id ref a i kw t r := by
  unfold addInstanceBySelector at h
  simp only [Option.bind_eq_bind, Option.bind_eq_some_iff] at h
  obtain ⟨found, href, h⟩ := h
  cases found with
  | none =>
    cases h
    exact .inl ⟨rfl, rfl⟩
  | some ref =>
    dsimp only at h
    by_cases hty : ref.stType ≠ .object
    · rw [if_pos hty] at h
      cases h
      exact .inl ⟨rfl, rfl⟩
    rw [if_neg hty] at h
    have hobj := getElementRef_objectElem href (not_not.mp hty)
    cases hval : ref.value with
    | row r =>
      rw [hval] at h
      cases h
    | slot a i =>
      rw [hval] at h
      simp only [Option.bind_eq_some_iff, Prod.exists] at h
      obtain ⟨res0, st0, hadd, h⟩ := h
      have hat := getElementRef_selIds hw href (by simp [DmElement.container, hobj])
      generalize hq : selIds sel = q at hat
      cases hat with
      | row b j t kw e r0 id0 tr ht hp he _ htr hrid hrow hmem => cases hval
      | slot b j t kw e stType ht hp he =>
        obtain ⟨hba, hji⟩ := Loc.slot.inj hval
        subst hba hji
        cases res0 with
        | none =>
          cases h
          rcases addInstance_cases hw ht hp hadd with ⟨-, rfl⟩ | ⟨r, _, _, _, hr, _⟩
          · exact .inl ⟨rfl, rfl⟩
          · cases hr
        | some r =>
          simp only [Option.bind_eq_some_iff, Option.some.injEq, Prod.mk.injEq] at h
          obtain ⟨n, hn, st1, h1, v, hv, st2, h2, rfl, rfl⟩ := h
          exact .inr ⟨r, _, b, j, kw, t, rfl,
            ⟨href, rfl, ht, hp, he, hobj, hq, st0, st1, n, v, hadd, hn, h1, hv, h2⟩⟩

/-- `dm_add_instance_by_selector`. -/
theorem addInstanceBySelector_around {sel : Selector} {id : ℕ} {res : Option Addr}
    (hw : HeapWf False nowhere S st) (hid : id < 2 ^ 16)
    (h : addInstanceBySelector S st sel id = some (res, st')) : Around S (selIds sel) st st' := by
  rcases addInstanceBySelector_cases hw h with ⟨-, rfl⟩ | ⟨r, ref, a, i, kw, t, -, had⟩
  · exact Around.refl _ _ _
  obtain ⟨st0, st1, n, v, hadd, hn, h1, hv, h2⟩ := had.marked
  have hq := had.ids
  have hstep := addInstance_around hw had.heap had.place had.elem hq hadd
  obtain ⟨hw0, hk0, hres⟩ := addInstance_spec (P := fun _ => True) hw had.heap had.place had.elem hq hid
    (fun hf => hf.elim) hadd
  obtain ⟨n0, hadded⟩ := hres r rfl
  obtain ⟨tr, htr, hrid, -, -⟩ := hadded.table hw0 hk0 had.heap had.place had.elem had.object
  rw [hq] at hstep ⊢
  have hrow : t.id ++ [i + 1] <+: tr.id := ⟨[n0.inst], by rw [hrid]; simp⟩
  have hmark := hstep.trans (Around.setNode htr hrow h1)
  obtain ⟨t1, ht1, hid1, -⟩ := hmark.table a t had.heap (not_prefix_self t.id (i + 1))
  exact hmark.trans (Around.setSlot ht1 (by rw [hid1]) h2)

/-! ## The entries -/

/-- The row of an entry is below the array. -/
theorem setEntry_around {e : DmElement} {clear : Bool} {avp : Avp} {res : SetResult} {n : RowNode}
    {tr : VTable} (ht : st.heap a = some t) (htr : st.heap r = some tr) (hn : tr.node = some n)
    (hroot : n.root = some (a, i)) (hrid : t.id ++ [i + 1] <+: tr.id)
    (h : setEntry env st e r clear avp = some (res, st')) : Around env.schema (t.id ++ [i + 1]) st st' := by
  simp only [setEntry, Option.bind_eq_bind, Option.bind_eq_some_iff] at h
  obtain ⟨old, hold, u, -, h⟩ := h
  have hout := not_prefix_self t.id (i + 1)
  split at h
  · simp only [Option.bind_eq_some_iff, Option.some.injEq, Prod.mk.injEq] at h
    obtain ⟨st1, h1, -, rfl⟩ := h
    exact Around.setSlot htr (hrid.trans (List.prefix_append _ _)) h1
  · simp only [Option.bind_eq_some_iff, Option.some.injEq, Prod.mk.injEq] at h
    obtain ⟨st1, h1, st2, h2, -, rfl⟩ := h
    have hstep : Around env.schema (t.id ++ [i + 1]) st st1 :=
      Around.setSlot htr (hrid.trans (List.prefix_append _ _)) h1
    obtain ⟨t1, ht1, hid1, -⟩ := hstep.table a t ht hout
    simp only [updateInstanceNodeIndex, Option.bind_eq_bind, Option.bind_eq_some_iff] at h2
    obtain ⟨n1, hn1, h2⟩ := h2
    rw [DmStore.node_setSlot h1, DmStore.node_eq_some.mpr ⟨tr, htr, hn⟩] at hn1
    cases hn1
    rw [hroot] at h2
    simp only [Option.bind_eq_some_iff] at h2
    obtain ⟨x, -, o, -, tree', -, h2⟩ := h2
    exact hstep.trans (Around.setTree ht1 (by rw [hid1]) h2)

theorem setEntries_around {sel : Selector} {e : DmElement} {clear : Bool} {last : Option SetResult} {res : SetResult}
    (ha : ArrayAt env.schema sel e) (entries : List Avp) (id : ℕ) (st st' : DmStore)
    (hid : id < 2 ^ 16) (hw : HeapWf False nowhere env.schema st)
    (h : setEntries env sel e clear last id entries st = some (res, st')) :
    Around env.schema (selIds sel) st st' := by
  induction entries generalizing id st with
  | nil =>
    obtain ⟨res', -, hres⟩ := Option.map_eq_some_iff.mp h
    cases hres
    exact Around.refl _ _ _
  | cons avp rest ih =>
    simp only [setEntries, Option.bind_eq_bind, Option.bind_eq_some_iff, Prod.exists] at h
    obtain ⟨r, st1, h1, h⟩ := h
    have hstep := addInstanceBySelector_around hw hid h1
    cases r with
    | none =>
      cases h
      exact hstep
    | some r =>
      simp only [Option.bind_eq_some_iff, Prod.exists] at h
      obtain ⟨n, hn, res2, st2, h2, h⟩ := h
      obtain ⟨hw1, hk1, hres⟩ := addInstanceBySelector_spec (P := fun _ => True) hw hid (fun hf => hf.elim) h1
      obtain ⟨ref, a, i, t, kw, m, href, hval, ht, hp, he, hobj, hsel, hadd⟩ := hres r rfl
      obtain ⟨tr, htr, hrid, -, -⟩ := hadd.table hw1 hk1 ht hp he hobj
      obtain ⟨hl, -⟩ := arrayRow_leaf (fun hf => hf) ha hid hw h1
      rw [hsel] at hstep ih ⊢
      obtain ⟨t1, ht1, hid1, -⟩ := hstep.table a t ht (not_prefix_self t.id (i + 1))
      obtain ⟨tr', htr', hm⟩ := DmStore.node_eq_some.mp hadd.node
      rw [htr] at htr'
      cases htr'
      have hentry := setEntry_around ht1 htr hm hadd.root
        ⟨[m.inst], by rw [hrid, hid1]; simp⟩ h2
      rw [hid1] at hentry
      have hw2 := (setEntry_kept (fun hf => hf) hw1 hl h2).wf
      split at h
      · exact (hstep.trans hentry).trans (ih _ _ (Nat.mod_lt _ (by decide)) hw2 h)
      · cases h
        exact hstep.trans hentry

/-! ## The array -/

/-- What is deleted is all of the array. -/
theorem Deleted.around {kw : ℕ} (h : Deleted S st st' q) (hw : HeapWf False nowhere S st')
    (hq : S.place q = some (kw, true)) : Around S q st st' := by
  have hc := Deleted.contained h
  refine ⟨hc.root, hc.table, ?_⟩
  intro b tb j v hb hv hout
  rcases hc.slot b tb j v hb hv hout with hsame | ⟨⟨x, hx⟩, o, ho⟩ | hcount
  · exact .inl hsame
  · -- the path would be that of a row
    obtain ⟨t', ht', hid', -⟩ := hc.table b tb hb fun hpre => hout (hpre.trans (List.prefix_append _ _))
    obtain ⟨t1, ht1, hslot⟩ := DmStore.slot_eq_some.mp ho
    rw [ht'] at ht1
    cases ht1
    obtain ⟨k, hk⟩ := hw.table b t' ht'
    obtain ⟨e, he, hobj, -⟩ := hk.fits j _ hslot
    have hrow : S.place (tb.id ++ [j + 1] ++ [x]) = some (e.table, false) := by
      rw [← hid']
      exact place_inst (place_object hk.place he hobj)
    rw [List.append_assoc] at hrow
    have hsame : S.place q = some (e.table, false) := by
      rw [hx]
      exact hrow
    rw [hq] at hsame
    cases hsame
  · exact .inr hcount

/-- `dmconfig_set_array_cb`, whether it comes to its end or not. -/
theorem setArray_around {sel : Selector} {ref : Ref} {avp : Avp} {res : SetResult}
    (hw : HeapWf False nowhere env.schema st) (href : st.getElementRef env.schema sel = some (some ref))
    (harr : ref.elem.flags.array = true) (h : setArray env st sel ref.elem ref.value avp = some (res, st')) :
    Around env.schema (selIds sel) st st' := by
  simp only [setArray, Option.bind_eq_bind, Option.bind_eq_some_iff] at h
  obtain ⟨v, hv, h⟩ := h
  split at h
  · cases h
    exact Around.refl _ _ _
  rename_i hcheck
  have hobj : ref.elem.type = .object := by
    by_contra hne
    exact hcheck (.inl hne)
  split at h
  · cases h
    exact Around.refl _ _ _
  simp only [Option.bind_eq_some_iff, Prod.exists] at h
  obtain ⟨found, st1, hdel, h⟩ := h
  have hat := getElementRef_selIds hw href (by simp [DmElement.container, hobj])
  have hplace : ∃ kw, env.schema.place (selIds sel) = some (kw, true) := by
    generalize selIds sel = q at hat
    cases hat with
    | slot b j t kw e stType ht hp he => exact ⟨e.table, place_object hp he hobj⟩
    | row b j t kw e r id tr ht hp he _ htr hid hrow hmem =>
      -- the value of a row is no object
      obtain ⟨tr', n, htr', hn, -, -, hcont, -⟩ := hrow
      have hnode : st.node r = some n := DmStore.node_eq_some.mpr ⟨tr', htr', hn⟩
      have hv : (st.node r).map RowNode.value = some v := hv
      rw [hnode] at hv
      cases hv
      exact absurd (.inr (.inl (by rw [hcont]; rfl))) hcheck
  obtain ⟨kw, hplace⟩ := hplace
  obtain ⟨hw1, hcases⟩ := delTableBySelector_spec hw hdel
  have hstep : Around env.schema (selIds sel) st st1 := by
    rcases hcases with ⟨-, rfl⟩ | ⟨-, ref', q, href', hat', hd⟩
    · exact Around.refl _ _ _
    · rw [href] at href'
      cases href'
      rw [hat'.unique hat] at hd
      exact Deleted.around hd hw1 hplace
  split at h
  · cases h
    exact hstep
  generalize (avpEntries avp).1 = entries, (avpEntries avp).2 = last at h
  cases entries with
  | nil =>
    obtain ⟨res', -, hres⟩ := Option.map_eq_some_iff.mp h
    cases hres
    exact hstep
  | cons avp' rest =>
    simp only [Option.bind_eq_some_iff] at h
    obtain ⟨e0, he0, h⟩ := h
    have ha := arrayAt_ref hw href hobj harr he0
    exact hstep.trans (setEntries_around ha _ 1 st1 st' (by decide) hw1 h)

end Mand.Server
