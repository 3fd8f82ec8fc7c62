import Mand.Store.Number
import Mand.Store.Shape

/-! # New tables and rows have their kind

`dm_alloc_table`, `dm_add_instance` and `update_instance_node_index` in a store whose tables have kinds. -/
namespace Mand.Store
open Mand.Index
set_option autoImplicit false

variable {S : Schema} {kind kind' kind'' : Addr → ℕ} {st st' st'' : DmStore}

/-! ## Tables -/

/-- Tables were added, and none of them is a row. -/
structure Grew (kind kind' : Addr → ℕ) (st st' : DmStore) : Prop where
  root : st'.root = st.root
  next : st.next ≤ st'.next
  old : ∀ b, b < st.next → st'.heap b = st.heap b
  kind : ∀ b, b < st.next → kind' b = kind b
  node : ∀ b t, st.next ≤ b → st'.heap b = some t → t.node = none

theorem Grew.refl (h : Shaped S kind st) : Grew kind kind st st := by
  refine ⟨rfl, le_refl _, fun _ _ => rfl, fun _ _ => rfl, fun b t hb ht => ?_⟩
  exact absurd (h.lt b t ht) (not_lt.mpr hb)

theorem Grew.trans (h : Grew kind kind' st st') (h' : Grew kind' kind'' st' st'') : Grew kind kind'' st st'' := by
  refine ⟨h'.root.trans h.root, h.next.trans h'.next, ?_, ?_, ?_⟩
  · intro b hb
    rw [h'.old b (lt_of_lt_of_le hb h.next), h.old b hb]
  · intro b hb
    rw [h'.kind b (lt_of_lt_of_le hb h.next), h.kind b hb]
  · intro b t hb ht
    by_cases hlt : b < st'.next
    · rw [h'.old b hlt] at ht
      exact h.node b t hb ht
    · exact h'.node b t (not_lt.mp hlt) ht

theorem Grew.frame (hg : Grew kind kind' st st') (h : Shaped S kind st) : Frame kind kind' st st' := by
  have hold : ∀ b t, st.heap b = some t → st'.heap b = some t := by
    intro b t ht
    rw [hg.old b (h.lt b t ht)]
    exact ht
  refine ⟨hg.root, hg.next, ?_, ?_, ?_⟩
  · intro b t ht
    exact ⟨⟨t, hold b t ht⟩, hg.kind b (h.lt b t ht)⟩
  · intro b n hn
    obtain ⟨t, ht, hnt⟩ := DmStore.node_eq_some.mp hn
    exact ⟨n, DmStore.node_eq_some.mpr ⟨t, hold b t ht, hnt⟩, rfl, rfl⟩
  · intro a i v hv
    obtain ⟨t, ht, hvt⟩ := DmStore.slot_eq_some.mp hv
    exact ⟨v, DmStore.slot_eq_some.mpr ⟨t, hold a t ht, hvt⟩, fun _ _ => rfl⟩

/-- The nodes are those that were there. -/
theorem Grew.homes (hg : Grew kind kind' st st') (h : Shaped S kind st) (r : Addr) (n : RowNode) (hn : st'.node r = some n) :
    HomeShape S kind' st' r n := by
  obtain ⟨t, ht, hnt⟩ := DmStore.node_eq_some.mp hn
  have hlt : r < st.next := by
    by_contra hge
    rw [hg.node r t (not_lt.mp hge) ht] at hnt
    cases hnt
  have hn0 : st.node r = some n := by
    rw [DmStore.node_eq, ← hg.old r hlt]
    exact hn
  refine h.stays (hg.frame h) (fun b tb htb hb => ⟨tb, ?_⟩) hn0 hn rfl
  rw [← hg.old b hb]
  exact htb

/-- What a function that makes the table of a token has to do. -/
def AllocShape (S : Schema) (alloc : ℕ → Selector → DmStore → Option (Addr × DmStore)) : Prop :=
  ∀ kw id st b st' kind, alloc kw id st = some (b, st') → Shaped S kind st →
    ∃ kind', Grew kind kind' st st' ∧ Shaped S kind' st' ∧ (∃ t, st'.heap b = some t) ∧ st.next ≤ b ∧ kind' b = kw

theorem initContent_shape {alloc : ℕ → Selector → DmStore → Option (Addr × DmStore)} (halloc : AllocShape S alloc)
    {kw a i : ℕ} {id : Selector} {e : DmElement} {c : Content}
    (h : initContent S alloc (S.table kw).elems a id e i st = some (c, st')) (hs : Shaped S kind st)
    (he : e ∈ (S.table kw).elems) :
    ∃ kind', Grew kind kind' st st' ∧ Shaped S kind' st' ∧ SlotShape kind' st' e ⟨c, notifyDefault e, Flags.zero, true⟩ := by
  by_cases ht : e.type = .token
  · simp only [initContent, ht, Option.bind_eq_bind, Option.bind_eq_some_iff, Prod.exists, Option.some.injEq,
      Prod.mk.injEq] at h
    obtain ⟨b, st1, hb, rfl, rfl⟩ := h
    obtain ⟨kind1, hg, hs1, hlive, -, hk⟩ := halloc _ _ _ _ _ _ hb hs
    refine ⟨kind1, hg, hs1, ht, ?_, fun o ho => (by cases ho)⟩
    intro b' hb' _
    cases hb'
    exact ⟨hlive, hk⟩
  · by_cases hobj : e.type = .object
    · simp only [initContent, hobj, Option.some.injEq, Prod.mk.injEq] at h
      obtain ⟨rfl, rfl⟩ := h
      refine ⟨kind, Grew.refl hs, hs, ⟨hobj, rfl⟩, fun b hb => (by cases hb), ?_⟩
      intro o ho
      cases ho
      exact ⟨[], allocInstance_lists he hobj _ _, fun r hr => absurd hr List.not_mem_nil⟩
    · have hval : c = .scalar (zeroValue e.type) ∧ st' = st := by
        unfold initContent at h
        split at h
        · contradiction
        · contradiction
        · cases h
          exact ⟨rfl, rfl⟩
      obtain ⟨rfl, rfl⟩ := hval
      have hleaf : e.container = false := by simp [DmElement.container, ht, hobj]
      exact ⟨kind, Grew.refl hs, hs, hleaf, fun b hb => (by cases hb), fun o ho => (by cases ho)⟩

theorem initValues_shape {alloc : ℕ → Selector → DmStore → Option (Addr × DmStore)} (halloc : AllocShape S alloc)
    {kw a : ℕ} {id : Selector} (es : List DmElement) (i : ℕ) (kind : Addr → ℕ) (st : DmStore) (vs : List DmValue)
    (h : initValues S alloc (S.table kw).elems a id es i st = some (vs, st')) (hs : Shaped S kind st)
    (hes : (S.table kw).elems.drop i = es) :
    ∃ kind', Grew kind kind' st st' ∧ Shaped S kind' st' ∧ vs.length = es.length ∧
      ∀ (j : ℕ) (v : DmValue), vs[j]? = some v → ∃ e, (S.table kw).elems[i + j]? = some e ∧ SlotShape kind' st' e v := by
  induction es generalizing i kind st vs with
  | nil =>
    cases h
    exact ⟨kind, Grew.refl hs, hs, rfl, fun j v hv => (nomatch hv)⟩
  | cons e es ih =>
    simp only [initValues, Option.bind_eq_bind, Option.bind_eq_some_iff, Prod.exists, Option.some.injEq, Prod.mk.injEq] at h
    obtain ⟨c, st1, hc, vs1, st2, hvs, rfl, rfl⟩ := h
    have he : (S.table kw).elems[i]? = some e := by
      rw [← List.head?_drop, hes]
      rfl
    have hrest : (S.table kw).elems.drop (i + 1) = es := by
      rw [← List.tail_drop, hes]
      rfl
    obtain ⟨kind1, hg1, hs1, hslot⟩ := initContent_shape halloc hc hs (List.mem_of_getElem? he)
    obtain ⟨kind2, hg2, hs2, hlen, hslots⟩ := ih (i + 1) kind1 st1 vs1 hvs hs1 hrest
    refine ⟨kind2, hg1.trans hg2, hs2, by rw [List.length_cons, List.length_cons, hlen], ?_⟩
    intro j v hv
    cases j with
    | zero =>
      cases hv
      exact ⟨e, he, hslot.frame (hg2.frame hs1)⟩
    | succ j =>
      obtain ⟨e', he', hs'⟩ := hslots j v hv
      rw [Nat.add_assoc, Nat.add_comm 1 j] at he'
      exact ⟨e', he', hs'⟩

/-- `dm_alloc_table`. -/
theorem allocTable_shape (n : ℕ) : AllocShape S (allocTable S n) := by
  induction n with
  | zero =>
    intro kw id st b st' kind h
    cases h
  | succ n ih =>
    intro kw id st b st' kind h hs
    simp only [allocTable, Option.bind_eq_bind, Option.bind_eq_some_iff, Prod.exists, Option.some.injEq, Prod.mk.injEq] at h
    obtain ⟨vs, st1, hvs, rfl, rfl⟩ := h
    -- the kind of the table is known before it is there
    have hs0 : Shaped S (Function.update kind st.next kw) ⟨st.heap, st.next + 1, st.root⟩ := by
      refine (hs.skip (st.next + 1) (Nat.le_succ _)).retype fun b t ht => ?_
      exact Function.update_of_ne (Nat.ne_of_lt (hs.lt b t ht)) kw kind
    obtain ⟨kind1, hg1, hs1, hlen, hslots⟩ := initValues_shape ih _ 0 _ _ vs hvs hs0 rfl
    have hnext : st.next + 1 ≤ st1.next := hg1.next
    have hkind : kind1 st.next = kw := by
      rw [hg1.kind st.next (Nat.lt_succ_self _), Function.update_self]
    have hheap : ∀ c, (st1.put st.next ⟨id, vs, none⟩).heap c = if c = st.next then some ⟨id, vs, none⟩ else st1.heap c :=
      fun c => DmStore.put_heap _ _ _ _
    have hfree : st1.heap st.next = none := by
      rw [hg1.old st.next (Nat.lt_succ_self _)]
      exact Option.eq_none_iff_forall_ne_some.mpr fun t ht => absurd (hs.lt _ t ht) (lt_irrefl _)
    have hg : Grew kind kind1 st (st1.put st.next ⟨id, vs, none⟩) := by
      refine ⟨hg1.root, Nat.le_of_succ_le hnext, ?_, ?_, ?_⟩
      · intro c hc
        rw [hheap, if_neg (Nat.ne_of_lt hc)]
        exact hg1.old c (Nat.lt_succ_of_lt hc)
      · intro c hc
        rw [hg1.kind c (Nat.lt_succ_of_lt hc)]
        exact Function.update_of_ne (Nat.ne_of_lt hc) kw kind
      · intro c t hc ht
        rw [hheap] at ht
        split at ht
        · cases ht
          rfl
        · next hne => exact hg1.node c t (Nat.lt_of_le_of_ne hc (Ne.symm hne)) ht
    -- the tables below it are as they were made
    have hf1 : Frame kind1 kind1 st1 (st1.put st.next ⟨id, vs, none⟩) := by
      have hne : ∀ c t, st1.heap c = some t → (st1.put st.next ⟨id, vs, none⟩).heap c = some t := by
        intro c t ht
        rw [hheap, if_neg]
        · exact ht
        · intro hc
          rw [hc, hfree] at ht
          cases ht
      refine ⟨rfl, le_refl _, fun c t ht => ⟨⟨t, hne c t ht⟩, rfl⟩, ?_, ?_⟩
      · intro c n hn
        obtain ⟨t, ht, hnt⟩ := DmStore.node_eq_some.mp hn
        exact ⟨n, DmStore.node_eq_some.mpr ⟨t, hne c t ht, hnt⟩, rfl, rfl⟩
      · intro c j v hv
        obtain ⟨t, ht, hvt⟩ := DmStore.slot_eq_some.mp hv
        exact ⟨v, DmStore.slot_eq_some.mpr ⟨t, hne c t ht, hvt⟩, fun _ _ => rfl⟩
    refine ⟨kind1, hg, hs.step (hg.frame hs) ?_ ?_ (hg.homes hs), ⟨_, by rw [hheap, if_pos rfl]⟩, le_refl _, hkind⟩
    · intro c t ht
      rw [hheap] at ht
      split at ht
      · next hc =>
        cases ht
        refine .inr ⟨hc ▸ hnext, ?_⟩
        rw [hc, hkind]
        exact hlen
      · exact .inr ⟨hs1.lt c t ht, hs1.len c t ht⟩
    · intro c j v hv
      refine .inr ?_
      rw [DmStore.slot_eq, hheap] at hv
      split at hv
      · next hc =>
        obtain ⟨e, he, hshape⟩ := hslots j v hv
        rw [Nat.zero_add] at he
        rw [hc, hkind]
        exact ⟨e, he, hshape.frame hf1⟩
      · obtain ⟨e, he, hshape⟩ := hs1.slot c j v hv
        exact ⟨e, he, hshape.frame hf1⟩

/-! ## Rows -/

theorem allocInstanceNode_shape {kw inst : ℕ} {base : Selector} {r : Addr} (hs : Shaped S kind st)
    (h : allocInstanceNode S kw base inst st = some (r, st')) :
    ∃ kind', Shaped S kind' st' ∧ Frame kind kind' st st' ∧ RowOf kind' st' kw r ∧ st.next ≤ r ∧
      ∀ c j, c < st.next → st'.slot c j = st.slot c j := by
  simp only [allocInstanceNode, Option.bind_eq_bind, Option.bind_eq_some_iff, Prod.exists, Option.some.injEq,
    Prod.mk.injEq] at h
  obtain ⟨b, st1, halloc, st2, hnode, rfl, rfl⟩ := h
  obtain ⟨kind1, hg, hs1, ⟨t, ht⟩, hge, hk⟩ := allocTable_shape _ _ _ _ _ _ _ halloc hs
  have hnone : st1.node b = none := by
    rw [DmStore.node_eq, ht, Option.bind_some]
    exact hg.node b t hge ht
  obtain ⟨hs2, hf2⟩ := hs1.setNode hnode (fun n hn => by rw [hnone] at hn; cases hn) (.inr fun c j hr => (by cases hr))
  refine ⟨kind1, hs2, (hg.frame hs).trans hf2, ⟨⟨⟨.table (some b), 0, Flags.zero, true⟩, inst, 0, none⟩, ?_, rfl, hk⟩, hge, ?_⟩
  · rw [DmStore.node_setNode hnode, if_pos rfl]
  · intro c j hc
    rw [DmStore.slot_setNode hnode, DmStore.slot_eq, hg.old c hc]
    rfl

/-- `insert_instance`. -/
theorem insertInstance_shape {a i r : ℕ} {e : DmElement} (hs : Shaped S kind st)
    (he : (S.table (kind a)).elems[i]? = some e) (hr : RowOf kind st e.table r)
    (hout : ∀ o rows, st.tree a i = some (some o) → o.Lists st.row rows → r ∉ rows)
    (h : insertInstance st a i r = some st') : Shaped S kind st' ∧ Frame kind kind st st' := by
  obtain ⟨o, tree, n, st1, st2, htree, hins, hn, h1, h2, h3⟩ := insertInstance_parts h
  obtain ⟨o0, e0, ho0, he0, hobj, rows, hl, hrows⟩ := hs.tree htree
  cases ho0
  rw [he] at he0
  cases he0
  have ha : a < st.next := by
    obtain ⟨v, hv, -⟩ := (tree_eq_some st a i _).mp htree
    obtain ⟨t, ht, -⟩ := DmStore.slot_eq_some.mp hv
    exact hs.lt a t ht
  obtain ⟨hs1, hf1⟩ := hs.setNode h1 (fun n0 hn0 => by rw [hn] at hn0; cases hn0; exact ⟨rfl, rfl⟩) (.inr fun b j hroot => by
    cases hroot
    obtain ⟨n0, hn0, hc, hk⟩ := hr
    rw [hn] at hn0
    cases hn0
    refine ⟨ha, fun e' _ he' _ => ⟨hc, ?_⟩⟩
    rw [he] at he'
    cases he'
    exact hk)
  have htree1 : st1.tree a i = some (some o) := by
    obtain ⟨v, hv, hc⟩ := (tree_eq_some st a i _).mp htree
    exact (tree_eq_some st1 a i _).mpr ⟨v, (DmStore.slot_setNode h1).trans hv, hc⟩
  have hfuel : rows.length + 1 < st.fuel := by
    have := hs.rows_length hl hrows
    show rows.length + 1 < st.next + 2
    omega
  obtain ⟨-, rows', hl', hcases⟩ := @ObjTree.Lists.insert o
    ⟨tree, o.cntr, o.idMap.map fun m => (o.freeBit.map fun f => m.set f true).getD m⟩ st.row rows r st.fuel hl
    (hout o rows htree hl) hfuel hins
  have hrows' : ∀ x ∈ rows', RowOf kind st e.table x := by
    intro x hx
    rcases hcases with ⟨-, rfl⟩ | ⟨-, hperm⟩
    · exact hrows x hx
    · rcases List.mem_cons.mp (hperm.mem_iff.mp hx) with rfl | hx
      · exact hr
      · exact hrows x hx
  obtain ⟨hs2, hf2⟩ := hs1.setTree htree1 h2 (fun e' he' => by
    rw [he] at he'
    cases he'
    exact ⟨rows', lists_frame hl' hrows' hf1, fun x hx => (hrows' x hx).frame hf1⟩)
  obtain ⟨hs3, hf3⟩ := hs2.addCounter h3
  exact ⟨hs3, (hf1.trans hf2).trans hf3⟩

/-- `dm_add_instance`. -/
theorem addInstance_shape {a i id : ℕ} {o : ObjTree} {e : DmElement} {basesel : Selector} {r : Addr} (hs : Shaped S kind st)
    (htree : st.tree a i = some (some o)) (he : (S.table (kind a)).elems[i]? = some e)
    (h : addInstance S st e a i basesel id = some (some r, st')) :
    ∃ kind', Shaped S kind' st' ∧ Frame kind kind' st st' ∧ RowOf kind' st' e.table r := by
  rcases addInstance_parts htree h with ⟨hr, -, -⟩ | ⟨r0, id', st1, hr, -, -, halloc, hins⟩
  · cases hr
  cases hr
  obtain ⟨o0, e0, ho0, he0, -, rows, hl, hrows⟩ := hs.tree htree
  cases ho0
  rw [he] at he0
  cases he0
  obtain ⟨kind1, hs1, hf1, hrow, hge, hold⟩ := allocInstanceNode_shape hs halloc
  obtain ⟨v, hv, hc⟩ := (tree_eq_some st a i _).mp htree
  obtain ⟨t, ht, -⟩ := DmStore.slot_eq_some.mp hv
  have he1 : (S.table (kind1 a)).elems[i]? = some e := by
    rw [(hf1.live a t ht).2]
    exact he
  have hout : ∀ o1 rows1, st1.tree a i = some (some o1) → o1.Lists st1.row rows1 → r ∉ rows1 := by
    intro o1 rows1 ho1 hl1 hmem
    obtain ⟨v1, hv1, hc1⟩ := (tree_eq_some st1 a i _).mp ho1
    -- the object is the one that was there
    rw [hold a i (hs.lt a t ht), hv] at hv1
    cases hv1
    rw [hc] at hc1
    cases hc1
    rw [hl1.unique (lists_frame hl hrows hf1)] at hmem
    obtain ⟨tr, htr⟩ := (hrows r hmem).heap
    exact absurd (hs.lt r tr htr) (not_lt.mpr hge)
  obtain ⟨hs2, hf2⟩ := insertInstance_shape hs1 he1 hrow hout hins
  exact ⟨kind1, hs2, hf1.trans hf2, hrow.frame hf2⟩

/-- `update_instance_node_index`. -/
theorem updateInstanceNodeIndex_shape {r : Addr} (hs : Shaped S kind st) (h : updateInstanceNodeIndex st r = some st') :
    Shaped S kind st' ∧ Frame kind kind st st' := by
  unfold updateInstanceNodeIndex at h
  simp only [Option.bind_eq_bind, Option.bind_eq_some_iff] at h
  obtain ⟨n, hn, h⟩ := h
  split at h
  · cases h
    exact ⟨hs, Frame.refl kind st⟩
  · next b j hroot =>
    simp only [Option.bind_eq_some_iff] at h
    obtain ⟨x, htree, o, rfl, tree, hupd, h⟩ := h
    simp only [InstTree.updateAll, Option.bind_eq_bind, Option.bind_eq_some_iff, Option.some.injEq] at hupd
    obtain ⟨idx, hupd, rfl⟩ := hupd
    obtain ⟨o0, e, ho0, he, hobj, rows, hl, hrows⟩ := hs.tree htree
    cases ho0
    have hr : RowOf kind st e.table r := by
      obtain ⟨v, hv, -⟩ := (tree_eq_some st b j _).mp htree
      obtain ⟨t, ht, -⟩ := DmStore.slot_eq_some.mp hv
      obtain ⟨hc, hk⟩ := (hs.home r n hn b j hroot).2 e ⟨t, ht⟩ he hobj
      exact ⟨n, hn, hc, hk⟩
    have hfuel : rows.length + 1 < st.fuel := by
      have := hs.rows_length hl hrows
      show rows.length + 1 < st.next + 2
      omega
    obtain ⟨rows', hl', hcases⟩ := @ObjTree.Lists.update o ⟨⟨o.tree.cnt, idx⟩, o.cntr, o.idMap⟩ st.row rows r st.fuel
      (fun ti => ti.update st.fuel st.row r) hl hfuel (fun _ => rfl) (.inr hupd)
    refine hs.setTree htree h fun e' he' => ⟨rows', hl', fun y hy => ?_⟩
    rw [he] at he'
    cases he'
    rcases hcases with hperm | ⟨-, hperm⟩
    · exact hrows y (hperm.mem_iff.mp hy)
    · rcases List.mem_cons.mp (hperm.mem_iff.mp hy) with rfl | hy
      · exact hr
      · exact hrows y hy

end Mand.Store
