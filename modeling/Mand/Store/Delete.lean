import Mand.Store.Add

/-! # Deletion

`dm_del_table`, `dm_del_element`, `dm_del_object` and `dm_del_instance` in a well-formed store. They
change only what is below the path they are given, the object that holds the rows and its counter. -/
namespace Mand.Store
open Mand.Index
set_option autoImplicit false

variable {full : Prop} {X : Addr → ℕ → Prop} {S : Schema} {st st' st'' : DmStore} {P : Selector → Prop}

/-! ## What changes -/

theorem not_prefix_self (p : Selector) (x : ℕ) : ¬p ++ [x] <+: p := by
  intro hq
  have hlen := hq.length_le
  rw [List.length_append, List.length_singleton] at hlen
  omega

/-- Only tables at or below the path changed. -/
structure Below (p : Selector) (st st' : DmStore) : Prop where
  root : st'.root = st.root
  next : st'.next = st.next
  dead : ∀ b, st.heap b = none → st'.heap b = none
  ids : ∀ b t t', st.heap b = some t → st'.heap b = some t' → t'.id = t.id
  outside : ∀ b t, st.heap b = some t → ¬p <+: t.id → st'.heap b = some t

theorem Below.refl (p : Selector) (st : DmStore) : Below p st st where
  root := rfl
  next := rfl
  dead := fun _ h => h
  ids := by
    intro b t t' ht ht'
    rw [ht] at ht'
    cases ht'
    rfl
  outside := fun _ _ h _ => h

/-- A table that is there afterwards was there before. -/
theorem Below.back {p : Selector} (h : Below p st st') {b : Addr} {t' : VTable}
    (ht' : st'.heap b = some t') : ∃ t, st.heap b = some t ∧ t'.id = t.id := by
  cases ht : st.heap b with
  | none =>
    rw [h.dead b ht] at ht'
    cases ht'
  | some t => exact ⟨t, rfl, h.ids b t t' ht ht'⟩

theorem Below.trans {p : Selector} (h : Below p st st') (h' : Below p st' st'') : Below p st st'' where
  root := h'.root.trans h.root
  next := h'.next.trans h.next
  dead := fun b hb => h'.dead b (h.dead b hb)
  ids := by
    intro b t t'' ht ht''
    obtain ⟨t', ht', hid'⟩ := h'.back ht''
    exact hid'.trans (h.ids b t t' ht ht')
  outside := fun b t ht hp => h'.outside b t (h.outside b t ht hp) hp

theorem Below.mono {p q : Selector} (h : Below p st st') (hq : q <+: p) : Below q st st' where
  root := h.root
  next := h.next
  dead := h.dead
  ids := h.ids
  outside := fun b t ht hb => h.outside b t ht fun hp => hb (hq.trans hp)

theorem Below.put {p : Selector} {a : Addr} {t t' : VTable} (ht : st.heap a = some t) (hid : t'.id = t.id)
    (hp : p <+: t.id) : Below p st (st.put a t') where
  root := rfl
  next := rfl
  dead := by
    intro b hb
    rw [DmStore.put_heap, if_neg]
    · exact hb
    · intro hba
      rw [hba, ht] at hb
      cases hb
  ids := by
    intro b tb tb' hb hb'
    rw [DmStore.put_heap] at hb'
    by_cases hba : b = a
    · rw [if_pos hba] at hb'
      cases hb'
      rw [hba, ht] at hb
      cases hb
      exact hid
    · rw [if_neg hba, hb] at hb'
      cases hb'
      rfl
  outside := by
    intro b tb hb hpb
    rw [DmStore.put_heap, if_neg]
    · exact hb
    · intro hba
      rw [hba, ht] at hb
      cases hb
      exact hpb hp

theorem Below.free {p : Selector} {a : Addr} {t : VTable} (ht : st.heap a = some t) (hp : p <+: t.id) :
    Below p st (st.free a) where
  root := rfl
  next := rfl
  dead := by
    intro b hb
    rw [DmStore.free_heap]
    by_cases hba : b = a
    · exact if_pos hba
    · rw [if_neg hba]
      exact hb
  ids := by
    intro b tb tb' hb hb'
    rw [DmStore.free_heap] at hb'
    by_cases hba : b = a
    · rw [if_pos hba] at hb'
      cases hb'
    · rw [if_neg hba, hb] at hb'
      cases hb'
      rfl
  outside := by
    intro b tb hb hpb
    rw [DmStore.free_heap, if_neg]
    · exact hb
    · intro hba
      rw [hba, ht] at hb
      cases hb
      exact hpb hp

/-- A counter gets another number. -/
def Counted (v v' : DmValue) : Prop :=
  ∃ n n', v.content = .scalar (.uint n) ∧ v' = { v with content := .scalar (.uint n') }

/-- Slot `j` of a table counts the rows of the object in slot `i`. -/
def Schema.Follows (S : Schema) (kw i j : ℕ) : Prop :=
  counterOf (S.table kw).elems (i + 1) = some j ∧
    ∃ e, (S.table kw).elems[i]? = some e ∧ e.type = .object

/-- Only slot `i` of table `a`, what is below the path and the counter that follows the slot changed. -/
structure SlotFrame (S : Schema) (kw : ℕ) (p : Selector) (a i : ℕ) (st st' : DmStore) : Prop where
  root : st'.root = st.root
  next : st'.next = st.next
  dead : ∀ b, st.heap b = none → st'.heap b = none
  ids : ∀ b t t', st.heap b = some t → st'.heap b = some t' → t'.id = t.id
  outside : ∀ b t, st.heap b = some t → b ≠ a → ¬p <+: t.id → st'.heap b = some t
  table : ∀ t, st.heap a = some t → ∃ t', st'.heap a = some t' ∧ t'.node = t.node ∧
    ∀ (j : ℕ), j ≠ i → t'.values[j]? = t.values[j]? ∨ S.Follows kw i j ∧
      ∃ v v', t.values[j]? = some v ∧ t'.values[j]? = some v' ∧ Counted v v'

section SlotFrame
variable {kw a i : ℕ} {p q : Selector} {t : VTable}

theorem SlotFrame.refl (S : Schema) (kw : ℕ) (p : Selector) (a i : ℕ) (st : DmStore) :
    SlotFrame S kw p a i st st where
  root := rfl
  next := rfl
  dead := fun _ h => h
  ids := (Below.refl p st).ids
  outside := fun _ _ h _ _ => h
  table := fun t ht => ⟨t, ht, rfl, fun _ _ => .inl rfl⟩

theorem SlotFrame.trans (h : SlotFrame S kw p a i st st') (h' : SlotFrame S kw p a i st' st'') :
    SlotFrame S kw p a i st st'' where
  root := h'.root.trans h.root
  next := h'.next.trans h.next
  dead := fun b hb => h'.dead b (h.dead b hb)
  ids := by
    intro b t t'' ht ht''
    cases ht' : st'.heap b with
    | none =>
      rw [h'.dead b ht'] at ht''
      cases ht''
    | some t' => rw [h'.ids b t' t'' ht' ht'', h.ids b t t' ht ht']
  outside := fun b t ht hba hb => h'.outside b t (h.outside b t ht hba hb) hba hb
  table := by
    intro t ht
    obtain ⟨t', ht', hn', hv'⟩ := h.table t ht
    obtain ⟨t'', ht'', hn'', hv''⟩ := h'.table t' ht'
    refine ⟨t'', ht'', hn''.trans hn', ?_⟩
    intro j hj
    rcases hv' j hj with hsame' | ⟨hc, v, v', hv, hv1, hcount⟩
    · rw [← hsame']
      exact hv'' j hj
    · rcases hv'' j hj with hsame'' | ⟨-, w, w', hw, hw1, hcount'⟩
      · rw [hsame'']
        exact .inr ⟨hc, v, v', hv, hv1, hcount⟩
      · rw [hv1] at hw
        cases hw
        obtain ⟨n, n', hn, rfl⟩ := hcount
        obtain ⟨m, m', hm, rfl⟩ := hcount'
        exact .inr ⟨hc, v, _, hv, hw1, n, m', hn, rfl⟩

theorem SlotFrame.mono (h : SlotFrame S kw p a i st st') (hq : q <+: p) : SlotFrame S kw q a i st st' where
  root := h.root
  next := h.next
  dead := h.dead
  ids := h.ids
  outside := fun b t ht hba hb => h.outside b t ht hba fun hp => hb (hq.trans hp)
  table := h.table

/-- Nothing but what is below the path changed. -/
theorem SlotFrame.ofBelow (h : Below p st st') (ht : st.heap a = some t) (hp : ¬p <+: t.id) :
    SlotFrame S kw p a i st st' where
  root := h.root
  next := h.next
  dead := h.dead
  ids := h.ids
  outside := fun b tb hb _ hpb => h.outside b tb hb hpb
  table := by
    intro t0 ht0
    rw [ht] at ht0
    cases ht0
    exact ⟨t, h.outside a t ht hp, rfl, fun _ _ => .inl rfl⟩

theorem SlotFrame.below (h : SlotFrame S kw p a i st st') (ht : st.heap a = some t) (hp : t.id <+: p) :
    Below t.id st st' where
  root := h.root
  next := h.next
  dead := h.dead
  ids := h.ids
  outside := by
    intro b tb hb hpb
    refine h.outside b tb hb ?_ fun hq => hpb (hp.trans hq)
    intro hba
    rw [hba, ht] at hb
    cases hb
    exact hpb (List.prefix_refl _)

/-- A slot of table `a` is written. -/
theorem SlotFrame.setSlot {v : DmValue} (h : st.setSlot a i v = some st') : SlotFrame S kw p a i st st' := by
  obtain ⟨t, ht, hi, rfl⟩ := DmStore.setSlot_eq_some.mp h
  have hb : Below t.id st (st.put a (t.setValue i v)) := Below.put ht rfl (List.prefix_refl _)
  refine ⟨rfl, rfl, hb.dead, hb.ids, ?_, ?_⟩
  · intro b tb hb hba _
    rw [DmStore.put_heap, if_neg hba]
    exact hb
  · intro t0 ht0
    rw [ht] at ht0
    cases ht0
    refine ⟨_, DmStore.put_heap_self _ _ _, rfl, ?_⟩
    intro j hj
    exact .inl (List.getElem?_set_ne (Ne.symm hj))

end SlotFrame

/-- Nothing of what is kept has a path below. -/
theorem Below.keeps {p : Selector} (h : Below p st st') (hlt : ∀ b t, st.heap b = some t → b < st.next)
    (hP : ∀ q, p <+: q → ¬P q) : Keeps P st st' where
  root := h.root
  lt := hlt
  next := le_of_eq h.next.symm
  dead := fun b _ hn => h.dead b hn
  ids := h.ids
  table := fun b t ht hp => ⟨t, h.outside b t ht fun hpre => hP _ hpre hp⟩
  slot := by
    intro b t j v ht hv hp hpar
    have hout : ¬p <+: t.id := fun hpre => hP _ (hpre.trans (List.prefix_append _ _)) hp
    exact ⟨v, DmStore.slot_eq_some.mpr ⟨t, h.outside b t ht hout, hv⟩, hpar, Content.KeptOn.refl _ _⟩
  node := by
    intro b t n ht hp hn hpar
    have hout : ¬p <+: t.id := fun hpre => hP _ hpre hp
    exact ⟨n, DmStore.node_eq_some.mpr ⟨t, h.outside b t ht hout, hn⟩, hpar, rfl, rfl⟩

/-! ## One row -/

section Row
variable {kw a i r d : ℕ} {p : Selector} {t tr : VTable} {e : DmElement} {o : ObjTree} {rows : List Addr}

theorem addCounter_frame (he : (S.table kw).elems[i]? = some e) (hobj : e.type = .object)
    (h : addCounter st ((counterOf (S.table kw).elems (i + 1)).map fun c => (a, c + 1)) d
    = some st') : SlotFrame S kw p a i st st' := by
  rcases addCounter_eq_some h with ⟨-, rfl⟩ | ⟨b, id, v, n, hc, hv, -, hcont, hset⟩
  · exact SlotFrame.refl S kw p a i st'
  obtain ⟨c, hcnt, hce⟩ := Option.map_eq_some_iff.mp hc
  cases hce
  rw [Nat.add_sub_cancel] at hv hset
  have hfr : SlotFrame S kw p a c st st' := SlotFrame.setSlot hset
  obtain ⟨t, ht, hi, rfl⟩ := DmStore.setSlot_eq_some.mp hset
  refine ⟨rfl, rfl, hfr.dead, hfr.ids, ?_, ?_⟩
  · intro b tb hb hba _
    rw [DmStore.put_heap, if_neg hba]
    exact hb
  · intro t0 ht0
    rw [ht] at ht0
    cases ht0
    refine ⟨_, DmStore.put_heap_self _ _ _, rfl, ?_⟩
    intro j _
    by_cases hjc : j = c
    · subst hjc
      obtain ⟨t1, ht1, hvt⟩ := DmStore.slot_eq_some.mp hv
      rw [ht] at ht1
      cases ht1
      exact .inr ⟨⟨hcnt, e, he, hobj⟩, v, _, hvt, List.getElem?_set_self hi, n, _, hcont, rfl⟩
    · exact .inl (List.getElem?_set_ne (Ne.symm hjc))

/-- The slot of the object after its tree changed. -/
theorem removeInstance_frame (ht : st.heap a = some t) (he : (S.table kw).elems[i]? = some e)
    (hobj : e.type = .object) (htree : st.tree a i = some (some o))
    (hcntr : o.cntr = (counterOf (S.table kw).elems (i + 1)).map fun c => (a, c + 1))
    (htr : st.heap r = some tr) (hid : ¬tr.id <+: t.id) (h : removeInstance st a i r = some st') :
    SlotFrame S kw tr.id a i st st' ∧ ∃ v o', st.slot a i = some v ∧
      st'.slot a i = some { v with content := .inst (some o') } := by
  obtain ⟨o0, tree', n, idMap, st1, st2, htree0, -, hnode, -, h1, h2, h3⟩ := removeInstance_parts h
  rw [htree] at htree0
  cases htree0
  have hfr1 : SlotFrame S kw tr.id a i st st1 := by
    obtain ⟨t0, ht0, rfl⟩ := DmStore.setNode_eq_some.mp h1
    rw [htr] at ht0
    cases ht0
    exact SlotFrame.ofBelow (Below.put htr rfl (List.prefix_refl _)) ht hid
  obtain ⟨v, hv, hset⟩ := setTree_eq_some h2
  have hfr2 : SlotFrame S kw tr.id a i st1 st2 := SlotFrame.setSlot hset
  rw [hcntr] at h3
  refine ⟨(hfr1.trans hfr2).trans (addCounter_frame he hobj h3), v, ⟨tree', o.cntr, idMap⟩, ?_, ?_⟩
  · rw [← DmStore.slot_setNode h1]
    exact hv
  · have hslot : st2.slot a i = some { v with content := .inst (some ⟨tree', o.cntr, idMap⟩) } := by
      rw [DmStore.slot_setSlot hset, if_pos ⟨rfl, rfl⟩]
    rcases addCounter_eq_some h3 with ⟨-, rfl⟩ | ⟨b, id, w, n, hc, hw, -, hcont, hset'⟩
    · exact hslot
    · rw [DmStore.slot_setSlot hset', if_neg]
      · exact hslot
      · intro he
        rw [he.1, he.2, hw] at hslot
        cases hslot
        cases hcont

/-- What `dm_del_table` does to table `a`. -/
def DelSpec (full : Prop) (S : Schema) (del : ℕ → Addr → DmStore → Option DmStore) : Prop :=
  ∀ X kw a st st' t, del kw a st = some st' → HeapWf full X S st → st.heap a = some t →
    S.place t.id = some (kw, false) → (∀ b tb j, st.heap b = some tb → t.id <+: tb.id → ¬X b j) →
    HeapWf full X S st' ∧ Below t.id st st' ∧ ∃ t', st'.heap a = some t' ∧ t'.node = t.node

/-- Paths of tables and paths of rows are different. -/
theorem place_conflict {q q' : Selector} {k k' j inst : ℕ} (h : S.place q = some (k, false))
    (h' : S.place q' = some (k', true)) (heq : q ++ [j] = q' ++ [inst]) : False := by
  obtain ⟨rfl, -⟩ := List.append_inj' heq rfl
  rw [h] at h'
  cases h'

/-- A row is given back, once it is out of its object and empty. -/
theorem HeapWf.freeRow {n : RowNode} (hw : HeapWf full X S st) (htr : st.heap r = some tr)
    (hn : tr.node = some n) (hroot : n.root = none) : HeapWf full X S (st.free r) := by
  obtain ⟨kr, hkr⟩ := hw.table r tr htr
  obtain ⟨q, k, hq, hid⟩ := hkr.node n hn
  refine hw.free ?_ htr ?_ ?_
  · intro hr
    obtain ⟨t0, ht0, hnil⟩ := hw.root
    rw [← hr, htr] at ht0
    cases ht0
    rw [hid] at hnil
    exact absurd hnil (by simp)
  · intro m hm
    rw [hn] at hm
    cases hm
    exact hroot
  · intro b j v hv hc hpar
    by_contra hx
    obtain ⟨tb, htb, hvt⟩ := DmStore.slot_eq_some.mp hv
    obtain ⟨kb, hkb⟩ := hw.table b tb htb
    obtain ⟨t1, ht1, hid1⟩ := (hkb.slot j v hvt hx).token r hc hpar
    rw [htr] at ht1
    cases ht1
    rw [hid] at hid1
    exact place_conflict hkb.place hq hid1.symm

/-- `dm_del_instance` takes the row out of its object; what it does then is below the path of the row. -/
theorem delInstance_below {del : ℕ → Addr → DmStore → Option DmStore} (hdel : DelSpec full S del)
    (hw : HeapWf full X S st) (ht : st.heap a = some t) (hp : S.place t.id = some (kw, false))
    (he : (S.table kw).elems[i]? = some e) (hobj : e.type = .object)
    (htree : st.tree a i = some (some o)) (ho : ObjWf full S st kw t.id a i o rows) (hr : r ∈ rows)
    (hx : ¬X a i) (hX : ∀ b tb j, st.heap b = some tb → t.id ++ [i + 1] <+: tb.id → ¬X b j)
    (h : delInstance del e a i r st = some st') :
    ∃ tr inst st1, st.heap r = some tr ∧ tr.id = t.id ++ [i + 1, inst] ∧ removeInstance st a i r = some st1 ∧
      HeapWf full X S st' ∧ Below tr.id st1 st' ∧ st'.heap r = none := by
  obtain ⟨tr, n0, htr, hn0, hroot0, hid, hcont, hlt⟩ := ho.isRow r hr
  have hpre : t.id ++ [i + 1] <+: tr.id := by
    rw [hid]
    exact ⟨[n0.inst], by simp⟩
  have hplace : S.place tr.id = some (e.table, false) := by
    have hsplit : tr.id = t.id ++ [i + 1] ++ [n0.inst] := by rw [hid]; simp
    rw [hsplit]
    exact place_inst (place_object hp he hobj)
  unfold delInstance at h
  simp only [Option.bind_eq_bind, Option.bind_eq_some_iff, Option.some.injEq] at h
  obtain ⟨n, hn, u, -, st1, hrem, n1, hn1, st2, h2, st3, h3, rfl⟩ := h
  obtain ⟨hw1, -, ⟨m, m', hm, hm', hval, hinst, hroot⟩, -⟩ :=
    removeInstance_spec (P := fun _ => False) hw hx ht hp htree ho hr htr (fun hf => hf) hrem
  have hout0 : ¬tr.id <+: t.id := fun hq => not_prefix_self t.id (i + 1) (hpre.trans hq)
  obtain ⟨hfr1, -⟩ := removeInstance_frame ht he hobj htree ho.cntr htr hout0 hrem
  rw [hn1] at hm'
  cases hm'
  -- the row is marked as deleted
  obtain ⟨tr1, htr1, hntr1⟩ := DmStore.node_eq_some.mp hn1
  have hid1 : tr1.id = tr.id := hfr1.ids r tr tr1 htr htr1
  have hw2 : HeapWf full X S st2 := by
    refine hw1.setNode (fun _ _ hh => hh) h2 hn1 ⟨rfl, rfl⟩ (.inl rfl) ?_
    intro t0 ht0
    rw [htr1] at ht0
    cases ht0
    obtain ⟨k1, hk1⟩ := hw1.table r tr1 htr1
    exact hk1.home n1 hntr1
  obtain ⟨tr2, htr2, hn2, hid2, hb2⟩ : ∃ tr2, st2.heap r = some tr2 ∧ (∃ n2, tr2.node = some n2 ∧
      n2.root = none) ∧ tr2.id = tr.id ∧ Below tr.id st1 st2 := by
    obtain ⟨t0, ht0, hst2⟩ := DmStore.setNode_eq_some.mp h2
    rw [htr1] at ht0
    cases ht0
    have htr2 : st2.heap r = some { tr1 with node := some { n1 with value := { n1.value with
        flags := { n1.value.flags with deleted := true }, parity := true } } } := by
      rw [hst2, DmStore.put_heap_self]
    refine ⟨_, htr2, ⟨_, rfl, hroot⟩, hid1, ?_⟩
    rw [hst2, ← hid1]
    exact Below.put htr1 rfl (List.prefix_refl _)
  -- its table is emptied
  obtain ⟨hw3, hb3, tr3, htr3, hn3⟩ := hdel X e.table r st2 st3 tr2 h3 hw2 htr2
    (by rw [hid2]; exact hplace) (by
      intro b tb j hb hpb
      obtain ⟨tb1, htb1, hidb1⟩ := hb2.back hb
      cases htb : st.heap b with
      | none =>
        rw [hfr1.dead b htb] at htb1
        cases htb1
      | some tb0 =>
        refine hX b tb0 j htb ?_
        rw [← hfr1.ids b tb0 tb1 htb htb1, ← hidb1]
        rw [hid2] at hpb
        exact hpre.trans hpb)
  rw [hid2] at hb3
  have hid3 : tr3.id = tr.id := (hb3.ids r tr2 tr3 htr2 htr3).trans hid2
  obtain ⟨n2, hn2, hroot2⟩ := hn2
  have hw4 := hw3.freeRow htr3 (hn3.trans hn2) hroot2
  have hb4 : Below tr.id st3 (st3.free r) := Below.free htr3 (by rw [hid3])
  exact ⟨tr, n0.inst, st1, htr, hid, hrem, hw4, (hb2.trans hb3).trans hb4, by rw [DmStore.free_heap, if_pos rfl]⟩

theorem delInstance_spec {del : ℕ → Addr → DmStore → Option DmStore} (hdel : DelSpec full S del)
    (hw : HeapWf full X S st) (ht : st.heap a = some t) (hp : S.place t.id = some (kw, false))
    (he : (S.table kw).elems[i]? = some e) (hobj : e.type = .object)
    (htree : st.tree a i = some (some o)) (ho : ObjWf full S st kw t.id a i o rows) (hr : r ∈ rows)
    (hx : ¬X a i) (hX : ∀ b tb j, st.heap b = some tb → t.id ++ [i + 1] <+: tb.id → ¬X b j)
    (h : delInstance del e a i r st = some st') :
    HeapWf full X S st' ∧ (∃ v o', st.slot a i = some v ∧
      st'.slot a i = some { v with content := .inst (some o') }) ∧
      (∃ o', st'.tree a i = some (some o') ∧ ObjWf full S st' kw t.id a i o' (rows.erase r) ∧
        o'.tree.cnt = countDown o.tree.cnt) ∧
      ∀ tr, st.heap r = some tr → SlotFrame S kw tr.id a i st st' ∧ st'.heap r = none ∧
        ((∀ q, tr.id <+: q → ¬P q) → Keeps P st st') := by
  obtain ⟨tr, inst, st1, htr, hid, hrem, hw', hb, hgone⟩ :=
    delInstance_below hdel hw ht hp he hobj htree ho hr hx hX h
  have hout0 : ¬tr.id <+: t.id := by
    rw [hid]
    intro hq
    have hlen := hq.length_le
    rw [List.length_append, List.length_cons, List.length_singleton] at hlen
    omega
  obtain ⟨hw1, -, -, o', htree', ho', hcnt⟩ :=
    removeInstance_spec (P := fun _ => False) hw hx ht hp htree ho hr htr (fun hf => hf) hrem
  obtain ⟨hfr1, v, ov, hv, hv'⟩ := removeInstance_frame ht he hobj htree ho.cntr htr hout0 hrem
  obtain ⟨t1, ht1, -⟩ := hfr1.table t ht
  have hidt1 : t1.id = t.id := hfr1.ids a t t1 ht ht1
  have hout : ¬tr.id <+: t1.id := by
    rw [hidt1]
    exact hout0
  have hta : st'.heap a = some t1 := hb.outside a t1 ht1 hout
  have hslota : ∀ j, st'.slot a j = st1.slot a j := by
    intro j
    rw [DmStore.slot_eq, DmStore.slot_eq, hta, ht1]
  have htreea : st'.tree a i = some (some o') := by
    obtain ⟨w, hw, hc⟩ := (tree_eq_some st1 a i _).mp htree'
    exact (tree_eq_some _ a i _).mpr ⟨w, by rw [hslota]; exact hw, hc⟩
  refine ⟨hw', ⟨v, ov, hv, by rw [hslota]; exact hv'⟩, ⟨o', htreea, ?_, hcnt⟩, ?_⟩
  · obtain ⟨o2, rows2, ho2, hrows2, -⟩ := hw'.tree hta (by rw [hidt1]; exact hp) hx htreea
    cases ho2
    rw [hrows2.lists.unique ho'.lists, hidt1] at hrows2
    exact hrows2
  · intro tr' htr'
    rw [htr] at htr'
    cases htr'
    refine ⟨hfr1.trans (SlotFrame.ofBelow hb ht1 hout), hgone, ?_⟩
    intro hP
    have hk1 := (removeInstance_spec (P := P) hw hx ht hp htree ho hr htr (hP _ (List.prefix_refl _)) hrem).2.1
    exact hk1.trans (hb.keeps hw1.lt hP)

end Row

/-! ## All rows, an element, a table -/

section Table
variable {kw a i : ℕ} {t : VTable} {e : DmElement} {del : ℕ → Addr → DmStore → Option DmStore}

/-- `dm_instance_root`. -/
theorem instanceRoot_spec {o : ObjTree} {rows : List Addr} {x : Option Addr} {p : Selector}
    (htree : st.tree a i = some (some o)) (ho : ObjWf full S st kw p a i o rows)
    (h : instanceRoot st a i = some x) : (x = none → rows = []) ∧ ∀ r, x = some r → r ∈ rows := by
  obtain ⟨ix, rest, hidx, hix⟩ := ho.lists
  have hx : ix.root = x := by
    simpa [instanceRoot, htree, hidx] using h
  exact ⟨fun hn => hix.root_none (hx.trans hn), fun r hr => hix.root_mem r (hx.trans hr)⟩

/-- `dm_del_object`. -/
theorem delObject_spec (hdel : DelSpec full S del) (hp : S.place t.id = some (kw, false))
    (he : (S.table kw).elems[i]? = some e) (hobj : e.type = .object) (hx : ¬X a i)
    (hP : ∀ x q, t.id ++ [i + 1, x] <+: q → ¬P q) (n : ℕ) (st st' : DmStore) (ta : VTable) (v : DmValue)
    (o : ObjTree) (hw : HeapWf full X S st) (ht : st.heap a = some ta) (hid : ta.id = t.id)
    (hX : ∀ b tb j, st.heap b = some tb → t.id ++ [i + 1] <+: tb.id → ¬X b j)
    (hv : st.slot a i = some v) (hvc : v.content = .inst (some o))
    (h : delObject del e a i n st = some st') :
    HeapWf full X S st' ∧ SlotFrame S kw (t.id ++ [i + 1]) a i st st' ∧ Keeps P st st' ∧
      ∃ o', st'.slot a i = some { v with content := .inst (some o') } ∧
        ObjWf full S st' kw t.id a i o' [] ∧
        ∀ rows, o.Lists st.row rows → o'.tree.cnt = countDown^[rows.length] o.tree.cnt := by
  induction n generalizing st ta v o with
  | zero => cases h
  | succ n ih =>
    unfold delObject at h
    simp only [Option.bind_eq_bind, Option.bind_eq_some_iff] at h
    obtain ⟨x, hroot, h⟩ := h
    have htree : st.tree a i = some (some o) := (tree_eq_some st a i _).mpr ⟨v, hv, hvc⟩
    have hpa : S.place ta.id = some (kw, false) := by rw [hid, hp]
    obtain ⟨o0, rows, ho0, ho, -⟩ := hw.tree ht hpa hx htree
    cases ho0
    obtain ⟨hnone, hmem⟩ := instanceRoot_spec htree ho hroot
    cases x with
    | none =>
      cases h
      refine ⟨hw, SlotFrame.refl _ _ _ _ _ _, Keeps.refl P hw.lt, o, ?_, ?_, ?_⟩
      · rw [hv, ← hvc]
      · rw [hnone rfl, hid] at ho
        exact ho
      · intro rows' hrows'
        rw [hrows'.unique ho.lists, hnone rfl]
        rfl
    | some r =>
      simp only [Option.bind_eq_some_iff] at h
      obtain ⟨st1, h1, h⟩ := h
      have hr := hmem r rfl
      obtain ⟨tr, m, htr, -, -, hrid, -⟩ := ho.isRow r hr
      have hX0 : ∀ b tb j, st.heap b = some tb → ta.id ++ [i + 1] <+: tb.id → ¬X b j := by
        rw [hid]
        exact hX
      obtain ⟨hw1, ⟨v0, o1, hv0, hv1⟩, ⟨o1', htree1, ho1, hcnt1⟩, hrest⟩ :=
        delInstance_spec (P := P) hdel hw ht hpa he hobj htree ho hr hx hX0 h1
      rw [hv] at hv0
      cases hv0
      obtain ⟨hfr1, -, hk1⟩ := hrest tr htr
      rw [hrid, hid] at hfr1 hk1
      have hk1 := hk1 (hP m.inst)
      have hfr1 : SlotFrame S kw (t.id ++ [i + 1]) a i st st1 := hfr1.mono ⟨[m.inst], by simp⟩
      obtain ⟨t1, ht1, -⟩ := hfr1.table ta ht
      have hid1 : t1.id = t.id := (hfr1.ids a ta t1 ht ht1).trans hid
      obtain ⟨hw2, hfr2, hk2, o2, hv2, ho2, hcnt2⟩ := ih st1 t1 _ o1 hw1 ht1 hid1 (by
        intro b tb j hb hpb
        cases htb : st.heap b with
        | none =>
          rw [hfr1.dead b htb] at hb
          cases hb
        | some tb0 =>
          refine hX b tb0 j htb ?_
          rw [← hfr1.ids b tb0 tb htb hb]
          exact hpb) hv1 rfl h
      refine ⟨hw2, hfr1.trans hfr2, hk1.trans hk2, o2, hv2, ho2, ?_⟩
      intro rows' hrows'
      have hsame : o1 = o1' := by
        rw [(tree_eq_some st1 a i _).mpr ⟨_, hv1, rfl⟩] at htree1
        exact Option.some.inj (Option.some.inj htree1)
      rw [hrows'.unique ho.lists, ← List.length_erase_add_one hr, Function.iterate_succ_apply, ← hcnt1, ← hsame]
      exact hcnt2 _ (by rw [hsame]; exact ho1.lists)

/-- The value of a token, an object or a leaf after `dm_del_element`. -/
theorem freeValue_scalar (type : DmType) (x : Value) : ∃ y, freeValue type (.scalar x) = .scalar y := by
  cases type <;> exact ⟨_, rfl⟩

/-- The table of a token is given back. The slot still points to it. -/
theorem delContent_token (hdel : DelSpec full S del) {b : Addr} {v : DmValue} (hw : HeapWf full X S st)
    (ht : st.heap a = some t) (hp : S.place t.id = some (kw, false))
    (he : (S.table kw).elems[i]? = some e) (htok : e.type = .token) (hx : ¬X a i)
    (hX : ∀ b tb j, st.heap b = some tb → t.id ++ [i + 1] <+: tb.id → ¬X b j)
    (hv : st.slot a i = some v) (hpar : v.parity = true) (hc : v.content = .table (some b))
    (h : del e.table b st = some st') :
    HeapWf full (exempt X a i) S (st'.free b) ∧ Below (t.id ++ [i + 1]) st (st'.free b) := by
  obtain ⟨t0, ht0, hvt⟩ := DmStore.slot_eq_some.mp hv
  rw [ht] at ht0
  cases ht0
  obtain ⟨k, hk⟩ := hw.table a t ht
  obtain ⟨tb, htb, hid⟩ := (hk.slot i v hvt hx).token b hc hpar
  have hplace : S.place tb.id = some (e.table, false) := by
    rw [hid]
    exact place_token hp he htok
  have hout : ¬tb.id <+: t.id := by
    rw [hid]
    exact not_prefix_self t.id (i + 1)
  obtain ⟨hw1, hb1, tb1, htb1, hnb1⟩ := hdel (exempt X a i) e.table b st st' tb h
    (hw.weaken fun _ _ hh => .inl hh) htb hplace (by
      intro c tc j hc hpc hxc
      rcases hxc with hxc | ⟨rfl, rfl⟩
      · exact hX c tc j hc (by rw [← hid]; exact hpc) hxc
      · rw [ht] at hc
        cases hc
        exact hout hpc)
  have hidb1 : tb1.id = tb.id := hb1.ids b tb tb1 htb htb1
  refine ⟨hw1.free ?_ htb1 ?_ ?_, ?_⟩
  · intro hr
    obtain ⟨tr, htr, hnil⟩ := hw1.root
    rw [← hr, htb1] at htr
    cases htr
    rw [hidb1, hid] at hnil
    exact absurd hnil (by simp)
  · intro n hn
    obtain ⟨kb, hkb⟩ := hw1.table b tb1 htb1
    obtain ⟨q, k', hq, hidq⟩ := hkb.node n hn
    rw [hidb1, hid] at hidq
    exact (place_conflict hp hq hidq).elim
  · -- only the slot itself points to the table
    intro c j w hw hwc _
    have hta : st'.heap a = some t := hb1.outside a t ht hout
    have hva : st'.slot a i = some v := DmStore.slot_eq_some.mpr ⟨t, hta, hvt⟩
    obtain ⟨rfl, rfl⟩ := hw1.inj c j w b a i v hw hwc hva hc
    exact .inr ⟨rfl, rfl⟩
  · rw [← hid]
    exact hb1.trans (Below.free htb1 (by rw [hidb1]))

/-- A slot with a wrong parity may point anywhere. -/
theorem HeapWf.closeToken {b : Addr} {v : DmValue} (hw : HeapWf full (exempt X a i) S st)
    (hv : st.slot a i = some v) (hc : v.content = .table (some b))
    (h : st.setSlot a i { v with parity := false } = some st') : HeapWf full X S st' := by
  have hw' : HeapWf full (exempt X a i) S st' := hw.setSlot (fun _ _ hh => hh) h hv
    (fun _ hf => hf) (fun _ hh => hh) (.inl (.inl ⟨rfl, fun hh => nomatch hh⟩)) (fun _ => .inl rfl)
  refine hw'.close ?_
  intro c j hxc hxn tc kc w htc hpc hwc
  rcases hxc with hxc | ⟨rfl, rfl⟩
  · exact absurd hxc hxn
  have hslot : st'.slot c j = some { v with parity := false } := by
    rw [DmStore.slot_setSlot h, if_pos ⟨rfl, rfl⟩]
  obtain ⟨tc', htc', hwt⟩ := DmStore.slot_eq_some.mp hslot
  rw [htc] at htc'
  cases htc'
  rw [hwc] at hwt
  cases hwt
  refine ⟨fun d _ hpd => (nomatch hpd), ?_⟩
  intro o ho
  rw [hc] at ho
  cases ho

theorem fits_object {c : Content} (hfit : Fits e c) (hobj : e.type = .object) : ∃ o, c = .inst (some o) := by
  cases c with
  | scalar x => simp [Fits, DmElement.container, hobj] at hfit
  | table x =>
    have hbad : e.type = .token := hfit
    rw [hobj] at hbad
    cases hbad
  | inst x =>
    obtain ⟨o, rfl⟩ := Option.isSome_iff_exists.mp hfit.2
    exact ⟨o, rfl⟩

theorem fits_leaf {c : Content} (hfit : Fits e c) (htok : e.type ≠ .token) (hobj : e.type ≠ .object) :
    ∃ x, c = .scalar x := by
  cases c with
  | scalar x => exact ⟨x, rfl⟩
  | table x => exact absurd hfit htok
  | inst x => exact absurd hfit.1 hobj

theorem delContent_leaf {c : Content} (htok : e.type ≠ .token) (hobj : e.type ≠ .object) :
    delContent del e a i c st = some st := by
  unfold delContent
  split
  · contradiction
  · contradiction
  · contradiction
  · contradiction
  · contradiction
  · rfl

/-- A leaf is given back. A counter keeps its value. -/
theorem HeapWf.freeLeaf {v : DmValue} (hw : HeapWf full X S st) (ht : st.heap a = some t)
    (hp : S.place t.id = some (kw, false)) (he : (S.table kw).elems[i]? = some e) (htok : e.type ≠ .token)
    (hobj : e.type ≠ .object) (hv : st.slot a i = some v) (hfit : Fits e v.content)
    (h : st.setSlot a i { v with content := freeValue e.type v.content, parity := false } = some st') :
    HeapWf full X S st' := by
  obtain ⟨x, hx⟩ := fits_leaf hfit htok hobj
  obtain ⟨y, hy⟩ := freeValue_scalar e.type x
  rw [hx, hy] at h
  refine hw.setSlot (fun _ _ hh => hh) h hv ?_ ?_ (.inl (.inr ⟨x, y, hx, rfl⟩)) ?_
  · intro e' hf
    rw [hx] at hf
    exact hf
  · intro b hb
    cases hb
  · intro _
    by_cases hcnt : e.type = .counter
    · left
      show Content.scalar y = v.content
      rw [hx, ← hy, hcnt]
      rfl
    · right
      intro t0 kw0 j ht0 hp0 hc
      rw [ht] at ht0
      cases ht0
      rw [hp] at hp0
      cases hp0
      obtain ⟨e', he', hty⟩ := counterOf_type hc
      rw [he] at he'
      cases he'
      exact absurd hty hcnt

/-- `dm_del_element`. The slot stays, with a parity that is wrong. -/
theorem delElement_spec (hdel : DelSpec full S del) (hw : HeapWf full X S st) (ht : st.heap a = some t)
    (hp : S.place t.id = some (kw, false)) (he : (S.table kw).elems[i]? = some e) (hx : ¬X a i)
    (hX : ∀ b tb j, st.heap b = some tb → t.id ++ [i + 1] <+: tb.id → ¬X b j)
    (hP : ∀ q, t.id ++ [i + 1] <+: q → ¬P q) (h : delElement del e a i st = some st') :
    HeapWf full X S st' ∧ SlotFrame S kw (t.id ++ [i + 1]) a i st st' ∧ Keeps P st st' := by
  unfold delElement at h
  simp only [Option.bind_eq_bind, Option.bind_eq_some_iff] at h
  obtain ⟨v, hv, u, hpar, st1, h1, v1, hv1, h⟩ := h
  have hpar : v.parity = true := (parityAssert_eq v u).mp hpar
  obtain ⟨t0, ht0, hvt⟩ := DmStore.slot_eq_some.mp hv
  rw [ht] at ht0
  cases ht0
  obtain ⟨k, hk⟩ := hw.table a t ht
  have hkw : k = kw := by
    have := hk.place
    rw [hp] at this
    cases this
    rfl
  subst hkw
  obtain ⟨e', he', hfit⟩ := hk.fits i v hvt
  rw [he] at he'
  cases he'
  -- the slot itself is not among what is kept
  have hlast : ∀ st1 t1 w', (∀ b t, st1.heap b = some t → b < st1.next) → st1.heap a = some t1 →
      t1.id = t.id → st1.setSlot a i w' = some st' → Keeps P st1 st' := by
    intro st1 t1 w' hlt ht1 hid1 hset
    have hi : i < t1.values.length := by
      obtain ⟨t2, ht2, hi, -⟩ := DmStore.setSlot_eq_some.mp hset
      rw [ht1] at ht2
      cases ht2
      exact hi
    refine Keeps.setSlot hlt hset ht1 (List.getElem?_eq_getElem hi) ?_
    intro hPs
    rw [hid1] at hPs
    exact absurd hPs (hP _ (List.prefix_refl _))
  by_cases htok : e.type = .token
  · have hfree : ∀ c, freeValue e.type c = c := by
      intro c
      rw [htok]
      rfl
    rw [hfree] at h
    cases hc : v.content with
    | scalar x =>
      rw [hc] at hfit
      simp [Fits, DmElement.container, htok] at hfit
    | inst x =>
      rw [hc] at hfit
      have hbad := hfit.1
      rw [htok] at hbad
      cases hbad
    | table x =>
      cases x with
      | none =>
        simp only [delContent, htok, hc, Option.some.injEq] at h1
        subst h1
        rw [hv] at hv1
        cases hv1
        refine ⟨?_, SlotFrame.setSlot h, hlast _ t _ hw.lt ht rfl h⟩
        exact hw.setSlot (fun _ _ hh => hh) h hv (fun _ hf => hf) (fun _ hh => hh)
          (.inl (.inl ⟨rfl, fun hh => nomatch hh⟩)) (fun _ => .inl rfl)
      | some b =>
        simp only [delContent, htok, hc, Option.bind_eq_bind, Option.bind_eq_some_iff,
          Option.some.injEq] at h1
        obtain ⟨st2, h2, rfl⟩ := h1
        obtain ⟨hw2, hb⟩ := delContent_token hdel hw ht hp he htok hx hX hv hpar hc h2
        have hta : (st2.free b).heap a = some t := hb.outside a t ht (not_prefix_self t.id (i + 1))
        have hva : (st2.free b).slot a i = some v := DmStore.slot_eq_some.mpr ⟨t, hta, hvt⟩
        rw [hva] at hv1
        cases hv1
        exact ⟨hw2.closeToken hva hc h,
          (SlotFrame.ofBelow hb ht (not_prefix_self t.id (i + 1))).trans (SlotFrame.setSlot h),
          (hb.keeps hw.lt hP).trans (hlast _ t _ hw2.lt hta rfl h)⟩
  by_cases hobj : e.type = .object
  · have hfree : ∀ c, freeValue e.type c = c := by
      intro c
      rw [hobj]
      rfl
    rw [hfree] at h
    cases hc : v.content with
    | scalar x =>
      rw [hc] at hfit
      simp [Fits, DmElement.container, hobj] at hfit
    | table x =>
      rw [hc] at hfit
      exact absurd hfit htok
    | inst x =>
      rw [hc] at hfit
      obtain ⟨o, rfl⟩ := Option.isSome_iff_exists.mp hfit.2
      simp only [delContent, hobj, hc] at h1
      obtain ⟨hw2, hfr, hkeep, o', hv2, -⟩ := delObject_spec (t := t) (P := P) hdel hp he hobj hx
        (fun x q hq => hP q (List.IsPrefix.trans ⟨[x], by simp⟩ hq)) st.fuel st st1 t v o hw ht rfl hX hv hc h1
      rw [hv2] at hv1
      cases hv1
      obtain ⟨t1, ht1, -⟩ := hfr.table t ht
      refine ⟨?_, hfr.trans (SlotFrame.setSlot h), hkeep.trans (hlast _ t1 _ hw2.lt ht1 (hfr.ids a t t1 ht ht1) h)⟩
      exact hw2.setSlot (fun _ _ hh => hh) h hv2 (fun _ hf => hf) (fun _ hh => hh)
        (.inl (.inl ⟨rfl, fun hh => nomatch hh⟩)) (fun _ => .inl rfl)
  · rw [delContent_leaf htok hobj] at h1
    cases h1
    rw [hv] at hv1
    cases hv1
    exact ⟨hw.freeLeaf ht hp he htok hobj hv hfit h, SlotFrame.setSlot h, hlast _ t _ hw.lt ht rfl h⟩

/-- `dm_del_table`. -/
theorem delElements_spec (hdel : DelSpec full S del) (hp : S.place t.id = some (kw, false)) (n : ℕ)
    (st st' : DmStore) (ta : VTable) (hw : HeapWf full X S st) (ht : st.heap a = some ta)
    (hid : ta.id = t.id) (hX : ∀ b tb j, st.heap b = some tb → t.id <+: tb.id → ¬X b j)
    (h : delElements del (S.table kw).elems a n st = some st') :
    HeapWf full X S st' ∧ Below t.id st st' ∧ ∃ t', st'.heap a = some t' ∧ t'.node = ta.node := by
  induction n generalizing st ta with
  | zero =>
    cases h
    exact ⟨hw, Below.refl _ _, ta, ht, rfl⟩
  | succ i ih =>
    unfold delElements at h
    simp only [Option.bind_eq_bind, Option.bind_eq_some_iff] at h
    obtain ⟨e, he, st1, h1, h⟩ := h
    have hpa : S.place ta.id = some (kw, false) := by rw [hid, hp]
    obtain ⟨hw1, hfr, -⟩ := delElement_spec (P := fun _ => False) hdel hw ht hpa he
      (hX a ta i ht (by rw [hid])) (by
        intro b tb j hb hpb
        rw [hid] at hpb
        exact hX b tb j hb ((List.prefix_append _ _).trans hpb)) (fun _ _ hf => hf) h1
    have hb1 := hfr.below ht (List.prefix_append _ _)
    rw [hid] at hb1
    obtain ⟨t1, ht1, hn1, -⟩ := hfr.table ta ht
    have hid1 : t1.id = t.id := (hfr.ids a ta t1 ht ht1).trans hid
    obtain ⟨hw2, hb2, t2, ht2, hn2⟩ := ih st1 t1 hw1 ht1 hid1 (by
      intro b tb j hb hpb
      obtain ⟨tb0, htb0, hidb⟩ := hb1.back hb
      rw [hidb] at hpb
      exact hX b tb0 j htb0 hpb) h
    exact ⟨hw2, hb1.trans hb2, t2, ht2, hn2.trans hn1⟩

theorem delTable_spec (n : ℕ) : DelSpec full S (delTable S n) := by
  induction n with
  | zero =>
    intro X kw a st st' t h
    cases h
  | succ n ih =>
    intro X kw a st st' t h hw ht hp hX
    exact delElements_spec ih hp _ st st' t hw ht rfl hX h

end Table

/-! ## What a selector refers to -/

/-- The frame of a deletion of path `q`: it ends in slot `i` of table `a`, or in a row of it. -/
structure Deleted (S : Schema) (st st' : DmStore) (q : Selector) : Prop where
  frame : ∃ a i t kw, st.heap a = some t ∧ S.place t.id = some (kw, false) ∧
    (q = t.id ++ [i + 1] ∨ (∃ x, q = t.id ++ [i + 1, x]) ∧ ∃ v o', st.slot a i = some v ∧
      st'.slot a i = some { v with content := .inst (some o') }) ∧ SlotFrame S kw q a i st st'
  keeps : Keeps (fun p => ¬q <+: p) st st'

theorem delRef_spec {sel : Selector} {ref : Ref} (hw : HeapWf full nowhere S st)
    (href : st.getElementRef S sel = some (some ref)) (h : delRef S ref st = some st') :
    HeapWf full nowhere S st' ∧ ∃ q, ref.At S st q ∧ Deleted S st st' q := by
  obtain ⟨m, hat, -⟩ := getElementRef_at hw href
  have hobjt := getElementRef_objectElem href
  obtain ⟨v, hv, -⟩ := getElementRef_checked sel ref href
  generalize sel.take m = q at hat
  unfold delRef at h
  have hno : ∀ (p : Selector) (b : Addr) (tb : VTable) (j : ℕ), st.heap b = some tb → p <+: tb.id →
      ¬nowhere b j := fun _ _ _ _ _ _ hx => hx
  cases hat with
  | row a i t kw e r id tr ht hp he hobj htr hid hrow hmem =>
    obtain ⟨o, rows, htree, hl, hr⟩ := hmem
    obtain ⟨o0, rows0, ho0, ho, -⟩ := hw.tree ht hp (fun hx => hx) htree
    cases ho0
    rw [hl.unique ho.lists] at hr
    obtain ⟨hw', hslot, -, hrest⟩ := delInstance_spec (P := fun p => ¬t.id ++ [i + 1, id] <+: p)
      (delTable_spec _) hw ht hp he hobj htree ho hr (fun hx => hx) (hno _) h
    obtain ⟨hfr, -, hk⟩ := hrest tr htr
    rw [hid] at hfr hk
    exact ⟨hw', _, .row a i t kw e r id tr ht hp he hobj htr hid hrow ⟨o, rows, htree, hl, by
      rw [hl.unique ho.lists]; exact hr⟩, ⟨a, i, t, kw, ht, hp, .inr ⟨⟨id, rfl⟩, hslot⟩, hfr⟩, hk fun q hq hn => hn hq⟩
  | slot a i t kw e stType ht hp he =>
    have hat : Ref.At S st ⟨i + 1, e, stType, .table a, .slot a i⟩ (t.id ++ [i + 1]) :=
      .slot a i t kw e stType ht hp he
    have hdone : SlotFrame S kw (t.id ++ [i + 1]) a i st st' →
        Keeps (fun p => ¬t.id ++ [i + 1] <+: p) st st' → HeapWf full nowhere S st' →
        HeapWf full nowhere S st' ∧ ∃ q, Ref.At S st ⟨i + 1, e, stType, .table a, .slot a i⟩ q ∧
          Deleted S st st' q := by
      intro hfr hk hw'
      exact ⟨hw', _, hat, ⟨a, i, t, kw, ht, hp, .inl rfl, hfr⟩, hk⟩
    by_cases hinst : stType = .inst
    · subst hinst
      cases h
    by_cases hobj : stType = .object
    · subst hobj
      have hobje : e.type = .object := hobjt rfl
      have hv : st.slot a i = some v := hv
      have hvc : ∃ o, v.content = .inst (some o) := by
        obtain ⟨k, hk⟩ := hw.table a t ht
        obtain ⟨t0, ht0, hvt⟩ := DmStore.slot_eq_some.mp hv
        rw [ht] at ht0
        cases ht0
        have hkp := hk.place
        rw [hp] at hkp
        cases hkp
        obtain ⟨e', he', hfit⟩ := hk.fits i v hvt
        rw [he] at he'
        cases he'
        exact fits_object hfit hobje
      obtain ⟨o, hvc⟩ := hvc
      obtain ⟨hw', hfr, hk, -⟩ := delObject_spec (t := t) (P := fun p => ¬t.id ++ [i + 1] <+: p)
        (delTable_spec _) hp he hobje (fun hx => hx)
        (fun x q hq hn => hn (List.IsPrefix.trans ⟨[x], by simp⟩ hq)) _ st st' t v o hw ht rfl (hno _) hv hvc h
      exact hdone hfr hk hw'
    · have h : delElement (delTable S (e.table + 1)) e a i st = some st' := by
        rw [← h]
        cases stType <;> first | rfl | contradiction
      obtain ⟨hw', hfr, hk⟩ := delElement_spec (P := fun p => ¬t.id ++ [i + 1] <+: p) (delTable_spec _)
        hw ht hp he (fun hx => hx) (hno _) (fun q hq hn => hn hq) h
      exact hdone hfr hk hw'

/-- `dm_del_table_by_selector`. -/
theorem delTableBySelector_spec {sel : Selector} {found : Bool} (hw : HeapWf full nowhere S st)
    (h : delTableBySelector S st sel = some (found, st')) :
    HeapWf full nowhere S st' ∧ (found = false ∧ st' = st ∨ found = true ∧ ∃ ref q,
      st.getElementRef S sel = some (some ref) ∧ ref.At S st q ∧ Deleted S st st' q) := by
  unfold delTableBySelector at h
  simp only [Option.bind_eq_bind, Option.bind_eq_some_iff] at h
  obtain ⟨r, href, h⟩ := h
  cases r with
  | none =>
    cases h
    exact ⟨hw, .inl ⟨rfl, rfl⟩⟩
  | some ref =>
    simp only [Option.bind_eq_some_iff, Option.some.injEq, Prod.mk.injEq] at h
    obtain ⟨st1, h1, rfl, rfl⟩ := h
    obtain ⟨hw', q, hat, hd⟩ := delRef_spec hw href h1
    exact ⟨hw', .inr ⟨rfl, ref, q, href, hat, hd⟩⟩

end Mand.Store
