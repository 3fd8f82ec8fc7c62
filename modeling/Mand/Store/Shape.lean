import Mand.Store.Rows

/-! # The kinds of tables

Every table of the store is an instance of a table of the schema: its slots fit the elements and point to tables of
the right kind. Unlike the paths of the tables, this does not depend on the numbers of rows. -/
namespace Mand.Store
open Mand.Index
set_option autoImplicit false

section Shape
variable (S : Schema) (kind : Addr → ℕ) (st : DmStore)

/-- A row of a table of this number. -/
def RowOf (kw : ℕ) (r : Addr) : Prop := ∃ n, st.node r = some n ∧ n.value.content = .table (some r) ∧ kind r = kw

/-- What hangs in a slot is of the kind that the element says. -/
structure SlotShape (e : DmElement) (v : DmValue) : Prop where
  fits : Fits e v.content
  ptr : ∀ b, v.content = .table (some b) → v.parity = true → (∃ t, st.heap b = some t) ∧ kind b = e.table
  obj : ∀ o, v.content = .inst (some o) → ∃ rows, o.Lists st.row rows ∧ ∀ r ∈ rows, RowOf kind st e.table r

/-- A node that says it is a row of the object in slot `j` of table `b` is one. -/
def HomeShape (r : Addr) (n : RowNode) : Prop :=
  ∀ b j, n.root = some (b, j) → b < st.next ∧ ∀ e, (∃ t, st.heap b = some t) → (S.table (kind b)).elems[j]? = some e →
    e.type = .object → n.value.content = .table (some r) ∧ kind r = e.table

structure Shaped : Prop where
  root : ∃ t, st.heap st.root = some t ∧ kind st.root = S.root
  lt : ∀ a t, st.heap a = some t → a < st.next
  len : ∀ a t, st.heap a = some t → t.values.length = (S.table (kind a)).elems.length
  slot : ∀ (a : Addr) (i : ℕ) v, st.slot a i = some v → ∃ e, (S.table (kind a)).elems[i]? = some e ∧ SlotShape kind st e v
  home : ∀ r n, st.node r = some n → HomeShape S kind st r n

end Shape

/-- What an operation leaves as it is: tables, their kinds, the rows, and what slots point to. -/
structure Frame (kind kind' : Addr → ℕ) (st st' : DmStore) : Prop where
  root : st'.root = st.root
  next : st.next ≤ st'.next
  live : ∀ b t, st.heap b = some t → (∃ t', st'.heap b = some t') ∧ kind' b = kind b
  node : ∀ b n, st.node b = some n → ∃ n', st'.node b = some n' ∧ n'.inst = n.inst ∧ n'.value.content = n.value.content
  slot : ∀ (a : Addr) (i : ℕ) v, st.slot a i = some v →
    ∃ v', st'.slot a i = some v' ∧ ∀ b, v.content = .table (some b) → v'.content = v.content

variable {S : Schema} {kind kind' kind'' : Addr → ℕ} {st st' st'' : DmStore}

theorem Frame.refl (kind : Addr → ℕ) (st : DmStore) : Frame kind kind st st where
  root := rfl
  next := le_refl _
  live := fun _ t ht => ⟨⟨t, ht⟩, rfl⟩
  node := fun _ n hn => ⟨n, hn, rfl, rfl⟩
  slot := fun _ _ v hv => ⟨v, hv, fun _ _ => rfl⟩

theorem Frame.trans (h : Frame kind kind' st st') (h' : Frame kind' kind'' st' st'') : Frame kind kind'' st st'' where
  root := h'.root.trans h.root
  next := h.next.trans h'.next
  live := by
    intro b t ht
    obtain ⟨⟨t', ht'⟩, hk⟩ := h.live b t ht
    obtain ⟨hlive, hk'⟩ := h'.live b t' ht'
    exact ⟨hlive, hk'.trans hk⟩
  node := by
    intro b n hn
    obtain ⟨n', hn', hi, hc⟩ := h.node b n hn
    obtain ⟨n'', hn'', hi', hc'⟩ := h'.node b n' hn'
    exact ⟨n'', hn'', hi'.trans hi, hc'.trans hc⟩
  slot := by
    intro a i v hv
    obtain ⟨v', hv', hc⟩ := h.slot a i v hv
    obtain ⟨v'', hv'', hc'⟩ := h'.slot a i v' hv'
    refine ⟨v'', hv'', fun b hb => ?_⟩
    rw [hc' b (by rw [hc b hb, hb]), hc b hb]

theorem RowOf.heap {kw : ℕ} {r : Addr} (h : RowOf kind st kw r) : ∃ t, st.heap r = some t := by
  obtain ⟨n, hn, -⟩ := h
  obtain ⟨t, ht, -⟩ := DmStore.node_eq_some.mp hn
  exact ⟨t, ht⟩

theorem RowOf.frame {kw : ℕ} {r : Addr} (h : RowOf kind st kw r) (hf : Frame kind kind' st st') : RowOf kind' st' kw r := by
  obtain ⟨t, ht⟩ := h.heap
  obtain ⟨n, hn, hc, hk⟩ := h
  obtain ⟨n', hn', -, hc'⟩ := hf.node r n hn
  exact ⟨n', hn', hc'.trans hc, (hf.live r t ht).2.trans hk⟩

theorem Frame.inst (hf : Frame kind kind' st st') {r : Addr} {n : RowNode} (hn : st.node r = some n) :
    (st'.row r).inst = (st.row r).inst := by
  obtain ⟨n', hn', hi, -⟩ := hf.node r n hn
  unfold DmStore.row
  rw [hn, hn']
  exact hi

theorem lists_frame {o : ObjTree} {rows : List Addr} {kw : ℕ} (hl : o.Lists st.row rows) (hrows : ∀ r ∈ rows, RowOf kind st kw r)
    (hf : Frame kind kind' st st') : o.Lists st'.row rows := by
  obtain ⟨ix, rest, ho, hix⟩ := hl
  refine ⟨ix, rest, ho, hix.congr fun r hr => ?_⟩
  obtain ⟨n, hn, -⟩ := hrows r hr
  exact hf.inst hn

theorem SlotShape.frame {e : DmElement} {v : DmValue} (h : SlotShape kind st e v) (hf : Frame kind kind' st st') :
    SlotShape kind' st' e v where
  fits := h.fits
  ptr := by
    intro b hb hp
    obtain ⟨⟨t, ht⟩, hk⟩ := h.ptr b hb hp
    obtain ⟨hlive, hk'⟩ := hf.live b t ht
    exact ⟨hlive, hk'.trans hk⟩
  obj := by
    intro o ho
    obtain ⟨rows, hl, hrows⟩ := h.obj o ho
    exact ⟨rows, lists_frame hl hrows hf, fun r hr => (hrows r hr).frame hf⟩

/-- The contents stay, or a leaf gets another value. -/
theorem SlotShape.like {e : DmElement} {v v' : DmValue} (h : SlotShape kind st e v) (hlike : SlotLike v v') :
    SlotShape kind st e v' := by
  rcases hlike with ⟨hc, hp⟩ | ⟨x, y, hx, hy⟩
  · exact ⟨by rw [hc]; exact h.fits, fun b hb hpar => h.ptr b (hc ▸ hb) (hp hpar), fun o ho => h.obj o (hc ▸ ho)⟩
  · have hfits := h.fits
    rw [hx] at hfits
    refine ⟨by rw [hy]; exact hfits, ?_, ?_⟩
    · intro b hb
      rw [hy] at hb
      cases hb
    · intro o ho
      rw [hy] at ho
      cases ho

/-- No table comes back to life. -/
def Fresh (st st' : DmStore) : Prop := ∀ b t', st'.heap b = some t' → b < st.next → ∃ t, st.heap b = some t

/-- A row stays at home. -/
theorem Shaped.stays {r : Addr} {n n' : RowNode} (h : Shaped S kind st) (hf : Frame kind kind' st st') (hfresh : Fresh st st')
    (hn : st.node r = some n) (hn' : st'.node r = some n') (hroot : n'.root = n.root) : HomeShape S kind' st' r n' := by
  obtain ⟨t, ht, -⟩ := DmStore.node_eq_some.mp hn
  obtain ⟨n1, hn1, -, hc⟩ := hf.node r n hn
  rw [hn'] at hn1
  cases hn1
  intro b j hr
  obtain ⟨hb, hhome⟩ := h.home r n hn b j (hroot ▸ hr)
  refine ⟨lt_of_lt_of_le hb hf.next, ?_⟩
  rintro e ⟨tb, htb⟩ he hobj
  obtain ⟨tb0, htb0⟩ := hfresh b tb htb hb
  rw [(hf.live b tb0 htb0).2] at he
  obtain ⟨hcont, hk⟩ := hhome e ⟨tb0, htb0⟩ he hobj
  exact ⟨hc.trans hcont, (hf.live r t ht).2.trans hk⟩

/-- What an operation has to show for the slots and nodes that it changes. -/
theorem Shaped.step (h : Shaped S kind st) (hf : Frame kind kind' st st')
    (htab : ∀ a t', st'.heap a = some t' → (∃ t, st.heap a = some t ∧ t'.values.length = t.values.length) ∨
      a < st'.next ∧ t'.values.length = (S.table (kind' a)).elems.length)
    (hslot : ∀ (a : Addr) (i : ℕ) v', st'.slot a i = some v' → (∃ v, st.slot a i = some v ∧ SlotLike v v') ∨
      ∃ e, (S.table (kind' a)).elems[i]? = some e ∧ SlotShape kind' st' e v')
    (hnode : ∀ r n', st'.node r = some n' → HomeShape S kind' st' r n') :
    Shaped S kind' st' where
  root := by
    obtain ⟨t, ht, hk⟩ := h.root
    obtain ⟨⟨t', ht'⟩, hk'⟩ := hf.live _ t ht
    rw [hf.root]
    exact ⟨t', ht', hk'.trans hk⟩
  lt := by
    intro a t' ht'
    rcases htab a t' ht' with ⟨t, ht, -⟩ | ⟨hlt, -⟩
    · exact lt_of_lt_of_le (h.lt a t ht) hf.next
    · exact hlt
  len := by
    intro a t' ht'
    rcases htab a t' ht' with ⟨t, ht, hlen⟩ | ⟨-, hlen⟩
    · rw [hlen, (hf.live a t ht).2]
      exact h.len a t ht
    · exact hlen
  slot := by
    intro a i v' hv'
    rcases hslot a i v' hv' with ⟨v, hv, hlike⟩ | hnew
    · obtain ⟨e, he, hs⟩ := h.slot a i v hv
      obtain ⟨t, ht, -⟩ := DmStore.slot_eq_some.mp hv
      refine ⟨e, ?_, (hs.frame hf).like hlike⟩
      rw [(hf.live a t ht).2]
      exact he
    · exact hnew
  home := hnode

/-- Only the kinds of tables that are there count. -/
theorem Shaped.retype (h : Shaped S kind st) (hk : ∀ b t, st.heap b = some t → kind' b = kind b) : Shaped S kind' st := by
  have hf : Frame kind kind' st st := { Frame.refl kind st with live := fun b t ht => ⟨⟨t, ht⟩, hk b t ht⟩ }
  exact h.step hf (fun a t ht => .inl ⟨t, ht, rfl⟩) (fun a i v hv => .inl ⟨v, hv, .inl ⟨rfl, id⟩⟩)
    fun r n hn => h.stays hf (fun b t ht _ => ⟨t, ht⟩) hn hn rfl

/-- Addresses are passed over. -/
theorem Shaped.skip (h : Shaped S kind st) (m : ℕ) (hm : st.next ≤ m) : Shaped S kind ⟨st.heap, m, st.root⟩ := by
  have hf : Frame kind kind st ⟨st.heap, m, st.root⟩ := { Frame.refl kind st with next := hm }
  exact h.step hf (fun a t ht => .inl ⟨t, ht, rfl⟩) (fun a i v hv => .inl ⟨v, hv, .inl ⟨rfl, id⟩⟩)
    fun r n hn => h.stays hf (fun b t ht _ => ⟨t, ht⟩) hn hn rfl

/-! ## One slot, one node -/

theorem Shaped.setSlot {a i : ℕ} {v v' : DmValue} (h : Shaped S kind st) (hst : st.setSlot a i v' = some st')
    (hv : st.slot a i = some v) (hptr : ∀ b, v.content = .table (some b) → v'.content = v.content)
    (hnew : SlotLike v v' ∨ ∀ e, (S.table (kind a)).elems[i]? = some e → SlotShape kind st e v → SlotShape kind st e v') :
    Shaped S kind st' ∧ Frame kind kind st st' := by
  obtain ⟨t, ht, -, hput⟩ := DmStore.setSlot_eq_some.mp hst
  have hheap : ∀ b, st'.heap b = if b = a then some (t.setValue i v') else st.heap b := by
    intro b
    rw [hput, DmStore.put_heap]
  have hf : Frame kind kind st st' := by
    refine ⟨by rw [hput]; rfl, by rw [hput]; exact le_refl _, ?_, ?_, ?_⟩
    · intro b tb htb
      refine ⟨?_, rfl⟩
      rw [hheap]
      split
      · exact ⟨_, rfl⟩
      · exact ⟨tb, htb⟩
    · intro b n hn
      exact ⟨n, (DmStore.node_setSlot hst).trans hn, rfl, rfl⟩
    · intro b j w hw
      rw [DmStore.slot_setSlot hst]
      by_cases hb : b = a ∧ j = i
      · rw [if_pos hb]
        rw [hb.1, hb.2, hv] at hw
        cases hw
        exact ⟨v', rfl, hptr⟩
      · rw [if_neg hb]
        exact ⟨w, hw, fun _ _ => rfl⟩
  have hfresh : Fresh st st' := by
    intro b tb htb _
    rw [hheap] at htb
    split at htb
    · next hb => exact ⟨t, hb ▸ ht⟩
    · exact ⟨tb, htb⟩
  refine ⟨h.step hf ?_ ?_ ?_, hf⟩
  · intro b tb htb
    rw [hheap] at htb
    split at htb
    · next hb =>
      cases htb
      exact .inl ⟨t, hb ▸ ht, List.length_set⟩
    · exact .inl ⟨tb, htb, rfl⟩
  · intro b j w hw
    rw [DmStore.slot_setSlot hst] at hw
    by_cases hb : b = a ∧ j = i
    · rw [if_pos hb] at hw
      cases hw
      rw [hb.1, hb.2]
      refine hnew.imp (fun hlike => ⟨v, hv, hlike⟩) fun hshape => ?_
      obtain ⟨e, he, hs⟩ := h.slot a i v hv
      exact ⟨e, he, (hshape e he hs).frame hf⟩
    · rw [if_neg hb] at hw
      exact .inl ⟨w, hw, .inl ⟨rfl, id⟩⟩
  · intro r n hn
    exact h.stays hf hfresh ((DmStore.node_setSlot hst).symm.trans hn) hn rfl

/-- The node of a row is written, or a table becomes a row. -/
theorem Shaped.setNode {r : Addr} {n' : RowNode} (h : Shaped S kind st) (hst : st.setNode r n' = some st')
    (hlike : ∀ n, st.node r = some n → n'.inst = n.inst ∧ n'.value.content = n.value.content)
    (hroot : (∃ n, st.node r = some n ∧ n'.root = n.root) ∨ HomeShape S kind st r n') :
    Shaped S kind st' ∧ Frame kind kind st st' := by
  obtain ⟨t, ht, hput⟩ := DmStore.setNode_eq_some.mp hst
  have hheap : ∀ b, st'.heap b = if b = r then some { t with node := some n' } else st.heap b := by
    intro b
    rw [hput, DmStore.put_heap]
  have hf : Frame kind kind st st' := by
    refine ⟨by rw [hput]; rfl, by rw [hput]; exact le_refl _, ?_, ?_, ?_⟩
    · intro b tb htb
      refine ⟨?_, rfl⟩
      rw [hheap]
      split
      · exact ⟨_, rfl⟩
      · exact ⟨tb, htb⟩
    · intro b n hn
      rw [DmStore.node_setNode hst]
      split
      · next hb => exact ⟨n', rfl, hlike n (hb ▸ hn)⟩
      · exact ⟨n, hn, rfl, rfl⟩
    · intro b j w hw
      exact ⟨w, (DmStore.slot_setNode hst).trans hw, fun _ _ => rfl⟩
  have hfresh : Fresh st st' := by
    intro b tb htb _
    rw [hheap] at htb
    split at htb
    · next hb => exact ⟨t, hb ▸ ht⟩
    · exact ⟨tb, htb⟩
  refine ⟨h.step hf ?_ ?_ ?_, hf⟩
  · intro b tb htb
    rw [hheap] at htb
    split at htb
    · next hb =>
      cases htb
      exact .inl ⟨t, hb ▸ ht, rfl⟩
    · exact .inl ⟨tb, htb, rfl⟩
  · intro b j w hw
    rw [DmStore.slot_setNode hst] at hw
    exact .inl ⟨w, hw, .inl ⟨rfl, id⟩⟩
  · intro b n hn
    by_cases hb : b = r
    · subst hb
      have hn' := hn
      rw [DmStore.node_setNode hst, if_pos rfl] at hn'
      cases hn'
      rcases hroot with ⟨n0, hn0, hr⟩ | hhome
      · exact h.stays hf hfresh hn0 hn hr
      · intro c j hr
        obtain ⟨hc, hrest⟩ := hhome c j hr
        refine ⟨lt_of_lt_of_le hc hf.next, ?_⟩
        rintro e ⟨tc, htc⟩ he hobj
        exact hrest e (hfresh c tc htc hc) he hobj
    · have hn0 := hn
      rw [DmStore.node_setNode hst, if_neg hb] at hn0
      exact h.stays hf hfresh hn0 hn rfl

/-! ## Rows -/

theorem Shaped.rows_length {kw : ℕ} {o : ObjTree} {rows : List Addr} (h : Shaped S kind st) (hl : o.Lists st.row rows)
    (hrows : ∀ r ∈ rows, RowOf kind st kw r) : rows.length ≤ st.next := by
  obtain ⟨ix, rest, -, hix⟩ := hl
  refine length_le_of_lt hix.nodup fun r hr => ?_
  obtain ⟨t, ht⟩ := (hrows r hr).heap
  exact h.lt r t ht

/-- The tree in a slot. -/
theorem Shaped.tree {a i : ℕ} {x : Option ObjTree} (h : Shaped S kind st) (htree : st.tree a i = some x) :
    ∃ o e, x = some o ∧ (S.table (kind a)).elems[i]? = some e ∧ e.type = .object ∧
      ∃ rows, o.Lists st.row rows ∧ ∀ r ∈ rows, RowOf kind st e.table r := by
  obtain ⟨v, hv, hc⟩ := (tree_eq_some st a i x).mp htree
  obtain ⟨e, he, hs⟩ := h.slot a i v hv
  have hfits := hs.fits
  rw [hc] at hfits
  obtain ⟨o, rfl⟩ := Option.isSome_iff_exists.mp hfits.2
  exact ⟨o, e, rfl, he, hfits.1, hs.obj o hc⟩

/-- `dm_get_instance_node_by_id` finds a row of the object. -/
theorem Shaped.find {a i id : ℕ} {x : Option ObjTree} {e : DmElement} {r : Addr} (h : Shaped S kind st)
    (htree : st.tree a i = some x) (he : (S.table (kind a)).elems[i]? = some e)
    (hfind : st.instanceNode x id = some (some r)) : RowOf kind st e.table r := by
  obtain ⟨o, e', rfl, he', -, rows, hl, hrows⟩ := h.tree htree
  rw [he] at he'
  cases he'
  have hlen := h.rows_length hl hrows
  obtain ⟨ix, rest, ho, hix⟩ := hl
  have hfuel : rows.length < st.fuel := by
    show rows.length < st.next + 2
    omega
  obtain ⟨r', hr', hiff⟩ := hix.find id st.fuel hfuel
  have heq : st.instanceNode (some o) id = some r' := by
    show findInstance st.fuel st.row o.tree 0 .inst (.int id) 0 = some r'
    unfold findInstance
    rw [ho, List.find?_cons_of_pos (by rfl)]
    exact hr'
  rw [hfind] at heq
  cases heq
  exact hrows r ((hiff r).mp rfl).1

/-- A tree is written back with rows of the same kind. -/
theorem Shaped.setTree {a i : ℕ} {o o' : ObjTree} (h : Shaped S kind st) (htree : st.tree a i = some (some o))
    (hst : setTree st a i o' = some st')
    (hrows : ∀ e, (S.table (kind a)).elems[i]? = some e → ∃ rows', o'.Lists st.row rows' ∧ ∀ r ∈ rows', RowOf kind st e.table r) :
    Shaped S kind st' ∧ Frame kind kind st st' := by
  obtain ⟨v, hv, hset⟩ := setTree_eq_some hst
  obtain ⟨w, hw, hc⟩ := (tree_eq_some st a i _).mp htree
  rw [hv] at hw
  cases hw
  refine h.setSlot hset hv (fun b hb => ?_) (.inr fun e he hs => ⟨?_, fun b hb => (nomatch hb), ?_⟩)
  · rw [hc] at hb
    cases hb
  · have hfits := hs.fits
    rw [hc] at hfits
    exact ⟨hfits.1, rfl⟩
  · intro o1 ho1
    cases ho1
    exact hrows e he

theorem Shaped.addCounter {cntr : Option (Addr × ℕ)} {d : ℕ} (h : Shaped S kind st) (hst : addCounter st cntr d = some st') :
    Shaped S kind st' ∧ Frame kind kind st st' := by
  rcases addCounter_eq_some hst with ⟨-, rfl⟩ | ⟨b, id, v, n, -, hv, -, hcont, hset⟩
  · exact ⟨h, Frame.refl kind st'⟩
  · refine h.setSlot hset hv (fun c hc => ?_) (.inl (.inr ⟨_, _, hcont, rfl⟩))
    rw [hcont] at hc
    cases hc

/-! ## Well-formed stores -/

/-- The number that the path of a table leads to. -/
def DmStore.kindOf (S : Schema) (st : DmStore) (a : Addr) : ℕ := (((st.heap a).bind fun t => S.place t.id).map Prod.fst).getD 0

theorem kindOf_eq {a kw : ℕ} {x : Bool} {t : VTable} (ht : st.heap a = some t) (hp : S.place t.id = some (kw, x)) :
    st.kindOf S a = kw := by
  unfold DmStore.kindOf
  rw [ht, Option.bind_some, hp]
  rfl

theorem HeapWf.shaped {full : Prop} (hw : HeapWf full nowhere S st) : Shaped S (st.kindOf S) st where
  root := by
    obtain ⟨t, ht, hid⟩ := hw.root
    exact ⟨t, ht, kindOf_eq (x := false) ht (by rw [hid]; rfl)⟩
  lt := by
    intro a t ht
    obtain ⟨kw, hk⟩ := hw.table a t ht
    exact hk.lt
  len := by
    intro a t ht
    obtain ⟨kw, hk⟩ := hw.table a t ht
    rw [kindOf_eq ht hk.place]
    exact hk.len
  slot := by
    intro a i v hv
    obtain ⟨t, ht, hvt⟩ := DmStore.slot_eq_some.mp hv
    obtain ⟨kw, hk⟩ := hw.table a t ht
    obtain ⟨e, he, hfits⟩ := hk.fits i v hvt
    have hs := hk.slot i v hvt id
    rw [kindOf_eq ht hk.place]
    refine ⟨e, he, hfits, ?_, ?_⟩
    · intro b hb hp
      rw [hb] at hfits
      obtain ⟨tb, htb, hid⟩ := hs.token b hb hp
      exact ⟨⟨tb, htb⟩, kindOf_eq (x := false) htb (by rw [hid]; exact place_token hk.place he hfits)⟩
    · intro o ho
      rw [ho] at hfits
      obtain ⟨rows, hrows⟩ := hs.object o ho
      refine ⟨rows, hrows.lists, fun r hr => ?_⟩
      obtain ⟨tr, n, htr, hn, -, hid, hc, -⟩ := hrows.isRow r hr
      refine ⟨n, DmStore.node_eq_some.mpr ⟨tr, htr, hn⟩, hc, kindOf_eq (x := false) htr ?_⟩
      rw [hid, List.append_cons]
      exact place_inst (by rw [place_object hk.place he hfits.1])
  home := by
    intro r n hn b j hroot
    obtain ⟨tr, htr, hnr⟩ := DmStore.node_eq_some.mp hn
    obtain ⟨kr, hkr⟩ := hw.table r tr htr
    obtain ⟨hb, hhome⟩ := hkr.home n hnr b j hroot
    refine ⟨hb, ?_⟩
    rintro e ⟨tb, htb⟩ he hobj
    obtain ⟨hid, hc, -⟩ := hhome tb htb
    obtain ⟨kb, hkb⟩ := hw.table b tb htb
    rw [kindOf_eq htb hkb.place] at he
    refine ⟨hc, kindOf_eq (x := false) htr ?_⟩
    rw [hid, List.append_cons]
    exact place_inst (by rw [place_object hkb.place he hobj])

end Mand.Store
