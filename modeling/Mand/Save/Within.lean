import Mand.Save.Serialize
import Mand.Store.Delete

/-! # The leaves below a table

The leaves of a store with the containers around them, and what it means that only flags change. -/
namespace Mand.Save
open Mand.Store Mand.Index Mand.Server
set_option autoImplicit false

variable {full : Prop} {S : Schema} {st st' st'' : DmStore}

/-- A container around a leaf: its element and, for a row, its number. -/
structure Around where
  elem : DmElement
  inst : Option ℕ

/-- The leaf of element `e` with value `v` stands at path `p` below table `a` of number `kw`, in these
containers. Those of which `keep` does not hold are not looked into. -/
inductive Within (keep : Flags → Prop) (S : Schema) (st : DmStore) :
    ℕ → Addr → Selector → List Around → DmElement → DmValue → Prop
  | leaf (kw a i : ℕ) (e : DmElement) (v : DmValue) (he : (S.table kw).elems[i]? = some e)
    (hc : e.container = false) (hv : st.slot a i = some v) : Within keep S st kw a [i + 1] [] e v
  | token (kw a i : ℕ) (e : DmElement) (v : DmValue) (b : Addr) (p : Selector) (around : List Around)
    (e' : DmElement) (v' : DmValue) (he : (S.table kw).elems[i]? = some e) (htype : e.type = .token)
    (hv : st.slot a i = some v) (hkeep : keep v.flags) (hb : v.content = .table (some b))
    (h : Within keep S st e.table b p around e' v') :
    Within keep S st kw a ((i + 1) :: p) (⟨e, none⟩ :: around) e' v'
  | row (kw a i : ℕ) (e : DmElement) (v : DmValue) (o : ObjTree) (rows : List Addr) (r : Addr) (n : RowNode)
    (b : Addr) (p : Selector) (around : List Around) (e' : DmElement) (v' : DmValue)
    (he : (S.table kw).elems[i]? = some e) (htype : e.type = .object) (hv : st.slot a i = some v)
    (hkeep : keep v.flags) (ho : v.content = .inst (some o)) (hrows : instanceRows st.fuel (some o) = some rows)
    (hr : r ∈ rows) (hn : st.node r = some n) (hnkeep : keep n.value.flags)
    (hb : n.value.content = .table (some b)) (h : Within keep S st e.table b p around e' v') :
    Within keep S st kw a ((i + 1) :: n.inst :: p) (⟨e, some n.inst⟩ :: around) e' v'

/-- Every leaf. -/
abbrev Inside := Within fun _ => True

/-- The leaves all of whose containers are marked as updated. -/
abbrev Shown := Within fun f => f.updated = true

section Cases
variable {keep : Flags → Prop} {kw a i : ℕ} {p : Selector} {around : List Around} {e e' : DmElement} {v' : DmValue}

theorem Within.path {p : Selector} {e : DmElement} {v : DmValue} (h : Within keep S st kw a p around e v) :
    ∃ i q, p = (i + 1) :: q := by
  cases h with
  | leaf kw a i e v he hc hv => exact ⟨i, [], rfl⟩
  | token kw a i e v b p around e' v' he htype hv hk hb h => exact ⟨i, p, rfl⟩
  | row kw a i e v o rows r n b p around e' v' he htype hv hk ho hrows hr hn hnk hb h =>
    exact ⟨i, n.inst :: p, rfl⟩

theorem Within.head (h : Within keep S st kw a ((i + 1) :: p) around e' v') :
    ∃ e, (S.table kw).elems[i]? = some e := by
  cases h with
  | leaf kw a i e v he hc hv => exact ⟨e', he⟩
  | token kw a i e v b p around e' v' he htype hv hk hb h => exact ⟨e, he⟩
  | row kw a i e v o rows r n b p around e' v' he htype hv hk ho hrows hr hn hnk hb h => exact ⟨e, he⟩

theorem Within.leaf_cases (h : Within keep S st kw a ((i + 1) :: p) around e' v')
    (he : (S.table kw).elems[i]? = some e) (hc : e.container = false) :
    p = [] ∧ around = [] ∧ e' = e ∧ st.slot a i = some v' := by
  cases h with
  | leaf kw a i e' v he' hc' hv =>
    rw [he] at he'
    cases he'
    exact ⟨rfl, rfl, rfl, hv⟩
  | token kw a i e' v b p around e'' v' he' htype hv hk hb h =>
    rw [he] at he'
    cases he'
    simp [DmElement.container, htype] at hc
  | row kw a i e' v o rows r n b p around e'' v' he' htype hv hk ho hrows hr hn hnk hb h =>
    rw [he] at he'
    cases he'
    simp [DmElement.container, htype] at hc

theorem Within.token_cases (h : Within keep S st kw a ((i + 1) :: p) around e' v')
    (he : (S.table kw).elems[i]? = some e) (htok : e.type = .token) :
    ∃ v b around', around = ⟨e, none⟩ :: around' ∧ st.slot a i = some v ∧ keep v.flags ∧
      v.content = .table (some b) ∧ Within keep S st e.table b p around' e' v' := by
  cases h with
  | leaf kw a i e' v he' hc' hv =>
    rw [he] at he'
    cases he'
    simp [DmElement.container, htok] at hc'
  | token kw a i e' v b p around e'' v' he' htype hv hk hb h =>
    rw [he] at he'
    cases he'
    exact ⟨v, b, around, rfl, hv, hk, hb, h⟩
  | row kw a i e' v o rows r n b p around e'' v' he' htype hv hk ho hrows hr hn hnk hb h =>
    rw [he] at he'
    cases he'
    rw [htok] at htype
    cases htype

theorem Within.row_cases (h : Within keep S st kw a ((i + 1) :: p) around e' v')
    (he : (S.table kw).elems[i]? = some e) (hobj : e.type = .object) :
    ∃ v o rows r n b q around', p = n.inst :: q ∧ around = ⟨e, some n.inst⟩ :: around' ∧
      st.slot a i = some v ∧ keep v.flags ∧ v.content = .inst (some o) ∧
      instanceRows st.fuel (some o) = some rows ∧ r ∈ rows ∧ st.node r = some n ∧ keep n.value.flags ∧
      n.value.content = .table (some b) ∧ Within keep S st e.table b q around' e' v' := by
  cases h with
  | leaf kw a i e' v he' hc' hv =>
    rw [he] at he'
    cases he'
    simp [DmElement.container, hobj] at hc'
  | token kw a i e' v b p around e'' v' he' htype hv hk hb h =>
    rw [he] at he'
    cases he'
    rw [hobj] at htype
    cases htype
  | row kw a i e' v o rows r n b p around e'' v' he' htype hv hk ho hrows hr hn hnk hb h =>
    rw [he] at he'
    cases he'
    exact ⟨v, o, rows, r, n, b, p, around, rfl, rfl, hv, hk, ho, hrows, hr, hn, hnk, hb, h⟩

end Cases

/-! ## Only flags change -/

/-- The value is the same up to flags, which only grow; that of a leaf is the same. -/
structure ValueGrown (v v' : DmValue) : Prop where
  content : v'.content = v.content
  updated : v.flags.updated = true → v'.flags.updated = true
  parity : v.parity = true → v'.parity = true
  leaf : ∀ x, v.content = .scalar x → v.parity = true → v' = v

structure NodeGrown (n n' : RowNode) : Prop where
  inst : n'.inst = n.inst
  value : ValueGrown n.value n'.value

structure Grows (st st' : DmStore) : Prop where
  root : st'.root = st.root
  next : st'.next = st.next
  slot : ∀ a i v, st.slot a i = some v → ∃ v', st'.slot a i = some v' ∧ ValueGrown v v'
  node : ∀ a n, st.node a = some n → ∃ n', st'.node a = some n' ∧ NodeGrown n n'

theorem ValueGrown.refl (v : DmValue) : ValueGrown v v := ⟨rfl, id, id, fun _ _ _ => rfl⟩

theorem ValueGrown.trans {v v' v'' : DmValue} (h : ValueGrown v v') (h' : ValueGrown v' v'') :
    ValueGrown v v'' where
  content := h'.content.trans h.content
  updated := fun hu => h'.updated (h.updated hu)
  parity := fun hp => h'.parity (h.parity hp)
  leaf := by
    intro x hx hp
    have hv := h.leaf x hx hp
    rw [← hv] at hx hp ⊢
    exact h'.leaf x hx hp

theorem NodeGrown.refl (n : RowNode) : NodeGrown n n := ⟨rfl, .refl _⟩

theorem NodeGrown.trans {n n' n'' : RowNode} (h : NodeGrown n n') (h' : NodeGrown n' n'') :
    NodeGrown n n'' := ⟨h'.inst.trans h.inst, h.value.trans h'.value⟩

theorem Grows.refl (st : DmStore) : Grows st st where
  root := rfl
  next := rfl
  slot := fun _ _ v hv => ⟨v, hv, .refl v⟩
  node := fun _ n hn => ⟨n, hn, .refl n⟩

theorem Grows.trans (h : Grows st st') (h' : Grows st' st'') : Grows st st'' where
  root := h'.root.trans h.root
  next := h'.next.trans h.next
  slot := by
    intro a i v hv
    obtain ⟨v', hv', hg⟩ := h.slot a i v hv
    obtain ⟨v'', hv'', hg'⟩ := h'.slot a i v' hv'
    exact ⟨v'', hv'', hg.trans hg'⟩
  node := by
    intro a n hn
    obtain ⟨n', hn', hg⟩ := h.node a n hn
    obtain ⟨n'', hn'', hg'⟩ := h'.node a n' hn'
    exact ⟨n'', hn'', hg.trans hg'⟩

theorem Grows.setSlot {a i : ℕ} {v v' : DmValue} (hv : st.slot a i = some v) (hg : ValueGrown v v')
    (h : st.setSlot a i v' = some st') : Grows st st' := by
  obtain ⟨t, ht, hi, rfl⟩ := DmStore.setSlot_eq_some.mp h
  refine ⟨rfl, rfl, ?_, ?_⟩
  · intro b j w hw
    rw [DmStore.slot_setSlot h]
    by_cases hb : b = a ∧ j = i
    · rw [if_pos hb]
      rw [hb.1, hb.2, hv] at hw
      cases hw
      exact ⟨v', rfl, hg⟩
    · rw [if_neg hb]
      exact ⟨w, hw, .refl w⟩
  · intro b n hn
    rw [DmStore.node_setSlot h]
    exact ⟨n, hn, .refl n⟩

theorem Grows.setNode {a : Addr} {n n' : RowNode} (hn : st.node a = some n) (hg : NodeGrown n n')
    (h : st.setNode a n' = some st') : Grows st st' := by
  obtain ⟨t, ht, rfl⟩ := DmStore.setNode_eq_some.mp h
  refine ⟨rfl, rfl, ?_, ?_⟩
  · intro b j w hw
    rw [DmStore.slot_setNode h]
    exact ⟨w, hw, .refl w⟩
  · intro b m hm
    rw [DmStore.node_setNode h]
    by_cases hb : b = a
    · rw [if_pos hb]
      rw [hb, hn] at hm
      cases hm
      exact ⟨n', rfl, hg⟩
    · rw [if_neg hb]
      exact ⟨m, hm, .refl m⟩

theorem Grows.fuel (h : Grows st st') : st'.fuel = st.fuel := by
  unfold DmStore.fuel
  rw [h.next]

/-- Leaves stay where they are while flags grow. -/
theorem Within.grows {keep keep' : Flags → Prop} {kw : ℕ} {a : Addr} {p : Selector} {around : List Around}
    {e : DmElement} {v : DmValue} (h : Within keep S st kw a p around e v) (hg : Grows st st')
    (hkeep : ∀ w w' : DmValue, ValueGrown w w' → keep w.flags → keep' w'.flags)
    (hleaf : ∃ x, v.content = .scalar x) (hpar : v.parity = true) : Within keep' S st' kw a p around e v := by
  induction h with
  | leaf kw a i e v he hc hv =>
    obtain ⟨v', hv', hgv⟩ := hg.slot a i v hv
    obtain ⟨x, hx⟩ := hleaf
    rw [hgv.leaf x hx hpar] at hv'
    exact .leaf kw a i e v he hc hv'
  | token kw a i e w b p around e' v he htype hv hk hb _ ih =>
    obtain ⟨w', hw', hgw⟩ := hg.slot a i w hv
    exact .token kw a i e w' b p around e' v he htype hw' (hkeep w w' hgw hk) (hgw.content.trans hb)
      (ih hleaf hpar)
  | row kw a i e w o rows r n b p around e' v he htype hv hk ho hrows hr hn hnk hb _ ih =>
    obtain ⟨w', hw', hgw⟩ := hg.slot a i w hv
    obtain ⟨n', hn', hgn⟩ := hg.node r n hn
    rw [← hgn.inst]
    refine .row kw a i e w' o rows r n' b p around e' v he htype hw' (hkeep w w' hgw hk)
      (hgw.content.trans ho) ?_ hr hn' (hkeep n.value n'.value hgn.value hnk) (hgn.value.content.trans hb)
      (ih hleaf hpar)
    rw [hg.fuel]
    exact hrows

theorem Shown.grows {kw : ℕ} {a : Addr} {p : Selector} {around : List Around} {e : DmElement} {v : DmValue}
    (h : Shown S st kw a p around e v) (hg : Grows st st') (hleaf : ∃ x, v.content = .scalar x)
    (hpar : v.parity = true) : Shown S st' kw a p around e v :=
  Within.grows h hg (fun _ _ hw hu => hw.updated hu) hleaf hpar

/-! ## What hangs in a table -/

section Table
variable {kw a i : ℕ} {t : VTable} {e : DmElement} {v : DmValue}

theorem HeapWf.slotAt (hw : HeapWf full nowhere S st) (ht : st.heap a = some t)
    (hp : S.place t.id = some (kw, false)) (he : (S.table kw).elems[i]? = some e) :
    ∃ v, st.slot a i = some v ∧ Fits e v.content := by
  obtain ⟨k, hk⟩ := hw.table a t ht
  have hkp := hk.place
  rw [hp] at hkp
  cases hkp
  have hi : i < t.values.length := by
    rw [hk.len]
    exact (List.getElem?_eq_some_iff.mp he).1
  have hv : t.values[i]? = some t.values[i] := List.getElem?_eq_getElem hi
  obtain ⟨e', he', hfit⟩ := hk.fits i _ hv
  rw [he] at he'
  cases he'
  exact ⟨_, DmStore.slot_eq_some.mpr ⟨t, ht, hv⟩, hfit⟩

theorem HeapWf.tokenAt (hw : HeapWf full nowhere S st) (hpar : Intact st) (ht : st.heap a = some t)
    (hp : S.place t.id = some (kw, false)) (he : (S.table kw).elems[i]? = some e) (htok : e.type = .token)
    {b : Addr} (hv : st.slot a i = some v) (hb : v.content = .table (some b)) :
    ∃ tb, st.heap b = some tb ∧ S.place tb.id = some (e.table, false) := by
  obtain ⟨k, hk⟩ := hw.table a t ht
  obtain ⟨t0, ht0, hvt⟩ := DmStore.slot_eq_some.mp hv
  rw [ht] at ht0
  cases ht0
  obtain ⟨tb, htb, hid⟩ := (hk.slot i v hvt fun hx => hx).token b hb (hpar a i v hv)
  refine ⟨tb, htb, ?_⟩
  rw [hid]
  exact place_token hp he htok

/-- The rows of an index, read off it one by one. -/
theorem instanceRows_lists {o : ObjTree} {row : Addr → Row} {rows : List Addr} {fuel : ℕ} (h : o.Lists row rows)
    (hfuel : rows.length < fuel) : instanceRows fuel (some o) = some rows := by
  obtain ⟨ix, rest, hidx, hix⟩ := h
  simp only [instanceRows, hidx, List.head?_cons, Option.bind_eq_bind, Option.bind_some]
  exact hix.walk fuel hfuel

theorem ObjWf.length_lt_fuel {kw a i : ℕ} {p : Selector} {o : ObjTree} {rows : List Addr}
    (hw : HeapWf full nowhere S st) (h : ObjWf full S st kw p a i o rows) : rows.length < st.fuel := by
  show rows.length < st.next + 2
  exact Nat.lt_succ_of_le (Nat.le_succ_of_le (ObjWf.length_le hw.lt h))

/-- The rows of an object. -/
structure RowsAt (S : Schema) (st : DmStore) (e : DmElement) (o : ObjTree) (rows : List Addr) : Prop where
  enumerated : instanceRows st.fuel (some o) = some rows
  nodup : rows.Nodup
  inj : ∀ r r' n n', r ∈ rows → r' ∈ rows → st.node r = some n → st.node r' = some n' → n.inst = n'.inst → r = r'
  row : ∀ r ∈ rows, ∃ n tr, st.node r = some n ∧ n.value.content = .table (some r) ∧
    st.heap r = some tr ∧ S.place tr.id = some (e.table, false)

theorem HeapWf.rowsAt (hw : HeapWf full nowhere S st) (ht : st.heap a = some t)
    (hp : S.place t.id = some (kw, false)) (he : (S.table kw).elems[i]? = some e) (hobj : e.type = .object)
    {o : ObjTree} (hv : st.slot a i = some v) (ho : v.content = .inst (some o)) :
    ∃ rows, RowsAt S st e o rows := by
  have htree : st.tree a i = some (some o) := (tree_eq_some st a i _).mpr ⟨v, hv, ho⟩
  obtain ⟨o0, rows, ho0, hrows, -⟩ := hw.tree ht hp (fun hx => hx) htree
  cases ho0
  have hnum : ∀ r n, st.node r = some n → (st.row r).inst = n.inst := by
    intro r n hn
    unfold DmStore.row
    rw [hn]
    rfl
  refine ⟨rows, ?_, ObjWf.nodup hrows, ?_, ?_⟩
  · exact instanceRows_lists hrows.lists (ObjWf.length_lt_fuel hw hrows)
  · obtain ⟨ix, rest, -, hix⟩ := hrows.lists
    intro r r' n n' hr hr' hn hn' hinst
    refine hix.inj r r' hr hr' ?_
    rw [hnum r n hn, hnum r' n' hn', hinst]
  · intro r hr
    obtain ⟨tr, n, htr, hn, -, hid, hc, -⟩ := hrows.isRow r hr
    refine ⟨n, tr, DmStore.node_eq_some.mpr ⟨tr, htr, hn⟩, hc, htr, ?_⟩
    have hsplit : tr.id = t.id ++ [i + 1] ++ [n.inst] := by
      rw [hid]
      simp
    rw [hsplit]
    exact place_inst (place_object hp he hobj)

/-- The value of a leaf below a table. -/
theorem Inside.scalar {keep : Flags → Prop} {p : Selector} {around : List Around}
    (h : Within keep S st kw a p around e v) (hw : HeapWf full nowhere S st) (hpar : Intact st)
    (ht : st.heap a = some t) (hp : S.place t.id = some (kw, false)) :
    (∃ x, v.content = .scalar x) ∧ v.parity = true := by
  induction h generalizing t with
  | leaf kw a i e v he hc hv =>
    refine ⟨?_, hpar a i v hv⟩
    obtain ⟨v', hv', hfit⟩ := HeapWf.slotAt hw ht hp he
    rw [hv] at hv'
    cases hv'
    cases hcont : v.content with
    | scalar x => exact ⟨x, rfl⟩
    | table x =>
      rw [hcont] at hfit
      have htok : e.type = .token := hfit
      simp [DmElement.container, htok] at hc
    | inst x =>
      rw [hcont] at hfit
      have hobj : e.type = .object := hfit.1
      simp [DmElement.container, hobj] at hc
  | token kw a i e w b p around e' v he htype hv hk hb _ ih =>
    obtain ⟨tb, htb, hpb⟩ := HeapWf.tokenAt hw hpar ht hp he htype hv hb
    exact ih htb hpb
  | row kw a i e w o rows r n b p around e' v he htype hv hk ho hrows hr hn hnk hb _ ih =>
    obtain ⟨rows', hat⟩ := HeapWf.rowsAt hw ht hp he htype hv ho
    have hsame : rows = rows' := by
      have henum := hat.enumerated
      rw [hrows] at henum
      exact Option.some.inj henum
    subst hsame
    obtain ⟨n', tr, hn', hc, htr, hpr⟩ := hat.row r hr
    rw [hn] at hn'
    cases hn'
    rw [hc] at hb
    cases hb
    exact ih htr hpr

end Table

end Mand.Save
